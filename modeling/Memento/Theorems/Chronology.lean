import Memento.Lib.Civil
import Memento.Lib.TextOrder
import Memento.MementoAppServer
import Memento.Theorems.TrimCut

/-! The order of printed local times. A call is stored under the local time at which it began, so the order of the list is
    that of the local clock: where the clock goes back, a later call comes before an earlier one, and is deleted first. -/

namespace Memento
open Text

/-! ### Civil time -/

/-- The seconds from the beginning of the year 0 to that second, which is counted from the beginning of 1970. -/
def clock (second : ℤ) : ℕ := (second + 62167219200).toNat

/-- The civil date and time of a second. -/
def civilTime (second : ℤ) : Tm where
  year := Int32.ofInt (Civil.year (clock second / 86400) - 1900)
  mon := ⟨Civil.month (clock second / 86400), Civil.month_lt _⟩
  mday := ⟨Civil.dayOfMonth (clock second / 86400), Civil.dayOfMonth_lt _⟩
  hour := ⟨clock second / 3600 % 24, Nat.mod_lt _ (by norm_num)⟩
  min := ⟨clock second / 60 % 60, Nat.mod_lt _ (by norm_num)⟩
  sec := ⟨clock second % 60, (Nat.mod_lt _ (by norm_num)).trans (by norm_num)⟩

/-- The first second of the year 10000. -/
def year10000 : ℤ := 253402300800

/-- Local time is the civil time at an offset of a day at most. -/
structure Zone (env : Env) (offset : ℤ → ℤ) : Prop where
  localtime : ∀ t, 0 ≤ t → t < year10000 → env.localtime t = civilTime (t + offset t)
  offset : ∀ t, -86400 ≤ offset t ∧ offset t ≤ 86400

/-- What a conversion prints of a time. -/
def field (time : ℕ) : Item → ℕ
  | .Y => Civil.year (time / 86400)
  | .m => Civil.month (time / 86400) + 1
  | .d => Civil.dayOfMonth (time / 86400)
  | .H => time / 3600 % 24
  | .M => time / 60 % 60
  | .S => time % 60
  | .lit _ => 0

def Item.text : Item → ℕ → Bytes
  | .Y, n => natText n
  | .lit b, _ => [b]
  | .m, n | .d, n | .H, n | .M, n | .S, n => pad2 n

theorem toInt_year {y : ℕ} (h : y < 2 ^ 31) : (Int32.ofInt (y - 1900)).toInt + 1900 = y := by
  rw [Int32.toInt_ofInt, Int.bmod_eq_of_le]
  · ring
  · simp [Int32.size]
    omega
  · simp [Int32.size]
    omega

def printed (time : ℕ) (pattern : List Item) : Bytes := pattern.flatMap fun item => item.text (field time item)

theorem print_civilTime {second : ℤ} (h : field (clock second) .Y < 2 ^ 31) (item : Item) :
    item.print (civilTime second) = item.text (field (clock second) item) := by
  cases item with
  | Y =>
    have hyear : (civilTime second).year.toInt + 1900 = (field (clock second) .Y : ℕ) := toInt_year h
    rw [Item.print, hyear, intText_natCast, Item.text]
  | m | d | H | M | S | lit => rfl

theorem createFormattedTimestamp_civilTime {second : ℤ} (h : field (clock second) .Y < 2 ^ 31) (pattern : List Item) :
    createFormattedTimestamp (civilTime second) pattern = printed (clock second) pattern := by
  rw [createFormattedTimestamp, strftime, printed]
  exact congrArg (pattern.flatMap ·) (funext (print_civilTime h))

/-! ### The order of the fields -/

/-- The first of the listed fields that differs is lower. -/
def Precedes (v w : Item → ℕ) : List Item → Prop
  | [] => False
  | item :: rest => v item < w item ∨ v item = w item ∧ Precedes v w rest

theorem precedes_of_lt {s t : ℕ} (h : s < t) : Precedes (field s) (field t) timestampPattern := by
  simp only [Precedes, timestampPattern, field, and_false, or_false, add_left_inj, add_lt_add_iff_right]
  rcases (Nat.div_le_div_right h.le : s / 86400 ≤ t / 86400).lt_or_eq with hday | hday
  · rcases Civil.date_lt hday with hy | ⟨hy, hm | ⟨hm, hd⟩⟩
    · exact Or.inl hy
    · exact Or.inr ⟨hy, Or.inl hm⟩
    · exact Or.inr ⟨hy, Or.inr ⟨hm, Or.inl hd⟩⟩
  · rw [hday]
    refine Or.inr ⟨rfl, Or.inr ⟨rfl, Or.inr ⟨rfl, ?_⟩⟩⟩
    omega

/-- The characters between the fields decide nothing. -/
theorem precedes_xmlPattern {s t : ℕ} :
    Precedes (field s) (field t) xmlPattern ↔ Precedes (field s) (field t) timestampPattern := by
  simp [Precedes, timestampPattern, xmlPattern, field]

/-- Years of as many digits. -/
def SameWidth (s t : ℕ) : Prop := (natText (field s .Y)).length = (natText (field t .Y)).length

theorem field_lt {item : Item} (hY : item ≠ .Y) (time : ℕ) : field time item < 100 := by
  cases item with
  | Y => exact absurd rfl hY
  | m =>
    have := Civil.month_lt (time / 86400)
    rw [field]
    omega
  | d => exact (Civil.dayOfMonth_lt _).trans (by norm_num)
  | H | M | S =>
    rw [field]
    omega
  | lit => exact Nat.succ_pos _

theorem length_text_eq {s t : ℕ} (hw : SameWidth s t) (item : Item) :
    (item.text (field s item)).length = (item.text (field t item)).length := by
  have two : ∀ {item : Item}, item ≠ .Y → (pad2 (field s item)).length = (pad2 (field t item)).length := fun hY => by
    rw [length_pad2 (field_lt hY s), length_pad2 (field_lt hY t)]
  cases item with
  | Y => exact hw
  | lit => rfl
  | m | d | H | M | S => exact two nofun

theorem before_text {s t : ℕ} (hw : SameWidth s t) {item : Item} (h : field s item < field t item) :
    Before (item.text (field s item)) (item.text (field t item)) := by
  have two : item ≠ .Y → Before (pad2 (field s item)) (pad2 (field t item)) := fun hY => before_pad2 h (field_lt hY t)
  cases item with
  | Y => exact before_natText hw h
  | lit => exact absurd h (lt_irrefl 0)
  | m | d | H | M | S => exact two nofun

theorem before_printed {s t : ℕ} (hw : SameWidth s t) {pattern : List Item} (h : Precedes (field s) (field t) pattern) :
    Before (printed s pattern) (printed t pattern) := by
  induction pattern with
  | nil => exact h.elim
  | cons item rest ih =>
    rw [printed, printed, List.flatMap_cons, List.flatMap_cons]
    rcases h with hlt | ⟨heq, h⟩
    · exact (before_text hw hlt).append (length_text_eq hw item) _ _
    · rw [heq]
      exact (ih h).append_left _

/-! ### The years -/

/-- Local times that `localtime` can give for a second of the years 1970 to 9999. -/
def InRange (second : ℤ) : Prop := -86400 ≤ second ∧ second < year10000 + 86400

theorem year_lt_10000_iff {second : ℤ} : field (clock second) .Y < 10000 ↔ second < year10000 := by
  have hdays : Civil.daysBeforeYear 10000 = 3652425 := by decide
  rw [field, Civil.year_lt_iff, hdays, clock, year10000]
  omega

theorem year_bounds {second : ℤ} (h : InRange second) :
    1001 ≤ field (clock second) .Y ∧ field (clock second) .Y < 10001 := by
  obtain ⟨hlo, hhi⟩ := h
  have hfirst : Civil.daysBeforeYear 1001 = 365608 := by decide
  have hlast : Civil.daysBeforeYear 10001 = 3652791 := by decide
  rw [year10000] at hhi
  refine ⟨?_, ?_⟩
  · by_contra hlt
    rw [field, not_le, Civil.year_lt_iff, hfirst, clock] at hlt
    omega
  · rw [field, Civil.year_lt_iff, hlast, clock]
    omega

/-- The order of what is printed: that of the seconds, but the year 10000, with its fifth digit, comes first. -/
def PrintsBefore (a b : ℤ) : Prop := (year10000 ≤ a ∧ b < year10000) ∨ ((a < year10000 ↔ b < year10000) ∧ a < b)

instance : DecidableRel PrintsBefore := fun _ _ => inferInstanceAs (Decidable (_ ∨ _))

section Printed
variable {a b : ℤ} (ha : InRange a) (hb : InRange b)
include ha hb

theorem sameWidth_of_iff (h : a < year10000 ↔ b < year10000) : SameWidth (clock a) (clock b) := by
  have four : ∀ {second : ℤ}, InRange second → second < year10000 → (natText (field (clock second) .Y)).length = 4 :=
    fun hr hlt => length_natText (by have := (year_bounds hr).1; omega) (year_lt_10000_iff.mpr hlt)
  have last : ∀ {second : ℤ}, InRange second → ¬second < year10000 → field (clock second) .Y = 10000 := fun hr hge =>
    le_antisymm (Nat.le_of_lt_succ (year_bounds hr).2) (not_lt.mp fun hlt => hge (year_lt_10000_iff.mp hlt))
  by_cases hlt : a < year10000
  · exact (four ha hlt).trans (four hb (h.mp hlt)).symm
  · rw [SameWidth, last ha hlt, last hb fun hlt' => hlt (h.mpr hlt')]

theorem before_of_printsBefore {pattern : List Item} (hp : pattern = timestampPattern ∨ pattern = xmlPattern)
    (h : PrintsBefore a b) : Before (printed (clock a) pattern) (printed (clock b) pattern) := by
  rcases h with ⟨hge, hlt⟩ | ⟨hiff, hlt⟩
  · obtain ⟨rest, rfl⟩ : ∃ rest, pattern = .Y :: rest := by
      rcases hp with rfl | rfl
      · exact ⟨_, rfl⟩
      · exact ⟨_, rfl⟩
    have hyear : field (clock a) .Y = 10000 :=
      le_antisymm (Nat.le_of_lt_succ (year_bounds ha).2) (not_lt.mp fun h => not_lt.mpr hge (year_lt_10000_iff.mp h))
    have hfour := year_lt_10000_iff.mpr hlt
    have hbound := (year_bounds hb).1
    -- The first four of its five digits are those of 1000.
    have hdigits : natText 10000 = natText 1000 ++ [48] := by decide
    rw [printed, printed, List.flatMap_cons, List.flatMap_cons, hyear, Item.text, Item.text, hdigits, List.append_assoc]
    refine (before_natText ?_ hbound).append ?_ _ _
    · rw [length_natText (k := 3) (by norm_num) (by norm_num), length_natText (k := 3) (by omega) hfour]
    · rw [length_natText (k := 3) (by norm_num) (by norm_num), length_natText (k := 3) (by omega) hfour]
  · have hclock : clock a < clock b := by
      have := ha.1
      rw [clock, clock]
      omega
    refine before_printed (sameWidth_of_iff ha hb hiff) ?_
    rcases hp with rfl | rfl
    · exact precedes_of_lt hclock
    · exact precedes_xmlPattern.mpr (precedes_of_lt hclock)

/-- Local times are printed in their order exactly when they are in it, as far as years have four digits. -/
theorem before_iff {pattern : List Item} (hp : pattern = timestampPattern ∨ pattern = xmlPattern) :
    Before (createFormattedTimestamp (civilTime a) pattern) (createFormattedTimestamp (civilTime b) pattern) ↔
      PrintsBefore a b := by
  rw [createFormattedTimestamp_civilTime ((year_bounds ha).2.trans (by norm_num)),
    createFormattedTimestamp_civilTime ((year_bounds hb).2.trans (by norm_num))]
  refine ⟨fun h => ?_, before_of_printsBefore ha hb hp⟩
  by_contra hn
  have hor : a = b ∨ PrintsBefore b a := by
    unfold PrintsBefore at hn ⊢
    omega
  rcases hor with rfl | hba
  · exact lt_irrefl _ h
  · exact lt_asymm h (before_of_printsBefore hb ha hp hba)

end Printed

/-! ### The order of calls -/

/-- What a call that begins at a second is stored under. -/
def startTime (env : Env) (t : ℤ) : Bytes := createFormattedTimestamp (env.localtime t) timestampPattern

/-- A call that begins at the second `t₁` is stored before one that begins at `t₂`, no trim deletes the latter and keeps
    the former, and the times of the contents are in that order. -/
structure Chronological (env : Env) (t₁ t₂ : ℤ) : Prop where
  key : (startTime env t₁).map UInt8.toNat ≤ (startTime env t₂).map UInt8.toNat
  trim : ∀ {M rand : ℤ} {rc : ResultCode} {records recordsToDelete : List CallFragment},
    KeyedList.Sorted CallFragment.key records → isCallTrimNeeded M rand rc records = .ok (true, recordsToDelete) →
    ∀ f ∈ recordsToDelete, f.timestamp = startTime env t₂ →
      ∀ g ∈ remaining records recordsToDelete, g.timestamp ≠ startTime env t₁
  xml : (createFormattedTimestamp (env.localtime t₁) xmlPattern).map UInt8.toNat ≤
    (createFormattedTimestamp (env.localtime t₂) xmlPattern).map UInt8.toNat

theorem key_lt_of_before {f g : CallFragment} (h : Before f.timestamp g.timestamp) : f.key < g.key := by
  change Key.sortKey _ < Key.sortKey _
  rw [Key.sortKey, Key.sortKey, Prod.Lex.toLex_lt_toLex]
  exact Or.inl h

/-- Of two calls, one above the maximum, the first is deleted. -/
theorem exists_trim {f g : CallFragment} (hlt : f.key < g.key) (hf : f.isCall = true) (hg : g.isCall = true) :
    KeyedList.Sorted CallFragment.key [f, g] ∧ isCallTrimNeeded 1 0 .OK [f, g] = .ok (true, [f]) ∧
      g ∈ remaining [f, g] [f] := by
  have hs : KeyedList.Sorted CallFragment.key [f, g] := List.pairwise_pair.mpr hlt
  have hcount : countCalls [f, g] = 2 := by simp [countCalls, hf, hg]
  have hneeded : isCallTrimNeeded (1 : ℕ) 0 .OK [f, g] = .ok (true, [f, g].take (excess 1 [f, g])) :=
    isCallTrimNeeded_of_exceeds le_rfl (by norm_num) (by norm_num) (by rw [hcount]; norm_num)
  rw [excess, hcount] at hneeded
  have hremaining : remaining [f, g] [f] = [g] := hs.remove_take 1
  exact ⟨hs, hneeded, by rw [hremaining]; exact .head _⟩

section Zone
variable {env : Env} {offset : ℤ → ℤ} (zone : Zone env offset) {t₁ t₂ : ℤ}

theorem chronological_of_before (hkey : Before (startTime env t₁) (startTime env t₂))
    (hxml : Before (createFormattedTimestamp (env.localtime t₁) xmlPattern)
      (createFormattedTimestamp (env.localtime t₂) xmlPattern)) : Chronological env t₁ t₂ where
  key := hkey.le
  trim sorted h f hf hft g hg hgt := by
    obtain ⟨-, rfl⟩ := isCallTrimNeeded_take h
    rw [remaining, sorted.remove_take] at hg
    have hlt : g.key < f.key := key_lt_of_before (by rwa [hgt, hft])
    exact lt_asymm hlt (sorted.take_lt_drop hf hg)
  xml := hxml.le

theorem before_of_chronological (h : Chronological env t₁ t₂) : Before (startTime env t₁) (startTime env t₂) := by
  by_contra hn
  have hlt : (⟨startTime env t₂, ascii "1", .REJECTED, []⟩ : CallFragment).key <
      (⟨startTime env t₁, ascii "2", .REJECTED, []⟩ : CallFragment).key := by
    change Key.sortKey _ < Key.sortKey _
    simp only [Key.sortKey, CallFragment.key, Prod.Lex.toLex_lt_toLex]
    rcases (not_lt.mp hn).lt_or_eq with hlt | heq
    · exact Or.inl hlt
    · exact Or.inr ⟨heq, Or.inl (by decide)⟩
  obtain ⟨sorted, hneeded, hkept⟩ := exists_trim hlt rfl rfl
  exact h.trim sorted hneeded _ (.head _) rfl _ hkept rfl

include zone

/-- Two calls are in order exactly when the local clock has gone on from the one to the other. -/
theorem chronological_iff (h₀ : 0 ≤ t₁) (hlt : t₁ < t₂) (h₂ : t₂ < year10000) :
    Chronological env t₁ t₂ ↔ PrintsBefore (t₁ + offset t₁) (t₂ + offset t₂) := by
  have range : ∀ t, 0 ≤ t → t < year10000 → InRange (t + offset t) := fun t h h' => by
    have := zone.offset t
    rw [InRange]
    omega
  have before : ∀ {pattern : List Item}, pattern = timestampPattern ∨ pattern = xmlPattern →
      (Before (createFormattedTimestamp (env.localtime t₁) pattern) (createFormattedTimestamp (env.localtime t₂) pattern) ↔
        PrintsBefore (t₁ + offset t₁) (t₂ + offset t₂)) := fun hp => by
    rw [zone.localtime t₁ h₀ (hlt.trans h₂), zone.localtime t₂ (h₀.trans hlt.le) h₂]
    exact before_iff (range t₁ h₀ (hlt.trans h₂)) (range t₂ (h₀.trans hlt.le) h₂) hp
  constructor
  · intro h
    exact (before (Or.inl rfl)).mp (before_of_chronological h)
  · intro h
    exact chronological_of_before ((before (Or.inl rfl)).mpr h) ((before (Or.inr rfl)).mpr h)

end Zone

/-- Central European summer time ends on 29 October 2023. -/
def centralEurope (t : ℤ) : ℤ := if t < 1698541200 then 7200 else 3600

def centralEuropeEnv : Env := ⟨fun t => civilTime (t + centralEurope t), Base64.standard⟩

theorem centralEurope_zone : Zone centralEuropeEnv centralEurope where
  localtime _ _ _ := rfl
  offset t := by
    unfold centralEurope
    split <;> omega

theorem chronological_iff_sample : Chronological centralEuropeEnv 1698541200 1698541201 :=
  (chronological_iff centralEurope_zone (by norm_num) (by norm_num) (by decide)).mpr (by decide)

/-- The second after 02:59:59 is 02:00:00. -/
theorem summerTime_not_chronological : Zone centralEuropeEnv centralEurope ∧
    startTime centralEuropeEnv 1698541199 = ascii "20231029025959" ∧
    startTime centralEuropeEnv 1698541200 = ascii "20231029020000" ∧
    ¬Chronological centralEuropeEnv 1698541199 1698541200 := by
  have hsummer : startTime centralEuropeEnv 1698541199 = ascii "20231029025959" := by decide +kernel
  have hwinter : startTime centralEuropeEnv 1698541200 = ascii "20231029020000" := by decide +kernel
  refine ⟨centralEurope_zone, hsummer, hwinter, fun h => ?_⟩
  have hkey := h.key
  rw [hsummer, hwinter] at hkey
  exact absurd hkey (by decide)

end Memento
