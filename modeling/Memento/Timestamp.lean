import Memento.Lib.Text
import Mathlib.Data.List.Count
import Mathlib.Data.Fintype.Card

/-! Times as `create_formatted_timestamp` prints them (`mementoappserver.cpp`). -/

namespace Memento
open Text

/-- `struct tm`, with the ranges `localtime` keeps. -/
structure Tm where
  /-- Years since 1900. -/
  year : Int32
  /-- Months since January. -/
  mon : Fin 12
  mday : Fin 32
  hour : Fin 24
  min : Fin 60
  sec : Fin 61
  deriving DecidableEq

/-- An item of a `strftime` pattern: one of the conversions that the patterns below use, or a character
    that stands for itself. -/
inductive Item where
  | Y | m | d | H | M | S
  | lit (b : UInt8)
  deriving DecidableEq

def Item.print (tm : Tm) : Item → Bytes
  | .Y => intText (tm.year.toInt + 1900)
  | .m => pad2 (tm.mon + 1)
  | .d => pad2 tm.mday
  | .H => pad2 tm.hour
  | .M => pad2 tm.min
  | .S => pad2 tm.sec
  | .lit b => [b]

def strftime (pattern : List Item) (tm : Tm) : Bytes := pattern.flatMap (Item.print tm)

/-- `TIMESTAMP_PATTERN`, `"%Y%m%d%H%M%S"`. -/
def timestampPattern : List Item := [.Y, .m, .d, .H, .M, .S]

/-- `XML_PATTERN`, `"%Y-%m-%dT%H:%M:%S"`. -/
def xmlPattern : List Item := [.Y, .lit 45, .m, .lit 45, .d, .lit 84, .H, .lit 58, .M, .lit 58, .S]

/-- `sizeof(formatted_time)`. -/
def formattedTimeSize : ℕ := 80

/-- `create_formatted_timestamp`. Its buffer takes what either pattern prints
    (`length_createFormattedTimestamp`), so `strftime` never gives up. -/
def createFormattedTimestamp (timestamp : Tm) (pattern : List Item) : Bytes := strftime pattern timestamp

theorem mem_intText {z : ℤ} {b : UInt8} (h : b ∈ intText z) : IsDigit b ∨ b = 45 := by
  cases z with
  | ofNat n => exact Or.inl (isDigit_natText h)
  | negSucc n =>
    rcases List.mem_cons.mp h with rfl | h
    · exact Or.inr rfl
    · exact Or.inl (isDigit_natText h)

theorem intText_ne_nil (z : ℤ) : intText z ≠ [] := by
  cases z with
  | ofNat n => exact natText_ne_nil n
  | negSucc n => exact List.cons_ne_nil _ _

theorem length_intText_le {z : ℤ} {k : ℕ} (hk : 0 < k) (hz : z.natAbs < 10 ^ k) : (intText z).length ≤ k + 1 := by
  cases z with
  | ofNat n => exact (length_natText_le hk hz).trans (Nat.le_succ k)
  | negSucc n => exact Nat.succ_le_succ (length_natText_le hk hz)

/-- A printed time holds digits, minus signs and what its pattern holds itself. -/
theorem mem_createFormattedTimestamp {tm : Tm} {pattern : List Item} {b : UInt8}
    (h : b ∈ createFormattedTimestamp tm pattern) : IsDigit b ∨ b = 45 ∨ .lit b ∈ pattern := by
  obtain ⟨item, hitem, hb⟩ := List.mem_flatMap.mp h
  cases item with
  | Y => exact (mem_intText hb).imp_right Or.inl
  | m => exact Or.inl (isDigit_pad2 hb)
  | d => exact Or.inl (isDigit_pad2 hb)
  | H => exact Or.inl (isDigit_pad2 hb)
  | M => exact Or.inl (isDigit_pad2 hb)
  | S => exact Or.inl (isDigit_pad2 hb)
  | lit c =>
    obtain rfl := List.mem_singleton.mp hb
    exact Or.inr (Or.inr hitem)

theorem notMem_createFormattedTimestamp {tm : Tm} {pattern : List Item} {c : UInt8} (hd : ¬IsDigit c) (hm : c ≠ 45)
    (hp : .lit c ∉ pattern) : c ∉ createFormattedTimestamp tm pattern := by
  intro h
  rcases mem_createFormattedTimestamp h with h | h | h
  · exact hd h
  · exact hm h
  · exact hp h

theorem length_print_le (tm : Tm) (item : Item) : (item.print tm).length ≤ if item = .Y then 11 else 2 := by
  have two : ∀ n < 100, (pad2 n).length ≤ 2 := fun n hn => (length_pad2 hn).le
  cases item with
  | Y =>
    have lo := tm.year.le_toInt
    have hi := tm.year.toInt_lt
    exact length_intText_le (by omega) (by omega)
  | m => exact two _ (by omega)
  | d => exact two _ (by omega)
  | H => exact two _ (by omega)
  | M => exact two _ (by omega)
  | S => exact two _ (by omega)
  | lit b => exact (by decide : 1 ≤ 2)

theorem length_strftime_le (tm : Tm) (pattern : List Item) :
    (strftime pattern tm).length ≤ 2 * pattern.length + 9 * pattern.count .Y := by
  induction pattern with
  | nil => rfl
  | cons item rest ih =>
    have h := length_print_le tm item
    simp only [strftime, List.flatMap_cons, List.length_append, List.length_cons, List.count_cons, beq_iff_eq] at ih ⊢
    split at h
    · rename_i hY
      subst hY
      rw [if_pos rfl]
      omega
    · rename_i hY
      rw [if_neg hY]
      omega

theorem length_createFormattedTimestamp (tm : Tm) {pattern : List Item}
    (hp : pattern = timestampPattern ∨ pattern = xmlPattern) :
    (createFormattedTimestamp tm pattern).length < formattedTimeSize := by
  have h := length_strftime_le tm pattern
  unfold createFormattedTimestamp
  rcases hp with rfl | rfl
  · exact h.trans_lt (by decide)
  · exact h.trans_lt (by decide)

theorem createFormattedTimestamp_ne_nil (tm : Tm) : createFormattedTimestamp tm timestampPattern ≠ [] := by
  simp [createFormattedTimestamp, strftime, timestampPattern, Item.print, intText_ne_nil]

end Memento
