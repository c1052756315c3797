import Memento.Theorems.CallLists
import Memento.Theorems.Pool

/-! Where a trim cuts the list. The excess is counted in calls and taken in records, so an END among the first records
    is taken in place of a call, and the cut may fall between the BEGIN and the END of a call. -/

namespace Memento
open Text

/-- The number of calls above the maximum. -/
def excess (M : ℕ) (records : List CallFragment) : ℕ := countCalls records - M

/-- What remains of the list when the records are deleted. -/
def remaining (records recordsToDelete : List CallFragment) : List CallFragment :=
  KeyedList.remove CallFragment.key recordsToDelete records

/-- The records of the repository's test: a call with its BEGIN and END, then five rejected ones. -/
def testRecords : List CallFragment :=
  [(sampleFragment "20020530093010" .BEGIN).callFragment, (sampleFragment "20020530093010" .END).callFragment,
    (sampleFragment "20020530093011" .REJECTED).callFragment, (sampleFragment "20020530093012" .REJECTED).callFragment,
    (sampleFragment "20020530093013" .REJECTED).callFragment, (sampleFragment "20020530093014" .REJECTED).callFragment,
    (sampleFragment "20020530093015" .REJECTED).callFragment]

section
variable {M : ℕ} {rand : ℤ} {rc : ResultCode} {records recordsToDelete : List CallFragment}

theorem isCallTrimNeeded_take {M : ℤ} (h : isCallTrimNeeded M rand rc records = .ok (true, recordsToDelete)) :
    M ≤ countCalls records ∧ recordsToDelete = records.take (countCalls records - M).toNat := by
  obtain ⟨sampled, -, h⟩ := bind_eq_ok.mp h
  cases sampled with
  | false => cases h
  | true =>
    rcases selectRecords_cases h with ⟨-, -, -, hle, hsel⟩ | ⟨hn, -⟩
    · exact ⟨hle, hsel⟩
    · cases hn

theorem isCallTrimNeeded_true (h : isCallTrimNeeded M rand rc records = .ok (true, recordsToDelete)) :
    M ≤ countCalls records ∧ recordsToDelete = records.take (excess M records) := by
  obtain ⟨hle, hsel⟩ := isCallTrimNeeded_take h
  refine ⟨by exact_mod_cast hle, ?_⟩
  rw [hsel, excess]
  congr 1
  omega

theorem remaining_eq_drop (sorted : KeyedList.Sorted CallFragment.key records)
    (h : isCallTrimNeeded M rand rc records = .ok (true, recordsToDelete)) :
    remaining records recordsToDelete = records.drop (excess M records) := by
  rw [remaining, (isCallTrimNeeded_true h).2, sorted.remove_take]

theorem isCallTrimNeeded_of_exceeds (hM : 1 ≤ M) (hint : M < 2 ^ 31) (hlen : records.length < 2 ^ 31)
    (hex : 11 * M < 10 * countCalls records) :
    isCallTrimNeeded M 0 .OK records = .ok (true, records.take (excess M records)) := by
  have hs : isSampled M 0 = .ok true := isSampled_of_dvd (by exact_mod_cast hM) (Int.zero_tmod _)
  have hread := selectRecords_ok hint hlen
  rw [if_pos hex] at hread
  exact bind_eq_ok.mpr ⟨true, hs, hread⟩

/-! ### The number of calls that remain -/

/-- As many calls as the maximum remain, and they are the last ones. -/
structure RestoresLimit (M : ℕ) (records recordsToDelete : List CallFragment) : Prop where
  count : countCalls (remaining records recordsToDelete) = M
  last : (remaining records recordsToDelete).filter CallFragment.isCall =
    (records.filter CallFragment.isCall).drop (excess M records)

theorem isCall_iff {f : CallFragment} : f.isCall = true ↔ f.type ≠ .END := by
  unfold CallFragment.isCall FragmentType.isCall
  cases f.type <;> simp

theorem countCalls_eq_length_iff : countCalls records = records.length ↔ ∀ f ∈ records, f.type ≠ .END := by
  rw [countCalls, List.countP_eq_length]
  exact forall₂_congr fun _ _ => isCall_iff

theorem filter_isCall_drop {n : ℕ} (h : ∀ f ∈ records.take n, f.type ≠ .END) :
    (records.drop n).filter CallFragment.isCall = (records.filter CallFragment.isCall).drop n := by
  have htake : (records.take n).filter CallFragment.isCall = records.take n :=
    List.filter_eq_self.mpr fun f hf => isCall_iff.mpr (h f hf)
  rcases le_total n records.length with hle | hle
  · have hlen : (records.take n).length = n := List.length_take_of_le hle
    nth_rewrite 2 [← List.take_append_drop n records]
    rw [List.filter_append, htake, List.drop_append_of_le_length hlen.ge, List.drop_of_length_le hlen.le, List.nil_append]
  · rw [List.drop_of_length_le hle, List.drop_of_length_le ((List.length_filter_le _ _).trans hle), List.filter_nil]

/-- A trim leaves the last calls, as many as the maximum, exactly when no END is among the records that it takes: the
    first ones, as many as there are calls above the maximum. -/
theorem restoresLimit_iff (sorted : KeyedList.Sorted CallFragment.key records)
    (h : isCallTrimNeeded M rand rc records = .ok (true, recordsToDelete)) :
    RestoresLimit M records recordsToDelete ↔ ∀ f ∈ records.take (excess M records), f.type ≠ .END := by
  obtain ⟨hle, -⟩ := isCallTrimNeeded_true h
  have hremaining := remaining_eq_drop sorted h
  have hsplit := countCalls_take_add_drop records (excess M records)
  have hlen : (records.take (excess M records)).length = excess M records :=
    List.length_take_of_le ((Nat.sub_le _ _).trans (countCalls_le records))
  have hcount : countCalls (remaining records recordsToDelete) = M ↔
      countCalls (records.take (excess M records)) = (records.take (excess M records)).length := by
    rw [hremaining, hlen]
    unfold excess at hsplit ⊢
    omega
  constructor
  · intro restores
    exact countCalls_eq_length_iff.mp (hcount.mp restores.count)
  · intro hends
    refine ⟨hcount.mpr (countCalls_eq_length_iff.mpr hends), ?_⟩
    rw [hremaining]
    exact filter_isCall_drop hends

theorem restoresLimit_iff_sample : RestoresLimit 4 (testRecords.drop 2) ((testRecords.drop 2).take 1) :=
  (restoresLimit_iff (M := 4) (by decide) (isCallTrimNeeded_of_exceeds (by norm_num) (by norm_num) (by decide) (by decide))).mpr
    (by decide)

/-- Two records are deleted for the two calls above the maximum: the BEGIN and the END of one. Five calls remain. -/
theorem testRecords_limit : KeyedList.Sorted CallFragment.key testRecords ∧ Paired testRecords ∧
    isCallTrimNeeded 4 0 .OK testRecords = .ok (true, testRecords.take 2) ∧
    ¬RestoresLimit 4 testRecords (testRecords.take 2) :=
  ⟨by decide, by decide, isCallTrimNeeded_of_exceeds (M := 4) (by norm_num) (by norm_num) (by decide) (by decide),
    fun restores => absurd restores.count (by decide)⟩

/-! ### Calls of two fragments -/

/-- The END of a call is deleted exactly when its BEGIN is, so that no END remains without it. -/
structure KeepsCallsWhole (records recordsToDelete : List CallFragment) : Prop where
  together : ∀ b ∈ records, ∀ e ∈ records, b.type = .BEGIN → e.type = .END → e.beginKey = b.key →
    (e ∈ recordsToDelete ↔ b ∈ recordsToDelete)
  paired : Paired (remaining records recordsToDelete)

theorem mem_take_of_begin {n : ℕ} (sorted : KeyedList.Sorted CallFragment.key records)
    (hcut : ∀ g, records[n]? = some g → g.type ≠ .END) {b e : CallFragment} (he : e ∈ records) (hend : e.type = .END)
    (hb : b ∈ records.take n) (hkey : e.beginKey = b.key) : e ∈ records.take n := by
  by_contra hnot
  rw [← List.take_append_drop n records] at he
  have hdrop : e ∈ records.drop n := (List.mem_append.mp he).resolve_left hnot
  obtain ⟨g, l, hg⟩ := List.exists_cons_of_ne_nil (List.ne_nil_of_mem hdrop)
  have hfirst : records[n]? = some g := by rw [← List.head?_drop, hg, List.head?_cons]
  -- The first record after the cut is after the BEGIN, so it is the END or after it.
  have hle : e.key ≤ g.key := by
    refine CallFragment.key_le_of_beginKey_lt hend ?_
    rw [hkey]
    exact sorted.take_lt_drop hb (hg ▸ List.mem_cons_self)
  have hsorted : KeyedList.Sorted CallFragment.key (g :: l) := hg ▸ sorted.sublist (List.drop_sublist _ _)
  rw [hg] at hdrop
  rcases List.mem_cons.mp hdrop with rfl | hl
  · exact hcut e hfirst hend
  · exact absurd hle (not_le.mpr ((List.pairwise_cons.mp hsorted).1 e hl))

/-- A trim keeps each call whole exactly when the first record that it keeps is not an END. -/
theorem keepsCallsWhole_iff (sorted : KeyedList.Sorted CallFragment.key records) (paired : Paired records)
    (h : isCallTrimNeeded M rand rc records = .ok (true, recordsToDelete)) :
    KeepsCallsWhole records recordsToDelete ↔ ∀ g, records[excess M records]? = some g → g.type ≠ .END := by
  have hremaining := remaining_eq_drop sorted h
  obtain ⟨-, rfl⟩ := isCallTrimNeeded_true h
  constructor
  · intro whole g hg
    obtain ⟨l, hl⟩ : ∃ l, records.drop (excess M records) = g :: l :=
      List.head?_eq_some_iff.mp ((List.head?_drop).trans hg)
    have hpaired : Paired (g :: l) := hl ▸ hremaining ▸ whole.paired
    have hsorted : KeyedList.Sorted CallFragment.key (g :: l) := hl ▸ sorted.sublist (List.drop_sublist _ _)
    exact isCall_iff.mp (isCall_head hsorted hpaired)
  · intro hcut
    refine ⟨fun b hb e he _ hend hkey => ⟨fun htake => ?_, fun htake => ?_⟩, ?_⟩
    · refine sorted.mem_take_of_lt hb htake ?_
      rw [← hkey]
      exact CallFragment.beginKey_lt hend
    · exact mem_take_of_begin sorted hcut he hend htake hkey
    · rw [hremaining]
      refine paired.drop fun g hg hend hmem => ?_
      obtain ⟨b, hb, hkey⟩ := List.mem_map.mp hmem
      have htake := mem_take_of_begin sorted hcut (List.mem_of_mem_drop hg) hend hb hkey.symm
      exact lt_irrefl _ (sorted.take_lt_drop htake hg)

theorem keepsCallsWhole_iff_sample : KeepsCallsWhole testRecords (testRecords.take 2) :=
  (keepsCallsWhole_iff (M := 4) (by decide) (by decide)
    (isCallTrimNeeded_of_exceeds (by norm_num) (by norm_num) (by decide) (by decide))).mpr (by decide)

/-- With one call above the maximum its BEGIN is deleted, and its END remains. -/
theorem testRecords_split : KeyedList.Sorted CallFragment.key testRecords ∧ Paired testRecords ∧
    isCallTrimNeeded 5 0 .OK testRecords = .ok (true, testRecords.take 1) ∧
    ¬KeepsCallsWhole testRecords (testRecords.take 1) :=
  ⟨by decide, by decide, isCallTrimNeeded_of_exceeds (M := 5) (by norm_num) (by norm_num) (by decide) (by decide),
    fun whole => absurd whole.paired (by decide)⟩

end

end Memento
