import Memento.CallListStoreProcessor

/-! What `is_call_trim_needed` selects: the first records, as many as there are calls above the maximum. For a
    maximum that is not negative nothing in it is undefined; for a negative one something is. -/

namespace Memento
open Text

/-! ### The loop -/

theorem copyRecords_of_le (numToDelete : ℤ) : ∀ (records : List CallFragment) (ii : ℤ), ii ≤ numToDelete →
    numToDelete ≤ ii + records.length → copyRecords numToDelete ii records = .ok (records.take (numToDelete - ii).toNat)
  | [], ii, hle, hlen => by
    have heq : ii = numToDelete := le_antisymm hle (by simpa using hlen)
    rw [copyRecords, if_pos heq, List.take_nil]
  | record :: records, ii, hle, hlen => by
    rw [copyRecords]
    split
    · rename_i heq
      rw [heq, sub_self, Int.toNat_zero, List.take_zero]
    · rename_i hne
      have hlt : ii < numToDelete := lt_of_le_of_ne hle hne
      have hnat : (numToDelete - ii).toNat = (numToDelete - (ii + 1)).toNat + 1 := by omega
      rw [List.length_cons] at hlen
      rw [copyRecords_of_le numToDelete records (ii + 1) (by omega) (by push_cast at hlen; omega), hnat, List.take_succ_cons]
      rfl

theorem copyRecords_of_lt (numToDelete : ℤ) : ∀ (records : List CallFragment) (ii : ℤ), ii + records.length < numToDelete →
    copyRecords numToDelete ii records = .error .outOfRange
  | [], ii, h => by
    rw [copyRecords, if_neg (by simpa using h.ne)]
  | record :: records, ii, h => by
    rw [List.length_cons] at h
    push_cast at h
    rw [copyRecords, if_neg (by omega), copyRecords_of_lt numToDelete records (ii + 1) (by omega)]
    rfl

/-! ### The threshold -/

/-- For an `int` that is not negative the rounded product compares as 110% does. -/
theorem exceedsThreshold_iff {count maxCallListLength : ℕ} (hM : maxCallListLength < 2 ^ 31) :
    exceedsThreshold count maxCallListLength = true ↔ 11 * maxCallListLength < 10 * count := by
  have hlt : maxCallListLength * 2476979795053773 < 2 ^ (53 + 30) := by
    calc maxCallListLength * 2476979795053773 < 2 ^ 31 * 2476979795053773 := Nat.mul_lt_mul_of_pos_right hM (by norm_num)
      _ ≤ 2 ^ (53 + 30) := by norm_num
  have hcast : exceedsThreshold count maxCallListLength =
      decide (Binary64.roundNat (maxCallListLength * 2476979795053773) < count * 2 ^ 51) := by
    unfold exceedsThreshold
    rw [show (maxCallListLength : ℤ) * 2476979795053773 = ((maxCallListLength * 2476979795053773 : ℕ) : ℤ) by push_cast; rfl,
      Binary64.round_natCast, decide_eq_decide]
    exact_mod_cast Iff.rfl
  rw [hcast, decide_eq_true_eq]
  have hulp := Binary64.ulp_le hlt
  constructor
  · intro h
    by_contra hle
    -- `count * 2 ^ 51` is below the product and representable, so it is below the rounded product.
    have hdvd : Binary64.ulp (maxCallListLength * 2476979795053773) ∣ count * 2 ^ 51 :=
      (Binary64.ulp_dvd hlt).trans (Dvd.dvd.mul_left (pow_dvd_pow 2 (by norm_num)) count)
    have hround := Binary64.le_roundNat (m := count * 2 ^ 51) (by omega) hdvd
    omega
  · intro h
    have hround := Binary64.roundNat_le (maxCallListLength * 2476979795053773)
    omega

theorem exceedsThreshold_of_neg (count : ℕ) {maxCallListLength : ℤ} (hM : maxCallListLength < 0) :
    exceedsThreshold count maxCallListLength = true := by
  have hneg := Binary64.round_neg (z := maxCallListLength * 2476979795053773) (by omega)
  simp only [exceedsThreshold, decide_eq_true_eq]
  exact hneg.trans_le (by positivity)

/-! ### Sampling -/

theorem sampleInterval_eq_zero {M : ℤ} : sampleInterval M = 0 ↔ M = 0 ∨ -19 ≤ M ∧ M ≤ -11 := by
  unfold sampleInterval
  obtain ⟨n, rfl | rfl⟩ := Int.eq_nat_or_neg M
  · rw [Int.tdiv_eq_ediv_of_nonneg n.cast_nonneg, Int.tmod_eq_emod_of_nonneg n.cast_nonneg]
    split <;> omega
  · rw [Int.neg_tdiv, Int.neg_tmod, Int.tdiv_eq_ediv_of_nonneg n.cast_nonneg, Int.tmod_eq_emod_of_nonneg n.cast_nonneg]
    split <;> omega

theorem isSampled_of_dvd {M rand : ℤ} (hM : 1 ≤ M) (hr : rand.tmod (sampleInterval M) = 0) :
    isSampled M rand = .ok true := by
  unfold isSampled
  rw [if_neg (by omega), if_neg fun h => by have := sampleInterval_eq_zero.mp h; omega, hr]
  rfl

theorem isSampled_ok {M : ℤ} (hM : 0 ≤ M) (rand : ℤ) : ∃ sampled, isSampled M rand = .ok sampled := by
  unfold isSampled
  split
  · exact ⟨_, rfl⟩
  · rw [if_neg fun h => by have := sampleInterval_eq_zero.mp h; omega]
    exact ⟨_, rfl⟩

/-! ### The selection -/

theorem copyRecords_of_gt (numToDelete : ℤ) : ∀ (records : List CallFragment) (ii : ℤ), numToDelete < ii →
    copyRecords numToDelete ii records = .error .outOfRange
  | [], ii, h => by rw [copyRecords, if_neg h.ne']
  | record :: records, ii, h => by
    rw [copyRecords, if_neg h.ne', copyRecords_of_gt numToDelete records (ii + 1) (by omega)]
    rfl

/-- The loop ends, having copied the first records, exactly when there are enough of them. -/
theorem copyRecords_eq_ok {numToDelete : ℤ} {records recordsToDelete : List CallFragment} :
    copyRecords numToDelete 0 records = .ok recordsToDelete ↔
      0 ≤ numToDelete ∧ numToDelete ≤ records.length ∧ recordsToDelete = records.take numToDelete.toNat := by
  rcases lt_or_ge numToDelete 0 with hneg | hpos
  · rw [copyRecords_of_gt numToDelete records 0 hneg]
    exact iff_of_false nofun fun h => absurd h.1 (not_le.mpr hneg)
  · rcases lt_or_ge (records.length : ℤ) numToDelete with hlt | hle
    · rw [copyRecords_of_lt numToDelete records 0 (by omega)]
      exact iff_of_false nofun fun h => absurd h.2.1 (not_le.mpr hlt)
    · rw [copyRecords_of_le numToDelete records 0 hpos (by omega), sub_zero]
      constructor
      · intro h
        cases h
        exact ⟨hpos, hle, rfl⟩
      · rintro ⟨-, -, rfl⟩
        rfl

theorem checkInt_eq_ok {z y : ℤ} : checkInt z = .ok y ↔ IsInt z ∧ y = z := by
  unfold checkInt
  split
  · rename_i h
    constructor
    · intro heq
      cases heq
      exact ⟨h, rfl⟩
    · rintro ⟨-, rfl⟩
      rfl
  · rename_i h
    exact iff_of_false nofun fun h' => h h'.1

def countCalls (records : List CallFragment) : ℕ := records.countP CallFragment.isCall

theorem bind_eq_ok {ε α β : Type} {x : Except ε α} {f : α → Except ε β} {b : β} :
    x >>= f = .ok b ↔ ∃ a, x = .ok a ∧ f a = .ok b := by
  cases x with
  | error e => exact iff_of_false nofun fun ⟨_, h, _⟩ => nomatch h
  | ok a =>
    refine ⟨fun h => ⟨a, rfl, h⟩, ?_⟩
    rintro ⟨a', ha, h⟩
    cases ha
    exact h

/-- A trim is needed when the store has answered and holds too many calls. It takes the first records, as many as
    there are calls above the maximum. -/
theorem selectRecords_cases {M : ℤ} {rc : ResultCode} {records recordsToDelete : List CallFragment} {needed : Bool}
    (h : selectRecords M rc records = .ok (needed, recordsToDelete)) :
    (needed = true ∧ rc = .OK ∧ exceedsThreshold (countCalls records) M = true ∧ M ≤ countCalls records ∧
      recordsToDelete = records.take (countCalls records - M).toNat) ∨
    (needed = false ∧ (rc = .OK → exceedsThreshold (countCalls records) M = false)) := by
  unfold selectRecords at h
  split at h
  · rename_i hrc
    obtain ⟨count, hcount, h⟩ := bind_eq_ok.mp h
    obtain ⟨-, rfl⟩ := checkInt_eq_ok.mp hcount
    split at h
    · rename_i hex
      obtain ⟨numToDelete, hnum, h⟩ := bind_eq_ok.mp h
      obtain ⟨-, rfl⟩ := checkInt_eq_ok.mp hnum
      obtain ⟨selected, hcopy, h⟩ := bind_eq_ok.mp h
      cases h
      obtain ⟨hle, -, rfl⟩ := copyRecords_eq_ok.mp hcopy
      exact Or.inl ⟨rfl, hrc, hex, sub_nonneg.mp hle, rfl⟩
    · rename_i hex
      cases h
      exact Or.inr ⟨rfl, fun _ => Bool.eq_false_iff.mpr hex⟩
  · rename_i hrc
    cases h
    exact Or.inr ⟨rfl, fun h => absurd h hrc⟩

theorem checkInt_ok {z : ℤ} (h : IsInt z) : checkInt z = .ok z := if_pos h

theorem countCalls_le (records : List CallFragment) : countCalls records ≤ records.length := List.countP_le_length

/-- The check for an `int` that is not negative, on a list whose length is an `int`. -/
theorem selectRecords_ok {M : ℕ} (hM : M < 2 ^ 31) {records : List CallFragment} (hlen : records.length < 2 ^ 31) :
    selectRecords M .OK records =
      .ok (if 11 * M < 10 * countCalls records then (true, records.take (countCalls records - M)) else (false, [])) := by
  have hle := countCalls_le records
  have hcount : checkInt (records.countP CallFragment.isCall) = .ok (countCalls records : ℤ) :=
    checkInt_ok ⟨by omega, by change (countCalls records : ℤ) ≤ _; omega⟩
  simp only [selectRecords, if_true, hcount, bind, Except.bind]
  split
  · rename_i hex
    rw [if_pos ((exceedsThreshold_iff hM).mp hex)]
    have hlt := (exceedsThreshold_iff hM).mp hex
    have hnum : checkInt ((countCalls records : ℤ) - M) = .ok ((countCalls records - M : ℕ) : ℤ) := by
      rw [Int.ofNat_sub (by omega)]
      exact checkInt_ok ⟨by omega, by omega⟩
    have hcopy : copyRecords ((countCalls records - M : ℕ) : ℤ) 0 records = .ok (records.take (countCalls records - M)) :=
      copyRecords_eq_ok.mpr ⟨by omega, by omega, by rw [Int.toNat_natCast]⟩
    simp only [hnum, hcopy]
    rfl
  · rename_i hex
    rw [if_neg fun h => hex ((exceedsThreshold_iff hM).mpr h)]
    rfl

theorem countCalls_take_add_drop (records : List CallFragment) (n : ℕ) :
    countCalls (records.take n) + countCalls (records.drop n) = countCalls records := by
  rw [countCalls, countCalls, ← List.countP_append, List.take_append_drop, countCalls]

/-- Each selected record is followed by as many calls as the list may hold. -/
theorem calls_after_selected {M : ℤ} {rc : ResultCode} {records recordsToDelete : List CallFragment}
    (h : selectRecords M rc records = .ok (true, recordsToDelete)) {f : CallFragment} (hf : f ∈ recordsToDelete) :
    ∃ before after, records = before ++ f :: after ∧ M ≤ countCalls after := by
  obtain ⟨-, -, -, hle, rfl⟩ | ⟨hn, -⟩ := selectRecords_cases h
  case inr => cases hn
  obtain ⟨i, hi, rfl⟩ := List.mem_iff_getElem.mp hf
  rw [List.length_take] at hi
  have hlt : i < records.length := by omega
  rw [List.getElem_take]
  refine ⟨records.take i, records.drop (i + 1), ?_, ?_⟩
  · rw [← List.drop_eq_getElem_cons hlt, List.take_append_drop]
  · -- At most `i + 1` of the calls are not after the record at `i`.
    have hsplit := countCalls_take_add_drop records (i + 1)
    have hbefore := countCalls_le (records.take (i + 1))
    rw [List.length_take] at hbefore
    omega

/-! ### Undefined behaviour -/

theorem isCallTrimNeeded_ok {M : ℤ} (hM : 0 ≤ M) (hint : IsInt M) (rand : ℤ) (rc : ResultCode) {records : List CallFragment}
    (hlen : IsInt records.length) : ∃ result, isCallTrimNeeded M rand rc records = .ok result := by
  obtain ⟨sampled, hs⟩ := isSampled_ok hM rand
  obtain ⟨hlo, hhi⟩ := hint
  obtain ⟨-, hlen⟩ := hlen
  lift M to ℕ using hM
  unfold isCallTrimNeeded
  rw [hs]
  cases sampled with
  | false => exact ⟨_, rfl⟩
  | true =>
    by_cases hrc : rc = .OK
    · subst hrc
      exact ⟨_, selectRecords_ok (by omega) (by omega)⟩
    · exact ⟨(false, []), by simp [selectRecords, hrc, bind, Except.bind, pure, Except.pure]⟩

theorem isCallTrimNeeded_of_neg {M : ℤ} (hM : M < 0) : ∃ e, isCallTrimNeeded M 0 .OK [] = .error e := by
  unfold isCallTrimNeeded isSampled
  rw [if_neg hM.ne]
  split
  · exact ⟨_, rfl⟩
  · have hcount : checkInt (([] : List CallFragment).countP CallFragment.isCall) = .ok 0 := rfl
    have hex : exceedsThreshold 0 M = true := exceedsThreshold_of_neg 0 hM
    simp only [Int.zero_tmod, decide_true, bind, Except.bind, if_true, selectRecords, hcount, hex, zero_sub]
    by_cases hint : IsInt (-M)
    · rw [checkInt_ok hint]
      have hcopy : copyRecords (-M) 0 [] = .error .outOfRange := copyRecords_of_lt (-M) [] 0 (by simpa using hM)
      simp only [hcopy]
      exact ⟨_, rfl⟩
    · rw [checkInt, if_neg hint]
      exact ⟨_, rfl⟩

end Memento
