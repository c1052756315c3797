import Mathlib.Data.List.Count
import Mathlib.Order.Lattice

/-! Lists kept in ascending order of a key: inserting or replacing an element, and removing listed ones. -/

namespace KeyedList

variable {α κ : Type} [LinearOrder κ] (key : α → κ)

/-- The keys ascend, so that there is one element for each. -/
def Sorted (l : List α) : Prop := l.Pairwise fun a b => key a < key b

instance : DecidablePred (Sorted key) := fun l => inferInstanceAs (Decidable (l.Pairwise _))

/-- The list with `a`, in place of the element that has its key. -/
def insert (a : α) (l : List α) : List α := l.filter (fun b => key b < key a) ++ a :: l.filter (fun b => key a < key b)

/-- The list without the elements whose keys are listed. -/
def remove (listed l : List α) : List α := l.filter fun b => key b ∉ listed.map key

variable {key} {a b : α} {l : List α}

theorem mem_insert : b ∈ insert key a l ↔ b = a ∨ b ∈ l ∧ key b ≠ key a := by
  simp only [insert, List.mem_append, List.mem_cons, List.mem_filter, decide_eq_true_eq, ne_iff_lt_or_gt]
  constructor
  · rintro (⟨h, hlt⟩ | rfl | ⟨h, hlt⟩)
    · exact Or.inr ⟨h, Or.inl hlt⟩
    · exact Or.inl rfl
    · exact Or.inr ⟨h, Or.inr hlt⟩
  · rintro (rfl | ⟨h, hlt | hlt⟩)
    · exact Or.inr (Or.inl rfl)
    · exact Or.inl ⟨h, hlt⟩
    · exact Or.inr (Or.inr ⟨h, hlt⟩)

theorem key_mem_insert {k : κ} (h : k ∈ l.map key) : k ∈ (insert key a l).map key := by
  obtain ⟨b, hb, rfl⟩ := List.mem_map.mp h
  by_cases hk : key b = key a
  · exact List.mem_map.mpr ⟨a, mem_insert.mpr (Or.inl rfl), hk.symm⟩
  · exact List.mem_map_of_mem (mem_insert.mpr (Or.inr ⟨hb, hk⟩))

theorem Sorted.insert (h : Sorted key l) : Sorted key (insert key a l) := by
  refine List.pairwise_append.mpr ⟨h.filter _, List.pairwise_cons.mpr ⟨fun b hb => ?_, h.filter _⟩, fun b hb c hc => ?_⟩
  · simpa using (List.mem_filter.mp hb).2
  · have hba : key b < key a := by simpa using (List.mem_filter.mp hb).2
    rcases List.mem_cons.mp hc with rfl | hc
    · exact hba
    · have hac : key a < key c := by simpa using (List.mem_filter.mp hc).2
      exact hba.trans hac

theorem countP_filter_add_le (p q r : α → Bool) (hqr : ∀ x, q x = true → r x = false) (l : List α) :
    (l.filter q).countP p + (l.filter r).countP p ≤ l.countP p := by
  induction l with
  | nil => simp
  | cons x l ih =>
    rw [List.filter_cons, List.filter_cons, List.countP_cons]
    split
    · rename_i hq
      rw [if_neg (by simp [hqr x hq]), List.countP_cons]
      omega
    · split
      · rw [List.countP_cons]
        omega
      · omega

theorem countP_insert_le (p : α → Bool) : (insert key a l).countP p ≤ l.countP p + 1 := by
  have h := countP_filter_add_le p (fun b => decide (key b < key a)) (fun b => decide (key a < key b))
    (by simpa using fun x hx => hx.le) l
  rw [insert, List.countP_append, List.countP_cons]
  split <;> omega

/-- The first elements have the lowest keys. -/
theorem Sorted.take_lt_drop (h : Sorted key l) {n : ℕ} (ha : a ∈ l.take n) (hb : b ∈ l.drop n) : key a < key b := by
  rw [← List.take_append_drop n l] at h
  exact (List.pairwise_append.mp h).2.2 a ha b hb

theorem Sorted.mem_take_of_lt (h : Sorted key l) {n : ℕ} (ha : a ∈ l) (hb : b ∈ l.take n) (hlt : key a < key b) :
    a ∈ l.take n := by
  rw [← List.take_append_drop n l] at ha
  rcases List.mem_append.mp ha with ha | ha
  · exact ha
  · exact absurd hlt (h.take_lt_drop hb ha).asymm

/-- Removing the first elements of a sorted list leaves the rest. -/
theorem Sorted.remove_take (h : Sorted key l) (n : ℕ) : remove key (l.take n) l = l.drop n := by
  nth_rewrite 2 [← List.take_append_drop n l]
  rw [remove, List.filter_append, List.filter_eq_nil_iff.mpr, List.filter_eq_self.mpr, List.nil_append]
  · intro b hb
    simp only [List.mem_map, not_exists, not_and, decide_eq_true_eq]
    intro a ha heq
    exact (h.take_lt_drop ha hb).ne heq
  · intro b hb
    simpa only [decide_not, Bool.not_eq_true', decide_eq_false_iff_not, not_not] using List.mem_map_of_mem hb

end KeyedList
