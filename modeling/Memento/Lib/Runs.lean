import Mathlib.Algebra.Order.Group.Nat
import Mathlib.Logic.Relation

/-! Runs of a transition relation: their length, when a rank bounds it, and labelled steps composed along a list. -/

namespace Runs

/-! ### Counted runs -/

section Steps
variable {α : Type} {r : α → α → Prop} {rank : α → ℕ} {a b : α} {n : ℕ}

/-- A run of `n` steps. -/
inductive Steps (r : α → α → Prop) (a : α) : ℕ → α → Prop
  | refl : Steps r a 0 a
  | tail {n : ℕ} {b c : α} (steps : Steps r a n b) (last : r b c) : Steps r a (n + 1) c

theorem Steps.run (h : Steps r a n b) : Relation.ReflTransGen r a b := by
  induction h with
  | refl => exact .refl
  | tail _ last ih => exact ih.tail last

theorem Steps.of_run (h : Relation.ReflTransGen r a b) : ∃ n, Steps r a n b := by
  induction h with
  | refl => exact ⟨0, .refl⟩
  | tail _ last ih =>
    obtain ⟨n, steps⟩ := ih
    exact ⟨n + 1, steps.tail last⟩

/-- Where each step lowers the rank, a run has no more steps than the rank drops by. -/
theorem Steps.add_rank_le (hrank : ∀ a b, r a b → rank b < rank a) (h : Steps r a n b) : n + rank b ≤ rank a := by
  induction h with
  | refl => exact (Nat.zero_add _).le
  | tail _ last ih =>
    have := hrank _ _ last
    omega

/-- Where moreover each state but a final one has a step, a final state is reached. -/
theorem exists_final (hrank : ∀ a b, r a b → rank b < rank a) {final : α → Prop}
    (hstep : ∀ a, ¬final a → ∃ b, r a b) (a : α) : ∃ b, Relation.ReflTransGen r a b ∧ final b := by
  induction hn : rank a using Nat.strong_induction_on generalizing a with
  | h n ih =>
    by_cases hfinal : final a
    · exact ⟨a, .refl, hfinal⟩
    · obtain ⟨b, hab⟩ := hstep a hfinal
      obtain ⟨c, hbc, hc⟩ := ih (rank b) (hn ▸ hrank a b hab) b rfl
      exact ⟨c, .head hab hbc, hc⟩

end Steps

/-! ### Labelled steps -/

section Serial
variable {ι α : Type} {r : ι → α → α → Prop} {a b c : α} {is js : List ι}

/-- One step for each label, in the order of the list. -/
inductive Serial (r : ι → α → α → Prop) (a : α) : List ι → α → Prop
  | nil : Serial r a [] a
  | snoc {is : List ι} {b c : α} (steps : Serial r a is b) {i : ι} (last : r i b c) : Serial r a (is ++ [i]) c

/-- What each labelled step keeps holds at the end. -/
theorem Serial.invariant {P : α → Prop} (h : Serial r a is b) (h0 : P a)
    (hstep : ∀ {i a b}, i ∈ is → r i a b → P a → P b) : P b := by
  induction h with
  | nil => exact h0
  | snoc _ last ih =>
    exact hstep (List.mem_append_right _ (.head _)) last (ih fun hi => hstep (List.mem_append_left _ hi))

end Serial

end Runs
