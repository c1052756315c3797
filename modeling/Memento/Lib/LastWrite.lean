import Mathlib.Data.Nat.Notation

/-! Last-write-wins cells, as Cassandra has them: a write or a delete takes effect unless a later one already has. -/

namespace LastWrite

/-- The timestamp of the last write or delete of a cell, and its value unless it is deleted. -/
structure Cell (α : Type) where
  stamp : ℕ
  value : Option α

namespace Cell
variable {α : Type}

def empty : Cell α := ⟨0, none⟩

def Visible (c : Cell α) : Prop := c.value.isSome = true

/-- Writing `v` at `time`. At equal times a delete, or the earlier write, stays. -/
def put (c : Cell α) (time : ℕ) (v : α) : Cell α := if c.stamp < time then ⟨time, some v⟩ else c

/-- Deleting at `time` what was written no later. -/
def kill (c : Cell α) (time : ℕ) : Cell α := if c.stamp ≤ time then ⟨time, none⟩ else c

theorem visible_kill {c : Cell α} {time : ℕ} : (c.kill time).Visible ↔ c.Visible ∧ time < c.stamp := by
  unfold kill
  split
  · rename_i h
    exact iff_of_false nofun fun h' => absurd h (Nat.not_le.mpr h'.2)
  · rename_i h
    exact ⟨fun hv => ⟨hv, Nat.not_le.mp h⟩, And.left⟩

theorem put_cases (c : Cell α) (time : ℕ) (v : α) : c.put time v = c ∨ c.put time v = ⟨time, some v⟩ := by
  unfold put
  split
  · exact Or.inr rfl
  · exact Or.inl rfl

theorem kill_cases (c : Cell α) (time : ℕ) : ¬(c.kill time).Visible ∨ c.kill time = c := by
  unfold kill
  split
  · exact Or.inl nofun
  · exact Or.inr rfl

end Cell

end LastWrite
