import Mathlib.Data.Finset.Max
import Memento.Theorems.RecentCalls

/-! How much of a list trimming leaves: however the workers interleave and whatever the store returns, as many calls as
    the list may hold, or all, but for those whose write has not succeeded. -/

namespace Memento
open Text

section
variable {W : Type}

theorem mem_successes {trace : List (Event W)} {clr : CallListRequest} :
    clr ∈ successes trace ↔ ∃ w time, .wrote w clr time .OK ∈ trace := by
  simp only [successes, List.mem_filterMap]
  constructor
  · rintro ⟨e, he, heq⟩
    cases e with
    | wrote w clr' time rc => cases rc <;> cases heq; exact ⟨w, time, he⟩
    | _ => cases heq
  · rintro ⟨w, time, h⟩
    exact ⟨_, h, rfl⟩

variable [DecidableEq W] {lt : Key → Key → Prop} [IsStrictTotalOrder Key lt] {config : PoolConfig} {s₀ s : Pool W CallList}
  {impu : Bytes}

end

end Memento
