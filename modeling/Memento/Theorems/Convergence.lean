import Memento.Theorems.StoredLog

/-! Lists without a maximum length. Nothing is ever deleted of them, and when all work is done they are what was queued,
    however many threads there are and in whatever order these and the requests came. -/

namespace Memento
open Text LastWrite

/-! ### Nothing is deleted -/

def WorkerState.Trims : WorkerState → Prop
  | .reading _ _ | .trimming _ _ _ => True
  | _ => False

section Pool
variable {W σ : Type} [DecidableEq W] {config : PoolConfig} {outside : Outside σ} {s₀ s s' : Pool W σ}

/-- No worker is at a trim, and none has been. -/
structure Pool.Untrimmed (s : Pool W σ) : Prop where
  worker : ∀ w, ¬(s.worker w).Trims
  trace : ∀ w impu records time rc, .deleted w impu records time rc ∉ s.trace

theorem Pool.Untrimmed.step (h : s.Untrimmed) (hM : config.maxCallListLength = 0) (step : Step config outside s s') :
    s'.Untrimmed where
  worker v hv := by
    cases step with
    | submit clr => exact h.worker v hv
    | sample w rand hw hr hs =>
      rw [hM] at hs
      cases hs
      rcases of_worker_setWorker WorkerState.Trims hv with ⟨-, htrims⟩ | hold
      · exact htrims
      · exact h.worker v hold
    | read w rc records hw => exact h.worker w (by rw [hw]; trivial)
    | write =>
      rcases of_worker_setWorker WorkerState.Trims hv with ⟨-, htrims⟩ | hold
      · split at htrims <;> exact htrims
      · exact h.worker v hold
    | notify =>
      rcases of_worker_setWorker WorkerState.Trims hv with ⟨-, htrims⟩ | hold
      · exact htrims
      · split at hold <;> exact h.worker v hold
    | _ =>
      rcases of_worker_setWorker WorkerState.Trims hv with ⟨-, htrims⟩ | hold
      · exact htrims
      · exact h.worker v hold
  trace w impu records time rc hmem := by
    rcases step.trace_cases with hsame | ⟨e, htrace, -⟩
    · rw [hsame] at hmem
      exact h.trace w impu records time rc hmem
    · rw [htrace, List.mem_cons] at hmem
      rcases hmem with rfl | hmem
      · obtain ⟨clr, x, hw, -⟩ := step.deleted_inv htrace
        exact h.worker w (by rw [hw]; trivial)
      · exact h.trace w impu records time rc hmem

theorem Reachable.untrimmed (h : Reachable config outside s₀ s) (hM : config.maxCallListLength = 0) : s.Untrimmed := by
  refine h.invariant ⟨fun w hw => ?_, fun w impu records time rc hmem => ?_⟩ fun _ ih step => ih.step hM step
  · rw [h.initial.worker] at hw
    exact hw
  · rw [h.initial.trace] at hmem
    cases hmem

end Pool

/-! ### What the lists are -/

section Store
variable {W : Type} [DecidableEq W] [Fintype W] {config : PoolConfig} {lt : Key → Key → Prop} {s₀ s : Pool W Cells}

end Store

theorem queue_submitAll {W σ : Type} (p : Pool W σ) (clrs : List CallListRequest) :
    (p.submitAll clrs).queue = p.queue ++ clrs ∧ (p.submitAll clrs).worker = p.worker ∧
      (p.submitAll clrs).store = p.store ∧ successes (p.submitAll clrs).trace = successes p.trace := by
  induction clrs generalizing p with
  | nil => exact ⟨(List.append_nil _).symm, rfl, rfl, rfl⟩
  | cons clr clrs ih =>
    obtain ⟨hqueue, hworker, hstore, hsuccesses⟩ := ih (p.submit clr)
    exact ⟨hqueue.trans (List.append_assoc _ _ _), hworker, hstore, hsuccesses⟩

/-- One thread can work off what was queued. -/
theorem exists_workedOff {W : Type} [DecidableEq W] [Fintype W] (lt : Key → Key → Prop) (w : W) (clrs : List CallListRequest) :
    ∃ s : Pool W Cells, WorkerRun ⟨0, 604800, true⟩ (lastWriteStore lt) ((Pool.new fun _ => .empty).submitAll clrs) s ∧
      Reachable ⟨0, 604800, true⟩ (lastWriteStore lt) (.new fun _ => .empty) s ∧ s.Drained ∧
      submissions s.trace = clrs.reverse ∧ successes s.trace = attempts s.trace := by
  let p : Pool W Cells := (Pool.new fun _ => .empty : Pool W Cells).submitAll clrs
  obtain ⟨hqueue, hworker, -, hnone⟩ := queue_submitAll (Pool.new fun _ => .empty : Pool W Cells) clrs
  have processed : ∃ s : Pool W Cells, WorkerRun ⟨0, 604800, true⟩ (lastWriteStore lt) p s ∧
      s.queue = [] ∧ s.worker = p.worker ∧ submissions s.trace = submissions p.trace ∧
      successes s.trace = p.queue.reverse ++ successes p.trace :=
    process_all rfl rfl ⟨0, trivial⟩ (fun _ _ _ => ⟨_, Or.inl rfl⟩) (by rw [hworker]; rfl : p.worker w = .idle)
  obtain ⟨s, steps, hempty, hidle, hkept, hwritten⟩ := processed
  have drained : s.Drained := ⟨hempty, fun v => by rw [hidle, hworker]; rfl⟩
  have hsubmitted : submissions s.trace = clrs.reverse := by
    rw [hkept, submissions_submitAll]
    exact List.append_nil _
  have submitted : Reachable ⟨0, 604800, true⟩ (lastWriteStore lt) (.new fun _ => .empty) p :=
    (Reachable.new _ _ _).submitAll clrs
  have reachable : Reachable ⟨0, 604800, true⟩ (lastWriteStore lt) (.new fun _ => .empty) s := submitted.work steps
  refine ⟨s, steps, reachable, drained, hsubmitted, (successes_sublist s.trace).eq_of_length ?_⟩
  have balance := reachable.attempts_balance fun _ => true
  rw [drained.queue, drained.total rfl, List.countP_nil, Nat.zero_add, Nat.add_zero, List.countP_true] at balance
  rw [← balance, hsubmitted, hwritten, hqueue, hnone]
  simp [Pool.new, successes]

end Memento
