import Memento.Theorems.Accounting

/-! Users do not affect each other. What the pool does for one IMPU among others is what a pool could do to which
    nothing but the requests of that IMPU was ever given. -/

namespace Memento
open Text

section Projection
variable {W σ : Type}

/-- The IMPU that an event is about. -/
def Event.impu : Event W → Bytes
  | .submitted clr | .wrote _ clr _ _ | .completed _ clr => clr.impu
  | .read _ impu _ _ | .deleted _ impu _ _ _ | .notified _ impu => impu

/-- A worker, idle while it is at a request of another IMPU. -/
def WorkerState.only (impu : Bytes) (x : WorkerState) : WorkerState :=
  match x.request with
  | some clr => if clr.impu = impu then x else .idle
  | none => .idle

theorem only_of_eq {x : WorkerState} {clr : CallListRequest} {impu : Bytes} (hx : x.request = some clr)
    (hi : clr.impu = impu) : x.only impu = x := by
  rw [WorkerState.only, hx]
  exact if_pos hi

theorem only_of_ne {x : WorkerState} {clr : CallListRequest} {impu : Bytes} (hx : x.request = some clr)
    (hi : clr.impu ≠ impu) : x.only impu = .idle := by
  rw [WorkerState.only, hx]
  exact if_neg hi

/-- In `t` there is, of all that is in `s`, what is about one IMPU. The other lists are as they were in `s₀`. -/
structure Alone (impu : Bytes) (s₀ s t : Pool W σ) : Prop where
  queue : t.queue = s.queue.filter (·.impu = impu)
  worker : ∀ w, t.worker w = (s.worker w).only impu
  store : t.store impu = s.store impu
  others : ∀ other ≠ impu, t.store other = s₀.store other
  clock : t.clock ≤ s.clock
  trace : t.trace = s.trace.filter (·.impu = impu)

section Updates
variable {impu : Bytes} {s₀ s t : Pool W σ} (h : Alone impu s₀ s t)
include h

theorem Alone.log (e : Event W) (he : e.impu = impu) : Alone impu s₀ (s.log e) (t.log e) where
  queue := h.queue
  worker := h.worker
  store := h.store
  others := h.others
  clock := h.clock
  trace := by rw [trace_log, trace_log, List.filter_cons_of_pos (by simpa using he), h.trace]

theorem Alone.log_other (e : Event W) (he : e.impu ≠ impu) : Alone impu s₀ (s.log e) t where
  queue := h.queue
  worker := h.worker
  store := h.store
  others := h.others
  clock := h.clock
  trace := by rw [trace_log, List.filter_cons_of_neg (by simpa using he), h.trace]

theorem Alone.setStore (x : σ) : Alone impu s₀ (s.setStore impu x) (t.setStore impu x) where
  queue := h.queue
  worker := h.worker
  store := by rw [store_setStore, store_setStore, Function.update_self, Function.update_self]
  others other ho := by rw [store_setStore, Function.update_of_ne ho, h.others other ho]
  clock := h.clock
  trace := h.trace

theorem Alone.setStore_other {other : Bytes} (ho : other ≠ impu) (x : σ) : Alone impu s₀ (s.setStore other x) t where
  queue := h.queue
  worker := h.worker
  store := by rw [store_setStore, Function.update_of_ne ho.symm, h.store]
  others := h.others
  clock := h.clock
  trace := h.trace

theorem Alone.setClock (time : ℕ) : Alone impu s₀ { s with clock := time } { t with clock := time } where
  queue := h.queue
  worker := h.worker
  store := h.store
  others := h.others
  clock := le_rfl
  trace := h.trace

theorem Alone.setClock_other {time : ℕ} (hc : s.clock < time) : Alone impu s₀ { s with clock := time } t where
  queue := h.queue
  worker := h.worker
  store := h.store
  others := h.others
  clock := h.clock.trans hc.le
  trace := h.trace

theorem Alone.setQueue {queue queue' : List CallListRequest} (hq : queue' = queue.filter (·.impu = impu)) :
    Alone impu s₀ { s with queue } { t with queue := queue' } where
  queue := hq
  worker := h.worker
  store := h.store
  others := h.others
  clock := h.clock
  trace := h.trace

theorem Alone.setQueue_other {queue : List CallListRequest} (hq : t.queue = queue.filter (·.impu = impu)) :
    Alone impu s₀ { s with queue } t where
  queue := hq
  worker := h.worker
  store := h.store
  others := h.others
  clock := h.clock
  trace := h.trace

theorem Alone.submit {clr : CallListRequest} (hi : clr.impu = impu) : Alone impu s₀ (s.submit clr) (t.submit clr) := by
  refine (h.setQueue ?_).log (.submitted clr) hi
  rw [h.queue, List.filter_append, List.filter_cons_of_pos (by simpa using hi), List.filter_nil]

theorem Alone.submit_other {clr : CallListRequest} (hi : clr.impu ≠ impu) : Alone impu s₀ (s.submit clr) t := by
  refine (h.setQueue_other ?_).log_other (.submitted clr) hi
  rw [h.queue, List.filter_append, List.filter_cons_of_neg (by simpa using hi), List.filter_nil, List.append_nil]

variable [DecidableEq W]

theorem Alone.setWorker (w : W) {x : WorkerState} (hx : x.only impu = x) : Alone impu s₀ (s.setWorker w x) (t.setWorker w x) where
  queue := h.queue
  worker v := by
    rw [worker_setWorker, worker_setWorker]
    split
    · exact hx.symm
    · exact h.worker v
  store := h.store
  others := h.others
  clock := h.clock
  trace := h.trace

theorem Alone.setWorker_other {w : W} {x : WorkerState} (hw : (s.worker w).only impu = .idle) (hx : x.only impu = .idle) :
    Alone impu s₀ (s.setWorker w x) t where
  queue := h.queue
  worker v := by
    rw [worker_setWorker]
    split
    · rename_i hv
      rw [hx, hv, h.worker, hw]
    · exact h.worker v
  store := h.store
  others := h.others
  clock := h.clock
  trace := h.trace

end Updates

end Projection

section Pool
variable {W σ : Type} [DecidableEq W] {config : PoolConfig} {outside : Outside σ} {s₀ s s' t : Pool W σ} {impu : Bytes}

omit [DecidableEq W] in
theorem Alone.worker_eq (h : Alone impu s₀ s t) {w : W} {x : WorkerState} {clr : CallListRequest} (hw : s.worker w = x)
    (hx : x.request = some clr) (hi : clr.impu = impu) : t.worker w = x := by
  rw [h.worker, hw, only_of_eq hx hi]

omit [DecidableEq W] in
theorem only_worker_of_ne {w : W} {x : WorkerState} {clr : CallListRequest} (hw : s.worker w = x)
    (hx : x.request = some clr) (hi : clr.impu ≠ impu) : (s.worker w).only impu = .idle := by
  rw [hw, only_of_ne hx hi]

/-- A step for the IMPU is one of the pool that serves it alone, and any other step changes nothing for it. -/
theorem Alone.step (h : Alone impu s₀ s t) (step : Step config outside s s') :
    Alone impu s₀ s' t ∨ ∃ t', Step config outside t t' ∧ Alone impu s₀ s' t' := by
  cases step with
  | submit clr =>
    by_cases hi : clr.impu = impu
    · exact Or.inr ⟨_, .submit clr, h.submit hi⟩
    · exact Or.inl (h.submit_other hi)
  | take w hw hq =>
    rename_i clr rest
    by_cases hi : clr.impu = impu
    · have hidle : t.worker w = .idle := by rw [h.worker, hw]; rfl
      have hqueue : t.queue = clr :: rest.filter (·.impu = impu) := by
        rw [h.queue, hq, List.filter_cons_of_pos (by simpa using hi)]
      exact Or.inr ⟨_, .take w hidle hqueue, (h.setQueue rfl).setWorker w (only_of_eq rfl hi)⟩
    · have hqueue : t.queue = rest.filter (·.impu = impu) := by
        rw [h.queue, hq, List.filter_cons_of_neg (by simpa using hi)]
      exact Or.inl ((h.setQueue_other hqueue).setWorker_other (congrArg _ hw) (only_of_ne rfl hi))
  | stamp w time hw hc =>
    rename_i clr
    by_cases hi : clr.impu = impu
    · exact Or.inr ⟨_, .stamp w time (h.worker_eq hw rfl hi) (h.clock.trans_lt hc),
        (h.setClock time).setWorker w (only_of_eq rfl hi)⟩
    · exact Or.inl ((h.setClock_other hc).setWorker_other (only_worker_of_ne hw rfl hi) (only_of_ne rfl hi))
  | write w rc x hw ho =>
    rename_i clr time
    by_cases hi : clr.impu = impu
    · subst hi
      refine Or.inr ⟨_, .write w rc x (h.worker_eq hw rfl rfl) (h.store ▸ ho), ((h.setStore x).log _ rfl).setWorker w ?_⟩
      split <;> exact only_of_eq rfl rfl
    · refine Or.inl (((h.setStore_other hi x).log_other (.wrote w clr time rc) hi).setWorker_other
        (only_worker_of_ne hw rfl hi) ?_)
      split <;> exact only_of_ne rfl hi
  | count w hw =>
    rename_i clr time
    have counted (completed failed latencies : ℕ) : Alone impu s₀
        { s with completedCalls := completed, failedCalls := failed, writeLatencies := latencies } t :=
      ⟨h.queue, h.worker, h.store, h.others, h.clock, h.trace⟩
    by_cases hi : clr.impu = impu
    · refine Or.inr ⟨_, .count w (h.worker_eq hw rfl hi), Alone.setWorker ?_ w (only_of_eq rfl hi)⟩
      exact ⟨h.queue, h.worker, h.store, h.others, h.clock, h.trace⟩
    · exact Or.inl ((counted _ _ _).setWorker_other (only_worker_of_ne hw rfl hi) (only_of_ne rfl hi))
  | sample w rand hw hr hs =>
    rename_i clr time sampled
    by_cases hi : clr.impu = impu
    · refine Or.inr ⟨_, .sample w rand (h.worker_eq hw rfl hi) hr hs, h.setWorker w ?_⟩
      split <;> exact only_of_eq rfl hi
    · refine Or.inl (h.setWorker_other (only_worker_of_ne hw rfl hi) ?_)
      split <;> exact only_of_ne rfl hi
  | read w rc records hw ho hs =>
    rename_i clr time needed recordsToDelete
    by_cases hi : clr.impu = impu
    · subst hi
      refine Or.inr ⟨_, .read w rc records (h.worker_eq hw rfl rfl) (h.store ▸ ho) hs, Alone.setWorker (Alone.log ?_ (.read w clr.impu rc records) rfl) w ?_⟩
      · exact ⟨h.queue, h.worker, h.store, h.others, h.clock, h.trace⟩
      · split <;> exact only_of_eq rfl rfl
    · refine Or.inl (Alone.setWorker_other (Alone.log_other ?_ (.read w clr.impu rc records) hi)
        (only_worker_of_ne hw rfl hi) ?_)
      · exact ⟨h.queue, h.worker, h.store, h.others, h.clock, h.trace⟩
      · split <;> exact only_of_ne rfl hi
  | delete w rc x hw ho =>
    rename_i clr time recordsToDelete
    by_cases hi : clr.impu = impu
    · subst hi
      exact Or.inr ⟨_, .delete w rc x (h.worker_eq hw rfl rfl) (h.store ▸ ho),
        ((h.setStore x).log _ rfl).setWorker w (only_of_eq rfl rfl)⟩
    · exact Or.inl (((h.setStore_other hi x).log_other (.deleted w clr.impu recordsToDelete time rc) hi).setWorker_other
        (only_worker_of_ne hw rfl hi) (only_of_ne rfl hi))
  | notify w hw =>
    rename_i clr
    by_cases hi : clr.impu = impu
    · refine Or.inr ⟨_, .notify w (h.worker_eq hw rfl hi), Alone.setWorker ?_ w (only_of_eq rfl hi)⟩
      split
      · exact h.log (.notified w clr.impu) hi
      · exact h
    · refine Or.inl (Alone.setWorker_other ?_ ?_ (only_of_ne rfl hi))
      · split
        · exact h.log_other (.notified w clr.impu) hi
        · exact h
      · split <;> exact only_worker_of_ne hw rfl hi
  | complete w hw =>
    rename_i clr
    by_cases hi : clr.impu = impu
    · exact Or.inr ⟨_, .complete w (h.worker_eq hw rfl hi), (h.log (.completed w clr) hi).setWorker w rfl⟩
    · exact Or.inl ((h.log_other (.completed w clr) hi).setWorker_other (only_worker_of_ne hw rfl hi) rfl)

/-- For every state of a pool and every IMPU there is a run in which the pool is given nothing but the requests of that
    IMPU, and which leaves it the same list and the same events. -/
theorem isolated (h : Reachable config outside s₀ s) (impu : Bytes) :
    ∃ t, Reachable config outside s₀ t ∧ Alone impu s₀ s t := by
  refine h.invariant (P := fun s => ∃ t, Reachable config outside s₀ t ∧ Alone impu s₀ s t) ?_ fun _ ih step => ?_
  · refine ⟨s₀, ⟨h.initial, .refl⟩, ?_, fun w => ?_, rfl, fun _ _ => rfl, le_rfl, ?_⟩
    · rw [h.initial.queue]
      rfl
    · rw [h.initial.worker]
      rfl
    · rw [h.initial.trace]
      rfl
  · obtain ⟨t, reach, alone⟩ := ih
    rcases alone.step step with same | ⟨t', step', alone'⟩
    · exact ⟨t, reach, same⟩
    · exact ⟨t', reach.step step', alone'⟩

end Pool

/-- Two workers write for two users, one after the other took its timestamp. The pool that serves one of the users has
    written that one's request alone. -/
theorem isolated_sample : ∃ s t : Pool Bool Cells,
    Reachable ⟨0, 604800, true⟩ (lastWriteStore (· < ·)) (.new fun _ => .empty) s ∧
      successes s.trace = [ofAlice newRejected, lateBegin] ∧
      Reachable ⟨0, 604800, true⟩ (lastWriteStore (· < ·)) (.new fun _ => .empty) t ∧ successes t.trace = [lateBegin] ∧
      t.store lateBegin.impu = s.store lateBegin.impu := by
  have r0 : Reachable ⟨0, 604800, true⟩ (lastWriteStore (· < ·)) (.new fun _ => .empty : Pool Bool Cells) _ := .new _ _ _
  have r1 := r0.step (.submit (ofAlice newRejected))
  have r2 := r1.step (.submit lateBegin)
  have r3 := r2.step (.take true rfl rfl)
  have r4 := r3.step (.take false rfl rfl)
  have r5 := r4.step (.stamp true 1 rfl Nat.zero_lt_one)
  have r6 := r5.step (.stamp false 2 rfl (Nat.lt_succ_self 1))
  have r7 := r6.step (.write false .OK _ rfl (Or.inl rfl))
  have r8 := r7.step (.write true .OK _ rfl (Or.inl rfl))
  obtain ⟨t, reach, alone⟩ := isolated r8 lateBegin.impu
  refine ⟨_, t, r8, rfl, reach, ?_, alone.store⟩
  rw [alone.trace]
  decide

end Memento
