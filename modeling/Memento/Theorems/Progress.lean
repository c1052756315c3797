import Mathlib.Algebra.Order.BigOperators.Group.Finset
import Memento.Lib.Runs
import Memento.Theorems.Server

/-! Work ends: what is queued or in work is worked off in a bounded number of steps of the workers, in any order and
    whatever the store returns, and the workers stop only when nothing is left. -/

namespace Memento
open Runs

/-- How many steps a worker has before it at most, until it is idle. -/
def WorkerState.rank : WorkerState → ℕ
  | .idle => 0
  | .completing _ => 1
  | .notifying _ => 2
  | .trimming _ _ _ => 3
  | .reading _ _ => 4
  | .sampling _ _ => 5
  | .counting _ _ => 6
  | .writing _ _ => 7
  | .starting _ => 8

theorem rank_le (x : WorkerState) : x.rank ≤ 8 := by
  cases x <;> simp [WorkerState.rank]

/-- A store that answers every call, with any result, and a read with no more records than an `int` can count. -/
structure Outside.Responds {σ : Type} (outside : Outside σ) (callListTtl : ℤ) : Prop where
  rand : ∃ rand, outside.rand rand
  write : ∀ x f time, ∃ rc x', outside.write x f time callListTtl rc x'
  get : ∀ x, ∃ rc records, outside.get x rc records ∧ IsInt records.length
  delete : ∀ x records time, ∃ rc x', outside.delete x records time rc x'

section Pool
variable {W σ : Type} [DecidableEq W] {config : PoolConfig} {outside : Outside σ} {p p' : Pool W σ}

/-! ### The bound -/

omit [DecidableEq W] in
/-- A step of a worker leaves it less to do, but for the request that it takes. -/
theorem Acts.rank_lt {w : W} {x y : WorkerState} {e : Effect W} (h : Acts config w x e y) :
    y.rank < x.rank + 9 * e.taken.length := by
  cases h <;> simp [WorkerState.rank, Effect.none, Effect.event]

/-- What is left to do: nine steps at most for each request in the queue, and what the workers have before them. -/
def Pool.rank [Fintype W] (p : Pool W σ) : ℕ := 9 * p.queue.length + p.total WorkerState.rank

theorem rank_lt_of_workerStep [Fintype W] (p p' : Pool W σ) (h : WorkerStep config outside p p') : p'.rank < p.rank := by
  rcases h.1.acted with ⟨clr, rfl⟩ | ⟨w, x, e, y, acted⟩
  · exact absurd rfl (h.2 clr)
  · have htotal := total_update (g := WorkerState.rank) acted.after
    have hqueue := congrArg List.length acted.queue
    have hlt := acted.acts.rank_lt
    rw [acted.before] at htotal
    rw [List.length_append] at hqueue
    unfold Pool.rank
    omega

omit [DecidableEq W] in
theorem rank_bound [Fintype W] (p : Pool W σ) : p.rank ≤ 9 * p.queue.length + 8 * Fintype.card W := by
  have htotal : p.total WorkerState.rank ≤ Fintype.card W * 8 :=
    Finset.sum_le_card_nsmul Finset.univ (fun w => (p.worker w).rank) 8 fun w _ => rank_le (p.worker w)
  unfold Pool.rank
  omega

/-! ### No worker is stuck -/

/-- What the check reads for a maximum that is not negative leads to a result. -/
theorem selectRecords_defined {M : ℤ} (hM : 0 ≤ M) (hint : IsInt M) (rc : ResultCode) {records : List CallFragment}
    (hlen : IsInt records.length) :
    ∃ needed recordsToDelete, selectRecords M rc records = .ok (needed, recordsToDelete) := by
  lift M to ℕ using hM
  by_cases hrc : rc = .OK
  · subst hrc
    have hM : M < 2 ^ 31 := by have := hint.2; omega
    have hlen : records.length < 2 ^ 31 := by have := hlen.2; omega
    exact ⟨_, _, selectRecords_ok hM hlen⟩
  · exact ⟨false, [], by rw [selectRecords, if_neg hrc]; rfl⟩

section Stuck
variable (hM : 0 ≤ config.maxCallListLength) (hint : IsInt config.maxCallListLength)
  (ho : outside.Responds config.callListTtl)
include hM hint ho

/-- A worker that is at a request has a step. -/
theorem exists_workerStep_of_busy {w : W} (hw : p.worker w ≠ .idle) : ∃ p', WorkerStep config outside p p' := by
  cases hx : p.worker w with
  | idle => exact absurd hx hw
  | starting clr => exact ⟨_, Step.worker (.stamp w (p.clock + 1) hx (Nat.lt_succ_self _)) fun clr => by simp⟩
  | writing clr time =>
    obtain ⟨rc, x, hwrite⟩ := ho.write (p.store clr.impu) clr.callFragment time
    exact ⟨_, Step.worker (.write w rc x hx hwrite) fun clr => by simp⟩
  | counting clr time => exact ⟨_, Step.worker (.count w hx) fun clr => by simp⟩
  | sampling clr time =>
    obtain ⟨rand, hrand⟩ := ho.rand
    obtain ⟨sampled, hsampled⟩ := isSampled_ok hM rand
    exact ⟨_, Step.worker (.sample w rand hx hrand hsampled) fun clr => by simp⟩
  | reading clr time =>
    obtain ⟨rc, records, hget, hlen⟩ := ho.get (p.store clr.impu)
    obtain ⟨needed, recordsToDelete, hs⟩ := selectRecords_defined hM hint rc hlen
    exact ⟨_, Step.worker (.read w rc records hx hget hs) fun clr => by simp⟩
  | trimming clr time recordsToDelete =>
    obtain ⟨rc, x, hdelete⟩ := ho.delete (p.store clr.impu) recordsToDelete time
    exact ⟨_, Step.worker (.delete w rc x hx hdelete) fun clr => by simp⟩
  | notifying clr =>
    refine ⟨_, Step.worker (.notify w hx) fun clr => ?_⟩
    cases config.httpNotifier <;> simp
  | completing clr => exact ⟨_, Step.worker (.complete w hx) fun clr => by simp⟩

variable [Nonempty W]

theorem exists_workerStep (hn : ¬p.Drained) : ∃ p', WorkerStep config outside p p' := by
  by_cases hidle : ∀ w, p.worker w = .idle
  · cases hq : p.queue with
    | nil => exact absurd ⟨hq, hidle⟩ hn
    | cons clr rest =>
      obtain ⟨w⟩ := ‹Nonempty W›
      exact ⟨_, Step.worker (.take w (hidle w) hq) fun clr => by simp⟩
  · obtain ⟨w, hw⟩ := not_forall.mp hidle
    exact exists_workerStep_of_busy hM hint ho hw

theorem exists_drained [Fintype W] (p : Pool W σ) :
    ∃ p', Relation.ReflTransGen (WorkerStep config outside) p p' ∧ p'.Drained :=
  exists_final rank_lt_of_workerStep (fun _ => exists_workerStep hM hint ho) p

end Stuck

omit [DecidableEq W] in
/-- Nothing is left to do when no request is queued or in work. -/
theorem Pool.Drained.rank [Fintype W] (h : p.Drained) : p.rank = 0 := by
  rw [Pool.rank, h.queue, h.total rfl, List.length_nil]

theorem Pool.Drained.not_workerStep [Fintype W] (h : p.Drained) : ¬WorkerStep config outside p p' := by
  intro step
  have := rank_lt_of_workerStep _ _ step
  rw [h.rank] at this
  exact Nat.not_lt_zero _ this

/-- However the workers interleave, they come to an end after nine steps at most for each request that was queued and
    eight for each worker, and the end is that all work is done. -/
theorem work_ends [Fintype W] [Nonempty W] (hM : 0 ≤ config.maxCallListLength) (hint : IsInt config.maxCallListLength)
    (ho : outside.Responds config.callListTtl) {n : ℕ} (run : Steps (WorkerStep config outside) p n p') :
    n ≤ 9 * p.queue.length + 8 * Fintype.card W ∧ ((∀ p'', ¬WorkerStep config outside p' p'') ↔ p'.Drained) := by
  refine ⟨?_, fun hstop => ?_, fun drained p'' => drained.not_workerStep⟩
  · have := run.add_rank_le rank_lt_of_workerStep
    have := rank_bound p
    omega
  · by_contra hn
    obtain ⟨p'', step⟩ := exists_workerStep hM hint ho hn
    exact hstop p'' step

end Pool

/-- The last-write-wins store answers every call. -/
theorem responds_lastWriteStore (lt : Key → Key → Prop) (callListTtl : ℤ) : (lastWriteStore lt).Responds callListTtl where
  rand := ⟨0, trivial⟩
  write _ _ _ := ⟨.OK, _, Or.inl rfl⟩
  get _ := ⟨.OK, [], ⟨.nil, nofun⟩, by decide⟩
  delete x _ _ := ⟨.UNKNOWN_ERROR, x, fun _ => Or.inl rfl, nofun⟩

/-- Two workers and two requests. -/
theorem work_ends_sample : ∃ (n : ℕ) (p : Pool Bool Cells),
    Steps (WorkerStep ⟨10, 604800, true⟩ (lastWriteStore (· < ·)))
      (((Pool.new fun _ => .empty).submit lateBegin).submit newRejected) n p ∧
    n ≤ 9 * 2 + 8 * 2 ∧ p.Drained ∧ ∀ p', ¬WorkerStep ⟨10, 604800, true⟩ (lastWriteStore (· < ·)) p p' := by
  have responds := responds_lastWriteStore (· < ·) 604800
  obtain ⟨p, run, drained⟩ : ∃ p : Pool Bool Cells,
      Relation.ReflTransGen (WorkerStep ⟨10, 604800, true⟩ (lastWriteStore (· < ·)))
        (((Pool.new fun _ => .empty).submit lateBegin).submit newRejected) p ∧ p.Drained :=
    exists_drained (by decide) (by decide) responds _
  obtain ⟨n, steps⟩ := Steps.of_run run
  obtain ⟨hle, hends⟩ := work_ends (by decide) (by decide) responds steps
  exact ⟨n, p, steps, hle, drained, hends.mpr drained⟩

end Memento
