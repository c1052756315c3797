import Memento.Unload
import Memento.Theorems.Progress

/-! Unloading the plugin while requests are queued or in work. It always ends, and only the load monitor is deleted too
    early: a worker calls it after it is gone in some run, unless all work was done before. -/

namespace Memento
open Runs

/-! ### Where a run is -/

def deletions (statements : List Teardown) : List Component :=
  statements.filterMap fun | .delete c => some c | _ => none

theorem deletions_append (a b : List Teardown) : deletions (a ++ b) = deletions a ++ deletions b := List.filterMap_append

/-- What is deleted while the threads may still run. -/
def deletedEarly (statements : List Teardown) : List Component := deletions (statements.takeWhile (· ≠ .join))

section Unloading
variable {W σ : Type} [DecidableEq W] {config : PoolConfig} {outside : Outside σ} {p p' : Pool W σ}
  {s s' : Unloading W σ} {statements done : List Teardown}

/-- The statements in `done` were executed, and none else. -/
structure Unloading.After (s : Unloading W σ) (done : List Teardown) : Prop where
  deleted : s.deleted = deletions done
  joined : s.joined = true ↔ .join ∈ done
  idle : s.joined = true → ∀ w, s.pool.worker w = .idle

theorem UnloadStep.after (h : UnloadStep config outside s s') (hs : s.After done) :
    ∃ done', done' ++ s'.rest = done ++ s.rest ∧ s'.After done' := by
  cases h with
  | @delete c rest hr =>
    refine ⟨done ++ [.delete c], by simp [hr], ?_, ?_, hs.idle⟩
    · rw [hs.deleted, deletions_append]
      rfl
    · simpa using hs.joined
  | @stop rest hr =>
    refine ⟨done ++ [.stop], by simp [hr], ?_, ?_, hs.idle⟩
    · rw [hs.deleted, deletions_append]
      exact (List.append_nil _).symm
    · simpa using hs.joined
  | @join rest hr hidle =>
    refine ⟨done ++ [.join], by simp [hr], ?_, by simp, fun _ => hidle⟩
    rw [hs.deleted, deletions_append]
    exact (List.append_nil _).symm
  | work hj hp => exact ⟨done, rfl, hs.deleted, hs.joined, fun hjoined => absurd hjoined (by simp [hj])⟩

theorem unload_after (run : Relation.ReflTransGen (UnloadStep config outside) (.begin statements p) s) :
    ∃ done, done ++ s.rest = statements ∧ s.After done := by
  induction run with
  | refl => exact ⟨[], rfl, rfl, by simp [Unloading.begin], nofun⟩
  | tail _ last ih =>
    obtain ⟨done, hdone, hafter⟩ := ih
    obtain ⟨done', hsame, hafter'⟩ := last.after hafter
    exact ⟨done', hsame.trans hdone, hafter'⟩

/-! ### What is called -/

omit [DecidableEq W] in
/-- Before the threads have ended, only what precedes the join is deleted. -/
theorem Unloading.After.deleted_early (h : s.After done) (hj : s.joined = false) :
    s.deleted ⊆ deletedEarly (done ++ s.rest) := by
  have hne : ∀ x ∈ done, decide (x ≠ .join) = true := by
    rintro x hx
    rw [decide_eq_true_eq]
    rintro rfl
    rw [h.joined.mpr hx] at hj
    cases hj
  rw [deletedEarly, List.takeWhile_append_of_pos hne, deletions_append, h.deleted]
  exact List.subset_append_left _ _

theorem mem_uses_loadMonitor {x : WorkerState} : .loadMonitor ∈ x.uses config ↔ ∃ clr, x = .completing clr := by
  cases x with
  | notifying clr =>
    rw [WorkerState.uses]
    split <;> simp
  | _ => simp [WorkerState.uses]

theorem sproutlet_notMem_uses (x : WorkerState) : .mementoSproutlet ∉ x.uses config := by
  cases x with
  | notifying clr =>
    rw [WorkerState.uses]
    split <;> simp
  | _ => simp [WorkerState.uses]

/-- Nothing else than the load monitor is called after it is deleted. -/
theorem eq_loadMonitor_of_dangles (run : Relation.ReflTransGen (UnloadStep config outside) (.begin unload p) s)
    {c : Component} (h : s.Dangles config c) : c = .loadMonitor := by
  obtain ⟨hj, hc, w, hw⟩ := h
  obtain ⟨done, hdone, hafter⟩ := unload_after run
  have hearly := hafter.deleted_early hj hc
  have early : deletedEarly unload = [.mementoSproutlet, .loadMonitor] := rfl
  rw [hdone, early, List.mem_cons, List.mem_singleton] at hearly
  rcases hearly with rfl | rfl
  · exact absurd hw (sproutlet_notMem_uses _)
  · rfl

/-! ### A last request -/

/-- A step after which all work is done completes a request. -/
theorem completing_of_last (h : WorkerStep config outside p p') (drained : p'.Drained) :
    ∃ w clr, p.worker w = .completing clr := by
  rcases h.1.acted with ⟨clr, rfl⟩ | ⟨w, x, e, y, acted⟩
  · exact absurd rfl (h.2 clr)
  · have hidle := drained.worker w
    rw [acted.after, Function.update_self] at hidle
    subst hidle
    cases acted.acts with
    | complete clr => exact ⟨w, clr, acted.before⟩

theorem exists_completing (run : Relation.ReflTransGen (WorkerStep config outside) p p') (drained : p'.Drained)
    (hp : ¬p.Drained) : ∃ q w clr, Relation.ReflTransGen (WorkerStep config outside) p q ∧ q.worker w = .completing clr := by
  induction run with
  | refl => exact absurd drained hp
  | @tail q _ run last ih =>
    by_cases hq : q.Drained
    · exact ih hq
    · obtain ⟨w, clr, hw⟩ := completing_of_last last drained
      exact ⟨q, w, clr, run, hw⟩

theorem unload_work (run : Relation.ReflTransGen (WorkerStep config outside) s.pool p) (hj : s.joined = false) :
    Relation.ReflTransGen (UnloadStep config outside) s { s with pool := p } := by
  induction run with
  | refl => exact .refl
  | tail _ last ih => exact ih.tail (.work hj last)

theorem unload_pool [Fintype W] (hp : p.Drained)
    (run : Relation.ReflTransGen (UnloadStep config outside) (.begin statements p) s) : s.pool = p := by
  induction run with
  | refl => rfl
  | tail _ last ih =>
    cases last with
    | work hj hw =>
      rw [ih] at hw
      exact absurd hw hp.not_workerStep
    | _ => exact ih

/-! ### The end -/

def Unloading.rank [Fintype W] (s : Unloading W σ) : ℕ := s.rest.length + s.pool.rank

theorem rank_lt_of_unloadStep [Fintype W] (s s' : Unloading W σ) (h : UnloadStep config outside s s') : s'.rank < s.rank := by
  unfold Unloading.rank
  cases h with
  | delete hr | stop hr | join hr =>
    rw [hr, List.length_cons]
    exact Nat.add_lt_add_right (Nat.lt_succ_self _) _
  | work hj hp => exact Nat.add_lt_add_left (rank_lt_of_workerStep _ _ hp) _

section Ends
variable [Fintype W] (hM : 0 ≤ config.maxCallListLength) (hint : IsInt config.maxCallListLength)
  (ho : outside.Responds config.callListTtl)
include hM hint ho

/-- Of what `unload` deletes, the workers call only the load monitor afterwards, and they do in some run exactly when
    a request was queued or in work at the beginning. -/
theorem unload_dangles [Nonempty W] (p : Pool W σ) :
    (∀ s c, Relation.ReflTransGen (UnloadStep config outside) (.begin unload p) s → s.Dangles config c →
      c = .loadMonitor) ∧
    ((∃ s, Relation.ReflTransGen (UnloadStep config outside) (.begin unload p) s ∧ s.Dangles config .loadMonitor) ↔
      ¬p.Drained) := by
  refine ⟨fun s c run h => eq_loadMonitor_of_dangles run h, ⟨?_, fun hp => ?_⟩⟩
  · rintro ⟨s, run, -, -, w, hw⟩ hp
    obtain ⟨clr, hclr⟩ := mem_uses_loadMonitor.mp hw
    rw [unload_pool hp run, hp.worker] at hclr
    cases hclr
  · obtain ⟨p', run, drained⟩ := exists_drained hM hint ho p
    obtain ⟨q, w, clr, run, hw⟩ := exists_completing run drained hp
    have begun : Relation.ReflTransGen (UnloadStep config outside) (.begin unload p) (.begin unload p) := .refl
    have deleted := (begun.tail (.delete rfl)).tail (.delete rfl)
    refine ⟨_, deleted.trans (unload_work run rfl), rfl, ?_, w, ?_⟩
    · simp [Unloading.begin]
    · exact mem_uses_loadMonitor.mpr ⟨clr, hw⟩

/-- Where each call returns, unloading ends: after ten statements, nine steps at most for each request that was queued and
    eight for each worker, everything is deleted, and no worker is at a request. -/
theorem unload_ends {n : ℕ} (run : Steps (UnloadStep config outside) (.begin unload p) n s) :
    n ≤ 10 + 9 * p.queue.length + 8 * Fintype.card W ∧ ((∀ s', ¬UnloadStep config outside s s') ↔ s.rest = []) ∧
      (s.rest = [] → (∀ c, c ∈ s.deleted) ∧ ∀ w, s.pool.worker w = .idle) := by
  obtain ⟨done, hdone, hafter⟩ := unload_after run.run
  have hjoin : .join ∈ done ↔ .join ∉ s.rest := by
    have hcount : (done ++ s.rest).count .join = 1 := by rw [hdone]; rfl
    rw [List.count_append] at hcount
    rw [← List.count_pos_iff, ← List.count_eq_zero]
    omega
  refine ⟨?_, ⟨fun hstop => ?_, fun hrest s' step => ?_⟩, fun hrest => ?_⟩
  · have hrank := run.add_rank_le rank_lt_of_unloadStep
    have hbegin : (Unloading.begin unload p).rank = 10 + p.rank := rfl
    have := rank_bound p
    omega
  · cases hrest : s.rest with
    | nil => rfl
    | cons x rest =>
      cases x with
      | delete c => exact absurd (.delete hrest) (hstop _)
      | stop => exact absurd (.stop hrest) (hstop _)
      | join =>
        by_cases hidle : ∀ w, s.pool.worker w = .idle
        · exact absurd (.join hrest hidle) (hstop _)
        · -- The join waits for a worker, which goes on.
          obtain ⟨w, hw⟩ := not_forall.mp hidle
          obtain ⟨q, step⟩ := exists_workerStep_of_busy hM hint ho hw
          have hj : s.joined = false := by
            rw [← Bool.not_eq_true, hafter.joined, hjoin, hrest]
            simp
          exact absurd (.work hj step) (hstop _)
  · have hj : s.joined = true := by
      rw [hafter.joined, hjoin, hrest]
      exact List.not_mem_nil
    cases step with
    | delete hr | stop hr | join hr => simp [hrest] at hr
    | work hj' => simp [hj] at hj'
  · rw [hrest, List.append_nil] at hdone
    subst hdone
    refine ⟨fun c => ?_, hafter.idle (hafter.joined.mpr (by decide))⟩
    rw [hafter.deleted]
    cases c <;> decide

end Ends
end Unloading

/-- One request is queued when the plugin is unloaded. -/
theorem unload_dangles_sample : ∃ s : Unloading Bool Cells,
    Relation.ReflTransGen (UnloadStep ⟨10, 604800, true⟩ (lastWriteStore (· < ·)))
      (.begin unload ((Pool.new fun _ => .empty).submit lateBegin)) s ∧ s.Dangles ⟨10, 604800, true⟩ .loadMonitor := by
  have responds := responds_lastWriteStore (· < ·) 604800
  refine (unload_dangles (by decide) (by decide) responds _).2.mpr fun drained => ?_
  have hqueue := drained.queue
  cases hqueue

theorem unload_ends_sample : ∃ s : Unloading Bool Cells,
    Relation.ReflTransGen (UnloadStep ⟨10, 604800, true⟩ (lastWriteStore (· < ·)))
      (.begin unload ((Pool.new fun _ => .empty).submit lateBegin)) s ∧ s.rest = [] := by
  have responds := responds_lastWriteStore (· < ·) 604800
  have hfinal : ∃ (n : ℕ) (s : Unloading Bool Cells),
      Steps (UnloadStep ⟨10, 604800, true⟩ (lastWriteStore (· < ·)))
        (.begin unload ((Pool.new fun _ => .empty).submit lateBegin)) n s ∧
      ∀ s', ¬UnloadStep ⟨10, 604800, true⟩ (lastWriteStore (· < ·)) s s' := by
    obtain ⟨s, run, hstop⟩ := exists_final rank_lt_of_unloadStep (fun _ => not_forall_not.mp)
      (.begin unload ((Pool.new fun _ => .empty).submit lateBegin) : Unloading Bool Cells)
    obtain ⟨n, steps⟩ := Steps.of_run run
    exact ⟨n, s, steps, hstop⟩
  obtain ⟨n, s, steps, hstop⟩ := hfinal
  exact ⟨s, steps.run, (unload_ends (by decide) (by decide) responds steps).2.1.mp hstop⟩

end Memento
