import Mathlib.Algebra.BigOperators.Fin
import Memento.Theorems.Pool

/-! What the steps of the workers keep in balance: the requests that were submitted are queued, in work or completed. -/

namespace Memento
open Text

section Pool
variable {W σ : Type} [DecidableEq W] {config : PoolConfig} {outside : Outside σ} {s₀ s s' : Pool W σ}

/-! ### Sums over the workers -/

section Total
variable [Fintype W]

/-- The sum of a number for each worker. -/
def Pool.total (g : WorkerState → ℕ) (s : Pool W σ) : ℕ := ∑ w, g (s.worker w)

omit [DecidableEq W] in
theorem total_submit (g : WorkerState → ℕ) (s : Pool W σ) (clr : CallListRequest) : (s.submit clr).total g = s.total g := rfl

theorem total_update {g : WorkerState → ℕ} {w : W} {y : WorkerState} (h : s'.worker = Function.update s.worker w y) :
    s'.total g + g (s.worker w) = s.total g + g y := by
  have hothers : ∑ v ∈ Finset.univ.erase w, g (s'.worker v) = ∑ v ∈ Finset.univ.erase w, g (s.worker v) := by
    refine Finset.sum_congr rfl fun v hv => ?_
    rw [h, Function.update_of_ne (Finset.ne_of_mem_erase hv)]
  rw [Pool.total, Pool.total, ← Finset.add_sum_erase _ _ (Finset.mem_univ w), hothers,
    ← Finset.add_sum_erase _ (fun v => g (s.worker v)) (Finset.mem_univ w), h, Function.update_self]
  omega

/-- What the steps of a worker move between `a`, `b` and its own state stays in balance over a run. -/
theorem Reachable.balance (h : Reachable config outside s₀ s) {a b : Pool W σ → ℕ} {g : WorkerState → ℕ}
    (h0 : a s₀ = b s₀) (hidle : g .idle = 0)
    (hsubmit : ∀ s clr, a (s.submit clr) + b s = a s + b (s.submit clr))
    (hacts : ∀ {s s' w x e y}, Acted config s s' w x e y → a s' + b s + g x = a s + b s' + g y) :
    a s = b s + s.total g := by
  refine h.invariant (P := fun s => a s = b s + s.total g) ?_ fun {s s'} _ ih step => ?_
  · have hzero : s₀.total g = 0 := Finset.sum_eq_zero fun w _ => by rw [h.initial.worker, hidle]
    rw [h0, hzero, Nat.add_zero]
  · rcases step.acted with ⟨clr, rfl⟩ | ⟨w, x, e, y, acted⟩
    · have hsame : (s.submit clr).total g = s.total g := rfl
      have := hsubmit s clr
      omega
    · have htotal := total_update (g := g) acted.after
      have := hacts acted
      rw [acted.before] at htotal
      omega

/-! ### Requests and their effects -/

/-- The request of a worker that is not yet written, or whose successful write is not yet counted or notified. -/
def WorkerState.unwritten : WorkerState → Option CallListRequest
  | .starting clr | .writing clr _ => some clr
  | _ => none

def WorkerState.uncounted : WorkerState → Option CallListRequest
  | .counting clr _ => some clr
  | _ => none

def WorkerState.unnotified : WorkerState → Option CallListRequest
  | .counting clr _ | .sampling clr _ | .reading clr _ | .trimming clr _ _ | .notifying clr => some clr
  | _ => none

variable (h : Reachable config outside s₀ s) (p : CallListRequest → Bool)
include h

/-- Every request that was submitted is queued, in work or completed. -/
theorem Reachable.completions_balance : (submissions s.trace).countP p =
    s.queue.countP p + (completions s.trace).countP p + s.total fun x => x.request.toList.countP p := by
  refine h.balance (a := fun s => (submissions s.trace).countP p)
    (b := fun s => s.queue.countP p + (completions s.trace).countP p) ?_ rfl (fun s clr => ?_)
    fun {s s' w x e y} acted => ?_
  · simp [h.initial.trace, h.initial.queue, submissions, completions]
  · simp [Pool.submit, submissions, completions, List.countP_cons]
    omega
  · simp only [acted.trace, acted.queue, submissions_append, completions_append, List.countP_append]
    cases acted.acts <;> simp [submissions, completions, Effect.none, Effect.event, WorkerState.request]
    all_goals omega

theorem Reachable.attempts_balance : (submissions s.trace).countP p =
    s.queue.countP p + (attempts s.trace).countP p + s.total fun x => x.unwritten.toList.countP p := by
  refine h.balance (a := fun s => (submissions s.trace).countP p)
    (b := fun s => s.queue.countP p + (attempts s.trace).countP p) ?_ rfl (fun s clr => ?_)
    fun {s s' w x e y} acted => ?_
  · simp [h.initial.trace, h.initial.queue, submissions, attempts]
  · simp [Pool.submit, submissions, attempts, List.countP_cons]
    omega
  · simp only [acted.trace, acted.queue, submissions_append, attempts_append, List.countP_append]
    cases acted.acts <;> simp [submissions, attempts, Effect.none, Effect.event, WorkerState.unwritten]
    all_goals omega

/-- With a notifier, each successful write is notified. -/
theorem Reachable.notifications_balance (hn : config.httpNotifier = true) (impu : Bytes) :
    (successes s.trace).countP (·.impu = impu) =
      (notifications s.trace).count impu + s.total fun x => x.unnotified.toList.countP (·.impu = impu) := by
  refine h.balance (a := fun s => (successes s.trace).countP (·.impu = impu))
    (b := fun s => (notifications s.trace).count impu) (g := fun x => x.unnotified.toList.countP (·.impu = impu)) ?_ rfl
    (fun s clr => ?_) fun {s s' w x e y} acted => ?_
  · simp [h.initial.trace, successes, notifications]
  · simp [Pool.submit, successes, notifications]
  · simp only [acted.trace, successes_append, notifications_append, List.countP_append, List.count_append]
    cases acted.acts with
    | fail clr time hrc =>
      rw [Effect.event, successes_fail w clr time hrc]
      simp [notifications, WorkerState.unnotified]
    | silent clr hn' =>
      rw [hn] at hn'
      cases hn'
    | write | notify =>
      simp [successes, notifications, Effect.event, WorkerState.unnotified, List.count_cons]
      omega
    | _ => simp [successes, notifications, Effect.none, Effect.event, WorkerState.unnotified]

/-- A counter that the `counting` step raises for the requests of a kind, and no other step changes, has counted the
    successful writes of that kind. -/
theorem Reachable.counter_balance {c : Pool W σ → ℕ} (hsubmit : ∀ s clr, c (s.submit clr) = c s)
    (hacts : ∀ {s s' w x e y}, Acted config s s' w x e y → c s' = c s + e.counted.countP p) :
    (successes s.trace).countP p + c s₀ = c s + s.total fun x => x.uncounted.toList.countP p := by
  refine h.balance (a := fun s => (successes s.trace).countP p + c s₀) (b := c) ?_ rfl (fun s clr => ?_)
    fun {s s' w x e y} acted => ?_
  · simp [h.initial.trace, successes]
  · have hsame : successes (s.submit clr).trace = successes s.trace := rfl
    rw [hsubmit, hsame, Nat.add_comm]
  · simp only [acted.trace, successes_append, List.countP_append, hacts acted]
    cases acted.acts with
    | fail clr time hrc =>
      rw [Effect.event, successes_fail w clr time hrc]
      simp [WorkerState.uncounted]
    | write | count =>
      simp [successes, Effect.event, WorkerState.uncounted]
      omega
    | _ => simp [successes, Effect.none, Effect.event, WorkerState.uncounted]

end Total

theorem Reachable.readLatencies_eq (h : Reachable config outside s₀ s) :
    s.readLatencies = s₀.readLatencies + (successfulReads s.trace).length := by
  refine h.invariant (P := fun s => s.readLatencies = s₀.readLatencies + (successfulReads s.trace).length) ?_
    fun {s s'} _ ih step => ?_
  · rw [h.initial.trace]
    rfl
  · rcases step.acted with ⟨clr, rfl⟩ | ⟨w, x, e, y, acted⟩
    · exact ih
    · rw [acted.readLatencies, acted.trace, successfulReads_append, List.length_append, ih]
      omega

end Pool

end Memento
