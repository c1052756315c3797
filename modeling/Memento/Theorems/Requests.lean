import Memento.Theorems.Pool

/-! One worker and its request. The parts of `process_work`, each as a run of the pool in which no other worker takes a
    step, stated by what it leaves. -/

namespace Memento

section Pool
variable {W σ : Type} [DecidableEq W] {config : PoolConfig} {outside : Outside σ} {p₀ p p' : Pool W σ}

omit [DecidableEq W] in
theorem Acts.submissions_eq {w : W} {x y : WorkerState} {e : Effect W} (h : Acts config w x e y) :
    submissions e.events = [] := by
  cases h <;> rfl

theorem WorkerStep.submissions_eq (h : WorkerStep config outside p p') : submissions p'.trace = submissions p.trace := by
  rcases h.1.acted with ⟨clr, rfl⟩ | ⟨w, x, e, y, acted⟩
  · exact absurd rfl (h.2 clr)
  · rw [acted.trace, submissions_append, acted.acts.submissions_eq, List.nil_append]

theorem Step.worker (h : Step config outside p p') (ht : ∀ clr, p'.trace ≠ .submitted clr :: p.trace) :
    WorkerStep config outside p p' :=
  ⟨h, fun clr hp => ht clr (congrArg Pool.trace hp)⟩

/-- Steps of the workers alone. -/
abbrev WorkerRun (config : PoolConfig) (outside : Outside σ) : Pool W σ → Pool W σ → Prop :=
  Relation.ReflTransGen (WorkerStep config outside)

theorem Reachable.work (h : Reachable config outside p₀ p) (run : WorkerRun config outside p p') :
    Reachable config outside p₀ p' :=
  ⟨h.initial, h.steps.trans (run.lift id fun _ _ step => step.1)⟩

/-! ### The parts of `process_work` -/

section Parts
variable {w : W} {clr : CallListRequest} {time : ℕ}

/-- A worker takes the next request and writes it. -/
theorem run_written {rest : List CallListRequest} {rc : ResultCode} {x : σ} (hw : p.worker w = .idle)
    (hq : p.queue = clr :: rest) (hc : p.clock < time)
    (ho : outside.write (p.store clr.impu) clr.callFragment time config.callListTtl rc x) :
    WorkerRun config outside p ((({ p with queue := rest, clock := time }.setStore clr.impu x).log
      (.wrote w clr time rc)).setWorker w (if rc = ResultCode.OK then .counting clr time else .completing clr)) := by
  have idle : WorkerRun config outside p p := .refl
  have take := idle.tail (Step.worker (.take w hw hq) fun clr => by simp)
  have stamp := take.tail (Step.worker (.stamp w time (worker_setWorker_self ..) hc) fun clr => by simp)
  have write := stamp.tail (Step.worker (.write w rc x (worker_setWorker_self ..) ho) fun clr => by simp)
  simpa [Pool.setWorker, Pool.setStore, Pool.log] using write

/-- After a write that returned OK the statistics count it, and the trim is checked or not. -/
theorem run_sampled {rand : ℤ} {sampled : Bool} (hw : p.worker w = .counting clr time) (hr : outside.rand rand)
    (hs : isSampled config.maxCallListLength rand = .ok sampled) :
    WorkerRun config outside p ({ p with
      completedCalls := p.completedCalls + if clr.type = FragmentType.END then 1 else 0
      failedCalls := p.failedCalls + if clr.type = FragmentType.REJECTED then 1 else 0
      writeLatencies := p.writeLatencies + 1 }.setWorker w (if sampled then .reading clr time else .notifying clr)) := by
  have counting : WorkerRun config outside p p := .refl
  have count := counting.tail (Step.worker (.count w hw) fun clr => by simp)
  have sample := count.tail (Step.worker (.sample w rand (worker_setWorker_self ..) hr hs) fun clr => by simp)
  simpa [Pool.setWorker] using sample

theorem run_completed (hw : p.worker w = .completing clr) :
    WorkerRun config outside p ((p.log (.completed w clr)).setWorker w .idle) :=
  .single (Step.worker (.complete w hw) fun clr => by simp)

section Notifier
variable (hn : config.httpNotifier = true)
include hn

theorem run_notified (hw : p.worker w = .notifying clr) :
    WorkerRun config outside p (((p.log (.notified w clr.impu)).log (.completed w clr)).setWorker w .idle) := by
  have notifying : WorkerRun config outside p p := .refl
  have notify := notifying.tail (Step.worker (.notify w hw) fun clr => by simp [hn])
  have complete := notify.trans (run_completed (worker_setWorker_self ..))
  simpa [hn, Pool.setWorker, Pool.log] using complete

variable {records recordsToDelete : List CallFragment} (hw : p.worker w = .reading clr time)
include hw

/-- A read that needs no trim, and what is left to do. -/
theorem run_kept {rc : ResultCode} (ho : outside.get (p.store clr.impu) rc records)
    (hs : selectRecords config.maxCallListLength rc records = .ok (false, recordsToDelete)) :
    WorkerRun config outside p (((({ p with
      readLatencies := p.readLatencies + if rc = ResultCode.OK then 1 else 0 }.log (.read w clr.impu rc records)).log
        (.notified w clr.impu)).log (.completed w clr)).setWorker w .idle) := by
  have reading : WorkerRun config outside p p := .refl
  have read := reading.tail (Step.worker (.read w rc records hw ho hs) fun clr => by simp)
  have complete := read.trans (run_notified hn (worker_setWorker_self ..))
  simpa [Pool.setWorker, Pool.log] using complete

/-- A read that needs a trim, the trim, and what is left to do. -/
theorem run_trimmed {rc : ResultCode} {x : σ} (ho : outside.get (p.store clr.impu) .OK records)
    (hs : selectRecords config.maxCallListLength .OK records = .ok (true, recordsToDelete))
    (hd : outside.delete (p.store clr.impu) recordsToDelete time rc x) :
    WorkerRun config outside p (((((({ p with readLatencies := p.readLatencies + 1 }.log
      (.read w clr.impu .OK records)).setStore clr.impu x).log (.deleted w clr.impu recordsToDelete time rc)).log
        (.notified w clr.impu)).log (.completed w clr)).setWorker w .idle) := by
  have reading : WorkerRun config outside p p := .refl
  have read := reading.tail (Step.worker (.read w .OK records hw ho hs) fun clr => by simp)
  have delete := read.tail (Step.worker (.delete w rc x (worker_setWorker_self ..) hd) fun clr => by simp)
  have complete := delete.trans (run_notified hn (worker_setWorker_self ..))
  simpa [Pool.setWorker, Pool.setStore, Pool.log] using complete

end Notifier

end Parts

/-! ### Without trims -/

section Process
variable (hM : config.maxCallListLength = 0) (hn : config.httpNotifier = true) (hr : ∃ rand, outside.rand rand)
  (hwrite : ∀ x f time, ∃ x', outside.write x f time config.callListTtl .OK x') {w : W} (hw : p.worker w = .idle)
include hM hn hr hwrite hw

/-- Where nothing is trimmed, a worker can write the next request and be idle again. -/
theorem process {clr : CallListRequest} {rest : List CallListRequest} (hq : p.queue = clr :: rest) :
    ∃ p', WorkerRun config outside p p' ∧ p'.queue = rest ∧ p'.worker = p.worker ∧
      submissions p'.trace = submissions p.trace ∧ successes p'.trace = clr :: successes p.trace := by
  obtain ⟨rand, hr⟩ := hr
  obtain ⟨x, ho⟩ := hwrite (p.store clr.impu) clr.callFragment (p.clock + 1)
  have hs : isSampled config.maxCallListLength rand = .ok false := by rw [hM]; rfl
  have written := run_written hw hq (Nat.lt_succ_self _) ho
  have sampled := written.trans (run_sampled (worker_setWorker_self ..) hr hs)
  have completed := sampled.trans (run_notified hn (worker_setWorker_self ..))
  refine ⟨_, completed, rfl, ?_, ?_, ?_⟩
  · simp [Pool.setWorker, hw]
  · simp [submissions]
  · simp [successes]

/-- It can empty the queue. -/
theorem process_all : ∃ p', WorkerRun config outside p p' ∧ p'.queue = [] ∧
    p'.worker = p.worker ∧ submissions p'.trace = submissions p.trace ∧
    successes p'.trace = p.queue.reverse ++ successes p.trace := by
  generalize hq : p.queue = queue
  induction queue generalizing p with
  | nil => exact ⟨p, .refl, hq, rfl, rfl, rfl⟩
  | cons clr rest ih =>
    obtain ⟨p', steps, hrest, hworker, hsubmitted, hwritten⟩ := process hM hn hr hwrite hw hq
    obtain ⟨p'', steps', hempty, hworker', hsubmitted', hwritten'⟩ := ih ((congrFun hworker w).trans hw) hrest
    refine ⟨p'', steps.trans steps', hempty, hworker'.trans hworker, hsubmitted'.trans hsubmitted, ?_⟩
    rw [hwritten', hwritten, List.reverse_cons, List.append_assoc, List.singleton_append]

end Process

end Pool

end Memento
