import Memento.Theorems.TrimDelete
import Memento.Theorems.Workers

/-! What has happened when all work is done: each request was written once, and what followed from that depends on
    whether the write returned OK. -/

namespace Memento
open Text LastWrite

/-! ### What the store receives -/

/-- A call of `write_call_fragment_sync`, and its result. -/
structure WriteAttempt where
  callFragment : CallFragment
  cassTimestamp : ℕ
  ttl : ℤ
  rc : ResultCode
  deriving DecidableEq

/-- The same store, with a record of the writes that each list receives. -/
def Outside.recording {σ : Type} (outside : Outside σ) : Outside (σ × List WriteAttempt) where
  rand := outside.rand
  write l f time ttl rc l' := outside.write l.1 f time ttl rc l'.1 ∧ l'.2 = ⟨f, time, ttl, rc⟩ :: l.2
  get l rc records := outside.get l.1 rc records
  delete l records time rc l' := outside.delete l.1 records time rc l'.1 ∧ l'.2 = l.2

/-! ### What a worker does for one request -/

section Runs
variable {W : Type}

/-- The events of a successful write and of the trim that may follow it. -/
inductive Written (config : PoolConfig) (w : W) (clr : CallListRequest) : List (Event W) → Prop
  | unread (time : ℕ) : Written config w clr [.wrote w clr time .OK]
  | kept (time : ℕ) {rc : ResultCode} {records recordsToDelete : List CallFragment}
      (hs : selectRecords config.maxCallListLength rc records = .ok (false, recordsToDelete)) :
      Written config w clr [.wrote w clr time .OK, .read w clr.impu rc records]
  | trimmed (time : ℕ) {records recordsToDelete : List CallFragment} (rc : ResultCode)
      (hs : selectRecords config.maxCallListLength .OK records = .ok (true, recordsToDelete)) :
      Written config w clr
        [.wrote w clr time .OK, .read w clr.impu .OK records, .deleted w clr.impu recordsToDelete time rc]

/-- The events of a request from its write to its completion: after a write that fails there is nothing else, and
    after one that does not there is a notification, whatever became of the trim. -/
inductive RequestRun (config : PoolConfig) (w : W) (clr : CallListRequest) : List (Event W) → Prop
  | failed (time : ℕ) {rc : ResultCode} (hrc : rc ≠ .OK) :
      RequestRun config w clr [.wrote w clr time rc, .completed w clr]
  | notified {events : List (Event W)} (written : Written config w clr events) :
      RequestRun config w clr (events ++ [.notified w clr.impu, .completed w clr])

/-- The events so far of the request that a worker is at. -/
def Progress (config : PoolConfig) (w : W) : WorkerState → List (Event W) → Prop
  | .idle, events | .starting _, events | .writing _ _, events => events = []
  | .counting clr time, events | .sampling clr time, events | .reading clr time, events =>
    events = [.wrote w clr time .OK]
  | .trimming clr time recordsToDelete, events =>
    ∃ records, selectRecords config.maxCallListLength .OK records = .ok (true, recordsToDelete) ∧
      events = [.wrote w clr time .OK, .read w clr.impu .OK records]
  | .notifying clr, events => Written config w clr events
  | .completing clr, events => RequestRun config w clr (events ++ [.completed w clr])

/-- A step goes on with the request that the worker is at, or completes it. -/
theorem Acts.progress {config : PoolConfig} (hn : config.httpNotifier = true) {w : W} {x y : WorkerState} {e : Effect W}
    {events : List (Event W)} (h : Acts config w x e y) (hp : Progress config w x events) :
    Progress config w y (events ++ e.events) ∨
      y = .idle ∧ ∃ clr, RequestRun config w clr (events ++ e.events) := by
  cases h with
  | take clr => exact Or.inl (by simpa [Progress] using hp)
  | stamp clr time => exact Or.inl (by simpa [Progress, Effect.none] using hp)
  | fail clr time hrc =>
    obtain rfl : events = [] := hp
    exact Or.inl (.failed time hrc)
  | write clr time =>
    obtain rfl : events = [] := hp
    exact Or.inl rfl
  | count clr time => exact Or.inl (by simpa [Progress] using hp)
  | sample clr time => exact Or.inl (by simpa [Progress, Effect.none] using hp)
  | skip clr time =>
    obtain rfl : events = _ := hp
    exact Or.inl (.unread time)
  | select clr time hs =>
    obtain rfl : events = _ := hp
    exact Or.inl ⟨_, hs, rfl⟩
  | keep clr time hs =>
    obtain rfl : events = _ := hp
    exact Or.inl (.kept time hs)
  | delete clr time recordsToDelete rc =>
    obtain ⟨records, hs, rfl⟩ := hp
    exact Or.inl (.trimmed time rc hs)
  | notify clr =>
    refine Or.inl ?_
    rw [Progress, List.append_assoc]
    exact .notified hp
  | silent clr hn' =>
    rw [hn] at hn'
    cases hn'
  | complete clr => exact Or.inr ⟨rfl, clr, hp⟩

variable [DecidableEq W]

/-- The events of one worker, the first one first. -/
def workerEvents (w : W) (trace : List (Event W)) : List (Event W) := trace.reverse.filter fun e => e.worker = some w

theorem workerEvents_append (w : W) (events trace : List (Event W)) :
    workerEvents w (events ++ trace) = workerEvents w trace ++ workerEvents w events := by
  rw [workerEvents, List.reverse_append, List.filter_append]
  rfl

theorem Acts.workerEvents {config : PoolConfig} {w : W} {x y : WorkerState} {e : Effect W} (h : Acts config w x e y) :
    Memento.workerEvents w e.events = e.events := by
  cases h <;> simp [Memento.workerEvents, Effect.none, Effect.event, Event.worker]

theorem Acts.workerEvents_of_ne {config : PoolConfig} {w v : W} {x y : WorkerState} {e : Effect W}
    (h : Acts config w x e y) (hv : v ≠ w) : Memento.workerEvents v e.events = [] := by
  cases h <;> simp [Memento.workerEvents, Effect.none, Effect.event, Event.worker, hv.symm]

end Runs

section Pool
variable {W σ : Type} {config : PoolConfig} {outside : Outside σ}

/-- What the list of an IMPU has received, by the trace. -/
def received (config : PoolConfig) (impu : Bytes) (trace : List (Event W)) : List WriteAttempt :=
  trace.filterMap fun
    | .wrote _ clr time rc => if clr.impu = impu then some ⟨clr.callFragment, time, config.callListTtl, rc⟩ else none
    | _ => none

theorem map_received (impu : Bytes) (trace : List (Event W)) :
    (received config impu trace).map (fun a => (a.callFragment, a.ttl)) =
      ((attempts trace).filter (·.impu = impu)).map fun clr => (clr.callFragment, config.callListTtl) := by
  induction trace with
  | nil => rfl
  | cons e trace ih =>
    cases e with
    | wrote w clr time rc =>
      by_cases hi : clr.impu = impu
      · simpa [received, attempts, hi] using ih
      · simpa [received, attempts, hi] using ih
    | _ => simpa [received, attempts] using ih

theorem countP_received (impu : Bytes) (trace : List (Event W)) :
    (received config impu trace).countP (·.rc = .OK) = (successes trace).countP (·.impu = impu) := by
  induction trace with
  | nil => rfl
  | cons e trace ih =>
    cases e with
    | wrote w clr time rc =>
      by_cases hi : clr.impu = impu
      · cases rc <;> simpa [received, successes, hi] using ih
      · cases rc <;> simpa [received, successes, hi] using ih
    | _ => simpa [received, successes] using ih

/-- No request is queued or in work. -/
structure Pool.Drained (s : Pool W σ) : Prop where
  queue : s.queue = []
  worker : ∀ w, s.worker w = .idle

theorem Pool.Drained.total [Fintype W] {s : Pool W σ} (h : s.Drained) {g : WorkerState → ℕ} (hidle : g .idle = 0) :
    s.total g = 0 :=
  Finset.sum_eq_zero fun w _ => by rw [h.worker, hidle]

variable [DecidableEq W]

theorem Reachable.completions_length [Fintype W] {s₀ s : Pool W σ} (h : Reachable config outside s₀ s)
    (drained : s.Drained) : (completions s.trace).length = (submissions s.trace).length := by
  have balance := h.completions_balance fun _ => true
  rw [drained.queue, drained.total rfl, List.countP_true] at balance
  simpa using balance.symm

/-- Then a counter has counted the successful writes of its kind. -/
theorem Reachable.counter_drained [Fintype W] {s₀ s : Pool W σ} (h : Reachable config outside s₀ s) (drained : s.Drained)
    {p : CallListRequest → Bool} {c : Pool W σ → ℕ} (hsubmit : ∀ s clr, c (s.submit clr) = c s)
    (hacts : ∀ {s s' w x e y}, Acted config s s' w x e y → c s' = c s + e.counted.countP p) :
    c s = c s₀ + (successes s.trace).countP p := by
  have balance := h.counter_balance p hsubmit hacts
  rw [drained.total rfl] at balance
  omega

/-- The events of a worker are those of the requests it has completed, and of the one it is at. -/
theorem Reachable.runs {s₀ s : Pool W σ} (hn : config.httpNotifier = true) (h : Reachable config outside s₀ s) (w : W) :
    ∃ (runs : List (CallListRequest × List (Event W))) (events : List (Event W)),
      (∀ run ∈ runs, RequestRun config w run.1 run.2) ∧ Progress config w (s.worker w) events ∧
        workerEvents w s.trace = (runs.map Prod.snd).flatten ++ events := by
  refine h.invariant (P := fun s => ∃ (runs : List (CallListRequest × List (Event W))) (events : List (Event W)),
      (∀ run ∈ runs, RequestRun config w run.1 run.2) ∧ Progress config w (s.worker w) events ∧
        workerEvents w s.trace = (runs.map Prod.snd).flatten ++ events) ?_ fun {s s'} _ ih step => ?_
  · refine ⟨[], [], nofun, ?_, ?_⟩
    · rw [h.initial.worker]
      rfl
    · rw [h.initial.trace]
      rfl
  · obtain ⟨runs, events, hruns, hprogress, hevents⟩ := ih
    rcases step.acted with ⟨clr, rfl⟩ | ⟨v, x, e, y, acted⟩
    · refine ⟨runs, events, hruns, hprogress, ?_⟩
      rw [← hevents]
      simp [workerEvents, Pool.submit, Event.worker]
    · have htrace : workerEvents w s'.trace = (runs.map Prod.snd).flatten ++ (events ++ workerEvents w e.events) := by
        rw [acted.trace, workerEvents_append, hevents, List.append_assoc]
      by_cases hw : w = v
      · subst hw
        have hy : s'.worker w = y := by rw [acted.after, Function.update_self]
        rw [acted.before] at hprogress
        rw [acted.acts.workerEvents] at htrace
        rw [hy]
        rcases acted.acts.progress hn hprogress with hnext | ⟨rfl, clr, hrun⟩
        · exact ⟨runs, _, hruns, hnext, htrace⟩
        · refine ⟨runs ++ [(clr, events ++ e.events)], [], ?_, rfl, ?_⟩
          · rw [List.forall_mem_append]
            exact ⟨hruns, List.forall_mem_singleton.mpr hrun⟩
          · rw [htrace, List.map_append, List.flatten_append, List.append_nil]
            simp
      · rw [acted.acts.workerEvents_of_ne hw, List.append_nil] at htrace
        refine ⟨runs, events, hruns, ?_, htrace⟩
        rwa [acted.after, Function.update_of_ne hw]

theorem Reachable.received {s₀ s : Pool W (σ × List WriteAttempt)} (h : Reachable config outside.recording s₀ s)
    (hempty : ∀ impu, (s₀.store impu).2 = []) (impu : Bytes) : (s.store impu).2 = Memento.received config impu s.trace := by
  refine h.invariant (P := fun s => (s.store impu).2 = Memento.received config impu s.trace) ?_ fun {s s'} _ ih step => ?_
  · rw [hempty, h.initial.trace]
    rfl
  · cases step with
    | write w rc x hw ho =>
      rename_i clr time
      simp only [store_setWorker, store_log, store_setStore, trace_setWorker, trace_log, trace_setStore, Function.update_apply]
      by_cases hi : impu = clr.impu
      · subst hi
        rw [if_pos rfl, ho.2, ih]
        simp [Memento.received]
      · simpa [Memento.received, hi, Ne.symm hi] using ih
    | delete w rc x hw ho =>
      simp only [store_setWorker, store_log, store_setStore, trace_setWorker, trace_log, trace_setStore, Function.update_apply]
      split
      · rename_i hi
        simpa [Memento.received, ho.2, ← hi] using ih
      · simpa [Memento.received] using ih
    | notify w hw =>
      split
      · simpa [Memento.received] using ih
      · exact ih
    | _ => simpa [Memento.received] using ih

variable [Fintype W]

/-- What a pool has done about the requests it was given. -/
structure Accounted (config : PoolConfig) (s₀ s : Pool W (σ × List WriteAttempt)) : Prop where
  /-- One write for each request, with its timestamp, id, type and contents and the configured TTL. -/
  attempts : ∀ impu, ((s.store impu).2.map fun a => (a.callFragment, a.ttl)).Perm
    (((submissions s.trace).filter (·.impu = impu)).map fun clr =>
      ({ timestamp := clr.timestamp, id := clr.id, type := clr.type, contents := clr.contents }, config.callListTtl))
  /-- One notification for each write that returned OK. -/
  notifications : ∀ impu, (notifications s.trace).count impu = (s.store impu).2.countP (·.rc = .OK)
  /-- What each worker did, request by request. -/
  runs : ∀ w, ∃ runs : List (CallListRequest × List (Event W)), (∀ run ∈ runs, RequestRun config w run.1 run.2) ∧
    workerEvents w s.trace = (runs.map Prod.snd).flatten
  completedCalls : s.completedCalls = s₀.completedCalls + (successes s.trace).countP (·.type = .END)
  failedCalls : s.failedCalls = s₀.failedCalls + (successes s.trace).countP (·.type = .REJECTED)
  writeLatencies : s.writeLatencies = s₀.writeLatencies + (successes s.trace).length
  readLatencies : s.readLatencies = s₀.readLatencies + (successfulReads s.trace).length
  completions : (completions s.trace).Perm (submissions s.trace)

/-- When all work is done, every request was written once and completed once, and notified and counted exactly if its
    write returned OK. -/
theorem accounting_exact {s₀ s : Pool W (σ × List WriteAttempt)} (hn : config.httpNotifier = true)
    (h : Reachable config outside.recording s₀ s) (hempty : ∀ impu, (s₀.store impu).2 = []) (drained : s.Drained) :
    Accounted config s₀ s where
  attempts impu := by
    have hperm : (Memento.attempts s.trace).Perm (submissions s.trace) := by
      refine List.perm_iff_count.mpr fun clr => ?_
      have := h.attempts_balance (· == clr)
      rw [drained.queue, drained.total rfl] at this
      simpa [List.count] using this.symm
    rw [h.received hempty, map_received]
    exact (hperm.filter _).map _
  notifications impu := by
    have := h.notifications_balance hn impu
    rw [drained.total rfl] at this
    rw [h.received hempty, countP_received]
    exact this.symm
  runs w := by
    obtain ⟨runs, events, hruns, hprogress, hevents⟩ := h.runs hn w
    rw [drained.worker] at hprogress
    obtain rfl : events = [] := hprogress
    exact ⟨runs, hruns, hevents.trans (List.append_nil _)⟩
  completedCalls := h.counter_drained drained (fun _ _ => rfl) Acted.completedCalls
  failedCalls := h.counter_drained drained (fun _ _ => rfl) Acted.failedCalls
  writeLatencies := by
    rw [h.counter_drained drained (p := fun _ => true) (c := fun s => s.writeLatencies) (fun _ _ => rfl) fun acted => by
      rw [List.countP_true, acted.writeLatencies], List.countP_true]
  readLatencies := h.readLatencies_eq
  completions := by
    refine List.perm_iff_count.mpr fun clr => ?_
    have := h.completions_balance (· == clr)
    rw [drained.queue, drained.total rfl] at this
    simpa [List.count] using this.symm

end Pool

/-- One write fails, and the other is counted and notified. -/
theorem accounting_exact_sample : ∃ s : Pool Bool (Cells × List WriteAttempt),
    Reachable ⟨0, 604800, true⟩ (lastWriteStore (· < ·)).recording (.new ⟨fun _ => .empty, []⟩) s ∧
      successes s.trace = [newRejected] ∧ Accounted ⟨0, 604800, true⟩ (.new ⟨fun _ => .empty, []⟩) s := by
  have r0 : Reachable ⟨0, 604800, true⟩ (lastWriteStore (· < ·)).recording
    (.new ⟨fun _ => .empty, []⟩ : Pool Bool (Cells × List WriteAttempt)) _ := .new _ _ _
  have r1 := r0.step (.submit newRejected)
  have r2 := r1.step (.submit lateBegin)
  have r3 := r2.step (.take true rfl rfl)
  have r4 := r3.step (.take false rfl rfl)
  have r5 := r4.step (.stamp true 1 rfl Nat.zero_lt_one)
  have r6 := r5.step (.stamp false 2 rfl (Nat.lt_succ_self 1))
  have r7 := r6.step (.write false .CONNECTION_ERROR
    ⟨fun _ => .empty, [⟨lateBegin.callFragment, 2, 604800, .CONNECTION_ERROR⟩]⟩ rfl ⟨Or.inr ⟨nofun, rfl⟩, rfl⟩)
  have r8 := r7.step (.write true .OK ⟨_, _⟩ rfl ⟨Or.inl rfl, rfl⟩)
  have r9 := r8.step (.complete false rfl)
  have r10 := r9.step (.count true rfl)
  have r11 := r10.step (.sample true 0 rfl trivial rfl)
  have r12 := r11.step (.notify true rfl)
  have r13 := r12.step (.complete true rfl)
  exact ⟨_, r13, rfl, accounting_exact rfl r13 (fun _ => rfl) ⟨rfl, fun w => by cases w <;> rfl⟩⟩

end Memento
