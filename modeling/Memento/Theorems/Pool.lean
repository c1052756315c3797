import Memento.Theorems.Acts

/-! Runs of the thread pool: what a step can do to the store, to the trace and to a worker that is about to trim,
    and the rule that carries an invariant over a run. -/

namespace Memento
open Text

section Fields
variable {W σ : Type} (s : Pool W σ) (w v : W) (x : WorkerState) (impu : Bytes) (y : σ) (e : Event W)

@[simp] theorem queue_setStore : (s.setStore impu y).queue = s.queue := rfl
@[simp] theorem worker_setStore : (s.setStore impu y).worker = s.worker := rfl
@[simp] theorem trace_setStore : (s.setStore impu y).trace = s.trace := rfl
@[simp] theorem store_setStore : (s.setStore impu y).store = Function.update s.store impu y := rfl

@[simp] theorem queue_log : (s.log e).queue = s.queue := rfl
@[simp] theorem worker_log : (s.log e).worker = s.worker := rfl
@[simp] theorem store_log : (s.log e).store = s.store := rfl
@[simp] theorem trace_log : (s.log e).trace = e :: s.trace := rfl

variable (clr : CallListRequest)

@[simp] theorem queue_submit : (s.submit clr).queue = s.queue ++ [clr] := rfl
@[simp] theorem worker_submit : (s.submit clr).worker = s.worker := rfl
@[simp] theorem store_submit : (s.submit clr).store = s.store := rfl
@[simp] theorem trace_submit : (s.submit clr).trace = .submitted clr :: s.trace := rfl

variable [DecidableEq W]

theorem worker_setWorker : (s.setWorker w x).worker v = if v = w then x else s.worker v := Function.update_apply _ _ _ _
@[simp] theorem worker_setWorker_self : (s.setWorker w x).worker w = x := Function.update_self _ _ _

/-- What holds of a worker after `setWorker` holds of its new state, or of a worker that keeps its state. -/
theorem of_worker_setWorker {s : Pool W σ} {w v : W} {x : WorkerState} (P : WorkerState → Prop)
    (h : P ((s.setWorker w x).worker v)) : (v = w ∧ P x) ∨ P (s.worker v) := by
  rw [worker_setWorker] at h
  split at h
  · rename_i hv
    exact Or.inl ⟨hv, h⟩
  · exact Or.inr h

@[simp] theorem queue_setWorker : (s.setWorker w x).queue = s.queue := rfl
@[simp] theorem store_setWorker : (s.setWorker w x).store = s.store := rfl
@[simp] theorem trace_setWorker : (s.setWorker w x).trace = s.trace := rfl

end Fields

def WorkerState.request : WorkerState → Option CallListRequest
  | .idle => none
  | .starting clr | .writing clr _ | .counting clr _ | .sampling clr _ | .reading clr _ | .trimming clr _ _
  | .notifying clr | .completing clr => some clr

section Steps
variable {W σ : Type} [DecidableEq W] {config : PoolConfig} {outside : Outside σ} {s₀ s s' : Pool W σ}

theorem Reachable.new (config : PoolConfig) (outside : Outside σ) (x : σ) :
    Reachable config outside (.new x : Pool W σ) (.new x) := ⟨⟨rfl, fun _ => rfl, rfl⟩, .refl⟩

theorem Reachable.step (h : Reachable config outside s₀ s) (step : Step config outside s s') :
    Reachable config outside s₀ s' := ⟨h.initial, h.steps.tail step⟩

/-- What holds when a pool begins and is kept by each step holds in every run. -/
theorem Reachable.invariant {P : Pool W σ → Prop} (h : Reachable config outside s₀ s) (h0 : P s₀)
    (hstep : ∀ {s s'}, Reachable config outside s₀ s → P s → Step config outside s s' → P s') : P s := by
  obtain ⟨initial, steps⟩ := h
  induction steps with
  | refl => exact h0
  | tail steps step ih => exact hstep ⟨initial, steps⟩ ih step

theorem Step.trace_subset (h : Step config outside s s') : s.trace ⊆ s'.trace := by
  rcases h.acted with ⟨clr, rfl⟩ | ⟨w, x, e, y, acted⟩
  · simp
  · rw [acted.trace]
    exact List.subset_append_right _ _

/-- A step writes a fragment, deletes fragments, or leaves the store as it is. -/
theorem Step.store_cases (h : Step config outside s s') :
    (s'.store = s.store ∧ ∀ w clr cassTimestamp rc, .wrote w clr cassTimestamp rc ∈ s'.trace →
      .wrote w clr cassTimestamp rc ∈ s.trace) ∨
    (∃ w clr cassTimestamp rc x, s.worker w = .writing clr cassTimestamp ∧
      outside.write (s.store clr.impu) clr.callFragment cassTimestamp config.callListTtl rc x ∧
      s'.store = Function.update s.store clr.impu x ∧ s'.trace = .wrote w clr cassTimestamp rc :: s.trace) ∨
    (∃ w clr cassTimestamp recordsToDelete rc x, s.worker w = .trimming clr cassTimestamp recordsToDelete ∧
      outside.delete (s.store clr.impu) recordsToDelete cassTimestamp rc x ∧
      s'.store = Function.update s.store clr.impu x ∧
      s'.trace = .deleted w clr.impu recordsToDelete cassTimestamp rc :: s.trace) := by
  cases h with
  | write w rc x hw ho => exact Or.inr (Or.inl ⟨_, _, _, _, _, hw, ho, rfl, rfl⟩)
  | delete w rc x hw ho => exact Or.inr (Or.inr ⟨_, _, _, _, _, _, hw, ho, rfl, rfl⟩)
  | notify =>
    refine Or.inl ⟨?_, ?_⟩
    · split <;> rfl
    · split <;> simp
  | _ => exact Or.inl ⟨rfl, by simp⟩

/-- A step that logs a delete is the delete of a worker that was about to trim. -/
theorem Step.deleted_inv (h : Step config outside s s') {w : W} {impu : Bytes} {recordsToDelete : List CallFragment}
    {cassTimestamp : ℕ} {rc : ResultCode} (htrace : s'.trace = .deleted w impu recordsToDelete cassTimestamp rc :: s.trace) :
    ∃ clr x, s.worker w = .trimming clr cassTimestamp recordsToDelete ∧ clr.impu = impu ∧
      outside.delete (s.store impu) recordsToDelete cassTimestamp rc x ∧ s'.store = Function.update s.store impu x := by
  cases h with
  | delete v rc' x hw ho =>
    simp only [trace_setWorker, trace_log, trace_setStore, List.cons.injEq, and_true] at htrace
    cases htrace
    exact ⟨_, x, hw, rfl, ho, rfl⟩
  | notify => split at htrace <;> simp at htrace
  | _ => simp at htrace

omit [DecidableEq W] in
theorem Acts.events_cases {w : W} {x y : WorkerState} {e : Effect W} (h : Acts config w x e y) :
    e.events = [] ∨ ∃ event, e.events = [event] ∧
      ∀ v impu rc records, event = .read v impu rc records → v = w ∧ ∃ clr cassTimestamp, x = .reading clr cassTimestamp := by
  cases h with
  | fail | write | delete | notify | complete => exact Or.inr ⟨_, rfl, nofun⟩
  | select | keep =>
    refine Or.inr ⟨_, rfl, ?_⟩
    rintro v impu rc records ⟨⟩
    exact ⟨rfl, _, _, rfl⟩
  | _ => exact Or.inl rfl

/-- A step logs at most one event, and a read only of a worker that was about to read. -/
theorem Step.trace_cases (h : Step config outside s s') :
    s'.trace = s.trace ∨ ∃ e, s'.trace = e :: s.trace ∧
      ∀ w impu rc records, e = .read w impu rc records → ∃ clr cassTimestamp, s.worker w = .reading clr cassTimestamp := by
  rcases h.acted with ⟨clr, rfl⟩ | ⟨v, x, e, y, acted⟩
  · exact Or.inr ⟨_, rfl, nofun⟩
  · rcases acted.acts.events_cases with hnone | ⟨event, hone, hread⟩
    · exact Or.inl (by rw [acted.trace, hnone, List.nil_append])
    · refine Or.inr ⟨event, by rw [acted.trace, hone, List.singleton_append], fun w impu rc records he => ?_⟩
      obtain ⟨rfl, clr, cassTimestamp, hx⟩ := hread w impu rc records he
      exact ⟨clr, cassTimestamp, acted.before.trans hx⟩

theorem Step.trimming_cases (h : Step config outside s s') {w : W} {clr : CallListRequest} {cassTimestamp : ℕ}
    {recordsToDelete : List CallFragment} (hw' : s'.worker w = .trimming clr cassTimestamp recordsToDelete) :
    s.worker w = .trimming clr cassTimestamp recordsToDelete ∨
    (∃ rc records, s.worker w = .reading clr cassTimestamp ∧ outside.get (s.store clr.impu) rc records ∧
      selectRecords config.maxCallListLength rc records = .ok (true, recordsToDelete) ∧
      s'.store = s.store ∧ s'.trace = .read w clr.impu rc records :: s.trace) := by
  cases h with
  | submit => exact Or.inl hw'
  | read v rc records hr ho hs =>
    rcases of_worker_setWorker (· = _) hw' with ⟨rfl, heq⟩ | hw
    · split at heq
      · rename_i hneeded
        cases heq
        cases hneeded
        exact Or.inr ⟨_, _, hr, ho, hs, rfl, rfl⟩
      · cases heq
    · exact Or.inl hw
  | write | sample =>
    rcases of_worker_setWorker (· = _) hw' with ⟨-, heq⟩ | hw
    · split at heq <;> cases heq
    · exact Or.inl hw
  | notify =>
    rcases of_worker_setWorker (· = _) hw' with ⟨-, heq⟩ | hw
    · cases heq
    · split at hw <;> exact Or.inl hw
  | _ =>
    rcases of_worker_setWorker (· = _) hw' with ⟨-, heq⟩ | hw
    · cases heq
    · exact Or.inl hw

omit [DecidableEq W] in
theorem Acts.request_cases {w : W} {x y : WorkerState} {e : Effect W} (h : Acts config w x e y) {clr : CallListRequest}
    (hy : y.request = some clr) : x.request = some clr ∨ clr ∈ e.taken := by
  cases h with
  | take clr' =>
    obtain rfl : clr' = clr := Option.some_inj.mp hy
    exact Or.inr (.head _)
  | complete => cases hy
  | _ => exact Or.inl hy

theorem Step.request_cases (h : Step config outside s s') {w : W} {clr : CallListRequest}
    (hw' : (s'.worker w).request = some clr) : (s.worker w).request = some clr ∨ clr ∈ s.queue := by
  rcases h.acted with ⟨clr', rfl⟩ | ⟨v, x, e, y, acted⟩
  · exact Or.inl hw'
  · rw [acted.after, Function.update_apply] at hw'
    split at hw'
    · rename_i hv
      rw [hv, acted.before, acted.queue]
      exact (acted.acts.request_cases hw').imp_right (List.mem_append_left _)
    · exact Or.inl hw'

theorem Step.queue_cases (h : Step config outside s s') {clr : CallListRequest} (hq : clr ∈ s'.queue) :
    clr ∈ s.queue ∨ s'.trace = .submitted clr :: s.trace := by
  rcases h.acted with ⟨clr', rfl⟩ | ⟨w, x, e, y, acted⟩
  · rcases List.mem_append.mp hq with hq | hq
    · exact Or.inl hq
    · obtain rfl := List.mem_singleton.mp hq
      exact Or.inr rfl
  · rw [acted.queue]
    exact Or.inl (List.mem_append_right _ hq)

/-- Everything that is queued or worked on was submitted. -/
theorem Reachable.submitted (h : Reachable config outside s₀ s) :
    (∀ clr ∈ s.queue, .submitted clr ∈ s.trace) ∧ ∀ w clr, (s.worker w).request = some clr → .submitted clr ∈ s.trace := by
  refine h.invariant (P := fun s => (∀ clr ∈ s.queue, .submitted clr ∈ s.trace) ∧
    ∀ w clr, (s.worker w).request = some clr → .submitted clr ∈ s.trace) ⟨?_, ?_⟩
    fun _ ih step => ⟨fun clr hq => ?_, fun w clr hw => ?_⟩
  · simp [h.initial.queue]
  · simp [h.initial.worker, WorkerState.request]
  · rcases step.queue_cases hq with hq | htrace
    · exact step.trace_subset (ih.1 clr hq)
    · rw [htrace]
      exact .head _
  · rcases step.request_cases hw with hw | hq
    · exact step.trace_subset (ih.2 w clr hw)
    · exact step.trace_subset (ih.1 clr hq)

end Steps

def sampleFragment (timestamp : String) (type : FragmentType) : CallListRequest :=
  ⟨ascii "sip:bob@home", ascii timestamp, ascii "1", type, []⟩

/-- A call that was answered late, and one that began after it and was rejected. -/
def lateBegin : CallListRequest := sampleFragment "20020530093010" .BEGIN
def newRejected : CallListRequest := sampleFragment "20020530093011" .REJECTED

/-- The same request for another user. -/
def ofAlice (clr : CallListRequest) : CallListRequest := { clr with impu := ascii "sip:alice@home" }

theorem selectRecords_late : selectRecords 1 .OK [lateBegin.callFragment, newRejected.callFragment] =
    .ok (true, [lateBegin.callFragment]) :=
  selectRecords_ok (M := 1) (by norm_num) (by decide)

end Memento
