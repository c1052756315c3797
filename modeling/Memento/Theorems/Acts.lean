import Memento.Theorems.Trim

/-! The steps of the thread pool, read as what one worker does: the request it takes or counts, the events it logs and
    its own state before and after. -/

namespace Memento
open Text

/-! ### What the trace says -/

section Events
variable {W : Type}

def Event.worker : Event W → Option W
  | .submitted _ => none
  | .wrote w _ _ _ | .read w _ _ _ | .deleted w _ _ _ _ | .notified w _ | .completed w _ => some w

def submissions (trace : List (Event W)) : List CallListRequest :=
  trace.filterMap fun | .submitted clr => some clr | _ => none

def attempts (trace : List (Event W)) : List CallListRequest :=
  trace.filterMap fun | .wrote _ clr _ _ => some clr | _ => none

/-- The writes that returned OK. -/
def successes (trace : List (Event W)) : List CallListRequest :=
  trace.filterMap fun | .wrote _ clr _ .OK => some clr | _ => none

/-- The reads that returned OK, by their IMPU. -/
def successfulReads (trace : List (Event W)) : List Bytes :=
  trace.filterMap fun | .read _ impu .OK _ => some impu | _ => none

def notifications (trace : List (Event W)) : List Bytes :=
  trace.filterMap fun | .notified _ impu => some impu | _ => none

def completions (trace : List (Event W)) : List CallListRequest :=
  trace.filterMap fun | .completed _ clr => some clr | _ => none

variable (a b : List (Event W))

theorem submissions_append : submissions (a ++ b) = submissions a ++ submissions b := List.filterMap_append
theorem attempts_append : attempts (a ++ b) = attempts a ++ attempts b := List.filterMap_append
theorem successes_append : successes (a ++ b) = successes a ++ successes b := List.filterMap_append
theorem successfulReads_append : successfulReads (a ++ b) = successfulReads a ++ successfulReads b := List.filterMap_append
theorem notifications_append : notifications (a ++ b) = notifications a ++ notifications b := List.filterMap_append
theorem completions_append : completions (a ++ b) = completions a ++ completions b := List.filterMap_append

theorem successes_sublist (trace : List (Event W)) : (successes trace).Sublist (attempts trace) := by
  induction trace with
  | nil => exact .slnil
  | cons e trace ih =>
    cases e with
    | wrote w clr time rc =>
      cases rc with
      | OK => exact ih.cons_cons clr
      | CONNECTION_ERROR | UNKNOWN_ERROR => exact ih.cons clr
    | _ => exact ih

theorem successes_fail (w : W) (clr : CallListRequest) (time : ℕ) {rc : ResultCode} (h : rc ≠ .OK) :
    successes [.wrote w clr time rc] = [] := by
  cases rc with
  | OK => exact absurd rfl h
  | CONNECTION_ERROR | UNKNOWN_ERROR => rfl

end Events

/-! ### The steps of one worker -/

/-- What a worker's step does beside its own state: the request it takes from the queue, the one it counts, and the
    events it logs. -/
structure Effect (W : Type) where
  taken : List CallListRequest
  counted : List CallListRequest
  events : List (Event W)

def Effect.none {W : Type} : Effect W := ⟨[], [], []⟩
def Effect.event {W : Type} (e : Event W) : Effect W := ⟨[], [], [e]⟩

inductive Acts {W : Type} (config : PoolConfig) (w : W) : WorkerState → Effect W → WorkerState → Prop
  | take (clr : CallListRequest) : Acts config w .idle ⟨[clr], [], []⟩ (.starting clr)
  | stamp (clr : CallListRequest) (time : ℕ) : Acts config w (.starting clr) .none (.writing clr time)
  | fail (clr : CallListRequest) (time : ℕ) {rc : ResultCode} (hrc : rc ≠ .OK) :
      Acts config w (.writing clr time) (.event (.wrote w clr time rc)) (.completing clr)
  | write (clr : CallListRequest) (time : ℕ) :
      Acts config w (.writing clr time) (.event (.wrote w clr time .OK)) (.counting clr time)
  | count (clr : CallListRequest) (time : ℕ) : Acts config w (.counting clr time) ⟨[], [clr], []⟩ (.sampling clr time)
  | sample (clr : CallListRequest) (time : ℕ) : Acts config w (.sampling clr time) .none (.reading clr time)
  | skip (clr : CallListRequest) (time : ℕ) : Acts config w (.sampling clr time) .none (.notifying clr)
  | select (clr : CallListRequest) (time : ℕ) {records recordsToDelete : List CallFragment}
      (hs : selectRecords config.maxCallListLength .OK records = .ok (true, recordsToDelete)) :
      Acts config w (.reading clr time) (.event (.read w clr.impu .OK records)) (.trimming clr time recordsToDelete)
  | keep (clr : CallListRequest) (time : ℕ) {rc : ResultCode} {records recordsToDelete : List CallFragment}
      (hs : selectRecords config.maxCallListLength rc records = .ok (false, recordsToDelete)) :
      Acts config w (.reading clr time) (.event (.read w clr.impu rc records)) (.notifying clr)
  | delete (clr : CallListRequest) (time : ℕ) (recordsToDelete : List CallFragment) (rc : ResultCode) :
      Acts config w (.trimming clr time recordsToDelete) (.event (.deleted w clr.impu recordsToDelete time rc))
        (.notifying clr)
  | notify (clr : CallListRequest) (hn : config.httpNotifier = true) :
      Acts config w (.notifying clr) (.event (.notified w clr.impu)) (.completing clr)
  | silent (clr : CallListRequest) (hn : config.httpNotifier = false) :
      Acts config w (.notifying clr) .none (.completing clr)
  | complete (clr : CallListRequest) : Acts config w (.completing clr) (.event (.completed w clr)) .idle

section Pool
variable {W σ : Type} [DecidableEq W] {config : PoolConfig} {outside : Outside σ} {s s' : Pool W σ}

/-- The step is one of worker `w`, from state `x` to `y`. -/
structure Acted (config : PoolConfig) (s s' : Pool W σ) (w : W) (x : WorkerState) (e : Effect W) (y : WorkerState) : Prop where
  acts : Acts config w x e y
  before : s.worker w = x
  after : s'.worker = Function.update s.worker w y
  queue : s.queue = e.taken ++ s'.queue
  completedCalls : s'.completedCalls = s.completedCalls + e.counted.countP (·.type = .END)
  failedCalls : s'.failedCalls = s.failedCalls + e.counted.countP (·.type = .REJECTED)
  writeLatencies : s'.writeLatencies = s.writeLatencies + e.counted.length
  readLatencies : s'.readLatencies = s.readLatencies + (successfulReads e.events).length
  trace : s'.trace = e.events ++ s.trace

/-- A step is a submission or a step of one worker. -/
theorem Step.acted (h : Step config outside s s') :
    (∃ clr, s' = s.submit clr) ∨ ∃ w x e y, Acted config s s' w x e y := by
  cases h with
  | submit clr => exact Or.inl ⟨clr, rfl⟩
  | take w hw hq => exact Or.inr ⟨w, _, _, _, .take _, hw, rfl, hq, rfl, rfl, rfl, rfl, rfl⟩
  | stamp w time hw => exact Or.inr ⟨w, _, _, _, .stamp _ time, hw, rfl, rfl, rfl, rfl, rfl, rfl, rfl⟩
  | write w rc x hw ho =>
    by_cases hrc : rc = .OK
    · subst hrc
      exact Or.inr ⟨w, _, _, _, .write _ _, hw, rfl, rfl, rfl, rfl, rfl, rfl, rfl⟩
    · rw [if_neg hrc]
      exact Or.inr ⟨w, _, _, _, .fail _ _ hrc, hw, rfl, rfl, rfl, rfl, rfl, rfl, rfl⟩
  | count w hw =>
    refine Or.inr ⟨w, _, _, _, .count _ _, hw, rfl, rfl, ?_, ?_, rfl, rfl, rfl⟩
    · simp [Pool.setWorker, List.countP_cons]
    · simp [Pool.setWorker, List.countP_cons]
  | sample w rand hw hr hs =>
    rename_i sampled
    cases sampled with
    | true => exact Or.inr ⟨w, _, _, _, .sample _ _, hw, rfl, rfl, rfl, rfl, rfl, rfl, rfl⟩
    | false => exact Or.inr ⟨w, _, _, _, .skip _ _, hw, rfl, rfl, rfl, rfl, rfl, rfl, rfl⟩
  | read w rc records hw ho hs =>
    rename_i clr time needed recordsToDelete
    have hlatency : (if rc = ResultCode.OK then 1 else 0) = (successfulReads [Event.read w clr.impu rc records]).length := by
      cases rc <;> rfl
    rcases selectRecords_cases hs with ⟨rfl, rfl, -⟩ | ⟨rfl, -⟩
    · exact Or.inr ⟨w, _, _, _, .select _ _ hs, hw, rfl, rfl, rfl, rfl, rfl, rfl, rfl⟩
    · exact Or.inr ⟨w, _, _, _, .keep _ _ hs, hw, rfl, rfl, rfl, rfl, rfl, congrArg (s.readLatencies + ·) hlatency, rfl⟩
  | delete w rc x hw ho => exact Or.inr ⟨w, _, _, _, .delete _ _ _ rc, hw, rfl, rfl, rfl, rfl, rfl, rfl, rfl⟩
  | notify w hw =>
    cases hn : config.httpNotifier with
    | true => exact Or.inr ⟨w, _, _, _, .notify _ hn, hw, rfl, rfl, rfl, rfl, rfl, rfl, rfl⟩
    | false => exact Or.inr ⟨w, _, _, _, .silent _ hn, hw, rfl, rfl, rfl, rfl, rfl, rfl, rfl⟩
  | complete w hw => exact Or.inr ⟨w, _, _, _, .complete _, hw, rfl, rfl, rfl, rfl, rfl, rfl, rfl⟩

end Pool

end Memento
