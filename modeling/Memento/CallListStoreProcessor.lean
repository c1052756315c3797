import Mathlib.Logic.Function.Basic
import Mathlib.Logic.Relation
import Memento.Lib.Binary64
import Memento.CallListStore

/-! The thread pool of `call_list_store_processor.cpp`: `is_call_trim_needed`, and the steps of `process_work`
    between which workers interleave. -/

namespace Memento
open Text

/-! ### `is_call_trim_needed` -/

/-- How the check for a trim can be undefined: `rand() % n` with `n = 0`, a result that is no `int`, and `records[ii]`
    past the last record. -/
inductive TrimFault where
  | divisionByZero
  | intOverflow
  | outOfRange
  deriving DecidableEq, Repr

/-- The values of a 32-bit `int`. -/
def IsInt (z : ℤ) : Prop := -2147483648 ≤ z ∧ z ≤ 2147483647

instance : DecidablePred IsInt := fun _ => inferInstanceAs (Decidable (_ ∧ _))

def checkInt (z : ℤ) : Except TrimFault ℤ := if IsInt z then .ok z else .error .intOverflow

/-- `n`: the number of calls is checked for one write in `n`. -/
def sampleInterval (maxCallListLength : ℤ) : ℤ :=
  if maxCallListLength.tmod 10 ≠ 0 then maxCallListLength.tdiv 10 + 1 else maxCallListLength.tdiv 10

/-- Whether the stored calls are read after this write. -/
def isSampled (maxCallListLength rand : ℤ) : Except TrimFault Bool :=
  if maxCallListLength = 0 then .ok false
  else if sampleInterval maxCallListLength = 0 then .error .divisionByZero
  else .ok (rand.tmod (sampleInterval maxCallListLength) = 0)

/-- `count > _max_call_list_length * 1.1`, in units of 2^-51: the `double` 1.1 is 2476979795053773 of them. -/
def exceedsThreshold (count maxCallListLength : ℤ) : Bool :=
  Binary64.round (maxCallListLength * 2476979795053773) < count * 2 ^ 51

/-- The loop that copies `records[ii]` until `ii` is `numToDelete`; `records` are those from `ii` on. -/
def copyRecords (numToDelete ii : ℤ) : List CallFragment → Except TrimFault (List CallFragment)
  | [] => if ii = numToDelete then .ok [] else .error .outOfRange
  | record :: records =>
    if ii = numToDelete then .ok []
    else do
      let rest ← copyRecords numToDelete (ii + 1) records
      pure (record :: rest)

/-- What is done with the result of `get_call_fragments_sync`: whether a trim is needed, and `records_to_delete`. -/
def selectRecords (maxCallListLength : ℤ) (rc : ResultCode) (records : List CallFragment) :
    Except TrimFault (Bool × List CallFragment) :=
  if rc = .OK then do
    let count ← checkInt (records.countP CallFragment.isCall)
    if exceedsThreshold count maxCallListLength then do
      let numToDelete ← checkInt (count - maxCallListLength)
      let recordsToDelete ← copyRecords numToDelete 0 records
      pure (true, recordsToDelete)
    else pure (false, [])
  else pure (false, [])

/-- `is_call_trim_needed`, where `rand()` and the store give these results. -/
def isCallTrimNeeded (maxCallListLength rand : ℤ) (rc : ResultCode) (records : List CallFragment) :
    Except TrimFault (Bool × List CallFragment) := do
  let sampled ← isSampled maxCallListLength rand
  if sampled then selectRecords maxCallListLength rc records else pure (false, [])

/-! ### `process_work` -/

structure PoolConfig where
  maxCallListLength : ℤ
  callListTtl : ℤ
  httpNotifier : Bool

/-- Where a worker is: waiting for work, or, in the order of `process_work`, before `generate_timestamp`,
    `write_call_fragment_sync`, the statistics of a successful write, `rand()`, `get_call_fragments_sync`,
    `delete_old_call_fragments_sync`, `send_notify` and `request_complete`. -/
inductive WorkerState where
  | idle
  | starting (clr : CallListRequest)
  | writing (clr : CallListRequest) (cassTimestamp : ℕ)
  | counting (clr : CallListRequest) (cassTimestamp : ℕ)
  | sampling (clr : CallListRequest) (cassTimestamp : ℕ)
  | reading (clr : CallListRequest) (cassTimestamp : ℕ)
  | trimming (clr : CallListRequest) (cassTimestamp : ℕ) (recordsToDelete : List CallFragment)
  | notifying (clr : CallListRequest)
  | completing (clr : CallListRequest)

/-- What the pool relies on: `rand()`, and one call list of the store, of type `σ`. -/
structure Outside (σ : Type) where
  rand : ℤ → Prop
  write : σ → CallFragment → ℕ → ℤ → ResultCode → σ → Prop
  get : σ → ResultCode → List CallFragment → Prop
  delete : σ → List CallFragment → ℕ → ResultCode → σ → Prop

/-- `process_work` from beginning to end, as it changes the list of its request when nothing comes in between. -/
inductive ProcessWork {σ : Type} (config : PoolConfig) (outside : Outside σ) (clr : CallListRequest) (x : σ) : σ → Prop
  | failed (cassTimestamp : ℕ) {rc : ResultCode} {x' : σ} (hrc : rc ≠ .OK)
      (hw : outside.write x clr.callFragment cassTimestamp config.callListTtl rc x') : ProcessWork config outside clr x x'
  | kept (cassTimestamp : ℕ) (rand : ℤ) (rc : ResultCode) (records : List CallFragment) {recordsToDelete x'}
      (hw : outside.write x clr.callFragment cassTimestamp config.callListTtl .OK x') (hr : outside.rand rand)
      (hg : isSampled config.maxCallListLength rand = .ok true → outside.get x' rc records)
      (ht : isCallTrimNeeded config.maxCallListLength rand rc records = .ok (false, recordsToDelete)) :
      ProcessWork config outside clr x x'
  | trimmed (cassTimestamp : ℕ) (rand : ℤ) (rc rc' : ResultCode) (records : List CallFragment) {recordsToDelete x' x''}
      (hw : outside.write x clr.callFragment cassTimestamp config.callListTtl .OK x') (hr : outside.rand rand)
      (hg : outside.get x' rc records)
      (ht : isCallTrimNeeded config.maxCallListLength rand rc records = .ok (true, recordsToDelete))
      (hd : outside.delete x' recordsToDelete cassTimestamp rc' x'') : ProcessWork config outside clr x x''

inductive Event (W : Type) where
  | submitted (clr : CallListRequest)
  | wrote (w : W) (clr : CallListRequest) (cassTimestamp : ℕ) (rc : ResultCode)
  | read (w : W) (impu : Bytes) (rc : ResultCode) (records : List CallFragment)
  | deleted (w : W) (impu : Bytes) (records : List CallFragment) (cassTimestamp : ℕ) (rc : ResultCode)
  | notified (w : W) (impu : Bytes)
  | completed (w : W) (clr : CallListRequest)

/-- The thread pool, its queue, the store of each IMPU, the clock of `generate_timestamp`, the two counters and the
    number of samples in each of the latency statistics. The trace has the latest event first. -/
structure Pool (W σ : Type) where
  queue : List CallListRequest
  worker : W → WorkerState
  store : Bytes → σ
  clock : ℕ
  completedCalls : ℕ
  failedCalls : ℕ
  writeLatencies : ℕ
  readLatencies : ℕ
  trace : List (Event W)

section Pool
variable {W σ : Type} [DecidableEq W]

def Pool.setWorker (s : Pool W σ) (w : W) (x : WorkerState) : Pool W σ :=
  { s with worker := Function.update s.worker w x }

def Pool.setStore (s : Pool W σ) (impu : Bytes) (x : σ) : Pool W σ :=
  { s with store := Function.update s.store impu x }

def Pool.log (s : Pool W σ) (e : Event W) : Pool W σ := { s with trace := e :: s.trace }

/-- `write_call_list_entry`. -/
def Pool.submit (s : Pool W σ) (clr : CallListRequest) : Pool W σ :=
  { s with queue := s.queue ++ [clr] }.log (.submitted clr)

/-- A step of the pool: `write_call_list_entry` adds work, or a worker takes a step of `process_work`. A fault of
    `is_call_trim_needed` has no step. A stop watch always reads. -/
inductive Step (config : PoolConfig) (outside : Outside σ) (s : Pool W σ) : Pool W σ → Prop
  | submit (clr : CallListRequest) : Step config outside s (s.submit clr)
  | take (w : W) {clr rest} (hw : s.worker w = .idle) (hq : s.queue = clr :: rest) :
      Step config outside s ({ s with queue := rest }.setWorker w (.starting clr))
  | stamp (w : W) {clr} (cassTimestamp : ℕ) (hw : s.worker w = .starting clr) (hc : s.clock < cassTimestamp) :
      Step config outside s ({ s with clock := cassTimestamp }.setWorker w (.writing clr cassTimestamp))
  | write (w : W) {clr cassTimestamp} (rc : ResultCode) (x : σ) (hw : s.worker w = .writing clr cassTimestamp)
      (ho : outside.write (s.store clr.impu) clr.callFragment cassTimestamp config.callListTtl rc x) :
      Step config outside s (((s.setStore clr.impu x).log (.wrote w clr cassTimestamp rc)).setWorker w
        (if rc = .OK then .counting clr cassTimestamp else .completing clr))
  | count (w : W) {clr : CallListRequest} {cassTimestamp : ℕ} (hw : s.worker w = .counting clr cassTimestamp) :
      Step config outside s ({ s with
        completedCalls := s.completedCalls + if clr.type = FragmentType.END then 1 else 0
        failedCalls := s.failedCalls + if clr.type = FragmentType.REJECTED then 1 else 0
        writeLatencies := s.writeLatencies + 1 }.setWorker w
          (.sampling clr cassTimestamp))
  | sample (w : W) {clr cassTimestamp} (rand : ℤ) {sampled} (hw : s.worker w = .sampling clr cassTimestamp)
      (hr : outside.rand rand) (hs : isSampled config.maxCallListLength rand = .ok sampled) :
      Step config outside s (s.setWorker w (if sampled then .reading clr cassTimestamp else .notifying clr))
  | read (w : W) {clr cassTimestamp} (rc : ResultCode) (records : List CallFragment) {needed recordsToDelete}
      (hw : s.worker w = .reading clr cassTimestamp)
      (ho : outside.get (s.store clr.impu) rc records)
      (hs : selectRecords config.maxCallListLength rc records = .ok (needed, recordsToDelete)) :
      Step config outside s (({ s with readLatencies := s.readLatencies + if rc = ResultCode.OK then 1 else 0 }.log
        (.read w clr.impu rc records)).setWorker w
        (if needed then .trimming clr cassTimestamp recordsToDelete else .notifying clr))
  | delete (w : W) {clr cassTimestamp recordsToDelete} (rc : ResultCode) (x : σ)
      (hw : s.worker w = .trimming clr cassTimestamp recordsToDelete)
      (ho : outside.delete (s.store clr.impu) recordsToDelete cassTimestamp rc x) :
      Step config outside s (((s.setStore clr.impu x).log
        (.deleted w clr.impu recordsToDelete cassTimestamp rc)).setWorker w (.notifying clr))
  | notify (w : W) {clr} (hw : s.worker w = .notifying clr) :
      Step config outside s ((if config.httpNotifier then s.log (.notified w clr.impu) else s).setWorker w (.completing clr))
  | complete (w : W) {clr} (hw : s.worker w = .completing clr) :
      Step config outside s ((s.log (.completed w clr)).setWorker w .idle)

/-- A step of the pool that is no submission. -/
def WorkerStep (config : PoolConfig) (outside : Outside σ) (p p' : Pool W σ) : Prop :=
  Step config outside p p' ∧ ∀ clr, p' ≠ p.submit clr

def Pool.new (x : σ) : Pool W σ := ⟨[], fun _ => .idle, fun _ => x, 0, 0, 0, 0, 0, []⟩

structure Pool.Initial (s : Pool W σ) : Prop where
  queue : s.queue = []
  worker : ∀ w, s.worker w = .idle
  trace : s.trace = []

structure Reachable (config : PoolConfig) (outside : Outside σ) (s₀ s : Pool W σ) : Prop where
  initial : s₀.Initial
  steps : Relation.ReflTransGen (Step config outside) s₀ s

end Pool

end Memento
