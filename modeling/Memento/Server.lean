import Memento.CallListStoreProcessor
import Memento.MementoAppServer

/-! The application server as a whole (`MementoAppServer`): `get_app_tsx`, its transactions, and the thread pool to which
    they queue fragments. SIP events and the steps of the workers interleave; a handler runs as one step. -/

namespace Memento
open Text Handler

/-- `get_app_tsx`, where `admit_request` gives `admitRequest` if it is called: the transaction, if there is one, and
    whether the request was admitted and whether it was not recorded due to overload. -/
def getAppTsx (admitRequest : Bool) (req : Request) : Option Tsx × Bool × Bool :=
  if req.method ≠ .INVITE ∧ req.method ≠ .BYE then (none, false, false)
  else if req.method = .INVITE ∧ admitRequest = false then (none, false, true)
  else (some Tsx.new, req.method = .INVITE, false)

/-- A transaction: its request, which begins a dialog or is in one, its fields, and what it has done and seen so far. -/
structure AppServerTsx (D : Type) where
  dialog : D
  initial : Bool
  req : Request
  tsx : Tsx
  dialogId : Bytes
  written : List CallListRequest
  responses : List Response

structure Server (D W σ : Type) where
  transactions : List (AppServerTsx D)
  admitted : ℕ
  notRecordedOverload : ℕ
  pool : Pool W σ

/-- What `add_to_dialog` was called with; nothing if it was not. -/
def addedDialogId (calls : List Call) : Bytes :=
  (calls.findSome? fun | .addToDialog dialogId => some dialogId | _ => none).getD []

variable {D W σ : Type}

def Pool.submitAll (p : Pool W σ) (clrs : List CallListRequest) : Pool W σ := clrs.foldl Pool.submit p

/-- A request, and what its handler does if there is a transaction for it. -/
def Server.receive (s : Server D W σ) (dialog : D) (initial admitRequest : Bool) (req : Request) (handle : Handler Unit) :
    Server D W σ :=
  let (tsx, admitted, overload) := getAppTsx admitRequest req
  let s := { s with
    admitted := s.admitted + if admitted then 1 else 0
    notRecordedOverload := s.notRecordedOverload + if overload then 1 else 0 }
  match tsx with
  | none => s
  | some tsx =>
    let c := (handle ⟨tsx, []⟩).2
    { s with
      transactions := s.transactions ++ [⟨dialog, initial, req, c.tsx, addedDialogId c.calls, writes c.calls, []⟩]
      pool := s.pool.submitAll (writes c.calls) }

/-- A transaction after a response, where its handler leaves `c`. -/
def AppServerTsx.respond (t : AppServerTsx D) (rsp : Response) (c : Ctx) : AppServerTsx D :=
  { t with tsx := c.tsx, written := t.written ++ writes c.calls, responses := t.responses ++ [rsp] }

inductive ServerEvent (D : Type) where
  | initialRequest (dialog : D) (admitRequest : Bool) (e : InitialEvent)
  | inDialogRequest (dialog : D) (admitRequest : Bool) (e : InDialogEvent)
  | response (t : AppServerTsx D) (e : ResponseEvent)
  | work

/-- A step of the server. A request in a dialog has the id that the dialog's initial INVITE gave to `add_to_dialog`, and
    a response has the CSeq method of its request. Undefined behaviour of a handler has no step. -/
inductive ServerStep [DecidableEq W] (env : Env) (config : PoolConfig) (outside : Outside σ) (s : Server D W σ) :
    ServerEvent D → Server D W σ → Prop
  | initialRequest (dialog : D) (admitRequest : Bool) (e : InitialEvent) (hd : ∀ t ∈ s.transactions, t.dialog ≠ dialog) :
      ServerStep env config outside s (.initialRequest dialog admitRequest e)
        (s.receive dialog true admitRequest e.req (e.handle env))
  | inDialogRequest {t : AppServerTsx D} (admitRequest : Bool) (e : InDialogEvent) (ht : t ∈ s.transactions)
      (hi : t.initial = true) (hm : t.req.method = .INVITE) (hd : e.dialogId = t.dialogId) :
      ServerStep env config outside s (.inDialogRequest t.dialog admitRequest e)
        (s.receive t.dialog false admitRequest e.req (e.handle env))
  | response {t : AppServerTsx D} {before after : List (AppServerTsx D)} (e : ResponseEvent)
      (ht : s.transactions = before ++ t :: after) (hm : findCseq e.rsp.hdrs = some t.req.method)
      (ho : (e.handle env ⟨t.tsx, []⟩).1 ≠ .error .bufferOverflow) :
      ServerStep env config outside s (.response t e)
        { s with
          transactions := before ++ t.respond e.rsp (e.handle env ⟨t.tsx, []⟩).2 :: after
          pool := s.pool.submitAll (writes (e.handle env ⟨t.tsx, []⟩).2.calls) }
  | work {p : Pool W σ} (hp : WorkerStep config outside s.pool p) :
      ServerStep env config outside s .work { s with pool := p }

def Server.new (x : σ) : Server D W σ := ⟨[], 0, 0, .new x⟩

structure Server.Initial (s : Server D W σ) : Prop where
  transactions : s.transactions = []
  admitted : s.admitted = 0
  pool : s.pool.Initial
  completedCalls : s.pool.completedCalls = 0
  failedCalls : s.pool.failedCalls = 0

/-- A run of the server in which each step is one that `allowed` admits in its state. -/
def ServerRun [DecidableEq W] (env : Env) (config : PoolConfig) (outside : Outside σ)
    (allowed : Server D W σ → ServerEvent D → Prop) : Server D W σ → Server D W σ → Prop :=
  Relation.ReflTransGen fun s s' => ∃ e, ServerStep env config outside s e s' ∧ allowed s e

end Memento
