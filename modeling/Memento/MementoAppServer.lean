import Memento.Lib.Base64
import Memento.Lib.Xml
import Memento.CallListStore
import Memento.Sip
import Memento.Timestamp

/-! The transaction handlers of `mementoappserver.cpp`. A handler runs on the fields of its
    `MementoAppServerTsx` and lists the calls it makes, in order. It ends normally, by an exception, or in
    undefined behaviour. -/

namespace Memento
open Text

/-- What a handler needs from outside the repository. -/
structure Env where
  localtime : ℤ → Tm
  base64 : Base64.Codec

/-- The fields of `MementoAppServerTsx` that its handlers use. -/
structure Tsx where
  outgoing : Bool
  startTimeXml : Bytes
  startTimeCassandra : Bytes
  callerName : Bytes
  callerUri : Bytes
  calleeName : Bytes
  calleeUri : Bytes
  answererName : Bytes
  answererUri : Bytes
  storedEntry : Bool
  uniqueId : Bytes
  impu : Bytes
  includesInitialRequest : Bool
  deriving DecidableEq

def Tsx.new : Tsx := ⟨false, [], [], [], [], [], [], [], [], false, [], [], false⟩

/-- How a handler can fail to return: `std::string(uri_cstr, -1)` throws `std::length_error`, or `rapidxml::print`
    writes past the end of `contents`. -/
inductive Fault where
  | lengthError
  | bufferOverflow
  deriving DecidableEq

inductive Call where
  | addToDialog (dialogId : Bytes)
  | sendRequest (req : Request)
  | sendResponse (rsp : Response)
  | writeCallListEntry (clr : CallListRequest)

structure Ctx where
  tsx : Tsx
  calls : List Call

/-- The fragments that a list of calls queues. -/
def writes (calls : List Call) : List CallListRequest :=
  calls.filterMap fun x =>
    match x with
    | .writeCallListEntry clr => some clr
    | _ => none

def Handler (α : Type) : Type := Ctx → Except Fault α × Ctx

instance : Monad Handler where
  pure a := fun c => (.ok a, c)
  bind x f := fun c =>
    match x c with
    | (.ok a, c') => f a c'
    | (.error e, c') => (.error e, c')

namespace Handler

def getTsx : Handler Tsx := fun c => (.ok c.tsx, c)
def modifyTsx (f : Tsx → Tsx) : Handler Unit := fun c => (.ok (), { c with tsx := f c.tsx })
def call (x : Call) : Handler Unit := fun c => (.ok (), { c with calls := c.calls ++ [x] })
def fault {α : Type} (e : Fault) : Handler α := fun c => (.error e, c)

variable {α β : Type} {c : Ctx}

@[simp] theorem pure_run (a : α) : (pure a : Handler α) c = (.ok a, c) := rfl

@[simp] theorem bind_run (x : Handler α) (f : α → Handler β) : (x >>= f) c =
    match x c with
    | (.ok a, c') => f a c'
    | (.error e, c') => (.error e, c') := rfl

@[simp] theorem getTsx_run : getTsx c = (.ok c.tsx, c) := rfl

@[simp] theorem modifyTsx_run (f : Tsx → Tsx) : modifyTsx f c = (.ok (), { c with tsx := f c.tsx }) := rfl

@[simp] theorem call_run (x : Call) : call x c = (.ok (), { c with calls := c.calls ++ [x] }) := rfl

@[simp] theorem fault_run (e : Fault) : (fault e : Handler α) c = (.error e, c) := rfl

end Handler
open Handler

/-! ### Helpers -/

/-- `sizeof(uri_cstr)`. -/
def uriBufferSize : ℕ := 500

def uriToString (context : UriContext) (uri : Option PjsipUri) : Handler Bytes :=
  match uri with
  | none => pure []
  | some uri =>
    match uri.print context uriBufferSize with
    | some text => pure text
    | none => fault .lengthError

def pjStrToString (pjstr : Bytes) : Bytes := if 0 < pjstr.length then pjstr else []

@[simp] theorem pjStrToString_eq (s : Bytes) : pjStrToString s = s := by
  cases s <;> rfl

def sendRequest (req : Request) : Handler Unit := call (.sendRequest req)
def sendResponse (rsp : Response) : Handler Unit := call (.sendResponse rsp)

def orig : Bytes := ascii "orig"
def origCdiv : Bytes := ascii "orig-cdiv"
def pServedUser : Bytes := ascii "P-Served-User"
def pAssertedIdentity : Bytes := ascii "P-Asserted-Identity"
def sescase : Bytes := ascii "sescase"
def privacyHdrName : Bytes := ascii "Privacy"

namespace MementoXML

def TO : Bytes := ascii "to"
def FROM : Bytes := ascii "from"
def NAME : Bytes := ascii "name"
def URI : Bytes := ascii "URI"
def OUTGOING : Bytes := ascii "outgoing"
def ANSWERED : Bytes := ascii "answered"
def ANSWERER : Bytes := ascii "answerer"
def START_TIME : Bytes := ascii "start-time"
def END_TIME : Bytes := ascii "end-time"
def ANSWER_TIME : Bytes := ascii "answer-time"

end MementoXML

/-- An element whose value is `doc.allocate_string` of a C string. -/
def textNode (name text : Bytes) : Xml.Node := .leaf name (cStr text)

def personNode (tag uri name : Bytes) : Xml.Node :=
  .parent tag (textNode MementoXML.URI uri :: if name ≠ [] then [textNode MementoXML.NAME name] else [])

def maxCallEntryLength : ℕ := 4096

/-- `rapidxml::print` into `contents` and `*end = 0`: the text and its NUL must fit. The result is what the
    conversion of `contents` to a `std::string` reads back. -/
def printContents (doc : List Xml.Node) : Handler Bytes :=
  if (Xml.print doc).length + 1 ≤ maxCallEntryLength then pure (cStr (Xml.print doc)) else fault .bufferOverflow

/-! ### `on_initial_request` -/

def isOriginating (otherParam : List Param) : Bool :=
  (match paramFind otherParam sescase with
    | some p => eqIgnoreCase p.value orig
    | none => false) ||
  (paramFind otherParam origCdiv).isSome

def readServedUser (req : Request) : Handler Unit :=
  match findRouting req.hdrs pServedUser with
  | none => pure ()
  | some (nameAddr, otherParam) => do
    let _servedUser ← uriToString .routingHdr (some nameAddr.uri)
    if isOriginating otherParam then modifyTsx fun t => { t with outgoing := true } else pure ()

/-- `<timestamp>_<unique id>_<base64 impu>`. -/
def formatDialogId (timestamp uniqueId encodedImpu : Bytes) : Bytes :=
  timestamp ++ 95 :: (uniqueId ++ 95 :: encodedImpu)

def addDialog (env : Env) (unique : ℕ) (req : Request) : Handler Unit := do
  modifyTsx fun t => { t with uniqueId := natText unique }
  let t ← getTsx
  call (.addToDialog (formatDialogId t.startTimeCassandra t.uniqueId (env.base64.encode t.impu)))
  sendRequest req

/-- The originating branch: the callee is in To, the caller in P-Asserted-Identity. -/
def onOriginating (env : Env) (unique : ℕ) (req : Request) : Handler Unit := do
  let calleeUri ← uriToString .fromToHdr (some req.toHdr.uri)
  modifyTsx fun t => { t with calleeUri, calleeName := pjStrToString req.toHdr.display }
  match findRouting req.hdrs pAssertedIdentity with
  | some (assertedId, _) => do
    let callerUri ← uriToString .fromToHdr (some assertedId.uri)
    modifyTsx fun t => { t with callerUri, callerName := pjStrToString assertedId.display, impu := callerUri }
    addDialog env unique req
  | none => sendRequest req

/-- The terminating branch: the callee is the request URI, the caller is in From. -/
def onTerminating (env : Env) (unique : ℕ) (req : Request) : Handler Unit := do
  let calleeUri ← uriToString .fromToHdr (some req.uri)
  modifyTsx fun t => { t with calleeUri }
  let callerUri ← uriToString .fromToHdr (some req.fromHdr.uri)
  modifyTsx fun t => { t with callerUri, callerName := pjStrToString req.fromHdr.display, impu := t.calleeUri }
  addDialog env unique req

/-- `on_initial_request` at time `rawtime`, where `generate_unique_integer` gives `unique`. -/
def onInitialRequest (env : Env) (rawtime : ℤ) (unique : ℕ) (req : Request) : Handler Unit := do
  let startTime := env.localtime rawtime
  modifyTsx fun t => { t with
    includesInitialRequest := true
    startTimeXml := createFormattedTimestamp startTime xmlPattern
    startTimeCassandra := createFormattedTimestamp startTime timestampPattern }
  readServedUser req
  let t ← getTsx
  if t.outgoing then onOriginating env unique req else onTerminating env unique req

/-! ### `on_in_dialog_request` -/

/-- `Utils::split_string`: cuts at the first `maxTokens - 1` delimiters and drops the empty tokens. -/
def splitString (s : Bytes) (delimiter : UInt8) (maxTokens : ℕ) : List Bytes :=
  (cut delimiter (maxTokens - 1) s).filter (· ≠ [])

/-- `on_in_dialog_request` at time `currenttime`, where `dialog_id()` gives `dialogId`. -/
def onInDialogRequest (env : Env) (currenttime : ℤ) (dialogId : Bytes) (req : Request) : Handler Unit :=
  if req.method ≠ .BYE then sendRequest req
  else
    match splitString dialogId 95 3 with
    | [timestamp, uniqueId, encodedImpu] => do
      modifyTsx fun t => { t with uniqueId, impu := env.base64.decode encodedImpu }
      let endTimestamp := createFormattedTimestamp (env.localtime currenttime) xmlPattern
      let contents ← printContents [textNode MementoXML.END_TIME endTimestamp]
      let t ← getTsx
      call (.writeCallListEntry ⟨t.impu, timestamp, t.uniqueId, .END, contents⟩)
      sendRequest req
    | _ => sendRequest req

/-! ### `on_response` -/

def privacyRequested (rsp : Response) : Bool :=
  match findGenericString rsp.hdrs privacyHdrName with
  | some hvalue => eqIgnoreCase hvalue (ascii "id")
  | none => false

/-- The `answerer` element of an answered call, if there is one. -/
def readAnswerer (rsp : Response) : Handler (List Xml.Node) :=
  if privacyRequested rsp then pure []
  else
    match findRouting rsp.hdrs pAssertedIdentity with
    | none => pure []
    | some (assertedId, _) => do
      let answererUri ← uriToString .fromToHdr (some assertedId.uri)
      modifyTsx fun t => { t with answererUri, answererName := pjStrToString assertedId.display }
      pure [personNode MementoXML.ANSWERER answererUri (pjStrToString assertedId.display)]

def Tsx.callNodes (t : Tsx) : List Xml.Node :=
  [personNode MementoXML.TO t.calleeUri t.calleeName,
   personNode MementoXML.FROM t.callerUri t.callerName,
   textNode MementoXML.OUTGOING (if t.outgoing then ascii "1" else ascii "0"),
   textNode MementoXML.START_TIME t.startTimeXml]

def readOutcome (env : Env) (currenttime : ℤ) (rsp : Response) : Handler (FragmentType × List Xml.Node) :=
  if 300 ≤ rsp.statusCode then pure (.REJECTED, [.leaf MementoXML.ANSWERED (ascii "0")])
  else do
    let answerTimestamp := createFormattedTimestamp (env.localtime currenttime) xmlPattern
    let answerer ← readAnswerer rsp
    pure (.BEGIN, .leaf MementoXML.ANSWERED (ascii "1") :: textNode MementoXML.ANSWER_TIME answerTimestamp :: answerer)

def onResponse (env : Env) (currenttime : ℤ) (rsp : Response) (_forkId : ℤ) : Handler Unit := do
  let t ← getTsx
  -- Only responses to the initial INVITE count: one in a dialog has its own transaction.
  if findCseq rsp.hdrs ≠ some .INVITE ∨ t.includesInitialRequest = false then sendResponse rsp
  else if t.storedEntry then sendResponse rsp
  else if rsp.statusCode < 200 then sendResponse rsp
  else do
    modifyTsx fun t => { t with storedEntry := true }
    let (type, outcome) ← readOutcome env currenttime rsp
    let contents ← printContents (t.callNodes ++ outcome)
    call (.writeCallListEntry ⟨t.impu, t.startTimeCassandra, t.uniqueId, type, contents⟩)
    sendResponse rsp

/-! ### Transactions -/

structure InitialEvent where
  rawtime : ℤ
  unique : ℕ
  req : Request

structure InDialogEvent where
  currenttime : ℤ
  dialogId : Bytes
  req : Request

structure ResponseEvent where
  currenttime : ℤ
  rsp : Response
  forkId : ℤ

def InitialEvent.handle (env : Env) (e : InitialEvent) : Handler Unit := onInitialRequest env e.rawtime e.unique e.req
def InDialogEvent.handle (env : Env) (e : InDialogEvent) : Handler Unit :=
  onInDialogRequest env e.currenttime e.dialogId e.req
def ResponseEvent.handle (env : Env) (e : ResponseEvent) : Handler Unit := onResponse env e.currenttime e.rsp e.forkId

/-- The transaction after a sequence of responses. An exception leaves a handler, not the transaction;
    after undefined behaviour nothing is known. -/
def runResponses (env : Env) : List ResponseEvent → Ctx → Ctx
  | [], c => c
  | e :: es, c =>
    match e.handle env c with
    | (.error .bufferOverflow, c') => c'
    | (_, c') => runResponses env es c'

def beginTsx (first : Handler Unit) : Except Fault Unit × Ctx := first ⟨Tsx.new, []⟩

/-- A transaction: its request, and then any responses. -/
def runTsx (env : Env) (first : Handler Unit) (rsps : List ResponseEvent) : Ctx :=
  match beginTsx first with
  | (.error .bufferOverflow, c) => c
  | (_, c) => runResponses env rsps c

end Memento
