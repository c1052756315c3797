import Memento.CallLog
import Memento.Theorems.CompletedCalls
import Memento.Theorems.Contents

/-! What SIP events mean to the call log, and what the handlers make of them. The record of a call is what its initial
    INVITE says; no later event changes it, and the fragments that are queued can be read back as entries of the log. -/

namespace Memento
open Text Handler

/-! ### The log of a server -/

/-- A call: the key of its fragments, and what they say of it. -/
structure CallRecord where
  impu : Bytes
  timestamp : Bytes
  id : Bytes
  callee : Person
  caller : Person
  outgoing : Bool
  startTime : Bytes
  deriving DecidableEq

abbrev CallEvent (D : Type) := CallLog.Event D CallRecord Outcome Bytes
abbrev CallEntry (D : Type) := CallLog.Entry D CallRecord Outcome Bytes
abbrev CallLog (D : Type) := CallLog.Log D CallRecord Outcome Bytes

/-- As C strings. -/
def Person.text (p : Person) : Person := ⟨cStr p.uri, cStr p.name⟩

def Outcome.text : Outcome → Outcome
  | .rejected => .rejected
  | .answered answerTime answerer => .answered answerTime (answerer.map Person.text)

def PjsipUri.text (uri : PjsipUri) : Bytes := (uri.print .fromToHdr uriBufferSize).getD []

/-- An originating call is to whom To names, any other to the request URI. -/
def Request.callee (req : Request) : Person :=
  if req.originating then ⟨req.toHdr.uri.text, req.toHdr.display⟩ else ⟨req.uri.text, []⟩

/-- An originating call is from whom P-Asserted-Identity names, any other from whom From names. -/
def Request.caller (req : Request) : Person :=
  if req.originating then
    match findRouting req.hdrs pAssertedIdentity with
    | some (assertedId, _) => ⟨assertedId.uri.text, assertedId.display⟩
    | none => ⟨[], []⟩
  else ⟨req.fromHdr.uri.text, req.fromHdr.display⟩

/-- In whose list the call is. -/
def Request.served (req : Request) : Person := if req.originating then req.caller else req.callee

def InitialEvent.callRecord (env : Env) (e : InitialEvent) : CallRecord where
  impu := e.req.served.uri
  timestamp := createFormattedTimestamp (env.localtime e.rawtime) timestampPattern
  id := natText e.unique
  callee := e.req.callee.text
  caller := e.req.caller.text
  outgoing := e.req.originating
  startTime := createFormattedTimestamp (env.localtime e.rawtime) xmlPattern

/-- What an event of the server means to the log: an INVITE that is admitted places a call, a final response to it
    settles the call, and a BYE ends it. -/
def ServerEvent.logged {D : Type} (env : Env) : ServerEvent D → Option (CallEvent D)
  | .initialRequest dialog admitRequest e =>
    if e.req.method = .INVITE ∧ admitRequest = true then some (.placed dialog (e.callRecord env)) else none
  | .inDialogRequest dialog _ e =>
    if e.req.method = .BYE then some (.ended dialog (createFormattedTimestamp (env.localtime e.currenttime) xmlPattern))
    else none
  | .response t e =>
    if t.isCall = true ∧ 200 ≤ e.rsp.statusCode then some (.settled t.dialog (e.rsp.outcome env e.currenttime).text)
    else none
  | .work => none

/-- Only these are logged. -/
theorem logged_cases {D : Type} {env : Env} {event : ServerEvent D} {e : CallEvent D} (h : event.logged env = some e) :
    (∃ dialog e', event = .initialRequest dialog true e' ∧ e = .placed dialog (e'.callRecord env)) ∨
    (∃ dialog admitRequest e', event = .inDialogRequest dialog admitRequest e' ∧
      e = .ended dialog (createFormattedTimestamp (env.localtime e'.currenttime) xmlPattern)) ∨
    (∃ t e', event = .response t e' ∧ e = .settled t.dialog (e'.rsp.outcome env e'.currenttime).text) := by
  cases event with
  | initialRequest dialog admitRequest e' =>
    rw [ServerEvent.logged] at h
    split at h
    · rename_i hadmitted
      cases h
      exact Or.inl ⟨dialog, e', by rw [hadmitted.2], rfl⟩
    · cases h
  | inDialogRequest dialog admitRequest e' =>
    rw [ServerEvent.logged] at h
    split at h <;> cases h
    exact Or.inr (Or.inl ⟨dialog, admitRequest, e', rfl, rfl⟩)
  | response t e' =>
    rw [ServerEvent.logged] at h
    split at h <;> cases h
    exact Or.inr (Or.inr ⟨t, e', rfl, rfl⟩)
  | work => cases h

def CallLog.Entry.recorded {D : Type} (x : CallEntry D) : Recorded :=
  match x.fact with
  | .settled outcome => .call x.call.callee x.call.caller x.call.outgoing x.call.startTime outcome
  | .ended endTime => .ended endTime

def CallLog.Entry.key {D : Type} (x : CallEntry D) : Key := ⟨x.call.timestamp, x.call.id, x.recorded.fragmentType⟩

/-- In which list it is, under which key, and what it says. -/
def CallLog.Entry.shown {D : Type} (x : CallEntry D) : Bytes × Key × Option Recorded := (x.call.impu, x.key, some x.recorded)

/-- The same of a request. -/
def CallListRequest.shown (clr : CallListRequest) : Bytes × Key × Option Recorded :=
  (clr.impu, clr.callFragment.key, decode clr.contents)

def Tsx.callRecord (t : Tsx) : CallRecord :=
  ⟨t.impu, t.startTimeCassandra, t.uniqueId, t.callee.text, t.caller.text, t.outgoing, cStr t.startTimeXml⟩

/-! ### What a handler keeps -/

namespace Handler
variable {α β γ : Type} {f : Tsx → γ}

/-- However it ends, the handler leaves this of the fields as it was. -/
def Keeps (f : Tsx → γ) (h : Handler α) : Prop := ∀ c, f (h c).2.tsx = f c.tsx

theorem keeps_pure (a : α) : Keeps f (pure a : Handler α) := fun _ => rfl

theorem keeps_getTsx : Keeps f getTsx := fun _ => rfl

theorem keeps_call (x : Call) : Keeps f (call x) := fun _ => rfl

theorem keeps_fault (e : Fault) : Keeps f (fault e : Handler α) := fun _ => rfl

theorem keeps_modifyTsx {g : Tsx → Tsx} (h : ∀ t, f (g t) = f t) : Keeps f (modifyTsx g) := fun c => h c.tsx

theorem Keeps.bind {x : Handler α} {k : α → Handler β} (hx : Keeps f x) (hk : ∀ a, Keeps f (k a)) : Keeps f (x >>= k) := by
  intro c
  have hc := hx c
  rw [bind_run]
  split
  · rename_i a c' hrun
    rw [hk a c', ← hc, hrun]
  · rename_i e c' hrun
    rw [← hc, hrun]

theorem keeps_uriToString (context : UriContext) (uri : Option PjsipUri) : Keeps f (uriToString context uri) := by
  unfold uriToString
  split
  · exact keeps_pure _
  · split
    · exact keeps_pure _
    · exact keeps_fault _

theorem keeps_printContents (doc : List Xml.Node) : Keeps f (printContents doc) := by
  unfold printContents
  split
  · exact keeps_pure _
  · exact keeps_fault _

end Handler

/-- No response changes what is recorded of the call. -/
theorem keeps_onResponse (env : Env) (currenttime : ℤ) (rsp : Response) (forkId : ℤ) :
    Keeps Tsx.callRecord (onResponse env currenttime rsp forkId) := by
  have answerer : Keeps Tsx.callRecord (readAnswerer rsp) := by
    unfold readAnswerer
    split
    · exact keeps_pure _
    · split
      · exact keeps_pure _
      · refine (keeps_uriToString _ _).bind fun uri => Keeps.bind ?_ fun _ => keeps_pure _
        exact keeps_modifyTsx fun _ => rfl
  have outcome : Keeps Tsx.callRecord (readOutcome env currenttime rsp) := by
    unfold readOutcome
    split
    · exact keeps_pure _
    · exact answerer.bind fun _ => keeps_pure _
  refine keeps_getTsx.bind fun t => ?_
  split
  · exact keeps_call _
  · split
    · exact keeps_call _
    · split
      · exact keeps_call _
      · refine Keeps.bind ?_ fun _ => outcome.bind fun ⟨type, nodes⟩ => ?_
        · exact keeps_modifyTsx fun _ => rfl
        · exact (keeps_printContents _).bind fun _ => (keeps_call _).bind fun _ => keeps_call _

/-! ### The initial request -/

theorem PjsipUri.text_of_print {uri : PjsipUri} {text : Bytes} (h : uri.print .fromToHdr uriBufferSize = some text) :
    uri.text = text := by
  rw [PjsipUri.text, h, Option.getD_some]

/-- A request whose URIs fit, and which names its caller, places its call and gives out a dialog id for it. -/
theorem handle_placed (env : Env) {e : InitialEvent} (h : InitialFits Tsx.new e.req) (hu : ¬e.req.Unasserted Tsx.new) :
    ∃ t, e.handle env ⟨Tsx.new, []⟩ = (.ok (), ⟨t, [.addToDialog (t.dialogId env), .sendRequest e.req]⟩) ∧
      t.callRecord = e.callRecord env ∧ t.Waiting := by
  have hstart : cStr (createFormattedTimestamp (env.localtime e.rawtime) xmlPattern) =
      createFormattedTimestamp (env.localtime e.rawtime) xmlPattern := cStr_of_notMem (zero_notMem_time _)
  rw [InitialEvent.handle, onInitialRequest_run env e.rawtime e.unique e.req ⟨Tsx.new, []⟩ h.servedUser]
  by_cases hout : (Tsx.new.outgoing || e.req.originating) = true
  · have horig : e.req.originating = true := hout
    rw [if_pos hout]
    obtain ⟨callee, hcallee⟩ := Option.isSome_iff_exists.mp (h.toHdr hout)
    cases hpai : findRouting e.req.hdrs pAssertedIdentity with
    | none => exact absurd ⟨hout, hpai⟩ hu
    | some pai =>
      obtain ⟨nameAddr, otherParam⟩ := pai
      obtain ⟨caller, hcaller⟩ := Option.isSome_iff_exists.mp (h.assertedId hout nameAddr otherParam hpai)
      simp only [onOriginating, bind_run, uriToString_some hcallee, modifyTsx_run, hpai, uriToString_some hcaller,
        addDialog_run]
      refine ⟨_, rfl, ?_, rfl, rfl⟩
      simp only [Tsx.callRecord, InitialEvent.callRecord, Request.served, Request.callee, Request.caller, horig, if_true, hpai,
        PjsipUri.text_of_print hcallee, PjsipUri.text_of_print hcaller, Tsx.started, hstart, pjStrToString_eq, Tsx.callee,
        Tsx.caller]
      rfl
  · have horig : e.req.originating = false := Bool.eq_false_iff.mpr hout
    rw [if_neg hout]
    obtain ⟨callee, hcallee⟩ := Option.isSome_iff_exists.mp (h.uri horig)
    obtain ⟨caller, hcaller⟩ := Option.isSome_iff_exists.mp (h.fromHdr horig)
    simp only [onTerminating, bind_run, uriToString_some hcallee, modifyTsx_run, uriToString_some hcaller, addDialog_run]
    refine ⟨_, rfl, ?_, rfl, rfl⟩
    simp only [Tsx.callRecord, InitialEvent.callRecord, Request.served, Request.callee, Request.caller, horig,
      PjsipUri.text_of_print hcallee, PjsipUri.text_of_print hcaller, Tsx.started, hstart, pjStrToString_eq, Tsx.callee,
      Tsx.caller]
    rfl

/-! ### The contents of fragments -/

theorem decodePerson_personNode (tag : Bytes) (p : Person) :
    decodePerson tag (personNode tag p.uri p.name) = some p.text := by
  obtain ⟨uri, name⟩ := p
  unfold personNode Person.text
  split
  · simp only [textNode, decodePerson, decodeText_leaf, Option.bind_eq_bind, Option.bind_some, if_true]
  · rename_i hname
    obtain rfl := not_not.mp hname
    simp only [textNode, decodePerson, decodeText_leaf, Option.bind_eq_bind, Option.bind_some, if_true]
    rfl

theorem wellFormed_personNode {tag : Bytes} (h : Xml.IsName tag) (uri name : Bytes) :
    (personNode tag uri name).WellFormed := by
  have uri := wellFormed_leaf (by decide : Xml.IsName MementoXML.URI) (cStr uri)
  have named := wellFormed_leaf (by decide : Xml.IsName MementoXML.NAME) (cStr name)
  unfold personNode
  split
  · exact ⟨h, fun _ => rfl, uri, named, trivial⟩
  · exact ⟨h, fun _ => rfl, uri, trivial⟩

theorem answererNodes_eq (rsp : Response) : rsp.answererNodes =
    (rsp.answererPerson.map fun p => personNode MementoXML.ANSWERER p.uri p.name).toList := by
  unfold Response.answererNodes Response.answererPerson
  cases rsp.answerer with
  | none => rfl
  | some a =>
    cases ha : a.uri.print .fromToHdr uriBufferSize with
    | none => simp [ha]
    | some text => simp [ha]

theorem wellFormed_outcomeNodes (env : Env) (currenttime : ℤ) (rsp : Response) :
    Xml.WellFormedAll (rsp.outcomeNodes env currenttime) := by
  have answered (text : Bytes) := wellFormed_leaf (by decide : Xml.IsName MementoXML.ANSWERED) text
  have time (text : Bytes) := wellFormed_leaf (by decide : Xml.IsName MementoXML.ANSWER_TIME) (cStr text)
  unfold Response.outcomeNodes
  split
  · exact ⟨answered _, trivial⟩
  · rw [answererNodes_eq]
    cases rsp.answererPerson with
    | none => exact ⟨answered _, time _, trivial⟩
    | some p => exact ⟨answered _, time _, wellFormed_personNode (by decide) p.uri p.name, trivial⟩

theorem decodeOutcome_outcomeNodes (env : Env) (currenttime : ℤ) (rsp : Response) :
    decodeOutcome (rsp.outcomeNodes env currenttime) = some (rsp.outcome env currenttime).text := by
  have answered (b : Bool) := decodeFlag_leaf MementoXML.ANSWERED b
  unfold Response.outcomeNodes Response.outcome
  split
  · exact decodeOutcome_nodes .rejected
  · have htrue : decodeFlag MementoXML.ANSWERED (.leaf MementoXML.ANSWERED (ascii "1")) = some true := answered true
    rw [answererNodes_eq, textNode_eq _ (zero_notMem_time _)]
    cases rsp.answererPerson with
    | none =>
      simp only [Option.map_none, Option.toList_none, decodeOutcome, htrue, decodeText_leaf, Option.bind_eq_bind,
        Option.bind_some, Outcome.text]
    | some p =>
      simp only [Option.map_some, Option.toList_some, decodeOutcome, htrue, decodeText_leaf, decodePerson_personNode,
        Option.bind_eq_bind, Option.bind_some, Outcome.text]

/-- What a final response queues says all about the call. -/
theorem decode_fragmentRequest (env : Env) (t : Tsx) (currenttime : ℤ) (rsp : Response) :
    decode (fragmentRequest env t currenttime rsp).contents =
      some (.call t.callee.text t.caller.text t.outgoing (cStr t.startTimeXml) (rsp.outcome env currenttime).text) := by
  have hflag : cStr (flag t.outgoing) = flag t.outgoing := by cases t.outgoing <;> rfl
  have hwell : Xml.WellFormedAll (fragmentDoc env t currenttime rsp) :=
    ⟨wellFormed_personNode (by decide) _ _, wellFormed_personNode (by decide) _ _, wellFormed_leaf (by decide) _,
      wellFormed_leaf (by decide) _, wellFormed_outcomeNodes env currenttime rsp⟩
  have hcallee := decodePerson_personNode MementoXML.TO t.callee
  have hcaller := decodePerson_personNode MementoXML.FROM t.caller
  have houtgoing := decodeFlag_leaf MementoXML.OUTGOING t.outgoing
  rw [fragmentRequest, cStr_of_notMem (zero_notMem_fragmentDoc env t currenttime rsp), decode, Xml.parse_print hwell,
    Option.bind_some]
  change decodeNodes (personNode _ t.callee.uri t.callee.name :: personNode _ t.caller.uri t.caller.name ::
    .leaf _ (cStr (flag t.outgoing)) :: .leaf _ (cStr t.startTimeXml) :: rsp.outcomeNodes env currenttime) = _
  simp only [decodeNodes, hcallee, hcaller, hflag, houtgoing, decodeText_leaf, decodeOutcome_outcomeNodes,
    Option.bind_eq_bind, Option.bind_some]

theorem fragmentType_outcome (env : Env) (currenttime : ℤ) (rsp : Response) (callee caller : Person) (outgoing : Bool)
    (startTime : Bytes) :
    (Recorded.call callee caller outgoing startTime (rsp.outcome env currenttime).text).fragmentType = rsp.fragmentType := by
  unfold Response.outcome Response.fragmentType
  split <;> rfl

theorem decode_endRequest (env : Env) (currenttime : ℤ) (timestamp uniqueId encodedImpu : Bytes) :
    decode (endRequest env currenttime timestamp uniqueId encodedImpu).contents =
      some (.ended (createFormattedTimestamp (env.localtime currenttime) xmlPattern)) := by
  rw [endRequest, cStr_of_notMem (zero_notMem_endDoc env currenttime), endDoc, textNode_eq _ (zero_notMem_time _)]
  exact decode_print (.ended _)

end Memento
