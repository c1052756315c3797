import Memento.Lib.XmlParse
import Memento.Theorems.Transactions

/-! What the contents of a fragment say. They are the printed form of what is recorded, and can be decoded: no value
    ends its element or passes for another one. -/

namespace Memento
open Text

/-! ### What is recorded -/

/-- A party of a call; the name is empty if there is none. -/
structure Person where
  uri : Bytes
  name : Bytes
  deriving DecidableEq

inductive Outcome where
  | rejected
  | answered (answerTime : Bytes) (answerer : Option Person)
  deriving DecidableEq

/-- What a fragment says: all about a call that was answered or rejected, or when a call ended. -/
inductive Recorded where
  | call (callee caller : Person) (outgoing : Bool) (startTime : Bytes) (outcome : Outcome)
  | ended (endTime : Bytes)
  deriving DecidableEq

def Recorded.fragmentType : Recorded → FragmentType
  | .call _ _ _ _ .rejected => .REJECTED
  | .call _ _ _ _ (.answered _ _) => .BEGIN
  | .ended _ => .END

/-! ### The format -/

def Person.node (tag : Bytes) (p : Person) : Xml.Node :=
  .parent tag (.leaf MementoXML.URI p.uri :: if p.name ≠ [] then [.leaf MementoXML.NAME p.name] else [])

def flag (b : Bool) : Bytes := if b then ascii "1" else ascii "0"

def Outcome.nodes : Outcome → List Xml.Node
  | .rejected => [.leaf MementoXML.ANSWERED (flag false)]
  | .answered answerTime none => [.leaf MementoXML.ANSWERED (flag true), .leaf MementoXML.ANSWER_TIME answerTime]
  | .answered answerTime (some answerer) =>
    [.leaf MementoXML.ANSWERED (flag true), .leaf MementoXML.ANSWER_TIME answerTime, answerer.node MementoXML.ANSWERER]

def Recorded.nodes : Recorded → List Xml.Node
  | .call callee caller outgoing startTime outcome =>
    callee.node MementoXML.TO :: caller.node MementoXML.FROM :: .leaf MementoXML.OUTGOING (flag outgoing) ::
      .leaf MementoXML.START_TIME startTime :: outcome.nodes
  | .ended endTime => [.leaf MementoXML.END_TIME endTime]

/-! ### The decoder -/

def decodeText (name : Bytes) : Xml.Node → Option Bytes
  | .element n value [] => if n = name then some value else none
  | _ => none

def decodeFlag (name : Bytes) (node : Xml.Node) : Option Bool := do
  let text ← decodeText name node
  if text = flag true then some true else if text = flag false then some false else none

def decodePerson (tag : Bytes) : Xml.Node → Option Person
  | .element n _ (uriNode :: rest) => do
    let uri ← decodeText MementoXML.URI uriNode
    match rest with
    | [] => if n = tag then some ⟨uri, []⟩ else none
    | [nameNode] => do
      let name ← decodeText MementoXML.NAME nameNode
      if n = tag then some ⟨uri, name⟩ else none
    | _ => none
  | _ => none

def decodeOutcome : List Xml.Node → Option Outcome
  | [] => none
  | answeredNode :: rest => do
    let answered ← decodeFlag MementoXML.ANSWERED answeredNode
    match answered, rest with
    | false, [] => some .rejected
    | true, [timeNode] => do
      let answerTime ← decodeText MementoXML.ANSWER_TIME timeNode
      some (.answered answerTime none)
    | true, [timeNode, answererNode] => do
      let answerTime ← decodeText MementoXML.ANSWER_TIME timeNode
      let answerer ← decodePerson MementoXML.ANSWERER answererNode
      some (.answered answerTime (some answerer))
    | _, _ => none

def decodeNodes : List Xml.Node → Option Recorded
  | [endNode] => (decodeText MementoXML.END_TIME endNode).map .ended
  | calleeNode :: callerNode :: outgoingNode :: startNode :: rest => do
    let callee ← decodePerson MementoXML.TO calleeNode
    let caller ← decodePerson MementoXML.FROM callerNode
    let outgoing ← decodeFlag MementoXML.OUTGOING outgoingNode
    let startTime ← decodeText MementoXML.START_TIME startNode
    let outcome ← decodeOutcome rest
    some (.call callee caller outgoing startTime outcome)
  | _ => none

def decode (contents : Bytes) : Option Recorded := (Xml.parse contents).bind decodeNodes

theorem decodeText_leaf (name value : Bytes) : decodeText name (.leaf name value) = some value := if_pos rfl

theorem decodeFlag_leaf (name : Bytes) (b : Bool) : decodeFlag name (.leaf name (flag b)) = some b := by
  rw [decodeFlag, decodeText_leaf]
  cases b <;> rfl

theorem decodePerson_node (tag : Bytes) (p : Person) : decodePerson tag (p.node tag) = some p := by
  obtain ⟨uri, name⟩ := p
  unfold Person.node
  split
  · simp only [decodePerson, decodeText_leaf, Option.bind_eq_bind, Option.bind_some, if_true]
  · rename_i hname
    obtain rfl := not_not.mp hname
    simp only [decodePerson, decodeText_leaf, Option.bind_eq_bind, Option.bind_some, if_true]

theorem decodeOutcome_nodes (o : Outcome) : decodeOutcome o.nodes = some o := by
  cases o with
  | rejected => rfl
  | answered answerTime answerer =>
    cases answerer with
    | none => simp only [Outcome.nodes, decodeOutcome, decodeFlag_leaf, decodeText_leaf, Option.bind_eq_bind, Option.bind_some]
    | some answerer =>
      simp only [Outcome.nodes, decodeOutcome, decodeFlag_leaf, decodeText_leaf, decodePerson_node, Option.bind_eq_bind,
        Option.bind_some]

theorem decodeNodes_nodes (r : Recorded) : decodeNodes r.nodes = some r := by
  cases r with
  | ended endTime => rw [Recorded.nodes, decodeNodes, decodeText_leaf, Option.map_some]
  | call callee caller outgoing startTime outcome =>
    simp only [Recorded.nodes, decodeNodes, decodePerson_node, decodeFlag_leaf, decodeText_leaf, decodeOutcome_nodes,
      Option.bind_eq_bind, Option.bind_some]

theorem wellFormed_leaf {name : Bytes} (h : Xml.IsName name) (value : Bytes) : (Xml.Node.leaf name value).WellFormed :=
  ⟨h, fun hne => absurd rfl hne, trivial⟩

theorem wellFormed_node {tag : Bytes} (h : Xml.IsName tag) (p : Person) : (p.node tag).WellFormed := by
  have uri := wellFormed_leaf (by decide : Xml.IsName MementoXML.URI) p.uri
  have name := wellFormed_leaf (by decide : Xml.IsName MementoXML.NAME) p.name
  unfold Person.node
  split
  · exact ⟨h, fun _ => rfl, uri, name, trivial⟩
  · exact ⟨h, fun _ => rfl, uri, trivial⟩

theorem wellFormed_outcome (o : Outcome) : Xml.WellFormedAll o.nodes := by
  have answered (b : Bool) := wellFormed_leaf (by decide : Xml.IsName MementoXML.ANSWERED) (flag b)
  cases o with
  | rejected => exact ⟨answered false, trivial⟩
  | answered answerTime answerer =>
    have time := wellFormed_leaf (by decide : Xml.IsName MementoXML.ANSWER_TIME) answerTime
    cases answerer with
    | none => exact ⟨answered true, time, trivial⟩
    | some answerer => exact ⟨answered true, time, wellFormed_node (by decide) answerer, trivial⟩

theorem wellFormed_nodes (r : Recorded) : Xml.WellFormedAll r.nodes := by
  cases r with
  | ended endTime => exact ⟨wellFormed_leaf (by decide) endTime, trivial⟩
  | call callee caller outgoing startTime outcome =>
    exact ⟨wellFormed_node (by decide) callee, wellFormed_node (by decide) caller, wellFormed_leaf (by decide) _,
      wellFormed_leaf (by decide) startTime, wellFormed_outcome outcome⟩

/-- What is printed is read back. -/
theorem decode_print (r : Recorded) : decode (Xml.print r.nodes) = some r := by
  rw [decode, Xml.parse_print (wellFormed_nodes r), Option.bind_some, decodeNodes_nodes]

/-! ### What the handlers write -/

/-- An event after the initial request of a call. -/
inductive LaterEvent where
  | inDialog (e : InDialogEvent)
  | response (e : ResponseEvent)

def LaterEvent.handle (env : Env) : LaterEvent → Handler Unit
  | .inDialog e => e.handle env
  | .response e => e.handle env

def Response.answererPerson (rsp : Response) : Option Person :=
  rsp.answerer.bind fun a => (a.uri.print .fromToHdr uriBufferSize).map fun uri => ⟨uri, a.display⟩

def Response.outcome (env : Env) (currenttime : ℤ) (rsp : Response) : Outcome :=
  if 300 ≤ rsp.statusCode then .rejected
  else .answered (createFormattedTimestamp (env.localtime currenttime) xmlPattern) rsp.answererPerson

def Tsx.callee (t : Tsx) : Person := ⟨t.calleeUri, t.calleeName⟩
def Tsx.caller (t : Tsx) : Person := ⟨t.callerUri, t.callerName⟩

/-- What a transaction records at an event, if it records anything. -/
def Tsx.recordedAt (env : Env) (t : Tsx) : LaterEvent → Recorded
  | .inDialog e => .ended (createFormattedTimestamp (env.localtime e.currenttime) xmlPattern)
  | .response e => .call t.callee t.caller t.outgoing t.startTimeXml (e.rsp.outcome env e.currenttime)

def Person.NulFree (p : Person) : Prop := (0 : UInt8) ∉ p.uri ∧ (0 : UInt8) ∉ p.name

instance : DecidablePred Person.NulFree := fun _ => inferInstanceAs (Decidable (_ ∧ _))

def LaterEvent.persons (t : Tsx) : LaterEvent → List Person
  | .inDialog _ => []
  | .response e => t.callee :: t.caller :: e.rsp.answererPerson.toList

/-- The transaction queues the fragment at the event, and its texts hold no NUL. -/
structure Writes (env : Env) (t : Tsx) (e : LaterEvent) (clr : CallListRequest) : Prop where
  persons : ∀ p ∈ e.persons t, p.NulFree
  startTime : (0 : UInt8) ∉ t.startTimeXml
  write : clr ∈ writes (e.handle env ⟨t, []⟩).2.calls

theorem textNode_eq (name : Bytes) {text : Bytes} (h : (0 : UInt8) ∉ text) : textNode name text = .leaf name text := by
  rw [textNode, cStr_of_notMem h]

theorem Person.NulFree.node {p : Person} (h : p.NulFree) (tag : Bytes) : personNode tag p.uri p.name = p.node tag := by
  rw [personNode, Person.node, textNode_eq _ h.1, textNode_eq _ h.2]

theorem zero_notMem_time (tm : Tm) : (0 : UInt8) ∉ createFormattedTimestamp tm xmlPattern :=
  notMem_createFormattedTimestamp (by decide) (by decide) (by decide)

theorem outcomeNodes_eq {env : Env} {currenttime : ℤ} {rsp : Response} (ha : rsp.AnswererFits)
    (hp : ∀ p ∈ rsp.answererPerson, p.NulFree) : rsp.outcomeNodes env currenttime = (rsp.outcome env currenttime).nodes := by
  unfold Response.outcomeNodes Response.outcome
  split
  · rfl
  · rw [textNode_eq _ (zero_notMem_time _)]
    cases hanswerer : rsp.answerer with
    | none => simp [Response.answererNodes, Response.answererPerson, hanswerer, Outcome.nodes, flag]
    | some a =>
      obtain ⟨uri, huri⟩ := Option.isSome_iff_exists.mp (ha a hanswerer)
      have hperson : rsp.answererPerson = some ⟨uri, a.display⟩ := by simp [Response.answererPerson, hanswerer, huri]
      simp only [Response.answererNodes, hanswerer, huri, hperson, Outcome.nodes, ← (hp _ hperson).node]
      rfl

theorem fragmentDoc_eq {env : Env} {t : Tsx} {e : ResponseEvent} (ha : e.rsp.AnswererFits)
    (hp : ∀ p ∈ (LaterEvent.response e).persons t, p.NulFree) (hs : (0 : UInt8) ∉ t.startTimeXml) :
    fragmentDoc env t e.currenttime e.rsp = (t.recordedAt env (.response e)).nodes := by
  have callee : t.callee.NulFree := hp _ List.mem_cons_self
  have caller : t.caller.NulFree := hp _ (List.mem_cons_of_mem _ List.mem_cons_self)
  have answerer : ∀ p ∈ e.rsp.answererPerson, p.NulFree := fun p hmem =>
    hp p (List.mem_cons_of_mem _ (List.mem_cons_of_mem _ (Option.mem_toList.mpr hmem)))
  have outgoing : cStr (flag t.outgoing) = flag t.outgoing := by cases t.outgoing <;> rfl
  rw [fragmentDoc, outcomeNodes_eq ha answerer, Tsx.callNodes, textNode_eq _ hs]
  change personNode _ t.callee.uri t.callee.name :: personNode _ t.caller.uri t.caller.name ::
    .leaf _ (cStr (flag t.outgoing)) :: _ = _
  rw [callee.node, caller.node, outgoing]
  rfl

theorem endDoc_eq (env : Env) (t : Tsx) (e : InDialogEvent) :
    endDoc env e.currenttime = (t.recordedAt env (.inDialog e)).nodes := by
  rw [endDoc, textNode_eq _ (zero_notMem_time _)]
  rfl

theorem zero_notMem_endDoc (env : Env) (currenttime : ℤ) : (0 : UInt8) ∉ Xml.print (endDoc env currenttime) :=
  Xml.zero_notMem_print ⟨clean_textNode (by decide) _, trivial⟩

theorem fragmentType_recordedAt (env : Env) (t : Tsx) (e : ResponseEvent) :
    (t.recordedAt env (.response e)).fragmentType = e.rsp.fragmentType := by
  simp only [Tsx.recordedAt, Response.outcome, Response.fragmentType]
  split <;> rfl

/-- The contents of a fragment are the printed form of what is recorded, and its type tells whether that is a call that
    was answered, one that was rejected, or an end. -/
theorem Writes.contents {env : Env} {t : Tsx} {e : LaterEvent} {clr : CallListRequest} (h : Writes env t e clr) :
    clr.contents = Xml.print (t.recordedAt env e).nodes ∧ clr.type = (t.recordedAt env e).fragmentType := by
  obtain ⟨persons, startTime, write⟩ := h
  cases e with
  | inDialog e =>
    by_cases hend : e.req.method = .BYE ∧ (splitString e.dialogId 95 3).length = 3
    · obtain ⟨hm, hlen⟩ := hend
      obtain ⟨timestamp, uniqueId, encodedImpu, hs⟩ := List.length_eq_three.mp hlen
      obtain ⟨t', hrun, -⟩ := onInDialogRequest_end env e.currenttime e.dialogId e.req ⟨t, []⟩ hm hs
      rw [LaterEvent.handle, InDialogEvent.handle, hrun] at write
      obtain rfl := List.mem_singleton.mp write
      refine ⟨?_, rfl⟩
      rw [endRequest, cStr_of_notMem (zero_notMem_endDoc env e.currenttime), endDoc_eq env t]
    · rw [LaterEvent.handle, InDialogEvent.handle, onInDialogRequest_forward env e.currenttime e.dialogId e.req _ hend] at write
      cases write
  | response e =>
    rcases onResponse_cases env e.currenttime e.rsp e.forkId ⟨t, []⟩ with
      ⟨-, hrun⟩ | ⟨-, -, ⟨fits, t', hrun, -⟩ | ⟨-, hrun⟩ | ⟨-, -, t', hrun⟩⟩
    · rw [LaterEvent.handle, ResponseEvent.handle, hrun] at write
      cases write
    · rw [LaterEvent.handle, ResponseEvent.handle, hrun] at write
      obtain rfl := List.mem_singleton.mp write
      refine ⟨?_, (fragmentType_recordedAt env t e).symm⟩
      rw [fragmentRequest, cStr_of_notMem (zero_notMem_fragmentDoc env t e.currenttime e.rsp),
        fragmentDoc_eq fits.answerer persons startTime]
    · rw [LaterEvent.handle, ResponseEvent.handle, hrun] at write
      cases write
    · rw [LaterEvent.handle, ResponseEvent.handle, hrun] at write
      cases write

/-- What is written says what was recorded, and no two things recorded are written alike. -/
theorem contents_unambiguous {env : Env} {t : Tsx} {e : LaterEvent} {clr : CallListRequest} (h : Writes env t e clr) :
    decode clr.contents = some (t.recordedAt env e) ∧ clr.type = (t.recordedAt env e).fragmentType ∧
      ∀ {env' t' e' clr'}, Writes env' t' e' clr' → clr'.contents = clr.contents →
        t'.recordedAt env' e' = t.recordedAt env e := by
  have decoded : ∀ {env t e clr}, Writes env t e clr → decode clr.contents = some (t.recordedAt env e) := fun h => by
    rw [h.contents.1, decode_print]
  refine ⟨decoded h, h.contents.2, fun h' heq => ?_⟩
  have hsome := decoded h'
  rw [heq, decoded h] at hsome
  exact (Option.some_inj.mp hsome).symm

/-- A caller whose name looks like the rest of a fragment. -/
def forgingTsx : Tsx :=
  { Tsx.new with
    startTimeXml := ascii "2002-05-30T09:30:10"
    callerName := ascii "A</name></from><answered>0</answered>&lt;"
    callerUri := ascii "sip:alice@home"
    calleeUri := ascii "sip:bob@home"
    includesInitialRequest := true }

theorem contents_unambiguous_sample : ∃ clr, Writes sampleEnv forgingTsx (.response (sampleResponse 200 [])) clr ∧
    decode clr.contents = some (.call ⟨ascii "sip:bob@home", []⟩
      ⟨ascii "sip:alice@home", ascii "A</name></from><answered>0</answered>&lt;"⟩ false (ascii "2002-05-30T09:30:10")
      (.answered (ascii "2002-05-30T09:30:10") none)) := by
  have h : Writes sampleEnv forgingTsx (.response (sampleResponse 200 []))
      (fragmentRequest sampleEnv forgingTsx 0 (sampleResponse 200 []).rsp) := ⟨by decide, by decide, by decide +kernel⟩
  exact ⟨_, h, (contents_unambiguous h).1.trans (by decide +kernel)⟩

end Memento
