import Memento.MementoAppServer

/-! What each handler does, by cases on its input: the calls it makes, the fields it leaves, and when it
    does not return. The rest of the development uses these lemmas and does not unfold a handler. -/

namespace Memento
open Text Handler

/-- The URI prints into the buffer of `uri_to_string`. -/
def PjsipUri.Fits (uri : PjsipUri) (context : UriContext) : Prop :=
  (uri.print context uriBufferSize).isSome = true

theorem uriToString_some {uri : PjsipUri} {context : UriContext} {text : Bytes}
    (h : uri.print context uriBufferSize = some text) (c : Ctx) :
    uriToString context (some uri) c = (.ok text, c) := by
  simp only [uriToString, h, pure_run]

theorem uriToString_none {uri : PjsipUri} {context : UriContext} (h : ¬uri.Fits context) (c : Ctx) :
    uriToString context (some uri) c = (.error .lengthError, c) := by
  have h' : uri.print context uriBufferSize = none := by simpa [PjsipUri.Fits] using h
  simp only [uriToString, h', fault_run]

/-! ### The printed text -/

def personLength (tag uri name : Bytes) : ℕ :=
  2 * tag.length + 7 + Xml.leafLength 1 MementoXML.URI (cStr uri) +
    if name ≠ [] then Xml.leafLength 1 MementoXML.NAME (cStr name) else 0

theorem length_personNode (tag uri name : Bytes) :
    (Xml.printNode 0 (personNode tag uri name)).length = personLength tag uri name := by
  unfold personNode personLength
  rw [Xml.length_printNode_parent _ _ (List.cons_ne_nil _ _)]
  split
  · simp only [Xml.printChildren, List.length_append, textNode, Xml.length_printNode_leaf, List.length_nil,
      zero_add]
    omega
  · simp only [Xml.printChildren, List.length_append, textNode, Xml.length_printNode_leaf, List.length_nil,
      zero_add]
    omega

theorem clean_textNode {name : Bytes} (h : (0 : UInt8) ∉ name) (text : Bytes) : (textNode name text).Clean :=
  ⟨h, zero_notMem_cStr text, trivial⟩

theorem clean_personNode {tag : Bytes} (h : (0 : UInt8) ∉ tag) (uri name : Bytes) :
    (personNode tag uri name).Clean := by
  have hu : (textNode MementoXML.URI uri).Clean := clean_textNode (by decide) uri
  have hn : (textNode MementoXML.NAME name).Clean := clean_textNode (by decide) name
  unfold personNode
  split
  · exact ⟨h, by simp, hu, hn, trivial⟩
  · exact ⟨h, by simp, hu, trivial⟩

theorem printContents_of_le {doc : List Xml.Node} (h : (Xml.print doc).length + 1 ≤ maxCallEntryLength) (c : Ctx) :
    printContents doc c = (.ok (cStr (Xml.print doc)), c) := by
  rw [printContents, if_pos h, pure_run]

theorem printContents_of_lt {doc : List Xml.Node} (h : maxCallEntryLength < (Xml.print doc).length + 1) (c : Ctx) :
    printContents doc c = (.error .bufferOverflow, c) := by
  rw [printContents, if_neg (Nat.not_le.mpr h), fault_run]

/-! ### `on_initial_request` -/

def Request.originating (req : Request) : Bool :=
  match findRouting req.hdrs pServedUser with
  | some (_, otherParam) => isOriginating otherParam
  | none => false

def Tsx.started (t : Tsx) (env : Env) (rawtime : ℤ) (req : Request) : Tsx :=
  { t with
    includesInitialRequest := true
    startTimeXml := createFormattedTimestamp (env.localtime rawtime) xmlPattern
    startTimeCassandra := createFormattedTimestamp (env.localtime rawtime) timestampPattern
    outgoing := t.outgoing || req.originating }

/-- Every URI that `on_initial_request` converts fits its buffer. -/
structure InitialFits (t : Tsx) (req : Request) : Prop where
  servedUser : ∀ nameAddr otherParam, findRouting req.hdrs pServedUser = some (nameAddr, otherParam) →
    nameAddr.uri.Fits .routingHdr
  toHdr : (t.outgoing || req.originating) = true → req.toHdr.uri.Fits .fromToHdr
  assertedId : (t.outgoing || req.originating) = true → ∀ nameAddr otherParam,
    findRouting req.hdrs pAssertedIdentity = some (nameAddr, otherParam) → nameAddr.uri.Fits .fromToHdr
  uri : (t.outgoing || req.originating) = false → req.uri.Fits .fromToHdr
  fromHdr : (t.outgoing || req.originating) = false → req.fromHdr.uri.Fits .fromToHdr

/-- The URI whose text becomes the IMPU, if the request names one. -/
def ImpuUri (t : Tsx) (req : Request) (uri : PjsipUri) : Prop :=
  if (t.outgoing || req.originating) = true then
    ∃ nameAddr otherParam, findRouting req.hdrs pAssertedIdentity = some (nameAddr, otherParam) ∧ uri = nameAddr.uri
  else uri = req.uri

def Tsx.dialogId (t : Tsx) (env : Env) : Bytes :=
  formatDialogId t.startTimeCassandra t.uniqueId (env.base64.encode t.impu)

/-- What `on_initial_request` leaves when it adds itself to the dialog. -/
structure Dialog (env : Env) (rawtime : ℤ) (unique : ℕ) (req : Request) (t t' : Tsx) : Prop where
  includesInitialRequest : t'.includesInitialRequest = true
  storedEntry : t'.storedEntry = t.storedEntry
  startTimeCassandra : t'.startTimeCassandra = createFormattedTimestamp (env.localtime rawtime) timestampPattern
  uniqueId : t'.uniqueId = natText unique
  impu : ∃ uri, ImpuUri t req uri ∧ uri.print .fromToHdr uriBufferSize = some t'.impu

def Request.Unasserted (t : Tsx) (req : Request) : Prop :=
  (t.outgoing || req.originating) = true ∧ findRouting req.hdrs pAssertedIdentity = none

/-- What such a request leaves: the callee, but no caller, no id and no IMPU. -/
def Tsx.unasserted (t : Tsx) (env : Env) (rawtime : ℤ) (req : Request) : Tsx :=
  { t.started env rawtime req with
    calleeUri := (req.toHdr.uri.print .fromToHdr uriBufferSize).getD []
    calleeName := req.toHdr.display }

section Initial
variable (env : Env) (rawtime : ℤ) (unique : ℕ) (req : Request) (c : Ctx)

theorem addDialog_run : addDialog env unique req c =
    (.ok (), ⟨{ c.tsx with uniqueId := natText unique },
      c.calls ++ [.addToDialog (formatDialogId c.tsx.startTimeCassandra (natText unique) (env.base64.encode c.tsx.impu)),
        .sendRequest req]⟩) := by
  simp [addDialog, sendRequest]

theorem readServedUser_run
    (h : ∀ nameAddr otherParam, findRouting req.hdrs pServedUser = some (nameAddr, otherParam) →
      nameAddr.uri.Fits .routingHdr) :
    readServedUser req c = (.ok (), { c with tsx := { c.tsx with outgoing := c.tsx.outgoing || req.originating } }) := by
  unfold readServedUser Request.originating
  cases hpsu : findRouting req.hdrs pServedUser with
  | none => simp
  | some psu =>
    obtain ⟨nameAddr, otherParam⟩ := psu
    obtain ⟨text, htext⟩ := Option.isSome_iff_exists.mp (h nameAddr otherParam hpsu)
    cases ho : isOriginating otherParam <;> simp [uriToString_some htext, ho]

theorem onInitialRequest_run
    (h : ∀ nameAddr otherParam, findRouting req.hdrs pServedUser = some (nameAddr, otherParam) →
      nameAddr.uri.Fits .routingHdr) :
    onInitialRequest env rawtime unique req c =
      if (c.tsx.outgoing || req.originating) = true then
        onOriginating env unique req { c with tsx := c.tsx.started env rawtime req }
      else onTerminating env unique req { c with tsx := c.tsx.started env rawtime req } := by
  simp only [onInitialRequest, bind_run, modifyTsx_run, readServedUser_run req _ h, getTsx_run, Tsx.started]
  split <;> rfl

theorem onInitialRequest_dialog (h : InitialFits c.tsx req) (hu : ¬req.Unasserted c.tsx) :
    ∃ t', onInitialRequest env rawtime unique req c =
      (.ok (), ⟨t', c.calls ++ [.addToDialog (t'.dialogId env), .sendRequest req]⟩) ∧
      Dialog env rawtime unique req c.tsx t' := by
  rw [onInitialRequest_run env rawtime unique req c h.servedUser]
  by_cases hout : (c.tsx.outgoing || req.originating) = true
  · rw [if_pos hout]
    obtain ⟨callee, hcallee⟩ := Option.isSome_iff_exists.mp (h.toHdr hout)
    cases hpai : findRouting req.hdrs pAssertedIdentity with
    | none => exact absurd ⟨hout, hpai⟩ hu
    | some pai =>
      obtain ⟨nameAddr, otherParam⟩ := pai
      obtain ⟨caller, hcaller⟩ := Option.isSome_iff_exists.mp (h.assertedId hout nameAddr otherParam hpai)
      simp only [onOriginating, bind_run, uriToString_some hcallee, modifyTsx_run, hpai, uriToString_some hcaller,
        addDialog_run]
      refine ⟨_, rfl, rfl, rfl, rfl, rfl, nameAddr.uri, ?_, hcaller⟩
      rw [ImpuUri, if_pos hout]
      exact ⟨nameAddr, otherParam, hpai, rfl⟩
  · rw [if_neg hout]
    have hout' : (c.tsx.outgoing || req.originating) = false := Bool.eq_false_iff.mpr hout
    obtain ⟨callee, hcallee⟩ := Option.isSome_iff_exists.mp (h.uri hout')
    obtain ⟨caller, hcaller⟩ := Option.isSome_iff_exists.mp (h.fromHdr hout')
    simp only [onTerminating, bind_run, uriToString_some hcallee, modifyTsx_run, uriToString_some hcaller, addDialog_run]
    refine ⟨_, rfl, rfl, rfl, rfl, rfl, req.uri, ?_, hcallee⟩
    rw [ImpuUri, if_neg hout]

/-- Without the caller's identity the request is only forwarded, but its responses still count. -/
theorem onInitialRequest_unasserted (h : InitialFits c.tsx req) (hu : req.Unasserted c.tsx) :
    onInitialRequest env rawtime unique req c =
      (.ok (), ⟨c.tsx.unasserted env rawtime req, c.calls ++ [.sendRequest req]⟩) := by
  rw [onInitialRequest_run env rawtime unique req c h.servedUser, if_pos hu.1]
  obtain ⟨callee, hcallee⟩ := Option.isSome_iff_exists.mp (h.toHdr hu.1)
  simp only [onOriginating, bind_run, uriToString_some hcallee, modifyTsx_run, hu.2, sendRequest, call_run, Tsx.unasserted,
    hcallee, Option.getD_some, pjStrToString_eq]

theorem onOriginating_unfit (h : ¬(req.toHdr.uri.Fits .fromToHdr ∧ ∀ nameAddr otherParam,
      findRouting req.hdrs pAssertedIdentity = some (nameAddr, otherParam) → nameAddr.uri.Fits .fromToHdr)) :
    ∃ t', onOriginating env unique req c = (.error .lengthError, ⟨t', c.calls⟩) ∧
      t'.includesInitialRequest = c.tsx.includesInitialRequest ∧ t'.storedEntry = c.tsx.storedEntry := by
  by_cases hto : req.toHdr.uri.Fits .fromToHdr
  · obtain ⟨callee, hcallee⟩ := Option.isSome_iff_exists.mp hto
    simp only [hto, true_and, not_forall] at h
    obtain ⟨nameAddr, otherParam, hpai, hfit⟩ := h
    simp only [onOriginating, bind_run, uriToString_some hcallee, modifyTsx_run, hpai, uriToString_none hfit]
    exact ⟨_, rfl, rfl, rfl⟩
  · simp only [onOriginating, bind_run, uriToString_none hto]
    exact ⟨_, rfl, rfl, rfl⟩

theorem onTerminating_unfit (h : ¬(req.uri.Fits .fromToHdr ∧ req.fromHdr.uri.Fits .fromToHdr)) :
    ∃ t', onTerminating env unique req c = (.error .lengthError, ⟨t', c.calls⟩) ∧
      t'.includesInitialRequest = c.tsx.includesInitialRequest ∧ t'.storedEntry = c.tsx.storedEntry := by
  by_cases huri : req.uri.Fits .fromToHdr
  · obtain ⟨callee, hcallee⟩ := Option.isSome_iff_exists.mp huri
    have hfrom : ¬req.fromHdr.uri.Fits .fromToHdr := fun hfrom => h ⟨huri, hfrom⟩
    simp only [onTerminating, bind_run, uriToString_some hcallee, modifyTsx_run, uriToString_none hfrom]
    exact ⟨_, rfl, rfl, rfl⟩
  · simp only [onTerminating, bind_run, uriToString_none huri]
    exact ⟨_, rfl, rfl, rfl⟩

/-- A URI that does not fit ends the handler before it forwards anything. -/
theorem onInitialRequest_unfit (h : ¬InitialFits c.tsx req) :
    ∃ t', onInitialRequest env rawtime unique req c = (.error .lengthError, ⟨t', c.calls⟩) ∧
      t'.includesInitialRequest = true ∧ t'.storedEntry = c.tsx.storedEntry := by
  by_cases hpsu : ∀ nameAddr otherParam, findRouting req.hdrs pServedUser = some (nameAddr, otherParam) →
      nameAddr.uri.Fits .routingHdr
  · rw [onInitialRequest_run env rawtime unique req c hpsu]
    split
    · rename_i hout
      refine onOriginating_unfit env unique req _ fun ⟨hto, hpai⟩ => h ?_
      exact ⟨hpsu, fun _ => hto, fun _ => hpai, by simp [hout], by simp [hout]⟩
    · rename_i hout
      refine onTerminating_unfit env unique req _ fun ⟨huri, hfrom⟩ => h ?_
      exact ⟨hpsu, by simp [hout], by simp [hout], fun _ => huri, fun _ => hfrom⟩
  · push Not at hpsu
    obtain ⟨nameAddr, otherParam, hfind, hfit⟩ := hpsu
    simp only [onInitialRequest, bind_run, modifyTsx_run, readServedUser, hfind, uriToString_none hfit]
    exact ⟨_, rfl, rfl, rfl⟩

end Initial

end Memento
