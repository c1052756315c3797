import Memento.Theorems.Handlers

/-! What `on_response` and `on_in_dialog_request` do, by cases, and what a sequence of responses does. -/

namespace Memento
open Text Handler

/-! ### `on_response` -/

def Response.isFinal (rsp : Response) : Bool := findCseq rsp.hdrs = some .INVITE && 200 ≤ rsp.statusCode

/-- The answerer that the handler would record. -/
def Response.answerer (rsp : Response) : Option NameAddr :=
  if 300 ≤ rsp.statusCode ∨ privacyRequested rsp = true then none
  else (findRouting rsp.hdrs pAssertedIdentity).map Prod.fst

def Response.fragmentType (rsp : Response) : FragmentType := if 300 ≤ rsp.statusCode then .REJECTED else .BEGIN

def Tsx.Waiting (t : Tsx) : Prop := t.includesInitialRequest = true ∧ t.storedEntry = false

def Response.answererNodes (rsp : Response) : List Xml.Node :=
  match rsp.answerer with
  | none => []
  | some a =>
    match a.uri.print .fromToHdr uriBufferSize with
    | none => []
    | some text => [personNode MementoXML.ANSWERER text a.display]

def Response.outcomeNodes (rsp : Response) (env : Env) (currenttime : ℤ) : List Xml.Node :=
  if 300 ≤ rsp.statusCode then [.leaf MementoXML.ANSWERED (ascii "0")]
  else
    .leaf MementoXML.ANSWERED (ascii "1") ::
      textNode MementoXML.ANSWER_TIME (createFormattedTimestamp (env.localtime currenttime) xmlPattern) ::
        rsp.answererNodes

def fragmentDoc (env : Env) (t : Tsx) (currenttime : ℤ) (rsp : Response) : List Xml.Node :=
  t.callNodes ++ rsp.outcomeNodes env currenttime

def fragmentRequest (env : Env) (t : Tsx) (currenttime : ℤ) (rsp : Response) : CallListRequest :=
  ⟨t.impu, t.startTimeCassandra, t.uniqueId, rsp.fragmentType, cStr (Xml.print (fragmentDoc env t currenttime rsp))⟩

def Response.AnswererFits (rsp : Response) : Prop := ∀ a, rsp.answerer = some a → a.uri.Fits .fromToHdr

/-- The fields after a final response: the answerer is kept, and nothing that names the call changes. -/
structure Stored (t t' : Tsx) : Prop where
  includesInitialRequest : t'.includesInitialRequest = t.includesInitialRequest
  storedEntry : t'.storedEntry = true
  startTimeCassandra : t'.startTimeCassandra = t.startTimeCassandra
  uniqueId : t'.uniqueId = t.uniqueId
  impu : t'.impu = t.impu

section Response
variable (env : Env) (currenttime : ℤ) (rsp : Response) (forkId : ℤ) (c : Ctx)

theorem onResponse_forward (h : ¬(c.tsx.Waiting ∧ rsp.isFinal = true)) :
    onResponse env currenttime rsp forkId c = (.ok (), { c with calls := c.calls ++ [.sendResponse rsp] }) := by
  simp only [onResponse, bind_run, getTsx_run, sendResponse]
  split
  · rw [call_run]
  · rename_i hc
    push Not at hc
    split
    · rw [call_run]
    · rename_i hs
      split
      · rw [call_run]
      · rename_i hcode
        refine absurd ⟨⟨by simpa using hc.2, by simpa using hs⟩, ?_⟩ h
        simpa [Response.isFinal, hc.1] using hcode

/-- Reading the outcome of a response gives its type and elements, and keeps the answerer. -/
theorem readOutcome_run (h : rsp.AnswererFits) : ∃ t', readOutcome env currenttime rsp c =
    (.ok (rsp.fragmentType, rsp.outcomeNodes env currenttime), { c with tsx := t' }) ∧
      ∃ uri name, t' = { c.tsx with answererUri := uri, answererName := name } := by
  unfold readOutcome Response.fragmentType Response.outcomeNodes
  by_cases hcode : 300 ≤ rsp.statusCode
  · simp only [if_pos hcode, pure_run]
    exact ⟨_, rfl, _, _, rfl⟩
  · simp only [if_neg hcode, bind_run, readAnswerer, Response.answererNodes]
    by_cases hp : privacyRequested rsp = true
    · have ha : rsp.answerer = none := by simp [Response.answerer, hp]
      simp only [if_pos hp, pure_run, ha]
      exact ⟨_, rfl, _, _, rfl⟩
    · simp only [if_neg hp]
      cases hf : findRouting rsp.hdrs pAssertedIdentity with
      | none =>
        have ha : rsp.answerer = none := by simp [Response.answerer, hf]
        simp only [pure_run, ha]
        exact ⟨_, rfl, _, _, rfl⟩
      | some p =>
        have ha : rsp.answerer = some p.1 := by simp [Response.answerer, hf, hcode, hp]
        obtain ⟨text, htext⟩ := Option.isSome_iff_exists.mp (h p.1 ha)
        simp only [bind_run, uriToString_some htext, modifyTsx_run, pure_run, ha, htext, pjStrToString_eq]
        exact ⟨_, rfl, _, _, rfl⟩

theorem readOutcome_unfit (h : ¬rsp.AnswererFits) :
    readOutcome env currenttime rsp c = (.error .lengthError, c) := by
  unfold Response.AnswererFits at h
  push Not at h
  obtain ⟨a, ha, hfit⟩ := h
  have hcode : ¬300 ≤ rsp.statusCode := fun hc => by simp [Response.answerer, hc] at ha
  have hp : ¬privacyRequested rsp = true := fun hp => by simp [Response.answerer, hp] at ha
  have hf : (findRouting rsp.hdrs pAssertedIdentity).map Prod.fst = some a := by
    simpa [Response.answerer, hcode, hp] using ha
  obtain ⟨p, hp', rfl⟩ := Option.map_eq_some_iff.mp hf
  simp only [readOutcome, if_neg hcode, readAnswerer, if_neg hp, hp', bind_run, uriToString_none hfit]

variable {c} {rsp} (hw : c.tsx.Waiting) (hf : rsp.isFinal = true)
include hw hf

theorem onResponse_final : onResponse env currenttime rsp forkId c =
    (do
      let (type, outcome) ← readOutcome env currenttime rsp
      let contents ← printContents (c.tsx.callNodes ++ outcome)
      call (.writeCallListEntry ⟨c.tsx.impu, c.tsx.startTimeCassandra, c.tsx.uniqueId, type, contents⟩)
      sendResponse rsp : Handler Unit) { c with tsx := { c.tsx with storedEntry := true } } := by
  simp only [Response.isFinal, Bool.and_eq_true, decide_eq_true_eq] at hf
  simp only [onResponse, bind_run, getTsx_run]
  rw [if_neg (by simp [hf.1, hw.1]), if_neg (by simp [hw.2]), if_neg (by omega)]
  rfl

/-- The first final response writes its fragment and is forwarded. -/
theorem onResponse_write (ha : rsp.AnswererFits)
    (hl : (Xml.print (fragmentDoc env c.tsx currenttime rsp)).length + 1 ≤ maxCallEntryLength) :
    ∃ t', onResponse env currenttime rsp forkId c =
      (.ok (), ⟨t', c.calls ++ [.writeCallListEntry (fragmentRequest env c.tsx currenttime rsp), .sendResponse rsp]⟩) ∧
      Stored c.tsx t' := by
  obtain ⟨t', hread, uri, name, rfl⟩ :=
    readOutcome_run env currenttime rsp { c with tsx := { c.tsx with storedEntry := true } } ha
  rw [onResponse_final env currenttime forkId hw hf]
  unfold fragmentDoc at hl
  simp only [bind_run, hread, printContents_of_le hl, call_run, sendResponse]
  refine ⟨{ c.tsx with storedEntry := true, answererUri := uri, answererName := name }, ?_, rfl, rfl, rfl, rfl, rfl⟩
  rw [List.append_assoc]
  rfl

theorem onResponse_unfit (ha : ¬rsp.AnswererFits) :
    onResponse env currenttime rsp forkId c =
      (.error .lengthError, { c with tsx := { c.tsx with storedEntry := true } }) := by
  rw [onResponse_final env currenttime forkId hw hf]
  simp only [bind_run, readOutcome_unfit env currenttime rsp _ ha]

theorem onResponse_overflow (ha : rsp.AnswererFits)
    (hl : maxCallEntryLength < (Xml.print (fragmentDoc env c.tsx currenttime rsp)).length + 1) :
    ∃ t', onResponse env currenttime rsp forkId c = (.error .bufferOverflow, ⟨t', c.calls⟩) := by
  obtain ⟨t', hread, -⟩ := readOutcome_run env currenttime rsp { c with tsx := { c.tsx with storedEntry := true } } ha
  rw [onResponse_final env currenttime forkId hw hf]
  unfold fragmentDoc at hl
  simp only [bind_run, hread, printContents_of_lt hl]
  exact ⟨_, rfl⟩

end Response

end Memento
