import Memento.Theorems.Responses

/-! What `on_in_dialog_request` does, how long the printed fragments are, and what a sequence of responses
    does to a transaction. -/

namespace Memento
open Text Handler

/-! ### Lengths -/

def Response.answererLength (rsp : Response) : ℕ :=
  match rsp.answerer with
  | none => 0
  | some a =>
    match a.uri.print .fromToHdr uriBufferSize with
    | none => 0
    | some text => personLength MementoXML.ANSWERER text a.display

def timeLength (name time : Bytes) : ℕ := Xml.leafLength 0 name (cStr time)

/-- The length of what a final response prints: a part for each URI, display name and time that is
    recorded, 46 bytes for the two flags and one for the last line break. -/
def fragmentLength (env : Env) (t : Tsx) (currenttime : ℤ) (rsp : Response) : ℕ :=
  personLength MementoXML.TO t.calleeUri t.calleeName + personLength MementoXML.FROM t.callerUri t.callerName +
    timeLength MementoXML.START_TIME t.startTimeXml +
    (if 300 ≤ rsp.statusCode then 0
      else timeLength MementoXML.ANSWER_TIME (createFormattedTimestamp (env.localtime currenttime) xmlPattern) +
        rsp.answererLength) + 47

theorem length_answererNodes (rsp : Response) :
    (Xml.printChildren 0 rsp.answererNodes).length = rsp.answererLength := by
  unfold Response.answererNodes Response.answererLength
  cases rsp.answerer with
  | none => rfl
  | some a =>
    cases ha : a.uri.print .fromToHdr uriBufferSize with
    | none => simp only [ha, Xml.printChildren, List.length_nil]
    | some text => simp only [ha, Xml.printChildren, List.append_nil, length_personNode]

theorem length_fragmentDoc (env : Env) (t : Tsx) (currenttime : ℤ) (rsp : Response) :
    (Xml.print (fragmentDoc env t currenttime rsp)).length = fragmentLength env t currenttime rsp := by
  have flag : ∀ b : Bool, (Xml.printNode 0 (textNode MementoXML.OUTGOING (if b then ascii "1" else ascii "0"))).length = 23 := by
    decide
  have yes : (Xml.printNode 0 (.leaf MementoXML.ANSWERED (ascii "1"))).length = 23 := by decide
  have no : (Xml.printNode 0 (.leaf MementoXML.ANSWERED (ascii "0"))).length = 23 := by decide
  have time : ∀ name text, (Xml.printNode 0 (textNode name text)).length = timeLength name text :=
    fun name text => Xml.length_printNode_leaf 0 name (cStr text)
  simp only [Xml.print, fragmentDoc, Xml.printChildren_append, Tsx.callNodes, Xml.printChildren, List.length_append,
    length_personNode, flag, time, List.length_nil, List.length_singleton]
  unfold Response.outcomeNodes fragmentLength
  split
  · simp only [Xml.printChildren, List.length_append, no, List.length_nil]
    omega
  · simp only [Xml.printChildren, List.length_append, yes, time, length_answererNodes]
    omega

structure ResponseFits (env : Env) (t : Tsx) (currenttime : ℤ) (rsp : Response) : Prop where
  answerer : rsp.AnswererFits
  contents : fragmentLength env t currenttime rsp + 1 ≤ maxCallEntryLength

instance (uri : PjsipUri) (context : UriContext) : Decidable (uri.Fits context) := inferInstanceAs (Decidable (_ = true))

instance (t : Tsx) : Decidable t.Waiting := inferInstanceAs (Decidable (_ ∧ _))

instance (rsp : Response) : Decidable rsp.AnswererFits :=
  decidable_of_iff (rsp.answerer.all fun a => decide (a.uri.Fits .fromToHdr)) (by
    simp [Response.AnswererFits, Option.all_eq_true])

instance (env : Env) (t : Tsx) (currenttime : ℤ) (rsp : Response) : Decidable (ResponseFits env t currenttime rsp) :=
  decidable_of_iff (rsp.AnswererFits ∧ fragmentLength env t currenttime rsp + 1 ≤ maxCallEntryLength)
    ⟨fun h => ⟨h.1, h.2⟩, fun h => ⟨h.answerer, h.contents⟩⟩

/-! ### The outcomes of `on_response` -/

theorem zero_notMem_fragmentDoc (env : Env) (t : Tsx) (currenttime : ℤ) (rsp : Response) :
    (0 : UInt8) ∉ Xml.print (fragmentDoc env t currenttime rsp) := by
  have flag : ∀ b : Bool, (textNode MementoXML.OUTGOING (if b then ascii "1" else ascii "0")).Clean :=
    fun b => clean_textNode (by decide) _
  have call : Xml.CleanAll t.callNodes :=
    ⟨clean_personNode (by decide) _ _, clean_personNode (by decide) _ _, flag _, clean_textNode (by decide) _, trivial⟩
  have answerer : Xml.CleanAll rsp.answererNodes := by
    unfold Response.answererNodes
    split
    · trivial
    · split
      · trivial
      · exact ⟨clean_personNode (by decide) _ _, trivial⟩
  have outcome : Xml.CleanAll (rsp.outcomeNodes env currenttime) := by
    unfold Response.outcomeNodes
    split
    · exact ⟨⟨by decide, by decide, trivial⟩, trivial⟩
    · exact ⟨⟨by decide, by decide, trivial⟩, clean_textNode (by decide) _, answerer⟩
  exact Xml.zero_notMem_print (Xml.cleanAll_append.mpr ⟨call, outcome⟩)

/-- What `on_response` does, by what it is given. -/
theorem onResponse_cases (env : Env) (currenttime : ℤ) (rsp : Response) (forkId : ℤ) (c : Ctx) :
    (¬(c.tsx.Waiting ∧ rsp.isFinal = true) ∧
      onResponse env currenttime rsp forkId c = (.ok (), { c with calls := c.calls ++ [.sendResponse rsp] })) ∨
    (c.tsx.Waiting ∧ rsp.isFinal = true ∧
      ((ResponseFits env c.tsx currenttime rsp ∧ ∃ t', onResponse env currenttime rsp forkId c =
          (.ok (), ⟨t', c.calls ++ [.writeCallListEntry (fragmentRequest env c.tsx currenttime rsp), .sendResponse rsp]⟩) ∧
          Stored c.tsx t') ∨
        (¬rsp.AnswererFits ∧ onResponse env currenttime rsp forkId c =
          (.error .lengthError, { c with tsx := { c.tsx with storedEntry := true } })) ∨
        (rsp.AnswererFits ∧ ¬fragmentLength env c.tsx currenttime rsp + 1 ≤ maxCallEntryLength ∧
          ∃ t', onResponse env currenttime rsp forkId c = (.error .bufferOverflow, ⟨t', c.calls⟩)))) := by
  by_cases hc : c.tsx.Waiting ∧ rsp.isFinal = true
  · obtain ⟨hw, hf⟩ := hc
    refine Or.inr ⟨hw, hf, ?_⟩
    by_cases ha : rsp.AnswererFits
    · by_cases hl : fragmentLength env c.tsx currenttime rsp + 1 ≤ maxCallEntryLength
      · have hrun := onResponse_write env currenttime forkId hw hf ha (by rwa [length_fragmentDoc])
        exact Or.inl ⟨⟨ha, hl⟩, hrun⟩
      · have hrun := onResponse_overflow env currenttime forkId hw hf ha (by rw [length_fragmentDoc]; omega)
        exact Or.inr (Or.inr ⟨ha, hl, hrun⟩)
    · exact Or.inr (Or.inl ⟨ha, onResponse_unfit env currenttime forkId hw hf ha⟩)
  · exact Or.inl ⟨hc, onResponse_forward env currenttime rsp forkId c hc⟩

/-! ### `on_in_dialog_request` -/

def endDoc (env : Env) (currenttime : ℤ) : List Xml.Node :=
  [textNode MementoXML.END_TIME (createFormattedTimestamp (env.localtime currenttime) xmlPattern)]

def endRequest (env : Env) (currenttime : ℤ) (timestamp uniqueId encodedImpu : Bytes) : CallListRequest :=
  ⟨env.base64.decode encodedImpu, timestamp, uniqueId, .END, cStr (Xml.print (endDoc env currenttime))⟩

theorem length_escape_time (tm : Tm) (pattern : List Item)
    (hp : ∀ b, .lit b ∈ pattern → Xml.entityLength b = 1) :
    Xml.escapedLength (createFormattedTimestamp tm pattern) = (createFormattedTimestamp tm pattern).length := by
  have one : ∀ b ∈ createFormattedTimestamp tm pattern, Xml.entityLength b = 1 := by
    intro b hb
    rcases mem_createFormattedTimestamp hb with ⟨lo, hi⟩ | rfl | h
    · unfold Xml.entityLength
      rw [UInt8.le_iff_toNat_le] at lo hi
      have ne : ∀ k : UInt8, k.toNat < 48 ∨ 57 < k.toNat → b ≠ k := by
        rintro k hk rfl
        simp only [UInt8.reduceToNat] at lo hi
        omega
      rw [if_neg, if_neg, if_neg (ne 38 (by decide))]
      · exact fun h => h.elim (ne 39 (by decide)) (ne 34 (by decide))
      · exact fun h => h.elim (ne 60 (by decide)) (ne 62 (by decide))
    · rfl
    · exact hp b h
  rw [Xml.escapedLength, List.map_congr_left one]
  simp

theorem length_endDoc (env : Env) (currenttime : ℤ) :
    (Xml.print (endDoc env currenttime)).length + 1 ≤ maxCallEntryLength := by
  have hlen := length_createFormattedTimestamp (env.localtime currenttime) (Or.inr rfl : xmlPattern = _ ∨ xmlPattern = _)
  have hesc := length_escape_time (env.localtime currenttime) xmlPattern (by simp [xmlPattern]; decide)
  have hnul : cStr (createFormattedTimestamp (env.localtime currenttime) xmlPattern) =
      createFormattedTimestamp (env.localtime currenttime) xmlPattern :=
    cStr_of_notMem (notMem_createFormattedTimestamp (by decide) (by decide) (by decide))
  have hname : MementoXML.END_TIME.length = 8 := by decide
  simp only [Xml.print, endDoc, Xml.printChildren, textNode, hnul, List.length_append, Xml.length_printNode_leaf,
    List.length_nil, List.length_singleton, Xml.leafLength, hname, hesc, maxCallEntryLength, formattedTimeSize] at hlen ⊢
  split <;> omega

section InDialog
variable (env : Env) (currenttime : ℤ) (dialogId : Bytes) (req : Request) (c : Ctx)

theorem onInDialogRequest_forward (h : ¬(req.method = .BYE ∧ (splitString dialogId 95 3).length = 3)) :
    onInDialogRequest env currenttime dialogId req c = (.ok (), { c with calls := c.calls ++ [.sendRequest req] }) := by
  unfold onInDialogRequest
  by_cases hm : req.method = .BYE
  · rw [if_neg (not_not.mpr hm)]
    rcases hs : splitString dialogId 95 3 with _ | ⟨a, _ | ⟨b, _ | ⟨d, _ | ⟨e, rest⟩⟩⟩⟩
    · rfl
    · rfl
    · rfl
    · exact absurd ⟨hm, by rw [hs]; rfl⟩ h
    · rfl
  · rw [if_pos hm]
    rfl

/-- A BYE whose dialog id has three parts writes an END fragment under them. -/
theorem onInDialogRequest_end (hm : req.method = .BYE) {timestamp uniqueId encodedImpu : Bytes}
    (hs : splitString dialogId 95 3 = [timestamp, uniqueId, encodedImpu]) :
    ∃ t', onInDialogRequest env currenttime dialogId req c =
      (.ok (), ⟨t', c.calls ++ [.writeCallListEntry (endRequest env currenttime timestamp uniqueId encodedImpu),
        .sendRequest req]⟩) ∧ t'.includesInitialRequest = c.tsx.includesInitialRequest := by
  have hp := printContents_of_le (length_endDoc env currenttime)
    { c with tsx := { c.tsx with uniqueId, impu := env.base64.decode encodedImpu } }
  unfold endDoc at hp
  refine ⟨{ c.tsx with uniqueId, impu := env.base64.decode encodedImpu }, ?_, rfl⟩
  rw [onInDialogRequest, if_neg (not_not.mpr hm), hs]
  simp only [bind_run, modifyTsx_run, hp, getTsx_run, call_run, sendRequest]
  rw [List.append_assoc]
  rfl

end InDialog

/-! ### Sequences of responses -/

def sends (rsps : List ResponseEvent) : List Call := rsps.map fun e => .sendResponse e.rsp

theorem writes_append (a b : List Call) : writes (a ++ b) = writes a ++ writes b := List.filterMap_append

@[simp] theorem writes_sends (rsps : List ResponseEvent) : writes (sends rsps) = [] := by
  simp [writes, sends]

theorem mem_writes {calls : List Call} {clr : CallListRequest} : clr ∈ writes calls ↔ .writeCallListEntry clr ∈ calls := by
  unfold writes
  rw [List.mem_filterMap]
  constructor
  · rintro ⟨x, hx, h⟩
    cases x <;> cases h
    exact hx
  · exact fun h => ⟨_, h, rfl⟩

section Runs
variable (env : Env)

/-- Responses that are not the final one awaited are only forwarded. -/
theorem runResponses_forward (rest : List ResponseEvent) : ∀ (rsps : List ResponseEvent) (c : Ctx),
    (∀ e ∈ rsps, ¬(c.tsx.Waiting ∧ e.rsp.isFinal = true)) →
    runResponses env (rsps ++ rest) c = runResponses env rest { c with calls := c.calls ++ sends rsps }
  | [], c, _ => by simp [sends]
  | e :: rsps, c, h => by
    have he := onResponse_forward env e.currenttime e.rsp e.forkId c (h e (by simp))
    have ih := runResponses_forward rest rsps { c with calls := c.calls ++ [.sendResponse e.rsp] }
      fun e' he' => h e' (by simp [he'])
    simp only [List.cons_append, runResponses, ResponseEvent.handle, he]
    rw [ih]
    simp [sends]

theorem runResponses_settled {t : Tsx} (h : ¬t.Waiting) (calls : List Call) (rsps : List ResponseEvent) :
    runResponses env rsps ⟨t, calls⟩ = ⟨t, calls ++ sends rsps⟩ := by
  have := runResponses_forward env [] rsps ⟨t, calls⟩ fun _ _ hw => h hw.1
  rwa [List.append_nil] at this

/-- What a sequence of responses does to a waiting transaction. Only its first final response can queue a
    fragment, and does so when it fits. -/
inductive Answered (c : Ctx) (rsps : List ResponseEvent) : Ctx → Prop
  | waiting (hn : ∀ e ∈ rsps, e.rsp.isFinal = false) : Answered c rsps { c with calls := c.calls ++ sends rsps }
  | written {pre e post t'} (hr : rsps = pre ++ e :: post) (hpre : ∀ x ∈ pre, x.rsp.isFinal = false)
      (hf : e.rsp.isFinal = true) (fits : ResponseFits env c.tsx e.currenttime e.rsp) (stored : Stored c.tsx t') :
      Answered c rsps ⟨t', c.calls ++ sends pre ++
        [.writeCallListEntry (fragmentRequest env c.tsx e.currenttime e.rsp), .sendResponse e.rsp] ++ sends post⟩
  | failed {pre e post} (t' : Tsx) (rest : List ResponseEvent) (hr : rsps = pre ++ e :: post)
      (hpre : ∀ x ∈ pre, x.rsp.isFinal = false) (hf : e.rsp.isFinal = true)
      (unfit : ¬ResponseFits env c.tsx e.currenttime e.rsp) :
      Answered c rsps ⟨t', c.calls ++ sends pre ++ sends rest⟩

theorem runResponses_answered {c : Ctx} (hw : c.tsx.Waiting) (rsps : List ResponseEvent) :
    Answered env c rsps (runResponses env rsps c) := by
  by_cases hn : ∀ e ∈ rsps, e.rsp.isFinal = false
  · have := runResponses_forward env [] rsps c fun e he hc => by simp [hn e he] at hc
    rw [List.append_nil] at this
    rw [this]
    exact .waiting hn
  · -- The responses before the first final one are forwarded, those after it as well.
    have hsome : (rsps.find? (·.rsp.isFinal)).isSome := by
      rw [List.find?_isSome]
      push Not at hn
      obtain ⟨e, he, hf⟩ := hn
      exact ⟨e, he, by simpa using hf⟩
    obtain ⟨e, he⟩ := Option.isSome_iff_exists.mp hsome
    obtain ⟨hf, pre, post, rfl, hpre⟩ := List.find?_eq_some_iff_append.mp he
    replace hpre : ∀ x ∈ pre, x.rsp.isFinal = false := fun x hx => by simpa using hpre x hx
    rw [runResponses_forward env (e :: post) pre c fun x hx hc => by simp [hpre x hx] at hc, runResponses,
      ResponseEvent.handle]
    rcases onResponse_cases env e.currenttime e.rsp e.forkId { c with calls := c.calls ++ sends pre } with
      ⟨hc, -⟩ | ⟨-, -, ⟨fits, t', h, stored⟩ | ⟨ha, h⟩ | ⟨-, hl, t', h⟩⟩
    · exact absurd ⟨hw, hf⟩ hc
    · have hs : ¬t'.Waiting := fun hw => by simp [Tsx.Waiting, stored.storedEntry] at hw
      rw [h]
      simp only [runResponses_settled env hs]
      exact .written rfl hpre hf fits stored
    · have hs : ¬({ c.tsx with storedEntry := true } : Tsx).Waiting := fun hw => by simp [Tsx.Waiting] at hw
      rw [h]
      simp only [runResponses_settled env hs]
      exact .failed _ post rfl hpre hf fun h => ha h.answerer
    · have failed : Answered env c (pre ++ e :: post) ⟨t', c.calls ++ sends pre ++ sends []⟩ :=
        .failed t' [] rfl hpre hf fun h => hl h.contents
      rw [h]
      simpa [sends] using failed

theorem find?_isFinal {pre post : List ResponseEvent} {e : ResponseEvent} (hpre : ∀ x ∈ pre, x.rsp.isFinal = false)
    (hf : e.rsp.isFinal = true) : (pre ++ e :: post).find? (·.rsp.isFinal) = some e :=
  List.find?_eq_some_iff_append.mpr ⟨hf, pre, post, rfl, by simpa using hpre⟩

section Waiting
variable {t : Tsx} (hw : t.Waiting) (calls : List Call) (rsps : List ResponseEvent)
include hw

/-- A waiting transaction queues the fragment of its first final response, if that fits, and no other. -/
theorem runResponses_writes : writes (runResponses env rsps ⟨t, calls⟩).calls = writes calls ++
    match rsps.find? (·.rsp.isFinal) with
    | none => []
    | some e => if ResponseFits env t e.currenttime e.rsp then [fragmentRequest env t e.currenttime e.rsp] else [] := by
  have h : Answered env ⟨t, calls⟩ rsps _ := runResponses_answered env hw rsps
  generalize runResponses env rsps ⟨t, calls⟩ = c' at h ⊢
  cases h with
  | waiting hn =>
    rw [List.find?_eq_none.mpr (by simpa using hn), writes_append, writes_sends]
  | written hr hpre hf fits =>
    rw [hr, find?_isFinal hpre hf]
    simp only [writes_append, writes_sends, List.append_nil, if_pos fits]
    rfl
  | failed t' rest hr hpre hf unfit =>
    rw [hr, find?_isFinal hpre hf]
    simp only [writes_append, writes_sends, List.append_nil, if_neg unfit]

theorem runResponses_calls :
    ∃ more, (runResponses env rsps ⟨t, calls⟩).calls = calls ++ more ∧ ∀ d, .addToDialog d ∉ more := by
  have h : Answered env ⟨t, calls⟩ rsps _ := runResponses_answered env hw rsps
  generalize runResponses env rsps ⟨t, calls⟩ = c' at h ⊢
  cases h with
  | waiting => exact ⟨sends rsps, rfl, by simp [sends]⟩
  | written => exact ⟨_, by simp only [List.append_assoc]; rfl, by simp [sends]⟩
  | failed t' rest => exact ⟨_, List.append_assoc _ _ _, by simp [sends]⟩

end Waiting

end Runs

/-! ### A sample call -/

def sampleEnv : Env := ⟨fun _ => ⟨102, 4, 30, 9, 30, 10⟩, Base64.standard⟩

def sampleRequest (hdrs : List Hdr) : Request :=
  ⟨.INVITE, .ofText (ascii "sip:bob@home"), ⟨ascii "Alice", .ofText (ascii "sip:alice@home")⟩,
    ⟨ascii "Bob", .ofText (ascii "sip:bob@home")⟩, hdrs⟩

def sampleCall : InitialEvent := ⟨0, 1234, sampleRequest []⟩

def sampleResponse (statusCode : ℤ) (hdrs : List Hdr) : ResponseEvent := ⟨0, ⟨statusCode, .cseq .INVITE :: hdrs⟩, 0⟩

end Memento
