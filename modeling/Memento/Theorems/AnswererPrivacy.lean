import Memento.Theorems.Recording

/-! Privacy of the answerer. Responses that differ in P-Asserted-Identity alone record the same fragment exactly
    when the value of the first Privacy header is `id` and nothing else, whatever else asks for `id`. -/

namespace Memento
open Text Handler

/-! ### What a response asks for -/

def trim (s : Bytes) : Bytes :=
  ((s.dropWhile fun b => b = 32 || b = 9).reverse.dropWhile fun b => b = 32 || b = 9).reverse

/-- The priv-values of a Privacy header: they are separated by semicolons. -/
def privValues (hvalue : Bytes) : List Bytes := (hvalue.splitOn 59).map trim

/-- Some Privacy header has the value `id`. -/
def Response.RequestsIdPrivacy (rsp : Response) : Prop :=
  ∃ name hvalue, .genericString name hvalue ∈ rsp.hdrs ∧ eqIgnoreCase name privacyHdrName = true ∧
    ∃ v ∈ privValues hvalue, eqIgnoreCase v (ascii "id") = true

/-- The first Privacy header says `id`, in any case, and nothing else. -/
def Response.FirstPrivacyIsId (rsp : Response) : Prop :=
  ∃ before name hvalue after, rsp.hdrs = before ++ .genericString name hvalue :: after ∧
    (∀ h ∈ before, eqIgnoreCase h.name privacyHdrName = false) ∧ eqIgnoreCase name privacyHdrName = true ∧
      eqIgnoreCase hvalue (ascii "id") = true

theorem privacyRequested_iff {rsp : Response} : privacyRequested rsp = true ↔ rsp.FirstPrivacyIsId := by
  unfold privacyRequested findGenericString findHdrByName
  constructor
  · intro h
    cases hfind : rsp.hdrs.find? fun h => eqIgnoreCase h.name privacyHdrName with
    | none => simp [hfind] at h
    | some hdr =>
      obtain ⟨hname, before, after, heq, hbefore⟩ := List.find?_eq_some_iff_append.mp hfind
      rw [hfind] at h
      cases hdr with
      | genericString name hvalue => exact ⟨before, name, hvalue, after, heq, fun x hx => by simpa using hbefore x hx, hname, h⟩
      | routing | cseq => cases h
  · rintro ⟨before, name, hvalue, after, heq, hbefore, hname, hvalue_eq⟩
    have hfind : (rsp.hdrs.find? fun h => eqIgnoreCase h.name privacyHdrName) = some (.genericString name hvalue) :=
      List.find?_eq_some_iff_append.mpr ⟨hname, before, after, heq, fun x hx => by simpa using hbefore x hx⟩
    rw [hfind]
    exact hvalue_eq

def Response.anonymous (rsp : Response) : Response :=
  { rsp with hdrs := rsp.hdrs.filter fun h => !eqIgnoreCase h.name pAssertedIdentity }

/-- The responses agree on everything except P-Asserted-Identity. -/
def Response.Agrees (rsp rsp' : Response) : Prop := rsp'.anonymous = rsp.anonymous

section Anonymous
variable (rsp : Response)

theorem findHdrByName_anonymous {name : Bytes} (h : eqIgnoreCase name pAssertedIdentity = false) :
    findHdrByName rsp.anonymous.hdrs name = findHdrByName rsp.hdrs name := by
  unfold findHdrByName Response.anonymous
  rw [List.find?_filter]
  congr 1
  funext hdr
  by_cases hn : eqIgnoreCase hdr.name name = true
  · simp only [eqIgnoreCase, beq_iff_eq] at hn
    simp only [eqIgnoreCase, hn] at h ⊢
    simp [h]
  · simp [hn]

theorem privacyRequested_anonymous : privacyRequested rsp.anonymous = privacyRequested rsp := by
  unfold privacyRequested findGenericString
  rw [findHdrByName_anonymous rsp (by decide)]

theorem findCseq_anonymous : findCseq rsp.anonymous.hdrs = findCseq rsp.hdrs := by
  unfold findCseq Response.anonymous
  induction rsp.hdrs with
  | nil => rfl
  | cons h hdrs ih =>
    rw [List.filter_cons]
    split
    · rw [List.findSome?_cons, List.findSome?_cons, ih]
    · rename_i hp
      cases h with
      | cseq method => exact absurd (by decide : (!eqIgnoreCase (ascii "CSeq") pAssertedIdentity) = true) hp
      | routing => exact ih
      | genericString => exact ih

theorem isFinal_anonymous : rsp.anonymous.isFinal = rsp.isFinal := by
  unfold Response.isFinal
  rw [findCseq_anonymous]
  rfl

theorem answerer_anonymous : rsp.anonymous.answerer = none := by
  have hfind : findHdrByName rsp.anonymous.hdrs pAssertedIdentity = none := by
    unfold findHdrByName Response.anonymous
    rw [List.find?_eq_none]
    intro h hh
    simpa using (List.mem_filter.mp hh).2
  unfold Response.answerer findRouting
  rw [hfind]
  split <;> rfl

/-- The answerer is the only part of a fragment that P-Asserted-Identity adds. -/
theorem fragmentLength_anonymous (env : Env) (t : Tsx) (currenttime : ℤ) :
    fragmentLength env t currenttime rsp = fragmentLength env t currenttime rsp.anonymous + rsp.answererLength := by
  have h0 : rsp.anonymous.answererLength = 0 := by rw [Response.answererLength, answerer_anonymous]
  have hs : rsp.anonymous.statusCode = rsp.statusCode := rfl
  unfold fragmentLength
  rw [h0, hs]
  split
  · rename_i hcode
    have : rsp.answererLength = 0 := by rw [Response.answererLength, Response.answerer, if_pos (Or.inl hcode)]
    omega
  · omega

theorem fragmentRequest_anonymous (h : rsp.answerer = none) (env : Env) (t : Tsx) (currenttime : ℤ) :
    fragmentRequest env t currenttime rsp = fragmentRequest env t currenttime rsp.anonymous := by
  have hn : rsp.answererNodes = rsp.anonymous.answererNodes := by
    rw [Response.answererNodes, Response.answererNodes, h, answerer_anonymous]
  unfold fragmentRequest fragmentDoc Response.outcomeNodes
  rw [hn]
  rfl

end Anonymous

/-! ### The fragment -/

theorem fragmentLength_eq {env : Env} {t : Tsx} {currenttime : ℤ} {rsp rsp' : Response}
    (h : fragmentRequest env t currenttime rsp = fragmentRequest env t currenttime rsp') :
    fragmentLength env t currenttime rsp = fragmentLength env t currenttime rsp' := by
  have hc : (fragmentRequest env t currenttime rsp).contents = (fragmentRequest env t currenttime rsp').contents := by rw [h]
  simp only [fragmentRequest, cStr_of_notMem (zero_notMem_fragmentDoc env t currenttime _)] at hc
  rw [← length_fragmentDoc, ← length_fragmentDoc, hc]

def recorded (env : Env) (t : Tsx) (currenttime : ℤ) (rsp : Response) : List CallListRequest :=
  if t.Waiting ∧ rsp.isFinal = true ∧ ResponseFits env t currenttime rsp then [fragmentRequest env t currenttime rsp] else []

theorem writes_onResponse (env : Env) (currenttime : ℤ) (rsp : Response) (forkId : ℤ) (c : Ctx) :
    writes (onResponse env currenttime rsp forkId c).2.calls = writes c.calls ++ recorded env c.tsx currenttime rsp := by
  unfold recorded
  rcases onResponse_cases env currenttime rsp forkId c with
    ⟨hc, hrun⟩ | ⟨hw, hf, ⟨fits, t', hrun, -⟩ | ⟨ha, hrun⟩ | ⟨-, hl, t', hrun⟩⟩ <;> rw [hrun]
  · rw [if_neg fun h => hc ⟨h.1, h.2.1⟩, writes_append]
    rfl
  · rw [if_pos ⟨hw, hf, fits⟩, writes_append]
    rfl
  · rw [if_neg fun h => ha h.2.2.answerer, List.append_nil]
  · rw [if_neg fun h => hl h.2.2.contents, List.append_nil]

section Recorded
variable {env : Env} {t : Tsx} {currenttime : ℤ} {rsp : Response}

theorem recorded_of_not (h : ¬(t.Waiting ∧ rsp.isFinal = true ∧ ResponseFits env t currenttime rsp.anonymous)) :
    recorded env t currenttime rsp = [] := by
  refine if_neg fun ⟨hw, hf, fits⟩ => h ⟨hw, hf, ?_, ?_⟩
  · intro a ha
    rw [answerer_anonymous] at ha
    cases ha
  · have hlen := fragmentLength_anonymous rsp env t currenttime
    have := fits.contents
    omega

theorem recorded_anonymous (h : rsp.answerer = none) :
    recorded env t currenttime rsp = recorded env t currenttime rsp.anonymous := by
  have h0 : rsp.answererLength = 0 := by rw [Response.answererLength, h]
  have hlen := fragmentLength_anonymous rsp env t currenttime
  by_cases hc : t.Waiting ∧ rsp.isFinal = true ∧ ResponseFits env t currenttime rsp.anonymous
  · have fits : ResponseFits env t currenttime rsp :=
      ⟨fun a ha => absurd (h.symm.trans ha) nofun, by have := hc.2.2.contents; omega⟩
    unfold recorded
    rw [isFinal_anonymous, if_pos hc, if_pos ⟨hc.1, hc.2.1, fits⟩, fragmentRequest_anonymous rsp h]
  · rw [recorded_of_not hc]
    unfold recorded
    rw [isFinal_anonymous, if_neg hc]

end Recorded

/-! ### Two runs -/

/-- The response records what every response that agrees with it records. -/
def AnswererPrivate (env : Env) (currenttime forkId : ℤ) (c : Ctx) (rsp : Response) : Prop :=
  ∀ rsp', rsp.Agrees rsp' →
    writes (onResponse env currenttime rsp' forkId c).2.calls = writes (onResponse env currenttime rsp forkId c).2.calls

def Response.named (rsp : Response) : Response :=
  { rsp with hdrs := .routing pAssertedIdentity ⟨[], .ofText (ascii "sip:bob@home")⟩ [] :: rsp.anonymous.hdrs }

section Agrees
variable {rsp : Response}

theorem agrees_anonymous : rsp.Agrees rsp.anonymous := by
  simp [Response.Agrees, Response.anonymous]

theorem agrees_named : rsp.Agrees rsp.named := by
  have hp : eqIgnoreCase (Hdr.routing pAssertedIdentity ⟨[], .ofText (ascii "sip:bob@home")⟩ []).name
      pAssertedIdentity = true := by
    decide
  simp [Response.Agrees, Response.anonymous, Response.named, hp]

theorem privacyRequested_agrees {rsp' : Response} (h : rsp.Agrees rsp') : privacyRequested rsp' = privacyRequested rsp := by
  rw [← privacyRequested_anonymous rsp', h, privacyRequested_anonymous]

theorem isFinal_agrees {rsp' : Response} (h : rsp.Agrees rsp') : rsp'.isFinal = rsp.isFinal := by
  rw [← isFinal_anonymous rsp', h, isFinal_anonymous]

theorem answererLength_named (hcode : rsp.statusCode < 300) (hp : privacyRequested rsp = false) :
    0 < rsp.named.answererLength := by
  have hp' : privacyRequested rsp.named = false := (privacyRequested_agrees agrees_named).trans hp
  have ha : rsp.named.answerer = some ⟨[], .ofText (ascii "sip:bob@home")⟩ := by
    have hcode' : rsp.named.statusCode < 300 := hcode
    rw [Response.answerer, if_neg (by simp [hp', hcode'])]
    rfl
  have hprint : (PjsipUri.ofText (ascii "sip:bob@home")).print .fromToHdr uriBufferSize = some (ascii "sip:bob@home") := rfl
  simp only [Response.answererLength, ha, hprint, personLength]
  omega

end Agrees

section
variable {env : Env} {currenttime forkId : ℤ} {c : Ctx} {rsp : Response}

theorem answererPrivate_of_requested (hp : privacyRequested rsp = true) : AnswererPrivate env currenttime forkId c rsp := by
  intro rsp' h
  have none_of : ∀ r : Response, privacyRequested r = true → r.answerer = none := fun r hr => by
    rw [Response.answerer, if_pos (Or.inr hr)]
  have hp' : privacyRequested rsp' = true := (privacyRequested_agrees h).trans hp
  rw [writes_onResponse, writes_onResponse, recorded_anonymous (none_of rsp hp), recorded_anonymous (none_of rsp' hp'), h]

theorem answererPrivate_of_unrecorded
    (hc : ¬(c.tsx.Waiting ∧ rsp.isFinal = true ∧ ResponseFits env c.tsx currenttime rsp.anonymous)) :
    AnswererPrivate env currenttime forkId c rsp := by
  intro rsp' h
  have hc' : ¬(c.tsx.Waiting ∧ rsp'.isFinal = true ∧ ResponseFits env c.tsx currenttime rsp'.anonymous) := by
    rwa [isFinal_agrees h, h]
  rw [writes_onResponse, writes_onResponse, recorded_of_not hc, recorded_of_not hc']

/-- Otherwise a response with an answerer and one without are told apart by what they record. -/
theorem not_answererPrivate (hcode : rsp.statusCode < 300) (hp : privacyRequested rsp = false)
    (hc : c.tsx.Waiting ∧ rsp.isFinal = true ∧ ResponseFits env c.tsx currenttime rsp.anonymous) :
    ¬AnswererPrivate env currenttime forkId c rsp := by
  intro h
  have heq := (h _ agrees_named).trans (h _ agrees_anonymous).symm
  rw [writes_onResponse, writes_onResponse, List.append_cancel_left_eq] at heq
  have hanon : recorded env c.tsx currenttime rsp.anonymous = [fragmentRequest env c.tsx currenttime rsp.anonymous] := by
    rw [recorded, isFinal_anonymous, if_pos hc]
  have hpos := answererLength_named hcode hp
  have hlen := fragmentLength_anonymous rsp.named env c.tsx currenttime
  have hsame : rsp.named.anonymous = rsp.anonymous := agrees_named
  rw [hanon, recorded] at heq
  split at heq
  · have := fragmentLength_eq (List.singleton_inj.mp heq)
    rw [hsame] at hlen
    omega
  · cases heq

end

/-- The answerer of a response that asks for privacy stays out of what is recorded exactly when the first Privacy
    header says `id` alone, or nothing is recorded at all. -/
theorem answererPrivate_iff (env : Env) (currenttime forkId : ℤ) (c : Ctx) (rsp : Response)
    (h2xx : 200 ≤ rsp.statusCode ∧ rsp.statusCode < 300) :
    (rsp.RequestsIdPrivacy → AnswererPrivate env currenttime forkId c rsp) ↔
      (rsp.RequestsIdPrivacy → rsp.FirstPrivacyIsId ∨
        ¬(c.tsx.Waiting ∧ rsp.isFinal = true ∧ ResponseFits env c.tsx currenttime rsp.anonymous)) := by
  refine forall_congr' fun _ => ?_
  constructor
  · intro h
    by_contra hc
    rw [not_or, not_not, ← privacyRequested_iff, Bool.not_eq_true] at hc
    exact not_answererPrivate h2xx.2 hc.1 hc.2 h
  · rintro (hp | hc)
    · exact answererPrivate_of_requested (privacyRequested_iff.mpr hp)
    · exact answererPrivate_of_unrecorded hc

def privateResponse (hvalue : Bytes) : Response :=
  ⟨200, [.cseq .INVITE, .genericString privacyHdrName hvalue,
    .routing pAssertedIdentity ⟨ascii "Bob", .ofText (ascii "sip:bob@home")⟩ []]⟩

theorem answererPrivate_iff_sample : (privateResponse (ascii "ID")).RequestsIdPrivacy ∧
    AnswererPrivate sampleEnv 0 0 (beginTsx (sampleCall.handle sampleEnv)).2 (privateResponse (ascii "ID")) := by
  have hp : (privateResponse (ascii "ID")).RequestsIdPrivacy :=
    ⟨privacyHdrName, ascii "ID", .tail _ (.head _), by decide, ascii "ID", by decide, by decide⟩
  have first : (privateResponse (ascii "ID")).FirstPrivacyIsId :=
    ⟨[.cseq .INVITE], privacyHdrName, ascii "ID", _, rfl, by decide, by decide, by decide⟩
  exact ⟨hp, (answererPrivate_iff sampleEnv 0 0 _ _ ⟨by decide, by decide⟩).mpr (fun _ => Or.inl first) hp⟩

/-- `Privacy: header;id` asks for privacy, and the answerer is recorded. -/
theorem privateResponse_recorded : (privateResponse (ascii "header;id")).RequestsIdPrivacy ∧
    ¬AnswererPrivate sampleEnv 0 0 (beginTsx (sampleCall.handle sampleEnv)).2 (privateResponse (ascii "header;id")) := by
  have hfit : ResponseFits sampleEnv (beginTsx (sampleCall.handle sampleEnv)).2.tsx 0
      (privateResponse (ascii "header;id")).anonymous := by decide +kernel
  refine ⟨⟨privacyHdrName, ascii "header;id", .tail _ (.head _), by decide, ascii "id", by decide, by decide⟩, ?_⟩
  exact not_answererPrivate (by decide) (by decide) ⟨⟨rfl, rfl⟩, by decide, hfit⟩

end Memento
