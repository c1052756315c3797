import Memento.Theorems.Recording

/-! The two fixed buffers of the handlers. A URI that does not fit `uri_cstr` makes a handler throw before it
    forwards its message, and a fragment that does not fit `contents` is printed past its end. -/

namespace Memento
open Text Handler

/-! ### Forwarding -/

def forwarded (calls : List Call) : List (Request ⊕ Response) :=
  calls.filterMap fun x =>
    match x with
    | .sendRequest req => some (.inl req)
    | .sendResponse rsp => some (.inr rsp)
    | _ => none

theorem forwarded_append (a b : List Call) : forwarded (a ++ b) = forwarded a ++ forwarded b := List.filterMap_append

/-- The handler returns, having forwarded `message` and nothing else. -/
def ForwardsOnce (h : Handler Unit) (c : Ctx) (message : Request ⊕ Response) : Prop :=
  ∃ c', h c = (.ok (), c') ∧ forwarded c'.calls = forwarded c.calls ++ [message]

theorem forwardsOnce_of_run {h : Handler Unit} {c : Ctx} {t : Tsx} {calls : List Call} {message : Request ⊕ Response}
    (hrun : h c = (.ok (), ⟨t, c.calls ++ calls⟩)) (hf : forwarded calls = [message]) : ForwardsOnce h c message :=
  ⟨_, hrun, by rw [forwarded_append, hf]⟩

theorem not_forwardsOnce {h : Handler Unit} {c c' : Ctx} {e : Fault} (hrun : h c = (.error e, c'))
    (message : Request ⊕ Response) : ¬ForwardsOnce h c message := by
  rintro ⟨_, h', -⟩
  rw [hrun] at h'
  cases h'

section
variable (env : Env) (c : Ctx)

theorem onInitialRequest_forwardsOnce (rawtime : ℤ) (unique : ℕ) (req : Request) :
    ForwardsOnce (onInitialRequest env rawtime unique req) c (.inl req) ↔ InitialFits c.tsx req := by
  by_cases h : InitialFits c.tsx req
  · refine iff_of_true ?_ h
    by_cases hu : req.Unasserted c.tsx
    · exact forwardsOnce_of_run (onInitialRequest_unasserted env rawtime unique req c h hu) rfl
    · obtain ⟨t, hrun, -⟩ := onInitialRequest_dialog env rawtime unique req c h hu
      exact forwardsOnce_of_run hrun rfl
  · obtain ⟨t, hrun, -⟩ := onInitialRequest_unfit env rawtime unique req c h
    exact iff_of_false (not_forwardsOnce hrun _) h

theorem onInDialogRequest_forwardsOnce (currenttime : ℤ) (dialogId : Bytes) (req : Request) :
    ForwardsOnce (onInDialogRequest env currenttime dialogId req) c (.inl req) := by
  by_cases h : req.method = .BYE ∧ (splitString dialogId 95 3).length = 3
  · obtain ⟨timestamp, uniqueId, encodedImpu, hs⟩ := List.length_eq_three.mp h.2
    obtain ⟨t, hrun, -⟩ := onInDialogRequest_end env currenttime dialogId req c h.1 hs
    exact forwardsOnce_of_run hrun rfl
  · exact forwardsOnce_of_run (onInDialogRequest_forward env currenttime dialogId req c h) rfl

theorem onResponse_forwardsOnce (currenttime : ℤ) (rsp : Response) (forkId : ℤ) :
    ForwardsOnce (onResponse env currenttime rsp forkId) c (.inr rsp) ↔
      (c.tsx.Waiting → rsp.isFinal = true → ResponseFits env c.tsx currenttime rsp) := by
  rcases onResponse_cases env currenttime rsp forkId c with
    ⟨hc, hrun⟩ | ⟨hw, hf, ⟨fits, t', hrun, -⟩ | ⟨ha, hrun⟩ | ⟨-, hl, t', hrun⟩⟩
  · exact iff_of_true (forwardsOnce_of_run hrun rfl) fun hw hf => absurd ⟨hw, hf⟩ hc
  · exact iff_of_true (forwardsOnce_of_run hrun rfl) fun _ _ => fits
  · exact iff_of_false (not_forwardsOnce hrun _) fun h => ha (h hw hf).answerer
  · exact iff_of_false (not_forwardsOnce hrun _) fun h => hl (h hw hf).contents

end

/-- Each handler forwards its message once exactly when what it converts and prints fits. -/
theorem handlers_forward_once (env : Env) (c : Ctx) :
    (∀ rawtime unique req, ForwardsOnce (onInitialRequest env rawtime unique req) c (.inl req) ↔ InitialFits c.tsx req) ∧
    (∀ currenttime dialogId req, ForwardsOnce (onInDialogRequest env currenttime dialogId req) c (.inl req)) ∧
    ∀ currenttime rsp forkId, ForwardsOnce (onResponse env currenttime rsp forkId) c (.inr rsp) ↔
      (c.tsx.Waiting → rsp.isFinal = true → ResponseFits env c.tsx currenttime rsp) :=
  ⟨onInitialRequest_forwardsOnce env c, onInDialogRequest_forwardsOnce env c, onResponse_forwardsOnce env c⟩

def longUriRequest : Request := { sampleRequest [] with uri := .ofText (List.replicate 501 97) }

theorem longUriRequest_not_forwarded :
    ¬ForwardsOnce (onInitialRequest sampleEnv 0 1234 longUriRequest) ⟨Tsx.new, []⟩ (.inl longUriRequest) := by
  rw [onInitialRequest_forwardsOnce]
  intro h
  exact absurd (h.uri (by decide)) (by decide +kernel)

/-! ### Printing -/

section
variable (env : Env) (c : Ctx)

theorem onInDialogRequest_inBounds (currenttime : ℤ) (dialogId : Bytes) (req : Request) :
    (onInDialogRequest env currenttime dialogId req c).1 ≠ .error .bufferOverflow := by
  obtain ⟨c', hrun, -⟩ := onInDialogRequest_forwardsOnce env c currenttime dialogId req
  rw [hrun]
  exact nofun

theorem onResponse_inBounds (currenttime : ℤ) (rsp : Response) (forkId : ℤ) :
    (onResponse env currenttime rsp forkId c).1 ≠ .error .bufferOverflow ↔
      (c.tsx.Waiting → rsp.isFinal = true → rsp.AnswererFits →
        fragmentLength env c.tsx currenttime rsp + 1 ≤ maxCallEntryLength) := by
  rcases onResponse_cases env currenttime rsp forkId c with
    ⟨hc, hrun⟩ | ⟨hw, hf, ⟨fits, t', hrun, -⟩ | ⟨ha, hrun⟩ | ⟨ha, hl, t', hrun⟩⟩ <;> rw [hrun]
  · exact iff_of_true nofun fun hw hf => absurd ⟨hw, hf⟩ hc
  · exact iff_of_true nofun fun _ _ _ => fits.contents
  · exact iff_of_true nofun fun _ _ h => absurd h ha
  · exact iff_of_false (fun h => h rfl) fun h => hl (h hw hf ha)

end

/-- What `on_response` prints stays inside its buffer exactly when the recorded texts, escaped and with their
    markup, are short enough; an END fragment always does. -/
theorem fragments_in_bounds (env : Env) (c : Ctx) :
    (∀ currenttime rsp forkId, (onResponse env currenttime rsp forkId c).1 ≠ .error .bufferOverflow ↔
      (c.tsx.Waiting → rsp.isFinal = true → rsp.AnswererFits →
        fragmentLength env c.tsx currenttime rsp + 1 ≤ maxCallEntryLength)) ∧
    ∀ currenttime dialogId req, (onInDialogRequest env currenttime dialogId req c).1 ≠ .error .bufferOverflow :=
  ⟨onResponse_inBounds env c, onInDialogRequest_inBounds env c⟩

/-- An INVITE from a caller whose display name is 800 ampersands. -/
def longNameCall : InitialEvent :=
  ⟨0, 1234, { sampleRequest [] with fromHdr := ⟨List.replicate 800 38, .ofText (ascii "sip:alice@home")⟩ }⟩

theorem longNameCall_overflow : longNameCall.req.UrisPrint ∧
    ∃ c, beginTsx (longNameCall.handle sampleEnv) = (.ok (), c) ∧
      (onResponse sampleEnv 0 (sampleResponse 200 []).rsp 0 c).1 = .error .bufferOverflow := by
  refine ⟨fun uri hu context => ?_, _, rfl, ?_⟩
  · simp only [Request.uris, longNameCall, sampleRequest, List.filterMap_nil, List.mem_cons, List.not_mem_nil, or_false] at hu
    rcases hu with rfl | rfl | rfl <;> exact ⟨_, rfl, by decide⟩
  · have hl : ¬fragmentLength sampleEnv (beginTsx (longNameCall.handle sampleEnv)).2.tsx 0 (sampleResponse 200 []).rsp + 1 ≤
        maxCallEntryLength := by decide +kernel
    by_contra hb
    exact hl ((onResponse_inBounds sampleEnv _ 0 _ 0).mp hb ⟨rfl, rfl⟩ (by decide) (by decide))

end Memento
