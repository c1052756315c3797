import Memento.Theorems.Dialogs

/-! What a transaction records. One that begins with an initial request queues a fragment at the first final
    response to its INVITE; one that begins in a dialog queues at most the END of its BYE. -/

namespace Memento
open Text Handler

section Initial
variable {env : Env} {e : InitialEvent}

/-- An initial request whose URIs fit is forwarded, and its transaction waits for a final response. -/
theorem beginTsx_waiting (env : Env) (h : InitialFits Tsx.new e.req) :
    ∃ t calls, beginTsx (e.handle env) = (.ok (), ⟨t, calls⟩) ∧ t.Waiting ∧ writes calls = [] := by
  by_cases hu : e.req.Unasserted Tsx.new
  · exact ⟨_, _, beginTsx_unasserted env h hu, ⟨rfl, rfl⟩, rfl⟩
  · obtain ⟨t, hrun, dialog⟩ := beginTsx_dialog env h hu
    exact ⟨t, _, hrun, ⟨dialog.includesInitialRequest, dialog.storedEntry⟩, rfl⟩

theorem writes_runTsx (h : InitialFits Tsx.new e.req) (rsps : List ResponseEvent) :
    writes (runTsx env (e.handle env) rsps).calls =
      match rsps.find? (·.rsp.isFinal) with
      | none => []
      | some r =>
        if ResponseFits env (beginTsx (e.handle env)).2.tsx r.currenttime r.rsp then
          [fragmentRequest env (beginTsx (e.handle env)).2.tsx r.currenttime r.rsp]
        else [] := by
  obtain ⟨t, calls, hrun, hw, hnil⟩ := beginTsx_waiting env h
  simp only [runTsx, hrun]
  rw [runResponses_writes env hw, hnil]
  rfl

end Initial

def InDialogEvent.EndsCall (e : InDialogEvent) : Prop := e.req.method = .BYE ∧ (splitString e.dialogId 95 3).length = 3

section InDialog
variable (env : Env) (e : InDialogEvent)

theorem inDialog_end (h : e.EndsCall) :
    ∃ t clr, beginTsx (e.handle env) = (.ok (), ⟨t, [.writeCallListEntry clr, .sendRequest e.req]⟩) ∧
      t.includesInitialRequest = false ∧ clr.type = .END := by
  obtain ⟨hm, hlen⟩ := h
  obtain ⟨timestamp, uniqueId, encodedImpu, hs⟩ := List.length_eq_three.mp hlen
  obtain ⟨t, hrun, hi⟩ := onInDialogRequest_end env e.currenttime e.dialogId e.req ⟨Tsx.new, []⟩ hm hs
  exact ⟨t, _, hrun, hi, rfl⟩

theorem inDialog_forward (h : ¬e.EndsCall) : beginTsx (e.handle env) = (.ok (), ⟨Tsx.new, [.sendRequest e.req]⟩) :=
  onInDialogRequest_forward env e.currenttime e.dialogId e.req ⟨Tsx.new, []⟩ h

/-- No response adds a fragment to what the request queued. -/
theorem writes_runTsx_inDialog (rsps : List ResponseEvent) :
    writes (runTsx env (e.handle env) rsps).calls = writes (beginTsx (e.handle env)).2.calls := by
  by_cases h : e.EndsCall
  · obtain ⟨t, clr, hrun, hi, -⟩ := inDialog_end env e h
    have hs : ¬t.Waiting := fun hw => absurd (hi.symm.trans hw.1) (by decide)
    simp only [runTsx, hrun, runResponses_settled env hs, writes_append, writes_sends, List.append_nil]
  · have hs : ¬Tsx.new.Waiting := fun hw => by cases hw.1
    simp only [runTsx, inDialog_forward env e h, runResponses_settled env hs, writes_append, writes_sends, List.append_nil]

end InDialog

/-- A transaction that begins with an initial request records its call once, at the first final response to its
    INVITE, and never otherwise. One that begins in a dialog records nothing but the END of its BYE. -/
theorem calls_recorded_once (env : Env) (e : InitialEvent) (rsps : List ResponseEvent) (h : InitialFits Tsx.new e.req)
    (hfit : ∀ r, rsps.find? (·.rsp.isFinal) = some r →
      ResponseFits env (beginTsx (e.handle env)).2.tsx r.currenttime r.rsp)
    (d : InDialogEvent) :
    ((∀ r ∈ rsps, r.rsp.isFinal = false) → writes (runTsx env (e.handle env) rsps).calls = []) ∧
    (∀ pre r post, rsps = pre ++ r :: post → (∀ x ∈ pre, x.rsp.isFinal = false) → r.rsp.isFinal = true →
      ∃ clr, writes (runTsx env (e.handle env) pre).calls = [] ∧
        writes (runTsx env (e.handle env) (pre ++ [r])).calls = [clr] ∧
        writes (runTsx env (e.handle env) rsps).calls = [clr] ∧
        clr.type = (if 200 ≤ r.rsp.statusCode ∧ r.rsp.statusCode ≤ 299 then .BEGIN else .REJECTED) ∧
        clr.callKey = (beginTsx (e.handle env)).2.tsx.callKey) ∧
    writes (runTsx env (d.handle env) rsps).calls = writes (beginTsx (d.handle env)).2.calls ∧
    (d.EndsCall → ∃ clr, writes (beginTsx (d.handle env)).2.calls = [clr] ∧ clr.type = .END) ∧
    (¬d.EndsCall → writes (beginTsx (d.handle env)).2.calls = []) := by
  refine ⟨fun hn => ?_, fun pre r post hr hpre hf => ?_, writes_runTsx_inDialog env d rsps, fun hd => ?_, fun hd => ?_⟩
  · rw [writes_runTsx h, List.find?_eq_none.mpr (by simpa using hn)]
  · subst hr
    have fits := hfit r (find?_isFinal hpre hf)
    refine ⟨fragmentRequest env (beginTsx (e.handle env)).2.tsx r.currenttime r.rsp, ?_, ?_, ?_, ?_, rfl⟩
    · rw [writes_runTsx h, List.find?_eq_none.mpr (by simpa using hpre)]
    · rw [writes_runTsx h, find?_isFinal hpre hf]
      exact if_pos fits
    · rw [writes_runTsx h, find?_isFinal hpre hf]
      exact if_pos fits
    · have hcode : 200 ≤ r.rsp.statusCode := by
        simp only [Response.isFinal, Bool.and_eq_true, decide_eq_true_eq] at hf
        exact hf.2
      simp only [fragmentRequest, Response.fragmentType]
      split
      · rw [if_neg (by omega)]
      · rw [if_pos ⟨hcode, by omega⟩]
  · obtain ⟨t, clr, hrun, -, htype⟩ := inDialog_end env d hd
    rw [hrun]
    exact ⟨clr, rfl, htype⟩
  · rw [inDialog_forward env d hd]
    rfl

theorem sampleCall_fits : InitialFits Tsx.new sampleCall.req where
  servedUser _ _ h := by cases h
  toHdr h := absurd h (by decide)
  assertedId h := absurd h (by decide)
  uri _ := rfl
  fromHdr _ := rfl

theorem calls_recorded_once_sample : ∃ clr, clr.type = .BEGIN ∧
    writes (runTsx sampleEnv (sampleCall.handle sampleEnv)
      [sampleResponse 180 [], sampleResponse 200 [], sampleResponse 486 []]).calls = [clr] := by
  have hfit : ResponseFits sampleEnv (beginTsx (sampleCall.handle sampleEnv)).2.tsx 0 (sampleResponse 200 []).rsp := by
    decide +kernel
  have once := calls_recorded_once sampleEnv sampleCall
    [sampleResponse 180 [], sampleResponse 200 [], sampleResponse 486 []] sampleCall_fits
    (fun r hr => by cases hr; exact hfit) ⟨0, [], sampleRequest []⟩
  obtain ⟨clr, -, -, hclr, htype, -⟩ := once.2.1 [sampleResponse 180 []] (sampleResponse 200 []) [sampleResponse 486 []] rfl
    (by decide) (by decide)
  exact ⟨clr, htype, hclr⟩

end Memento
