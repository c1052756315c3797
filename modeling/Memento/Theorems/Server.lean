import Memento.Server
import Memento.Theorems.Accounting
import Memento.Theorems.Recording
import Memento.Theorems.Requests

/-! Runs of the whole server: what a SIP event adds to its transactions and to the queue, and what each transaction has
    written and seen. -/

namespace Memento
open Text Handler

/-! ### The pool of a server -/

section Pool
variable {W σ : Type} [DecidableEq W] {config : PoolConfig} {outside : Outside σ} {p₀ p : Pool W σ}

theorem Reachable.submitAll (h : Reachable config outside p₀ p) (clrs : List CallListRequest) :
    Reachable config outside p₀ (p.submitAll clrs) := by
  induction clrs generalizing p with
  | nil => exact h
  | cons clr clrs ih => exact ih (h.step (.submit clr))

omit [DecidableEq W] in
theorem submissions_submitAll (p : Pool W σ) (clrs : List CallListRequest) :
    submissions (p.submitAll clrs).trace = clrs.reverse ++ submissions p.trace := by
  induction clrs generalizing p with
  | nil => rfl
  | cons clr clrs ih =>
    have hsubmit : submissions (p.submit clr).trace = clr :: submissions p.trace := rfl
    rw [Pool.submitAll, List.foldl_cons, ← Pool.submitAll, ih, hsubmit, List.reverse_cons, List.append_assoc,
      List.singleton_append]

end Pool

/-! ### The handlers -/

theorem getAppTsx_cases (admitRequest : Bool) (req : Request) :
    (∃ overload, getAppTsx admitRequest req = (none, false, overload)) ∨
      (req.method = .INVITE → admitRequest = true) ∧
        getAppTsx admitRequest req = (some Tsx.new, decide (req.method = .INVITE), false) := by
  unfold getAppTsx
  split
  · exact Or.inl ⟨_, rfl⟩
  · split
    · exact Or.inl ⟨_, rfl⟩
    · rename_i hgranted
      refine Or.inr ⟨fun hm => ?_, rfl⟩
      simpa [hm] using hgranted

theorem receive_eq {D W σ : Type} (s : Server D W σ) (dialog : D) (initial : Bool) {admitRequest : Bool} {req : Request}
    (handle : Handler Unit) {tsx : Tsx} {admitted overload : Bool}
    (h : getAppTsx admitRequest req = (some tsx, admitted, overload)) :
    s.receive dialog initial admitRequest req handle =
      { transactions := s.transactions ++ [⟨dialog, initial, req, (handle ⟨tsx, []⟩).2.tsx,
          addedDialogId (handle ⟨tsx, []⟩).2.calls, writes (handle ⟨tsx, []⟩).2.calls, []⟩]
        admitted := s.admitted + if admitted then 1 else 0
        notRecordedOverload := s.notRecordedOverload + if overload then 1 else 0
        pool := s.pool.submitAll (writes (handle ⟨tsx, []⟩).2.calls) } := by
  rw [Server.receive, h]

/-- An initial request queues nothing, and its transaction waits for the final response. -/
theorem handle_initial (env : Env) (e : InitialEvent) : (e.handle env ⟨Tsx.new, []⟩).2.tsx.Waiting ∧
    writes (e.handle env ⟨Tsx.new, []⟩).2.calls = [] := by
  by_cases h : InitialFits Tsx.new e.req
  · obtain ⟨t, calls, hrun, hw, hnil⟩ := beginTsx_waiting env h
    have hrun : e.handle env ⟨Tsx.new, []⟩ = (.ok (), ⟨t, calls⟩) := hrun
    rw [hrun]
    exact ⟨hw, hnil⟩
  · obtain ⟨t', hrun, hi, hs⟩ := onInitialRequest_unfit env e.rawtime e.unique e.req ⟨Tsx.new, []⟩ h
    rw [InitialEvent.handle, hrun]
    exact ⟨⟨hi, hs⟩, rfl⟩

/-- A request in a dialog queues an END if it ends the call, and nothing else. -/
theorem handle_inDialog (env : Env) (e : InDialogEvent) :
    (e.handle env ⟨Tsx.new, []⟩).2.tsx.includesInitialRequest = false ∧
      ((e.EndsCall ∧ ∃ clr, writes (e.handle env ⟨Tsx.new, []⟩).2.calls = [clr] ∧ clr.type = .END) ∨
        ¬e.EndsCall ∧ writes (e.handle env ⟨Tsx.new, []⟩).2.calls = []) := by
  by_cases h : e.EndsCall
  · obtain ⟨t, clr, hrun, hi, htype⟩ := inDialog_end env e h
    have hrun : e.handle env ⟨Tsx.new, []⟩ = (.ok (), ⟨t, [.writeCallListEntry clr, .sendRequest e.req]⟩) := hrun
    rw [hrun]
    exact ⟨hi, Or.inl ⟨h, clr, rfl, htype⟩⟩
  · have hrun : e.handle env ⟨Tsx.new, []⟩ = (.ok (), ⟨Tsx.new, [.sendRequest e.req]⟩) := inDialog_forward env e h
    rw [hrun]
    exact ⟨rfl, Or.inr ⟨h, rfl⟩⟩

/-! ### Transactions -/

section Transaction
variable {D : Type} {t : AppServerTsx D}

/-- Of an initial INVITE. -/
def AppServerTsx.isCall (t : AppServerTsx D) : Bool := t.initial && t.req.method = .INVITE

def AppServerTsx.firstFinal (t : AppServerTsx D) : Option Response := t.responses.find? (200 ≤ ·.statusCode)

/-- What a transaction has written and seen. -/
structure AppServerTsx.Sound (t : AppServerTsx D) : Prop where
  includesInitialRequest : t.tsx.includesInitialRequest = t.initial
  storedEntry : t.isCall = true → t.tsx.storedEntry = t.firstFinal.isSome
  initial : t.initial = true → ∀ clr ∈ t.written, ∃ rsp, t.firstFinal = some rsp ∧ clr.type = rsp.fragmentType
  inDialog : t.initial = false → t.written = [] ∨ t.req.method = .BYE ∧ ∃ clr, t.written = [clr] ∧ clr.type = .END

variable {env : Env} {e : ResponseEvent}

theorem firstFinal_respond (rsp : Response) (c : Ctx) :
    (t.respond rsp c).firstFinal = t.firstFinal.or (if 200 ≤ rsp.statusCode then some rsp else none) := by
  rw [AppServerTsx.firstFinal, AppServerTsx.respond, List.find?_append, AppServerTsx.firstFinal]
  by_cases hcode : 200 ≤ rsp.statusCode <;> simp [hcode]

/-- What a response to a transaction does: it is forwarded, or it is the first final one to an initial INVITE. -/
theorem AppServerTsx.Sound.respond_cases (h : t.Sound) (hm : findCseq e.rsp.hdrs = some t.req.method)
    (ho : (e.handle env ⟨t.tsx, []⟩).1 ≠ .error .bufferOverflow) :
    ((e.handle env ⟨t.tsx, []⟩).2.tsx = t.tsx ∧ writes (e.handle env ⟨t.tsx, []⟩).2.calls = [] ∧
      (t.isCall = true → 200 ≤ e.rsp.statusCode → t.tsx.storedEntry = true)) ∨
    (t.isCall = true ∧ t.tsx.Waiting ∧ e.rsp.isFinal = true ∧ 200 ≤ e.rsp.statusCode ∧
      (e.handle env ⟨t.tsx, []⟩).2.tsx.includesInitialRequest = true ∧
      (e.handle env ⟨t.tsx, []⟩).2.tsx.storedEntry = true ∧
      writes (e.handle env ⟨t.tsx, []⟩).2.calls =
        if ResponseFits env t.tsx e.currenttime e.rsp then [fragmentRequest env t.tsx e.currenttime e.rsp] else []) := by
  have hfinal : e.rsp.isFinal = true ↔ t.req.method = .INVITE ∧ 200 ≤ e.rsp.statusCode := by
    rw [Response.isFinal, hm]
    simp
  have waits : t.isCall = true ↔ t.tsx.includesInitialRequest = true ∧ t.req.method = .INVITE := by
    rw [h.includesInitialRequest, AppServerTsx.isCall, Bool.and_eq_true, decide_eq_true_eq]
  rw [ResponseEvent.handle] at ho ⊢
  rcases onResponse_cases env e.currenttime e.rsp e.forkId ⟨t.tsx, []⟩ with
    ⟨hn, hrun⟩ | ⟨⟨hi, hs⟩, hf, ⟨fits, t', hrun, stored⟩ | ⟨ha, hrun⟩ | ⟨-, -, t', hrun⟩⟩
  · rw [hrun]
    refine Or.inl ⟨rfl, rfl, fun hcall hcode => ?_⟩
    by_contra hs
    obtain ⟨hi, hm⟩ := waits.mp hcall
    exact hn ⟨⟨hi, Bool.eq_false_iff.mpr hs⟩, hfinal.mpr ⟨hm, hcode⟩⟩
  · rw [hrun, if_pos fits]
    obtain ⟨hm, hcode⟩ := hfinal.mp hf
    exact Or.inr ⟨waits.mpr ⟨hi, hm⟩, ⟨hi, hs⟩, hf, hcode, stored.includesInitialRequest.trans hi, stored.storedEntry, rfl⟩
  · rw [hrun, if_neg fun fits => ha fits.answerer]
    obtain ⟨hm, hcode⟩ := hfinal.mp hf
    exact Or.inr ⟨waits.mpr ⟨hi, hm⟩, ⟨hi, hs⟩, hf, hcode, hi, rfl, rfl⟩
  · rw [hrun] at ho
    exact absurd rfl ho

theorem AppServerTsx.Sound.respond (h : t.Sound) (hm : findCseq e.rsp.hdrs = some t.req.method)
    (ho : (e.handle env ⟨t.tsx, []⟩).1 ≠ .error .bufferOverflow) :
    (t.respond e.rsp (e.handle env ⟨t.tsx, []⟩).2).Sound := by
  rcases h.respond_cases hm ho with ⟨htsx, hw, hfinal⟩ | ⟨hcall, ⟨-, hs⟩, -, hcode, hi, hs', hw⟩
  · have hwritten : (t.respond e.rsp (e.handle env ⟨t.tsx, []⟩).2).written = t.written := by
      rw [AppServerTsx.respond, hw, List.append_nil]
    refine ⟨?_, fun hcall => ?_, fun hi clr hclr => ?_, ?_⟩
    · exact (congrArg Tsx.includesInitialRequest htsx).trans h.includesInitialRequest
    · have hcall : t.isCall = true := hcall
      have hstored := h.storedEntry hcall
      refine (congrArg Tsx.storedEntry htsx).trans ?_
      rw [firstFinal_respond]
      cases hfirst : t.firstFinal with
      | some rsp => simpa [hfirst] using hstored
      | none =>
        rw [hfirst] at hstored
        have hcode : ¬200 ≤ e.rsp.statusCode := fun hcode => by simp [hfinal hcall hcode] at hstored
        simpa [hcode] using hstored
    · rw [hwritten] at hclr
      obtain ⟨rsp, hfirst, htype⟩ := h.initial hi clr hclr
      exact ⟨rsp, by rw [firstFinal_respond, hfirst, Option.some_or], htype⟩
    · rw [hwritten]
      exact h.inDialog
  · have hinitial : t.initial = true := (Bool.and_eq_true_iff.mp hcall).1
    have hnone : t.firstFinal = none := by simpa [hs] using h.storedEntry hcall
    have hfirst : (t.respond e.rsp (e.handle env ⟨t.tsx, []⟩).2).firstFinal = some e.rsp := by
      rw [firstFinal_respond, hnone, if_pos hcode, Option.none_or]
    refine ⟨hi.trans hinitial.symm, fun _ => ?_, fun _ clr hclr => ⟨e.rsp, hfirst, ?_⟩, fun hn => ?_⟩
    · rw [hfirst]
      exact hs'
    · rw [AppServerTsx.respond, hw] at hclr
      rcases List.mem_append.mp hclr with hclr | hclr
      · obtain ⟨rsp, hsome, -⟩ := h.initial hinitial clr hclr
        rw [hnone] at hsome
        cases hsome
      · split at hclr
        · rw [List.mem_singleton.mp hclr]
          rfl
        · cases hclr
    · exact absurd (hinitial.symm.trans hn) (by decide)

end Transaction

/-! ### Steps -/

section Server
variable {D W σ : Type} {s₀ s s' : Server D W σ} {event : ServerEvent D}

/-- The transaction that a request begins. -/
inductive Begins (s : Server D W σ) : ServerEvent D → AppServerTsx D → Prop
  | initial {t : AppServerTsx D} {dialog : D} (admitRequest : Bool) (e : InitialEvent) (hd : t.dialog = dialog)
      (fresh : ∀ u ∈ s.transactions, u.dialog ≠ dialog) (hi : t.initial = true) (hs : t.tsx.storedEntry = false)
      (hw : t.written = []) : Begins s (.initialRequest dialog admitRequest e) t
  | inDialog {t : AppServerTsx D} {dialog : D} (admitRequest : Bool) (e : InDialogEvent) (hd : t.dialog = dialog)
      (ongoing : ∃ u ∈ s.transactions, u.dialog = dialog ∧ u.isCall = true) (hi : t.initial = false) (hreq : t.req = e.req)
      (hgranted : e.req.method = .INVITE → admitRequest = true)
      (hw : (e.EndsCall ∧ ∃ clr, t.written = [clr] ∧ clr.type = .END) ∨ ¬e.EndsCall ∧ t.written = []) :
      Begins s (.inDialogRequest dialog admitRequest e) t

theorem Begins.sound {t : AppServerTsx D} (h : Begins s event t) (hr : t.responses = [])
    (hincludes : t.tsx.includesInitialRequest = t.initial) : t.Sound := by
  have hnone : t.firstFinal = none := by rw [AppServerTsx.firstFinal, hr]; rfl
  cases h with
  | initial admitRequest e hd fresh hi hs hw =>
    refine ⟨hincludes, fun _ => by rw [hs, hnone]; rfl, fun _ clr hclr => ?_, fun hn => ?_⟩
    · rw [hw] at hclr
      cases hclr
    · exact absurd (hi.symm.trans hn) (by decide)
  | inDialog admitRequest e hd ongoing hi hreq hgranted hw =>
    have hnot : ¬t.initial = true := by simp [hi]
    refine ⟨hincludes, fun hcall => absurd (Bool.and_eq_true_iff.mp hcall).1 hnot, fun hn => absurd hn hnot, fun _ => ?_⟩
    rcases hw with ⟨hends, hw⟩ | ⟨-, hw⟩
    · exact Or.inr ⟨hreq ▸ hends.1, hw⟩
    · exact Or.inl hw

variable [DecidableEq W] {env : Env} {config : PoolConfig} {outside : Outside σ}
  {allowed : Server D W σ → ServerEvent D → Prop}

/-- A step begins a transaction, handles a response to one, or does neither. -/
theorem ServerStep.cases (h : ServerStep env config outside s event s') :
    (s'.transactions = s.transactions ∧ s'.admitted = s.admitted ∧
      submissions s'.pool.trace = submissions s.pool.trace) ∨
    (∃ t, Begins s event t ∧ t.responses = [] ∧ t.tsx.includesInitialRequest = t.initial ∧
      s'.transactions = s.transactions ++ [t] ∧
      s'.admitted = s.admitted + (if t.req.method = .INVITE then 1 else 0) ∧
      submissions s'.pool.trace = t.written.reverse ++ submissions s.pool.trace) ∨
    (∃ before t after e, event = .response t e ∧ s.transactions = before ++ t :: after ∧
      findCseq e.rsp.hdrs = some t.req.method ∧ (e.handle env ⟨t.tsx, []⟩).1 ≠ .error .bufferOverflow ∧
      s'.transactions = before ++ t.respond e.rsp (e.handle env ⟨t.tsx, []⟩).2 :: after ∧ s'.admitted = s.admitted ∧
      submissions s'.pool.trace = (writes (e.handle env ⟨t.tsx, []⟩).2.calls).reverse ++ submissions s.pool.trace) := by
  cases h with
  | initialRequest dialog admitRequest e hd =>
    rcases getAppTsx_cases admitRequest e.req with ⟨overload, hget⟩ | ⟨-, hget⟩
    · refine Or.inl ?_
      simp [Server.receive, hget]
    · obtain ⟨⟨hi, hs⟩, hw⟩ := handle_initial env e
      let c := (e.handle env ⟨Tsx.new, []⟩).2
      refine Or.inr (Or.inl ⟨⟨dialog, true, e.req, c.tsx, addedDialogId c.calls, writes c.calls, []⟩,
        .initial admitRequest e rfl hd rfl hs hw, rfl, hi, ?_⟩)
      simp [Server.receive, hget, submissions_submitAll, c]
  | @inDialogRequest u admitRequest e hu hi hm hd =>
    rcases getAppTsx_cases admitRequest e.req with ⟨overload, hget⟩ | ⟨hgranted, hget⟩
    · refine Or.inl ?_
      simp [Server.receive, hget]
    · obtain ⟨hincludes, hw⟩ := handle_inDialog env e
      have hcall : u.isCall = true := by simp [AppServerTsx.isCall, hi, hm]
      let c := (e.handle env ⟨Tsx.new, []⟩).2
      refine Or.inr (Or.inl ⟨⟨u.dialog, false, e.req, c.tsx, addedDialogId c.calls, writes c.calls, []⟩,
        .inDialog admitRequest e rfl ⟨u, hu, rfl, hcall⟩ rfl rfl hgranted hw, rfl, hincludes, ?_⟩)
      simp [Server.receive, hget, submissions_submitAll, c]
  | response e ht hm ho =>
    exact Or.inr (Or.inr ⟨_, _, _, e, rfl, ht, hm, ho, rfl, rfl, submissions_submitAll _ _⟩)
  | work hp => exact Or.inl ⟨rfl, rfl, hp.submissions_eq⟩

theorem ServerRun.step (run : ServerRun env config outside allowed s₀ s) (step : ServerStep env config outside s event s')
    (ha : allowed s event) : ServerRun env config outside allowed s₀ s' :=
  run.tail ⟨event, step, ha⟩

/-- What holds of the first server and is kept by each allowed step holds in every run. -/
theorem ServerRun.invariant {P : Server D W σ → Prop} (run : ServerRun env config outside allowed s₀ s) (h0 : P s₀)
    (hstep : ∀ {s s' event}, ServerRun env config outside allowed s₀ s → P s →
      ServerStep env config outside s event s' → allowed s event → P s') : P s := by
  induction run with
  | refl => exact h0
  | tail run last ih =>
    obtain ⟨event, step, ha⟩ := last
    exact hstep run ih step ha

theorem ServerRun.work (run : ServerRun env config outside allowed s₀ s) (hwork : ∀ s, allowed s .work) {p : Pool W σ}
    (steps : Relation.ReflTransGen (WorkerStep config outside) s.pool p) :
    ServerRun env config outside allowed s₀ { s with pool := p } := by
  induction steps with
  | refl => exact run
  | tail _ last ih => exact ih.step (.work last) (hwork _)

/-- Where nothing is trimmed, a run can go on until the queue is empty. -/
theorem ServerRun.process_all (run : ServerRun env config outside allowed s₀ s) (hwork : ∀ s, allowed s .work)
    (hM : config.maxCallListLength = 0) (hn : config.httpNotifier = true) (hr : ∃ rand, outside.rand rand)
    (hwrite : ∀ x f time, ∃ x', outside.write x f time config.callListTtl .OK x') [Nonempty W]
    (hw : ∀ w, s.pool.worker w = .idle) :
    ∃ p, ServerRun env config outside allowed s₀ { s with pool := p } ∧ p.Drained ∧
      submissions p.trace = submissions s.pool.trace ∧
      successes p.trace = s.pool.queue.reverse ++ successes s.pool.trace := by
  obtain ⟨w⟩ := ‹Nonempty W›
  obtain ⟨p, steps, hempty, hworker, hsubmitted, hwritten⟩ := Memento.process_all hM hn hr hwrite (hw w)
  exact ⟨p, run.work hwork steps, ⟨hempty, fun w => by rw [hworker, hw]⟩, hsubmitted, hwritten⟩

theorem Reachable.receive {p₀ : Pool W σ} (h : Reachable config outside p₀ s.pool) {dialog : D}
    {initial admitRequest : Bool} {req : Request} {handle : Handler Unit} :
    Reachable config outside p₀ (s.receive dialog initial admitRequest req handle).pool := by
  rcases getAppTsx_cases admitRequest req with ⟨overload, hget⟩ | ⟨-, hget⟩
  · simpa [Server.receive, hget] using h
  · simpa [Server.receive, hget] using h.submitAll _

omit [DecidableEq W] in
theorem Server.initial_new (x : σ) : (Server.new x : Server D W σ).Initial :=
  ⟨rfl, rfl, ⟨rfl, fun _ => rfl, rfl⟩, rfl, rfl⟩

theorem ServerRun.reachable (run : ServerRun env config outside allowed s₀ s) (h0 : s₀.Initial) :
    Reachable config outside s₀.pool s.pool := by
  refine run.invariant (P := fun s => Reachable config outside s₀.pool s.pool) ⟨h0.pool, .refl⟩ fun _ ih step _ => ?_
  cases step with
  | initialRequest dialog admitRequest e hd => exact ih.receive
  | inDialogRequest admitRequest e ht hi hm hd => exact ih.receive
  | response e ht hm ho => exact ih.submitAll _
  | work hp => exact ih.step hp.1

theorem ServerRun.sound (run : ServerRun env config outside allowed s₀ s) (h0 : s₀.Initial) :
    ∀ t ∈ s.transactions, t.Sound := by
  refine run.invariant (P := fun s => ∀ t ∈ s.transactions, t.Sound) ?_ fun {s s' event} _ ih step _ => ?_
  · rw [h0.transactions]
    exact nofun
  · rcases step.cases with ⟨ht, -⟩ | ⟨t, begins, hr, hincludes, ht, -⟩ | ⟨before, t, after, e, -, ht, hm, ho, ht', -⟩
    · rwa [ht]
    · rw [ht, List.forall_mem_append]
      exact ⟨ih, List.forall_mem_singleton.mpr (begins.sound hr hincludes)⟩
    · rw [ht, List.forall_mem_append, List.forall_mem_cons] at ih
      obtain ⟨hbefore, ht, hafter⟩ := ih
      rw [ht', List.forall_mem_append, List.forall_mem_cons]
      exact ⟨hbefore, ht.respond hm ho, hafter⟩

end Server

/-! ### A call that is answered -/

/-- The only call is `sampleCall`, it is answered with 200, and no worker has begun. -/
structure Server.Answered (s : Server ℕ Bool Cells) (t : AppServerTsx ℕ) : Prop where
  transactions : s.transactions = [t]
  admitted : s.admitted = 1
  pool : ∃ clr, s.pool = (Pool.new fun _ => .empty).submit clr ∧ clr.type = .BEGIN
  dialog : t.dialog = 0
  initial : t.initial = true
  method : t.req.method = .INVITE
  dialogId : t.dialogId = sampleBye.dialogId
  responses : t.responses = [(sampleResponse 200 []).rsp]

theorem answered_run (allowed : Server ℕ Bool Cells → ServerEvent ℕ → Prop)
    (hbegin : ∀ s, allowed s (.initialRequest 0 true sampleCall))
    (hanswer : ∀ s t, t.tsx = (sampleCall.handle sampleEnv ⟨Tsx.new, []⟩).2.tsx →
      allowed s (.response t (sampleResponse 200 []))) :
    ∃ s t, ServerRun sampleEnv ⟨0, 604800, true⟩ (lastWriteStore (· < ·)) allowed (.new fun _ => .empty) s ∧
      s.Answered t := by
  have answer : ((sampleResponse 200 []).handle sampleEnv ⟨(sampleCall.handle sampleEnv ⟨Tsx.new, []⟩).2.tsx, []⟩).1 ≠
    .error .bufferOverflow := by decide +kernel
  have hinvite : findCseq (sampleResponse 200 []).rsp.hdrs = some .INVITE := rfl
  have r0 : ServerRun sampleEnv ⟨0, 604800, true⟩ (lastWriteStore (· < ·)) allowed (.new fun _ => .empty) _ := .refl
  have r1 := r0.step (.initialRequest 0 true sampleCall nofun) (hbegin _)
  rw [receive_eq _ _ _ _ rfl] at r1
  have r2 := r1.step (.response (sampleResponse 200 []) (List.nil_append _).symm hinvite answer) (hanswer _ _ rfl)
  have hnone : writes (sampleCall.handle sampleEnv ⟨Tsx.new, []⟩).2.calls = [] := (handle_initial sampleEnv sampleCall).2
  have hone : (writes ((sampleResponse 200 []).handle sampleEnv
    ⟨(sampleCall.handle sampleEnv ⟨Tsx.new, []⟩).2.tsx, []⟩).2.calls).map (·.type) = [.BEGIN] := by decide +kernel
  obtain ⟨clr, hclr, htype⟩ := List.map_eq_singleton_iff.mp hone
  refine ⟨_, _, r2, rfl, rfl, ⟨clr, ?_, htype⟩, rfl, rfl, rfl, ?_, rfl⟩
  · simp only [hnone, hclr]
    rfl
  · decide +kernel

/-- Its call can be ended once more. -/
theorem bye_run {allowed : Server ℕ Bool Cells → ServerEvent ℕ → Prop} {s₀ s : Server ℕ Bool Cells} {t : AppServerTsx ℕ}
    (run : ServerRun sampleEnv ⟨0, 604800, true⟩ (lastWriteStore (· < ·)) allowed s₀ s) (ht : t ∈ s.transactions)
    (hi : t.initial = true) (hm : t.req.method = .INVITE) (hd : t.dialogId = sampleBye.dialogId)
    (hbye : allowed s (.inDialogRequest t.dialog true sampleBye)) :
    ∃ s' u clr, ServerRun sampleEnv ⟨0, 604800, true⟩ (lastWriteStore (· < ·)) allowed s₀ s' ∧
      s'.transactions = s.transactions ++ [u] ∧ s'.admitted = s.admitted ∧ s'.pool = s.pool.submit clr ∧
      clr.type = .END ∧ u.dialog = t.dialog ∧ u.req = sampleBye.req ∧ u.tsx.includesInitialRequest = false := by
  obtain ⟨hincludes, ⟨-, clr, hw, htype⟩ | ⟨hn, -⟩⟩ := handle_inDialog sampleEnv sampleBye
  · have run' := run.step (.inDialogRequest true sampleBye ht hi hm hd.symm) hbye
    rw [receive_eq _ _ _ _ rfl, hw] at run'
    exact ⟨_, _, clr, run', rfl, rfl, rfl, htype, rfl, rfl, hincludes⟩
  · exact absurd ⟨rfl, by decide⟩ hn

/-- And the workers can write all that is queued. -/
theorem drained_run {allowed : Server ℕ Bool Cells → ServerEvent ℕ → Prop} {s₀ s : Server ℕ Bool Cells}
    (run : ServerRun sampleEnv ⟨0, 604800, true⟩ (lastWriteStore (· < ·)) allowed s₀ s) (hwork : ∀ s, allowed s .work)
    (hidle : ∀ w, s.pool.worker w = .idle) :
    ∃ p, ServerRun sampleEnv ⟨0, 604800, true⟩ (lastWriteStore (· < ·)) allowed s₀ { s with pool := p } ∧ p.Drained ∧
      submissions p.trace = submissions s.pool.trace ∧
      successes p.trace = s.pool.queue.reverse ++ successes s.pool.trace :=
  run.process_all hwork rfl rfl ⟨0, trivial⟩ (fun _ _ _ => ⟨_, Or.inl rfl⟩) hidle

end Memento
