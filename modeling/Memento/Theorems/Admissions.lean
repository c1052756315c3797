import Memento.Theorems.Accounting
import Memento.Theorems.Server

/-! Admissions and completions. `admit_request` is asked for every INVITE, and `request_complete` is called for every
    fragment, so the two are paired in runs in which each admitted INVITE queues one fragment, and nothing else does. -/

namespace Memento
open Text Handler

section Server
variable {D W σ : Type} {s₀ s s' : Server D W σ} {event : ServerEvent D}

/-- Every transaction has had a final response, and no request is queued or in work. -/
structure Server.Quiescent (s : Server D W σ) : Prop where
  answered : ∀ t ∈ s.transactions, ∃ rsp ∈ t.responses, 200 ≤ rsp.statusCode
  drained : s.pool.Drained

/-- No more completions than admissions, and as many of each when all is done. -/
structure Server.Balanced (s : Server D W σ) : Prop where
  atMost : (completions s.pool.trace).length ≤ s.admitted
  equal : s.Quiescent → (completions s.pool.trace).length = s.admitted

/-- No INVITE is admitted in a dialog, no BYE ends a call, and the first final response to an initial INVITE is written. -/
def PairsAdmissions (env : Env) : ServerEvent D → Prop
  | .initialRequest _ _ _ | .work => True
  | .inDialogRequest _ admitRequest e => ¬(e.req.method = .INVITE ∧ admitRequest = true) ∧ ¬e.EndsCall
  | .response t e => t.tsx.Waiting → e.rsp.isFinal = true → ResponseFits env t.tsx e.currenttime e.rsp

def AppServerTsx.recorded (t : AppServerTsx D) : Bool := t.isCall && t.tsx.storedEntry

/-- The initial INVITEs are what was admitted, and those with a final response are what was queued. -/
structure Server.Paired (s : Server D W σ) : Prop where
  admitted : s.admitted = s.transactions.countP AppServerTsx.isCall
  submissions : (submissions s.pool.trace).length = s.transactions.countP AppServerTsx.recorded

theorem Begins.paired {env : Env} {t : AppServerTsx D} (h : Begins s event t) (ha : PairsAdmissions env event) :
    t.written = [] ∧ t.recorded = false ∧ (t.isCall = true ↔ t.req.method = .INVITE) := by
  cases h with
  | initial admitRequest e hd fresh hi hs hw =>
    refine ⟨hw, ?_, ?_⟩
    · simp [AppServerTsx.recorded, hs]
    · simp [AppServerTsx.isCall, hi]
  | inDialog admitRequest e hd ongoing hi hreq hgranted hw =>
    obtain ⟨hreinvite, hbye⟩ := ha
    rcases hw with ⟨hends, -⟩ | ⟨-, hw⟩
    · exact absurd hends hbye
    · have hm : t.req.method ≠ .INVITE := fun hm => by
        rw [hreq] at hm
        exact hreinvite ⟨hm, hgranted hm⟩
      refine ⟨hw, ?_, ?_⟩
      · simp [AppServerTsx.recorded, AppServerTsx.isCall, hi]
      · simp [AppServerTsx.isCall, hi, hm]

/-- A response that can be written is, if it is what the transaction waits for. -/
theorem AppServerTsx.Sound.recorded_respond {env : Env} {t : AppServerTsx D} {e : ResponseEvent} (h : t.Sound)
    (hm : findCseq e.rsp.hdrs = some t.req.method) (ho : (e.handle env ⟨t.tsx, []⟩).1 ≠ .error .bufferOverflow)
    (ha : PairsAdmissions env (.response t e)) :
    (if (t.respond e.rsp (e.handle env ⟨t.tsx, []⟩).2).recorded = true then 1 else 0) =
      (writes (e.handle env ⟨t.tsx, []⟩).2.calls).length + if t.recorded = true then 1 else 0 := by
  rcases h.respond_cases hm ho with ⟨htsx, hw, -⟩ | ⟨hcall, hwaiting, hfinal, -, -, hs, hw⟩
  · have hrecorded : (t.respond e.rsp (e.handle env ⟨t.tsx, []⟩).2).recorded = t.recorded :=
      congrArg (fun tsx : Tsx => t.isCall && tsx.storedEntry) htsx
    rw [hw, hrecorded, List.length_nil, Nat.zero_add]
  · have hbefore : t.recorded = false := by simp [AppServerTsx.recorded, hwaiting.2]
    have hafter : (t.respond e.rsp (e.handle env ⟨t.tsx, []⟩).2).recorded = true := Bool.and_eq_true_iff.mpr ⟨hcall, hs⟩
    rw [hw, if_pos (ha hwaiting hfinal), hbefore, hafter]
    rfl

variable [DecidableEq W] {env : Env} {config : PoolConfig} {outside : Outside σ}

theorem Server.Paired.step (h : s.Paired) (sound : ∀ t ∈ s.transactions, t.Sound)
    (step : ServerStep env config outside s event s') (ha : PairsAdmissions env event) : s'.Paired := by
  rcases step.cases with ⟨ht, hadmitted, hsubmitted⟩ | ⟨t, begins, -, -, ht, hadmitted, hsubmitted⟩ |
    ⟨before, t, after, e, rfl, ht, hm, ho, ht', hadmitted, hsubmitted⟩
  · refine ⟨?_, ?_⟩
    · rw [hadmitted, ht, h.admitted]
    · rw [hsubmitted, ht, h.submissions]
  · obtain ⟨hw, hrecorded, hcall⟩ := begins.paired ha
    refine ⟨?_, ?_⟩
    · rw [hadmitted, ht, List.countP_append, h.admitted, List.countP_singleton]
      simp only [hcall]
    · rw [hsubmitted, ht, List.countP_append, hw, List.countP_singleton, hrecorded]
      exact h.submissions
  · have hsame : (t.respond e.rsp (e.handle env ⟨t.tsx, []⟩).2).isCall = t.isCall := rfl
    have hrecorded := (sound t (by simp [ht])).recorded_respond hm ho ha
    have hadm := h.admitted
    have hsub := h.submissions
    rw [ht, List.countP_append, List.countP_cons] at hadm hsub
    refine ⟨?_, ?_⟩
    · rw [hadmitted, ht', List.countP_append, List.countP_cons, hsame, hadm]
    · rw [hsubmitted, ht', List.countP_append, List.countP_cons, hrecorded, List.length_append, List.length_reverse, hsub]
      omega

theorem ServerRun.paired (run : ServerRun env config outside (fun _ => PairsAdmissions env) s₀ s) (h0 : s₀.Initial) :
    s.Paired := by
  refine run.invariant ⟨?_, ?_⟩ fun run ih step ha => ih.step (run.sound h0) step ha
  · rw [h0.admitted, h0.transactions]
    rfl
  · rw [h0.pool.trace, h0.transactions]
    rfl

variable [Fintype W]

/-- In a run of such steps admissions and completions are paired. -/
theorem admissions_paired (h0 : s₀.Initial) (run : ServerRun env config outside (fun _ => PairsAdmissions env) s₀ s) :
    s.Balanced := by
  have paired := run.paired h0
  have balance := (run.reachable h0).completions_balance fun _ => true
  simp only [List.countP_true] at balance
  refine ⟨?_, fun quiescent => ?_⟩
  · have hle : s.transactions.countP AppServerTsx.recorded ≤ s.transactions.countP AppServerTsx.isCall :=
      List.countP_mono_left fun t _ ht => (Bool.and_eq_true_iff.mp ht).1
    rw [← paired.submissions, ← paired.admitted] at hle
    omega
  · have heq : s.transactions.countP AppServerTsx.recorded = s.transactions.countP AppServerTsx.isCall := by
      refine List.countP_congr fun t ht => ?_
      obtain ⟨rsp, hrsp, hcode⟩ := quiescent.answered t ht
      have hfirst : t.firstFinal.isSome = true := List.find?_isSome.mpr ⟨rsp, hrsp, by simpa using hcode⟩
      rw [AppServerTsx.recorded, Bool.and_eq_true]
      refine ⟨And.left, fun hcall => ⟨hcall, ?_⟩⟩
      rw [(run.sound h0 t ht).storedEntry hcall, hfirst]
    rw [← paired.submissions, ← paired.admitted] at heq
    rw [quiescent.drained.queue, quiescent.drained.total rfl] at balance
    simp only [List.length_nil] at balance
    omega

end Server

/-- An INVITE that is answered. -/
theorem admissions_paired_sample : ∃ s : Server ℕ Bool Cells,
    ServerRun sampleEnv ⟨0, 604800, true⟩ (lastWriteStore (· < ·)) (fun _ => PairsAdmissions sampleEnv)
      (.new fun _ => .empty) s ∧
      s.Quiescent ∧ (completions s.pool.trace).length = 1 ∧ s.Balanced := by
  have fits : ResponseFits sampleEnv (sampleCall.handle sampleEnv ⟨Tsx.new, []⟩).2.tsx 0 (sampleResponse 200 []).rsp := by
    decide +kernel
  obtain ⟨s, t, run, answered⟩ := answered_run (fun _ => PairsAdmissions sampleEnv) (fun _ => trivial)
    fun s t ht _ _ => by rw [ht]; exact fits
  obtain ⟨clr, hpool, -⟩ := answered.pool
  obtain ⟨p, run', drained, -⟩ := drained_run run (fun _ => trivial) fun _ => by rw [hpool]; rfl
  have balanced := admissions_paired (Server.initial_new _) run'
  have quiescent : Server.Quiescent { s with pool := p } := by
    refine ⟨?_, drained⟩
    rw [answered.transactions, List.forall_mem_singleton, answered.responses]
    exact ⟨_, .head _, by decide⟩
  exact ⟨_, run', quiescent, (balanced.equal quiescent).trans answered.admitted, balanced⟩

def byeResponse : ResponseEvent := ⟨0, ⟨200, [.cseq .BYE]⟩, 0⟩

/-- An INVITE that is answered, and a BYE: one admission and two completions. -/
theorem sampleBye_unbalanced : ∃ s : Server ℕ Bool Cells,
    ServerRun sampleEnv ⟨0, 604800, true⟩ (lastWriteStore (· < ·)) (fun _ _ => True) (.new fun _ => .empty) s ∧
      s.Quiescent ∧ s.admitted = 1 ∧ (completions s.pool.trace).length = 2 ∧ ¬s.Balanced := by
  obtain ⟨s, t, run, answered⟩ := answered_run (fun _ _ => True) (fun _ => trivial) fun _ _ _ => trivial
  obtain ⟨clr, hpool, -⟩ := answered.pool
  obtain ⟨s', u, clr', run', ht, hadmitted, hpool', -, -, hreq, hincludes⟩ :=
    bye_run run (by rw [answered.transactions]; exact .head _) answered.initial answered.method answered.dialogId trivial
  have hm : findCseq byeResponse.rsp.hdrs = some u.req.method := by rw [hreq]; rfl
  have hn : ¬u.tsx.Waiting := fun hw => absurd (hincludes.symm.trans hw.1) (by decide)
  have forward : byeResponse.handle sampleEnv ⟨u.tsx, []⟩ = (.ok (), ⟨u.tsx, [.sendResponse byeResponse.rsp]⟩) :=
    onResponse_forward _ _ _ _ _ fun h => hn h.1
  rw [answered.transactions] at ht
  have run'' := run'.step (.response byeResponse ht hm (by rw [forward]; simp)) trivial
  have hw : writes (byeResponse.handle sampleEnv ⟨u.tsx, []⟩).2.calls = [] := by rw [forward]; rfl
  rw [hw] at run''
  obtain ⟨p, run'', drained, hsubmitted, -⟩ := drained_run run'' (fun _ => trivial) fun _ => by
    simp only [Pool.submitAll, List.foldl_nil, hpool', hpool]
    rfl
  have hlen : (completions p.trace).length = 2 := by
    rw [(run''.reachable (Server.initial_new _)).completions_length drained, hsubmitted]
    simp only [Pool.submitAll, List.foldl_nil, hpool', hpool]
    rfl
  refine ⟨_, run'', ⟨?_, drained⟩, hadmitted.trans answered.admitted, hlen, fun balanced => ?_⟩
  · refine List.forall_mem_cons.mpr ⟨?_, List.forall_mem_singleton.mpr ⟨_, List.mem_append_right _ (.head _), by decide⟩⟩
    rw [answered.responses]
    exact ⟨_, .head _, by decide⟩
  · have hle : (completions p.trace).length ≤ s'.admitted := balanced.atMost
    rw [hlen, hadmitted, answered.admitted] at hle
    exact absurd hle (by decide)

end Memento
