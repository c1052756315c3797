import Mathlib.Data.Set.Card
import Memento.Theorems.Server

/-! Completed calls. The counter counts the ENDs that are written, so it counts calls once each in runs in which a BYE
    ends only a call that was answered, and is the first BYE of its dialog. -/

namespace Memento
open Text Handler

section Dialogs
variable {D W σ : Type} {s₀ s s' : Server D W σ} {event : ServerEvent D}

/-- Whose initial INVITE received a 2xx response. -/
def Server.answeredDialogs (s : Server D W σ) : Set D :=
  {d | ∃ t ∈ s.transactions, t.dialog = d ∧ t.isCall = true ∧
    ∃ rsp ∈ t.responses, 200 ≤ rsp.statusCode ∧ rsp.statusCode < 300}

/-- A fragment of the type that the dialog queued was written. -/
def Server.Contributes (s : Server D W σ) (type : FragmentType) (d : D) : Prop :=
  ∃ t ∈ s.transactions, t.dialog = d ∧ ∃ clr ∈ t.written, clr.type = type ∧ clr ∈ successes s.pool.trace

structure Server.CountsOnce (s : Server D W σ) : Prop where
  completedCalls : (s.pool.completedCalls : ℕ∞) ≤ s.answeredDialogs.encard
  disjoint : ∀ d, ¬(s.Contributes .END d ∧ s.Contributes .REJECTED d)

/-- The first final response to the call is a 2xx one. -/
def AppServerTsx.accepted (t : AppServerTsx D) : Prop :=
  t.isCall = true ∧ ∃ rsp, t.firstFinal = some rsp ∧ rsp.statusCode < 300

/-- A BYE that ends a call is the first BYE of its dialog, after the call was accepted. -/
def EndsOnce (s : Server D W σ) : ServerEvent D → Prop
  | .inDialogRequest dialog _ e => e.EndsCall →
    (∃ t ∈ s.transactions, t.dialog = dialog ∧ t.accepted) ∧
    ∀ t ∈ s.transactions, t.dialog = dialog → t.initial = false → t.req.method ≠ .BYE
  | .initialRequest _ _ _ | .response _ _ | .work => True

/-! ### Dialogs that begin and end -/

/-- It queued an END. -/
def AppServerTsx.ends (t : AppServerTsx D) : Bool := !t.initial && !t.written.isEmpty

def dialogsOf (p : AppServerTsx D → Bool) (transactions : List (AppServerTsx D)) : List D :=
  (transactions.filter p).map AppServerTsx.dialog

section Lists
variable {p : AppServerTsx D → Bool} {t t' : AppServerTsx D} {transactions : List (AppServerTsx D)}

theorem mem_dialogsOf {d : D} : d ∈ dialogsOf p transactions ↔ ∃ t ∈ transactions, p t = true ∧ t.dialog = d := by
  simp [dialogsOf, and_assoc]

theorem dialogsOf_concat :
    dialogsOf p (transactions ++ [t]) = dialogsOf p transactions ++ if p t = true then [t.dialog] else [] := by
  rw [dialogsOf, List.filter_append, List.map_append, dialogsOf, List.filter_singleton]
  cases p t <;> rfl

theorem nodup_concat (h : (dialogsOf p transactions).Nodup) (ht : p t = true → t.dialog ∉ dialogsOf p transactions) :
    (dialogsOf p (transactions ++ [t])).Nodup := by
  rw [dialogsOf_concat]
  split
  · rename_i hp
    exact List.nodup_append'.mpr ⟨h, List.nodup_singleton _, by simpa using ht hp⟩
  · rwa [List.append_nil]

theorem dialogsOf_replace (hp : p t' = p t) (hd : t'.dialog = t.dialog) (before after : List (AppServerTsx D)) :
    dialogsOf p (before ++ t' :: after) = dialogsOf p (before ++ t :: after) := by
  rw [dialogsOf, dialogsOf, List.filter_append, List.filter_append, List.filter_cons, List.filter_cons, hp]
  split
  · rw [List.map_append, List.map_append, List.map_cons, List.map_cons, hd]
  · rfl

end Lists

/-- Each dialog begins once and ends at most once, after its call was accepted; nothing else is submitted as an END. -/
structure Server.Ordered (s : Server D W σ) : Prop where
  initial : (dialogsOf AppServerTsx.initial s.transactions).Nodup
  ended : (dialogsOf AppServerTsx.ends s.transactions).Nodup
  accepted : ∀ d ∈ dialogsOf AppServerTsx.ends s.transactions, ∃ t ∈ s.transactions, t.dialog = d ∧ t.accepted
  submissions : (submissions s.pool.trace).countP (·.type = .END) = (dialogsOf AppServerTsx.ends s.transactions).length

theorem AppServerTsx.Sound.not_ends {t : AppServerTsx D} (h : t.Sound) (hm : t.req.method ≠ .BYE) : t.ends = false := by
  cases hi : t.initial with
  | true => simp [AppServerTsx.ends, hi]
  | false =>
    rcases h.inDialog hi with hw | ⟨hbye, -⟩
    · simp [AppServerTsx.ends, hw]
    · exact absurd hbye hm

theorem AppServerTsx.accepted.respond {t : AppServerTsx D} (h : t.accepted) (rsp : Response) (c : Ctx) :
    (t.respond rsp c).accepted := by
  obtain ⟨hcall, rsp', hfirst, hcode⟩ := h
  exact ⟨hcall, rsp', by rw [firstFinal_respond, hfirst, Option.some_or], hcode⟩

theorem fragmentType_ne_end (rsp : Response) : rsp.fragmentType ≠ .END := by
  unfold Response.fragmentType
  split <;> nofun

/-- No response ends a dialog. -/
theorem AppServerTsx.Sound.ends_respond {env : Env} {t : AppServerTsx D} {e : ResponseEvent} (h : t.Sound)
    (hm : findCseq e.rsp.hdrs = some t.req.method) (ho : (e.handle env ⟨t.tsx, []⟩).1 ≠ .error .bufferOverflow) :
    (t.respond e.rsp (e.handle env ⟨t.tsx, []⟩).2).ends = t.ends ∧
      (writes (e.handle env ⟨t.tsx, []⟩).2.calls).countP (·.type = .END) = 0 := by
  rcases h.respond_cases hm ho with ⟨-, hw, -⟩ | ⟨hcall, -, -, -, -, -, hw⟩
  · rw [AppServerTsx.ends, AppServerTsx.respond, hw, List.append_nil, AppServerTsx.ends]
    exact ⟨rfl, rfl⟩
  · have hi : t.initial = true := (Bool.and_eq_true_iff.mp hcall).1
    refine ⟨by simp [AppServerTsx.ends, AppServerTsx.respond, hi], ?_⟩
    rw [hw]
    split
    · simp [fragmentRequest, fragmentType_ne_end]
    · rfl

/-- What a request adds: a dialog that begins, one that ends, or neither. -/
theorem Begins.dialogs {t : AppServerTsx D} (h : Begins s event t) (sound : ∀ t ∈ s.transactions, t.Sound)
    (ha : EndsOnce s event) :
    (t.initial = true → t.dialog ∉ dialogsOf AppServerTsx.initial s.transactions) ∧
    (t.ends = true → t.dialog ∉ dialogsOf AppServerTsx.ends s.transactions ∧
      ∃ u ∈ s.transactions, u.dialog = t.dialog ∧ u.accepted) ∧
    t.written.countP (·.type = .END) = if t.ends = true then 1 else 0 := by
  cases h with
  | initial admitRequest e hd fresh hi hs hw =>
    refine ⟨fun _ hmem => ?_, fun hends => ?_, ?_⟩
    · obtain ⟨u, hu, -, hdialog⟩ := mem_dialogsOf.mp hmem
      exact fresh u hu (hdialog.trans hd)
    · simp [AppServerTsx.ends, hi] at hends
    · simp [AppServerTsx.ends, hi, hw]
  | inDialog admitRequest e hd ongoing hi hreq hgranted hw =>
    refine ⟨fun hn => absurd (hi.symm.trans hn) (by decide), fun hends => ?_, ?_⟩
    · rcases hw with ⟨hcall, -⟩ | ⟨-, hw⟩
      · obtain ⟨haccepted, hfirst⟩ := ha hcall
        rw [hd]
        refine ⟨fun hmem => ?_, haccepted⟩
        obtain ⟨u, hu, hends', hdialog⟩ := mem_dialogsOf.mp hmem
        have hui : u.initial = false := by
          rw [AppServerTsx.ends, Bool.and_eq_true, Bool.not_eq_true'] at hends'
          exact hends'.1
        rw [(sound u hu).not_ends (hfirst u hu hdialog hui)] at hends'
        cases hends'
      · simp [AppServerTsx.ends, hw] at hends
    · rcases hw with ⟨-, clr, hw, htype⟩ | ⟨-, hw⟩
      · simp [AppServerTsx.ends, hi, hw, htype]
      · simp [AppServerTsx.ends, hw]

theorem accepted_answered {t : AppServerTsx D} (ht : t ∈ s.transactions) (h : t.accepted) :
    t.dialog ∈ s.answeredDialogs := by
  obtain ⟨hcall, rsp, hfirst, hcode⟩ := h
  exact ⟨t, ht, rfl, hcall, rsp, List.mem_of_find?_eq_some hfirst, by simpa using List.find?_some hfirst, hcode⟩

theorem Server.Ordered.length_le (h : s.Ordered) :
    ((dialogsOf AppServerTsx.ends s.transactions).length : ℕ∞) ≤ s.answeredDialogs.encard := by
  classical
  have hsubset : ((dialogsOf AppServerTsx.ends s.transactions).toFinset : Set D) ⊆ s.answeredDialogs := fun d hd => by
    obtain ⟨t, ht, rfl, haccepted⟩ := h.accepted d (List.mem_toFinset.mp hd)
    exact accepted_answered ht haccepted
  rw [← List.toFinset_card_of_nodup h.ended, ← Set.encard_coe_eq_coe_finsetCard]
  exact Set.encard_le_encard hsubset

theorem Server.Ordered.disjoint (h : s.Ordered) (sound : ∀ t ∈ s.transactions, t.Sound) (d : D) :
    ¬(s.Contributes .END d ∧ s.Contributes .REJECTED d) := by
  rintro ⟨⟨t, ht, hd, clr, hclr, hend, -⟩, ⟨u, hu, hd', clr', hclr', hrejected, -⟩⟩
  have hti : t.initial = false := by
    by_contra hi
    obtain ⟨rsp, -, htype⟩ := (sound t ht).initial (by simpa using hi) clr hclr
    exact fragmentType_ne_end rsp (htype.symm.trans hend)
  have hui : u.initial = true := by
    by_contra hi
    rcases (sound u hu).inDialog (by simpa using hi) with hw | ⟨-, x, hw, hx⟩
    · rw [hw] at hclr'
      cases hclr'
    · rw [hw, List.mem_singleton] at hclr'
      rw [hclr', hx] at hrejected
      cases hrejected
  have hends : t.ends = true := by
    cases hw : t.written with
    | nil => rw [hw] at hclr; cases hclr
    | cons => simp [AppServerTsx.ends, hti, hw]
  -- The dialog has one initial request: what is accepted is what is rejected.
  obtain ⟨v, hv, hdialog, hcall, rsp, hfirst, hcode⟩ := h.accepted d (mem_dialogsOf.mpr ⟨t, ht, hends, hd⟩)
  have hvi : v.initial = true := (Bool.and_eq_true_iff.mp hcall).1
  obtain rfl : u = v := List.inj_on_of_nodup_map h.initial (List.mem_filter.mpr ⟨hu, hui⟩) (List.mem_filter.mpr ⟨hv, hvi⟩)
    (hd'.trans hdialog.symm)
  obtain ⟨rsp', hfirst', htype⟩ := (sound u hu).initial hui clr' hclr'
  rw [hfirst] at hfirst'
  cases hfirst'
  rw [hrejected, Response.fragmentType, if_neg (not_le.mpr hcode)] at htype
  cases htype

variable [DecidableEq W] {env : Env} {config : PoolConfig} {outside : Outside σ}

theorem Server.Ordered.step (h : s.Ordered) (sound : ∀ t ∈ s.transactions, t.Sound)
    (step : ServerStep env config outside s event s') (ha : EndsOnce s event) : s'.Ordered := by
  rcases step.cases with ⟨ht, -, hsubmitted⟩ | ⟨t, begins, -, -, ht, -, hsubmitted⟩ |
    ⟨before, t, after, e, rfl, ht, hm, ho, ht', -, hsubmitted⟩
  · exact ⟨by rw [ht]; exact h.initial, by rw [ht]; exact h.ended, by rw [ht]; exact h.accepted,
      by rw [hsubmitted, ht, h.submissions]⟩
  · obtain ⟨hbegins, hends, hcount⟩ := begins.dialogs sound ha
    refine ⟨?_, ?_, fun d hd => ?_, ?_⟩
    · rw [ht]
      exact nodup_concat h.initial hbegins
    · rw [ht]
      exact nodup_concat h.ended fun he => (hends he).1
    · have hold : ∃ u ∈ s.transactions, u.dialog = d ∧ u.accepted := by
        rw [ht] at hd
        obtain ⟨u, hu, he, rfl⟩ := mem_dialogsOf.mp hd
        rcases List.mem_append.mp hu with hu | hu
        · exact h.accepted _ (mem_dialogsOf.mpr ⟨u, hu, he, rfl⟩)
        · obtain rfl := List.mem_singleton.mp hu
          exact (hends he).2
      obtain ⟨u, hu, hdialog, haccepted⟩ := hold
      exact ⟨u, by rw [ht]; exact List.mem_append_left _ hu, hdialog, haccepted⟩
    · rw [hsubmitted, List.countP_append, List.countP_reverse, hcount, h.submissions, ht, dialogsOf_concat,
        List.length_append, Nat.add_comm]
      split <;> rfl
  · have hkept := (sound t (by simp [ht])).ends_respond hm ho
    have hinitial : dialogsOf AppServerTsx.initial s'.transactions = dialogsOf AppServerTsx.initial s.transactions := by
      rw [ht', ht]
      refine dialogsOf_replace ?_ ?_ before after
      · rfl
      · rfl
    have hended : dialogsOf AppServerTsx.ends s'.transactions = dialogsOf AppServerTsx.ends s.transactions := by
      rw [ht', ht]
      exact dialogsOf_replace hkept.1 rfl before after
    refine ⟨hinitial ▸ h.initial, hended ▸ h.ended, fun d hd => ?_, ?_⟩
    · obtain ⟨u, hu, hdialog, haccepted⟩ := h.accepted d (hended ▸ hd)
      rw [ht, List.mem_append, List.mem_cons] at hu
      rw [ht']
      rcases hu with hu | rfl | hu
      · exact ⟨u, List.mem_append_left _ hu, hdialog, haccepted⟩
      · exact ⟨_, List.mem_append_right _ (.head _), hdialog, haccepted.respond _ _⟩
      · exact ⟨u, List.mem_append_right _ (.tail _ hu), hdialog, haccepted⟩
    · rw [hsubmitted, List.countP_append, List.countP_reverse, hkept.2, Nat.zero_add, h.submissions, hended]

theorem ServerRun.ordered (run : ServerRun env config outside EndsOnce s₀ s) (h0 : s₀.Initial) : s.Ordered := by
  refine run.invariant ?_ fun run ih step ha => ih.step (run.sound h0) step ha
  refine ⟨?_, ?_, ?_, ?_⟩
  · rw [h0.transactions]
    exact List.nodup_nil
  · rw [h0.transactions]
    exact List.nodup_nil
  · rw [h0.transactions]
    exact nofun
  · rw [h0.transactions, h0.pool.trace]
    rfl

/-- In a run of such steps every completed call is one that was answered, and is counted once. -/
theorem completedCalls_once [Fintype W] (h0 : s₀.Initial) (run : ServerRun env config outside EndsOnce s₀ s) :
    s.CountsOnce := by
  have ordered := run.ordered h0
  refine ⟨?_, ordered.disjoint (run.sound h0)⟩
  have reachable := run.reachable h0
  have hcounted := reachable.counter_balance (·.type = .END) (fun _ _ => rfl) Acted.completedCalls
  have hsubmitted := reachable.attempts_balance (·.type = .END)
  have hwritten := (successes_sublist s.pool.trace).countP_le (p := (·.type = .END))
  have hle : s.pool.completedCalls ≤ (dialogsOf AppServerTsx.ends s.transactions).length := by
    rw [← ordered.submissions]
    rw [h0.completedCalls] at hcounted
    omega
  exact (Nat.cast_le.mpr hle).trans ordered.length_le

end Dialogs

/-- A call that is answered, and its BYE. -/
theorem completedCalls_once_sample : ∃ s : Server ℕ Bool Cells,
    ServerRun sampleEnv ⟨0, 604800, true⟩ (lastWriteStore (· < ·)) EndsOnce (.new fun _ => .empty) s ∧
      s.pool.completedCalls = 1 ∧ s.CountsOnce := by
  obtain ⟨s, t, run, answered⟩ := answered_run EndsOnce (fun _ => trivial) fun _ _ _ => trivial
  obtain ⟨clr, hpool, htype⟩ := answered.pool
  have ht : t ∈ s.transactions := by rw [answered.transactions]; exact .head _
  have haccepted : t.accepted := by
    refine ⟨by simp [AppServerTsx.isCall, answered.initial, answered.method], (sampleResponse 200 []).rsp, ?_, by decide⟩
    rw [AppServerTsx.firstFinal, answered.responses]
    rfl
  have hfirst : ∀ u ∈ s.transactions, u.dialog = t.dialog → u.initial = false → u.req.method ≠ .BYE := by
    rw [answered.transactions, List.forall_mem_singleton]
    exact fun _ hi => absurd (answered.initial.symm.trans hi) (by decide)
  obtain ⟨s', u, clr', run', -, -, hpool', htype', -⟩ := bye_run run ht answered.initial answered.method answered.dialogId
    fun _ => ⟨⟨t, ht, rfl, haccepted⟩, hfirst⟩
  obtain ⟨p, run'', drained, -, hwritten⟩ := drained_run run' (fun _ => trivial) fun _ => by rw [hpool', hpool]; rfl
  refine ⟨_, run'', ?_, completedCalls_once (Server.initial_new _) run''⟩
  have hcounted := (run''.reachable (Server.initial_new _)).counter_drained drained (fun _ _ => rfl) Acted.completedCalls
  rw [hwritten, hpool', hpool] at hcounted
  simpa [Pool.new, Server.new, successes, htype, htype'] using hcounted

/-- Two BYEs that cross: one call, counted twice. -/
theorem crossingByes_countedTwice : ∃ s : Server ℕ Bool Cells,
    ServerRun sampleEnv ⟨0, 604800, true⟩ (lastWriteStore (· < ·)) (fun _ _ => True) (.new fun _ => .empty) s ∧
      s.pool.completedCalls = 2 ∧ s.answeredDialogs ⊆ {0} ∧ ¬s.CountsOnce := by
  obtain ⟨s, t, run, answered⟩ := answered_run (fun _ _ => True) (fun _ => trivial) fun _ _ _ => trivial
  obtain ⟨clr, hpool, htype⟩ := answered.pool
  have ht : t ∈ s.transactions := by rw [answered.transactions]; exact .head _
  obtain ⟨s₁, u₁, clr₁, run₁, ht₁, -, hpool₁, htype₁, hd₁, -⟩ :=
    bye_run run ht answered.initial answered.method answered.dialogId trivial
  obtain ⟨s₂, u₂, clr₂, run₂, ht₂, -, hpool₂, htype₂, hd₂, -⟩ :=
    bye_run run₁ (by rw [ht₁]; exact List.mem_append_left _ ht) answered.initial answered.method answered.dialogId trivial
  obtain ⟨p, run₃, drained, -, hwritten⟩ := drained_run run₂ (fun _ => trivial) fun _ => by
    rw [hpool₂, hpool₁, hpool]
    rfl
  have hcounted := (run₃.reachable (Server.initial_new _)).counter_drained drained (fun _ _ => rfl) Acted.completedCalls
  rw [hwritten, hpool₂, hpool₁, hpool] at hcounted
  have htwo : p.completedCalls = 2 := by
    simpa [Pool.new, Server.new, successes, htype, htype₁, htype₂] using hcounted
  have hone : Server.answeredDialogs { s₂ with pool := p } ⊆ {0} := by
    rintro d ⟨u, hu, rfl, -⟩
    have hu : u ∈ [t] ++ [u₁] ++ [u₂] := by rwa [← answered.transactions, ← ht₁, ← ht₂]
    have hdialog : t.dialog = 0 := answered.dialog
    simp only [List.mem_append, List.mem_singleton] at hu
    rcases hu with (rfl | rfl) | rfl
    · exact hdialog
    · exact hd₁.trans hdialog
    · exact hd₂.trans hdialog
  refine ⟨_, run₃, htwo, hone, fun once => ?_⟩
  have hle : ((2 : ℕ) : ℕ∞) ≤ 1 := by
    rw [← htwo, ← Set.encard_singleton (0 : ℕ)]
    exact once.completedCalls.trans (Set.encard_le_encard hone)
  exact absurd hle (by decide)

end Memento
