import Memento.Lib.Runs
import Memento.Theorems.CallRecords
import Memento.Theorems.Chronology
import Memento.Theorems.TrimDelete

/-! The server refines the call log. Whatever its events and however the workers interleave with them, what its
    transactions queue are the entries of the log, in order: read back, each request says what its entry says. -/

namespace Memento
open Text Handler Runs CallLog

section Server
variable {D W σ : Type}

/-- A run of the server, by its events. -/
abbrev ServerHistory [DecidableEq W] (env : Env) (config : PoolConfig) (outside : Outside σ) :
    Server D W σ → List (ServerEvent D) → Server D W σ → Prop :=
  Serial fun event s s' => ServerStep env config outside s event s'

/-- A request that can be logged: what is read of it fits the buffer, it names its caller, and it is for somebody. -/
structure Request.Loggable (req : Request) : Prop where
  fits : InitialFits Tsx.new req
  asserted : ¬req.Unasserted Tsx.new
  served : req.served.uri ≠ []

/-- An INVITE can be logged, and so can the answerer that a final response names. -/
def ServerEvent.Loggable : ServerEvent D → Prop
  | .initialRequest _ _ e => e.req.method = .INVITE → e.req.Loggable
  | .response _ e => 200 ≤ e.rsp.statusCode → e.rsp.AnswererFits
  | .inDialogRequest _ _ _ | .work => True

variable [DecidableEq D]

/-- The log of the events of a run. -/
def callLog (env : Env) (events : List (ServerEvent D)) : CallLog D := Log.ofEvents (events.filterMap (·.logged env))

/-- What the log says of the call of a transaction. -/
structure AppServerTsx.Logged (env : Env) (log : CallLog D) (t : AppServerTsx D) : Prop where
  call : log.call t.dialog = some t.tsx.callRecord
  settled : log.outcomes t.dialog = [] ↔ t.tsx.storedEntry = false
  dialogId : splitString t.dialogId 95 3 = [t.tsx.startTimeCassandra, t.tsx.uniqueId, env.base64.encode t.tsx.impu]

/-- The log has the calls of the server, each in a dialog of its own, and its entries are what was queued. -/
structure Server.Logged (env : Env) (s : Server D W σ) (log : CallLog D) : Prop where
  calls : ∀ t ∈ s.transactions, t.isCall = true → t.Logged env log
  fresh : ∀ d, (∀ t ∈ s.transactions, t.dialog ≠ d) → log.call d = none
  initial : (dialogsOf AppServerTsx.initial s.transactions).Nodup
  shown : (submissions s.pool.trace).reverse.map CallListRequest.shown = log.entries.map Entry.shown

variable {env : Env} {s s' : Server D W σ} {log : CallLog D} {t : AppServerTsx D} {event : ServerEvent D}

theorem AppServerTsx.Logged.record (h : t.Logged env log) {e : CallEvent D} (he : ∀ outcome, e ≠ .settled t.dialog outcome) :
    t.Logged env (log.record e) where
  call := (Log.call_record_iff log e).mpr (Or.inl h.call)
  settled := by rw [Log.outcomes_record he, h.settled]
  dialogId := h.dialogId

omit [DecidableEq D] in
theorem isCall_initial (h : t.isCall = true) : t.initial = true := (Bool.and_eq_true_iff.mp h).1

/-- A transaction that begins no call: nothing of the log depends on it. -/
theorem Server.Logged.concat_other (h : s.Logged env log) (ht : s'.transactions = s.transactions ++ [t])
    (hcall : t.isCall = false) (hinitial : t.initial = true → ∀ u ∈ s.transactions, u.dialog ≠ t.dialog)
    (hshown : (submissions s'.pool.trace).reverse.map CallListRequest.shown = log.entries.map Entry.shown) :
    s'.Logged env log := by
  refine ⟨fun u hu hc => ?_, fun d hd => h.fresh d fun u hu => hd u ?_, ?_, hshown⟩
  · rw [ht, List.mem_append, List.mem_singleton] at hu
    rcases hu with hu | rfl
    · exact h.calls u hu hc
    · rw [hcall] at hc
      cases hc
  · rw [ht]
    exact List.mem_append_left _ hu
  · rw [ht]
    refine nodup_concat h.initial fun hi hmem => ?_
    obtain ⟨u, hu, -, hd⟩ := mem_dialogsOf.mp hmem
    exact hinitial hi u hu hd

/-- An end of a call. -/
theorem Server.Logged.ended (h : s.Logged env log) (ht : t ∈ s.transactions) (hcall : t.isCall = true) (endTime : Bytes)
    {clr : CallListRequest} (hkey : clr.callKey = t.tsx.callKey) (htype : clr.type = .END)
    (hcontents : decode clr.contents = some (.ended endTime))
    (htransactions : s'.transactions = s.transactions)
    (hsubmitted : submissions s'.pool.trace = clr :: submissions s.pool.trace) :
    s'.Logged env (log.record (.ended t.dialog endTime)) := by
  have hrecord : log.record (.ended t.dialog endTime) =
      { log with entries := log.entries ++ [⟨t.dialog, t.tsx.callRecord, .ended endTime⟩] } :=
    Log.add_of_call (h.calls t ht hcall).call _
  refine ⟨fun u hu hc => ?_, fun d hd => ?_, ?_, ?_⟩
  · rw [htransactions] at hu
    exact (h.calls u hu hc).record fun outcome heq => by cases heq
  · rw [hrecord]
    exact h.fresh d (htransactions ▸ hd)
  · rw [htransactions]
    exact h.initial
  · simp only [CallListRequest.callKey, Tsx.callKey, Prod.mk.injEq] at hkey
    obtain ⟨himpu, htime, hid⟩ := hkey
    rw [hsubmitted, List.reverse_cons, List.map_append, h.shown, hrecord, List.map_append, List.append_cancel_left_eq]
    simp only [List.map_cons, List.map_nil, CallListRequest.shown, CallListRequest.callFragment, CallFragment.key, himpu,
      htime, hid, htype, hcontents, Entry.shown, Entry.key, Entry.recorded, Tsx.callRecord, Recorded.fragmentType]

/-- An INVITE that is admitted: its dialog is new. -/
theorem Server.Logged.placed (h : s.Logged env log) (fresh : ∀ u ∈ s.transactions, u.dialog ≠ t.dialog)
    (houtcomes : log.outcomes t.dialog = []) (hstored : t.tsx.storedEntry = false)
    (hid : splitString t.dialogId 95 3 = [t.tsx.startTimeCassandra, t.tsx.uniqueId, env.base64.encode t.tsx.impu])
    (ht : s'.transactions = s.transactions ++ [t])
    (hsubmitted : submissions s'.pool.trace = submissions s.pool.trace) :
    s'.Logged env (log.record (.placed t.dialog t.tsx.callRecord)) := by
  have hnone : log.call t.dialog = none := h.fresh t.dialog fresh
  refine ⟨fun u hu hc => ?_, fun d hd => ?_, ?_, ?_⟩
  · rw [ht, List.mem_append, List.mem_singleton] at hu
    rcases hu with hu | rfl
    · exact (h.calls u hu hc).record fun outcome heq => by cases heq
    · refine ⟨(Log.call_record_iff log _).mpr (Or.inr ⟨hnone, rfl⟩), ?_, hid⟩
      rw [Log.outcomes_record fun outcome heq => by cases heq]
      exact iff_of_true houtcomes hstored
  · have hd' : ∀ u ∈ s.transactions, u.dialog ≠ d := fun u hu => hd u (by rw [ht]; exact List.mem_append_left _ hu)
    have hne : t.dialog ≠ d := hd t (by rw [ht]; exact List.mem_append_right _ (.head _))
    rw [Option.eq_none_iff_forall_ne_some]
    intro c hc
    rcases (Log.call_record_iff log _).mp hc with hold | ⟨-, heq⟩
    · rw [h.fresh d hd'] at hold
      cases hold
    · exact hne (CallLog.Event.placed.inj heq).1
  · rw [ht]
    refine nodup_concat h.initial fun _ hmem => ?_
    obtain ⟨u, hu, -, hd⟩ := mem_dialogsOf.mp hmem
    exact fresh u hu hd
  · rw [hsubmitted, h.shown]
    exact congrArg (List.map _) (Log.entries_place log _ _).symm

variable {before after : List (AppServerTsx D)} {t' : AppServerTsx D}

omit [DecidableEq D] in
/-- A call is in a dialog of its own. -/
theorem dialog_ne_of_nodup (h : (dialogsOf AppServerTsx.initial (before ++ t :: after)).Nodup) (ht : t.isCall = true)
    {u : AppServerTsx D} (hu : u ∈ before ++ after) (hcall : u.isCall = true) : u.dialog ≠ t.dialog := by
  have hperm : (dialogsOf AppServerTsx.initial (before ++ t :: after)).Perm
      (t.dialog :: dialogsOf AppServerTsx.initial (before ++ after)) := by
    have hmiddle : (before ++ t :: after).Perm (t :: (before ++ after)) := List.perm_middle
    replace hmiddle := hmiddle.filter AppServerTsx.initial
    rw [List.filter_cons, if_pos (isCall_initial ht)] at hmiddle
    exact hmiddle.map AppServerTsx.dialog
  rw [hperm.nodup_iff, List.nodup_cons] at h
  intro hd
  exact h.1 (mem_dialogsOf.mpr ⟨u, hu, isCall_initial hcall, hd⟩)

/-- A response: one transaction goes on. -/
theorem Server.Logged.replace (h : s.Logged env log) {log' : CallLog D} (ht : s.transactions = before ++ t :: after)
    (ht' : s'.transactions = before ++ t' :: after) (hd : t'.dialog = t.dialog) (hi : t'.initial = t.initial)
    (hcall : log'.call = log.call) (hothers : ∀ u ∈ before ++ after, u.isCall = true → u.Logged env log')
    (hlogged : t'.isCall = true → t'.Logged env log')
    (hshown : (submissions s'.pool.trace).reverse.map CallListRequest.shown = log'.entries.map Entry.shown) :
    s'.Logged env log' := by
  refine ⟨fun u hu hc => ?_, fun d hnone => ?_, ?_, hshown⟩
  · rw [ht', List.mem_append, List.mem_cons] at hu
    rcases hu with hu | rfl | hu
    · exact hothers u (List.mem_append_left _ hu) hc
    · exact hlogged hc
    · exact hothers u (List.mem_append_right _ hu) hc
  · rw [hcall]
    refine h.fresh d fun u hu => ?_
    rw [ht, List.mem_append, List.mem_cons] at hu
    rw [ht'] at hnone
    rcases hu with hu | rfl | hu
    · exact hnone u (List.mem_append_left _ hu)
    · exact hd ▸ hnone t' (List.mem_append_right _ (.head _))
    · exact hnone u (List.mem_append_right _ (.tail _ hu))
  · rw [ht', dialogsOf_replace hi hd, ← ht]
    exact h.initial

/-- The first final response to a call. -/
theorem Server.Logged.settled (h : s.Logged env log) (ht : s.transactions = before ++ t :: after) (hcall : t.isCall = true)
    (hstored : t.tsx.storedEntry = false) {rsp : Response} {c : Ctx} (hrecord : c.tsx.callRecord = t.tsx.callRecord)
    (hstored' : c.tsx.storedEntry = true) (currenttime : ℤ)
    (hw : writes c.calls = [fragmentRequest env t.tsx currenttime rsp])
    (ht' : s'.transactions = before ++ t.respond rsp c :: after)
    (hsubmitted : submissions s'.pool.trace = (writes c.calls).reverse ++ submissions s.pool.trace) :
    s'.Logged env (log.record (.settled t.dialog (rsp.outcome env currenttime).text)) := by
  have hmem : t ∈ s.transactions := by rw [ht]; exact List.mem_append_right _ (.head _)
  have hlogged := h.calls t hmem hcall
  have hadd : log.record (.settled t.dialog (rsp.outcome env currenttime).text) =
      { log with entries := log.entries ++ [⟨t.dialog, t.tsx.callRecord, .settled (rsp.outcome env currenttime).text⟩] } := by
    rw [Log.record, if_pos (hlogged.settled.mpr hstored)]
    exact Log.add_of_call hlogged.call _
  refine h.replace ht ht' rfl rfl (by rw [hadd]) (fun u hu hc => ?_) (fun _ => ⟨?_, ?_, ?_⟩) ?_
  · have hne := dialog_ne_of_nodup (ht ▸ h.initial) hcall hu hc
    refine (h.calls u ?_ hc).record fun outcome heq => hne (CallLog.Event.settled.inj heq).1.symm
    rw [ht]
    simp only [List.mem_append, List.mem_cons] at hu ⊢
    exact hu.imp_right Or.inr
  · rw [hadd]
    exact hlogged.call.trans (congrArg some hrecord.symm)
  · refine iff_of_false ?_ (by simp [AppServerTsx.respond, hstored'])
    rw [hadd]
    simp [Log.outcomes, AppServerTsx.respond, Fact.isSettled]
  · have hsame := hrecord
    simp only [Tsx.callRecord, CallRecord.mk.injEq] at hsame
    obtain ⟨himpu, htime, hid, -⟩ := hsame
    rw [AppServerTsx.respond, himpu, htime, hid]
    exact hlogged.dialogId
  · rw [hsubmitted, hw, List.reverse_singleton, List.singleton_append, List.reverse_cons, List.map_append, h.shown, hadd,
      List.map_append, List.append_cancel_left_eq]
    simp only [List.map_cons, List.map_nil, CallListRequest.shown, CallListRequest.callFragment, CallFragment.key,
      decode_fragmentRequest, Entry.shown, Entry.key, Entry.recorded, fragmentType_outcome, Tsx.callRecord]
    rfl

theorem Server.Logged.of_eq (h : s.Logged env log) (ht : s'.transactions = s.transactions)
    (hsubmitted : submissions s'.pool.trace = submissions s.pool.trace) : s'.Logged env log :=
  ⟨ht ▸ h.calls, ht ▸ h.fresh, ht ▸ h.initial, hsubmitted ▸ h.shown⟩

/-! ### Steps -/

theorem callLog_append (env : Env) (events : List (ServerEvent D)) (event : ServerEvent D) :
    callLog env (events ++ [event]) = (event.logged env).toList.foldl Log.record (callLog env events) := by
  rw [callLog, List.filterMap_append, Log.ofEvents_append, callLog]
  cases h : event.logged env <;> simp [h]

theorem callLog_none {events : List (ServerEvent D)} (h : event.logged env = none) :
    callLog env (events ++ [event]) = callLog env events := by
  rw [callLog_append, h]
  rfl

theorem callLog_some {events : List (ServerEvent D)} {e : CallEvent D} (h : event.logged env = some e) :
    callLog env (events ++ [event]) = (callLog env events).record e := by
  rw [callLog_append, h]
  rfl

variable {events : List (ServerEvent D)}

/-- An initial request. -/
theorem Server.Logged.initialRequest (h : s.Logged env (callLog env events)) {dialog : D} {admitRequest : Bool}
    {e : InitialEvent} (hd : ∀ t ∈ s.transactions, t.dialog ≠ dialog)
    (ha : (ServerEvent.initialRequest dialog admitRequest e).Loggable) :
    (s.receive dialog true admitRequest e.req (e.handle env)).Logged env
      (callLog env (events ++ [.initialRequest dialog admitRequest e])) := by
  rcases getAppTsx_cases admitRequest e.req with ⟨overload, hget⟩ | ⟨hgranted, hget⟩
  · have hnone : ¬(e.req.method = .INVITE ∧ admitRequest = true) := by
      rintro ⟨hm, hadmit⟩
      simp [getAppTsx, hm, hadmit] at hget
    have hlog : (ServerEvent.initialRequest dialog admitRequest e).logged env = none := if_neg hnone
    rw [callLog_none hlog]
    refine h.of_eq ?_ ?_ <;> simp [Server.receive, hget]
  · rw [receive_eq _ _ _ _ hget]
    by_cases hm : e.req.method = .INVITE
    · obtain ⟨fits, asserted, served⟩ := ha hm
      obtain ⟨t, hrun, hrecord, hw⟩ := handle_placed env fits asserted
      have hfields := hrecord
      simp only [Tsx.callRecord, InitialEvent.callRecord, CallRecord.mk.injEq] at hfields
      obtain ⟨himpu, htime, hid, -⟩ := hfields
      have hlog : (ServerEvent.initialRequest dialog admitRequest e).logged env =
          some (.placed dialog (e.callRecord env)) := if_pos ⟨hm, hgranted hm⟩
      rw [callLog_some hlog, ← hrecord, hrun]
      refine h.placed (t := ⟨dialog, true, e.req, t, t.dialogId env, [], []⟩) hd
        (Log.outcomes_of_no_call (h.fresh dialog hd)) hw.2 ?_ rfl rfl
      refine splitString_formatDialogId ?_ ?_ ?_ ?_ (env.base64.encode_ne_nil ?_)
      · rw [htime]
        exact notMem_startTime env e.rawtime
      · rw [hid]
        exact notMem_natText e.unique
      · rw [htime]
        exact createFormattedTimestamp_ne_nil _
      · rw [hid]
        exact natText_ne_nil e.unique
      · rwa [himpu]
    · have hlog : (ServerEvent.initialRequest dialog admitRequest e).logged env = none := if_neg fun hc => hm hc.1
      have hnil := (handle_initial env e).2
      rw [callLog_none hlog]
      refine h.concat_other rfl ?_ (fun _ => hd) ?_
      · simp [AppServerTsx.isCall, hm]
      · rw [hnil]
        exact h.shown

/-- A request in a dialog. -/
theorem Server.Logged.inDialogRequest (h : s.Logged env (callLog env events)) (ht : t ∈ s.transactions)
    (hcall : t.isCall = true) {admitRequest : Bool} {e : InDialogEvent} (hd : e.dialogId = t.dialogId) :
    (s.receive t.dialog false admitRequest e.req (e.handle env)).Logged env
      (callLog env (events ++ [.inDialogRequest t.dialog admitRequest e])) := by
  rcases getAppTsx_cases admitRequest e.req with ⟨overload, hget⟩ | ⟨-, hget⟩
  · have hnone : ¬e.req.method = .BYE := by
      intro hm
      simp [getAppTsx, hm] at hget
    have hlog : (ServerEvent.inDialogRequest t.dialog admitRequest e).logged env = none := if_neg hnone
    rw [callLog_none hlog]
    refine h.of_eq ?_ ?_ <;> simp [Server.receive, hget]
  · rw [receive_eq _ _ _ _ hget]
    by_cases hm : e.req.method = .BYE
    · have hsplit := (h.calls t ht hcall).dialogId
      rw [← hd] at hsplit
      obtain ⟨u, hrun, -⟩ := onInDialogRequest_end env e.currenttime e.dialogId e.req ⟨Tsx.new, []⟩ hm hsplit
      have hkey : (endRequest env e.currenttime t.tsx.startTimeCassandra t.tsx.uniqueId
          (env.base64.encode t.tsx.impu)).callKey = t.tsx.callKey := by
        rw [CallListRequest.callKey, endRequest, env.base64.decode_encode, Tsx.callKey]
      have hlog : (ServerEvent.inDialogRequest t.dialog admitRequest e).logged env =
          some (.ended t.dialog (createFormattedTimestamp (env.localtime e.currenttime) xmlPattern)) := if_pos hm
      rw [callLog_some hlog, InDialogEvent.handle, hrun]
      let clr := endRequest env e.currenttime t.tsx.startTimeCassandra t.tsx.uniqueId (env.base64.encode t.tsx.impu)
      have hended : Server.Logged env { s with pool := s.pool.submitAll [clr] } _ :=
        h.ended ht hcall _ hkey rfl (decode_endRequest _ _ _ _ _) rfl (submissions_submitAll _ _)
      exact hended.concat_other rfl (by rfl) (fun hi => by cases hi) hended.shown
    · have hlog : (ServerEvent.inDialogRequest t.dialog admitRequest e).logged env = none := if_neg hm
      rw [callLog_none hlog, InDialogEvent.handle,
        onInDialogRequest_forward env e.currenttime e.dialogId e.req _ fun hc => hm hc.1]
      exact h.concat_other rfl (by rfl) (fun hi => by cases hi) h.shown

/-- A response. -/
theorem Server.Logged.response (h : s.Logged env (callLog env events)) (sound : t.Sound) {e : ResponseEvent}
    (ht : s.transactions = before ++ t :: after) (hm : findCseq e.rsp.hdrs = some t.req.method)
    (ho : (e.handle env ⟨t.tsx, []⟩).1 ≠ .error .bufferOverflow) (ha : (ServerEvent.response t e).Loggable) :
    Server.Logged env { s with
      transactions := before ++ t.respond e.rsp (e.handle env ⟨t.tsx, []⟩).2 :: after
      pool := s.pool.submitAll (writes (e.handle env ⟨t.tsx, []⟩).2.calls) } (callLog env (events ++ [.response t e])) := by
  have hmem : t ∈ s.transactions := by rw [ht]; exact List.mem_append_right _ (.head _)
  have hothers : ∀ u ∈ before ++ after, u.isCall = true → u.Logged env (callLog env events) := fun u hu hc => by
    refine h.calls u ?_ hc
    rw [ht]
    simp only [List.mem_append, List.mem_cons] at hu ⊢
    exact hu.imp_right Or.inr
  rcases sound.respond_cases hm ho with ⟨htsx, hw, hfinal⟩ | ⟨hcall, hwaiting, hf, hcode, -, hstored, hw⟩
  · have hsame : callLog env (events ++ [.response t e]) = callLog env events := by
      by_cases hc : t.isCall = true ∧ 200 ≤ e.rsp.statusCode
      · have hsettled : (callLog env events).outcomes t.dialog ≠ [] := by
          rw [Ne, (h.calls t hmem hc.1).settled, hfinal hc.1 hc.2]
          decide
        have hlog : (ServerEvent.response t e).logged env =
            some (.settled t.dialog (e.rsp.outcome env e.currenttime).text) := if_pos hc
        rw [callLog_some hlog, Log.record, if_neg hsettled]
      · have hlog : (ServerEvent.response t e).logged env = none := if_neg hc
        exact callLog_none hlog
    rw [hsame]
    refine h.replace ht rfl rfl rfl rfl hothers (fun hc => ?_) ?_
    · obtain ⟨call, settled, dialogId⟩ := h.calls t hmem hc
      exact ⟨by rw [AppServerTsx.respond, htsx]; exact call, by rw [AppServerTsx.respond, htsx]; exact settled,
        by rw [AppServerTsx.respond, htsx]; exact dialogId⟩
    · rw [hw]
      exact h.shown
  · have fits : ResponseFits env t.tsx e.currenttime e.rsp := by
      rcases onResponse_cases env e.currenttime e.rsp e.forkId ⟨t.tsx, []⟩ with
        ⟨hn, -⟩ | ⟨-, -, ⟨fits, -⟩ | ⟨hunfit, -⟩ | ⟨-, -, t', hrun⟩⟩
      · exact absurd ⟨hwaiting, hf⟩ hn
      · exact fits
      · exact absurd (ha hcode) hunfit
      · rw [ResponseEvent.handle, hrun] at ho
        exact absurd rfl ho
    rw [if_pos fits] at hw
    have hlog : (ServerEvent.response t e).logged env =
        some (.settled t.dialog (e.rsp.outcome env e.currenttime).text) := if_pos ⟨hcall, hcode⟩
    rw [callLog_some hlog]
    exact h.settled ht hcall hwaiting.2 (keeps_onResponse env e.currenttime e.rsp e.forkId ⟨t.tsx, []⟩) hstored e.currenttime
      hw rfl (submissions_submitAll _ _)

variable [DecidableEq W] {config : PoolConfig} {outside : Outside σ} {s₀ : Server D W σ}

theorem Server.Logged.step (h : s.Logged env (callLog env events)) (sound : ∀ t ∈ s.transactions, t.Sound)
    (step : ServerStep env config outside s event s') (ha : event.Loggable) :
    s'.Logged env (callLog env (events ++ [event])) := by
  cases step with
  | initialRequest dialog admitRequest e hd => exact h.initialRequest hd ha
  | inDialogRequest admitRequest e ht hi hm hd =>
    exact h.inDialogRequest ht (by simp [AppServerTsx.isCall, hi, hm]) hd
  | @response t before after e ht hm ho =>
    exact h.response (sound t (by rw [ht]; exact List.mem_append_right _ (.head _))) ht hm ho ha
  | work hp =>
    rw [callLog_none rfl]
    exact h.of_eq rfl hp.submissions_eq

omit [DecidableEq D] in
theorem ServerHistory.run {s : Server D W σ} (h : ServerHistory env config outside s₀ events s) :
    ServerRun env config outside (fun _ _ => True) s₀ s := by
  induction h with
  | nil => exact .refl
  | snoc _ last ih => exact ih.step last trivial

theorem ServerHistory.logged {s : Server D W σ} (history : ServerHistory env config outside s₀ events s) (h0 : s₀.Initial)
    (ha : ∀ event ∈ events, event.Loggable) : s.Logged env (callLog env events) := by
  induction history with
  | nil =>
    refine ⟨?_, fun d _ => rfl, ?_, ?_⟩
    · rw [h0.transactions]
      exact fun t ht => absurd ht List.not_mem_nil
    · rw [h0.transactions]
      exact List.nodup_nil
    · rw [h0.pool.trace]
      rfl
  | snoc history last ih =>
    exact (ih fun event he => ha event (List.mem_append_left _ he)).step (ServerHistory.run history |>.sound h0) last
      (ha _ (List.mem_append_right _ (.head _)))

omit [DecidableEq D] in
/-- Steps of the workers are no events of the log. -/
theorem ServerHistory.work {s : Server D W σ} (history : ServerHistory env config outside s₀ events s) {p : Pool W σ}
    (steps : Relation.ReflTransGen (WorkerStep config outside) s.pool p) :
    ∃ n, ServerHistory env config outside s₀ (events ++ List.replicate n .work) { s with pool := p } := by
  induction steps with
  | refl => exact ⟨0, by simpa using history⟩
  | tail _ last ih =>
    obtain ⟨n, ih⟩ := ih
    refine ⟨n + 1, ?_⟩
    rw [List.replicate_succ', ← List.append_assoc]
    exact ih.snoc (.work last)

theorem callLog_work (n : ℕ) : callLog env (events ++ List.replicate n .work) = callLog env events := by
  rw [callLog, List.filterMap_append, List.filterMap_replicate_of_none rfl, List.append_nil, callLog]

/-- What the server queues is the log of its events: in its order, in the lists and under the keys of its entries, and
    read back, what they say. -/
theorem log_refined {s : Server D W σ} (history : ServerHistory env config outside s₀ events s) (h0 : s₀.Initial)
    (ha : ∀ event ∈ events, event.Loggable) :
    (submissions s.pool.trace).reverse.map CallListRequest.shown = (callLog env events).entries.map Entry.shown :=
  (history.logged h0 ha).shown

end Server

/-! ### Two calls at a time -/

theorem submitAll_append {W σ : Type} (p : Pool W σ) (clrs clrs' : List CallListRequest) :
    p.submitAll (clrs ++ clrs') = (p.submitAll clrs).submitAll clrs' := List.foldl_append

/-- The transaction of an INVITE that is admitted. -/
def InitialEvent.transaction (env : Env) (dialog : ℕ) (e : InitialEvent) : AppServerTsx ℕ :=
  ⟨dialog, true, e.req, (e.handle env ⟨Tsx.new, []⟩).2.tsx, addedDialogId (e.handle env ⟨Tsx.new, []⟩).2.calls, [], []⟩

/-- Two calls that overlap: both are settled before the first one ends. -/
def overlappingCalls (env : Env) (e e' : InitialEvent) (answer reject : ResponseEvent) (bye : InDialogEvent) :
    List (ServerEvent ℕ) :=
  [.initialRequest 0 true e, .initialRequest 1 true e', .response (e.transaction env 0) answer,
    .response (e'.transaction env 1) reject, .inDialogRequest 0 true bye]

theorem overlappingHistory (env : Env) (config : PoolConfig) {e e' : InitialEvent} {answer reject : ResponseEvent}
    {bye : InDialogEvent} (he : e.req.method = .INVITE) (he' : e'.req.method = .INVITE) (hb : bye.req.method = .BYE)
    (hm : findCseq answer.rsp.hdrs = some .INVITE) (hm' : findCseq reject.rsp.hdrs = some .INVITE)
    (hd : bye.dialogId = (e.transaction env 0).dialogId)
    (hfits : (answer.handle env ⟨(e.transaction env 0).tsx, []⟩).1 ≠ .error .bufferOverflow)
    (hfits' : (reject.handle env ⟨(e'.transaction env 1).tsx, []⟩).1 ≠ .error .bufferOverflow) :
    ∃ (s : Server ℕ Bool Cells) (clrs : List CallListRequest),
      ServerHistory env config (lastWriteStore (· < ·)) (.new fun _ => .empty)
        (overlappingCalls env e e' answer reject bye) s ∧
        s.pool = (Pool.new fun _ => .empty).submitAll clrs := by
  have admitted {e : InitialEvent} (he : e.req.method = .INVITE) : getAppTsx true e.req = (some Tsx.new, true, false) := by
    simp [getAppTsx, he]
  have ended : getAppTsx true bye.req = (some Tsx.new, false, false) := by simp [getAppTsx, hb]
  have h0 : ServerHistory env config (lastWriteStore (· < ·)) (Server.new fun _ => .empty : Server ℕ Bool Cells) [] _ :=
    .nil
  have h1 := h0.snoc (.initialRequest 0 true e nofun)
  rw [receive_eq _ _ _ _ (admitted he), (handle_initial env e).2] at h1
  have h2 := h1.snoc (.initialRequest 1 true e' fun t ht => by simp [List.mem_singleton.mp ht])
  rw [receive_eq _ _ _ _ (admitted he'), (handle_initial env e').2] at h2
  have first (u : AppServerTsx ℕ) : [e.transaction env 0, u] = [] ++ e.transaction env 0 :: [u] := rfl
  have second (u : AppServerTsx ℕ) : [u, e'.transaction env 1] = [u] ++ e'.transaction env 1 :: [] := rfl
  have h3 := h2.snoc (.response answer (first _) (hm.trans (congrArg some he.symm)) hfits)
  have h4 := h3.snoc (.response reject (second _) (hm'.trans (congrArg some he'.symm)) hfits')
  have h5 := h4.snoc (.inDialogRequest true bye (.head _) rfl he hd)
  rw [receive_eq _ _ _ _ ended] at h5
  let answered := writes (answer.handle env ⟨(e.transaction env 0).tsx, []⟩).2.calls
  let rejected := writes (reject.handle env ⟨(e'.transaction env 1).tsx, []⟩).2.calls
  refine ⟨_, answered ++ rejected ++ writes (bye.handle env ⟨Tsx.new, []⟩).2.calls, h5, ?_⟩
  rw [submitAll_append, submitAll_append]
  rfl

/-- Two calls for Bob, three seconds apart. The first is answered and the second rejected, and a minute later the first
    ends. -/
def firstCall : InitialEvent := ⟨1600000000, 1234, sampleRequest []⟩
def secondCall : InitialEvent := ⟨1600000003, 5678, sampleRequest []⟩

def sampleEvents : List (ServerEvent ℕ) :=
  overlappingCalls centralEuropeEnv firstCall secondCall { sampleResponse 200 [] with currenttime := 1600000005 }
    { sampleResponse 486 [] with currenttime := 1600000006 }
    { sampleBye with currenttime := 1600000065, dialogId := ascii "20200913142640_1234_c2lwOmJvYkBob21l" }

theorem loggable_sampleEvents (n : ℕ) : ∀ event ∈ sampleEvents ++ List.replicate n .work, event.Loggable := by
  have call : (sampleRequest []).Loggable := ⟨sampleCall_fits, fun h => absurd h.1 (by decide), by decide⟩
  have final : ∀ statusCode ∈ [200, 486], (sampleResponse statusCode []).rsp.AnswererFits := by decide
  intro event he
  simp only [sampleEvents, overlappingCalls, List.mem_append, List.mem_cons, List.not_mem_nil, or_false,
    List.mem_replicate] at he
  rcases he with (rfl | rfl | rfl | rfl | rfl) | ⟨-, rfl⟩
  · exact fun _ => call
  · exact fun _ => call
  · exact fun _ => final 200 (.head _)
  · exact fun _ => final 486 (.tail _ (.head _))
  · trivial
  · trivial

theorem placed_sampleEvents {n d : ℕ} {c : CallRecord} {event : ServerEvent ℕ}
    (he : event ∈ sampleEvents ++ List.replicate n .work) (h : event.logged centralEuropeEnv = some (.placed d c)) :
    d = 0 ∧ c.id = ascii "1234" ∨ d = 1 ∧ c.id = ascii "5678" := by
  rcases logged_cases h with ⟨dialog, e, rfl, hplaced⟩ | ⟨_, _, _, _, hplaced⟩ | ⟨_, _, _, hplaced⟩
  · cases hplaced
    simp only [sampleEvents, overlappingCalls, List.mem_append, List.mem_cons, List.not_mem_nil, or_false,
      List.mem_replicate, reduceCtorEq, and_false, ServerEvent.initialRequest.injEq, true_and] at he
    rcases he with ⟨rfl, rfl⟩ | ⟨rfl, rfl⟩
    · exact Or.inl ⟨rfl, by decide⟩
    · exact Or.inr ⟨rfl, by decide⟩
  · cases hplaced
  · cases hplaced

/-- No two of the calls have the same id. -/
theorem unique_sampleEvents {n d d' : ℕ} {c c' : CallRecord} {event event' : ServerEvent ℕ}
    (he : event ∈ sampleEvents ++ List.replicate n .work) (h : event.logged centralEuropeEnv = some (.placed d c))
    (he' : event' ∈ sampleEvents ++ List.replicate n .work) (h' : event'.logged centralEuropeEnv = some (.placed d' c'))
    (hid : c.id = c'.id) : d = d' := by
  have hne : ascii "1234" ≠ ascii "5678" := by decide
  rcases placed_sampleEvents he h with ⟨rfl, hc⟩ | ⟨rfl, hc⟩ <;>
    rcases placed_sampleEvents he' h' with ⟨rfl, hc'⟩ | ⟨rfl, hc'⟩
  · rfl
  · exact absurd (hc.symm.trans (hid.trans hc')) hne
  · exact absurd (hc'.symm.trans (hid.symm.trans hc)) hne
  · rfl

theorem unique_sampleLog {n d d' : ℕ} {c c' : CallRecord}
    (hc : (callLog centralEuropeEnv (sampleEvents ++ List.replicate n .work)).call d = some c)
    (hc' : (callLog centralEuropeEnv (sampleEvents ++ List.replicate n .work)).call d' = some c') (hid : c.id = c'.id) :
    d = d' := by
  obtain ⟨event, he, h⟩ := List.mem_filterMap.mp (Log.placed_of_call hc)
  obtain ⟨event', he', h'⟩ := List.mem_filterMap.mp (Log.placed_of_call hc')
  exact unique_sampleEvents he h he' h' hid

def firstKey (type : FragmentType) : Key := ⟨ascii "20200913142640", ascii "1234", type⟩
def secondKey (type : FragmentType) : Key := ⟨ascii "20200913142643", ascii "5678", type⟩

def sampleEntries : List (Bytes × Key × Option Recorded) :=
  [(ascii "sip:bob@home", firstKey .BEGIN,
      some (.call ⟨ascii "sip:bob@home", []⟩ ⟨ascii "sip:alice@home", ascii "Alice"⟩ false (ascii "2020-09-13T14:26:40")
        (.answered (ascii "2020-09-13T14:26:45") none))),
    (ascii "sip:bob@home", secondKey .REJECTED,
      some (.call ⟨ascii "sip:bob@home", []⟩ ⟨ascii "sip:alice@home", ascii "Alice"⟩ false (ascii "2020-09-13T14:26:43")
        .rejected)),
    (ascii "sip:bob@home", firstKey .END, some (.ended (ascii "2020-09-13T14:27:45")))]

theorem shown_sampleEvents : (callLog centralEuropeEnv sampleEvents).entries.map Entry.shown = sampleEntries := by
  decide +kernel

/-- A request for Bob's list. -/
def forBob (k : Key) (contents : Bytes) : CallListRequest := ⟨ascii "sip:bob@home", k.timestamp, k.id, k.type, contents⟩

@[simp] theorem impu_forBob (k : Key) (contents : Bytes) : (forBob k contents).impu = ascii "sip:bob@home" := rfl
@[simp] theorem key_forBob (k : Key) (contents : Bytes) : (forBob k contents).callFragment.key = k := rfl
@[simp] theorem contents_forBob (k : Key) (contents : Bytes) : (forBob k contents).callFragment.contents = contents := rfl

theorem eq_forBob {clr : CallListRequest} {k : Key} {recorded : Option Recorded}
    (h : clr.shown = (ascii "sip:bob@home", k, recorded)) : clr = forBob k clr.contents := by
  simp only [CallListRequest.shown, Prod.mk.injEq] at h
  obtain ⟨himpu, rfl, -⟩ := h
  rw [forBob, ← himpu]
  rfl

/-- What the two calls queue. -/
abbrev sampleRequests (contents contents' contents'' : Bytes) : List CallListRequest :=
  [forBob (firstKey .BEGIN) contents, forBob (secondKey .REJECTED) contents', forBob (firstKey .END) contents'']

theorem sampleHistory (config : PoolConfig) : ∃ (s : Server ℕ Bool Cells) (contents contents' contents'' : Bytes),
    ServerHistory centralEuropeEnv config (lastWriteStore (· < ·)) (.new fun _ => .empty) sampleEvents s ∧
      s.pool = (Pool.new fun _ => .empty).submitAll (sampleRequests contents contents' contents'') := by
  have called : ∃ (s : Server ℕ Bool Cells) (clrs : List CallListRequest),
      ServerHistory centralEuropeEnv config (lastWriteStore (· < ·)) (.new fun _ => .empty) sampleEvents s ∧
        s.pool = (Pool.new fun _ => .empty).submitAll clrs :=
    overlappingHistory centralEuropeEnv config rfl rfl rfl rfl rfl (by decide +kernel) (by decide +kernel)
      (by decide +kernel)
  obtain ⟨s, clrs, history, hpool⟩ := called
  have hshown := (history.logged (Server.initial_new _) (by simpa using loggable_sampleEvents 0)).shown
  rw [shown_sampleEvents, hpool, submissions_submitAll, List.reverse_append, List.reverse_reverse] at hshown
  change clrs.map CallListRequest.shown = _ at hshown
  obtain ⟨begins, _, rfl, hbegins, hrest⟩ := List.map_eq_cons_iff.mp hshown
  obtain ⟨rejected, _, rfl, hrejected, hrest⟩ := List.map_eq_cons_iff.mp hrest
  obtain ⟨ends, _, rfl, hends, hrest⟩ := List.map_eq_cons_iff.mp hrest
  obtain rfl := List.map_eq_nil_iff.mp hrest
  refine ⟨s, begins.contents, rejected.contents, ends.contents, history, ?_⟩
  rw [hpool, sampleRequests, ← eq_forBob hbegins, ← eq_forBob hrejected, ← eq_forBob hends]

/-- Both calls are queued with their outcomes, and then the end of the first. -/
theorem log_refined_sample : ∃ s : Server ℕ Bool Cells,
    (submissions s.pool.trace).reverse.map CallListRequest.shown = sampleEntries := by
  obtain ⟨s, -, -, -, history, -⟩ := sampleHistory ⟨0, 604800, true⟩
  have loggable : ∀ event ∈ sampleEvents, event.Loggable := by simpa using loggable_sampleEvents 0
  exact ⟨s, (log_refined history (Server.initial_new _) loggable).trans shown_sampleEvents⟩

end Memento
