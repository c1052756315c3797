import Memento.Theorems.Refinement

/-! Calls do not disturb each other. Whatever happens in other dialogs, what is queued for a call is the log of the SIP
    events of its own dialog. But a request in a dialog is believed: with the right dialog id it ends a call of anyone. -/

namespace Memento
open Text CallLog

/-- The dialog of a request or a response. -/
def ServerEvent.dialog {D : Type} : ServerEvent D → Option D
  | .initialRequest dialog _ _ | .inDialogRequest dialog _ _ => some dialog
  | .response t _ => some t.dialog
  | .work => none

section Server
variable {D W σ : Type} {env : Env} {events : List (ServerEvent D)}

theorem dialog_of_logged {event : ServerEvent D} {e : CallEvent D} (h : event.logged env = some e) :
    event.dialog = some e.dialog := by
  rcases logged_cases h with ⟨dialog, e', rfl, rfl⟩ | ⟨dialog, admitRequest, e', rfl, rfl⟩ | ⟨t, e', rfl, rfl⟩
  · rfl
  · rfl
  · rfl

variable [DecidableEq D]

theorem logged_of_dialog (events : List (ServerEvent D)) (d : D) :
    (events.filterMap (·.logged env)).filter (fun e => e.dialog = d) =
      (events.filter fun event => event.dialog = some d).filterMap (·.logged env) := by
  induction events with
  | nil => rfl
  | cons event events ih =>
    cases hlogged : event.logged env with
    | none =>
      rw [List.filterMap_cons_none hlogged, ih, List.filter_cons]
      split
      · rw [List.filterMap_cons_none hlogged]
      · rfl
    | some e =>
      rw [List.filterMap_cons_some hlogged, List.filter_cons, List.filter_cons, dialog_of_logged hlogged, ih]
      by_cases he : e.dialog = d
      · simp [he, hlogged]
      · simp [he]

theorem callLog_of_dialog (env : Env) (events : List (ServerEvent D)) (d : D) :
    (callLog env events).entries.filter (fun x => x.dialog = d) =
      (callLog env (events.filter fun event => event.dialog = some d)).entries := by
  rw [callLog, Log.entries_of_dialog, logged_of_dialog, callLog]

variable [DecidableEq W] {config : PoolConfig} {outside : Outside σ} {s₀ s : Server D W σ}

/-- Where no other call has the id of a call, the requests with this id are those that the events of its dialog alone
    would make, in their order. -/
theorem calls_separate (history : ServerHistory env config outside s₀ events s) (h0 : s₀.Initial)
    (ha : ∀ event ∈ events, event.Loggable) {d : D} {c : CallRecord} (hc : (callLog env events).call d = some c)
    (hunique : ∀ d' c', (callLog env events).call d' = some c' → c'.id = c.id → d' = d) :
    ((submissions s.pool.trace).reverse.filter fun clr => clr.id = c.id).map CallListRequest.shown =
      (callLog env (events.filter fun event => event.dialog = some d)).entries.map Entry.shown := by
  have hid : ∀ x ∈ (callLog env events).entries, decide (x.shown.2.1.id = c.id) = decide (x.dialog = d) := by
    intro x hx
    have hcall := (Log.mem_entries hx).1
    refine decide_eq_decide.mpr ⟨hunique x.dialog x.call hcall, fun hd => ?_⟩
    rw [hd] at hcall
    cases hc.symm.trans hcall
    rfl
  calc ((submissions s.pool.trace).reverse.filter fun clr => clr.id = c.id).map CallListRequest.shown
      = ((submissions s.pool.trace).reverse.map CallListRequest.shown).filter fun x => x.2.1.id = c.id := by
        rw [List.filter_map]
        rfl
    _ = ((callLog env events).entries.map Entry.shown).filter fun x => x.2.1.id = c.id := by
        rw [(history.logged h0 ha).shown]
    _ = ((callLog env events).entries.filter fun x => x.dialog = d).map Entry.shown := by
        rw [List.filter_map]
        exact congrArg (List.map Entry.shown) (List.filter_congr hid)
    _ = (callLog env (events.filter fun event => event.dialog = some d)).entries.map Entry.shown := by
        rw [callLog_of_dialog]

end Server

/-- Of two calls that overlap, each is queued as if there were no other. -/
theorem calls_separate_sample : ∃ s : Server ℕ Bool Cells, (submissions s.pool.trace).length = 3 ∧
    ((submissions s.pool.trace).reverse.filter fun clr => clr.id = ascii "1234").map CallListRequest.shown =
      (callLog centralEuropeEnv (sampleEvents.filter fun event => event.dialog = some 0)).entries.map Entry.shown ∧
    ((submissions s.pool.trace).reverse.filter fun clr => clr.id = ascii "5678").map CallListRequest.shown =
      (callLog centralEuropeEnv (sampleEvents.filter fun event => event.dialog = some 1)).entries.map Entry.shown := by
  obtain ⟨s, contents, contents', contents'', history, hpool⟩ := sampleHistory ⟨0, 604800, true⟩
  have loggable : ∀ event ∈ sampleEvents, event.Loggable := by simpa using loggable_sampleEvents 0
  have hfirst : (callLog centralEuropeEnv sampleEvents).call 0 = some (firstCall.callRecord centralEuropeEnv) := by
    decide +kernel
  have hsecond : (callLog centralEuropeEnv sampleEvents).call 1 = some (secondCall.callRecord centralEuropeEnv) := by
    decide +kernel
  refine ⟨s, ?_, ?_, ?_⟩
  · rw [hpool, submissions_submitAll]
    rfl
  · exact calls_separate history (Server.initial_new _) loggable hfirst
      fun d c hc hid => unique_sampleLog (n := 0) hc hfirst hid
  · exact calls_separate history (Server.initial_new _) loggable hsecond
      fun d c hc hid => unique_sampleLog (n := 0) hc hsecond hid

/-! ### What a dialog id can name -/

theorem splitString_eq_three {s timestamp uniqueId encodedImpu : Bytes}
    (h : splitString s 95 3 = [timestamp, uniqueId, encodedImpu]) :
    (timestamp ≠ [] ∧ 95 ∉ timestamp) ∧ (uniqueId ≠ [] ∧ 95 ∉ uniqueId) ∧ encodedImpu ≠ [] := by
  have hlen : (cut 95 2 s).length ≤ 3 := length_cut_le 95 2 s
  have hcut : (cut 95 2 s).filter (· ≠ []) = cut 95 2 s := by
    refine List.filter_sublist.eq_of_length_le ?_
    rw [splitString] at h
    rw [h]
    exact hlen
  have hne : ∀ part ∈ [timestamp, uniqueId, encodedImpu], part ≠ [] := by
    intro part hpart
    rw [← h, splitString, List.mem_filter] at hpart
    exact of_decide_eq_true hpart.2
  rw [splitString, hcut] at h
  have hparts : ∀ part ∈ [timestamp, uniqueId], 95 ∉ part := fun part hpart =>
    notMem_of_mem_cut (by rw [h]; exact hpart)
  simp only [List.forall_mem_cons] at hne hparts
  exact ⟨⟨hne.1, hparts.1⟩, ⟨hne.2.1, hparts.2.1⟩, hne.2.2.1⟩

/-- A transaction that begins with a BYE says of a call that it ended now, and nothing else, and there is a dialog id with
    which it says so of any call whose timestamp and id are not empty and hold no underscore, in any list whose IMPU some
    text decodes to. -/
theorem bye_reaches_iff (env : Env) (currenttime : ℤ) {req : Request} (hm : req.method = .BYE) (rsps : List ResponseEvent)
    (impu timestamp uniqueId : Bytes) :
    (∀ dialogId, ∀ clr ∈ writes (runTsx env (InDialogEvent.handle env ⟨currenttime, dialogId, req⟩) rsps).calls,
      clr.type = .END ∧
        decode clr.contents = some (.ended (createFormattedTimestamp (env.localtime currenttime) xmlPattern))) ∧
    ((∃ dialogId, ∃ clr ∈ writes (runTsx env (InDialogEvent.handle env ⟨currenttime, dialogId, req⟩) rsps).calls,
        clr.callKey = (impu, timestamp, uniqueId)) ↔
      (timestamp ≠ [] ∧ 95 ∉ timestamp) ∧ (uniqueId ≠ [] ∧ 95 ∉ uniqueId) ∧
        ∃ encodedImpu ≠ [], env.base64.decode encodedImpu = impu) := by
  have ends : ∀ {dialogId timestamp uniqueId encodedImpu}, splitString dialogId 95 3 = [timestamp, uniqueId, encodedImpu] →
      writes (runTsx env (InDialogEvent.handle env ⟨currenttime, dialogId, req⟩) rsps).calls =
        [endRequest env currenttime timestamp uniqueId encodedImpu] := by
    intro dialogId timestamp uniqueId encodedImpu hs
    obtain ⟨t, hrun, -⟩ := onInDialogRequest_end env currenttime dialogId req ⟨Tsx.new, []⟩ hm hs
    rw [writes_runTsx_inDialog, beginTsx, InDialogEvent.handle, hrun]
    rfl
  have reached : ∀ dialogId, ∀ clr ∈ writes (runTsx env (InDialogEvent.handle env ⟨currenttime, dialogId, req⟩) rsps).calls,
      ∃ timestamp uniqueId encodedImpu, splitString dialogId 95 3 = [timestamp, uniqueId, encodedImpu] ∧
        clr = endRequest env currenttime timestamp uniqueId encodedImpu := by
    intro dialogId clr hclr
    by_cases h : (splitString dialogId 95 3).length = 3
    · obtain ⟨timestamp, uniqueId, encodedImpu, hs⟩ := List.length_eq_three.mp h
      rw [ends hs, List.mem_singleton] at hclr
      exact ⟨timestamp, uniqueId, encodedImpu, hs, hclr⟩
    · rw [writes_runTsx_inDialog, inDialog_forward env _ fun hc => h hc.2] at hclr
      cases hclr
  refine ⟨fun dialogId clr hclr => ?_, ⟨?_, ?_⟩⟩
  · obtain ⟨timestamp, uniqueId, encodedImpu, -, rfl⟩ := reached dialogId clr hclr
    exact ⟨rfl, decode_endRequest _ _ _ _ _⟩
  · rintro ⟨dialogId, clr, hclr, hkey⟩
    obtain ⟨timestamp, uniqueId, encodedImpu, hs, rfl⟩ := reached dialogId clr hclr
    cases hkey
    obtain ⟨ht, hu, hi⟩ := splitString_eq_three hs
    exact ⟨ht, hu, encodedImpu, hi, rfl⟩
  · rintro ⟨⟨ht0, ht⟩, ⟨hu0, hu⟩, encodedImpu, hi, rfl⟩
    refine ⟨formatDialogId timestamp uniqueId encodedImpu, endRequest env currenttime timestamp uniqueId encodedImpu, ?_, rfl⟩
    rw [ends (splitString_formatDialogId ht hu ht0 hu0 hi)]
    exact .head _

theorem bye_reaches_iff_sample : ∃ dialogId, ∃ clr ∈ writes (runTsx sampleEnv
    (InDialogEvent.handle sampleEnv ⟨0, dialogId, sampleBye.req⟩) []).calls,
      clr.callKey = (ascii "sip:carol@home", ascii "20020530093010", ascii "1") := by
  refine (bye_reaches_iff sampleEnv 0 rfl [] _ _ _).2.mpr ⟨by decide, by decide, sampleEnv.base64.encode (ascii "sip:carol@home"),
    sampleEnv.base64.encode_ne_nil (by decide), sampleEnv.base64.decode_encode _⟩

end Memento
