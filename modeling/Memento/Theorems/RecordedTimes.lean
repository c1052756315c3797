import Memento.Theorems.Chronology
import Memento.Theorems.Convergence

/-! The times that a list shows. While the local clock does not go back, no call is shown as answered or ended before it
    started. -/

namespace Memento
open Text LastWrite CallLog

/-! ### Times of events -/

/-- The clock when an event is handled. -/
def ServerEvent.time {D : Type} : ServerEvent D → Option ℤ
  | .initialRequest _ _ e => some e.rawtime
  | .inDialogRequest _ _ e => some e.currenttime
  | .response _ e => some e.currenttime
  | .work => none

/-- The clock is in the years that are printed with four digits, and local time does not go back. -/
structure Clocked {D : Type} (offset : ℤ → ℤ) (events : List (ServerEvent D)) : Prop where
  range : ∀ event ∈ events, ∀ t ∈ event.time, 0 ≤ t ∧ t < year10000 ∧ t + offset t < year10000
  ascending : events.Pairwise fun event event' => ∀ t ∈ event.time, ∀ t' ∈ event'.time, t + offset t ≤ t' + offset t'

theorem Clocked.work {D : Type} {offset : ℤ → ℤ} {events : List (ServerEvent D)} (h : Clocked offset events) (n : ℕ) :
    Clocked offset (events ++ List.replicate n .work) where
  range event he t ht := by
    rcases List.mem_append.mp he with he | he
    · exact h.range event he t ht
    · rw [(List.mem_replicate.mp he).2] at ht
      cases ht
  ascending := by
    refine List.pairwise_append.mpr ⟨h.ascending, ?_, ?_⟩
    · exact List.pairwise_replicate.mpr (Or.inr fun t ht => by cases ht)
    · intro event _ event' he' t _ t' ht'
      rw [(List.mem_replicate.mp he').2] at ht'
      cases ht'

/-- The time that the log keeps of an event. -/
def loggedTime {D : Type} : CallEvent D → Option Bytes
  | .placed _ call => some call.startTime
  | .settled _ (.answered answerTime _) => some answerTime
  | .settled _ .rejected => none
  | .ended _ endTime => some endTime

def NotAfter (s t : Bytes) : Prop := s.map UInt8.toNat ≤ t.map UInt8.toNat

section Zone
variable {D : Type} {env : Env} {offset : ℤ → ℤ} {events : List (ServerEvent D)}

theorem time_of_logged {event : ServerEvent D} {e : CallEvent D} (h : event.logged env = some e) {time : Bytes}
    (ht : time ∈ loggedTime e) :
    ∃ t ∈ event.time, time = createFormattedTimestamp (env.localtime t) xmlPattern := by
  rcases logged_cases h with ⟨dialog, e', rfl, rfl⟩ | ⟨dialog, admitRequest, e', rfl, rfl⟩ | ⟨t, e', rfl, rfl⟩
  · exact ⟨e'.rawtime, rfl, (Option.mem_some_iff.mp ht).symm⟩
  · exact ⟨e'.currenttime, rfl, (Option.mem_some_iff.mp ht).symm⟩
  · refine ⟨e'.currenttime, rfl, ?_⟩
    unfold Response.outcome at ht
    split at ht
    · cases ht
    · exact (Option.mem_some_iff.mp ht).symm

theorem notAfter_of_le (zone : Zone env offset) {t u : ℤ} (ht : 0 ≤ t ∧ t < year10000 ∧ t + offset t < year10000)
    (hu : 0 ≤ u ∧ u < year10000 ∧ u + offset u < year10000) (hle : t + offset t ≤ u + offset u) :
    NotAfter (createFormattedTimestamp (env.localtime t) xmlPattern)
      (createFormattedTimestamp (env.localtime u) xmlPattern) := by
  have range : ∀ v, 0 ≤ v → v < year10000 → InRange (v + offset v) := fun v h h' => by
    have := zone.offset v
    rw [InRange]
    omega
  rw [zone.localtime t ht.1 ht.2.1, zone.localtime u hu.1 hu.2.1]
  refine not_lt.mp fun hlt => ?_
  have hback := (before_iff (range u hu.1 hu.2.1) (range t ht.1 ht.2.1) (Or.inr rfl)).mp hlt
  unfold PrintsBefore at hback
  omega

/-- What is logged is in the order of its times. -/
theorem Clocked.logged (zone : Zone env offset) (h : Clocked offset events) :
    (events.filterMap (·.logged env)).Pairwise fun e e' => ∀ s ∈ loggedTime e, ∀ t ∈ loggedTime e', NotAfter s t := by
  rw [List.pairwise_filterMap]
  refine h.ascending.imp_of_mem fun {event event'} he he' hle e hlogged e' hlogged' s hs t ht => ?_
  obtain ⟨u, hu, rfl⟩ := time_of_logged hlogged hs
  obtain ⟨u', hu', rfl⟩ := time_of_logged hlogged' ht
  exact notAfter_of_le zone (h.range event he u hu) (h.range event' he' u' hu') (hle u hu u' hu')

theorem fact_of_recorded_call {x : CallEntry D} {callee caller : Person} {outgoing : Bool} {startTime : Bytes}
    {outcome : Outcome} (h : x.recorded = .call callee caller outgoing startTime outcome) :
    x.fact = .settled outcome ∧ x.call.startTime = startTime := by
  obtain ⟨dialog, call, fact⟩ := x
  cases fact with
  | settled outcome' =>
    cases h
    exact ⟨rfl, rfl⟩
  | ended endTime => cases h

theorem fact_of_recorded_ended {x : CallEntry D} {endTime : Bytes} (h : x.recorded = .ended endTime) :
    x.fact = .ended endTime := by
  obtain ⟨dialog, call, fact⟩ := x
  cases fact with
  | settled outcome' => cases h
  | ended endTime' =>
    cases h
    rfl

variable [DecidableEq D]

/-- No entry of the log is older than its call. -/
theorem Clocked.entry (zone : Zone env offset) (h : Clocked offset events) {x : CallEntry D}
    (hx : x ∈ (callLog env events).entries) : ∀ time ∈ loggedTime x.event, NotAfter x.call.startTime time := by
  have hpair := (h.logged zone).sublist (Log.placed_before hx)
  exact (List.pairwise_pair.mp hpair) _ rfl

end Zone

/-! ### What is shown -/

section Server
variable {D W : Type} [DecidableEq D] [DecidableEq W] {env : Env} {config : PoolConfig} {lt : Key → Key → Prop}
  {offset : ℤ → ℤ} {s₀ s : Server D W Cells} {events : List (ServerEvent D)}

/-- No call is shown as answered before it started, and none as ended before, where the end has the id of the call. -/
theorem shown_times_ordered (history : ServerHistory env config (lastWriteStore lt) s₀ events s) (h0 : s₀.Initial)
    (hempty : ∀ impu k, s₀.pool.store impu k = Cell.empty) (ha : ∀ event ∈ events, event.Loggable)
    (zone : Zone env offset) (clocked : Clocked offset events)
    (hunique : ∀ d c d' c', (callLog env events).call d = some c → (callLog env events).call d' = some c' →
      c.id = c'.id → d = d')
    {impu : Bytes} {k : Key} {contents : Bytes} (hv : (s.pool.store impu k).value = some contents) {callee caller : Person}
    {outgoing : Bool} {startTime : Bytes} {outcome : Outcome}
    (hcall : decode contents = some (.call callee caller outgoing startTime outcome)) :
    (∀ answerTime answerer, outcome = .answered answerTime answerer → NotAfter startTime answerTime) ∧
    ∀ impu' k' contents' endTime, (s.pool.store impu' k').value = some contents' → k'.id = k.id →
      decode contents' = some (.ended endTime) → NotAfter startTime endTime := by
  obtain ⟨x, hx, -, rfl, hdecode⟩ := entry_of_value history h0 hempty ha hv
  obtain ⟨hfact, rfl⟩ := fact_of_recorded_call (Option.some_inj.mp (hdecode.symm.trans hcall))
  refine ⟨fun answerTime answerer houtcome => ?_, fun impu' k' contents' endTime hv' hid hended => ?_⟩
  · subst houtcome
    refine clocked.entry zone hx answerTime ?_
    rw [Entry.event, hfact]
    rfl
  · obtain ⟨y, hy, -, rfl, hdecode'⟩ := entry_of_value history h0 hempty ha hv'
    have hfact' := fact_of_recorded_ended (Option.some_inj.mp (hdecode'.symm.trans hended))
    have hxcall := (Log.mem_entries hx).1
    have hycall := (Log.mem_entries hy).1
    -- Both entries are about the call of one dialog.
    have hdialog := hunique _ _ _ _ hycall hxcall hid
    rw [hdialog] at hycall
    have hsame : y.call = x.call := Option.some_inj.mp (hycall.symm.trans hxcall)
    rw [← hsame]
    refine clocked.entry zone hy endTime ?_
    rw [Entry.event, hfact']
    rfl

end Server

/-! ### Two calls of 13 September 2020 -/

theorem clocked_sampleEvents : Clocked centralEurope sampleEvents where
  range := by decide
  ascending := by decide

/-- Of the entries, these two are about the first call. -/
theorem recorded_of_firstKey : ∀ y ∈ (callLog centralEuropeEnv sampleEvents).entries, y.call.impu = ascii "sip:bob@home" ∧
    (y.key = firstKey .BEGIN → y.recorded = .call ⟨ascii "sip:bob@home", []⟩ ⟨ascii "sip:alice@home", ascii "Alice"⟩ false
      (ascii "2020-09-13T14:26:40") (.answered (ascii "2020-09-13T14:26:45") none)) ∧
    (y.key = firstKey .END → y.recorded = .ended (ascii "2020-09-13T14:27:45")) := by
  decide +kernel

theorem shown_times_ordered_sample : ∃ (s : Server ℕ Bool Cells) (contents contents' : Bytes),
    (s.pool.store (ascii "sip:bob@home") (firstKey .BEGIN)).value = some contents ∧
    (s.pool.store (ascii "sip:bob@home") (firstKey .END)).value = some contents' ∧
    decode contents' = some (.ended (ascii "2020-09-13T14:27:45")) ∧
    NotAfter (ascii "2020-09-13T14:26:40") (ascii "2020-09-13T14:27:45") := by
  obtain ⟨s, contents, contents', contents'', history, hpool⟩ := sampleHistory ⟨0, 604800, true⟩
  obtain ⟨p, steps, -, drained, -, hok⟩ := exists_workedOff (· < ·) true (sampleRequests contents contents' contents'')
  rw [← hpool] at steps
  obtain ⟨n, history⟩ := history.work steps
  have hlog : callLog centralEuropeEnv (sampleEvents ++ List.replicate n .work) = callLog centralEuropeEnv sampleEvents :=
    callLog_work n
  have hkeys : (callLog centralEuropeEnv sampleEvents).entries.map CallLog.Entry.key =
      [firstKey .BEGIN, secondKey .REJECTED, firstKey .END] := by decide +kernel
  have shown : ∀ k ∈ [firstKey .BEGIN, secondKey .REJECTED, firstKey .END], ∃ contents,
      (p.store (ascii "sip:bob@home") k).value = some contents ∧
      ∃ y ∈ (callLog centralEuropeEnv sampleEvents).entries, y.key = k ∧ decode contents = some y.recorded := by
    rw [← hkeys]
    intro k hk
    obtain ⟨x, hx, rfl⟩ := List.mem_map.mp hk
    have himpu := (recorded_of_firstKey x hx).1
    rw [← hlog] at hx
    have hstored := log_stored history (Server.initial_new _) (fun _ _ => rfl) (loggable_sampleEvents n) drained hok hx
    rcases hstored with ⟨contents, hv, y, hy, -, hkey, hdecode⟩ | ⟨w, records, time, rc, hmem, -⟩
    · exact ⟨contents, himpu ▸ hv, y, hlog ▸ hy, hkey, hdecode⟩
    · have reachable := (ServerHistory.run history).reachable (Server.initial_new _)
      exact absurd hmem ((reachable.untrimmed rfl).trace w _ records time rc)
  obtain ⟨contents, hv, y, hy, hkey, hdecode⟩ := shown _ (.head _)
  obtain ⟨contents', hv', y', hy', hkey', hdecode'⟩ := shown _ (.tail _ (.tail _ (.head _)))
  rw [(recorded_of_firstKey y hy).2.1 hkey] at hdecode
  rw [(recorded_of_firstKey y' hy').2.2 hkey'] at hdecode'
  have ordered := shown_times_ordered history (Server.initial_new _) (fun _ _ => rfl) (loggable_sampleEvents n)
    centralEurope_zone (clocked_sampleEvents.work n) (fun d c d' c' h h' hid => unique_sampleLog h h' hid) hv hdecode
  exact ⟨{ s with pool := p }, contents, contents', hv, hv', hdecode', ordered.2 _ _ _ _ hv' rfl hdecode'⟩

end Memento
