import Memento.Theorems.KeptCalls
import Memento.Theorems.Refinement
import Memento.Theorems.TrimDelete

/-! What the store shows of the call log. In every state of every run each record it shows is an entry of the log, and
    when all work is done and every write succeeded, each entry is shown unless a trim deleted it. -/

namespace Memento
open Text LastWrite CallLog

/-! ### The cells of a store -/

section Pool
variable {W : Type} [DecidableEq W] {config : PoolConfig} {lt : Key → Key → Prop} {s₀ s s' : Pool W Cells} {impu : Bytes}
  {k : Key}

/-- What a step does to a cell: nothing, a write of its fragment, or a delete that lists it. -/
theorem Step.cell_cases (step : Step config (lastWriteStore lt) s s') (impu : Bytes) (k : Key) :
    s'.store impu k = s.store impu k ∨
    (∃ w clr time, s.worker w = .writing clr time ∧ clr.impu = impu ∧ clr.callFragment.key = k ∧
      s'.store impu k = (s.store impu k).put time clr.contents) ∨
    (∃ w records time rc, s'.trace = .deleted w impu records time rc :: s.trace ∧ (∃ f ∈ records, f.key = k) ∧
      s'.store impu k = (s.store impu k).kill time) := by
  rcases step.store_cases with ⟨hstore, -⟩ | ⟨w, clr, time, rc, x, hw, ho, hstore, -⟩ |
    ⟨w, clr, time, records, rc, x, -, ⟨ho, -⟩, hstore, htrace⟩
  · exact Or.inl (by rw [hstore])
  · by_cases hi : impu = clr.impu
    · subst hi
      rw [hstore, Function.update_self]
      rcases ho with rfl | ⟨-, rfl⟩
      · by_cases hk : k = clr.callFragment.key
        · subst hk
          rw [Function.update_self]
          exact Or.inr (Or.inl ⟨w, clr, time, hw, rfl, rfl, rfl⟩)
        · rw [Function.update_of_ne hk]
          exact Or.inl rfl
      · exact Or.inl rfl
    · exact Or.inl (by rw [hstore, Function.update_of_ne hi])
  · by_cases hi : impu = clr.impu
    · subst hi
      rw [hstore, Function.update_self]
      rcases ho k with hx | ⟨hlisted, hx⟩
      · exact Or.inl hx
      · exact Or.inr (Or.inr ⟨w, records, time, rc, htrace, hlisted, hx⟩)
    · exact Or.inl (by rw [hstore, Function.update_of_ne hi])

/-- What is shown was submitted. -/
theorem Reachable.value_submitted (h : Reachable config (lastWriteStore lt) s₀ s)
    (h0 : ∀ impu k, s₀.store impu k = Cell.empty) {contents : Bytes} (hv : (s.store impu k).value = some contents) :
    ∃ clr ∈ submissions s.trace, clr.impu = impu ∧ clr.callFragment.key = k ∧ clr.contents = contents := by
  refine h.invariant (P := fun s => (s.store impu k).value = some contents →
    ∃ clr ∈ submissions s.trace, clr.impu = impu ∧ clr.callFragment.key = k ∧ clr.contents = contents) ?_
    (fun {s s'} hr ih step hv => ?_) hv
  · intro hv
    rw [h0] at hv
    cases hv
  · have old : (s.store impu k).value = some contents → ∃ clr ∈ submissions s'.trace,
        clr.impu = impu ∧ clr.callFragment.key = k ∧ clr.contents = contents := fun hv => by
      obtain ⟨clr, hclr, hrest⟩ := ih hv
      exact ⟨clr, mem_submissions.mpr (step.trace_subset (mem_submissions.mp hclr)), hrest⟩
    rcases step.cell_cases impu k with hsame | ⟨w, clr, time, hw, hi, hk, hput⟩ | ⟨w, records, time, rc, -, -, hkill⟩
    · exact old (hsame ▸ hv)
    · rw [hput, Cell.put] at hv
      split at hv
      · have hsubmitted := step.trace_subset (hr.submitted.2 w clr (by rw [hw]; rfl))
        exact ⟨clr, mem_submissions.mpr hsubmitted, hi, hk, Option.some_inj.mp hv⟩
      · exact old hv
    · rw [hkill, Cell.kill] at hv
      split at hv
      · cases hv
      · exact old hv

/-- A trim listed the key among what it deleted. -/
def Deleted (trace : List (Event W)) (impu : Bytes) (k : Key) : Prop :=
  ∃ w records time rc, .deleted w impu records time rc ∈ trace ∧ ∃ f ∈ records, f.key = k

def Pool.Shows (s : Pool W Cells) (impu : Bytes) (k : Key) : Prop := (s.store impu k).Visible ∨ Deleted s.trace impu k

/-- A cell with a timestamp is shown, and so is what was written successfully, but for what was deleted. -/
structure Pool.ShowsWritten (s : Pool W Cells) : Prop where
  stamped : ∀ impu k, (s.store impu k).stamp = 0 ∨ s.Shows impu k
  written : ∀ clr ∈ successes s.trace, s.Shows clr.impu clr.callFragment.key
  time : ∀ w clr time, s.worker w = .writing clr time → 0 < time

omit [DecidableEq W] in
theorem Deleted.mono {trace trace' : List (Event W)} (h : Deleted trace impu k) (hsub : trace ⊆ trace') :
    Deleted trace' impu k := by
  obtain ⟨w, records, time, rc, hmem, hf⟩ := h
  exact ⟨w, records, time, rc, hsub hmem, hf⟩

theorem Pool.Shows.step (h : s.Shows impu k) (step : Step config (lastWriteStore lt) s s') : s'.Shows impu k := by
  rcases h with hv | hd
  · rcases step.cell_cases impu k with hsame | ⟨w, clr, time, -, -, -, hput⟩ |
      ⟨w, records, time, rc, htrace, hlisted, -⟩
    · exact Or.inl (by rwa [hsame])
    · refine Or.inl ?_
      rw [hput, Cell.put]
      split
      · exact rfl
      · exact hv
    · exact Or.inr ⟨w, records, time, rc, by rw [htrace]; exact .head _, hlisted⟩
  · exact Or.inr (hd.mono step.trace_subset)

theorem Step.writing_time (step : Step config (lastWriteStore lt) s s') {w : W} {clr : CallListRequest} {time : ℕ}
    (hw : s'.worker w = .writing clr time) : s.worker w = .writing clr time ∨ 0 < time := by
  cases step with
  | submit => exact Or.inl hw
  | stamp v time' hv hc =>
    rcases of_worker_setWorker (· = _) hw with ⟨-, heq⟩ | hw
    · cases heq
      exact Or.inr (by omega)
    · exact Or.inl hw
  | write | sample | read =>
    rcases of_worker_setWorker (· = _) hw with ⟨-, heq⟩ | hw
    · split at heq <;> cases heq
    · exact Or.inl hw
  | notify =>
    rcases of_worker_setWorker (· = _) hw with ⟨-, heq⟩ | hw
    · cases heq
    · split at hw <;> exact Or.inl hw
  | _ =>
    rcases of_worker_setWorker (· = _) hw with ⟨-, heq⟩ | hw
    · cases heq
    · exact Or.inl hw

theorem Pool.ShowsWritten.step (h : s.ShowsWritten) (step : Step config (lastWriteStore lt) s s') : s'.ShowsWritten where
  stamped impu k := by
    rcases h.stamped impu k with h0 | hshows
    · rcases step.cell_cases impu k with hsame | ⟨w, clr, time, hw, -, -, hput⟩ | ⟨w, records, time, rc, htrace, hlisted, -⟩
      · exact Or.inl (by rwa [hsame])
      · have hpos := h.time w clr time hw
        refine Or.inr (Or.inl ?_)
        rw [hput, Cell.put, if_pos (by omega)]
        rfl
      · exact Or.inr (Or.inr ⟨w, records, time, rc, by rw [htrace]; exact .head _, hlisted⟩)
    · exact Or.inr (hshows.step step)
  written clr hclr := by
    have old : clr ∈ successes s.trace → s'.Shows clr.impu clr.callFragment.key := fun hold => (h.written clr hold).step step
    obtain ⟨w, time, hwrote⟩ := mem_successes.mp hclr
    rcases step.store_cases with ⟨-, hevents⟩ | ⟨v, clr', time', rc, x, hw, ho, hstore, htrace⟩ |
      ⟨v, clr', time', records, rc, x, -, -, -, htrace⟩
    · exact old (mem_successes.mpr ⟨w, time, hevents _ _ _ _ hwrote⟩)
    · rw [htrace, List.mem_cons] at hwrote
      rcases hwrote with heq | hwrote
      · cases heq
        obtain rfl : x = _ := ho.resolve_right fun hfailed => hfailed.1 rfl
        rcases h.stamped clr.impu clr.callFragment.key with h0 | hshows
        · -- Nothing later is in the cell.
          have hpos := h.time w clr time hw
          refine Or.inl ?_
          rw [hstore, Function.update_self, Function.update_self, Cell.put, if_pos (by omega)]
          rfl
        · exact hshows.step step
      · exact old (mem_successes.mpr ⟨w, time, hwrote⟩)
    · rw [htrace, List.mem_cons] at hwrote
      rcases hwrote with heq | hwrote
      · cases heq
      · exact old (mem_successes.mpr ⟨w, time, hwrote⟩)
  time w clr time hw := by
    rcases step.writing_time hw with hw | hpos
    · exact h.time w clr time hw
    · exact hpos

theorem Reachable.showsWritten (h : Reachable config (lastWriteStore lt) s₀ s)
    (h0 : ∀ impu k, s₀.store impu k = Cell.empty) : s.ShowsWritten := by
  refine h.invariant ⟨fun impu k => Or.inl ?_, fun clr hclr => ?_, fun w clr time hw => ?_⟩ fun _ ih step => ih.step step
  · rw [h0]
    rfl
  · rw [h.initial.trace] at hclr
    cases hclr
  · rw [h.initial.worker] at hw
    cases hw

/-- When all work is done, each request was attempted. -/
theorem Reachable.attempted [Fintype W] (h : Reachable config (lastWriteStore lt) s₀ s) (drained : s.Drained)
    {clr : CallListRequest} (hclr : clr ∈ submissions s.trace) : clr ∈ attempts s.trace := by
  have balance := h.attempts_balance (· = clr)
  rw [drained.queue, drained.total rfl, List.countP_nil, Nat.zero_add, Nat.add_zero] at balance
  have hpos : 0 < (submissions s.trace).countP (· = clr) := List.countP_pos_iff.mpr ⟨clr, hclr, by simp⟩
  rw [balance, List.countP_pos_iff] at hpos
  obtain ⟨clr', hmem, heq⟩ := hpos
  obtain rfl : clr' = clr := by simpa using heq
  exact hmem

end Pool

/-! ### The log and the store -/

section Server
variable {D W : Type} [DecidableEq D] [DecidableEq W] {env : Env} {config : PoolConfig} {lt : Key → Key → Prop}
  {s₀ s : Server D W Cells} {events : List (ServerEvent D)}

omit [DecidableEq W] in
theorem mem_shown (hshown : (submissions s.pool.trace).reverse.map CallListRequest.shown =
    (callLog env events).entries.map Entry.shown) {clr : CallListRequest} :
    clr ∈ submissions s.pool.trace → ∃ x ∈ (callLog env events).entries, x.shown = clr.shown := by
  intro hclr
  have hmem := List.mem_map_of_mem (f := CallListRequest.shown) (List.mem_reverse.mpr hclr)
  rw [hshown] at hmem
  exact List.mem_map.mp hmem

section History
variable (history : ServerHistory env config (lastWriteStore lt) s₀ events s) (h0 : s₀.Initial)
  (hempty : ∀ impu k, s₀.pool.store impu k = Cell.empty) (ha : ∀ event ∈ events, event.Loggable)
include history h0 hempty ha

theorem entry_of_value {impu : Bytes} {k : Key} {contents : Bytes} (hv : (s.pool.store impu k).value = some contents) :
    ∃ x ∈ (callLog env events).entries, x.call.impu = impu ∧ x.key = k ∧ decode contents = some x.recorded := by
  obtain ⟨clr, hclr, rfl, rfl, rfl⟩ := (ServerHistory.run history).reachable h0 |>.value_submitted hempty hv
  obtain ⟨x, hx, hshown⟩ := mem_shown (history.logged h0 ha).shown hclr
  simp only [CallListRequest.shown, Entry.shown, Prod.mk.injEq] at hshown
  obtain ⟨himpu, hkey, hdecode⟩ := hshown
  exact ⟨x, hx, himpu, hkey, hdecode.symm⟩

/-- Whatever is shown at any time is an entry of the log: a call that was placed, and of it something that happened. -/
theorem cells_logged {impu : Bytes} {k : Key} {contents : Bytes} (hv : (s.pool.store impu k).value = some contents) :
    ∃ x : CallEntry D, x.call.impu = impu ∧ x.key = k ∧ decode contents = some x.recorded ∧
      (∃ event ∈ events, event.logged env = some (.placed x.dialog x.call)) ∧
      ∃ event ∈ events, event.logged env = some x.event := by
  obtain ⟨x, hx, himpu, hkey, hdecode⟩ := entry_of_value history h0 hempty ha hv
  obtain ⟨hcall, hevent⟩ := Log.mem_entries hx
  exact ⟨x, himpu, hkey, hdecode, List.mem_filterMap.mp (Log.placed_of_call hcall), List.mem_filterMap.mp hevent⟩

/-- When all work is done and every write succeeded, each entry of the log is shown, unless a trim deleted it. -/
theorem log_stored [Fintype W] (drained : s.pool.Drained) (hok : successes s.pool.trace = attempts s.pool.trace)
    {x : CallEntry D} (hx : x ∈ (callLog env events).entries) :
    (∃ contents, (s.pool.store x.call.impu x.key).value = some contents ∧ ∃ y ∈ (callLog env events).entries,
      y.call.impu = x.call.impu ∧ y.key = x.key ∧ decode contents = some y.recorded) ∨
    Deleted s.pool.trace x.call.impu x.key := by
  have reachable := (ServerHistory.run history).reachable h0
  have hmem := List.mem_map_of_mem (f := Entry.shown) hx
  rw [← (history.logged h0 ha).shown] at hmem
  obtain ⟨clr, hclr, hshown⟩ := List.mem_map.mp hmem
  simp only [CallListRequest.shown, Entry.shown, Prod.mk.injEq] at hshown
  obtain ⟨himpu, hkey, -⟩ := hshown
  have hwritten := reachable.attempted drained (List.mem_reverse.mp hclr)
  rw [← hok] at hwritten
  rcases (reachable.showsWritten hempty).written clr hwritten with hvisible | hdeleted
  · rw [himpu, hkey] at hvisible
    obtain ⟨contents, hv⟩ := Option.isSome_iff_exists.mp hvisible
    exact Or.inl ⟨contents, hv, entry_of_value history h0 hempty ha hv⟩
  · rw [himpu, hkey] at hdeleted
    exact Or.inr hdeleted

end History

/-- Where no two calls have the same id, no list ever shows a call both as answered and as rejected. -/
theorem outcomes_exclusive (history : ServerHistory env config (lastWriteStore lt) s₀ events s) (h0 : s₀.Initial)
    (hempty : ∀ impu k, s₀.pool.store impu k = Cell.empty) (ha : ∀ event ∈ events, event.Loggable)
    (hunique : ∀ event ∈ events, ∀ event' ∈ events, ∀ d c d' c', event.logged env = some (.placed d c) →
      event'.logged env = some (.placed d' c') → c.id = c'.id → d = d')
    (impu timestamp id : Bytes) :
    ¬((s.pool.store impu ⟨timestamp, id, .BEGIN⟩).Visible ∧ (s.pool.store impu ⟨timestamp, id, .REJECTED⟩).Visible) := by
  rintro ⟨hbegin, hrejected⟩
  obtain ⟨contents, hv⟩ := Option.isSome_iff_exists.mp hbegin
  obtain ⟨contents', hv'⟩ := Option.isSome_iff_exists.mp hrejected
  obtain ⟨x, hx, -, hkey, -⟩ := entry_of_value history h0 hempty ha hv
  obtain ⟨y, hy, -, hkey', -⟩ := entry_of_value history h0 hempty ha hv'
  have settled : ∀ z : CallEntry D, z.key.type ≠ .END → z.fact.isSettled = true := by
    rintro ⟨d, c, _ | endTime⟩ hz
    · rfl
    · exact absurd rfl hz
  have placed : ∀ z ∈ (callLog env events).entries, ∃ event ∈ events, event.logged env = some (.placed z.dialog z.call) :=
    fun z hz => List.mem_filterMap.mp (Log.placed_of_call (Log.mem_entries hz).1)
  have hdialog : x.dialog = y.dialog := by
    obtain ⟨event, he, hlogged⟩ := placed x hx
    obtain ⟨event', he', hlogged'⟩ := placed y hy
    have hid : x.key.id = y.key.id := by rw [hkey, hkey']
    exact hunique event he event' he' _ _ _ _ hlogged hlogged' hid
  have hxs : x ∈ (callLog env events).outcomes x.dialog :=
    List.mem_filter.mpr ⟨hx, by simpa using settled x (by rw [hkey]; nofun)⟩
  have hys : y ∈ (callLog env events).outcomes x.dialog :=
    List.mem_filter.mpr ⟨hy, by simpa [hdialog] using settled y (by rw [hkey']; nofun)⟩
  obtain rfl : x = y := Log.eq_of_mem_outcomes hxs hys
  rw [hkey] at hkey'
  cases hkey'

end Server

/-! ### Two calls in a list -/

/-- One worker writes the outcome of the first call, the other one that of the second, and both are about to read. -/
theorem exists_bothWritten (contents contents' contents'' : Bytes) : ∃ p : Pool Bool Cells,
    WorkerRun ⟨1, 604800, true⟩ (lastWriteStore (· < ·))
      ((Pool.new fun _ => .empty).submitAll (sampleRequests contents contents' contents'')) p ∧
    p.worker true = .reading (forBob (firstKey .BEGIN) contents) 1 ∧
    p.worker false = .reading (forBob (secondKey .REJECTED) contents') 2 ∧
    p.queue = [forBob (firstKey .END) contents''] ∧ p.clock = 2 ∧ successes p.trace = attempts p.trace ∧
    p.store (ascii "sip:bob@home") (firstKey .BEGIN) = ⟨1, some contents⟩ ∧
    p.store (ascii "sip:bob@home") (secondKey .REJECTED) = ⟨2, some contents'⟩ ∧
    p.store (ascii "sip:bob@home") (firstKey .END) = .empty := by
  have hs : isSampled 1 0 = .ok true := rfl
  have hne : firstKey .BEGIN ≠ secondKey .REJECTED := by decide
  have hend : firstKey .END ≠ firstKey .BEGIN ∧ firstKey .END ≠ secondKey .REJECTED := by decide
  have r0 : WorkerRun ⟨1, 604800, true⟩ (lastWriteStore (· < ·))
      ((Pool.new fun _ => .empty : Pool Bool Cells).submitAll (sampleRequests contents contents' contents'')) _ := .refl
  have r1 := r0.trans (run_written (w := true) rfl rfl Nat.zero_lt_one (write_cells _ _ _ 1 _))
  have r2 := r1.trans (run_written (w := false) rfl rfl (Nat.lt_succ_self 1) (write_cells _ _ _ 2 _))
  have r3 := r2.trans (run_sampled (w := true) rfl trivial hs)
  have r4 := r3.trans (run_sampled (w := false) rfl trivial hs)
  refine ⟨_, r4, rfl, rfl, rfl, rfl, rfl, ?_, ?_, ?_⟩
  · simp [hne]
    rfl
  · simp [hne.symm]
    rfl
  · simp [hend]
    rfl

theorem writtenHistory : ∃ (n : ℕ) (s : Server ℕ Bool Cells) (contents contents' : Bytes),
    ServerHistory centralEuropeEnv ⟨1, 604800, true⟩ (lastWriteStore (· < ·)) (.new fun _ => .empty)
      (sampleEvents ++ List.replicate n .work) s ∧
    (s.pool.store (ascii "sip:bob@home") (firstKey .BEGIN)).value = some contents ∧
    (s.pool.store (ascii "sip:bob@home") (secondKey .REJECTED)).value = some contents' := by
  obtain ⟨s, contents, contents', contents'', history, hpool⟩ := sampleHistory ⟨1, 604800, true⟩
  obtain ⟨p, steps, -, -, -, -, -, hbegin, hrejected, -⟩ := exists_bothWritten contents contents' contents''
  rw [← hpool] at steps
  obtain ⟨n, history⟩ := history.work steps
  exact ⟨n, _, contents, contents', history, congrArg Cell.value hbegin, congrArg Cell.value hrejected⟩

theorem cells_logged_sample : ∃ (s : Server ℕ Bool Cells) (contents contents' : Bytes) (x x' : CallEntry ℕ),
    (s.pool.store (ascii "sip:bob@home") (firstKey .BEGIN)).value = some contents ∧
      decode contents = some x.recorded ∧ x.key = firstKey .BEGIN ∧
    (s.pool.store (ascii "sip:bob@home") (secondKey .REJECTED)).value = some contents' ∧
      decode contents' = some x'.recorded ∧ x'.key = secondKey .REJECTED := by
  obtain ⟨n, s, contents, contents', history, hv, hv'⟩ := writtenHistory
  obtain ⟨x, -, hkey, hdecode, -⟩ :=
    cells_logged history (Server.initial_new _) (fun _ _ => rfl) (loggable_sampleEvents n) hv
  obtain ⟨x', -, hkey', hdecode', -⟩ :=
    cells_logged history (Server.initial_new _) (fun _ _ => rfl) (loggable_sampleEvents n) hv'
  exact ⟨s, contents, contents', x, x', hv, hdecode, hkey, hv', hdecode', hkey'⟩

/-- The first call is not shown as rejected, and the second not as answered. -/
theorem outcomes_exclusive_sample : ∃ s : Server ℕ Bool Cells,
    (s.pool.store (ascii "sip:bob@home") (firstKey .BEGIN)).Visible ∧
      ¬(s.pool.store (ascii "sip:bob@home") (firstKey .REJECTED)).Visible ∧
    (s.pool.store (ascii "sip:bob@home") (secondKey .REJECTED)).Visible ∧
      ¬(s.pool.store (ascii "sip:bob@home") (secondKey .BEGIN)).Visible := by
  obtain ⟨n, s, contents, contents', history, hv, hv'⟩ := writtenHistory
  have hbegin : (s.pool.store (ascii "sip:bob@home") (firstKey .BEGIN)).Visible := Option.isSome_iff_exists.mpr ⟨_, hv⟩
  have hrejected : (s.pool.store (ascii "sip:bob@home") (secondKey .REJECTED)).Visible :=
    Option.isSome_iff_exists.mpr ⟨_, hv'⟩
  have exclusive := outcomes_exclusive history (Server.initial_new _) (fun _ _ => rfl) (loggable_sampleEvents n)
    (fun event he event' he' d c d' c' h h' => unique_sampleEvents he h he' h') (ascii "sip:bob@home")
  exact ⟨s, hbegin, fun h => exclusive _ _ ⟨hbegin, h⟩, hrejected, fun h => exclusive _ _ ⟨h, hrejected⟩⟩

end Memento
