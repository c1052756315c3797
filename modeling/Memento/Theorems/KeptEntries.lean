import Memento.Theorems.Convergence

/-! The latest calls of the log are shown. What a trim deletes has as many newer calls as the list may hold, so that an
    entry with fewer is in the store when all work is done and every write succeeded. -/

namespace Memento
open Text LastWrite CallLog

section Pool
variable {W : Type} [DecidableEq W] {config : PoolConfig} {lt : Key → Key → Prop} [IsStrictTotalOrder Key lt]
  {s₀ s s' : Pool W Cells}

/-- What is about to be deleted, and what was, has as many newer calls as the list may hold. -/
structure Pool.Outlives (lt : Key → Key → Prop) (M : ℤ) (s : Pool W Cells) : Prop where
  selected : ∀ w clr time records, s.worker w = .trimming clr time records →
    ∀ f ∈ records, Outlived lt M s.trace clr.impu f.key
  deleted : ∀ impu k, Deleted s.trace impu k → Outlived lt M s.trace impu k

theorem Pool.Outlives.step (h : s.Outlives lt config.maxCallListLength) (hr : Reachable config (lastWriteStore lt) s₀ s)
    (h0 : ∀ impu k, s₀.store impu k = Cell.empty) (step : Step config (lastWriteStore lt) s s') :
    s'.Outlives lt config.maxCallListLength where
  selected w clr time recordsToDelete hw f hf := by
    refine Outlived.mono ?_ step.trace_subset
    rcases step.trimming_cases hw with hw | ⟨rc, records, -, ⟨hsorted, hvisible⟩, hs, -⟩
    · exact h.selected w clr time recordsToDelete hw f hf
    · refine outlived_of_selected hs hsorted (fun g hg => ?_) hf
      obtain ⟨clr', hclr', himpu, hkey, -⟩ := hr.value_submitted h0 (hvisible g hg)
      exact ⟨clr', mem_submissions.mp hclr', himpu, hkey⟩
  deleted impu k := by
    rintro ⟨w, records, time, rc, hmem, f, hf, rfl⟩
    refine Outlived.mono ?_ step.trace_subset
    have old : .deleted w impu records time rc ∈ s.trace → Outlived lt config.maxCallListLength s.trace impu f.key :=
      fun hmem => h.deleted impu f.key ⟨w, records, time, rc, hmem, f, hf, rfl⟩
    rcases step.trace_cases with hsame | ⟨e, htrace, -⟩
    · exact old (hsame ▸ hmem)
    · rw [htrace, List.mem_cons] at hmem
      rcases hmem with rfl | hmem
      · obtain ⟨clr, x, hw, rfl, -⟩ := step.deleted_inv htrace
        exact h.selected w clr time records hw f hf
      · exact old hmem

theorem Reachable.outlives (h : Reachable config (lastWriteStore lt) s₀ s) (h0 : ∀ impu k, s₀.store impu k = Cell.empty) :
    s.Outlives lt config.maxCallListLength := by
  refine h.invariant ⟨fun w clr time records hw => ?_, fun impu k hd => ?_⟩ fun hr ih step => ih.step hr h0 step
  · rw [h.initial.worker] at hw
    cases hw
  · obtain ⟨w, records, time, rc, hmem, -⟩ := hd
    rw [h.initial.trace] at hmem
    cases hmem

end Pool

/-! ### The log -/

section Server
variable {D W : Type} [DecidableEq D] [DecidableEq W] [Fintype W] {env : Env} {config : PoolConfig} {lt : Key → Key → Prop}
  [IsStrictTotalOrder Key lt] {s₀ s : Server D W Cells} {events : List (ServerEvent D)}

/-- The keys of the calls in the list of an entry that sort after it. -/
def newerEntries (lt : Key → Key → Prop) (log : CallLog D) (x : CallEntry D) : Set Key :=
  {k | (∃ y ∈ log.entries, y.call.impu = x.call.impu ∧ y.key = k) ∧ k.type.isCall = true ∧ lt x.key k}

/-- Where lists are unlimited, or fewer calls than a list may hold are newer than an entry, it is shown when all work is
    done and every write succeeded. -/
theorem recent_entries_shown (history : ServerHistory env config (lastWriteStore lt) s₀ events s) (h0 : s₀.Initial)
    (hempty : ∀ impu k, s₀.pool.store impu k = Cell.empty) (ha : ∀ event ∈ events, event.Loggable)
    (drained : s.pool.Drained) (hok : successes s.pool.trace = attempts s.pool.trace) {x : CallEntry D}
    (hx : x ∈ (callLog env events).entries)
    (hrecent : config.maxCallListLength = 0 ∨
      (newerEntries lt (callLog env events) x).encard < config.maxCallListLength.toNat) :
    ∃ contents, (s.pool.store x.call.impu x.key).value = some contents ∧ ∃ y ∈ (callLog env events).entries,
      y.call.impu = x.call.impu ∧ y.key = x.key ∧ decode contents = some y.recorded := by
  have reachable := (ServerHistory.run history).reachable h0
  refine (log_stored history h0 hempty ha drained hok hx).resolve_right fun hdeleted => ?_
  rcases hrecent with hM | hfew
  · obtain ⟨w, records, time, rc, hmem, -⟩ := hdeleted
    exact (reachable.untrimmed hM).trace w _ records time rc hmem
  · have hsub : newerCalls lt s.pool.trace x.call.impu x.key ⊆ newerEntries lt (callLog env events) x := by
      rintro k ⟨⟨clr, hclr, himpu, hkey⟩, hcall, hlt⟩
      obtain ⟨y, hy, hshown⟩ := mem_shown (history.logged h0 ha).shown (mem_submissions.mpr hclr)
      simp only [CallListRequest.shown, Entry.shown, Prod.mk.injEq] at hshown
      obtain ⟨himpu', hkey', -⟩ := hshown
      exact ⟨⟨y, hy, himpu'.trans himpu, hkey'.trans hkey⟩, hcall, hlt⟩
    have houtlived := (reachable.outlives hempty).deleted _ _ hdeleted
    exact absurd (houtlived.trans (Set.encard_le_encard hsub)) (not_le.mpr hfew)

end Server

/-! ### Two calls in a list of one -/

/-- The worker of the second call trims the first, before the other one reads. -/
theorem exists_trimmed (contents contents' contents'' : Bytes) : ∃ p : Pool Bool Cells,
    WorkerRun ⟨1, 604800, true⟩ (lastWriteStore (· < ·))
      ((Pool.new fun _ => .empty).submitAll (sampleRequests contents contents' contents'')) p ∧
    p.worker true = .reading (forBob (firstKey .BEGIN) contents) 1 ∧ p.worker false = .idle ∧
    p.queue = [forBob (firstKey .END) contents''] ∧ p.clock = 2 ∧ successes p.trace = attempts p.trace ∧
    .deleted false (ascii "sip:bob@home") [(forBob (firstKey .BEGIN) contents).callFragment] 2 .OK ∈ p.trace ∧
    (p.store (ascii "sip:bob@home") (secondKey .REJECTED)).value = some contents' ∧
    p.store (ascii "sip:bob@home") (firstKey .END) = .empty := by
  obtain ⟨p, r1, htrue, hfalse, hqueue, hclock, hok, hbegin, hrejected, hend⟩ :=
    exists_bothWritten contents contents' contents''
  have hne : secondKey .REJECTED ≠ firstKey .BEGIN ∧ firstKey .END ≠ firstKey .BEGIN := by decide
  have hget : (lastWriteStore (· < ·)).get (p.store (ascii "sip:bob@home")) .OK
      [(forBob (firstKey .BEGIN) contents).callFragment, (forBob (secondKey .REJECTED) contents').callFragment] :=
    get_pair (by decide : firstKey .BEGIN < secondKey .REJECTED) (by simp [hbegin]) (by simp [hrejected])
  have hselect : selectRecords 1 .OK [(forBob (firstKey .BEGIN) contents).callFragment,
      (forBob (secondKey .REJECTED) contents').callFragment] =
        .ok (true, [(forBob (firstKey .BEGIN) contents).callFragment]) :=
    selectRecords_ok (M := 1) (by norm_num) (by norm_num)
  have r2 := r1.trans (run_trimmed rfl hfalse hget hselect (delete_cells _ _ _ _))
  refine ⟨_, r2, htrue, rfl, hqueue, hclock, hok, by simp, ?_, ?_⟩
  · simp [Cells.delete, hne.1, hrejected]
  · simp [Cells.delete, hne.2, hend]

/-- The other one completes its request then, and writes the end of the first call. -/
theorem exists_endWritten (contents contents' contents'' : Bytes) : ∃ p : Pool Bool Cells,
    WorkerRun ⟨1, 604800, true⟩ (lastWriteStore (· < ·))
      ((Pool.new fun _ => .empty).submitAll (sampleRequests contents contents' contents'')) p ∧
    p.worker true = .counting (forBob (firstKey .END) contents'') 3 ∧ p.worker false = .idle ∧ p.queue = [] ∧
    successes p.trace = attempts p.trace ∧
    .deleted false (ascii "sip:bob@home") [(forBob (firstKey .BEGIN) contents).callFragment] 2 .OK ∈ p.trace ∧
    (p.store (ascii "sip:bob@home") (secondKey .REJECTED)).value = some contents' ∧
    (p.store (ascii "sip:bob@home") (firstKey .END)).value = some contents'' := by
  obtain ⟨p, r1, htrue, hfalse, hqueue, hclock, hok, hdeleted, hrejected, hend⟩ :=
    exists_trimmed contents contents' contents''
  have hne : secondKey .REJECTED ≠ firstKey .END := by decide
  have r2 := r1.trans (run_kept rfl htrue (get_singleton hrejected : (lastWriteStore (· < ·)).get _ .OK
    [(forBob (secondKey .REJECTED) contents').callFragment]) (selectRecords_ok (M := 1) (by norm_num) (by norm_num)))
  have r3 := r2.trans (run_written (w := true) (worker_setWorker_self ..) hqueue (hclock.trans_lt (Nat.lt_succ_self 2))
    (write_cells _ _ _ 3 _))
  refine ⟨_, r3, worker_setWorker_self .., hfalse, rfl, congrArg (_ :: ·) hok, by simp [hdeleted], ?_, ?_⟩
  · simp [hne, hrejected]
  · simp [hend]
    rfl

/-- It finds one call in the list, and all work is done. -/
theorem exists_trimmedDrained (contents contents' contents'' : Bytes) : ∃ p : Pool Bool Cells,
    WorkerRun ⟨1, 604800, true⟩ (lastWriteStore (· < ·))
      ((Pool.new fun _ => .empty).submitAll (sampleRequests contents contents' contents'')) p ∧
    p.Drained ∧ successes p.trace = attempts p.trace ∧
    .deleted false (ascii "sip:bob@home") [(forBob (firstKey .BEGIN) contents).callFragment] 2 .OK ∈ p.trace := by
  obtain ⟨p, r1, htrue, hfalse, hqueue, hok, hdeleted, hrejected, hend⟩ := exists_endWritten contents contents' contents''
  have hget : (lastWriteStore (· < ·)).get (p.store (ascii "sip:bob@home")) .OK
      [(forBob (firstKey .END) contents'').callFragment, (forBob (secondKey .REJECTED) contents').callFragment] :=
    get_pair (by decide : firstKey .END < secondKey .REJECTED) hend hrejected
  have r2 := r1.trans (run_sampled (w := true) htrue trivial (rfl : isSampled 1 0 = .ok true))
  have r3 := r2.trans (run_kept rfl (worker_setWorker_self ..) hget (selectRecords_ok (M := 1) (by norm_num) (by norm_num)))
  exact ⟨_, r3, ⟨hqueue, Bool.forall_bool.mpr ⟨hfalse, worker_setWorker_self ..⟩⟩, hok, by simp [hdeleted]⟩

theorem newest_sampleEvents : ∃ x ∈ (callLog centralEuropeEnv sampleEvents).entries,
    x.call.impu = ascii "sip:bob@home" ∧ x.key = secondKey .REJECTED ∧
      ∀ y ∈ (callLog centralEuropeEnv sampleEvents).entries, ¬x.key < y.key := by
  decide +kernel

/-- The first call is trimmed, and the second one is shown. -/
theorem recent_entries_shown_sample : ∃ (s : Server ℕ Bool Cells) (contents : Bytes), s.pool.Drained ∧
    Deleted s.pool.trace (ascii "sip:bob@home") (firstKey .BEGIN) ∧
    (s.pool.store (ascii "sip:bob@home") (secondKey .REJECTED)).value = some contents ∧
      ∃ y : CallEntry ℕ, y.key = secondKey .REJECTED ∧ decode contents = some y.recorded := by
  obtain ⟨s, contents, contents', contents'', history, hpool⟩ := sampleHistory ⟨1, 604800, true⟩
  obtain ⟨p, steps, drained, hok, hdeleted⟩ := exists_trimmedDrained contents contents' contents''
  rw [← hpool] at steps
  obtain ⟨n, history⟩ := history.work steps
  obtain ⟨x, hx, himpu, hkey, hnewest⟩ := newest_sampleEvents
  rw [← callLog_work n] at hx hnewest
  have hnone : newerEntries (· < ·) (callLog centralEuropeEnv (sampleEvents ++ List.replicate n .work)) x = ∅ := by
    refine Set.eq_empty_of_forall_notMem ?_
    rintro _ ⟨⟨y, hy, -, rfl⟩, -, hlt⟩
    exact hnewest y hy hlt
  obtain ⟨contents, hv, y, -, -, hy, hdecode⟩ := recent_entries_shown history (Server.initial_new _) (fun _ _ => rfl)
    (loggable_sampleEvents n) drained hok hx (Or.inr (by simp [hnone]))
  rw [himpu, hkey] at hv
  exact ⟨_, contents, drained, ⟨_, _, _, _, hdeleted, _, .head _, rfl⟩, hv, y, hy.trans hkey, hdecode⟩

end Memento
