import Memento.Lib.LastWrite
import Memento.Theorems.Pool

/-! What a trim hides. A delete carries the timestamp that its worker took before its own write, so it misses what
    another worker wrote with a later timestamp before the read. In runs without such reads it hides all it selected. -/

namespace Memento
open Text LastWrite

abbrev Cells := Key → Cell Bytes

/-- The store with last-write-wins cells. A failed write or delete may have taken effect, also in part. -/
def lastWriteStore (lt : Key → Key → Prop) : Outside Cells where
  rand _ := True
  write l f time _ rc l' := l' = Function.update l f.key ((l f.key).put time f.contents) ∨ rc ≠ .OK ∧ l' = l
  get l _ records := (records.map CallFragment.key).Pairwise lt ∧ ∀ f ∈ records, (l f.key).value = some f.contents
  delete l records time rc l' := (∀ k, l' k = l k ∨ (∃ f ∈ records, f.key = k) ∧ l' k = (l k).kill time) ∧
    (rc = .OK → ∀ f ∈ records, l' f.key = (l f.key).kill time)

section
variable {W : Type} [DecidableEq W]

def Event.isReadBy (w : W) : Event W → Bool
  | .read v _ _ _ => v = w
  | _ => false

/-- What the cell holds was written since the last read of the worker. -/
def WrittenSinceRead (trace : List (Event W)) (w : W) (impu : Bytes) (k : Key) (cell : Cell Bytes) : Prop :=
  ∃ v clr cassTimestamp rc, .wrote v clr cassTimestamp rc ∈ trace.takeWhile (fun e => !e.isReadBy w) ∧ clr.impu = impu ∧
    clr.callFragment.key = k ∧ cell = ⟨cassTimestamp, some clr.contents⟩

/-- If the step is a successful delete, it hides what it lists, unless what is there was written since the worker's
    read. -/
def DeleteHides (s s' : Pool W Cells) : Prop :=
  ∀ w clr cassTimestamp recordsToDelete, s.worker w = .trimming clr cassTimestamp recordsToDelete →
    s'.trace = .deleted w clr.impu recordsToDelete cassTimestamp .OK :: s.trace → ∀ f ∈ recordsToDelete,
      ¬(s'.store clr.impu f.key).Visible ∨ WrittenSinceRead s.trace w clr.impu f.key (s'.store clr.impu f.key)

/-- If the step is a read of too many calls, none of the first records, as many as there are calls above the maximum,
    was written with a later timestamp than the worker has. -/
def Timely (M : ℤ) (s s' : Pool W Cells) : Prop :=
  ∀ w clr cassTimestamp records, s.worker w = .reading clr cassTimestamp →
    s'.trace = .read w clr.impu .OK records :: s.trace → exceedsThreshold (countCalls records) M = true →
      ∀ f ∈ records.take (countCalls records - M).toNat, (s.store clr.impu f.key).stamp ≤ cassTimestamp

/-- A delete by a worker hides the fragment, or need not: it was written since the worker's read. -/
def Hideable (s : Pool W Cells) (w : W) (impu : Bytes) (cassTimestamp : ℕ) (k : Key) : Prop :=
  ¬(s.store impu k).Visible ∨ (s.store impu k).stamp ≤ cassTimestamp ∨
    WrittenSinceRead s.trace w impu k (s.store impu k)

def AllHideable (s : Pool W Cells) : Prop :=
  ∀ w clr cassTimestamp recordsToDelete, s.worker w = .trimming clr cassTimestamp recordsToDelete → ∀ f ∈ recordsToDelete,
    Hideable s w clr.impu cassTimestamp f.key

theorem WrittenSinceRead.cons {trace : List (Event W)} {w : W} {impu : Bytes} {k : Key} {cell : Cell Bytes}
    (h : WrittenSinceRead trace w impu k cell) {e : Event W} (he : e.isReadBy w = false) :
    WrittenSinceRead (e :: trace) w impu k cell := by
  obtain ⟨v, clr, cassTimestamp, rc, hmem, hrest⟩ := h
  refine ⟨v, clr, cassTimestamp, rc, ?_, hrest⟩
  rw [List.takeWhile_cons_of_pos (by simp [he])]
  exact List.mem_cons_of_mem _ hmem

variable {config : PoolConfig} {lt : Key → Key → Prop} {s s' : Pool W Cells}

theorem deleteHides_of_hideable (h : AllHideable s) (step : Step config (lastWriteStore lt) s s') : DeleteHides s s' := by
  intro w clr cassTimestamp recordsToDelete hw htrace f hf
  obtain ⟨clr', x, hw', hi, ⟨-, hkill⟩, hstore⟩ := step.deleted_inv htrace
  rw [hstore, Function.update_self, hkill rfl f hf]
  rcases h w clr cassTimestamp recordsToDelete hw f hf with hv | hle | hwritten
  · exact Or.inl fun hv' => hv (Cell.visible_kill.mp hv').1
  · exact Or.inl fun hv' => absurd (Cell.visible_kill.mp hv').2 (not_lt.mpr hle)
  · rcases (s.store clr.impu f.key).kill_cases cassTimestamp with hv | hsame
    · exact Or.inl hv
    · rw [hsame]
      exact Or.inr hwritten

/-- A worker that is about to trim reads nothing, so what was written since its read stays so. -/
theorem WrittenSinceRead.step {w : W} {impu : Bytes} {k : Key} {cell : Cell Bytes}
    (h : WrittenSinceRead s.trace w impu k cell) (step : Step config (lastWriteStore lt) s s') {clr : CallListRequest}
    {cassTimestamp : ℕ} {recordsToDelete : List CallFragment}
    (hw : s.worker w = .trimming clr cassTimestamp recordsToDelete) : WrittenSinceRead s'.trace w impu k cell := by
  rcases step.trace_cases with htrace | ⟨e, htrace, hread⟩
  · rwa [htrace]
  · rw [htrace]
    refine h.cons ?_
    by_contra he
    cases e with
    | read v impu' rc records =>
      obtain rfl : v = w := by simpa [Event.isReadBy] using he
      obtain ⟨clr', cassTimestamp', hreading⟩ := hread v impu' rc records rfl
      rw [hw] at hreading
      cases hreading
    | _ => exact he rfl

theorem Hideable.step {w : W} {clr : CallListRequest} {cassTimestamp : ℕ} {recordsToDelete : List CallFragment} {k : Key}
    (h : Hideable s w clr.impu cassTimestamp k) (step : Step config (lastWriteStore lt) s s')
    (hw : s.worker w = .trimming clr cassTimestamp recordsToDelete) : Hideable s' w clr.impu cassTimestamp k := by
  have same : s'.store clr.impu k = s.store clr.impu k → Hideable s' w clr.impu cassTimestamp k := by
    intro heq
    unfold Hideable
    rw [heq]
    exact h.imp_right (Or.imp_right fun hs => hs.step step hw)
  rcases step.store_cases with ⟨hstore, -⟩ | ⟨v, clr', time, rc, x, -, ho, hstore, htrace⟩ |
    ⟨v, clr', time, sel, rc, x, -, ⟨ho, -⟩, hstore, -⟩
  · exact same (by rw [hstore])
  · have hwrote : .wrote v clr' time rc ∈ s'.trace.takeWhile (fun e => !e.isReadBy w) := by
      rw [htrace, List.takeWhile_cons_of_pos (by simp [Event.isReadBy])]
      exact .head _
    by_cases hi : clr.impu = clr'.impu
    · have hx : s'.store clr.impu k = x k := by rw [hstore, hi, Function.update_self]
      rw [← hi] at ho
      rcases ho with rfl | ⟨-, rfl⟩
      · by_cases hk : k = clr'.callFragment.key
        · rw [hk, Function.update_self] at hx
          -- The write takes effect, or a later one is there.
          rcases Cell.put_cases (s.store clr.impu clr'.callFragment.key) time clr'.callFragment.contents with hkept | hput
          · exact same (by rw [hk, hx, hkept])
          · exact Or.inr (Or.inr ⟨v, clr', time, rc, hwrote, hi.symm, hk.symm, by rw [hk, hx, hput]; rfl⟩)
        · exact same (hx.trans (Function.update_of_ne hk _ _))
      · exact same hx
    · exact same (by rw [hstore, Function.update_of_ne hi])
  · by_cases hi : clr.impu = clr'.impu
    · have hx : s'.store clr.impu k = x k := by rw [hstore, hi, Function.update_self]
      rw [← hi] at ho
      rcases ho k with hk | ⟨-, hk⟩
      · exact same (hx.trans hk)
      · rcases (s.store clr.impu k).kill_cases time with hv | heq
        · exact Or.inl (by rwa [hx, hk])
        · exact same (hx.trans (hk.trans heq))
    · exact same (by rw [hstore, Function.update_of_ne hi])

theorem AllHideable.step (h : AllHideable s) (step : Step config (lastWriteStore lt) s s')
    (timely : Timely config.maxCallListLength s s') : AllHideable s' := by
  intro w clr cassTimestamp recordsToDelete hw' f hf
  rcases step.trimming_cases hw' with hw | ⟨rc, records, hw, -, hs, hstore, htrace⟩
  · exact (h w clr cassTimestamp recordsToDelete hw f hf).step step hw
  · rcases selectRecords_cases hs with ⟨-, rfl, hex, -, rfl⟩ | ⟨hn, -⟩
    · refine Or.inr (Or.inl ?_)
      rw [hstore]
      exact timely w clr cassTimestamp records hw htrace hex f hf
    · cases hn

abbrev TimelyRun (config : PoolConfig) (lt : Key → Key → Prop) : Pool W Cells → Pool W Cells → Prop :=
  Relation.ReflTransGen fun s s' => Step config (lastWriteStore lt) s s' ∧ Timely config.maxCallListLength s s'

theorem TimelyRun.quiet {s₀ : Pool W Cells} (run : TimelyRun config lt s₀ s) (step : Step config (lastWriteStore lt) s s')
    (h : ∀ w clr cassTimestamp, s.worker w ≠ .reading clr cassTimestamp) : TimelyRun config lt s₀ s' :=
  run.tail ⟨step, fun w clr cassTimestamp _ hw => absurd hw (h w clr cassTimestamp)⟩

theorem TimelyRun.read {s₀ : Pool W Cells} (run : TimelyRun config lt s₀ s) {w : W} {clr : CallListRequest}
    {cassTimestamp : ℕ} {records recordsToDelete : List CallFragment} (hw : s.worker w = .reading clr cassTimestamp)
    (ho : (lastWriteStore lt).get (s.store clr.impu) .OK records)
    (hs : selectRecords config.maxCallListLength .OK records = .ok (true, recordsToDelete))
    (hstamp : ∀ f ∈ recordsToDelete, (s.store clr.impu f.key).stamp ≤ cassTimestamp) :
    ∃ s', TimelyRun config lt s₀ s' ∧ s'.worker w = .trimming clr cassTimestamp recordsToDelete := by
  refine ⟨_, run.tail ⟨.read w .OK records hw ho hs, fun v clr' time read hv htrace _ f hf => ?_⟩, worker_setWorker_self ..⟩
  rcases selectRecords_cases hs with ⟨-, -, -, -, rfl⟩ | ⟨hn, -⟩
  · simp only [trace_setWorker, trace_log, List.cons.injEq, Event.read.injEq, and_true, true_and] at htrace
    obtain ⟨rfl, -, rfl⟩ := htrace
    rw [hw] at hv
    cases hv
    exact hstamp f hf
  · cases hn

omit [DecidableEq W] in
theorem write_cells (lt : Key → Key → Prop) (l : Cells) (f : CallFragment) (time : ℕ) (ttl : ℤ) :
    (lastWriteStore lt).write l f time ttl .OK (Function.update l f.key ((l f.key).put time f.contents)) := Or.inl rfl

omit [DecidableEq W] in
theorem get_singleton {lt : Key → Key → Prop} {l : Cells} {f : CallFragment} (hf : (l f.key).value = some f.contents) :
    (lastWriteStore lt).get l .OK [f] :=
  ⟨List.pairwise_singleton _ _, List.forall_mem_singleton.mpr hf⟩

omit [DecidableEq W] in
theorem get_pair {lt : Key → Key → Prop} {l : Cells} {f g : CallFragment} (hlt : lt f.key g.key)
    (hf : (l f.key).value = some f.contents) (hg : (l g.key).value = some g.contents) :
    (lastWriteStore lt).get l .OK [f, g] :=
  ⟨List.pairwise_pair.mpr hlt, List.forall_mem_cons.mpr ⟨hf, List.forall_mem_singleton.mpr hg⟩⟩

/-- A delete of all that is listed. -/
def Cells.delete (l : Cells) (records : List CallFragment) (time : ℕ) : Cells := fun k =>
  if k ∈ records.map CallFragment.key then (l k).kill time else l k

omit [DecidableEq W] in
theorem delete_cells (lt : Key → Key → Prop) (l : Cells) (records : List CallFragment) (time : ℕ) :
    (lastWriteStore lt).delete l records time .OK (l.delete records time) := by
  refine ⟨fun k => ?_, fun _ f hf => if_pos (List.mem_map_of_mem hf)⟩
  by_cases hk : k ∈ records.map CallFragment.key
  · exact Or.inr ⟨List.mem_map.mp hk, if_pos hk⟩
  · exact Or.inl (if_neg hk)

theorem exists_delete {w : W} {clr : CallListRequest} {cassTimestamp : ℕ} {recordsToDelete : List CallFragment}
    (hw : s.worker w = .trimming clr cassTimestamp recordsToDelete) :
    ∃ s', Step config (lastWriteStore lt) s s' ∧
      s'.trace = .deleted w clr.impu recordsToDelete cassTimestamp .OK :: s.trace ∧
      ∀ f ∈ recordsToDelete, s'.store clr.impu f.key = (s.store clr.impu f.key).kill cassTimestamp := by
  have deleted := delete_cells lt (s.store clr.impu) recordsToDelete cassTimestamp
  refine ⟨_, .delete w .OK _ hw deleted, rfl, fun f hf => ?_⟩
  simp [deleted.2 rfl f hf]

/-- In a run whose reads are all timely, every successful delete hides what its worker selected, unless that was written
    again after the read. -/
theorem deletes_hide {s₀ : Pool W Cells} (h0 : s₀.Initial)
    (run : TimelyRun config lt s₀ s)
    (step : Step config (lastWriteStore lt) s s') : DeleteHides s s' := by
  refine deleteHides_of_hideable ?_ step
  clear step
  induction run with
  | refl =>
    intro w clr cassTimestamp recordsToDelete hw
    rw [h0.worker] at hw
    cases hw
  | tail _ last ih => exact ih.step last.1 last.2

end

/-! ### Two workers -/

theorem deletes_hide_sample : ∃ s s' : Pool Unit Cells, Step ⟨1, 604800, true⟩ (lastWriteStore (· < ·)) s s' ∧
    s.worker () = .trimming newRejected 2 [lateBegin.callFragment] ∧ DeleteHides s s' := by
  let held : Cells := Function.update (fun _ => .empty) lateBegin.callFragment.key ⟨1, some []⟩
  let s₀ : Pool Unit Cells := ⟨[], fun _ => .idle, fun _ => held, 1, 0, 0, 0, 0, []⟩
  have r0 : TimelyRun ⟨1, 604800, true⟩ (· < ·) s₀ _ := .refl
  have r1 := r0.quiet (.submit newRejected) fun _ _ _ => nofun
  have r2 := r1.quiet (.take () rfl rfl) fun _ _ _ => nofun
  have r3 := r2.quiet (.stamp () 2 rfl (Nat.lt_succ_self 1)) fun _ _ _ => nofun
  have r4 := r3.quiet (.write () .OK _ rfl (Or.inl rfl)) fun _ _ _ => nofun
  have r5 := r4.quiet (.count () rfl) fun _ _ _ => nofun
  have r6 := r5.quiet (.sample () 0 rfl trivial rfl) fun _ _ _ => nofun
  obtain ⟨s, r7, hw⟩ : ∃ s, TimelyRun ⟨1, 604800, true⟩ (· < ·) s₀ s ∧
      s.worker () = .trimming newRejected 2 [lateBegin.callFragment] :=
    r6.read rfl ⟨by decide, by decide⟩ selectRecords_late (by decide)
  obtain ⟨s', step, -, -⟩ := exists_delete hw
  exact ⟨s, s', step, hw, deletes_hide ⟨rfl, fun _ => rfl, rfl⟩ r7 step⟩

/-- Two workers: the one that took its timestamp first selects what the other has written. Its delete returns OK, and
    the fragment stays visible. -/
theorem delete_misses : ∃ s s' : Pool Bool Cells,
    Reachable ⟨1, 604800, true⟩ (lastWriteStore (· < ·)) (.new fun _ => .empty) s ∧
      Step ⟨1, 604800, true⟩ (lastWriteStore (· < ·)) s s' ∧ ¬DeleteHides s s' := by
  have r0 : Reachable ⟨1, 604800, true⟩ (lastWriteStore (· < ·)) (.new fun _ => .empty : Pool Bool Cells) _ := .new _ _ _
  have r1 := r0.step (.submit newRejected)
  have r2 := r1.step (.submit lateBegin)
  have r3 := r2.step (.take true rfl rfl)
  have r4 := r3.step (.take false rfl rfl)
  have r5 := r4.step (.stamp true 1 rfl Nat.zero_lt_one)
  have r6 := r5.step (.stamp false 2 rfl (Nat.lt_succ_self 1))
  have r7 := r6.step (.write false .OK _ rfl (Or.inl rfl))
  have r8 := r7.step (.write true .OK _ rfl (Or.inl rfl))
  have r9 := r8.step (.count true rfl)
  have r10 := r9.step (.sample true 0 rfl trivial rfl)
  obtain ⟨s, older, r11, hw, hcell, htrace⟩ : ∃ s older,
      Reachable ⟨1, 604800, true⟩ (lastWriteStore (· < ·)) (.new fun _ => .empty : Pool Bool Cells) s ∧
      s.worker true = .trimming newRejected 1 [lateBegin.callFragment] ∧
      s.store (ascii "sip:bob@home") lateBegin.callFragment.key = ⟨2, some []⟩ ∧
      s.trace = .read true (ascii "sip:bob@home") .OK [lateBegin.callFragment, newRejected.callFragment] :: older :=
    ⟨_, _, r10.step (.read true .OK [lateBegin.callFragment, newRejected.callFragment] rfl ⟨by decide, by decide⟩
      selectRecords_late), rfl, rfl, rfl⟩
  obtain ⟨s', step, htrace', hkill⟩ := exists_delete hw
  refine ⟨s, s', r11, step, fun hides => ?_⟩
  rcases hides true newRejected 1 _ hw htrace' lateBegin.callFragment (.head _) with hv | ⟨v, clr, time, rc, hmem, -⟩
  · -- The cell has timestamp 2 and the delete 1.
    have hk : s'.store newRejected.impu lateBegin.callFragment.key = (⟨2, some []⟩ : Cell Bytes).kill 1 :=
      (hkill _ (.head _)).trans (congrArg (Cell.kill · 1) hcell)
    rw [hk, Cell.visible_kill] at hv
    exact hv ⟨rfl, Nat.lt_succ_self 1⟩
  · rw [htrace, List.takeWhile_cons_of_neg (by simp [Event.isReadBy])] at hmem
    cases hmem

end Memento
