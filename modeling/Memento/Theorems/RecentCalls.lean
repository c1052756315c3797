import Mathlib.Data.Set.Card
import Memento.Theorems.Requests

/-! Recent calls survive trimming, under every interleaving of the workers and a store that promises little. A
    record is selected only when as many newer calls are stored as the list may hold, however old the read is. -/

namespace Memento
open Text

/-- A call list of which it is known what it holds, and what was ever written to it. -/
structure CallList where
  held : Set Key
  written : Set Key

/-- What is relied on of the store: a write that succeeds is held, a read gives some of what was written, in order,
    and a delete removes at most what it lists. -/
def weakStore (lt : Key → Key → Prop) : Outside CallList where
  rand _ := True
  write l f _ _ rc l' := l'.written = insert f.key l.written ∧ l.held ⊆ l'.held ∧ l'.held ⊆ insert f.key l.held ∧
    (rc = .OK → f.key ∈ l'.held)
  get l _ records := (records.map CallFragment.key).Pairwise lt ∧ ∀ f ∈ records, f.key ∈ l.written
  delete l records _ _ l' := l'.written = l.written ∧ l'.held ⊆ l.held ∧
    ∀ k ∈ l.held, k ∉ l'.held → ∃ f ∈ records, f.key = k

section
variable {W σ : Type}

def newerCalls (lt : Key → Key → Prop) (trace : List (Event W)) (impu : Bytes) (k : Key) : Set Key :=
  {k' | (∃ clr, .submitted clr ∈ trace ∧ clr.impu = impu ∧ clr.callFragment.key = k') ∧ k'.type.isCall = true ∧ lt k k'}

theorem newerCalls_mono {lt : Key → Key → Prop} {trace trace' : List (Event W)} (h : trace ⊆ trace') (impu : Bytes)
    (k : Key) : newerCalls lt trace impu k ⊆ newerCalls lt trace' impu k := by
  rintro k' ⟨⟨clr, hs, hi, hk⟩, hcall, hlt⟩
  exact ⟨⟨clr, h hs, hi, hk⟩, hcall, hlt⟩

theorem mem_submissions {trace : List (Event W)} {clr : CallListRequest} :
    clr ∈ submissions trace ↔ .submitted clr ∈ trace := by
  simp only [submissions, List.mem_filterMap]
  constructor
  · rintro ⟨e, he, heq⟩
    cases e <;> cases heq
    exact he
  · exact fun h => ⟨_, h, rfl⟩

/-- The keys of the calls among requests, for one IMPU. -/
def callKeys (impu : Bytes) (clrs : List CallListRequest) : Finset Key :=
  ((clrs.filter fun clr => clr.impu = impu ∧ clr.type.isCall = true).map fun clr => clr.callFragment.key).toFinset

theorem mem_callKeys {impu : Bytes} {clrs : List CallListRequest} {k : Key} : k ∈ callKeys impu clrs ↔
    (∃ clr ∈ clrs, clr.impu = impu ∧ clr.callFragment.key = k) ∧ k.type.isCall = true := by
  simp only [callKeys, List.mem_toFinset, List.mem_map, List.mem_filter, decide_eq_true_eq]
  constructor
  · rintro ⟨clr, ⟨hclr, hi, hcall⟩, rfl⟩
    exact ⟨⟨clr, hclr, hi, rfl⟩, hcall⟩
  · rintro ⟨⟨clr, hclr, hi, rfl⟩, hcall⟩
    exact ⟨clr, ⟨hclr, hi, hcall⟩, rfl⟩

theorem newerCalls_eq (lt : Key → Key → Prop) [DecidableRel lt] (trace : List (Event W)) (impu : Bytes) (k : Key) :
    newerCalls lt trace impu k = ((callKeys impu (submissions trace)).filter (lt k) : Finset Key) := by
  ext k'
  simp only [newerCalls, Set.mem_ofPred_eq, Finset.coe_filter, mem_callKeys, mem_submissions, and_assoc]

/-- The list of an IMPU has at least as many calls after a key as it may hold. -/
def Outlived (lt : Key → Key → Prop) (M : ℤ) (trace : List (Event W)) (impu : Bytes) (k : Key) : Prop :=
  (M.toNat : ℕ∞) ≤ (newerCalls lt trace impu k).encard

theorem Outlived.mono {lt : Key → Key → Prop} {M : ℤ} {trace trace' : List (Event W)} {impu : Bytes} {k : Key}
    (h : Outlived lt M trace impu k) (hsub : trace ⊆ trace') : Outlived lt M trace' impu k :=
  h.trans (Set.encard_le_encard (newerCalls_mono hsub impu k))

/-- What holds of one IMPU in every state: what was written was submitted, what is about to be deleted is outlived,
    and what was written successfully is held or outlived. -/
structure Kept (lt : Key → Key → Prop) (M : ℤ) (impu : Bytes) (s : Pool W CallList) : Prop where
  written : ∀ k ∈ (s.store impu).written, ∃ clr, .submitted clr ∈ s.trace ∧ clr.impu = impu ∧ clr.callFragment.key = k
  selected : ∀ w clr cassTimestamp recordsToDelete, s.worker w = .trimming clr cassTimestamp recordsToDelete →
    clr.impu = impu → ∀ f ∈ recordsToDelete, Outlived lt M s.trace impu f.key
  kept : ∀ w clr cassTimestamp, .wrote w clr cassTimestamp .OK ∈ s.trace → clr.impu = impu →
    clr.callFragment.key ∈ (s.store impu).held ∨ Outlived lt M s.trace impu clr.callFragment.key

end

section
variable {lt : Key → Key → Prop}

theorem outlived_of_selected [IsStrictTotalOrder Key lt] {W : Type} {trace : List (Event W)} {impu : Bytes} {M : ℤ}
    {rc : ResultCode} {records recordsToDelete : List CallFragment} (hs : selectRecords M rc records = .ok (true, recordsToDelete))
    (hsorted : (records.map CallFragment.key).Pairwise lt)
    (hsub : ∀ f ∈ records, ∃ clr, .submitted clr ∈ trace ∧ clr.impu = impu ∧ clr.callFragment.key = f.key)
    {f : CallFragment} (hf : f ∈ recordsToDelete) : Outlived lt M trace impu f.key := by
  obtain ⟨before, after, rfl, hM'⟩ := calls_after_selected hs hf
  rw [List.map_append, List.map_cons, List.pairwise_append, List.pairwise_cons] at hsorted
  obtain ⟨-, ⟨hafter, hsorted⟩, -⟩ := hsorted
  -- The keys of the calls after `f` are distinct, because they ascend.
  let calls := (after.filter CallFragment.isCall).map CallFragment.key
  have hnodup : calls.Nodup := by
    have hsub : calls.Sublist (after.map CallFragment.key) := List.filter_sublist.map _
    refine (hsorted.sublist hsub).imp ?_
    rintro a b hab rfl
    exact irrefl_of lt a hab
  have hlen : calls.length = countCalls after := by
    rw [List.length_map, countCalls, List.countP_eq_length_filter]
  have hnewer : (calls.toFinset : Set Key) ⊆ newerCalls lt trace impu f.key := by
    intro k hk
    rw [Finset.mem_coe, List.mem_toFinset, List.mem_map] at hk
    obtain ⟨g, hg, rfl⟩ := hk
    obtain ⟨hmem, hcall⟩ := List.mem_filter.mp hg
    exact ⟨hsub g (by simp [hmem]), hcall, hafter _ (List.mem_map_of_mem hmem)⟩
  have hcard := Set.encard_le_encard hnewer
  rw [Set.encard_coe_eq_coe_finsetCard, List.toFinset_card_of_nodup hnodup, hlen] at hcard
  exact le_trans (by exact_mod_cast Int.toNat_le.mpr hM') hcard

variable {W : Type} [DecidableEq W] {config : PoolConfig}

section Step
variable {impu : Bytes} {s₀ s s' : Pool W CallList} (h : Kept lt config.maxCallListLength impu s)
  (step : Step config (weakStore lt) s s')
include h step

theorem Kept.step_written (hr : Reachable config (weakStore lt) s₀ s) {k : Key} (hk : k ∈ (s'.store impu).written) :
    ∃ clr, .submitted clr ∈ s'.trace ∧ clr.impu = impu ∧ clr.callFragment.key = k := by
  have old : k ∈ (s.store impu).written →
      ∃ clr, .submitted clr ∈ s'.trace ∧ clr.impu = impu ∧ clr.callFragment.key = k := by
    intro hk
    obtain ⟨clr, hs, hi, hkey⟩ := h.written k hk
    exact ⟨clr, step.trace_subset hs, hi, hkey⟩
  rcases step.store_cases with ⟨hstore, -⟩ | ⟨w, clr, _, _, x, hw, ho, hstore, -⟩ | ⟨w, clr, _, _, _, x, hw, ho, hstore, -⟩
  · exact old (hstore ▸ hk)
  · rw [hstore, Function.update_apply] at hk
    split at hk
    · rename_i hi
      rw [ho.1, Set.mem_insert_iff] at hk
      rcases hk with rfl | hk
      · have hs := hr.submitted.2 w clr (by rw [hw]; rfl)
        exact ⟨clr, step.trace_subset hs, hi.symm, rfl⟩
      · exact old (hi ▸ hk)
    · exact old hk
  · rw [hstore, Function.update_apply] at hk
    split at hk
    · rename_i hi
      rw [ho.1] at hk
      exact old (hi ▸ hk)
    · exact old hk

theorem Kept.step_selected [IsStrictTotalOrder Key lt] {w : W} {clr : CallListRequest} {cassTimestamp : ℕ}
    {recordsToDelete : List CallFragment} (hw : s'.worker w = .trimming clr cassTimestamp recordsToDelete)
    (hi : clr.impu = impu) {f : CallFragment} (hf : f ∈ recordsToDelete) :
    Outlived lt config.maxCallListLength s'.trace impu f.key := by
  refine Outlived.mono ?_ step.trace_subset
  rcases step.trimming_cases hw with hw | ⟨rc, records, -, ho, hs, -⟩
  · exact h.selected w clr cassTimestamp recordsToDelete hw hi f hf
  · obtain ⟨hsorted, hwritten⟩ := ho
    exact outlived_of_selected hs hsorted (fun g hg => h.written g.key (hi ▸ hwritten g hg)) hf

theorem Kept.step_kept {w : W} {clr : CallListRequest} {cassTimestamp : ℕ}
    (hwrote : .wrote w clr cassTimestamp .OK ∈ s'.trace) (hi : clr.impu = impu) :
    clr.callFragment.key ∈ (s'.store impu).held ∨
      Outlived lt config.maxCallListLength s'.trace impu clr.callFragment.key := by
  rcases step.store_cases with ⟨hstore, hold⟩ | ⟨v, clr', _, _, x, hw, ho, hstore, htrace⟩ |
    ⟨v, clr', _, sel, _, x, hw, ho, hstore, htrace⟩
  · rw [hstore]
    exact (h.kept w clr cassTimestamp (hold _ _ _ _ hwrote) hi).imp_right fun ho => ho.mono step.trace_subset
  · obtain ⟨-, hheld, -, hok⟩ := ho
    rw [htrace] at hwrote
    rw [hstore, Function.update_apply]
    rcases List.mem_cons.mp hwrote with hnew | hold
    · cases hnew
      rw [if_pos hi.symm]
      exact Or.inl (hok rfl)
    · refine (h.kept w clr cassTimestamp hold hi).imp (fun hk => ?_) fun ho => ho.mono step.trace_subset
      split
      · rename_i hi'
        exact hheld (hi' ▸ hk)
      · exact hk
  · obtain ⟨-, -, hremoved⟩ := ho
    rw [htrace] at hwrote
    rw [hstore, Function.update_apply]
    rcases List.mem_cons.mp hwrote with hnew | hold
    · cases hnew
    · rcases h.kept w clr cassTimestamp hold hi with hk | ho
      · split
        · rename_i hi'
          by_cases hx : clr.callFragment.key ∈ x.held
          · exact Or.inl hx
          · -- What the delete removed was selected, and that is outlived.
            obtain ⟨f, hf, hkey⟩ := hremoved _ (hi' ▸ hk) hx
            rw [← hkey]
            exact Or.inr ((h.selected v clr' _ sel hw hi'.symm f hf).mono step.trace_subset)
        · exact Or.inl hk
      · exact Or.inr (ho.mono step.trace_subset)

end Step

theorem Reachable.kept [IsStrictTotalOrder Key lt] {s₀ s : Pool W CallList} {impu : Bytes}
    (h : Reachable config (weakStore lt) s₀ s) (h0 : s₀.store impu = ⟨∅, ∅⟩) :
    Kept lt config.maxCallListLength impu s := by
  refine h.invariant ⟨?_, ?_, ?_⟩ fun hr ih step => ⟨fun _ => ih.step_written step hr,
    fun _ _ _ _ hw hi _ => ih.step_selected step hw hi, fun _ _ _ hw hi => ih.step_kept step hw hi⟩
  · simp [h0]
  · simp [h.initial.worker]
  · simp [h.initial.trace]

/-- No recent call is lost. A fragment that was written successfully, and after which fewer calls were submitted than
    the list may hold, is in the store. -/
theorem recent_calls_kept [IsStrictTotalOrder Key lt] {s₀ s : Pool W CallList}
    (h : Reachable config (weakStore lt) s₀ s) {impu : Bytes} (h0 : s₀.store impu = ⟨∅, ∅⟩) {w : W} {clr : CallListRequest}
    {cassTimestamp : ℕ} (hw : .wrote w clr cassTimestamp .OK ∈ s.trace) (hi : clr.impu = impu)
    (hn : (newerCalls lt s.trace impu clr.callFragment.key).encard < config.maxCallListLength.toNat) :
    clr.callFragment.key ∈ (s.store impu).held := by
  rcases (h.kept h0).kept w clr cassTimestamp hw hi with hheld | hout
  · exact hheld
  · exact absurd hout (not_le.mpr hn)

end

/-! ### Two workers and four calls -/

/-- A call that begins after `newRejected`, and a later one whose write fails. -/
def newBegin : CallListRequest := sampleFragment "20020530093012" .BEGIN
def lostBegin : CallListRequest := sampleFragment "20020530093013" .BEGIN

/-- The list may hold two. One worker writes the newest call and is about to read. The other one writes the two older
    calls, without a trim, and fails to write the last one. Then the first reads the three, and deletes the oldest. -/
theorem trimmedRun : ∃ s : Pool Bool CallList,
    Reachable ⟨2, 604800, true⟩ (weakStore (· < ·)) (.new ⟨∅, ∅⟩) s ∧
      submissions s.trace = [lostBegin, newRejected, lateBegin, newBegin] ∧
      successes s.trace = [newRejected, lateBegin, newBegin] ∧ .wrote true newBegin 1 .OK ∈ s.trace ∧
      .deleted true (ascii "sip:bob@home") [lateBegin.callFragment] 1 .OK ∈ s.trace ∧
      lateBegin.callFragment.key ∉ (s.store (ascii "sip:bob@home")).held := by
  let calls := [lateBegin.callFragment, newRejected.callFragment, newBegin.callFragment]
  have write (l : CallList) (f : CallFragment) (time : ℕ) : (weakStore (· < ·)).write l f time 604800 .OK
      ⟨insert f.key l.held, insert f.key l.written⟩ :=
    ⟨rfl, Set.subset_insert _ _, subset_rfl, fun _ => Set.mem_insert _ _⟩
  have lose (l : CallList) (f : CallFragment) (time : ℕ) : (weakStore (· < ·)).write l f time 604800 .CONNECTION_ERROR
      ⟨l.held, insert f.key l.written⟩ :=
    ⟨rfl, subset_rfl, Set.subset_insert _ _, nofun⟩
  have delete (l : CallList) (records : List CallFragment) (time : ℕ) : (weakStore (· < ·)).delete l records time .OK
      ⟨l.held \ {k | ∃ f ∈ records, f.key = k}, l.written⟩ :=
    ⟨rfl, Set.sdiff_subset, fun k hk hgone => by simpa [hk] using hgone⟩
  have miss (l : CallList) : (weakStore (· < ·)).get l .CONNECTION_ERROR [] := ⟨.nil, nofun⟩
  have r0 : Reachable ⟨2, 604800, true⟩ (weakStore (· < ·)) (.new ⟨∅, ∅⟩ : Pool Bool CallList) _ := .new _ _ _
  have r1 := (((r0.step (.submit newBegin)).step (.submit lateBegin)).step (.submit newRejected)).step (.submit lostBegin)
  have r2 := r1.work (run_written (w := true) rfl rfl Nat.zero_lt_one (write _ _ 1))
  have r3 := r2.work (run_sampled (w := true) rfl trivial (rfl : isSampled 2 0 = .ok true))
  have r4 := r3.work (run_written (w := false) rfl rfl (Nat.lt_succ_self 1) (write _ _ 2))
  have r5 := r4.work (run_sampled (w := false) rfl trivial (rfl : isSampled 2 0 = .ok true))
  have r6 := r5.work (run_kept (w := false) rfl rfl (miss _) rfl)
  have r7 := r6.work (run_written (w := false) rfl rfl (Nat.lt_succ_self 2) (write _ _ 3))
  have r8 := r7.work (run_sampled (w := false) rfl trivial (rfl : isSampled 2 0 = .ok true))
  have r9 := r8.work (run_kept (w := false) rfl rfl (miss _) rfl)
  have r10 := r9.work (run_written (w := false) rfl rfl (Nat.lt_succ_self 3) (lose _ _ 4))
  have r11 := r10.work (run_completed (w := false) rfl)
  obtain ⟨s, r12, hw, hwritten, hsubmitted, hsuccesses, hwrote⟩ : ∃ s : Pool Bool CallList,
      Reachable ⟨2, 604800, true⟩ (weakStore (· < ·)) (.new ⟨∅, ∅⟩) s ∧ s.worker true = .reading newBegin 1 ∧
      (s.store newBegin.impu).written = insert lostBegin.callFragment.key (insert newRejected.callFragment.key
        (insert lateBegin.callFragment.key (insert newBegin.callFragment.key ∅))) ∧
      submissions s.trace = [lostBegin, newRejected, lateBegin, newBegin] ∧
      successes s.trace = [newRejected, lateBegin, newBegin] ∧ .wrote true newBegin 1 .OK ∈ s.trace :=
    ⟨_, r11, rfl, rfl, rfl, rfl, by simp⟩
  have hget : (weakStore (· < ·)).get (s.store newBegin.impu) .OK calls := ⟨by decide, by simp [calls, hwritten]⟩
  have hs : selectRecords 2 .OK calls = .ok (true, [lateBegin.callFragment]) :=
    selectRecords_ok (M := 2) (by norm_num) (by decide)
  have r13 := r12.work (run_trimmed rfl hw hget hs (delete _ _ 1))
  refine ⟨_, r13, hsubmitted, hsuccesses, ?_, ?_, ?_⟩
  · simp [hwrote]
  · simp [newBegin, sampleFragment]
  · simp [newBegin, sampleFragment]

theorem recent_calls_kept_sample : ∃ s : Pool Bool CallList,
    Reachable ⟨2, 604800, true⟩ (weakStore (· < ·)) (.new ⟨∅, ∅⟩) s ∧
      .deleted true (ascii "sip:bob@home") [lateBegin.callFragment] 1 .OK ∈ s.trace ∧
      lateBegin.callFragment.key ∉ (s.store (ascii "sip:bob@home")).held ∧
      newBegin.callFragment.key ∈ (s.store (ascii "sip:bob@home")).held := by
  obtain ⟨s, run, hsubmitted, -, hwrote, hdeleted, hgone⟩ := trimmedRun
  refine ⟨s, run, hdeleted, hgone, recent_calls_kept run rfl hwrote rfl ?_⟩
  -- The only call after it is the one whose write failed.
  rw [newerCalls_eq, hsubmitted, Set.encard_coe_eq_coe_finsetCard]
  decide

end Memento
