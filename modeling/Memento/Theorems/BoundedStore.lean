import Memento.Theorems.CallLists
import Memento.Theorems.Pool

/-! The size of a call list under one worker and a store that never fails. ENDs are not counted, so the list stays
    within its bound as long as none is left without its BEGIN. -/

namespace Memento
open Text

/-- A store that never fails, with its records in key order, and a `rand()` that lets every check fire. -/
def reliableStore (maxCallListLength : ℤ) : Outside (List CallFragment) where
  rand r := r.tmod (sampleInterval maxCallListLength) = 0
  write l f _ _ rc l' := rc = .OK ∧ l' = KeyedList.insert CallFragment.key f l
  get l rc records := rc = .OK ∧ records = l
  delete l records _ rc l' := rc = .OK ∧ l' = KeyedList.remove CallFragment.key records l

/-! ### What a trim leaves -/

/-- Past the first records, as many as there are calls above the maximum, there is no END whose BEGIN is among them. -/
def CutsNoCall (M : ℕ) (l : List CallFragment) : Prop :=
  11 * M < 10 * countCalls l → ∀ g ∈ l.drop (countCalls l - M), g.type = .END →
    g.beginKey ∉ (l.take (countCalls l - M)).map CallFragment.key

instance (M : ℕ) (l : List CallFragment) : Decidable (CutsNoCall M l) :=
  inferInstanceAs (Decidable (_ → ∀ g ∈ _, _ → _))

/-- The first record is a call, so a trim removes at least one. -/
theorem countCalls_drop_lt {l : List CallFragment} {n : ℕ} (hs : KeyedList.Sorted CallFragment.key l) (hp : Paired l)
    (hn : 0 < n) (hl : l ≠ []) : countCalls (l.drop n) < countCalls l := by
  obtain ⟨g, l, rfl⟩ := List.exists_cons_of_ne_nil hl
  obtain ⟨n, rfl⟩ := Nat.exists_eq_add_of_le' hn
  have hle : countCalls (l.drop n) ≤ countCalls l := (List.drop_sublist n l).countP_le
  have hcall := isCall_head hs hp
  rw [List.drop_succ_cons]
  refine hle.trans_lt ?_
  simp [countCalls, hcall]

/-! ### Runs -/

section
variable {M : ℕ} {callListTtl : ℤ} {httpNotifier : Bool} {impu : Bytes} {s s' : Pool Unit (List CallFragment)}

/-- No END is left without its BEGIN: the BEGIN of an END that is written is there, and no trim takes a BEGIN and
    leaves its END. -/
structure Whole (M : ℕ) (impu : Bytes) (s : Pool Unit (List CallFragment)) : Prop where
  write : ∀ clr cassTimestamp, s.worker () = .writing clr cassTimestamp → clr.impu = impu → clr.type = .END →
    clr.callFragment.beginKey ∈ (s.store impu).map CallFragment.key
  read : ∀ clr cassTimestamp, s.worker () = .reading clr cassTimestamp → clr.impu = impu → CutsNoCall M (s.store impu)

/-- Whether a worker has written to a list that it may still trim. -/
def WorkerState.hasWritten (impu : Bytes) : WorkerState → Bool
  | .counting clr _ | .sampling clr _ | .reading clr _ | .trimming clr _ _ => clr.impu = impu
  | _ => false

/-- What holds in every state: the list may hold one call more from its write to its trim. -/
structure Bounded (M : ℕ) (impu : Bytes) (s : Pool Unit (List CallFragment)) : Prop where
  sorted : KeyedList.Sorted CallFragment.key (s.store impu)
  paired : Paired (s.store impu)
  calls : 10 * countCalls (s.store impu) ≤ 11 * M + if (s.worker ()).hasWritten impu then 10 else 0
  trimming : ∀ clr cassTimestamp recordsToDelete, s.worker () = .trimming clr cassTimestamp recordsToDelete →
    clr.impu = impu → 11 * M < 10 * countCalls (s.store impu) ∧ CutsNoCall M (s.store impu) ∧
      recordsToDelete = (s.store impu).take (countCalls (s.store impu) - M)

theorem Bounded.of_not_written (hw : (s.worker ()).hasWritten impu = false)
    (sorted : KeyedList.Sorted CallFragment.key (s.store impu)) (paired : Paired (s.store impu))
    (calls : 10 * countCalls (s.store impu) ≤ 11 * M) : Bounded M impu s where
  sorted := sorted
  paired := paired
  calls := calls.trans (Nat.le_add_right _ _)
  trimming clr cassTimestamp recordsToDelete hw' hi := by
    rw [hw'] at hw
    simp [WorkerState.hasWritten, hi] at hw

theorem Bounded.move (h : Bounded M impu s) {x : WorkerState} (hstore : s'.store = s.store) (hw : s'.worker () = x)
    (hwritten : x.hasWritten impu = (s.worker ()).hasWritten impu) (htrim : ∀ clr time sel, x ≠ .trimming clr time sel) :
    Bounded M impu s' where
  sorted := hstore ▸ h.sorted
  paired := hstore ▸ h.paired
  calls := by rw [hstore, hw, hwritten]; exact h.calls
  trimming clr time sel heq := absurd (hw.symm.trans heq) (htrim clr time sel)

theorem Bounded.other (h : Bounded M impu s) {impu' : Bytes} {l : List CallFragment} (hi : impu' ≠ impu)
    (hstore : s'.store = Function.update s.store impu' l) (hw : (s.worker ()).hasWritten impu = false)
    (hw' : (s'.worker ()).hasWritten impu = false) : Bounded M impu s' := by
  have hl : s'.store impu = s.store impu := by rw [hstore, Function.update_of_ne (Ne.symm hi)]
  have hcalls := h.calls
  rw [hw] at hcalls
  exact .of_not_written hw' (hl ▸ h.sorted) (hl ▸ h.paired) (hl ▸ hcalls)

theorem Bounded.write (h : Bounded M impu s) {clr : CallListRequest} {cassTimestamp : ℕ}
    (hw : s.worker () = .writing clr cassTimestamp) (whole : Whole M impu s)
    (hstore : s'.store = Function.update s.store clr.impu
      (KeyedList.insert CallFragment.key clr.callFragment (s.store clr.impu)))
    (hw' : s'.worker () = .counting clr cassTimestamp) : Bounded M impu s' := by
  by_cases hi : clr.impu = impu
  · subst hi
    have hl : s'.store clr.impu = KeyedList.insert CallFragment.key clr.callFragment (s.store clr.impu) := by
      rw [hstore, Function.update_self]
    refine ⟨?_, ?_, ?_, fun _ _ _ heq => by rw [hw'] at heq; cases heq⟩
    · rw [hl]
      exact h.sorted.insert
    · rw [hl]
      exact h.paired.insert (whole.write clr cassTimestamp hw rfl)
    · have hcalls : 10 * countCalls (s.store clr.impu) ≤ 11 * M := by simpa [hw, WorkerState.hasWritten] using h.calls
      have hcount : countCalls (s'.store clr.impu) ≤ countCalls (s.store clr.impu) + 1 := hl ▸ KeyedList.countP_insert_le _
      have hwritten : (s'.worker ()).hasWritten clr.impu = true := by simp [hw', WorkerState.hasWritten]
      rw [if_pos hwritten]
      omega
  · exact h.other hi hstore (by rw [hw]; rfl) (by simp [hw', WorkerState.hasWritten, hi])

/-- A read that finds too many calls goes on to the trim, and one that does not shows the bound. -/
theorem Bounded.read (hint : M < 2 ^ 31) (h : Bounded M impu s) {clr : CallListRequest} {cassTimestamp : ℕ}
    {needed : Bool} {recordsToDelete : List CallFragment} (hw : s.worker () = .reading clr cassTimestamp)
    (whole : Whole M impu s) (hs : selectRecords M .OK (s.store clr.impu) = .ok (needed, recordsToDelete))
    (hstore : s'.store = s.store)
    (hw' : s'.worker () = if needed then .trimming clr cassTimestamp recordsToDelete else .notifying clr) :
    Bounded M impu s' := by
  have hcalls := h.calls
  rw [hw] at hcalls
  rcases selectRecords_cases hs with ⟨rfl, -, hex, -, hsel⟩ | ⟨rfl, hex⟩
  · rw [if_pos rfl] at hw'
    refine ⟨hstore ▸ h.sorted, hstore ▸ h.paired, ?_, fun clr' time sel heq hi => ?_⟩
    · rwa [hstore, hw']
    · rw [hw'] at heq
      cases heq
      subst hi
      rw [hstore, hsel]
      refine ⟨(exceedsThreshold_iff hint).mp hex, whole.read clr cassTimestamp hw rfl, ?_⟩
      congr 1
      omega
  · rw [if_neg Bool.false_ne_true] at hw'
    refine .of_not_written (by rw [hw']; rfl) (hstore ▸ h.sorted) (hstore ▸ h.paired) ?_
    rw [hstore]
    by_cases hi : clr.impu = impu
    · subst hi
      have hle := mt (exceedsThreshold_iff hint).mpr (Bool.eq_false_iff.mp (hex rfl))
      omega
    · simpa [WorkerState.hasWritten, hi] using hcalls

theorem Bounded.delete (h : Bounded M impu s) {clr : CallListRequest} {cassTimestamp : ℕ}
    {recordsToDelete : List CallFragment} (hw : s.worker () = .trimming clr cassTimestamp recordsToDelete)
    (hstore : s'.store = Function.update s.store clr.impu
      (KeyedList.remove CallFragment.key recordsToDelete (s.store clr.impu)))
    (hw' : s'.worker () = .notifying clr) : Bounded M impu s' := by
  by_cases hi : clr.impu = impu
  · subst hi
    obtain ⟨hex, hcut, hsel⟩ := h.trimming clr cassTimestamp recordsToDelete hw rfl
    have hl : s'.store clr.impu = (s.store clr.impu).drop (countCalls (s.store clr.impu) - M) := by
      rw [hstore, Function.update_self, hsel, h.sorted.remove_take]
    have hcalls : 10 * countCalls (s.store clr.impu) ≤ 11 * M + 10 := by simpa [hw, WorkerState.hasWritten] using h.calls
    have hne : s.store clr.impu ≠ [] := by
      intro hnil
      simp [hnil, countCalls] at hex
    have hlt := countCalls_drop_lt h.sorted h.paired (n := countCalls (s.store clr.impu) - M) (by omega) hne
    rw [← hl] at hlt
    refine .of_not_written (by rw [hw']; rfl) ?_ ?_ (by omega)
    · rw [hl]
      exact h.sorted.sublist (List.drop_sublist _ _)
    · rw [hl]
      exact h.paired.drop (hcut hex)
  · exact h.other hi hstore (by simp [hw, WorkerState.hasWritten, hi]) (by rw [hw']; rfl)

theorem Bounded.step (hM : 1 ≤ M) (hint : M < 2 ^ 31) (h : Bounded M impu s) (whole : Whole M impu s)
    (step : Step ⟨M, callListTtl, httpNotifier⟩ (reliableStore M) s s') : Bounded M impu s' := by
  cases step with
  | submit => exact ⟨h.sorted, h.paired, h.calls, h.trimming⟩
  | take w hw => exact h.move rfl (worker_setWorker_self ..) (by rw [hw]; rfl) fun _ _ _ => nofun
  | stamp w time hw => exact h.move rfl (worker_setWorker_self ..) (by rw [hw]; rfl) fun _ _ _ => nofun
  | write w rc x hw ho =>
    obtain ⟨rfl, rfl⟩ := ho
    exact h.write hw whole rfl (worker_setWorker_self ..)
  | count w hw => exact h.move rfl (worker_setWorker_self ..) (by rw [hw]; rfl) fun _ _ _ => nofun
  | sample w rand hw hr hs =>
    rw [isSampled_of_dvd (by exact_mod_cast hM) hr] at hs
    cases hs
    exact h.move rfl (worker_setWorker_self ..) (by rw [hw]; rfl) fun _ _ _ => nofun
  | read w rc records hw ho hs =>
    obtain ⟨rfl, rfl⟩ := ho
    exact h.read hint hw whole hs rfl (worker_setWorker_self ..)
  | delete w rc x hw ho =>
    obtain ⟨rfl, rfl⟩ := ho
    exact h.delete hw rfl (worker_setWorker_self ..)
  | notify w hw =>
    refine h.move ?_ (worker_setWorker_self ..) (by rw [hw]; rfl) fun _ _ _ => nofun
    split <;> rfl
  | complete w hw => exact h.move rfl (worker_setWorker_self ..) (by rw [hw]; rfl) fun _ _ _ => nofun

abbrev WholeRun (M : ℕ) (callListTtl : ℤ) (httpNotifier : Bool) (impu : Bytes) :
    Pool Unit (List CallFragment) → Pool Unit (List CallFragment) → Prop :=
  Relation.ReflTransGen fun s s' => Step ⟨M, callListTtl, httpNotifier⟩ (reliableStore M) s s' ∧ Whole M impu s

/-- In a run in which no END is left without its BEGIN, the list holds at most two fragments for each of 110% of the
    maximum calls whenever no work is in progress. -/
theorem store_bounded {s₀ : Pool Unit (List CallFragment)} (hM : 1 ≤ M) (hint : M < 2 ^ 31) (h0 : s₀.Initial)
    (hempty : s₀.store impu = []) (run : WholeRun M callListTtl httpNotifier impu s₀ s) (hidle : s.worker () = .idle) :
    (s.store impu).length ≤ 2 * (11 * M / 10) := by
  have bounded : Bounded M impu s := by
    clear hidle
    induction run with
    | refl =>
      refine .of_not_written (by rw [h0.worker]; rfl) ?_ ?_ ?_
      · rw [hempty]
        exact .nil
      · rw [hempty]
        exact nofun
      · simp [hempty, countCalls]
    | tail _ last ih => exact ih.step hM hint last.2 last.1
  have hcalls : 10 * countCalls (s.store impu) ≤ 11 * M := by simpa [hidle, WorkerState.hasWritten] using bounded.calls
  have hlen := length_le_of_paired bounded.sorted bounded.paired
  omega

/-! ### Sample runs -/

/-- The list after `process_work`. -/
def processed (M : ℕ) (l : List CallFragment) (f : CallFragment) : List CallFragment :=
  let written := KeyedList.insert CallFragment.key f l
  if 11 * M < 10 * countCalls written then
    KeyedList.remove CallFragment.key (written.take (countCalls written - M)) written
  else written

def writtenFor (impu : Bytes) (trace : List (Event Unit)) : List CallFragment :=
  trace.reverse.filterMap fun
    | .wrote _ clr _ .OK => if clr.impu = impu then some clr.callFragment else none
    | _ => none

theorem length_insert_le (f : CallFragment) (l : List CallFragment) :
    (KeyedList.insert CallFragment.key f l).length ≤ l.length + 1 := by
  simpa only [List.countP_true] using KeyedList.countP_insert_le (a := f) (l := l) fun _ => true

theorem length_processed_le (M : ℕ) (l : List CallFragment) (f : CallFragment) :
    (processed M l f).length ≤ l.length + 1 := by
  refine le_trans ?_ (length_insert_le f l)
  dsimp only [processed]
  split
  · exact List.length_filter_le _ _
  · exact le_rfl

section Processed
variable {P : Pool Unit (List CallFragment) → Prop}

/-- A run in which each step begins where `P` holds. -/
abbrev GuardedRun (M : ℕ) (callListTtl : ℤ) (P : Pool Unit (List CallFragment) → Prop) :
    Pool Unit (List CallFragment) → Pool Unit (List CallFragment) → Prop :=
  Relation.ReflTransGen fun s s' => Step ⟨M, callListTtl, true⟩ (reliableStore M) s s' ∧ P s

/-- What holds unless the worker is about to write or to read. -/
def Quiet (P : Pool Unit (List CallFragment) → Prop) : Prop :=
  ∀ s, (∀ clr time, s.worker () ≠ .writing clr time) → (∀ clr time, s.worker () ≠ .reading clr time) → P s

variable (hP : Quiet P)
include hP

theorem exists_completed {clr : CallListRequest} (hw : s.worker () = .notifying clr) :
    ∃ s', GuardedRun M callListTtl P s s' ∧ s'.worker () = .idle ∧ s'.queue = s.queue ∧ s'.store = s.store ∧
      writtenFor impu s'.trace = writtenFor impu s.trace := by
  have r0 : GuardedRun M callListTtl P s s := .refl
  have r1 := r0.tail ⟨.notify () hw, hP _ (by simp [hw]) (by simp [hw])⟩
  have r2 := r1.tail ⟨.complete () (worker_setWorker_self ..), hP _ (by simp) (by simp)⟩
  exact ⟨_, r2, worker_setWorker_self .., rfl, rfl, by simp [writtenFor]⟩

/-- The worker processes the next request, where `P` holds also when it is about to write it and to read the list. -/
theorem exists_processed (hM : 1 ≤ M) (hint : M < 2 ^ 31) (hw : s.worker () = .idle) {clr : CallListRequest}
    {rest : List CallListRequest} (hq : s.queue = clr :: rest) (hlen : (s.store clr.impu).length + 1 < 2 ^ 31)
    (hwriting : ∀ t time, t.worker () = .writing clr time → t.store = s.store → P t)
    (hreading : ∀ t time, t.worker () = .reading clr time →
      t.store clr.impu = KeyedList.insert CallFragment.key clr.callFragment (s.store clr.impu) → P t) :
    ∃ s', GuardedRun M callListTtl P s s' ∧ s'.worker () = .idle ∧ s'.queue = rest ∧
      s'.store clr.impu = processed M (s.store clr.impu) clr.callFragment ∧
      writtenFor clr.impu s'.trace = writtenFor clr.impu s.trace ++ [clr.callFragment] := by
  have r0 : GuardedRun M callListTtl P s s := .refl
  have r1 := r0.tail ⟨.take () hw hq, hP _ (by simp [hw]) (by simp [hw])⟩
  have r2 := r1.tail ⟨.stamp () (s.clock + 1) (worker_setWorker_self ..) (Nat.lt_succ_self _), hP _ (by simp) (by simp)⟩
  have r3 := r2.tail ⟨.write () .OK _ (worker_setWorker_self ..) ⟨rfl, rfl⟩,
    hwriting _ _ (worker_setWorker_self ..) rfl⟩
  have r4 := r3.tail ⟨.count () (worker_setWorker_self ..), hP _ (by simp) (by simp)⟩
  have hsampled : isSampled M 0 = .ok true := isSampled_of_dvd (by exact_mod_cast hM) (Int.zero_tmod _)
  have r5 := r4.tail ⟨.sample () 0 (worker_setWorker_self ..) (Int.zero_tmod _) hsampled, hP _ (by simp) (by simp)⟩
  obtain ⟨t, r5, hw', hrest, hstore, htrace⟩ : ∃ t, GuardedRun M callListTtl P s t ∧
      t.worker () = .reading clr (s.clock + 1) ∧ t.queue = rest ∧
      t.store clr.impu = KeyedList.insert CallFragment.key clr.callFragment (s.store clr.impu) ∧
      writtenFor clr.impu t.trace = writtenFor clr.impu s.trace ++ [clr.callFragment] :=
    ⟨_, r5, worker_setWorker_self .., rfl, by simp, by simp [writtenFor]⟩
  have hread := selectRecords_ok hint ((hstore ▸ length_insert_le _ _).trans_lt hlen)
  have guard := hreading t _ hw' hstore
  dsimp only [processed]
  rw [← hstore]
  split
  · rename_i hex
    rw [if_pos hex] at hread
    have r6 := r5.tail ⟨.read () .OK _ hw' ⟨rfl, rfl⟩ hread, guard⟩
    have r7 := r6.tail ⟨.delete () .OK _ (worker_setWorker_self ..) ⟨rfl, rfl⟩, hP _ (by simp) (by simp)⟩
    obtain ⟨s', hs', idle, queue', store', trace'⟩ := exists_completed hP (worker_setWorker_self ..)
    refine ⟨s', r7.trans hs', idle, queue'.trans hrest, ?_, ?_⟩
    · simp [store']
    · rw [trace']
      simpa [writtenFor] using htrace
  · rename_i hex
    rw [if_neg hex] at hread
    have r6 := r5.tail ⟨.read () .OK _ hw' ⟨rfl, rfl⟩ hread, guard⟩
    obtain ⟨s', hs', idle, queue', store', trace'⟩ := exists_completed hP (worker_setWorker_self ..)
    refine ⟨s', r6.trans hs', idle, queue'.trans hrest, ?_, ?_⟩
    · simp [store']
    · rw [trace']
      simpa [writtenFor] using htrace

end Processed

theorem exists_processed_queue {s₀ : Pool Unit (List CallFragment)} (hM : 1 ≤ M) (hint : M < 2 ^ 31)
    (h : Reachable ⟨M, callListTtl, true⟩ (reliableStore M) s₀ s) (hw : s.worker () = .idle)
    {queue : List CallListRequest} (hq : s.queue = queue) (hi : ∀ clr ∈ queue, clr.impu = impu)
    (hlen : (s.store impu).length + queue.length < 2 ^ 31) :
    ∃ s', Reachable ⟨M, callListTtl, true⟩ (reliableStore M) s₀ s' ∧ s'.worker () = .idle ∧ s'.queue = [] ∧
      s'.store impu = (queue.map CallListRequest.callFragment).foldl (processed M) (s.store impu) ∧
      writtenFor impu s'.trace = writtenFor impu s.trace ++ queue.map CallListRequest.callFragment := by
  induction queue generalizing s with
  | nil => exact ⟨s, h, hw, hq, rfl, (List.append_nil _).symm⟩
  | cons clr rest ih =>
    obtain ⟨rfl, hi⟩ := List.forall_mem_cons.mp hi
    rw [List.length_cons] at hlen
    obtain ⟨t, run, idle, queue, hstore, htrace⟩ := exists_processed (P := fun _ => True) (fun _ _ _ => trivial) hM hint hw
      hq (by omega) (fun _ _ _ _ => trivial) fun _ _ _ _ => trivial
    have ht : Reachable ⟨M, callListTtl, true⟩ (reliableStore M) s₀ t :=
      ⟨h.initial, h.steps.trans (run.lift id fun _ _ step => step.1)⟩
    have hle := length_processed_le M (s.store clr.impu) clr.callFragment
    obtain ⟨s', hs', idle', queue', hstore', htrace'⟩ := ih ht idle queue hi (by rw [hstore]; omega)
    refine ⟨s', hs', idle', queue', ?_, ?_⟩
    · rw [hstore', hstore, List.map_cons, List.foldl_cons]
    · rw [htrace', htrace, List.map_cons, List.append_assoc, List.singleton_append]

theorem whole_of_quiet (M : ℕ) (impu : Bytes) : Quiet (Whole M impu) := fun _ hwrite hread =>
  ⟨fun clr time hw => absurd hw (hwrite clr time), fun clr time hw => absurd hw (hread clr time)⟩

theorem WholeRun.submit {s₀ : Pool Unit (List CallFragment)} (run : WholeRun M callListTtl true impu s₀ s)
    (hw : s.worker () = .idle) (clr : CallListRequest) : WholeRun M callListTtl true impu s₀ (s.submit clr) :=
  run.tail ⟨.submit clr, whole_of_quiet M impu s (by simp [hw]) (by simp [hw])⟩

/-- The worker processes a request of the list: the END of a call that is there, or a call whose trim cuts no other. -/
theorem WholeRun.process {s₀ : Pool Unit (List CallFragment)} (run : WholeRun M callListTtl true impu s₀ s) (hM : 1 ≤ M)
    (hint : M < 2 ^ 31) (hw : s.worker () = .idle) {clr : CallListRequest} {rest : List CallListRequest}
    (hq : s.queue = clr :: rest) (hi : clr.impu = impu) (hlen : (s.store impu).length + 1 < 2 ^ 31)
    (hbegin : clr.type = .END → clr.callFragment.beginKey ∈ (s.store impu).map CallFragment.key)
    (hcut : CutsNoCall M (KeyedList.insert CallFragment.key clr.callFragment (s.store impu))) :
    ∃ s', WholeRun M callListTtl true impu s₀ s' ∧ s'.worker () = .idle ∧ s'.queue = rest ∧
      s'.store impu = processed M (s.store impu) clr.callFragment ∧
      writtenFor impu s'.trace = writtenFor impu s.trace ++ [clr.callFragment] := by
  subst hi
  have writing : ∀ t time, t.worker () = .writing clr time → t.store = s.store → Whole M clr.impu t := by
    intro t time ht hstore
    refine ⟨fun clr' time' hw' _ hend => ?_, fun clr' time' hw' => ?_⟩
    · cases ht.symm.trans hw'
      rw [hstore]
      exact hbegin hend
    · cases ht.symm.trans hw'
  have reading : ∀ t time, t.worker () = .reading clr time →
      t.store clr.impu = KeyedList.insert CallFragment.key clr.callFragment (s.store clr.impu) → Whole M clr.impu t := by
    intro t time ht hstore
    refine ⟨fun clr' time' hw' => ?_, fun clr' time' hw' _ => ?_⟩
    · cases ht.symm.trans hw'
    · rw [hstore]
      exact hcut
  obtain ⟨s', more, hrest⟩ := exists_processed (whole_of_quiet M clr.impu) hM hint hw hq hlen writing reading
  exact ⟨s', run.trans more, hrest⟩

end

/-- A call is answered and ended in a list of one, and an older one is rejected then: the trim takes the older one, and
    the list is as long as it may get. -/
theorem store_bounded_sample : ∃ s : Pool Unit (List CallFragment),
    WholeRun 1 0 true (ascii "sip:bob@home") (.new []) s ∧ s.worker () = .idle ∧
      writtenFor (ascii "sip:bob@home") s.trace =
        [(sampleFragment "20020530093011" .BEGIN).callFragment, (sampleFragment "20020530093011" .END).callFragment,
          (sampleFragment "20020530093010" .REJECTED).callFragment] ∧
      s.store (ascii "sip:bob@home") =
        [(sampleFragment "20020530093011" .BEGIN).callFragment, (sampleFragment "20020530093011" .END).callFragment] ∧
      (s.store (ascii "sip:bob@home")).length ≤ 2 * (11 * 1 / 10) := by
  have r0 : WholeRun 1 0 true (ascii "sip:bob@home") (.new []) _ := .refl
  have r1 := r0.submit rfl (sampleFragment "20020530093011" .BEGIN)
  have r2 := r1.submit rfl (sampleFragment "20020530093011" .END)
  have r3 := r2.submit rfl (sampleFragment "20020530093010" .REJECTED)
  obtain ⟨s, r4, idle, queue, hstore, htrace⟩ := r3.process le_rfl (by norm_num) rfl rfl rfl (by decide) nofun
    (by decide)
  obtain ⟨t, r5, idle', queue', hstore', htrace'⟩ := r4.process le_rfl (by norm_num) idle queue rfl
    (by rw [hstore]; decide) (fun _ => by rw [hstore]; decide) (by rw [hstore]; decide)
  obtain ⟨u, r6, idle'', -, hstore'', htrace''⟩ := r5.process le_rfl (by norm_num) idle' queue' rfl
    (by rw [hstore', hstore]; decide) nofun (by rw [hstore', hstore]; decide)
  refine ⟨u, r6, idle'', ?_, ?_, store_bounded le_rfl (by norm_num) ⟨rfl, fun _ => rfl, rfl⟩ rfl r6 idle''⟩
  · rw [htrace'', htrace', htrace]
    rfl
  · rw [hstore'', hstore', hstore]
    decide

/-- Two calls after each other in a list of one: the trim at the second BEGIN takes the first and leaves its END, which
    is not counted when the second END comes. -/
theorem store_exceeds : ∃ s : Pool Unit (List CallFragment),
    Reachable ⟨1, 0, true⟩ (reliableStore 1) (.new []) s ∧ s.worker () = .idle ∧ s.queue = [] ∧
      writtenFor (ascii "sip:bob@home") s.trace =
        [(sampleFragment "20020530093010" .BEGIN).callFragment, (sampleFragment "20020530093010" .END).callFragment,
          (sampleFragment "20020530093011" .BEGIN).callFragment, (sampleFragment "20020530093011" .END).callFragment] ∧
      2 * (11 * 1 / 10) < (s.store (ascii "sip:bob@home")).length := by
  have r0 : Reachable ⟨1, 0, true⟩ (reliableStore 1) (.new [] : Pool Unit (List CallFragment)) _ := .new _ _ _
  have r1 := r0.step (.submit (sampleFragment "20020530093010" .BEGIN))
  have r2 := r1.step (.submit (sampleFragment "20020530093010" .END))
  have r3 := r2.step (.submit (sampleFragment "20020530093011" .BEGIN))
  have r4 := r3.step (.submit (sampleFragment "20020530093011" .END))
  have hi : ∀ clr ∈ [sampleFragment "20020530093010" .BEGIN, sampleFragment "20020530093010" .END,
      sampleFragment "20020530093011" .BEGIN, sampleFragment "20020530093011" .END], clr.impu = ascii "sip:bob@home" := by
    decide
  obtain ⟨s, r5, idle, queue, hstore, htrace⟩ := exists_processed_queue le_rfl (by norm_num) r4 rfl rfl hi (by decide)
  refine ⟨s, r5, idle, queue, htrace, ?_⟩
  rw [hstore]
  decide

end Memento
