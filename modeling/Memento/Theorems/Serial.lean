import Mathlib.Algebra.Order.BigOperators.Group.Finset
import Memento.Lib.Runs
import Memento.Theorems.Ordering

/-! One request after the other. As long as no two workers are at requests of one IMPU at a time, its list is what
    `process_work` makes of it when it runs from beginning to end for each request, whatever happens to other lists. -/

namespace Memento
open Text Runs LastWrite

/-! ### The check for a trim, in two steps -/

theorem isCallTrimNeeded_sampled {M rand : ℤ} (h : isSampled M rand = .ok true) (rc : ResultCode)
    (records : List CallFragment) : isCallTrimNeeded M rand rc records = selectRecords M rc records := by
  rw [isCallTrimNeeded, h]
  rfl

theorem isCallTrimNeeded_unsampled {M rand : ℤ} (h : isSampled M rand = .ok false) (rc : ResultCode)
    (records : List CallFragment) : isCallTrimNeeded M rand rc records = .ok (false, []) := by
  rw [isCallTrimNeeded, h]
  rfl

section Pool
variable {W σ : Type} {config : PoolConfig} {outside : Outside σ} {impu : Bytes} {x y : σ}

def WorkerState.IsAt (impu : Bytes) (x : WorkerState) : Prop := ∃ clr ∈ x.request, clr.impu = impu

/-- No two workers are at requests of one IMPU. -/
def Pool.Exclusive (impu : Bytes) (s : Pool W σ) : Prop :=
  ∀ w v, (s.worker w).IsAt impu → (s.worker v).IsAt impu → w = v

/-- What `process_work` has made of a list so far, from `x` to `y`. -/
inductive Stage (config : PoolConfig) (outside : Outside σ) (x : σ) : WorkerState → σ → Prop
  | starting (clr : CallListRequest) : Stage config outside x (.starting clr) x
  | writing (clr : CallListRequest) (time : ℕ) : Stage config outside x (.writing clr time) x
  | counting {clr : CallListRequest} {time : ℕ} {y : σ}
      (hw : outside.write x clr.callFragment time config.callListTtl .OK y) : Stage config outside x (.counting clr time) y
  | sampling {clr : CallListRequest} {time : ℕ} {y : σ}
      (hw : outside.write x clr.callFragment time config.callListTtl .OK y) : Stage config outside x (.sampling clr time) y
  | reading {clr : CallListRequest} {time : ℕ} {y : σ} (rand : ℤ)
      (hw : outside.write x clr.callFragment time config.callListTtl .OK y) (hr : outside.rand rand)
      (hs : isSampled config.maxCallListLength rand = .ok true) : Stage config outside x (.reading clr time) y
  | trimming {clr : CallListRequest} {time : ℕ} {y : σ} (rand : ℤ) (rc : ResultCode) (records : List CallFragment)
      {recordsToDelete : List CallFragment}
      (hw : outside.write x clr.callFragment time config.callListTtl .OK y) (hr : outside.rand rand)
      (hg : outside.get y rc records)
      (ht : isCallTrimNeeded config.maxCallListLength rand rc records = .ok (true, recordsToDelete)) :
      Stage config outside x (.trimming clr time recordsToDelete) y
  | notifying {clr : CallListRequest} {y : σ} (processed : ProcessWork config outside clr x y) :
      Stage config outside x (.notifying clr) y
  | completing {clr : CallListRequest} {y : σ} (processed : ProcessWork config outside clr x y) :
      Stage config outside x (.completing clr) y

/-- What a worker that is at a request does next, and what becomes of the list. -/
inductive Works (config : PoolConfig) (outside : Outside σ) : WorkerState → σ → WorkerState → σ → Prop
  | stamp (clr : CallListRequest) (time : ℕ) (y : σ) : Works config outside (.starting clr) y (.writing clr time) y
  | write {clr : CallListRequest} {time : ℕ} {x y : σ}
      (hw : outside.write x clr.callFragment time config.callListTtl .OK y) :
      Works config outside (.writing clr time) x (.counting clr time) y
  | fail {clr : CallListRequest} {time : ℕ} {x y : σ} {rc : ResultCode} (hrc : rc ≠ .OK)
      (hw : outside.write x clr.callFragment time config.callListTtl rc y) :
      Works config outside (.writing clr time) x (.completing clr) y
  | count (clr : CallListRequest) (time : ℕ) (y : σ) : Works config outside (.counting clr time) y (.sampling clr time) y
  | sample (clr : CallListRequest) (time : ℕ) (y : σ) {rand : ℤ} (hr : outside.rand rand)
      (hs : isSampled config.maxCallListLength rand = .ok true) :
      Works config outside (.sampling clr time) y (.reading clr time) y
  | skip (clr : CallListRequest) (time : ℕ) (y : σ) {rand : ℤ} (hr : outside.rand rand)
      (hs : isSampled config.maxCallListLength rand = .ok false) :
      Works config outside (.sampling clr time) y (.notifying clr) y
  | select (clr : CallListRequest) (time : ℕ) {y : σ} {rc : ResultCode} {records recordsToDelete : List CallFragment}
      (hg : outside.get y rc records) (hs : selectRecords config.maxCallListLength rc records = .ok (true, recordsToDelete)) :
      Works config outside (.reading clr time) y (.trimming clr time recordsToDelete) y
  | keep (clr : CallListRequest) (time : ℕ) {y : σ} {rc : ResultCode} {records recordsToDelete : List CallFragment}
      (hg : outside.get y rc records) (hs : selectRecords config.maxCallListLength rc records = .ok (false, recordsToDelete)) :
      Works config outside (.reading clr time) y (.notifying clr) y
  | delete (clr : CallListRequest) {time : ℕ} {recordsToDelete : List CallFragment} {x y : σ} {rc : ResultCode}
      (hd : outside.delete x recordsToDelete time rc y) :
      Works config outside (.trimming clr time recordsToDelete) x (.notifying clr) y
  | notify (clr : CallListRequest) (y : σ) : Works config outside (.notifying clr) y (.completing clr) y

theorem Works.request_eq {a b : WorkerState} (h : Works config outside a x b y) : b.request = a.request := by
  cases h <;> rfl

/-- What a worker does is the next part of `process_work`. -/
theorem Works.stage {z : σ} {a b : WorkerState} (h : Works config outside a x b y) (stage : Stage config outside z a x) :
    Stage config outside z b y := by
  cases h with
  | stamp clr time =>
    cases stage with
    | starting => exact .writing clr time
  | write hw =>
    cases stage with
    | writing => exact .counting hw
  | fail hrc hw =>
    cases stage with
    | writing => exact .completing (.failed _ hrc hw)
  | count =>
    cases stage with
    | counting hw => exact .sampling hw
  | sample clr time _ hr hs =>
    cases stage with
    | sampling hw => exact .reading _ hw hr hs
  | skip clr time _ hr hs =>
    cases stage with
    | sampling hw =>
      refine .notifying (.kept time _ .OK [] hw hr (fun ht => ?_) (isCallTrimNeeded_unsampled hs .OK []))
      rw [hs] at ht
      cases ht
  | select clr time hg hs =>
    cases stage with
    | reading rand hw hr hsampled =>
      exact .trimming rand _ _ hw hr hg ((isCallTrimNeeded_sampled hsampled _ _).trans hs)
  | keep clr time hg hs =>
    cases stage with
    | reading rand hw hr hsampled =>
      exact .notifying (.kept time rand _ _ hw hr (fun _ => hg) ((isCallTrimNeeded_sampled hsampled _ _).trans hs))
  | delete clr hd =>
    cases stage with
    | trimming rand rc' records hw hr hg ht => exact .notifying (.trimmed _ rand rc' _ records hw hr hg ht hd)
  | notify clr =>
    cases stage with
    | notifying processed => exact .completing processed

/-- The requests of the IMPU that were completed, in order. -/
def completedFor (impu : Bytes) (trace : List (Event W)) : List CallListRequest :=
  (completions trace).reverse.filter (·.impu = impu)

/-- The list is what processing the completed requests one after the other makes of it, and what the worker that is at
    the next one has done so far. -/
def Serialized (config : PoolConfig) (outside : Outside σ) (impu : Bytes) (s₀ s : Pool W σ) : Prop :=
  ∃ x, Serial (ProcessWork config outside) (s₀.store impu) (completedFor impu s.trace) x ∧
    (∀ w, (s.worker w).IsAt impu → Stage config outside x (s.worker w) (s.store impu)) ∧
    ((∀ w, ¬(s.worker w).IsAt impu) → s.store impu = x)

section Cases
variable {s₀ s s' : Pool W σ}

theorem not_isAt_idle (impu : Bytes) : ¬WorkerState.idle.IsAt impu := by
  rintro ⟨clr, hclr, -⟩
  cases hclr

theorem isAt_iff {x : WorkerState} {clr : CallListRequest} (hx : x.request = some clr) : x.IsAt impu ↔ clr.impu = impu := by
  simp [WorkerState.IsAt, hx]

/-- What happens to other lists does not matter. -/
theorem Serialized.other (h : Serialized config outside impu s₀ s) (hstore : s'.store impu = s.store impu)
    (hw : ∀ w, s'.worker w = s.worker w ∨ ¬(s.worker w).IsAt impu ∧ ¬(s'.worker w).IsAt impu)
    (hdone : completedFor impu s'.trace = completedFor impu s.trace) : Serialized config outside impu s₀ s' := by
  obtain ⟨x, serial, busy, idle⟩ := h
  refine ⟨x, hdone ▸ serial, fun w hat => ?_, fun hnone => ?_⟩
  · rcases hw w with heq | ⟨-, hn⟩
    · rw [heq] at hat ⊢
      exact hstore ▸ busy w hat
    · exact absurd hat hn
  · refine hstore.trans (idle fun w hat => ?_)
    rcases hw w with heq | ⟨hn, -⟩
    · exact hnone w (heq ▸ hat)
    · exact hn hat

variable [DecidableEq W]

/-- The worker that is at the list goes on. -/
theorem Serialized.move (h : Serialized config outside impu s₀ s) (alone : s.Exclusive impu) {w : W} {y : WorkerState}
    (hat : (s.worker w).IsAt impu) (hworker : s'.worker = Function.update s.worker w y)
    (hdone : completedFor impu s'.trace = completedFor impu s.trace) (hy : y.IsAt impu)
    (hstage : ∀ x, Stage config outside x (s.worker w) (s.store impu) → Stage config outside x y (s'.store impu)) :
    Serialized config outside impu s₀ s' := by
  obtain ⟨x, serial, busy, -⟩ := h
  have hself : s'.worker w = y := by rw [hworker, Function.update_self]
  refine ⟨x, hdone ▸ serial, fun v hv => ?_, fun hnone => absurd (hself ▸ hy) (hnone w)⟩
  by_cases hvw : v = w
  · rw [hvw, hself]
    exact hstage x (busy w hat)
  · rw [hworker, Function.update_of_ne hvw] at hv
    exact absurd (alone v w hv hat) hvw

/-- A worker that is not at the list before or after its step leaves it alone. -/
theorem Serialized.elsewhere (h : Serialized config outside impu s₀ s) {w : W} {y : WorkerState}
    (hnot : ¬(s.worker w).IsAt impu) (hy : ¬y.IsAt impu) (hworker : s'.worker = Function.update s.worker w y)
    (hstore : s'.store impu = s.store impu) (hdone : completedFor impu s'.trace = completedFor impu s.trace) :
    Serialized config outside impu s₀ s' := by
  refine h.other hstore (fun v => ?_) hdone
  rw [hworker, Function.update_apply]
  split
  · rename_i hv
    exact Or.inr ⟨hv ▸ hnot, hy⟩
  · exact Or.inl rfl

/-- A worker that takes a request of the list finds it processed. -/
theorem Serialized.take (h : Serialized config outside impu s₀ s) (alone' : s'.Exclusive impu) {w : W}
    {clr : CallListRequest} (hi : clr.impu = impu) (hidle : s.worker w = .idle)
    (hworker : s'.worker = Function.update s.worker w (.starting clr)) (hstore : s'.store impu = s.store impu)
    (hdone : completedFor impu s'.trace = completedFor impu s.trace) : Serialized config outside impu s₀ s' := by
  obtain ⟨x, serial, -, idle⟩ := h
  have hself : s'.worker w = .starting clr := by rw [hworker, Function.update_self]
  have hat : (s'.worker w).IsAt impu := by rw [hself]; exact (isAt_iff rfl).mpr hi
  have hnone : ∀ v, ¬(s.worker v).IsAt impu := by
    intro v hv
    have hvw : v ≠ w := by
      rintro rfl
      rw [hidle] at hv
      exact not_isAt_idle impu hv
    have hsame : s'.worker v = s.worker v := by rw [hworker, Function.update_of_ne hvw]
    exact hvw (alone' v w (hsame ▸ hv) hat)
  refine ⟨x, hdone ▸ serial, fun v hv => ?_, fun hn => absurd hat (hn w)⟩
  obtain rfl := alone' v w hv hat
  rw [hself, hstore, idle hnone]
  exact .starting clr

/-- A request that is completed has been processed. -/
theorem Serialized.complete (h : Serialized config outside impu s₀ s) (alone : s.Exclusive impu) {w : W}
    {clr : CallListRequest} (hi : clr.impu = impu) (hw : s.worker w = .completing clr)
    (hworker : s'.worker = Function.update s.worker w .idle) (hstore : s'.store impu = s.store impu)
    (hdone : completedFor impu s'.trace = completedFor impu s.trace ++ [clr]) : Serialized config outside impu s₀ s' := by
  obtain ⟨x, serial, busy, -⟩ := h
  have hat : (s.worker w).IsAt impu := by rw [hw]; exact (isAt_iff rfl).mpr hi
  have hnone : ∀ v, ¬(s'.worker v).IsAt impu := by
    intro v hv
    by_cases hvw : v = w
    · rw [hvw, hworker, Function.update_self] at hv
      exact not_isAt_idle impu hv
    · rw [hworker, Function.update_of_ne hvw] at hv
      exact hvw (alone v w hv hat)
  have hstage := busy w hat
  rw [hw] at hstage
  cases hstage with
  | completing processed =>
    exact ⟨s.store impu, hdone ▸ serial.snoc processed, fun v hv => absurd hv (hnone v), fun _ => hstore⟩

/-- A step is a submission, or one worker takes a request, completes it, or works on the list of its request. -/
theorem Step.works (step : Step config outside s s') : (∃ clr, s' = s.submit clr) ∨
    ∃ w a b, s.worker w = a ∧ s'.worker = Function.update s.worker w b ∧
      ((∃ clr, a = .idle ∧ b = .starting clr ∧ s'.store = s.store ∧ completions s'.trace = completions s.trace) ∨
        (∃ clr, a = .completing clr ∧ b = .idle ∧ s'.store = s.store ∧
          completions s'.trace = clr :: completions s.trace) ∨
        ∃ clr x, a.request = some clr ∧ Works config outside a (s.store clr.impu) b x ∧
          s'.store = Function.update s.store clr.impu x ∧ completions s'.trace = completions s.trace) := by
  have same (clr : CallListRequest) : s.store = Function.update s.store clr.impu (s.store clr.impu) :=
    (Function.update_eq_self _ _).symm
  cases step with
  | submit clr => exact Or.inl ⟨clr, rfl⟩
  | take w hw hq => exact Or.inr ⟨w, _, _, hw, rfl, Or.inl ⟨_, rfl, rfl, rfl, rfl⟩⟩
  | complete w hw => exact Or.inr ⟨w, _, _, hw, rfl, Or.inr (Or.inl ⟨_, rfl, rfl, rfl, rfl⟩)⟩
  | stamp w time hw => exact Or.inr ⟨w, _, _, hw, rfl, Or.inr (Or.inr ⟨_, _, rfl, .stamp _ time _, same _, rfl⟩)⟩
  | write w rc x hw ho =>
    refine Or.inr ⟨w, _, _, hw, rfl, Or.inr (Or.inr ⟨_, x, rfl, ?_, rfl, rfl⟩)⟩
    split
    · rename_i hrc
      exact .write (hrc ▸ ho)
    · rename_i hrc
      exact .fail hrc ho
  | count w hw => exact Or.inr ⟨w, _, _, hw, rfl, Or.inr (Or.inr ⟨_, _, rfl, .count _ _ _, same _, rfl⟩)⟩
  | sample w rand hw hr hs =>
    rename_i sampled
    refine Or.inr ⟨w, _, _, hw, rfl, Or.inr (Or.inr ⟨_, _, rfl, ?_, same _, rfl⟩)⟩
    cases sampled with
    | true => exact .sample _ _ _ hr hs
    | false => exact .skip _ _ _ hr hs
  | read w rc records hw ho hs =>
    rename_i needed recordsToDelete
    refine Or.inr ⟨w, _, _, hw, rfl, Or.inr (Or.inr ⟨_, _, rfl, ?_, same _, rfl⟩)⟩
    cases needed with
    | true => exact .select _ _ ho hs
    | false => exact .keep _ _ ho hs
  | delete w rc x hw ho => exact Or.inr ⟨w, _, _, hw, rfl, Or.inr (Or.inr ⟨_, x, rfl, .delete _ ho, rfl, rfl⟩)⟩
  | notify w hw =>
    refine Or.inr ⟨w, _, _, hw, ?_, Or.inr (Or.inr ⟨_, _, rfl, .notify _ _, ?_, ?_⟩)⟩
    · split <;> rfl
    · rw [← same]
      split <;> rfl
    · split <;> rfl

/-- What holds of the list is kept by every step. -/
theorem Serialized.step (h : Serialized config outside impu s₀ s) (alone : s.Exclusive impu) (alone' : s'.Exclusive impu)
    (step : Step config outside s s') : Serialized config outside impu s₀ s' := by
  rcases step.works with ⟨clr, rfl⟩ | ⟨w, a, b, rfl, hworker, ⟨clr, hw, rfl, hstore, hdone⟩ |
    ⟨clr, hw, rfl, hstore, hdone⟩ | ⟨clr, x, hreq, works, hstore, hdone⟩⟩
  · exact h.other rfl (fun _ => Or.inl rfl) rfl
  · have hsame : completedFor impu s'.trace = completedFor impu s.trace := by rw [completedFor, completedFor, hdone]
    by_cases hi : clr.impu = impu
    · exact h.take alone' hi hw hworker (congrFun hstore impu) hsame
    · have hnot : ¬(s.worker w).IsAt impu := by rw [hw]; exact not_isAt_idle impu
      exact h.elsewhere hnot (mt (isAt_iff rfl).mp hi) hworker (congrFun hstore impu) hsame
  · have hsnoc : completedFor impu s'.trace = completedFor impu s.trace ++ [clr].filter (·.impu = impu) := by
      rw [completedFor, completedFor, hdone, List.reverse_cons, List.filter_append]
    by_cases hi : clr.impu = impu
    · exact h.complete alone hi hw hworker (congrFun hstore impu) (by simpa [hi] using hsnoc)
    · have hnot : ¬(s.worker w).IsAt impu := by rw [hw]; exact mt (isAt_iff rfl).mp hi
      exact h.elsewhere hnot (not_isAt_idle impu) hworker (congrFun hstore impu) (by simpa [hi] using hsnoc)
  · have hsame : completedFor impu s'.trace = completedFor impu s.trace := by rw [completedFor, completedFor, hdone]
    have hy : b.request = some clr := works.request_eq.trans hreq
    by_cases hi : clr.impu = impu
    · subst hi
      refine h.move alone ((isAt_iff hreq).mpr rfl) hworker hsame ((isAt_iff hy).mpr rfl) fun z stage => ?_
      rw [hstore, Function.update_self]
      exact works.stage stage
    · have hkept : s'.store impu = s.store impu := by rw [hstore, Function.update_of_ne (Ne.symm hi)]
      exact h.elsewhere (mt (isAt_iff hreq).mp hi) (mt (isAt_iff hy).mp hi) hworker hkept hsame

/-- A run in which no two workers are ever at requests of the IMPU at the same time. -/
abbrev ExclusiveRun (config : PoolConfig) (outside : Outside σ) (impu : Bytes) : Pool W σ → Pool W σ → Prop :=
  Relation.ReflTransGen fun s s' => Step config outside s s' ∧ s'.Exclusive impu

theorem Serialized.run (h0 : s₀.Initial) (run : ExclusiveRun config outside impu s₀ s) :
    s.Exclusive impu ∧ Serialized config outside impu s₀ s := by
  have hnone : ∀ w, ¬(s₀.worker w).IsAt impu := fun w => by
    rw [h0.worker]
    exact not_isAt_idle impu
  induction run with
  | refl =>
    refine ⟨fun w _ hw => absurd hw (hnone w), s₀.store impu, ?_, fun w hw => absurd hw (hnone w), fun _ => rfl⟩
    rw [h0.trace]
    exact .nil
  | tail _ last ih => exact ⟨last.2, ih.2.step ih.1 last.2 last.1⟩

/-! ### Runs that are exclusive -/

omit [DecidableEq W] in
theorem Acts.requests_le {w : W} {x y : WorkerState} {e : Effect W} (h : Acts config w x e y) (p : CallListRequest → Bool) :
    y.request.toList.countP p ≤ x.request.toList.countP p + e.taken.countP p := by
  cases h <;> simp [WorkerState.request, Effect.none, Effect.event]

section Lone
variable [Fintype W]

/-- At most one request of the IMPU is queued or in work. -/
def Pool.Lone (impu : Bytes) (s : Pool W σ) : Prop :=
  s.queue.countP (·.impu = impu) + s.total (fun x => x.request.toList.countP (·.impu = impu)) ≤ 1

instance (impu : Bytes) (s : Pool W σ) : Decidable (s.Lone impu) := inferInstanceAs (Decidable (_ ≤ _))

theorem Pool.Lone.exclusive (h : s.Lone impu) : s.Exclusive impu := by
  intro w v hw hv
  by_contra hne
  have one : ∀ u, (s.worker u).IsAt impu → (s.worker u).request.toList.countP (·.impu = impu) = 1 := by
    rintro u ⟨clr, hclr, hi⟩
    simp [Option.mem_def.mp hclr, hi]
  have htwo : ∑ u ∈ {w, v}, (s.worker u).request.toList.countP (·.impu = impu) ≤
      s.total fun x => x.request.toList.countP (·.impu = impu) :=
    Finset.sum_le_sum_of_subset (Finset.subset_univ _)
  rw [Finset.sum_pair hne, one w hw, one v hv] at htwo
  unfold Pool.Lone at h
  omega

theorem Pool.Lone.step (h : s.Lone impu) (step : WorkerStep config outside s s') : s'.Lone impu := by
  rcases step.1.acted with ⟨clr, rfl⟩ | ⟨w, x, e, y, acted⟩
  · exact absurd rfl (step.2 clr)
  · have htotal := total_update (g := fun x => x.request.toList.countP (·.impu = impu)) acted.after
    have hle := acted.acts.requests_le (·.impu = impu)
    rw [acted.before] at htotal
    unfold Pool.Lone at h ⊢
    rw [acted.queue, List.countP_append] at h
    omega

/-- While an IMPU has one request at most, the workers are exclusive, in whatever order they go on. -/
theorem Pool.Lone.run (h : s.Lone impu) (run : WorkerRun config outside s s') : ExclusiveRun config outside impu s s' := by
  have lone : s'.Lone impu ∧ ExclusiveRun config outside impu s s' := by
    induction run with
    | refl => exact ⟨h, .refl⟩
    | tail _ last ih =>
      have next := ih.1.step last
      exact ⟨next, ih.2.tail ⟨last.1, next.exclusive⟩⟩
  exact lone.2

end Lone

omit [DecidableEq W] in
theorem Serialized.serial (h : Serialized config outside impu s₀ s) (hidle : ∀ w, ¬(s.worker w).IsAt impu) :
    Serial (ProcessWork config outside) (s₀.store impu) (completedFor impu s.trace) (s.store impu) := by
  obtain ⟨x, serial, -, idle⟩ := h
  rwa [idle hidle]

/-- At the end of such a run, when no worker is at the list, it is what processing the requests of the IMPU makes of it,
    one after the other in the order in which they were completed. -/
theorem serial_of_exclusive (h0 : s₀.Initial) (run : ExclusiveRun config outside impu s₀ s)
    (hidle : ∀ w, ¬(s.worker w).IsAt impu) :
    Serial (ProcessWork config outside) (s₀.store impu) (completedFor impu s.trace) (s.store impu) :=
  (Serialized.run h0 run).2.serial hidle

/-- One worker processes the requests in the order in which they were queued. -/
theorem serial_of_one_worker [Subsingleton W] [Nonempty W] (h : Reachable config outside s₀ s) (drained : s.Drained)
    (impu : Bytes) : Serial (ProcessWork config outside) (s₀.store impu)
      ((submissions s.trace).reverse.filter (·.impu = impu)) (s.store impu) := by
  obtain ⟨w⟩ := ‹Nonempty W›
  have run : ExclusiveRun config outside impu s₀ s :=
    Relation.ReflTransGen.mono (fun _ _ step => ⟨step, fun w v _ _ => Subsingleton.elim w v⟩) _ _ h.steps
  have inOrder := h.completions_in_order w
  rw [drained.worker, drained.queue] at inOrder
  have serial := (Serialized.run h.initial run).2.serial fun w => by
    rw [drained.worker]
    exact not_isAt_idle impu
  have heq : (submissions s.trace).reverse = (completions s.trace).reverse := by simpa [WorkerState.request] using inOrder
  rwa [heq]

end Cases

end Pool

/-! ### Two users and two workers -/

/-- Each worker processes a request of another user. -/
theorem exists_bothProcessed : ∃ s : Pool Bool Cells, WorkerRun ⟨1, 604800, true⟩ (lastWriteStore (· < ·))
      (((Pool.new fun _ => .empty).submit lateBegin).submit (ofAlice newRejected)) s ∧ s.Drained ∧ s.clock = 2 ∧
    s.store newRejected.impu lateBegin.callFragment.key = ⟨1, some []⟩ ∧
    s.store newRejected.impu newRejected.callFragment.key = .empty ∧
    completions s.trace = [ofAlice newRejected, lateBegin] := by
  have hs : isSampled 1 0 = .ok true := rfl
  have hlate : selectRecords 1 .OK [lateBegin.callFragment] = .ok (false, []) :=
    selectRecords_ok (M := 1) (by norm_num) (by decide)
  have hnew : selectRecords 1 .OK [newRejected.callFragment] = .ok (false, []) :=
    selectRecords_ok (M := 1) (by norm_num) (by decide)
  have r0 : WorkerRun ⟨1, 604800, true⟩ (lastWriteStore (· < ·))
      (((Pool.new fun _ => .empty : Pool Bool Cells).submit lateBegin).submit (ofAlice newRejected)) _ := .refl
  have r1 := r0.trans (run_written (w := true) rfl rfl Nat.zero_lt_one (write_cells _ _ _ 1 _))
  have r2 := r1.trans (run_written (w := false) rfl rfl (Nat.lt_succ_self 1) (write_cells _ _ _ 2 _))
  have r3 := r2.trans (run_sampled (w := true) rfl trivial hs)
  have r4 := r3.trans (run_kept (w := true) rfl rfl ⟨List.pairwise_singleton _ _, by decide⟩ hlate)
  have r5 := r4.trans (run_sampled (w := false) rfl trivial hs)
  have r6 := r5.trans (run_kept (w := false) rfl rfl ⟨List.pairwise_singleton _ _, by decide⟩ hnew)
  exact ⟨_, r6, ⟨rfl, Bool.forall_bool.mpr ⟨rfl, rfl⟩⟩, rfl, rfl, rfl, rfl⟩

/-- The worker of the second request of Bob trims the first, while the other one is at the second request of Alice. -/
theorem exists_trimmedAgain {s : Pool Bool Cells} (drained : s.Drained) (hclock : s.clock = 2)
    (hcell : s.store newRejected.impu lateBegin.callFragment.key = ⟨1, some []⟩)
    (hempty : s.store newRejected.impu newRejected.callFragment.key = .empty) : ∃ u : Pool Bool Cells,
    WorkerRun ⟨1, 604800, true⟩ (lastWriteStore (· < ·)) ((s.submit newRejected).submit (ofAlice lateBegin)) u ∧
    u.worker true = .counting (ofAlice lateBegin) 4 ∧ u.worker false = .idle ∧
    .deleted false newRejected.impu [lateBegin.callFragment] 3 .OK ∈ u.trace ∧
    completions u.trace = newRejected :: completions s.trace := by
  have hq : ((s.submit newRejected).submit (ofAlice lateBegin)).queue = [newRejected, ofAlice lateBegin] := by
    simp [drained.queue]
  have r0 : WorkerRun ⟨1, 604800, true⟩ (lastWriteStore (· < ·)) ((s.submit newRejected).submit (ofAlice lateBegin)) _ :=
    .refl
  have r1 := r0.trans (run_written (w := false) (drained.worker false) hq (hclock.trans_lt (Nat.lt_succ_self 2))
    (write_cells _ _ _ 3 _))
  have r2 := r1.trans (run_written (w := true) (drained.worker true) rfl (Nat.lt_succ_self 3) (write_cells _ _ _ 4 _))
  obtain ⟨t, r3, htrue, hfalse, holder, hnewer, hdone⟩ : ∃ t : Pool Bool Cells,
      WorkerRun ⟨1, 604800, true⟩ (lastWriteStore (· < ·)) ((s.submit newRejected).submit (ofAlice lateBegin)) t ∧
      t.worker true = .counting (ofAlice lateBegin) 4 ∧ t.worker false = .reading newRejected 3 ∧
      t.store newRejected.impu lateBegin.callFragment.key = ⟨1, some []⟩ ∧
      t.store newRejected.impu newRejected.callFragment.key =
        (s.store newRejected.impu newRejected.callFragment.key).put 3 [] ∧
      completions t.trace = completions s.trace :=
    ⟨_, r2.trans (run_sampled (w := false) rfl trivial (rfl : isSampled 1 0 = .ok true)), rfl, rfl, hcell, rfl, rfl⟩
  have hget : (lastWriteStore (· < ·)).get (t.store newRejected.impu) .OK
      [lateBegin.callFragment, newRejected.callFragment] :=
    get_pair (by decide) (by rw [holder]; rfl) (by rw [hnewer, hempty]; rfl)
  have r4 := r3.trans (run_trimmed rfl hfalse hget selectRecords_late (delete_cells _ _ _ _))
  exact ⟨_, r4, htrue, rfl, by simp, congrArg (newRejected :: ·) hdone⟩

/-- At most one worker at a time is at Bob's list, but not always the same. -/
theorem serial_of_exclusive_sample : ∃ s : Pool Bool Cells,
    completions s.trace = [newRejected, ofAlice newRejected, lateBegin] ∧
    s.worker true = .counting (ofAlice lateBegin) 4 ∧
    .deleted false newRejected.impu [lateBegin.callFragment] 3 .OK ∈ s.trace ∧
    Serial (ProcessWork ⟨1, 604800, true⟩ (lastWriteStore (· < ·))) (fun _ => .empty) [lateBegin, newRejected]
      (s.store newRejected.impu) := by
  obtain ⟨s, first, drained, hclock, hcell, hempty, hdone⟩ := exists_bothProcessed
  obtain ⟨u, second, htrue, hfalse, hdeleted, hdone'⟩ := exists_trimmedAgain drained hclock hcell hempty
  have hidle : ∀ w, ¬(s.worker w).IsAt newRejected.impu := fun w => by
    rw [drained.worker]
    exact not_isAt_idle _
  have lone : Pool.Lone newRejected.impu (((Pool.new fun _ => .empty : Pool Bool Cells).submit lateBegin).submit
      (ofAlice newRejected)) := by decide
  have lone' : Pool.Lone newRejected.impu ((s.submit newRejected).submit (ofAlice lateBegin)) := by
    rw [Pool.Lone, total_submit, total_submit, drained.total rfl, queue_submit, queue_submit, drained.queue]
    decide
  have r0 : ExclusiveRun ⟨1, 604800, true⟩ (lastWriteStore (· < ·)) newRejected.impu (.new fun _ => .empty : Pool Bool Cells)
    _ := .refl
  have r1 := r0.tail ⟨.submit lateBegin, fun w _ hw => absurd hw (not_isAt_idle _)⟩
  have r2 := r1.tail ⟨.submit (ofAlice newRejected), fun w _ hw => absurd hw (not_isAt_idle _)⟩
  have r3 := r2.trans (lone.run first)
  have r4 := r3.tail ⟨.submit newRejected, fun w _ hw => absurd hw (hidle w)⟩
  have r5 := r4.tail ⟨.submit (ofAlice lateBegin), fun w _ hw => absurd hw (hidle w)⟩
  have hother : ∀ w, ¬(u.worker w).IsAt newRejected.impu := by
    refine Bool.forall_bool.mpr ⟨?_, ?_⟩
    · rw [hfalse]
      exact not_isAt_idle _
    · rw [htrue, isAt_iff rfl]
      decide
  have serial := serial_of_exclusive ⟨rfl, fun _ => rfl, rfl⟩ (r5.trans (lone'.run second)) hother
  rw [hdone] at hdone'
  rw [completedFor, hdone'] at serial
  exact ⟨u, hdone', htrue, hdeleted, serial⟩

end Memento
