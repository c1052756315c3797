import Mathlib.Data.Fintype.Card
import Memento.Theorems.Server

/-! The order in which requests reach the store. Workers take requests in the order in which they were queued, and one
    that is written has overtaken no more than the other workers hold. -/

namespace Memento

/-! ### What was taken -/

/-- The requests that were taken, in order, each with the worker that has yet to write it. -/
abbrev Taken (W : Type) := List (CallListRequest × Option W)

section Taken
variable {W σ : Type} {s s' : Pool W σ} {taken before after : Taken W} {w : W} {clr : CallListRequest}

/-- The workers that have yet to write what they took. -/
def Taken.holders (taken : Taken W) : List W := taken.filterMap Prod.snd

def Taken.written (taken : Taken W) : List CallListRequest :=
  taken.filterMap fun x => if x.2.isNone then some x.1 else none

/-- Where a request was written, fewer of those before it than there are workers are not. -/
def Taken.Overtakes [Fintype W] (taken : Taken W) : Prop :=
  ∀ before clr after, taken = before ++ (clr, none) :: after → (Taken.holders before).length < Fintype.card W

/-- The requests were taken in the order in which they were queued, and those that were not written are held. -/
structure InOrder (s : Pool W σ) (taken : Taken W) : Prop where
  queued : (submissions s.trace).reverse = taken.map Prod.fst ++ s.queue
  written : (attempts s.trace).Perm taken.written
  held : ∀ w clr, (clr, some w) ∈ taken ↔ (s.worker w).unwritten = some clr
  nodup : taken.holders.Nodup

theorem holders_append : Taken.holders (before ++ after) = before.holders ++ after.holders := List.filterMap_append

theorem holders_cons_some :
    Taken.holders (before ++ (clr, some w) :: after) = before.holders ++ w :: after.holders := holders_append

theorem mem_holders : w ∈ taken.holders ↔ ∃ clr, (clr, some w) ∈ taken := by
  simp [Taken.holders]

/-- A request that is taken comes after those that were. -/
theorem Taken.Overtakes.snoc [Fintype W] (h : taken.Overtakes) : Taken.Overtakes (taken ++ [(clr, some w)]) := by
  intro before clr' after heq
  rcases List.eq_nil_or_concat after with rfl | ⟨after, last, rfl⟩
  · have := (List.append_inj_right' heq rfl)
    simp at this
  · rw [List.concat_eq_append, ← List.cons_append, ← List.append_assoc] at heq
    exact h before clr' after (List.append_inj_left' heq rfl)

/-- Two elements of one list are the same, or one is before the other. -/
theorem append_cons_cases {α : Type} {a b c d : List α} {x y : α} (h : a ++ x :: b = c ++ y :: d) :
    (a = c ∧ b = d ∧ x = y) ∨ (∃ mid, c = a ++ x :: mid ∧ b = mid ++ y :: d) ∨ ∃ mid, a = c ++ y :: mid ∧ d = mid ++ x :: b := by
  rcases List.append_eq_append_iff.mp h with ⟨mid, rfl, htail⟩ | ⟨mid, rfl, htail⟩
  · cases mid with
    | nil =>
      obtain ⟨hxy, hbd⟩ := List.cons.inj htail
      exact Or.inl ⟨(List.append_nil a).symm, hbd, hxy⟩
    | cons z mid =>
      obtain ⟨rfl, rfl⟩ := List.cons.inj htail
      exact Or.inr (Or.inl ⟨mid, rfl, rfl⟩)
  · cases mid with
    | nil =>
      obtain ⟨hxy, hbd⟩ := List.cons.inj htail
      exact Or.inl ⟨List.append_nil c, hbd.symm, hxy.symm⟩
    | cons z mid =>
      obtain ⟨rfl, rfl⟩ := List.cons.inj htail
      exact Or.inr (Or.inr ⟨mid, rfl, rfl⟩)

/-- What a worker writes may have overtaken what the others hold. -/
theorem Taken.Overtakes.write [Fintype W] (h : Taken.Overtakes (before ++ (clr, some w) :: after))
    (hnodup : (Taken.holders (before ++ (clr, some w) :: after)).Nodup) :
    Taken.Overtakes (before ++ (clr, none) :: after) := by
  intro pre clr' post heq
  rcases append_cons_cases heq with ⟨rfl, -, -⟩ | ⟨mid, rfl, rfl⟩ | ⟨mid, rfl, rfl⟩
  · -- The workers that hold what is before the request are not the one that writes it.
    rw [holders_cons_some, List.perm_middle.nodup_iff] at hnodup
    have hcons : (w :: before.holders).Nodup := hnodup.sublist ((List.sublist_append_left _ _).cons_cons w)
    exact hcons.length_le_card
  · have hold := h (before ++ (clr, some w) :: mid) clr' post (by simp)
    rw [holders_append] at hold ⊢
    refine lt_of_le_of_lt ?_ hold
    simp [Taken.holders]
  · exact h pre clr' (mid ++ (clr, some w) :: after) (by simp)

theorem InOrder.submit (h : InOrder s taken) : InOrder (s.submit clr) taken where
  queued := by
    have hsubmit : submissions (s.submit clr).trace = clr :: submissions s.trace := rfl
    rw [hsubmit, List.reverse_cons, h.queued, queue_submit, List.append_assoc]
  written := h.written
  held := h.held
  nodup := h.nodup

theorem InOrder.keep (h : InOrder s taken) (hqueue : s'.queue = s.queue)
    (hsubmitted : submissions s'.trace = submissions s.trace) (hattempts : attempts s'.trace = attempts s.trace)
    (hw : ∀ v, (s'.worker v).unwritten = (s.worker v).unwritten) : InOrder s' taken where
  queued := by rw [hsubmitted, hqueue, h.queued]
  written := hattempts ▸ h.written
  held v clr := by rw [hw, h.held]
  nodup := h.nodup

theorem InOrder.notMem_holders (h : InOrder s taken) (hw : (s.worker w).unwritten = none) : w ∉ taken.holders := by
  rw [mem_holders]
  rintro ⟨clr, hclr⟩
  rw [h.held, hw] at hclr
  cases hclr

variable [DecidableEq W]

theorem InOrder.take (h : InOrder s taken) (hqueue : s.queue = clr :: s'.queue)
    (hsubmitted : submissions s'.trace = submissions s.trace) (hattempts : attempts s'.trace = attempts s.trace)
    (hidle : (s.worker w).unwritten = none)
    (hw : ∀ v, (s'.worker v).unwritten = if v = w then some clr else (s.worker v).unwritten) :
    InOrder s' (taken ++ [(clr, some w)]) where
  queued := by rw [hsubmitted, h.queued, hqueue, List.map_append, List.append_assoc]; rfl
  written := by
    rw [hattempts, Taken.written, List.filterMap_append]
    simpa [Taken.written] using h.written
  held v clr' := by
    rw [List.mem_append, h.held, hw]
    by_cases hv : v = w
    · subst hv
      simp [hidle, eq_comm]
    · simp [hv]
  nodup := by
    rw [holders_append, List.nodup_append]
    refine ⟨h.nodup, List.nodup_singleton w, ?_⟩
    rintro v hv v' hv' rfl
    obtain rfl := List.mem_singleton.mp hv'
    exact h.notMem_holders hidle hv

theorem InOrder.write (h : InOrder s (before ++ (clr, some w) :: after)) (hqueue : s'.queue = s.queue)
    (hsubmitted : submissions s'.trace = submissions s.trace)
    (hattempts : attempts s'.trace = clr :: attempts s.trace)
    (hw : ∀ v, (s'.worker v).unwritten = if v = w then none else (s.worker v).unwritten) :
    InOrder s' (before ++ (clr, none) :: after) where
  queued := by
    rw [hsubmitted, hqueue, h.queued, List.map_append, List.map_append]
    rfl
  written := by
    have hold := h.written
    simp only [Taken.written, List.filterMap_append] at hold ⊢
    rw [hattempts]
    exact (hold.cons clr).trans List.perm_middle.symm
  held v clr' := by
    have others : Taken.holders (before ++ (clr, none) :: after) = before.holders ++ after.holders := holders_append
    rw [hw]
    by_cases hv : v = w
    · -- The worker that writes the request holds no other.
      subst hv
      have hnodup := h.nodup
      rw [holders_cons_some, List.perm_middle.nodup_iff, List.nodup_cons, ← others, mem_holders] at hnodup
      rw [if_pos rfl]
      exact iff_of_false (fun hmem => hnodup.1 ⟨clr', hmem⟩) nofun
    · rw [if_neg hv, ← h.held]
      simp [hv]
  nodup := by
    have hnodup := h.nodup
    rw [holders_cons_some] at hnodup
    rw [holders_append]
    exact hnodup.sublist ((List.sublist_cons_self w after.holders).append_left before.holders)

end Taken

section Pool
variable {W σ : Type} [DecidableEq W] {config : PoolConfig} {outside : Outside σ} {s₀ s s' : Pool W σ}

omit [DecidableEq W] in
/-- A step takes a request, writes the one that was taken, or does neither. -/
theorem Acts.order_cases {w : W} {x y : WorkerState} {e : Effect W} (h : Acts config w x e y) :
    (∃ clr, e.taken = [clr] ∧ x.unwritten = none ∧ y.unwritten = some clr ∧ attempts e.events = []) ∨
    (∃ clr, e.taken = [] ∧ x.unwritten = some clr ∧ y.unwritten = none ∧ attempts e.events = [clr]) ∨
    (e.taken = [] ∧ y.unwritten = x.unwritten ∧ attempts e.events = []) := by
  cases h with
  | take clr => exact Or.inl ⟨clr, rfl, rfl, rfl, rfl⟩
  | fail clr | write clr => exact Or.inr (Or.inl ⟨clr, rfl, rfl, rfl, rfl⟩)
  | _ => exact Or.inr (Or.inr ⟨rfl, rfl, rfl⟩)

/-! ### One worker -/

section One
variable [Subsingleton W] (h : Reachable config outside s₀ s) (w : W)
include h

/-- What one worker has done of the requests, what it holds and what is queued are the requests, in this order. -/
theorem Reachable.in_order {done : List (Event W) → List CallListRequest} {held : WorkerState → Option CallListRequest}
    (happend : ∀ a b, done (a ++ b) = done a ++ done b) (hnil : done [] = []) (hsubmit : ∀ clr, done [.submitted clr] = [])
    (hidle : held .idle = none) (hacts : ∀ {w : W} {x e y}, Acts config w x e y →
      (done e.events).reverse ++ (held y).toList = (held x).toList ++ e.taken) :
    (submissions s.trace).reverse = (done s.trace).reverse ++ (held (s.worker w)).toList ++ s.queue := by
  refine h.invariant (P := fun s =>
    (submissions s.trace).reverse = (done s.trace).reverse ++ (held (s.worker w)).toList ++ s.queue) ?_
    fun {s s'} _ ih step => ?_
  · rw [h.initial.trace, h.initial.worker, h.initial.queue, hnil, hidle]
    rfl
  · rcases step.acted with ⟨clr, rfl⟩ | ⟨v, x, e, y, acted⟩
    · have hsubmissions : submissions (s.submit clr).trace = clr :: submissions s.trace := rfl
      have hdone : done (s.submit clr).trace = done s.trace := by
        rw [trace_submit, ← List.singleton_append, happend, hsubmit, List.nil_append]
      rw [hsubmissions, hdone, List.reverse_cons, ih, queue_submit, worker_submit, List.append_assoc]
    · obtain rfl : v = w := Subsingleton.elim _ _
      have hy : s'.worker v = y := by rw [acted.after, Function.update_self]
      rw [acted.before, acted.queue] at ih
      rw [hy, acted.trace, submissions_append, acted.acts.submissions_eq, List.nil_append, ih, happend, List.reverse_append]
      have hmoved := congrArg (· ++ s'.queue) (hacts acted.acts)
      simp only [List.append_assoc] at hmoved ⊢
      rw [hmoved]

/-- The fragments reach the store in the order in which they were queued. -/
theorem Reachable.attempts_in_order :
    (submissions s.trace).reverse = (attempts s.trace).reverse ++ (s.worker w).unwritten.toList ++ s.queue :=
  h.in_order w attempts_append rfl (fun _ => rfl) rfl fun acts => by cases acts <;> rfl

theorem Reachable.completions_in_order :
    (submissions s.trace).reverse = (completions s.trace).reverse ++ (s.worker w).request.toList ++ s.queue :=
  h.in_order w completions_append rfl (fun _ => rfl) rfl fun acts => by cases acts <;> rfl

end One

/-! ### Several workers -/

/-- A step leaves what was taken, adds a request at the end, or writes one of those that are held. -/
theorem InOrder.step {taken : Taken W} (h : InOrder s taken) (step : Step config outside s s') :
    InOrder s' taken ∨ (∃ clr w, InOrder s' (taken ++ [(clr, some w)])) ∨
      ∃ before clr w after, taken = before ++ (clr, some w) :: after ∧ InOrder s' (before ++ (clr, none) :: after) := by
  rcases step.acted with ⟨clr, rfl⟩ | ⟨w, x, e, y, acted⟩
  · exact Or.inl h.submit
  · have hsubmitted : submissions s'.trace = submissions s.trace := by
      rw [acted.trace, submissions_append, acted.acts.submissions_eq, List.nil_append]
    have hattempts : attempts s'.trace = attempts e.events ++ attempts s.trace := by rw [acted.trace, attempts_append]
    have hw : ∀ v, (s'.worker v).unwritten = if v = w then y.unwritten else (s.worker v).unwritten := fun v => by
      rw [acted.after, Function.update_apply]
      exact apply_ite _ _ _ _
    rcases acted.acts.order_cases with ⟨clr, ht, hx, hy, ha⟩ | ⟨clr, ht, hx, hy, ha⟩ | ⟨ht, hy, ha⟩
    · have hidle : (s.worker w).unwritten = none := by rw [acted.before, hx]
      rw [ha, List.nil_append] at hattempts
      rw [hy] at hw
      exact Or.inr (Or.inl ⟨clr, w, h.take (by rw [acted.queue, ht]; rfl) hsubmitted hattempts hidle hw⟩)
    · have hheld : (clr, some w) ∈ taken := (h.held w clr).mpr (by rw [acted.before, hx])
      obtain ⟨before, after, rfl⟩ := List.append_of_mem hheld
      rw [ha] at hattempts
      rw [hy] at hw
      have hqueue : s'.queue = s.queue := by rw [acted.queue, ht, List.nil_append]
      exact Or.inr (Or.inr ⟨before, clr, w, after, rfl, h.write hqueue hsubmitted hattempts hw⟩)
    · have hqueue : s'.queue = s.queue := by rw [acted.queue, ht, List.nil_append]
      rw [ha, List.nil_append] at hattempts
      refine Or.inl (h.keep hqueue hsubmitted hattempts fun v => ?_)
      rw [hw]
      split
      · rename_i hv
        rw [hy, hv, acted.before]
      · rfl

variable [Fintype W]

/-- In every run requests are taken in the order in which they were queued, and one that was written has overtaken fewer
    than there are workers. -/
theorem overtaking_bounded (h : Reachable config outside s₀ s) : ∃ taken, InOrder s taken ∧ taken.Overtakes := by
  refine h.invariant (P := fun s => ∃ taken, InOrder s taken ∧ taken.Overtakes) ⟨[], ⟨?_, ?_, ?_, List.nodup_nil⟩, ?_⟩
    fun {s s'} _ ih step => ?_
  · rw [h.initial.trace, h.initial.queue]
    rfl
  · rw [h.initial.trace]
    rfl
  · simp [h.initial.worker, WorkerState.unwritten]
  · intro before clr after heq
    simp at heq
  · obtain ⟨taken, inOrder, overtakes⟩ := ih
    rcases inOrder.step step with hkeep | ⟨clr, w, htake⟩ | ⟨before, clr, w, after, rfl, hwrite⟩
    · exact ⟨taken, hkeep, overtakes⟩
    · exact ⟨_, htake, overtakes.snoc⟩
    · exact ⟨_, hwrite, overtakes.write inOrder.nodup⟩

end Pool

/-- Two workers: the request that was queued second is written first. -/
theorem overtaking_bounded_sample : ∃ s : Pool Bool Cells,
    submissions s.trace = [newRejected, lateBegin] ∧ attempts s.trace = [newRejected] ∧
      ∃ taken, InOrder s taken ∧ taken.Overtakes := by
  have r0 : Reachable ⟨0, 604800, true⟩ (lastWriteStore (· < ·)) (.new fun _ => .empty : Pool Bool Cells) _ := .new _ _ _
  have r1 := r0.step (.submit lateBegin)
  have r2 := r1.step (.submit newRejected)
  have r3 := r2.step (.take true rfl rfl)
  have r4 := r3.step (.take false rfl rfl)
  have r5 := r4.step (.stamp false 1 rfl Nat.zero_lt_one)
  have r6 := r5.step (.write false .OK _ rfl (Or.inl rfl))
  exact ⟨_, rfl, rfl, overtaking_bounded r6⟩

end Memento
