import Mathlib.Data.List.Induction
import Mathlib.Logic.Function.Basic

/-! What memento is for: a log of calls. A call is placed in a dialog, its first outcome is logged, and so is every end
    of it. How the log is written and stored is not its concern. -/

namespace Memento
namespace CallLog

variable {D C O T : Type}

/-- What happens to calls. -/
inductive Event (D C O T : Type) where
  | placed (dialog : D) (call : C)
  | settled (dialog : D) (outcome : O)
  | ended (dialog : D) (endTime : T)

def Event.dialog : Event D C O T → D
  | .placed dialog _ | .settled dialog _ | .ended dialog _ => dialog

/-- What is logged of a call. -/
inductive Fact (O T : Type) where
  | settled (outcome : O)
  | ended (endTime : T)

def Fact.isSettled : Fact O T → Bool
  | .settled _ => true
  | .ended _ => false

structure Entry (D C O T : Type) where
  dialog : D
  call : C
  fact : Fact O T

def Entry.event (x : Entry D C O T) : Event D C O T :=
  match x.fact with
  | .settled outcome => .settled x.dialog outcome
  | .ended endTime => .ended x.dialog endTime

structure Log (D C O T : Type) where
  call : D → Option C
  entries : List (Entry D C O T)

namespace Log

def empty : Log D C O T := ⟨fun _ => none, []⟩

/-- Nothing is logged of a dialog in which no call was placed. -/
def add (log : Log D C O T) (d : D) (fact : Fact O T) : Log D C O T :=
  match log.call d with
  | none => log
  | some call => { log with entries := log.entries ++ [⟨d, call, fact⟩] }

variable [DecidableEq D]

def place (log : Log D C O T) (d : D) (call : C) : Log D C O T :=
  match log.call d with
  | none => { log with call := Function.update log.call d (some call) }
  | some _ => log

def outcomes (log : Log D C O T) (d : D) : List (Entry D C O T) :=
  log.entries.filter fun x => decide (x.dialog = d) && x.fact.isSettled

def record (log : Log D C O T) : Event D C O T → Log D C O T
  | .placed d call => log.place d call
  | .settled d outcome => if log.outcomes d = [] then log.add d (.settled outcome) else log
  | .ended d endTime => log.add d (.ended endTime)

/-- The log of what happened, in order. -/
def ofEvents (events : List (Event D C O T)) : Log D C O T := events.foldl record empty

/-! ### What a log holds -/

variable {log : Log D C O T} {events : List (Event D C O T)} {d : D} {call : C} {e : Event D C O T} {x : Entry D C O T}

theorem ofEvents_append (events events' : List (Event D C O T)) :
    ofEvents (events ++ events') = events'.foldl record (ofEvents events) := List.foldl_append

theorem ofEvents_concat (events : List (Event D C O T)) (e : Event D C O T) :
    ofEvents (events ++ [e]) = (ofEvents events).record e := ofEvents_append events [e]

omit [DecidableEq D] in
theorem add_of_call (h : log.call d = some call) (fact : Fact O T) :
    log.add d fact = { log with entries := log.entries ++ [⟨d, call, fact⟩] } := by
  rw [add, h]

omit [DecidableEq D] in
@[simp] theorem call_add (log : Log D C O T) (d : D) (fact : Fact O T) : (log.add d fact).call = log.call := by
  unfold add
  split <;> rfl

omit [DecidableEq D] in
theorem entries_add (log : Log D C O T) (d : D) (fact : Fact O T) :
    (log.add d fact).entries = log.entries ∨
      ∃ call, log.call d = some call ∧ (log.add d fact).entries = log.entries ++ [⟨d, call, fact⟩] := by
  cases h : log.call d with
  | none =>
    rw [add, h]
    exact Or.inl rfl
  | some call =>
    rw [add_of_call h]
    exact Or.inr ⟨call, rfl, rfl⟩

theorem call_place_iff {d' : D} {call' : C} : (log.place d' call').call d = some call ↔
    log.call d = some call ∨ log.call d = none ∧ d' = d ∧ call' = call := by
  unfold place
  split
  · rename_i h
    simp only [Function.update_apply]
    by_cases hd : d = d'
    · subst hd
      simp [h]
    · simp [hd, Ne.symm hd]
  · rename_i c h
    refine ⟨Or.inl, ?_⟩
    rintro (hcall | ⟨hnone, rfl, -⟩)
    · exact hcall
    · rw [h] at hnone
      cases hnone

theorem entries_place (log : Log D C O T) (d : D) (call : C) : (log.place d call).entries = log.entries := by
  unfold place
  split <;> rfl

/-- A dialog has the call that was first placed in it. -/
theorem call_record_iff (log : Log D C O T) (e : Event D C O T) : (log.record e).call d = some call ↔
    log.call d = some call ∨ log.call d = none ∧ e = .placed d call := by
  cases e with
  | placed d' call' =>
    rw [record, call_place_iff]
    simp
  | settled d' outcome =>
    rw [record]
    split <;> simp
  | ended d' endTime => simp [record]

/-- What happens adds one entry at most, about the call of its dialog. -/
theorem entries_record (log : Log D C O T) (e : Event D C O T) :
    (log.record e).entries = log.entries ∨
      ∃ x, (log.record e).entries = log.entries ++ [x] ∧ log.call x.dialog = some x.call ∧ x.event = e ∧
        (x.fact.isSettled = true → log.outcomes x.dialog = []) := by
  cases e with
  | placed d call => exact Or.inl (entries_place log d call)
  | settled d outcome =>
    rw [record]
    split
    · rename_i hnone
      rcases entries_add log d (.settled outcome) with hsame | ⟨call, hcall, hadd⟩
      · exact Or.inl hsame
      · exact Or.inr ⟨_, hadd, hcall, rfl, fun _ => hnone⟩
    · exact Or.inl rfl
  | ended d endTime =>
    rcases entries_add log d (.ended endTime) with hsame | ⟨call, hcall, hadd⟩
    · exact Or.inl hsame
    · exact Or.inr ⟨_, hadd, hcall, rfl, nofun⟩

/-- Only an outcome settles. -/
theorem outcomes_record (h : ∀ outcome, e ≠ .settled d outcome) : (log.record e).outcomes d = log.outcomes d := by
  rcases entries_record log e with hsame | ⟨x, hadd, -, hevent, -⟩
  · rw [outcomes, outcomes, hsame]
  · rw [outcomes, outcomes, hadd, List.filter_append, List.append_right_eq_self, List.filter_eq_nil_iff]
    intro y hy hs
    rw [List.mem_singleton.mp hy, Bool.and_eq_true, decide_eq_true_eq] at hs
    obtain ⟨hd, hs⟩ := hs
    obtain ⟨dialog, call, fact⟩ := x
    cases fact with
    | settled outcome => exact h outcome (by rw [← hevent, ← hd]; rfl)
    | ended endTime => cases hs

theorem placed_of_call (h : (ofEvents events).call d = some call) : .placed d call ∈ events := by
  induction events using List.reverseRecOn with
  | nil => cases h
  | append_singleton events e ih =>
    rw [ofEvents_concat] at h
    rcases (call_record_iff _ e).mp h with hold | ⟨-, rfl⟩
    · exact List.mem_append_left _ (ih hold)
    · exact List.mem_append_right _ (.head _)

/-- What holds of an entry when it is added, and is kept by all that happens later, holds of every entry. -/
theorem entries_induction {P : List (Event D C O T) → Entry D C O T → Prop}
    (hadded : ∀ events x, (ofEvents events).call x.dialog = some x.call → P (events ++ [x.event]) x)
    (hkept : ∀ events e x, P events x → P (events ++ [e]) x) (h : x ∈ (ofEvents events).entries) : P events x := by
  induction events using List.reverseRecOn with
  | nil => cases h
  | append_singleton events e ih =>
    rw [ofEvents_concat] at h
    rcases entries_record (ofEvents events) e with hsame | ⟨y, hadd, hcall, rfl, -⟩
    · exact hkept events e x (ih (hsame ▸ h))
    · rcases List.mem_append.mp (hadd ▸ h) with hx | hx
      · exact hkept events _ x (ih hx)
      · obtain rfl := List.mem_singleton.mp hx
        exact hadded events x hcall

/-- Every entry is about the call of its dialog, and says of it what happened. -/
theorem mem_entries (h : x ∈ (ofEvents events).entries) :
    (ofEvents events).call x.dialog = some x.call ∧ x.event ∈ events := by
  refine entries_induction (P := fun events x => (ofEvents events).call x.dialog = some x.call ∧ x.event ∈ events)
    (fun events x hcall => ⟨?_, List.mem_append_right _ (.head _)⟩) (fun events e x hx => ⟨?_, ?_⟩) h
  · rw [ofEvents_concat]
    exact (call_record_iff _ _).mpr (Or.inl hcall)
  · rw [ofEvents_concat]
    exact (call_record_iff _ e).mpr (Or.inl hx.1)
  · exact List.mem_append_left _ hx.2

/-- What an entry says happened after its call was placed. -/
theorem placed_before (h : x ∈ (ofEvents events).entries) : [.placed x.dialog x.call, x.event].Sublist events := by
  refine entries_induction (P := fun events x => [.placed x.dialog x.call, x.event].Sublist events)
    (fun events x hcall => ?_) (fun events e x hx => ?_) h
  · exact (List.singleton_sublist.mpr (placed_of_call hcall)).append (List.Sublist.refl [x.event])
  · exact hx.trans (List.sublist_append_left _ _)

/-- No call is settled twice. -/
theorem length_outcomes_le (events : List (Event D C O T)) (d : D) : ((ofEvents events).outcomes d).length ≤ 1 := by
  induction events using List.reverseRecOn with
  | nil => exact Nat.zero_le _
  | append_singleton events e ih =>
    rw [ofEvents_concat]
    rcases entries_record (ofEvents events) e with hsame | ⟨x, hadd, -, -, hfirst⟩
    · rwa [outcomes, hsame]
    · rw [outcomes, hadd, List.filter_append, List.length_append, ← outcomes]
      by_cases hx : (decide (x.dialog = d) && x.fact.isSettled) = true
      · obtain ⟨hd, hs⟩ := Bool.and_eq_true_iff.mp hx
        rw [← of_decide_eq_true hd, hfirst hs, List.length_nil, Nat.zero_add]
        exact List.length_filter_le _ _
      · simpa [hx] using ih

theorem eq_of_mem_outcomes {y : Entry D C O T} (hx : x ∈ (ofEvents events).outcomes d)
    (hy : y ∈ (ofEvents events).outcomes d) : x = y := by
  have hle := length_outcomes_le events d
  cases h : (ofEvents events).outcomes d with
  | nil =>
    rw [h] at hx
    cases hx
  | cons z rest =>
    rw [h, List.length_cons] at hle
    obtain rfl : rest = [] := List.eq_nil_of_length_eq_zero (by omega)
    rw [h, List.mem_singleton] at hx hy
    rw [hx, hy]

theorem outcomes_of_no_call (h : (ofEvents events).call d = none) : (ofEvents events).outcomes d = [] := by
  rw [outcomes, List.filter_eq_nil_iff]
  rintro x hx hs
  simp only [Bool.and_eq_true, decide_eq_true_eq] at hs
  have hcall := (mem_entries hx).1
  rw [hs.1, h] at hcall
  cases hcall

/-! ### One dialog -/

/-- The logs say the same of a dialog. -/
structure Agree (d : D) (log log' : Log D C O T) : Prop where
  call : log.call d = log'.call d
  entries : log.entries.filter (fun x => x.dialog = d) = log'.entries.filter (fun x => x.dialog = d)

variable {log' : Log D C O T} {d' : D}

theorem Agree.outcomes (h : Agree d log log') : log.outcomes d = log'.outcomes d := by
  have settled (log : Log D C O T) :
      log.outcomes d = (log.entries.filter fun x => x.dialog = d).filter fun x => x.fact.isSettled := by
    rw [Log.outcomes, List.filter_filter]
    exact List.filter_congr fun x _ => Bool.and_comm _ _
  rw [settled, settled, h.entries]

theorem Agree.add (h : Agree d log log') (fact : Fact O T) : Agree d (log.add d fact) (log'.add d fact) := by
  refine ⟨by rw [call_add, call_add, h.call], ?_⟩
  cases hc : log.call d with
  | none => rw [Log.add, Log.add, ← h.call, hc, h.entries]
  | some call => rw [add_of_call hc, add_of_call (h.call ▸ hc), List.filter_append, List.filter_append, h.entries]

theorem agree_add_of_ne (hd : d' ≠ d) (log : Log D C O T) (fact : Fact O T) : Agree d (log.add d' fact) log := by
  refine ⟨by rw [call_add], ?_⟩
  rcases entries_add log d' fact with hsame | ⟨call, -, hadd⟩
  · rw [hsame]
  · rw [hadd, List.filter_append]
    simp [hd]

theorem Agree.record (h : Agree d log log') (he : e.dialog = d) : Agree d (log.record e) (log'.record e) := by
  subst he
  cases e with
  | placed d call =>
    refine ⟨Option.ext fun c => ?_, by simpa only [Log.record, entries_place] using h.entries⟩
    have hcall : log.call d = log'.call d := h.call
    rw [Event.dialog, call_record_iff, call_record_iff, hcall]
  | settled d outcome =>
    have houtcomes : log.outcomes d = log'.outcomes d := h.outcomes
    rw [Log.record, Log.record, houtcomes]
    split
    · exact h.add _
    · exact h
  | ended d endTime => exact h.add _

theorem agree_record_of_ne (he : e.dialog ≠ d) (log : Log D C O T) : Agree d (log.record e) log := by
  cases e with
  | placed d' call =>
    refine ⟨Option.ext fun c => ?_, by rw [Log.record, entries_place]⟩
    have hne : Event.placed d' call ≠ (.placed d c : Event D C O T) := fun heq => he (by rw [heq]; rfl)
    rw [call_record_iff]
    simp [hne]
  | settled d' outcome =>
    rw [Log.record]
    split
    · exact agree_add_of_ne he log _
    · exact ⟨rfl, rfl⟩
  | ended d' endTime => exact agree_add_of_ne he log _

theorem agree_ofEvents (events : List (Event D C O T)) (d : D) :
    Agree d (ofEvents events) (ofEvents (events.filter fun e => e.dialog = d)) := by
  induction events using List.reverseRecOn with
  | nil => exact ⟨rfl, rfl⟩
  | append_singleton events e ih =>
    rw [List.filter_append, ofEvents_append, ofEvents_append]
    by_cases he : e.dialog = d
    · simpa [he] using ih.record he
    · have hskip := agree_record_of_ne he (ofEvents events)
      simpa [he] using Agree.mk (hskip.call.trans ih.call) (hskip.entries.trans ih.entries)

/-- What is logged of a dialog is the log of what happens in it. -/
theorem entries_of_dialog (events : List (Event D C O T)) (d : D) :
    (ofEvents events).entries.filter (fun x => x.dialog = d) =
      (ofEvents (events.filter fun e => e.dialog = d)).entries := by
  rw [(agree_ofEvents events d).entries, List.filter_eq_self]
  intro x hx
  have hevent := (List.mem_filter.mp (mem_entries hx).2).2
  obtain ⟨dialog, call, fact⟩ := x
  cases fact <;> exact hevent

end Log

end CallLog
end Memento
