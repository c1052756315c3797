import Memento.MementoPlugin
import Memento.Theorems.Trim

/-! Which configurations keep the check for a trim defined. `load` lets every maximum length through, and the check
    is undefined for a negative one. -/

namespace Memento
open Text

theorem isInt_setMementoOptInt {mementoOpts : MementoOpts} {optName : Bytes} {requiredOpt : Bool} {opt : ℤ}
    {mementoEnabled : Bool} (h : IsInt opt) :
    IsInt (setMementoOptInt mementoOpts optName requiredOpt opt mementoEnabled).1 := by
  unfold setMementoOptInt
  split
  · exact h
  · split
    · split
      · exact isInt_atoi _
      · split <;> exact h
    · split <;> exact h

theorem isInt_readOptions (sproutHostname : Bytes) (mementoOpts : MementoOpts) :
    IsInt (readOptions sproutHostname mementoOpts).1.maxCallListLength :=
  isInt_setMementoOptInt (by decide)

theorem isInt_of_load {opt : Options} {sproutlet : MementoSproutlet} (h : load opt [] = [sproutlet]) :
    IsInt sproutlet.maxCallListLength := by
  unfold load at h
  split at h
  · cases h
  · rename_i mementoOpts _
    simp only at h
    split at h
    · rw [List.nil_append] at h
      cases h
      exact isInt_readOptions _ _
    · cases h

def TrimDefined (maxCallListLength : ℤ) : Prop :=
  ∀ rand rc records, 0 ≤ rand → IsInt (records : List CallFragment).length →
    ∃ result, isCallTrimNeeded maxCallListLength rand rc records = .ok result

/-- A configuration that enables memento keeps the check defined exactly when its maximum is not negative. -/
theorem trimDefined_iff {opt : Options} {sproutlet : MementoSproutlet} (h : load opt [] = [sproutlet]) :
    TrimDefined sproutlet.maxCallListLength ↔ 0 ≤ sproutlet.maxCallListLength := by
  constructor
  · intro defined
    by_contra hneg
    obtain ⟨e, he⟩ := isCallTrimNeeded_of_neg (not_le.mp hneg)
    obtain ⟨result, hr⟩ := defined 0 .OK [] le_rfl (by decide)
    rw [hr] at he
    cases he
  · intro hM rand rc records _ hlen
    exact isCallTrimNeeded_ok hM (isInt_of_load h) rand rc hlen

def sampleOptions (maxCallListLength : String) : Options :=
  ⟨[(ascii "memento-as", [(ascii "memento", ascii "5055"), (ascii "max_call_list_length", ascii maxCallListLength)])],
    ascii "sprout"⟩

def sampleSproutlet (maxCallListLength : ℤ) : MementoSproutlet :=
  ⟨5055, ascii "memento", ascii "sip:memento.sprout;transport=TCP", 25, [], ascii "localhost", 604800, maxCallListLength, 1000000⟩

theorem trimDefined_iff_sample : TrimDefined 100 := by
  have h : load (sampleOptions "100") [] = [sampleSproutlet 100] := by decide
  exact (trimDefined_iff h).mpr (by decide)

/-- A maximum of -15 enables memento, and every check divides by zero. -/
theorem negativeMaximum_divides : load (sampleOptions "-15") [] = [sampleSproutlet (-15)] ∧
    (∀ rand rc records, isCallTrimNeeded (-15) rand rc records = .error .divisionByZero) ∧ ¬TrimDefined (-15) := by
  have fault : ∀ rand rc records, isCallTrimNeeded (-15) rand rc records = .error .divisionByZero := fun _ _ _ => rfl
  refine ⟨by decide, fault, fun h => ?_⟩
  obtain ⟨result, hr⟩ := h 0 .OK [] le_rfl (by decide)
  rw [fault] at hr
  cases hr

end Memento
