import Memento.Lib.Decimal
import Memento.Theorems.Plugin

/-! What `load` makes of the options. An `int` option counts when its value is the canonical decimal text of an `int`,
    so what is read does not depend on the order in which the options are. -/

namespace Memento
open Text

/-! ### The options on their own -/

/-- The `int` that an option gives, if its value is the canonical text of one. -/
def intOption (mementoOpts : MementoOpts) (optName : Bytes) : Option ℤ :=
  ((mementoOpts.find optName).bind parseInt).filter fun v => IsInt v

def intOptionOr (mementoOpts : MementoOpts) (optName : Bytes) (default : ℤ) : ℤ :=
  (intOption mementoOpts optName).getD default

def strOptionOr (mementoOpts : MementoOpts) (optName default : Bytes) : Bytes := (mementoOpts.find optName).getD default

def mementoOptions (opt : Options) : Option MementoOpts :=
  (opt.pluginOptions.find? fun o => o.1 = ascii "memento-as").map Prod.snd

/-- The port is given and not negative, and the list is bounded by its length or by the age of its calls. -/
def Enables (mementoOpts : MementoOpts) : Prop :=
  (∃ port ∈ intOption mementoOpts (ascii "memento"), 0 ≤ port) ∧
    ¬(intOptionOr mementoOpts (ascii "max_call_list_length") 0 = 0 ∧
      intOptionOr mementoOpts (ascii "call_list_ttl") 604800 = 0)

instance : DecidablePred Enables := fun _ => inferInstanceAs (Decidable (_ ∧ _))

/-- The sproutlet that the options ask for, each on its own. -/
def configured (sproutHostname : Bytes) (mementoOpts : MementoOpts) : MementoSproutlet where
  mementoPort := intOptionOr mementoOpts (ascii "memento") 0
  mementoPrefix := strOptionOr mementoOpts (ascii "memento_prefix") (ascii "memento")
  mementoUri := strOptionOr mementoOpts (ascii "memento_uri")
    (ascii "sip:" ++ strOptionOr mementoOpts (ascii "memento_prefix") (ascii "memento") ++ ascii "." ++ sproutHostname ++
      ascii ";transport=TCP")
  mementoThreads := intOptionOr mementoOpts (ascii "memento_threads") 25
  mementoNotifyUrl := strOptionOr mementoOpts (ascii "memento_notify_url") []
  cassandra := strOptionOr mementoOpts (ascii "cassandra") (ascii "localhost")
  callListTtl := intOptionOr mementoOpts (ascii "call_list_ttl") 604800
  maxCallListLength := intOptionOr mementoOpts (ascii "max_call_list_length") 0
  cassTargetLatencyUs := intOptionOr mementoOpts (ascii "cass_target_latency_us") 1000000

/-! ### `atoi` -/

theorem digitsValue_natText (n : ℕ) : digitsValue (natText n) = n := by
  have hall : (natText n).takeWhile (fun b => decide (IsDigit b)) = natText n :=
    List.takeWhile_eq_self_iff.mpr fun b hb => decide_eq_true (isDigit_natText hb)
  rw [digitsValue, hall]
  exact digits_natText n

theorem zero_notMem_intText (v : ℤ) : (0 : UInt8) ∉ intText v := by
  have hnat : ∀ n, (0 : UInt8) ∉ natText n := fun n h => absurd (isDigit_natText h) (by decide)
  cases v with
  | ofNat n => exact hnat n
  | negSucc n => exact List.not_mem_cons_of_ne_of_not_mem (by decide) (hnat _)

theorem strtol_natText (n : ℕ) : strtol (natText n) = min (2 ^ 63 - 1) (n : ℤ) := by
  obtain ⟨b, s, hs⟩ := List.exists_cons_of_ne_nil (natText_ne_nil n)
  obtain ⟨hlo, hhi⟩ : IsDigit b := isDigit_natText (n := n) (hs ▸ List.mem_cons_self)
  have hspace : ¬isSpace b = true := by
    simp only [isSpace, Bool.or_eq_true, Bool.and_eq_true, decide_eq_true_eq, not_or, not_and]
    exact ⟨fun h => absurd (h ▸ hlo) (by decide), fun _ h => absurd (UInt8.le_trans hlo h) (by decide)⟩
  have hminus : b ≠ 45 := fun h => absurd (h ▸ hlo) (by decide)
  have hplus : b ≠ 43 := fun h => absurd (h ▸ hlo) (by decide)
  rw [strtol, hs, List.dropWhile_cons_of_neg hspace]
  simp only [if_neg hminus, if_neg hplus]
  rw [← hs, digitsValue_natText]

theorem strtol_minus (n : ℕ) : strtol (45 :: natText n) = max (-2 ^ 63) (-(n : ℤ)) := by
  rw [strtol, List.dropWhile_cons_of_neg (by decide)]
  simp only [if_true]
  rw [digitsValue_natText]

/-- An `int` is read back from its text. -/
theorem atoi_intText {v : ℤ} (h : IsInt v) : atoi (intText v) = v := by
  obtain ⟨hlo, hhi⟩ := h
  rw [atoi, cStr_of_notMem (zero_notMem_intText v)]
  have hlong : strtol (intText v) = v := by
    cases v with
    | ofNat n =>
      rw [Int.ofNat_eq_natCast] at hhi
      rw [intText, strtol_natText]
      exact min_eq_right (by omega)
    | negSucc n =>
      rw [intText, strtol_minus, Int.negSucc_eq]
      exact max_eq_right (by omega)
  rw [hlong]
  exact Int.bmod_eq_of_le (by omega) (by omega)

/-! ### Reading the options -/

/-- No value has a NUL. -/
def NulFree (mementoOpts : MementoOpts) : Prop := ∀ o ∈ mementoOpts, (0 : UInt8) ∉ o.2

instance : DecidablePred NulFree := fun opts => inferInstanceAs (Decidable (∀ o ∈ opts, _))

theorem canonicalInt_eq_some {value : Bytes} {v : ℤ} :
    (parseInt value).filter (fun v => IsInt v) = some v ↔ value = intText v ∧ IsInt v := by
  rw [Option.filter_eq_some_iff, parseInt_eq_some, decide_eq_true_eq]

/-- The check on an `int` option lets exactly the canonical texts through. -/
theorem canonicalInt_eq {value : Bytes} (h : (0 : UInt8) ∉ value) : (parseInt value).filter (fun v => IsInt v) =
    if cStr value = intText (atoi value) then some (atoi value) else none := by
  rw [cStr_of_notMem h]
  split
  · rename_i heq
    exact canonicalInt_eq_some.mpr ⟨heq, isInt_atoi value⟩
  · rename_i hne
    refine Option.eq_none_iff_forall_ne_some.mpr fun v hv => hne ?_
    obtain ⟨rfl, hint⟩ := canonicalInt_eq_some.mp hv
    rw [atoi_intText hint]

theorem NulFree.find {mementoOpts : MementoOpts} (h : NulFree mementoOpts) {optName value : Bytes}
    (hv : mementoOpts.find optName = some value) : (0 : UInt8) ∉ value := by
  obtain ⟨o, ho, rfl⟩ := Option.map_eq_some_iff.mp hv
  exact h o (List.mem_of_find?_eq_some ho)

/-- While memento is enabled, an `int` option is set to its value or left at its default, and a required one must be there. -/
theorem setMementoOptInt_eq {mementoOpts : MementoOpts} (h : NulFree mementoOpts) (optName : Bytes) (requiredOpt : Bool)
    (opt : ℤ) : setMementoOptInt mementoOpts optName requiredOpt opt true =
      (intOptionOr mementoOpts optName opt, (intOption mementoOpts optName).isSome || !requiredOpt) := by
  unfold setMementoOptInt intOptionOr intOption
  rw [if_neg (by decide)]
  cases hv : mementoOpts.find optName with
  | none => cases requiredOpt <;> rfl
  | some value =>
    rw [Option.bind_some, canonicalInt_eq (h.find hv)]
    dsimp only
    split
    · rfl
    · cases requiredOpt <;> rfl

theorem setMementoOptStr_eq (mementoOpts : MementoOpts) (optName opt : Bytes) :
    setMementoOptStr mementoOpts optName false opt true = (strOptionOr mementoOpts optName opt, true) := by
  unfold setMementoOptStr strOptionOr
  cases mementoOpts.find optName <;> rfl

theorem setMementoOptInt_disabled (mementoOpts : MementoOpts) (optName : Bytes) (requiredOpt : Bool) (opt : ℤ) :
    setMementoOptInt mementoOpts optName requiredOpt opt false = (opt, false) := rfl

theorem setMementoOptStr_disabled (mementoOpts : MementoOpts) (optName : Bytes) (requiredOpt : Bool) (opt : Bytes) :
    setMementoOptStr mementoOpts optName requiredOpt opt false = (opt, false) := rfl

/-- Without a port all other options are skipped. -/
theorem readOptions_disabled {sproutHostname : Bytes} {mementoOpts : MementoOpts} (h : NulFree mementoOpts)
    (hport : ¬∃ port ∈ intOption mementoOpts (ascii "memento"), 0 ≤ port) : (readOptions sproutHostname mementoOpts).2 = false := by
  have hdisabled : (if intOptionOr mementoOpts (ascii "memento") 0 < 0 then false
      else (intOption mementoOpts (ascii "memento")).isSome || !true) = false := by
    unfold intOptionOr
    cases hv : intOption mementoOpts (ascii "memento") with
    | none => rfl
    | some port => exact if_pos (not_le.mp fun hle => hport ⟨port, hv, hle⟩)
  unfold readOptions
  simp only [setMementoOptInt_eq h, hdisabled, setMementoOptInt_disabled, setMementoOptStr_disabled, ite_self]

theorem readOptions_enabled {sproutHostname : Bytes} {mementoOpts : MementoOpts} (h : NulFree mementoOpts)
    (hport : ∃ port ∈ intOption mementoOpts (ascii "memento"), 0 ≤ port) : readOptions sproutHostname mementoOpts =
      (configured sproutHostname mementoOpts, decide ¬(intOptionOr mementoOpts (ascii "max_call_list_length") 0 = 0 ∧
        intOptionOr mementoOpts (ascii "call_list_ttl") 604800 = 0)) := by
  have henabled : (if intOptionOr mementoOpts (ascii "memento") 0 < 0 then false
      else (intOption mementoOpts (ascii "memento")).isSome || !true) = true := by
    obtain ⟨port, hv, hle⟩ := hport
    rw [intOptionOr, Option.mem_def.mp hv]
    exact if_neg (not_lt.mpr hle)
  unfold readOptions
  simp only [setMementoOptInt_eq h, henabled, setMementoOptStr_eq, Bool.not_false, Bool.or_true]
  refine Prod.ext rfl ?_
  rw [decide_not]
  split
  · rename_i hunbounded
    exact (congrArg not (decide_eq_true hunbounded)).symm
  · rename_i hbounded
    exact (congrArg not (decide_eq_false hbounded)).symm

/-- `load` appends the sproutlet that the options ask for, each on its own, if they enable memento, and none if not. -/
theorem load_exact (opt : Options) (sproutlets : List MementoSproutlet) (h : ∀ o ∈ opt.pluginOptions, NulFree o.2) :
    load opt sproutlets = sproutlets ++
      match mementoOptions opt with
      | none => []
      | some mementoOpts => if Enables mementoOpts then [configured opt.sproutHostname mementoOpts] else [] := by
  unfold load
  change (match mementoOptions opt with | none => _ | some _ => _) = _
  cases hm : mementoOptions opt with
  | none => exact (List.append_nil _).symm
  | some mementoOpts =>
    obtain ⟨o, ho, rfl⟩ := Option.map_eq_some_iff.mp hm
    have hnul := h o (List.mem_of_find?_eq_some ho)
    dsimp only
    by_cases hport : ∃ port ∈ intOption o.2 (ascii "memento"), 0 ≤ port
    · rw [readOptions_enabled hnul hport]
      simp only [decide_eq_true_eq, Enables, hport, true_and]
      split
      · rfl
      · exact (List.append_nil _).symm
    · rw [readOptions_disabled hnul hport, if_neg fun henables : Enables o.2 => hport henables.1]
      exact (List.append_nil _).symm

/-- Saturated and wrapped numbers, and one with a sign in front, are not read. -/
theorem load_exact_sample : load ⟨[(ascii "memento-as", [(ascii "memento", ascii "5055"),
    (ascii "memento_threads", ascii "4294967297"), (ascii "max_call_list_length", ascii "+7"),
    (ascii "call_list_ttl", ascii "3600")])], ascii "sprout"⟩ [] = [{ sampleSproutlet 0 with callListTtl := 3600 }] :=
  (load_exact _ [] (by decide)).trans (by decide +kernel)

end Memento
