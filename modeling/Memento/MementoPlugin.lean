import Memento.CallListStoreProcessor

/-! `MementoPlugin::load` (`mementoasplugin.cpp`): reading the options, and whether memento is enabled. -/

namespace Memento
open Text

/-! ### `atoi` -/

def isSpace (b : UInt8) : Bool := b = 32 || 9 ≤ b && b ≤ 13

def digitsValue (s : Bytes) : ℕ := (s.takeWhile fun b => decide (IsDigit b)).foldl (fun n b => 10 * n + (b.toNat - 48)) 0

/-- `strtol(s, NULL, 10)`, which saturates at the ends of a 64-bit `long`. -/
def strtol (s : Bytes) : ℤ :=
  match s.dropWhile isSpace with
  | [] => 0
  | b :: rest =>
    if b = 45 then max (-2 ^ 63) (-digitsValue rest)
    else if b = 43 then min (2 ^ 63 - 1) (digitsValue rest)
    else min (2 ^ 63 - 1) (digitsValue (b :: rest))

/-- `atoi`, which keeps the low 32 bits. -/
def atoi (s : Bytes) : ℤ := (strtol (cStr s)).bmod (2 ^ 32)

theorem isInt_atoi (s : Bytes) : IsInt (atoi s) := by
  have lo := Int.le_bmod (x := strtol (cStr s)) (m := 2 ^ 32) (by norm_num)
  have hi := Int.bmod_lt (x := strtol (cStr s)) (m := 2 ^ 32) (by norm_num)
  unfold IsInt atoi
  norm_num at lo hi ⊢
  omega

/-! ### Options -/

/-- The options of a plugin, in the order in which `find` looks at them. -/
abbrev MementoOpts := List (Bytes × Bytes)

def MementoOpts.find (mementoOpts : MementoOpts) (optName : Bytes) : Option Bytes :=
  (mementoOpts.find? fun o => o.1 = optName).map Prod.snd

/-- `set_memento_opt_str`: the option and whether memento is enabled. -/
def setMementoOptStr (mementoOpts : MementoOpts) (optName : Bytes) (requiredOpt : Bool) (opt : Bytes)
    (mementoEnabled : Bool) : Bytes × Bool :=
  if mementoEnabled = false then (opt, mementoEnabled)
  else
    match mementoOpts.find optName with
    | some value => (value, mementoEnabled)
    | none => if requiredOpt then (opt, false) else (opt, mementoEnabled)

/-- `set_memento_opt_int`: a value counts only if it is the decimal text of what `atoi` makes of it. -/
def setMementoOptInt (mementoOpts : MementoOpts) (optName : Bytes) (requiredOpt : Bool) (opt : ℤ)
    (mementoEnabled : Bool) : ℤ × Bool :=
  if mementoEnabled = false then (opt, mementoEnabled)
  else
    match mementoOpts.find optName with
    | some value =>
      if cStr value = intText (atoi value) then (atoi value, mementoEnabled)
      else if requiredOpt then (opt, false)
      else (opt, mementoEnabled)
    | none => if requiredOpt then (opt, false) else (opt, mementoEnabled)

structure Options where
  pluginOptions : List (Bytes × MementoOpts)
  sproutHostname : Bytes

/-- What `load` hands to `MementoAppServer` and its sproutlet shim. -/
structure MementoSproutlet where
  mementoPort : ℤ
  mementoPrefix : Bytes
  mementoUri : Bytes
  mementoThreads : ℤ
  mementoNotifyUrl : Bytes
  cassandra : Bytes
  callListTtl : ℤ
  maxCallListLength : ℤ
  cassTargetLatencyUs : ℤ
  deriving DecidableEq

def readOptions (sproutHostname : Bytes) (mementoOpts : MementoOpts) : MementoSproutlet × Bool :=
  let (mementoPort, enabled) := setMementoOptInt mementoOpts (ascii "memento") true 0 true
  let enabled := if mementoPort < 0 then false else enabled
  let (mementoPrefix, enabled) := setMementoOptStr mementoOpts (ascii "memento_prefix") false (ascii "memento") enabled
  let mementoUri := ascii "sip:" ++ mementoPrefix ++ ascii "." ++ sproutHostname ++ ascii ";transport=TCP"
  let (mementoUri, enabled) := setMementoOptStr mementoOpts (ascii "memento_uri") false mementoUri enabled
  let (mementoThreads, enabled) := setMementoOptInt mementoOpts (ascii "memento_threads") false 25 enabled
  let (mementoNotifyUrl, enabled) := setMementoOptStr mementoOpts (ascii "memento_notify_url") false [] enabled
  let (cassandra, enabled) := setMementoOptStr mementoOpts (ascii "cassandra") false (ascii "localhost") enabled
  let (callListTtl, enabled) := setMementoOptInt mementoOpts (ascii "call_list_ttl") false 604800 enabled
  let (maxCallListLength, enabled) := setMementoOptInt mementoOpts (ascii "max_call_list_length") false 0 enabled
  let (cassTargetLatencyUs, enabled) := setMementoOptInt mementoOpts (ascii "cass_target_latency_us") false 1000000 enabled
  -- The list must be bounded, by its length or by the age of its calls.
  let enabled := if maxCallListLength = 0 ∧ callListTtl = 0 then false else enabled
  (⟨mementoPort, mementoPrefix, mementoUri, mementoThreads, mementoNotifyUrl, cassandra, callListTtl, maxCallListLength,
    cassTargetLatencyUs⟩, enabled)

/-- `MementoPlugin::load`: the sproutlets, to which it appends its own if memento is enabled. -/
def load (opt : Options) (sproutlets : List MementoSproutlet) : List MementoSproutlet :=
  match (opt.pluginOptions.find? fun o => o.1 = ascii "memento-as").map Prod.snd with
  | none => sproutlets
  | some mementoOpts =>
    let (sproutlet, mementoEnabled) := readOptions opt.sproutHostname mementoOpts
    if mementoEnabled then sproutlets ++ [sproutlet] else sproutlets

end Memento
