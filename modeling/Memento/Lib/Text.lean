import Mathlib.Data.List.TakeWhile
import Mathlib.Data.Nat.Digits.Defs

/-! Byte strings: ASCII literals, C strings, case-insensitive comparison, decimal numbers, and cutting at
    a separator. -/

namespace Text

/-- A `std::string`: any bytes, in any number. -/
abbrev Bytes := List UInt8

def ascii (s : String) : Bytes := s.toList.map fun c => c.toNat.toUInt8

/-- What a C function sees of a byte string: everything before its first NUL. -/
def cStr (s : Bytes) : Bytes := s.takeWhile (· != 0)

/-- `tolower` in the C locale. -/
def toLower (b : UInt8) : UInt8 := if 65 ≤ b ∧ b ≤ 90 then b + 32 else b

/-- Equality of byte strings up to the case of ASCII letters. -/
def eqIgnoreCase (s t : Bytes) : Bool := s.map toLower == t.map toLower

theorem zero_notMem_cStr (s : Bytes) : (0 : UInt8) ∉ cStr s := by
  intro h
  simpa using List.mem_takeWhile_imp h

theorem cStr_of_notMem {s : Bytes} (h : (0 : UInt8) ∉ s) : cStr s = s := by
  rw [cStr, List.takeWhile_eq_self_iff]
  intro b hb
  simpa using fun h0 : b = 0 => h (h0 ▸ hb)

/-! ### Decimal numbers -/

def IsDigit (b : UInt8) : Prop := 48 ≤ b ∧ b ≤ 57

instance : DecidablePred IsDigit := fun _ => inferInstanceAs (Decidable (_ ∧ _))

def natText (n : ℕ) : Bytes := (Nat.toDigits 10 n).map fun c => c.toNat.toUInt8

/-- The decimal text of an integer: a minus sign only below zero. -/
def intText : Int → Bytes
  | .ofNat n => natText n
  | .negSucc n => 45 :: natText (n + 1)

/-- A number padded to two digits, as `strftime` prints the fields of a date. -/
def pad2 (n : ℕ) : Bytes := if n < 10 then 48 :: natText n else natText n

theorem isDigit_natText {n : ℕ} {b : UInt8} (h : b ∈ natText n) : IsDigit b := by
  obtain ⟨c, hc, rfl⟩ := List.mem_map.mp h
  have hd := Nat.isDigit_of_mem_toDigits (by omega) (by omega) hc
  simp only [Char.isDigit, Bool.and_eq_true, decide_eq_true_eq, ge_iff_le, UInt32.le_iff_toNat_le] at hd
  change 48 ≤ c.toNat ∧ c.toNat ≤ 57 at hd
  have hc : c.toNat.toUInt8.toNat = c.toNat := by
    rw [Nat.toUInt8, UInt8.toNat_ofNat']
    omega
  constructor <;> rw [UInt8.le_iff_toNat_le, hc]
  · exact hd.1
  · exact hd.2

theorem natText_ne_nil (n : ℕ) : natText n ≠ [] := by
  simp [natText, Nat.toDigits_ne_nil]

theorem length_natText_le {n k : ℕ} (hk : 0 < k) (h : n < 10 ^ k) : (natText n).length ≤ k := by
  rw [natText, List.length_map]
  exact (Nat.length_toDigits_le_iff (by omega) hk).mpr h

theorem isDigit_pad2 {n : ℕ} {b : UInt8} (h : b ∈ pad2 n) : IsDigit b := by
  unfold pad2 at h
  split at h
  · rcases List.mem_cons.mp h with rfl | h
    · decide
    · exact isDigit_natText h
  · exact isDigit_natText h

theorem length_pad2 {n : ℕ} (h : n < 100) : (pad2 n).length = 2 := by
  have h1 : 0 < (natText n).length := List.length_pos_iff.mpr (natText_ne_nil n)
  unfold pad2
  split
  · have h2 : (natText n).length ≤ 1 := length_natText_le (by omega) (by omega)
    simp only [List.length_cons]
    omega
  · rename_i hn
    have h2 : (natText n).length ≤ 2 := length_natText_le (by omega) (by omega)
    have h3 : ¬(natText n).length ≤ 1 := by
      rw [natText, List.length_map, Nat.length_toDigits_le_iff (by omega) (by omega)]
      omega
    omega

/-! ### Cutting at a separator -/

/-- The parts of `s` between its first `n` separators, and what follows them. -/
def cut (sep : UInt8) : ℕ → Bytes → List Bytes
  | 0, s => [s]
  | n + 1, s =>
    match s.dropWhile (· != sep) with
    | [] => [s]
    | _ :: rest => s.takeWhile (· != sep) :: cut sep n rest

theorem cut_succ_append {sep : UInt8} {n : ℕ} {a rest : Bytes} (ha : sep ∉ a) :
    cut sep (n + 1) (a ++ sep :: rest) = a :: cut sep n rest := by
  have hall : ∀ b ∈ a, (b != sep) = true := fun b hb => by simpa using fun h : b = sep => ha (h ▸ hb)
  have hdrop : (a ++ sep :: rest).dropWhile (· != sep) = sep :: rest := by
    rw [List.dropWhile_append_of_pos hall]
    simp
  have htake : (a ++ sep :: rest).takeWhile (· != sep) = a := by
    rw [List.takeWhile_append_of_pos hall]
    simp
  simp only [cut, hdrop, htake]

theorem length_cut_le (sep : UInt8) (n : ℕ) (s : Bytes) : (cut sep n s).length ≤ n + 1 := by
  induction n generalizing s with
  | zero => exact le_rfl
  | succ n ih =>
    rw [cut]
    split
    · exact Nat.succ_le_succ (Nat.zero_le _)
    · exact Nat.succ_le_succ (ih _)

theorem notMem_of_mem_cut {sep : UInt8} {n : ℕ} {s a : Bytes} (h : a ∈ (cut sep n s).dropLast) : sep ∉ a := by
  induction n generalizing s with
  | zero => cases h
  | succ n ih =>
    rw [cut] at h
    split at h
    · cases h
    · rename_i rest _
      have hne : cut sep n rest ≠ [] := by
        cases n with
        | zero => exact List.cons_ne_nil _ _
        | succ n =>
          rw [cut]
          split <;> exact List.cons_ne_nil _ _
      rw [List.dropLast_cons_of_ne_nil hne, List.mem_cons] at h
      rcases h with rfl | h
      · intro hmem
        simpa using List.mem_takeWhile_imp hmem
      · exact ih h

@[simp] theorem cut_zero (sep : UInt8) (s : Bytes) : cut sep 0 s = [s] := rfl

end Text
