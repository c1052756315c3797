import Mathlib.Data.List.Induction
import Memento.Lib.Text

/-! Decimal numerals: the texts that `natText` and `intText` give, by their grammar, and their values. -/

namespace Text

/-- The value of a string of digits. -/
def digits (s : Bytes) : ℕ := s.foldl (fun n b => 10 * n + (b.toNat - 48)) 0

/-- Digits, of which the first is no zero unless it is the only one. -/
def IsNumeral (s : Bytes) : Prop := s ≠ [] ∧ (∀ b ∈ s, IsDigit b) ∧ (s.head? = some 48 → s = [48])

instance : DecidablePred IsNumeral := fun _ => inferInstanceAs (Decidable (_ ∧ _))

/-- The value of a numeral, or of '-' and a numeral that is not zero. -/
def parseInt : Bytes → Option ℤ
  | [] => none
  | b :: s =>
    if b = 45 then if IsNumeral s ∧ s ≠ [48] then some (-digits s) else none
    else if IsNumeral (b :: s) then some (digits (b :: s)) else none

theorem digits_append_singleton (s : Bytes) (b : UInt8) : digits (s ++ [b]) = 10 * digits s + (b.toNat - 48) := by
  rw [digits, List.foldl_append]
  rfl

/-- The numeral of one digit. -/
theorem natText_of_lt {d : ℕ} (h : d < 10) : natText d = [(48 + d).toUInt8] :=
  (by decide : ∀ d < 10, natText d = [(48 + d).toUInt8]) d h

theorem natText_append {n d : ℕ} (hn : 0 < n) (hd : d < 10) : natText (10 * n + d) = natText n ++ [(48 + d).toUInt8] := by
  rw [← natText_of_lt hd, natText, natText, natText, ← List.map_append, Nat.toDigits_append_toDigits (by norm_num) hn hd]

theorem toNat_digit {d : ℕ} (h : d < 10) : (48 + d).toUInt8.toNat = 48 + d := by
  rw [Nat.toUInt8, UInt8.toNat_ofNat']
  omega

/-- A numeral is one digit, or a numeral above zero and a further digit. -/
theorem natText_induction {P : ℕ → Prop} (digit : ∀ d, d < 10 → P d)
    (append : ∀ n d, 0 < n → d < 10 → P n → P (10 * n + d)) (n : ℕ) : P n := by
  induction n using Nat.strong_induction_on with
  | _ n ih =>
    by_cases h : n < 10
    · exact digit n h
    · rw [← Nat.div_add_mod n 10]
      exact append _ _ (by omega) (by omega) (ih _ (by omega))

theorem digits_natText (n : ℕ) : digits (natText n) = n := by
  induction n using natText_induction with
  | digit d hd =>
    rw [natText_of_lt hd, ← List.nil_append [_], digits_append_singleton, toNat_digit hd]
    simp [digits]
  | append n d hn hd ih =>
    rw [natText_append hn hd, digits_append_singleton, ih, toNat_digit hd]
    omega

theorem head_natText {n : ℕ} (hn : 0 < n) : (natText n).head? ≠ some 48 := by
  induction n using natText_induction with
  | digit d hd =>
    rw [natText_of_lt hd]
    intro h
    have hd := toNat_digit hd
    rw [Option.some_inj.mp h] at hd
    change 48 = 48 + d at hd
    omega
  | append n d hn' hd ih =>
    obtain ⟨b, s, hs⟩ := List.exists_cons_of_ne_nil (natText_ne_nil n)
    have hhead := ih hn'
    rw [hs] at hhead
    rw [natText_append hn' hd, hs]
    exact hhead

theorem isNumeral_natText (n : ℕ) : IsNumeral (natText n) := by
  refine ⟨natText_ne_nil n, fun _ => isDigit_natText, fun h => ?_⟩
  rcases Nat.eq_zero_or_pos n with rfl | hn
  · rfl
  · exact absurd h (head_natText hn)

theorem IsDigit.exists_eq {b : UInt8} (h : IsDigit b) : ∃ d < 10, b = (48 + d).toUInt8 := by
  obtain ⟨hlo, hhi⟩ := h
  rw [UInt8.le_iff_toNat_le] at hlo hhi
  change 48 ≤ b.toNat at hlo
  change b.toNat ≤ 57 at hhi
  refine ⟨b.toNat - 48, by omega, ?_⟩
  rw [Nat.add_sub_cancel' hlo]
  exact UInt8.ofNat_toNat.symm

/-- A numeral is the text of its value. -/
theorem IsNumeral.eq_natText {s : Bytes} (h : IsNumeral s) : s = natText (digits s) := by
  induction s using List.reverseRecOn with
  | nil => exact absurd rfl h.1
  | append_singleton s b ih =>
    obtain ⟨-, hdigit, hzero⟩ := h
    obtain ⟨d, hd, rfl⟩ := (hdigit b (by simp)).exists_eq
    rw [digits_append_singleton, toNat_digit hd, Nat.add_sub_cancel_left]
    cases s with
    | nil => rw [show digits [] = 0 from rfl, mul_zero, zero_add, natText_of_lt hd, List.nil_append]
    | cons c t =>
      -- The numeral does not begin with a zero, and so neither does what is left of it without its last digit.
      have hhead : (c :: t).head? ≠ some 48 := fun hc => by simpa using hzero hc
      have heq := ih ⟨List.cons_ne_nil _ _, fun b hb => hdigit b (List.mem_append_left _ hb), fun hc => absurd hc hhead⟩
      have hpos : 0 < digits (c :: t) := by
        refine Nat.pos_of_ne_zero fun hzero => hhead ?_
        rw [heq, hzero]
        rfl
      rw [natText_append hpos hd, ← heq]

theorem natText_injective : Function.Injective natText := fun m n h => by
  rw [← digits_natText m, h, digits_natText]

theorem intText_natCast (n : ℕ) : intText n = natText n := rfl

theorem intText_neg {n : ℕ} (hn : 0 < n) : intText (-n) = 45 :: natText n := by
  obtain ⟨n, rfl⟩ := Nat.exists_eq_add_of_le' hn
  rfl

theorem natText_ne_minus (n : ℕ) (s : Bytes) : natText n ≠ 45 :: s := by
  intro h
  have hdigit : IsDigit 45 := isDigit_natText (n := n) (h ▸ List.mem_cons_self)
  exact absurd hdigit (by decide)

/-- What is parsed is what `intText` prints. -/
theorem parseInt_eq_some {s : Bytes} {v : ℤ} : parseInt s = some v ↔ s = intText v := by
  constructor
  · intro h
    unfold parseInt at h
    split at h
    · cases h
    · rename_i b s
      split at h
      · rename_i hb
        split at h
        · rename_i hs
          cases h
          have hpos : 0 < digits s := by
            refine Nat.pos_of_ne_zero fun hzero => hs.2 ?_
            rw [hs.1.eq_natText, hzero]
            rfl
          rw [intText_neg hpos, ← hs.1.eq_natText, hb]
        · cases h
      · split at h
        · rename_i hs
          cases h
          exact hs.eq_natText
        · cases h
  · rintro rfl
    cases v with
    | ofNat n =>
      obtain ⟨b, s, hs⟩ := List.exists_cons_of_ne_nil (natText_ne_nil n)
      have hb : b ≠ 45 := fun hb => natText_ne_minus n s (hb ▸ hs)
      rw [intText, hs, parseInt, if_neg hb, ← hs, if_pos (isNumeral_natText n), digits_natText]
      rfl
    | negSucc n =>
      have hne : natText (n + 1) ≠ [48] := fun h =>
        Nat.succ_ne_zero n (natText_injective (h.trans (rfl : _ = natText 0)))
      rw [intText, parseInt, if_pos rfl, if_pos ⟨isNumeral_natText _, hne⟩, digits_natText]
      rfl

example : parseInt (ascii "-15") = some (-15) ∧ parseInt (ascii "-0") = none ∧ parseInt (ascii "007") = none ∧
    parseInt (ascii "+7") = none := by decide +kernel

end Text
