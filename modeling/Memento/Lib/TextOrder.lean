import Mathlib.Data.List.Lex
import Memento.Lib.Decimal

/-! The order of byte strings: byte by byte, as unsigned numbers. Digits of one length are in the order of their values. -/

namespace Text

def Before (s t : Bytes) : Prop := s.map UInt8.toNat < t.map UInt8.toNat

theorem before_cons {b c : UInt8} {s t : Bytes} :
    Before (b :: s) (c :: t) ↔ b.toNat < c.toNat ∨ b.toNat = c.toNat ∧ Before s t := by
  rw [Before, List.map_cons, List.map_cons, List.cons_lt_cons_iff]
  rfl

theorem Before.append_left {s t : Bytes} (h : Before s t) (p : Bytes) : Before (p ++ s) (p ++ t) := by
  rw [Before, List.map_append, List.map_append]
  exact List.append_left_lt h

/-- Between strings of one length it is decided before what follows them. -/
theorem Before.append : ∀ {s t : Bytes}, s.length = t.length → Before s t → ∀ u v, Before (s ++ u) (t ++ v)
  | [], [], _, h, _, _ => absurd h (lt_irrefl _)
  | b :: s, c :: t, hlen, h, u, v => by
    rcases before_cons.mp h with hlt | ⟨heq, h⟩
    · exact before_cons.mpr (Or.inl hlt)
    · exact before_cons.mpr (Or.inr ⟨heq, h.append (by simpa using hlen) u v⟩)

/-! ### Digits -/

theorem foldl_digits (s : Bytes) (n : ℕ) :
    s.foldl (fun n b => 10 * n + (b.toNat - 48)) n = n * 10 ^ s.length + digits s := by
  induction s generalizing n with
  | nil => simp [digits]
  | cons b s ih =>
    rw [digits, List.foldl_cons, List.foldl_cons, ih, ih, List.length_cons]
    ring

theorem digits_cons (b : UInt8) (s : Bytes) : digits (b :: s) = (b.toNat - 48) * 10 ^ s.length + digits s := by
  rw [digits, List.foldl_cons, foldl_digits, Nat.mul_zero, Nat.zero_add]

theorem IsDigit.toNat {b : UInt8} (h : IsDigit b) : 48 ≤ b.toNat ∧ b.toNat ≤ 57 := by
  obtain ⟨hlo, hhi⟩ := h
  exact ⟨UInt8.le_iff_toNat_le.mp hlo, UInt8.le_iff_toNat_le.mp hhi⟩

theorem digits_lt {s : Bytes} (h : ∀ b ∈ s, IsDigit b) : digits s < 10 ^ s.length := by
  induction s with
  | nil => exact Nat.one_pos
  | cons b s ih =>
    obtain ⟨hb, hs⟩ := List.forall_mem_cons.mp h
    have := hb.toNat
    have hrest := ih hs
    have hdigit : (b.toNat - 48) * 10 ^ s.length ≤ 9 * 10 ^ s.length := Nat.mul_le_mul_right _ (by omega)
    rw [digits_cons, List.length_cons, pow_succ]
    omega

/-- A lower number, printed with as many digits, comes before. -/
theorem before_of_digits_lt : ∀ {s t : Bytes}, s.length = t.length → (∀ b ∈ s, IsDigit b) → (∀ b ∈ t, IsDigit b) →
    digits s < digits t → Before s t
  | [], [], _, _, _, h => absurd h (lt_irrefl _)
  | b :: s, c :: t, hlen, hs, ht, h => by
    obtain ⟨hb, hs⟩ := List.forall_mem_cons.mp hs
    obtain ⟨hc, ht⟩ := List.forall_mem_cons.mp ht
    have hlen : s.length = t.length := by simpa using hlen
    rw [digits_cons, digits_cons, hlen] at h
    rcases Nat.lt_trichotomy b.toNat c.toNat with hlt | heq | hgt
    · exact before_cons.mpr (Or.inl hlt)
    · rw [heq] at h
      exact before_cons.mpr (Or.inr ⟨heq, before_of_digits_lt hlen hs ht (Nat.lt_of_add_lt_add_left h)⟩)
    · -- A higher first digit outweighs all that follows it.
      have hrest := digits_lt ht
      have := hc.toNat
      have hmul : (c.toNat - 48 + 1) * 10 ^ t.length ≤ (b.toNat - 48) * 10 ^ t.length := Nat.mul_le_mul_right _ (by omega)
      rw [Nat.add_mul, Nat.one_mul] at hmul
      omega

theorem before_natText {m n : ℕ} (hlen : (natText m).length = (natText n).length) (h : m < n) :
    Before (natText m) (natText n) := by
  refine before_of_digits_lt hlen (fun _ => isDigit_natText) (fun _ => isDigit_natText) ?_
  rwa [digits_natText, digits_natText]

theorem digits_pad2 (n : ℕ) : digits (pad2 n) = n := by
  unfold pad2
  split
  · exact digits_natText n
  · exact digits_natText n

theorem before_pad2 {m n : ℕ} (hm : m < n) (hn : n < 100) : Before (pad2 m) (pad2 n) := by
  refine before_of_digits_lt ?_ (fun _ => isDigit_pad2) (fun _ => isDigit_pad2) ?_
  · rw [length_pad2 (hm.trans hn), length_pad2 hn]
  · rwa [digits_pad2, digits_pad2]

/-- A number takes as many digits as the power of ten above it says. -/
theorem length_natText {n k : ℕ} (hlo : 10 ^ k ≤ n) (hhi : n < 10 ^ (k + 1)) : (natText n).length = k + 1 := by
  refine le_antisymm (length_natText_le k.succ_pos hhi) ?_
  have hlt := digits_lt (s := natText n) fun _ => isDigit_natText
  rw [digits_natText] at hlt
  exact (Nat.pow_lt_pow_iff_right (by norm_num)).mp (hlo.trans_lt hlt)

end Text
