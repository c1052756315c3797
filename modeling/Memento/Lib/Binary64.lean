import Mathlib.Data.Int.Basic
import Mathlib.Data.Nat.Log
import Mathlib.Tactic.Ring

/-! The rounding of a `double` product: to nearest, ties to even, on 53 significant bits. Numbers are
    integers, counted in a unit that is a power of two; without overflow or underflow the rounding does
    not depend on the unit. -/

namespace Binary64

/-- The weight of the last of the 53 bits kept of `n`. -/
def ulp (n : ℕ) : ℕ := 2 ^ (n.log2 - 52)

def roundNat (n : ℕ) : ℕ :=
  if 2 * (n % ulp n) < ulp n ∨ 2 * (n % ulp n) = ulp n ∧ n / ulp n % 2 = 0 then n / ulp n * ulp n
  else (n / ulp n + 1) * ulp n

def round (z : ℤ) : ℤ := z.sign * roundNat z.natAbs

theorem ulp_pos (n : ℕ) : 0 < ulp n := Nat.two_pow_pos _

theorem ulp_dvd {n k : ℕ} (h : n < 2 ^ (53 + k)) : ulp n ∣ 2 ^ k := by
  rcases eq_or_ne n 0 with rfl | hn
  · simp [ulp]
  · have hlog : n.log2 < 53 + k := (Nat.log2_lt hn).mpr h
    exact pow_dvd_pow 2 (by omega)

theorem ulp_le {n k : ℕ} (h : n < 2 ^ (53 + k)) : ulp n ≤ 2 ^ k :=
  Nat.le_of_dvd (Nat.two_pow_pos k) (ulp_dvd h)

theorem roundNat_le (n : ℕ) : roundNat n ≤ n + ulp n := by
  have h := Nat.div_mul_le_self n (ulp n)
  unfold roundNat
  split
  · omega
  · rw [add_mul]
    omega

/-- Rounding does not cross a number that 53 bits can hold. -/
theorem le_roundNat {m n : ℕ} (hmn : m ≤ n) (hm : ulp n ∣ m) : m ≤ roundNat n := by
  obtain ⟨c, rfl⟩ := hm
  have hc : c ≤ n / ulp n := (Nat.le_div_iff_mul_le (ulp_pos n)).mpr (by rwa [mul_comm])
  have hfloor : ulp n * c ≤ n / ulp n * ulp n := by
    rw [mul_comm]
    exact Nat.mul_le_mul_right _ hc
  unfold roundNat
  split
  · exact hfloor
  · rw [add_mul]
    omega

theorem round_natCast (n : ℕ) : round n = roundNat n := by
  cases n with
  | zero => rfl
  | succ n => rw [round, Int.sign_natCast_of_ne_zero n.succ_ne_zero, Int.natAbs_natCast, one_mul]

theorem roundNat_pos {n : ℕ} (h : 0 < n) : 0 < roundNat n := by
  have hle : ulp n ≤ n := (Nat.pow_le_pow_right (by norm_num) (Nat.sub_le _ _)).trans (Nat.log2_self_le h.ne')
  exact (ulp_pos n).trans_le (le_roundNat hle (dvd_refl _))

theorem round_neg {z : ℤ} (h : z < 0) : round z < 0 := by
  have hpos : 0 < roundNat z.natAbs := roundNat_pos (by omega)
  rw [round, Int.sign_eq_neg_one_of_neg h]
  omega

end Binary64
