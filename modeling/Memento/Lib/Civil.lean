import Mathlib.Data.Nat.Find
import Mathlib.Order.Monotone.Basic

/-! The Gregorian calendar: the date of a day, where days are counted from the first of January of the year 0. Dates go
    on in the order of year, month and day as days do. -/

namespace Civil

def isLeap (year : ℕ) : Bool := year % 4 = 0 ∧ (year % 100 ≠ 0 ∨ year % 400 = 0)

/-- One day more than 365 for each leap year. -/
def daysBeforeYear (year : ℕ) : ℕ := 365 * year + (year + 3) / 4 - (year + 99) / 100 + (year + 399) / 400

def monthLengths (leap : Bool) : List ℕ := [31, if leap then 29 else 28, 31, 30, 31, 30, 31, 31, 30, 31, 30, 31]

/-- Months are counted from 0. -/
def daysBeforeMonth (leap : Bool) (month : ℕ) : ℕ := ((monthLengths leap).take month).foldr Nat.add 0

def year (day : ℕ) : ℕ := Nat.findGreatest (fun y => daysBeforeYear y ≤ day) (day / 365)
def dayOfYear (day : ℕ) : ℕ := day - daysBeforeYear (year day)

def month (day : ℕ) : ℕ := Nat.findGreatest (fun m => daysBeforeMonth (isLeap (year day)) m ≤ dayOfYear day) 11
def dayOfMonth (day : ℕ) : ℕ := dayOfYear day - daysBeforeMonth (isLeap (year day)) (month day) + 1

/-! ### Years -/

theorem daysBeforeYear_succ (y : ℕ) : daysBeforeYear (y + 1) = daysBeforeYear y + if isLeap y then 366 else 365 := by
  have h4 : (y + 1 + 3) / 4 = (y + 3) / 4 + if y % 4 = 0 then 1 else 0 := by split <;> omega
  have h100 : (y + 1 + 99) / 100 = (y + 99) / 100 + if y % 100 = 0 then 1 else 0 := by split <;> omega
  have h400 : (y + 1 + 399) / 400 = (y + 399) / 400 + if y % 400 = 0 then 1 else 0 := by split <;> omega
  have hle : (y + 99) / 100 ≤ 365 * y + (y + 3) / 4 := by omega
  rw [daysBeforeYear, daysBeforeYear, h4, h100, h400]
  simp only [isLeap, decide_eq_true_eq]
  generalize (y + 3) / 4 = fours at *
  generalize (y + 99) / 100 = hundreds at *
  generalize (y + 399) / 400 = fourHundreds at *
  split_ifs <;> omega

theorem daysBeforeYear_strictMono : StrictMono daysBeforeYear := by
  refine strictMono_nat_of_lt_succ fun y => ?_
  rw [daysBeforeYear_succ]
  split <;> omega

theorem le_daysBeforeYear (y : ℕ) : 365 * y ≤ daysBeforeYear y := by
  unfold daysBeforeYear
  omega

theorem daysBeforeYear_year_le (day : ℕ) : daysBeforeYear (year day) ≤ day :=
  Nat.findGreatest_spec (P := fun y => daysBeforeYear y ≤ day) (Nat.zero_le _) (Nat.zero_le _)

theorem year_lt_iff {day y : ℕ} : year day < y ↔ day < daysBeforeYear y := by
  constructor
  · intro hlt
    by_contra hle
    have hbound : y ≤ day / 365 := by
      have := le_daysBeforeYear y
      omega
    exact Nat.findGreatest_is_greatest hlt hbound (not_lt.mp hle)
  · intro hlt
    exact daysBeforeYear_strictMono.lt_iff_lt.mp ((daysBeforeYear_year_le day).trans_lt hlt)

theorem year_mono {d e : ℕ} (h : d ≤ e) : year d ≤ year e := by
  by_contra hlt
  exact absurd (year_lt_iff.mp (not_le.mp hlt)) (not_lt.mpr ((daysBeforeYear_year_le d).trans h))

theorem dayOfYear_lt (day : ℕ) : dayOfYear day < if isLeap (year day) then 366 else 365 := by
  have hnext := year_lt_iff.mp (Nat.lt_succ_self (year day))
  rw [Nat.succ_eq_add_one, daysBeforeYear_succ] at hnext
  have := daysBeforeYear_year_le day
  rw [dayOfYear]
  omega

/-! ### Months -/

theorem month_lt (day : ℕ) : month day < 12 := Nat.lt_succ_of_le (Nat.findGreatest_le 11)

theorem daysBeforeMonth_month_le (day : ℕ) : daysBeforeMonth (isLeap (year day)) (month day) ≤ dayOfYear day :=
  Nat.findGreatest_spec (P := fun m => daysBeforeMonth (isLeap (year day)) m ≤ dayOfYear day) (Nat.zero_le _)
    (Nat.zero_le _)

theorem month_mono {d e : ℕ} (hy : year d = year e) (h : d ≤ e) : month d ≤ month e := by
  refine Nat.le_findGreatest (Nat.le_of_lt_succ (month_lt d)) ?_
  have hd := daysBeforeMonth_month_le d
  rw [hy] at hd
  refine hd.trans ?_
  rw [dayOfYear, dayOfYear, hy]
  exact Nat.sub_le_sub_right h _

theorem dayOfYear_lt_next (day : ℕ) : dayOfYear day < daysBeforeMonth (isLeap (year day)) (month day + 1) := by
  rcases Nat.lt_or_ge (month day) 11 with hlt | hge
  · exact not_le.mp (Nat.findGreatest_is_greatest (P := fun m => daysBeforeMonth (isLeap (year day)) m ≤ dayOfYear day)
      (Nat.lt_succ_self _) hlt)
  · have hlast : month day + 1 = 12 := le_antisymm (month_lt day) (Nat.succ_le_succ hge)
    have hyear := dayOfYear_lt day
    rw [hlast]
    cases hleap : isLeap (year day) with
    | true =>
      rw [hleap] at hyear
      exact hyear
    | false =>
      rw [hleap] at hyear
      exact hyear

/-- A month has 31 days at most. -/
theorem dayOfMonth_lt (day : ℕ) : dayOfMonth day < 32 := by
  have hlength : ∀ leap : Bool, ∀ m < 12, daysBeforeMonth leap (m + 1) ≤ daysBeforeMonth leap m + 31 := by decide
  have hnext := hlength (isLeap (year day)) _ (month_lt day)
  have hlt := dayOfYear_lt_next day
  rw [dayOfMonth]
  omega

/-! ### Dates -/

/-- The date determines the day. -/
theorem day_eq (day : ℕ) :
    day = daysBeforeYear (year day) + daysBeforeMonth (isLeap (year day)) (month day) + (dayOfMonth day - 1) := by
  have hy := daysBeforeYear_year_le day
  have hm := daysBeforeMonth_month_le day
  rw [dayOfMonth]
  rw [dayOfYear] at hm ⊢
  omega

/-- A later day has a later date. -/
theorem date_lt {d e : ℕ} (h : d < e) : year d < year e ∨ year d = year e ∧
    (month d < month e ∨ month d = month e ∧ dayOfMonth d < dayOfMonth e) := by
  rcases (year_mono h.le).lt_or_eq with hy | hy
  · exact Or.inl hy
  · rcases (month_mono hy h.le).lt_or_eq with hm | hm
    · exact Or.inr ⟨hy, Or.inl hm⟩
    · refine Or.inr ⟨hy, Or.inr ⟨hm, ?_⟩⟩
      have hd := day_eq d
      have he := day_eq e
      rw [hy, hm] at hd
      omega

example : (year 719528, month 719528, dayOfMonth 719528) = (1970, 0, 1) ∧
    (year 730544, month 730544, dayOfMonth 730544) = (2000, 1, 29) := by decide +kernel

end Civil
