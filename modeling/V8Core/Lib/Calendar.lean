import Mathlib.Algebra.Order.Ring.Int
/-!
# The proleptic Gregorian calendar

Years, months and days of the Gregorian calendar run backwards and forwards
without end, and the number of each day counted from 1 January 1970. Months
are counted from zero, days of the month from one.
-/

namespace Calendar

/-! ## Years -/

/-- A year with a 29 February. -/
def IsLeap (y : Int) : Prop := y % 4 = 0 ∧ (y % 100 ≠ 0 ∨ y % 400 = 0)

instance : DecidablePred IsLeap := fun y => inferInstanceAs (Decidable (y % 4 = 0 ∧ (y % 100 ≠ 0 ∨ y % 400 = 0)))

def yearLength (y : Int) : Int := if IsLeap y then 366 else 365

/-- The number of the first day of a year. -/
def dayFromYear (y : Int) : Int := 365 * (y - 1970) + (y - 1969) / 4 - (y - 1901) / 100 + (y - 1601) / 400

/-- With the first day of 1970 as zero this is all that `dayFromYear` means. -/
theorem dayFromYear_succ (y : Int) : dayFromYear (y + 1) = dayFromYear y + yearLength y := by
  unfold dayFromYear yearLength
  split
  case isTrue h => unfold IsLeap at h; omega
  case isFalse h => unfold IsLeap at h; omega

example : dayFromYear 1970 = 0 := by decide

theorem dayFromYear_lt {y y' : Int} (h : y < y') : dayFromYear y + yearLength y ≤ dayFromYear y' := by
  obtain ⟨n, rfl⟩ : ∃ n : Nat, y' = y + 1 + n := ⟨(y' - y - 1).toNat, by omega⟩
  induction n with
  | zero => rw [Nat.cast_zero, add_zero, dayFromYear_succ]
  | succ n ih =>
    have hlen : 0 ≤ yearLength (y + 1 + n) := by unfold yearLength; split <;> omega
    rw [Nat.cast_succ, ← add_assoc, dayFromYear_succ (y + 1 + n)]
    omega

/-! ## Months -/

def monthLength (y : Int) (m : Nat) : Int :=
  [31, if IsLeap y then 29 else 28, 31, 30, 31, 30, 31, 31, 30, 31, 30, 31].getD m 0

/-- The days of the year that lie before the given month. -/
def daysBeforeMonth (y : Int) : Nat → Int
  | 0 => 0
  | m + 1 => daysBeforeMonth y m + monthLength y m

theorem monthLength_bounds (y : Int) {m : Nat} (h : m < 12) : 28 ≤ monthLength y m ∧ monthLength y m ≤ 31 := by
  unfold monthLength
  by_cases hl : IsLeap y <;> simp only [hl, if_true, if_false] <;> revert m <;> decide

theorem daysBeforeMonth_lt (y : Int) {m m' : Nat} (h : m < m') (h' : m' ≤ 12) :
    daysBeforeMonth y m + monthLength y m ≤ daysBeforeMonth y m' := by
  induction m' with
  | zero => omega
  | succ n ih =>
    rcases Nat.lt_succ_iff_lt_or_eq.mp h with hlt | rfl
    · have hle := ih hlt (by omega)
      have hlen := monthLength_bounds y (m := n) (by omega)
      rw [daysBeforeMonth]
      omega
    · rw [daysBeforeMonth]

theorem daysBeforeMonth_year (y : Int) : daysBeforeMonth y 12 = yearLength y := by
  unfold yearLength
  by_cases hl : IsLeap y <;> simp [daysBeforeMonth, monthLength, hl]

/-! ## Days -/

/-- A date that exists. -/
structure Date where
  year : Int
  month : Nat
  day : Int
  month_lt : month < 12
  one_le_day : 1 ≤ day
  day_le : day ≤ monthLength year month

namespace Date

/-- The number of the day, counted from 1 January 1970. -/
def dayNumber (d : Date) : Int := dayFromYear d.year + daysBeforeMonth d.year d.month + d.day - 1

theorem daysBeforeMonth_nonneg (d : Date) : 0 ≤ daysBeforeMonth d.year d.month := by
  rcases Nat.eq_zero_or_pos d.month with h | h
  · rw [h, daysBeforeMonth]
  · have hle := daysBeforeMonth_lt d.year h (by have := d.month_lt; omega)
    have hlen := monthLength_bounds d.year (m := 0) (by omega)
    rw [daysBeforeMonth] at hle
    omega

theorem dayNumber_mem_year (d : Date) :
    dayFromYear d.year ≤ d.dayNumber ∧ d.dayNumber < dayFromYear d.year + yearLength d.year := by
  have hnonneg := d.daysBeforeMonth_nonneg
  have hend := daysBeforeMonth_lt d.year d.month_lt (le_refl 12)
  have hfirst := d.one_le_day
  have hlast := d.day_le
  rw [daysBeforeMonth_year] at hend
  unfold dayNumber
  omega

theorem dayNumber_lt_of_year_lt {d e : Date} (h : d.year < e.year) : d.dayNumber < e.dayNumber := by
  have hd := d.dayNumber_mem_year
  have he := e.dayNumber_mem_year
  have hlt := dayFromYear_lt h
  omega

theorem dayNumber_lt_of_month_lt {d e : Date} (hy : d.year = e.year) (h : d.month < e.month) :
    d.dayNumber < e.dayNumber := by
  have hlt := daysBeforeMonth_lt d.year h (by have := e.month_lt; omega)
  have hd := d.day_le
  have he := e.one_le_day
  unfold dayNumber
  rw [← hy]
  omega

/-- No two dates have the same number. -/
theorem dayNumber_injective {d e : Date} (h : d.dayNumber = e.dayNumber) : d = e := by
  have hyear : d.year = e.year := by
    rcases lt_trichotomy d.year e.year with hlt | heq | hlt
    · have := dayNumber_lt_of_year_lt hlt; omega
    · exact heq
    · have := dayNumber_lt_of_year_lt hlt; omega
  have hmonth : d.month = e.month := by
    rcases lt_trichotomy d.month e.month with hlt | heq | hlt
    · have := dayNumber_lt_of_month_lt hyear hlt; omega
    · exact heq
    · have := dayNumber_lt_of_month_lt hyear.symm hlt; omega
  have hday : d.day = e.day := by
    unfold dayNumber at h
    rw [hyear, hmonth] at h
    omega
  cases d
  cases e
  simp_all

/-- The other days of a month: those up to the 28th exist in every month. -/
def withDay (d : Date) (day : Int) (h : 1 ≤ day ∧ day ≤ 28) : Date where
  year := d.year
  month := d.month
  day := day
  month_lt := d.month_lt
  one_le_day := h.1
  day_le := by have := monthLength_bounds d.year d.month_lt; omega

theorem dayNumber_withDay (d : Date) (day : Int) (h : 1 ≤ day ∧ day ≤ 28) :
    (d.withDay day h).dayNumber = d.dayNumber + (day - d.day) := by
  simp only [dayNumber, withDay]
  omega

end Date

/-! ## Weekdays -/

/-- The day of the week, from Sunday as zero: 1 January 1970 was a Thursday. -/
def weekday (n : Int) : Int := (n + 4) % 7

end Calendar
