import V8Core.Lib.Double
import V8Core.Date.DateCache
/-!
# `MakeDay`

`MakeDay` of `date.cc` on doubles. It lets through years down to `-1000000` and
up to ten million months, but the bias it adds before dividing only covers the
years from `-399999` on; below, a truncating division takes the place of the
floor, and the day is one too high for every year that does not follow a leap
year.
-/

namespace V8Core.Date

open Calendar
open SignedInt

/-! ## The code -/

/-- `DoubleToInteger` of `conversions-inl.h`. -/
def doubleToInteger (x : Double) : Double :=
  if x.isNaN || x.toRat == 0 then Double.zero false
  else if !x.isFinite then x
  else (Double.ofRat x.trunc).add (Double.zero false)

def kMinYear : Double := Double.ofRat (-1000000 : Int)
def kMaxYear : Double := Double.ofRat (1000000 : Int)
def kMinMonth : Double := Double.ofRat (-10000000 : Int)
def kMaxMonth : Double := Double.ofRat (10000000 : Int)

/-- `none` is a signed overflow. -/
def makeDay (year month date : Double) : Option Double :=
  if (kMinYear.le year && year.le kMaxYear) && (kMinMonth.le month && month.le kMaxMonth) && date.isFinite then do
    let dayFromYear ← daysFromYearMonth year.trunc month.trunc
    let day ← int (dayFromYear - 1)
    some ((Double.ofRat day).add (doubleToInteger date))
  else some .nan

/-! ## Integral arguments -/

theorem isInt_doubleToInteger {x : Double} {n : Int} (h : x.IsInt n) : (doubleToInteger x).IsInt n := by
  unfold doubleToInteger
  rw [Double.isNaN_of_isFinite h.1, h.1, Double.trunc_isInt h, h.2]
  simp only [Bool.false_or, beq_iff_eq, Int.cast_eq_zero, Bool.not_true, Bool.false_eq_true, if_false]
  split
  case isTrue h0 => rw [h0]; exact Double.isInt_zero _
  case isFalse =>
    have hn : (Double.ofRat n).IsInt n := Double.ofRat_isInt_self.mpr ⟨x, h⟩
    rw [Double.add_isInt_iff hn (Double.isInt_zero _), add_zero]
    exact hn

/-- The first day of a month that is counted on from the months of a year. -/
def firstOfMonth (y m : Int) : Calendar.Date where
  year := y + m / 12
  month := (m % 12).toNat
  day := 1
  month_lt := by omega
  one_le_day := le_refl 1
  day_le := by have := monthLength_bounds (y + m / 12) (m := (m % 12).toNat) (by omega); omega

theorem daysFromYearMonth_firstOfMonth {y m : Int} (hy : -1000000 ≤ y ∧ y ≤ 1000000)
    (hm : -10000000 ≤ m ∧ m ≤ 10000000) :
    daysFromYearMonth y m =
      some ((firstOfMonth y m).dayNumber + if BiasedYear (y + m / 12) then 0 else 1) := by
  rw [daysFromYearMonth_eq hy hm, Date.dayNumber, firstOfMonth, add_sub_cancel_right]

theorem firstOfMonth_bounds {y m : Int} (hy : -1000000 ≤ y ∧ y ≤ 1000000) (hm : -10000000 ≤ m ∧ m ≤ 10000000) :
    -800000000 ≤ (firstOfMonth y m).dayNumber ∧ (firstOfMonth y m).dayNumber ≤ 800000000 := by
  have hmem := (firstOfMonth y m).dayNumber_mem_year
  have hlen : yearLength (firstOfMonth y m).year ≤ 366 := by unfold yearLength; split <;> omega
  have hyear : (firstOfMonth y m).year = y + m / 12 := rfl
  unfold dayFromYear at hmem
  omega

/-- On the whole accepted range no `int` overflows, and the result is the rounded sum of two exact numbers. -/
theorem makeDay_eq {year month date : Double} {y m d : Int} (hyear : year.IsInt y) (hmonth : month.IsInt m)
    (hdate : date.IsInt d) (hy : -1000000 ≤ y ∧ y ≤ 1000000) (hm : -10000000 ≤ m ∧ m ≤ 10000000) :
    ∃ r, makeDay year month date = some r ∧ ∀ T, r.IsInt T ↔
      (Double.ofRat ((firstOfMonth y m).dayNumber + (d - 1) + if BiasedYear (y + m / 12) then 0 else 1 : Int)).IsInt T := by
  have hbounds := firstOfMonth_bounds hy hm
  have hmin : kMinYear.IsInt (-1000000) := Double.isInt_ofRat (by decide)
  have hmax : kMaxYear.IsInt 1000000 := Double.isInt_ofRat (by decide)
  have hminMonth : kMinMonth.IsInt (-10000000) := Double.isInt_ofRat (by decide)
  have hmaxMonth : kMaxMonth.IsInt 10000000 := Double.isInt_ofRat (by decide)
  unfold makeDay
  rw [Double.le_isInt hmin hyear, Double.le_isInt hyear hmax, Double.le_isInt hminMonth hmonth,
    Double.le_isInt hmonth hmaxMonth, hdate.1, Double.trunc_isInt hyear, Double.trunc_isInt hmonth,
    daysFromYearMonth_firstOfMonth hy hm, if_pos (by simp [hy, hm])]
  generalize hextra : (if BiasedYear (y + m / 12) then (0 : Int) else 1) = extra
  have hle : 0 ≤ extra ∧ extra ≤ 1 := by rw [← hextra]; split_ifs <;> omega
  rw [Option.bind_eq_bind, Option.bind_some, int_eq (by omega)]
  refine ⟨_, rfl, fun T => ?_⟩
  rw [Double.add_isInt_iff (Double.isInt_ofRat (by omega)) (isInt_doubleToInteger hdate)]
  have hsum : (firstOfMonth y m).dayNumber + extra - 1 + d = (firstOfMonth y m).dayNumber + (d - 1) + extra := by ring
  rw [hsum]

/-- `MakeDay` gives the day number of the calendar, if that is a double, exactly for the years that the bias
makes non-negative and those that follow a leap year, and where adding one is lost by rounding. -/
theorem makeDay_isInt_iff {year month date : Double} {y m d : Int} (hyear : year.IsInt y) (hmonth : month.IsInt m)
    (hdate : date.IsInt d) (hy : -1000000 ≤ y ∧ y ≤ 1000000) (hm : -10000000 ≤ m ∧ m ≤ 10000000) :
    ∃ r, makeDay year month date = some r ∧
      (r.IsInt ((firstOfMonth y m).dayNumber + (d - 1)) ↔
        Double.Represents ((firstOfMonth y m).dayNumber + (d - 1)) ∧
          (BiasedYear (y + m / 12) ∨ 4 ∣ (firstOfMonth y m).dayNumber + (d - 1) ∧
            (2 ^ 53 ≤ (firstOfMonth y m).dayNumber + (d - 1) ∨ (firstOfMonth y m).dayNumber + (d - 1) < -2 ^ 53))) := by
  obtain ⟨r, hr, hT⟩ := makeDay_eq hyear hmonth hdate hy hm
  refine ⟨r, hr, ?_⟩
  rw [hT]
  by_cases hbias : BiasedYear (y + m / 12)
  · rw [if_pos hbias, add_zero, Double.ofRat_isInt_self]
    simp only [hbias, true_or, and_true]
  · rw [if_neg hbias, Double.ofRat_succ_isInt_iff]
    simp only [hbias, false_or]

/-- February 2024. -/
theorem makeDay_february :
    ∃ r, makeDay (Double.ofRat (2024 : Int)) (Double.ofRat (1 : Int)) (Double.ofRat (1 : Int)) = some r ∧
      r.IsInt 19754 := by
  obtain ⟨r, hr, hiff⟩ := makeDay_isInt_iff (y := 2024) (m := 1) (d := 1) (Double.isInt_ofRat (by decide))
    (Double.isInt_ofRat (by decide)) (Double.isInt_ofRat (by decide)) (by decide) (by decide)
  exact ⟨r, hr, hiff.mpr ⟨⟨_, Double.isInt_ofRat (by decide)⟩, Or.inl (by decide)⟩⟩

/-- The first of January of the year `-400000` comes out one day late. -/
theorem makeDay_late :
    ∃ r, makeDay (Double.ofRat (-400000 : Int)) (Double.ofRat (0 : Int)) (Double.ofRat (1 : Int)) = some r ∧
      ¬r.IsInt ((firstOfMonth (-400000) 0).dayNumber + (1 - 1)) := by
  obtain ⟨r, hr, hT⟩ := makeDay_eq (y := -400000) (m := 0) (d := 1) (Double.isInt_ofRat (by decide))
    (Double.isInt_ofRat (by decide)) (Double.isInt_ofRat (by decide)) (by decide) (by decide)
  refine ⟨r, hr, ?_⟩
  rw [hT, (Double.isInt_ofRat (by decide)).iff_eq]
  decide

end V8Core.Date
