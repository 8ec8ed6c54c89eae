import V8Core.Lib.Calendar
import V8Core.Lib.SignedInt
import Mathlib.Tactic.IntervalCases
/-!
# Days, months and years of the date cache

`DateCache` of `src/date/date.h` and `src/date/date.cc` as far as the calendar
goes: breaking a day number into year, month and day, with the month that was
found last kept for the next call, the way back, and the equivalent time that
stands in for times the operating system does not know.

Integers are unbounded here and every operation that could leave its machine
type is checked: the result `none` is an overflow or a conversion that changes
the value. The segments of the daylight savings cache are not part of this
module.
-/

namespace V8Core.Date

open Calendar
open SignedInt

/-! ## Division -/

variable {a b y : Int} {m : Nat}

/-- A quotient that goes towards zero is one above the floor for a negative dividend, unless it is exact. -/
theorem tdiv_eq_add (hb : 0 < b) : a.tdiv b = a / b + if a < 0 ∧ a % b ≠ 0 then 1 else 0 := by
  rw [Int.tdiv_eq_ediv, Int.sign_eq_one_of_pos hb]
  by_cases h : 0 ≤ a ∨ b ∣ a
  · rw [if_pos h, if_neg (by omega)]
  · rw [if_neg h, if_pos (by omega)]

theorem tmod_eq_sub (hb : 0 < b) : a.tmod b = a % b - if a < 0 ∧ a % b ≠ 0 then b else 0 := by
  have ht := Int.mul_tdiv_add_tmod a b
  have he := Int.mul_ediv_add_emod a b
  rw [tdiv_eq_add hb, mul_add] at ht
  split
  case isTrue h => rw [if_pos h] at ht; omega
  case isFalse h => rw [if_neg h] at ht; omega

/-- A number from minus one on: minus one itself is its own remainder. -/
theorem tdiv_add_tmod {n d : Int} (hn : -1 ≤ n) (hd : 1 < d) :
    n = d * n.tdiv d + n.tmod d ∧ 0 ≤ n.tdiv d ∧ -1 ≤ n.tmod d ∧ n.tmod d < d ∧ (n.tmod d = -1 → n = -1) := by
  have heq := Int.mul_tdiv_add_tmod n d
  rcases Int.lt_or_le n 0 with hneg | hpos
  · obtain rfl : n = -1 := by omega
    have hone : (1 : Int).tmod d = 1 := Int.tmod_eq_of_lt (by omega) hd
    have hzero : (1 : Int).tdiv d = 0 := Int.tdiv_eq_zero_of_lt (by omega) hd
    rw [Int.neg_tmod, hone, Int.neg_tdiv, hzero]
    omega
  · have hquot := Int.tdiv_nonneg hpos (by omega : 0 ≤ d)
    have hrem := Int.tmod_nonneg d hpos
    have hlt := Int.tmod_lt_of_pos n (by omega : 0 < d)
    omega

/-! ## The definitions of `date.cc` -/

def kDaysIn4Years : Int := 4 * 365 + 1
def kDaysIn100Years : Int := 25 * kDaysIn4Years - 1
def kDaysIn400Years : Int := 4 * kDaysIn100Years + 1
def kDays1970to2000 : Int := 30 * 365 + 7
def kDaysOffset : Int := 1000 * kDaysIn400Years + 5 * kDaysIn400Years - kDays1970to2000
def kYearsOffset : Int := 400000
def kDaysInMonths : List Int := [31, 28, 31, 30, 31, 30, 31, 31, 30, 31, 30, 31]

/-- The three results of `YearMonthDayFromDays`. -/
structure YearMonthDay where
  year : Int
  month : Int
  day : Int
deriving DecidableEq, Repr

/-- The fields of `DateCache` that remember the last month found. -/
structure DateCache where
  ymdValid : Bool
  ymdDays : Int
  ymdYear : Int
  ymdMonth : Int
  ymdDay : Int
deriving DecidableEq, Repr

/-- The loop over the months from `i` on; `none` if it runs out of months. -/
def findMonth : List Int → Int → Int → Option (Int × Int)
  | [], _, _ => none
  | length :: rest, i, days =>
    if days < length then some (i, days + 1) else findMonth rest (i + 1) (days - length)

/-- Month and day of the month of a day of the year. -/
def monthAndDay (days : Int) (isLeap : Bool) : Option (Int × Int) :=
  let beforeMarch := 31 + 28 + (if isLeap then 1 else 0)
  if days ≥ beforeMarch then findMonth (kDaysInMonths.drop 2) 2 (days - beforeMarch)
  else if days < 31 then some (0, days + 1)
  else some (1, days - 31 + 1)

namespace DateCache

/-- `ResetDateCache`. -/
def resetDateCache (c : DateCache) : DateCache := { c with ymdValid := false }

/-- `YearMonthDayFromDays` when the cached month does not help. -/
def breakDownDays (_ : DateCache) (saveDays : Int) : Option (YearMonthDay × DateCache) := do
  let biased ← int (saveDays + kDaysOffset)
  let year400 ← int (400 * biased.tdiv kDaysIn400Years - kYearsOffset)
  let days400 := biased.tmod kDaysIn400Years - 1
  let yd1 := days400.tdiv kDaysIn100Years
  let days100 := days400.tmod kDaysIn100Years + 1
  let yd2 := days100.tdiv kDaysIn4Years
  let days4 := days100.tmod kDaysIn4Years - 1
  let yd3 := days4.tdiv 365
  let isLeap := (yd1 == 0 || yd2 != 0) && yd3 == 0
  let days := days4.tmod 365 + (if isLeap then 1 else 0)
  let year := year400 + 100 * yd1 + 4 * yd2 + yd3
  let (month, day) ← monthAndDay days isLeap
  some (⟨year, month, day⟩, ⟨true, saveDays, year, month, day⟩)

/-- `YearMonthDayFromDays`. -/
def yearMonthDayFromDays (c : DateCache) (days : Int) : Option (YearMonthDay × DateCache) :=
  if c.ymdValid then do
    let delta ← int (days - c.ymdDays)
    let newDay ← int (c.ymdDay + delta)
    if newDay ≥ 1 ∧ newDay ≤ 28 then
      some (⟨c.ymdYear, c.ymdMonth, newDay⟩, { c with ymdDay := newDay, ymdDays := days })
    else c.breakDownDays days
  else c.breakDownDays days

end DateCache

def dayFromMonth : List Int := [0, 31, 59, 90, 120, 151, 181, 212, 243, 273, 304, 334]
def dayFromMonthLeap : List Int := [0, 31, 60, 91, 121, 152, 182, 213, 244, 274, 305, 335]

def kYearDelta : Int := 399999
def kBaseDay : Int :=
  365 * (1970 + kYearDelta) + (1970 + kYearDelta).tdiv 4 - (1970 + kYearDelta).tdiv 100 +
    (1970 + kYearDelta).tdiv 400

/-- A month carried into the year, as C++ divides: the quotient goes towards zero. -/
def normalizeMonth (year month : Int) : Option (Int × Int) := do
  let y ← int (year + month.tdiv 12)
  let m := month.tmod 12
  if m < 0 then
    let y ← int (y - 1)
    some (y, m + 12)
  else some (y, m)

/-- The first day of a year, with every intermediate result checked. -/
def dayFromBiasedYear (y : Int) : Option Int := do
  let year1 ← int (y + kYearDelta)
  let days ← int (365 * year1)
  let days ← int (days + year1.tdiv 4)
  let days ← int (days - year1.tdiv 100)
  let days ← int (days + year1.tdiv 400)
  int (days - kBaseDay)

/-- The computation that `DaysFromYearMonth` and `MakeDay` both spell out. -/
def daysFromYearMonth (year month : Int) : Option Int := do
  let (y, m) ← normalizeMonth year month
  let dayFromYear ← dayFromBiasedYear y
  if y.tmod 4 ≠ 0 ∨ y.tmod 100 = 0 ∧ y.tmod 400 ≠ 0 then
    let d ← dayFromMonth[m.toNat]?
    int (dayFromYear + d)
  else
    let d ← dayFromMonthLeap[m.toNat]?
    int (dayFromYear + d)

/-! ## The definitions of `date.h` -/

def kMsPerDay : Int := 24 * 60 * 60 * 1000
def kMaxEpochTimeInMs : Int := 2147483647 * 1000

def daysFromTime (timeMs : Int) : Option Int := do
  let t ← if timeMs < 0 then int64 (timeMs - (kMsPerDay - 1)) else some timeMs
  int (t.tdiv kMsPerDay)

def timeInDay (timeMs days : Int) : Option Int := do
  let start ← int64 (days * kMsPerDay)
  let t ← int64 (timeMs - start)
  int t

namespace DateCache

def weekday (days : Int) : Option Int := do
  let d ← int (days + 4)
  let result := d.tmod 7
  some (if result ≥ 0 then result else result + 7)

def isLeap (year : Int) : Bool := year.tmod 4 == 0 && (year.tmod 100 != 0 || year.tmod 400 == 0)

def equivalentYear (year : Int) : Option Int := do
  let days ← daysFromYearMonth year 0
  let weekDay ← weekday days
  let recentYear := (if isLeap year then 1956 else 1967) + (weekDay * 12).tmod 28
  some (2008 + (recentYear + 3 * 28 - 2008).tmod 28)

def equivalentTime (c : DateCache) (timeMs : Int) : Option (Int × DateCache) := do
  let days ← daysFromTime timeMs
  let timeWithinDayMs ← timeInDay timeMs days
  let (ymd, c) ← c.yearMonthDayFromDays days
  let year ← equivalentYear ymd.year
  let first ← daysFromYearMonth year ymd.month
  let newDays ← int (first + ymd.day - 1)
  let start ← int64 (newDays * kMsPerDay)
  let t ← int64 (start + timeWithinDayMs)
  some (t, c)

end DateCache

/-! ## The first day of a month -/

theorem normalizeMonth_eq {year month : Int} (hy : -1000000 ≤ year ∧ year ≤ 1000000)
    (hm : -10000000 ≤ month ∧ month ≤ 10000000) :
    normalizeMonth year month = some (year + month / 12, month % 12) := by
  unfold normalizeMonth
  rw [tdiv_eq_add (by omega), tmod_eq_sub (by omega)]
  by_cases h : month < 0 ∧ month % 12 ≠ 0
  · rw [int_eq (by omega)]
    simp only [Option.bind_eq_bind, Option.bind_some]
    rw [if_pos (by omega), int_eq (by omega)]
    simp only [Option.bind_some, Option.some.injEq, Prod.mk.injEq]
    omega
  · rw [if_neg h, if_neg h, int_eq (by omega)]
    simp only [Option.bind_eq_bind, Option.bind_some]
    rw [if_neg (by omega), add_zero, sub_zero]

/-- The years whose first day the formula gets right. Below the bias the divided numbers are negative, and
the three quotients then add up to one day too many unless the year before was a leap year. -/
def BiasedYear (y : Int) : Prop := -kYearDelta ≤ y ∨ IsLeap (y - 1)

instance : DecidablePred BiasedYear := fun _ => inferInstanceAs (Decidable (_ ∨ _))

theorem dayFromBiasedYear_eq (hy : -2000000 ≤ y ∧ y ≤ 2000000) :
    dayFromBiasedYear y = some (dayFromYear y + if BiasedYear y then 0 else 1) := by
  have hbase : kBaseDay = 146816162 := by decide
  unfold dayFromBiasedYear
  rw [hbase, kYearDelta, int_eq (by omega)]
  simp only [Option.bind_eq_bind, Option.bind_some]
  rw [int_eq (by omega)]
  simp only [Option.bind_some, tdiv_eq_add (show (0 : Int) < 4 by omega),
    tdiv_eq_add (show (0 : Int) < 100 by omega), tdiv_eq_add (show (0 : Int) < 400 by omega)]
  rw [int_eq (by omega)]
  simp only [Option.bind_some]
  rw [int_eq (by omega)]
  simp only [Option.bind_some]
  rw [int_eq (by omega)]
  simp only [Option.bind_some]
  rw [int_eq (by omega), Option.some.injEq]
  unfold dayFromYear BiasedYear IsLeap kYearDelta
  split_ifs <;> omega

/-- The tables of the source hold the days before each month. -/
theorem dayFromMonth_eq (h : ¬IsLeap y) (hm : m < 12) :
    dayFromMonth[m]? = some (daysBeforeMonth y m) := by
  have hlen : ∀ n, monthLength y n = kDaysInMonths.getD n 0 := by
    intro n
    rw [monthLength, if_neg h, kDaysInMonths]
  interval_cases m <;> simp [daysBeforeMonth, hlen, dayFromMonth, kDaysInMonths]

theorem dayFromMonthLeap_eq (h : IsLeap y) (hm : m < 12) :
    dayFromMonthLeap[m]? = some (daysBeforeMonth y m) := by
  have hlen : ∀ n, monthLength y n = [31, 29, 31, 30, 31, 30, 31, 31, 30, 31, 30, 31].getD n 0 := by
    intro n
    rw [monthLength, if_pos h]
  interval_cases m <;> simp [daysBeforeMonth, hlen, dayFromMonthLeap]

theorem daysBeforeMonth_bounds (y : Int) (hm : m < 12) :
    0 ≤ daysBeforeMonth y m ∧ daysBeforeMonth y m ≤ 335 := by
  by_cases h : IsLeap y
  · have htab := dayFromMonthLeap_eq h hm
    generalize daysBeforeMonth y m = x at htab
    interval_cases m <;> simp [dayFromMonthLeap] at htab <;> omega
  · have htab := dayFromMonth_eq h hm
    generalize daysBeforeMonth y m = x at htab
    interval_cases m <;> simp [dayFromMonth] at htab <;> omega

theorem not_isLeap_iff (y : Int) : (y.tmod 4 ≠ 0 ∨ y.tmod 100 = 0 ∧ y.tmod 400 ≠ 0) ↔ ¬IsLeap y := by
  rw [tmod_eq_sub (by omega), tmod_eq_sub (by omega), tmod_eq_sub (by omega), IsLeap]
  omega

theorem isLeap_iff (y : Int) : DateCache.isLeap y = true ↔ IsLeap y := by
  rw [DateCache.isLeap, tmod_eq_sub (by omega), tmod_eq_sub (by omega), tmod_eq_sub (by omega), IsLeap,
    Bool.and_eq_true, Bool.or_eq_true, beq_iff_eq, bne_iff_ne, beq_iff_eq]
  omega

/-- Over all years and months that `MakeDay` lets through nothing overflows, and the result is one too high
for some years below the bias. -/
theorem daysFromYearMonth_eq {year month : Int} (hy : -1000000 ≤ year ∧ year ≤ 1000000)
    (hm : -10000000 ≤ month ∧ month ≤ 10000000) :
    daysFromYearMonth year month =
      some (dayFromYear (year + month / 12) + daysBeforeMonth (year + month / 12) (month % 12).toNat +
        if BiasedYear (year + month / 12) then 0 else 1) := by
  have hbounds : -2000000 ≤ year + month / 12 ∧ year + month / 12 ≤ 2000000 := by omega
  have hmonth : (month % 12).toNat < 12 := by omega
  unfold daysFromYearMonth
  rw [normalizeMonth_eq hy hm]
  simp only [Option.bind_eq_bind, Option.bind_some]
  generalize year + month / 12 = y at *
  generalize (month % 12).toNat = m at *
  rw [dayFromBiasedYear_eq hbounds]
  have hbefore := daysBeforeMonth_bounds y hmonth
  have hrange : -800000000 ≤ dayFromYear y ∧ dayFromYear y ≤ 800000000 := by unfold dayFromYear; omega
  generalize dayFromYear y = d at *
  simp only [Option.bind_some, not_isLeap_iff]
  by_cases hl : IsLeap y
  · rw [if_neg (not_not.mpr hl), dayFromMonthLeap_eq hl hmonth, Option.bind_some,
      int_eq (by split_ifs <;> omega), add_right_comm]
  · rw [if_pos hl, dayFromMonth_eq hl hmonth, Option.bind_some, int_eq (by split_ifs <;> omega), add_right_comm]

/-! ## Year, month and day of a day number -/

theorem findMonth_spec (y : Int) (lengths : List Int) (i : Nat)
    (hlen : ∀ k (hk : k < lengths.length), monthLength y (i + k) = lengths[k]) {days : Int} (h0 : 0 ≤ days)
    (hlt : days < lengths.sum) :
    ∃ (m : Nat) (day : Int), findMonth lengths i days = some ((m : Int), day) ∧ m < i + lengths.length ∧ 1 ≤ day ∧
      day ≤ monthLength y m ∧ daysBeforeMonth y m + day - 1 = daysBeforeMonth y i + days := by
  induction lengths generalizing i days with
  | nil => rw [List.sum_nil] at hlt; omega
  | cons length rest ih =>
    have hfirst : monthLength y i = length := hlen 0 (by simp)
    rw [findMonth]
    split
    case isTrue h => exact ⟨i, days + 1, rfl, by simp, by omega, by omega, by omega⟩
    case isFalse h =>
      rw [List.sum_cons] at hlt
      have hrest : ∀ k (hk : k < rest.length), monthLength y (i + 1 + k) = rest[k] := by
        intro k hk
        rw [add_assoc, add_comm 1 k]
        exact hlen (k + 1) (by simpa using hk)
      obtain ⟨m, day, hfound, hm, h1, h2, h3⟩ := ih (i + 1) hrest
        (show 0 ≤ days - length by omega) (by omega)
      refine ⟨m, day, by exact_mod_cast hfound, ?_, h1, h2, ?_⟩
      · rw [List.length_cons]; omega
      · rw [h3, daysBeforeMonth, hfirst]; omega

theorem monthLength_from_march (y : Int) (k : Nat) (hk : k < (kDaysInMonths.drop 2).length) :
    monthLength y (2 + k) = (kDaysInMonths.drop 2)[k] := by
  change k < 10 at hk
  interval_cases k <;> rfl

theorem monthAndDay_spec {days : Int} {leap : Bool} (hleap : leap = true ↔ IsLeap y) (h0 : 0 ≤ days)
    (hlt : days < yearLength y) :
    ∃ (m : Nat) (day : Int), monthAndDay days leap = some ((m : Int), day) ∧ m < 12 ∧ 1 ≤ day ∧
      day ≤ monthLength y m ∧ daysBeforeMonth y m + day - 1 = days := by
  have hjan : monthLength y 0 = 31 := rfl
  have hfeb : monthLength y 1 = 28 + if leap then 1 else 0 := by
    cases leap <;> simp at hleap <;> simp [monthLength, hleap]
  have hyear : yearLength y = 365 + if leap then 1 else 0 := by
    cases leap <;> simp at hleap <;> simp [yearLength, hleap]
  have hbefore1 : daysBeforeMonth y 1 = 31 := by rw [daysBeforeMonth, daysBeforeMonth, hjan, zero_add]
  have hbefore2 : daysBeforeMonth y 2 = 31 + 28 + if leap then 1 else 0 := by
    rw [daysBeforeMonth, hbefore1, hfeb, add_assoc]
  unfold monthAndDay
  generalize (if leap = true then (1 : Int) else 0) = extra at *
  by_cases h : days ≥ 31 + 28 + extra
  · rw [if_pos h]
    obtain ⟨m, day, hfound, hm, h1, h2, h3⟩ := findMonth_spec y (kDaysInMonths.drop 2) 2 (monthLength_from_march y)
      (show 0 ≤ days - (31 + 28 + extra) by omega)
      (by simp only [kDaysInMonths, List.drop, List.sum_cons, List.sum_nil]; omega)
    exact ⟨m, day, hfound, hm, h1, h2, by omega⟩
  · rw [if_neg h]
    by_cases hfirst : days < 31
    · rw [if_pos hfirst]
      exact ⟨0, days + 1, rfl, by omega, by omega, by omega, by rw [daysBeforeMonth]; omega⟩
    · rw [if_neg hfirst]
      exact ⟨1, days - 31 + 1, rfl, by omega, by omega, by omega, by omega⟩

/-- The result of a break-down is the date with the given number. -/
def YearMonthDay.IsDateOf (r : YearMonthDay) (days : Int) : Prop :=
  ∃ d : Calendar.Date, d.dayNumber = days ∧ r = ⟨d.year, d.month, d.day⟩

theorem YearMonthDay.IsDateOf.unique {r r' : YearMonthDay} {days : Int} (h : r.IsDateOf days)
    (h' : r'.IsDateOf days) : r' = r := by
  obtain ⟨d, hd, rfl⟩ := h
  obtain ⟨d', hd', rfl⟩ := h'
  rw [Calendar.Date.dayNumber_injective (hd'.trans hd.symm)]

/-- The day numbers of the times that fit into a `JSDate`, and two months more on either side: one for the times
before they are converted to UTC, one for the offset of the time zone. -/
def InRange (days : Int) : Prop := -100000000 - 62 ≤ days ∧ days ≤ 100000000 + 62

/-- A day of a 400-year cycle, counted in centuries, in fours of years and in years: the first century and
the first four years of each century but the first are of their own length. -/
theorem dayFromYear_parts {k c : Int} (ha : 0 ≤ a ∧ a ≤ 3) (hb : 0 ≤ b ∧ b ≤ 24) (hc : 0 ≤ c ∧ c ≤ 3) :
    dayFromYear (400 * k + 100 * a + 4 * b + c) =
      146097 * k + 36524 * a + 1461 * b + 365 * c + (if (a = 0 ∨ b ≠ 0) ∧ c = 0 then 0 else 1) - 719528 := by
  unfold dayFromYear
  split_ifs <;> omega

theorem isLeap_parts {k c : Int} (ha : 0 ≤ a ∧ a ≤ 3) (hb : 0 ≤ b ∧ b ≤ 24) (hc : 0 ≤ c ∧ c ≤ 3) :
    IsLeap (400 * k + 100 * a + 4 * b + c) ↔ (a = 0 ∨ b ≠ 0) ∧ c = 0 := by
  unfold IsLeap
  omega

namespace DateCache

theorem breakDownDays_spec (c : DateCache) {days : Int} (h : InRange days) :
    ∃ r : YearMonthDay, c.breakDownDays days = some (r, ⟨true, days, r.year, r.month, r.day⟩) ∧ r.IsDateOf days := by
  have hoffset : kDaysOffset = 146816528 := by decide
  have h400 : kDaysIn400Years = 146097 := by decide
  have h100 : kDaysIn100Years = 36524 := by decide
  have h4 : kDaysIn4Years = 1461 := by decide
  unfold InRange at h
  unfold breakDownDays
  rw [hoffset, h400, h100, h4, kYearsOffset, int_eq (by omega)]
  -- whole cycles, centuries, fours of years and years, each with what is left
  obtain ⟨q, hq⟩ : ∃ q, (days + 146816528).tdiv 146097 = q := ⟨_, rfl⟩
  obtain ⟨r, hr⟩ : ∃ r, (days + 146816528).tmod 146097 = r := ⟨_, rfl⟩
  obtain ⟨a, ha⟩ : ∃ a, (r - 1).tdiv 36524 = a := ⟨_, rfl⟩
  obtain ⟨s, hs⟩ : ∃ s, (r - 1).tmod 36524 = s := ⟨_, rfl⟩
  obtain ⟨b, hb⟩ : ∃ b, (s + 1).tdiv 1461 = b := ⟨_, rfl⟩
  obtain ⟨u, hu⟩ : ∃ u, (s + 1).tmod 1461 = u := ⟨_, rfl⟩
  obtain ⟨y, hy⟩ : ∃ y, (u - 1).tdiv 365 = y := ⟨_, rfl⟩
  obtain ⟨v, hv⟩ : ∃ v, (u - 1).tmod 365 = v := ⟨_, rfl⟩
  have hdays := tdiv_add_tmod (n := days + 146816528) (d := 146097) (by omega) (by omega)
  rw [hq, hr] at hdays
  have hcentury := tdiv_add_tmod (n := r - 1) (d := 36524) (by omega) (by omega)
  rw [ha, hs] at hcentury
  have hfour := tdiv_add_tmod (n := s + 1) (d := 1461) (by omega) (by omega)
  rw [hb, hu] at hfour
  have hyear := tdiv_add_tmod (n := u - 1) (d := 365) (by omega) (by omega)
  rw [hy, hv] at hyear
  simp only [Option.bind_eq_bind, Option.bind_some, hq, hr, ha, hs, hb, hu, hy, hv]
  rw [int_eq (by omega)]
  simp only [Option.bind_some]
  have ha : 0 ≤ a ∧ a ≤ 3 := by omega
  have hb : 0 ≤ b ∧ b ≤ 24 := by omega
  have hy : 0 ≤ y ∧ y ≤ 3 := by omega
  have hleap := isLeap_parts (k := q - 1000) ha hb hy
  have hfirst := dayFromYear_parts (k := q - 1000) ha hb hy
  obtain ⟨leap, hl⟩ : ∃ leap, ((a == 0 || b != 0) && y == 0) = leap := ⟨_, rfl⟩
  have hlead : leap = true ↔ (a = 0 ∨ b ≠ 0) ∧ y = 0 := by rw [← hl]; simp
  rw [← hlead] at hleap
  rw [show 400 * q - 400000 + 100 * a + 4 * b + y = 400 * (q - 1000) + 100 * a + 4 * b + y by omega, hl]
  generalize 400 * (q - 1000) + 100 * a + 4 * b + y = year at *
  have hlen : yearLength year = 365 + if leap then 1 else 0 := by
    unfold yearLength
    cases leap <;> simp [hleap]
  have hextra : (if (a = 0 ∨ b ≠ 0) ∧ y = 0 then (0 : Int) else 1) = 1 - if leap then 1 else 0 := by
    cases leap <;> simp [← hlead]
  have hnonneg : 0 ≤ v + if leap then 1 else 0 := by
    by_cases hv : v = -1
    · rw [if_pos (hlead.mpr (by omega))]
      omega
    · split_ifs <;> omega
  obtain ⟨m, day, hfound, hm, h1, h2, h3⟩ := monthAndDay_spec hleap.symm hnonneg (by omega)
  refine ⟨⟨year, m, day⟩, ?_, ⟨⟨year, m, day, hm, h1, h2⟩, ?_, rfl⟩⟩
  · rw [hfound, Option.bind_some]
  · simp only [Date.dayNumber]
    omega

/-- What is cached is the date of the cached day number. -/
def Coherent (c : DateCache) : Prop :=
  c.ymdValid = true → InRange c.ymdDays ∧ YearMonthDay.IsDateOf ⟨c.ymdYear, c.ymdMonth, c.ymdDay⟩ c.ymdDays

theorem coherent_resetDateCache (c : DateCache) : c.resetDateCache.Coherent := fun h => by cases h

/-- One call: the date is right whatever the cache holds, and the cache stays coherent. -/
theorem yearMonthDayFromDays_spec {c : DateCache} (hc : c.Coherent) {days : Int} (h : InRange days) :
    ∃ r c', c.yearMonthDayFromDays days = some (r, c') ∧ r.IsDateOf days ∧ c'.Coherent := by
  have hslow : ∃ r c', c.breakDownDays days = some (r, c') ∧ r.IsDateOf days ∧ c'.Coherent := by
    obtain ⟨r, hr, hdate⟩ := c.breakDownDays_spec h
    exact ⟨r, _, hr, hdate, fun _ => ⟨h, hdate⟩⟩
  unfold yearMonthDayFromDays
  by_cases hv : c.ymdValid = true
  · obtain ⟨hcached, d, hd, hymd⟩ := hc hv
    simp only [YearMonthDay.mk.injEq] at hymd
    have hday := d.one_le_day
    have hlast := d.day_le
    have hlen := monthLength_bounds d.year d.month_lt
    unfold InRange at h hcached
    rw [if_pos hv, int_eq (by omega)]
    simp only [Option.bind_eq_bind, Option.bind_some]
    rw [int_eq (by omega), Option.bind_some]
    by_cases hnew : c.ymdDay + (days - c.ymdDays) ≥ 1 ∧ c.ymdDay + (days - c.ymdDays) ≤ 28
    · -- the same month: the cached day moves by the difference
      have hdate : YearMonthDay.IsDateOf ⟨c.ymdYear, c.ymdMonth, c.ymdDay + (days - c.ymdDays)⟩ days := by
        refine ⟨d.withDay _ hnew, ?_, ?_⟩
        · rw [Date.dayNumber_withDay]
          omega
        · rw [hymd.1, hymd.2.1]
          rfl
      rw [if_pos hnew]
      exact ⟨_, _, rfl, hdate, fun _ => ⟨h, hdate⟩⟩
    · rw [if_neg hnew]
      exact hslow
  · rw [if_neg hv]
    exact hslow

end DateCache

theorem year_bounds {d : Calendar.Date} (h : InRange d.dayNumber) : -280000 ≤ d.year ∧ d.year ≤ 280000 := by
  have hmem := d.dayNumber_mem_year
  have hlen : yearLength d.year ≤ 366 := by unfold yearLength; split <;> omega
  unfold InRange at h
  unfold dayFromYear at hmem
  omega

theorem daysFromYearMonth_date (hy : -280000 ≤ y ∧ y ≤ 280000) (hm : m < 12) :
    daysFromYearMonth y m = some (dayFromYear y + daysBeforeMonth y m) := by
  have hdiv : (m : Int) / 12 = 0 := by omega
  have hmod : ((m : Int) % 12).toNat = m := by omega
  rw [daysFromYearMonth_eq (by omega) (by omega), hdiv, hmod, add_zero, if_pos, add_zero]
  exact Or.inl (by rw [kYearDelta]; omega)

/-- The way back from a date to its day number. -/
theorem YearMonthDay.IsDateOf.days {r : YearMonthDay} {days : Int} (hr : r.IsDateOf days) (h : InRange days) :
    (daysFromYearMonth r.year r.month).map (· + r.day - 1) = some days := by
  obtain ⟨d, rfl, rfl⟩ := hr
  rw [daysFromYearMonth_date (year_bounds h) d.month_lt]
  rfl

end V8Core.Date
