import V8Core.Date.DateCache
/-!
# Whole runs of the date cache

The equivalent time keeps everything about a time but its year. Then any
sequence of break-downs, equivalent times and resets: each call gives what the
calendar says, whatever month the calls before it left in the cache.
-/

namespace V8Core.Date

open Calendar
open SignedInt

/-! ## The equivalent year -/

theorem weekday_eq {days : Int} (h : -2147483648 ≤ days + 4 ∧ days + 4 ≤ 2147483647) :
    DateCache.weekday days = some (weekday days) := by
  unfold DateCache.weekday Calendar.weekday
  rw [int_eq h]
  simp only [Option.bind_eq_bind, Option.bind_some]
  rw [tmod_eq_sub (by omega)]
  split_ifs <;> simp only [Option.some.injEq] <;> omega

/-- The year the formula picks for a weekday and a kind of year. -/
def recentYear (leap : Bool) (weekDay : Int) : Int :=
  2008 + ((if leap then 1956 else 1967) + (weekDay * 12).tmod 28 + 3 * 28 - 2008).tmod 28

theorem recentYear_spec (leap : Bool) {w : Int} (hw : 0 ≤ w ∧ w < 7) :
    2008 ≤ recentYear leap w ∧ recentYear leap w ≤ 2035 ∧ (IsLeap (recentYear leap w) ↔ leap = true) ∧
      weekday (dayFromYear (recentYear leap w)) = w := by
  obtain ⟨h0, h7⟩ := hw
  interval_cases w <;> cases leap <;> decide

variable {y timeMs : Int} {c : DateCache}

theorem equivalentYear_spec (hy : -280000 ≤ y ∧ y ≤ 280000) :
    ∃ y', DateCache.equivalentYear y = some y' ∧ 2008 ≤ y' ∧ y' ≤ 2035 ∧ (IsLeap y' ↔ IsLeap y) ∧
      weekday (dayFromYear y') = weekday (dayFromYear y) := by
  have hfirst : -110000000 ≤ dayFromYear y ∧ dayFromYear y ≤ 110000000 := by unfold dayFromYear; omega
  have hw : 0 ≤ weekday (dayFromYear y) ∧ weekday (dayFromYear y) < 7 := by unfold Calendar.weekday; omega
  obtain ⟨hlow, hhigh, hleap, hday⟩ := recentYear_spec (DateCache.isLeap y) hw
  refine ⟨_, ?_, hlow, hhigh, hleap.trans (isLeap_iff y), hday⟩
  have hzero : daysFromYearMonth y 0 = some (dayFromYear y) := by
    have := daysFromYearMonth_date hy (m := 0) (by omega)
    rwa [daysBeforeMonth, add_zero] at this
  unfold DateCache.equivalentYear
  rw [hzero]
  simp only [Option.bind_eq_bind, Option.bind_some]
  rw [weekday_eq (by omega)]
  rfl

/-! ## The equivalent time -/

theorem monthLength_congr {y' : Int} (h : IsLeap y' ↔ IsLeap y) (m : Nat) : monthLength y' m = monthLength y m := by
  unfold monthLength
  simp only [h]

theorem daysBeforeMonth_congr {y' : Int} (h : IsLeap y' ↔ IsLeap y) (m : Nat) :
    daysBeforeMonth y' m = daysBeforeMonth y m := by
  induction m with
  | zero => rfl
  | succ m ih => rw [daysBeforeMonth, daysBeforeMonth, ih, monthLength_congr h]

/-- The two times differ in the year only, and the second is one the operating system knows. -/
def IsEquivalentTime (timeMs t : Int) : Prop :=
  0 ≤ t ∧ t ≤ kMaxEpochTimeInMs ∧ t % kMsPerDay = timeMs % kMsPerDay ∧
    weekday (t / kMsPerDay) = weekday (timeMs / kMsPerDay) ∧
    ∃ d d' : Calendar.Date, d.dayNumber = timeMs / kMsPerDay ∧ d'.dayNumber = t / kMsPerDay ∧
      d'.month = d.month ∧ d'.day = d.day

theorem kMsPerDay_eq : kMsPerDay = 86400000 := by decide

theorem daysFromTime_eq (h : InRange (timeMs / kMsPerDay)) :
    daysFromTime timeMs = some (timeMs / kMsPerDay) := by
  unfold InRange at h
  unfold daysFromTime
  rw [kMsPerDay_eq] at h ⊢
  by_cases hneg : timeMs < 0
  · rw [if_pos hneg, int64_eq (by omega)]
    simp only [Option.bind_eq_bind, Option.bind_some]
    rw [tdiv_eq_add (by omega), int_eq (by omega), Option.some.injEq]
    omega
  · rw [if_neg hneg]
    simp only [Option.bind_eq_bind, Option.bind_some]
    rw [Int.tdiv_eq_ediv_of_nonneg (by omega), int_eq (by omega)]

theorem timeInDay_eq (h : InRange (timeMs / kMsPerDay)) :
    timeInDay timeMs (timeMs / kMsPerDay) = some (timeMs % kMsPerDay) := by
  unfold InRange at h
  unfold timeInDay
  rw [kMsPerDay_eq] at h ⊢
  rw [int64_eq (by omega)]
  simp only [Option.bind_eq_bind, Option.bind_some]
  rw [int64_eq (by omega), Option.bind_some, int_eq (by omega), Option.some.injEq]
  omega

theorem DateCache.equivalentTime_spec (hc : c.Coherent)
    (h : InRange (timeMs / kMsPerDay)) :
    ∃ t c', c.equivalentTime timeMs = some (t, c') ∧ IsEquivalentTime timeMs t ∧ c'.Coherent := by
  obtain ⟨r, c', hr, ⟨d, hd, rfl⟩, hc'⟩ := DateCache.yearMonthDayFromDays_spec hc h
  have hyear := year_bounds (d := d) (by rw [hd]; exact h)
  obtain ⟨y', hy', hlow, hhigh, hleap, hweek⟩ := equivalentYear_spec hyear
  -- the same day of the equivalent year
  obtain ⟨d', hd'⟩ : ∃ d' : Calendar.Date, d' = ⟨y', d.month, d.day, d.month_lt, d.one_le_day,
    (monthLength_congr hleap d.month).symm ▸ d.day_le⟩ := ⟨_, rfl⟩
  have hnum : d'.dayNumber = dayFromYear y' + daysBeforeMonth y' d.month + d.day - 1 := by rw [hd']; rfl
  have hmem := d'.dayNumber_mem_year
  have hbounds : 0 ≤ d'.dayNumber ∧ d'.dayNumber < 24107 := by
    have hlen : yearLength d'.year ≤ 366 := by unfold yearLength; split <;> omega
    have heq : d'.year = y' := by rw [hd']
    unfold dayFromYear at hmem
    omega
  refine ⟨d'.dayNumber * kMsPerDay + timeMs % kMsPerDay, c', ?_, ⟨?_, ?_, ?_, ?_, d, d', hd, ?_, ?_, ?_⟩, hc'⟩
  · unfold DateCache.equivalentTime
    rw [daysFromTime_eq h]
    simp only [Option.bind_eq_bind, Option.bind_some]
    rw [timeInDay_eq h, Option.bind_some, hr, Option.bind_some]
    rw [hy', Option.bind_some, daysFromYearMonth_date (by omega) d.month_lt, Option.bind_some, ← hnum,
      int_eq (by omega), Option.bind_some, kMsPerDay_eq, int64_eq (by omega), Option.bind_some,
      int64_eq (by omega), Option.bind_some]
  · rw [kMsPerDay_eq]; omega
  · rw [kMsPerDay_eq, kMaxEpochTimeInMs]; omega
  · rw [kMsPerDay_eq]; omega
  · have hquot : (d'.dayNumber * kMsPerDay + timeMs % kMsPerDay) / kMsPerDay = d'.dayNumber := by
      rw [kMsPerDay_eq]; omega
    rw [hquot, ← hd, hnum, daysBeforeMonth_congr hleap, Date.dayNumber]
    unfold Calendar.weekday at hweek ⊢
    omega
  · rw [kMsPerDay_eq]; omega
  · rw [hd']
  · rw [hd']

/-! ## Runs -/

/-- The calls that read or write the cached month, with arguments in the range of `JSDate`. -/
inductive Call where
  | yearMonthDayFromDays (days : Int) (h : InRange days)
  | equivalentTime (timeMs : Int) (h : InRange (timeMs / kMsPerDay))
  | resetDateCache

inductive Reply where
  | date (r : YearMonthDay)
  | time (t : Int)
  | done

def DateCache.call (c : DateCache) : Call → Option (Reply × DateCache)
  | .yearMonthDayFromDays days _ => (c.yearMonthDayFromDays days).map fun (r, c) => (.date r, c)
  | .equivalentTime timeMs _ => (c.equivalentTime timeMs).map fun (t, c) => (.time t, c)
  | .resetDateCache => some (.done, c.resetDateCache)

/-- The replies of a sequence of calls, with the cache handed from each to the next. -/
def DateCache.run (c : DateCache) : List Call → Option (List Reply × DateCache)
  | [] => some ([], c)
  | call :: calls => do
    let (reply, c) ← c.call call
    let (replies, c) ← c.run calls
    some (reply :: replies, c)

/-- What the calendar says about a call. -/
def Call.IsAnswer : Call → Reply → Prop
  | .yearMonthDayFromDays days _, .date r =>
    r.IsDateOf days ∧ (∀ r' : YearMonthDay, r'.IsDateOf days → r' = r) ∧
      (daysFromYearMonth r.year r.month).map (· + r.day - 1) = some days
  | .equivalentTime timeMs _, .time t => IsEquivalentTime timeMs t
  | .resetDateCache, .done => True
  | _, _ => False

theorem DateCache.call_spec (hc : c.Coherent) (call : Call) :
    ∃ reply c', c.call call = some (reply, c') ∧ call.IsAnswer reply ∧ c'.Coherent := by
  cases call with
  | yearMonthDayFromDays days h =>
    obtain ⟨r, c', hr, hdate, hc'⟩ := DateCache.yearMonthDayFromDays_spec hc h
    exact ⟨.date r, c', by rw [DateCache.call, hr]; rfl, ⟨hdate, fun _ => hdate.unique, hdate.days h⟩, hc'⟩
  | equivalentTime timeMs h =>
    obtain ⟨t, c', ht, hequiv, hc'⟩ := DateCache.equivalentTime_spec hc h
    exact ⟨.time t, c', by rw [DateCache.call, ht]; rfl, hequiv, hc'⟩
  | resetDateCache => exact ⟨.done, _, rfl, trivial, c.coherent_resetDateCache⟩

theorem DateCache.run_spec (hc : c.Coherent) (calls : List Call) :
    ∃ replies c', c.run calls = some (replies, c') ∧ List.Forall₂ Call.IsAnswer calls replies ∧ c'.Coherent := by
  induction calls generalizing c with
  | nil => exact ⟨[], c, rfl, .nil, hc⟩
  | cons call calls ih =>
    obtain ⟨reply, c₁, hcall, hanswer, hc₁⟩ := DateCache.call_spec hc call
    obtain ⟨replies, c₂, hrun, hanswers, hc₂⟩ := ih hc₁
    refine ⟨reply :: replies, c₂, ?_, .cons hanswer hanswers, hc₂⟩
    rw [DateCache.run, hcall]
    simp only [Option.bind_eq_bind, Option.bind_some]
    rw [hrun, Option.bind_some]

/-- From a fresh cache, every call of every sequence is answered as the calendar says: the cached month never
shows. -/
theorem dateCache_run_calendar (c : DateCache) (calls : List Call) :
    ∃ replies c', c.resetDateCache.run calls = some (replies, c') ∧ List.Forall₂ Call.IsAnswer calls replies := by
  obtain ⟨replies, c', hrun, hanswers, -⟩ := DateCache.run_spec c.coherent_resetDateCache calls
  exact ⟨replies, c', hrun, hanswers⟩

end V8Core.Date
