import V8Core.Date.DateString
/-!
# ISO strings are read back

`ToDateString` in ISO mode writes a date-time string of the format, whatever
the time zone and the caches hold, and `ParseDateTimeString` gives back the
time it was written for.
-/

namespace V8Core.Date

open Calendar Decimal SignedInt
open DateParser (chars IsoDateTime IsoYear IsoTime Fraction)

variable (d : Calendar.Date) {n timeMs : Int}

/-! ## Formatting -/

theorem digits_zero (k : Nat) : digits k 0 = List.replicate k 0 := by
  induction k with
  | zero => rfl
  | succ k ih => rw [digits, ih, List.replicate_succ']

variable {width : Nat}

/-- Padding gives the digits at the width if the number fits. -/
theorem zeroPadded_eq {n : Nat} (hw : 0 < width) (h : n < 10 ^ width) : zeroPadded width n = digits width n := by
  induction width generalizing n with
  | zero => omega
  | succ k ih =>
    unfold zeroPadded
    rw [decimalDigits, digits]
    split
    case isTrue hn =>
      rw [Nat.div_eq_of_lt hn, Nat.mod_eq_of_lt hn, digits_zero, List.length_singleton, Nat.add_sub_cancel]
    case isFalse hn =>
      have hdiv : n / 10 < 10 ^ k := by
        rw [Nat.div_lt_iff_lt_mul (by omega)]
        exact h
      have hk : 0 < k := by
        rcases Nat.eq_zero_or_pos k with rfl | hk
        · omega
        · exact hk
      rw [← ih hk hdiv, zeroPadded, List.length_append, List.length_singleton, Nat.add_sub_add_right,
        List.append_assoc]

theorem formatInt_of_nonneg (hn : 0 ≤ n) (hw : 0 < width) (h : n.natAbs < 10 ^ width) :
    formatInt width n = chars (digits width n.natAbs) := by
  rw [formatInt, if_neg (by omega), zeroPadded_eq hw h]

theorem formatInt_eq (n : Nat) (hw : 0 < width) (h : n < 10 ^ width) :
    formatInt width n = chars (digits width n) :=
  formatInt_of_nonneg (Int.natCast_nonneg n) hw h

/-- The fields of the ISO format behind the year. -/
def isoTail (month day hour min sec ms : Int) : List Nat :=
  45 :: (formatInt 2 month ++ 45 :: (formatInt 2 day ++ 84 :: (formatInt 2 hour ++ 58 :: (formatInt 2 min ++
    58 :: (formatInt 2 sec ++ 46 :: (formatInt 3 ms ++ [90]))))))

theorem formatDate_iso (year month day hour min sec ms : Int) :
    formatDate "%04d-%02d-%02dT%02d:%02d:%02d.%03dZ"
      [.int year, .int month, .int day, .int hour, .int min, .int sec, .int ms] =
      some (formatInt 4 year ++ isoTail month day hour min sec ms) := rfl

theorem formatDate_negative (year month day hour min sec ms : Int) :
    formatDate "-%06d-%02d-%02dT%02d:%02d:%02d.%03dZ"
      [.int year, .int month, .int day, .int hour, .int min, .int sec, .int ms] =
      some (45 :: (formatInt 6 year ++ isoTail month day hour min sec ms)) := rfl

theorem formatDate_positive (year month day hour min sec ms : Int) :
    formatDate "+%06d-%02d-%02dT%02d:%02d:%02d.%03dZ"
      [.int year, .int month, .int day, .int hour, .int min, .int sec, .int ms] =
      some (43 :: (formatInt 6 year ++ isoTail month day hour min sec ms)) := rfl

/-! ## The local time keeps the caches -/

variable {z : TimeZone} {c : LocalCache z}

namespace LocalCache

/-- The cached month and the cached offset are what they stand for. -/
structure Coherent (c : LocalCache z) : Prop where
  dates : c.dates.Coherent
  offset : z.icuTimezoneData = false →
    c.localOffsetMs = kInvalidLocalOffsetInMs ∨ ∃ timeMs isUtc, c.localOffsetMs = z.localTimeOffset timeMs isUtc

theorem equivalentTime_spec (hc : c.Coherent) (h : InRange (timeMs / kMsPerDay)) :
    ∃ t c', c.equivalentTime timeMs = some (t, c') ∧ 0 ≤ t ∧ t ≤ kMaxEpochTimeInMs ∧ c'.Coherent := by
  obtain ⟨t, dates, heq, hequiv, hdates⟩ := DateCache.equivalentTime_spec hc.dates h
  refine ⟨t, { c with dates := dates }, ?_, hequiv.1, hequiv.2.1, hdates, hc.offset⟩
  rw [equivalentTime, heq]
  rfl

theorem epochTime_spec (hc : c.Coherent) (h : InRange (timeMs / kMsPerDay)) :
    ∃ t c', c.epochTime timeMs = some (t, c') ∧ 0 ≤ t ∧ t ≤ kMaxEpochTimeInMs ∧ c'.Coherent := by
  unfold epochTime
  split
  case isTrue hin => exact ⟨timeMs, c, rfl, hin.1, hin.2, hc⟩
  case isFalse => exact equivalentTime_spec hc h

theorem daylightSavingsOffsetInMs_spec (hc : c.Coherent) (h : InRange (timeMs / kMsPerDay)) :
    ∃ offset c', c.daylightSavingsOffsetInMs timeMs = some (offset, c') ∧
      (∃ segments timeSec, offset = (z.daylightSavingsOffset segments timeSec).1) ∧ c'.Coherent := by
  obtain ⟨t, c₁, heq, hlow, hhigh, hc₁⟩ := epochTime_spec hc h
  have hbounds : 0 ≤ t.tdiv 1000 ∧ t.tdiv 1000 ≤ 2147483647 := by
    rw [Int.tdiv_eq_ediv_of_nonneg hlow]
    unfold kMaxEpochTimeInMs at hhigh
    omega
  refine ⟨(z.daylightSavingsOffset c₁.segments (t.tdiv 1000)).1,
    { c₁ with segments := (z.daylightSavingsOffset c₁.segments (t.tdiv 1000)).2 }, ?_,
    ⟨_, _, rfl⟩, hc₁.dates, hc₁.offset⟩
  rw [daylightSavingsOffsetInMs, heq, Option.bind_eq_bind, Option.bind_some]
  dsimp only
  rw [int_eq (by omega)]
  rfl

/-- Times up to a month outside the range of `JSDate`. -/
def BeforeUTC (timeMs : Int) : Prop := -kMaxTimeBeforeUTCInMs ≤ timeMs ∧ timeMs ≤ kMaxTimeBeforeUTCInMs

theorem BeforeUTC.inRange {shift : Int} (h : BeforeUTC timeMs) (hs : shift.natAbs ≤ kMsPerDay * 31) :
    InRange ((timeMs - shift) / kMsPerDay) := by
  unfold BeforeUTC kMaxTimeBeforeUTCInMs kMaxTimeInMs at h
  unfold InRange
  rw [kMsPerDay_eq] at *
  omega

theorem BeforeUTC.days (h : BeforeUTC timeMs) : InRange (timeMs / kMsPerDay) := by
  have := h.inRange (show ((0 : Int).natAbs : Int) ≤ kMsPerDay * 31 by decide)
  rwa [sub_zero] at this

theorem getLocalOffsetFromOS_spec (hc : c.Coherent) (h : BeforeUTC timeMs) (isUtc : Bool) :
    ∃ offset c', c.getLocalOffsetFromOS timeMs isUtc = some (offset, c') ∧ offset.natAbs ≤ 2147483648 ∧
      c'.Coherent := by
  have hos := z.localTimeOffset_int timeMs isUtc
  unfold getLocalOffsetFromOS kInvalidLocalOffsetInMs
  split
  case isTrue =>
    rw [int_eq (by omega), Option.bind_eq_bind, Option.bind_some, if_pos hos.2]
    exact ⟨_, c, rfl, by omega, hc⟩
  case isFalse hicu =>
    rw [Bool.not_eq_true] at hicu
    obtain ⟨localOffset, hlocal⟩ : ∃ localOffset, localOffset =
      if c.localOffsetMs == 2147483647 then z.localTimeOffset timeMs isUtc else c.localOffsetMs := ⟨_, rfl⟩
    have hanswer : ∃ timeMs isUtc, localOffset = z.localTimeOffset timeMs isUtc := by
      rw [hlocal]
      split
      case isTrue => exact ⟨timeMs, isUtc, rfl⟩
      case isFalse hv => exact (hc.offset hicu).resolve_left (by simpa [kInvalidLocalOffsetInMs] using hv)
    have hle : -2147483648 ≤ localOffset ∧ localOffset < 2147483647 := by
      obtain ⟨_, _, rfl⟩ := hanswer
      exact z.localTimeOffset_int _ _
    rw [← hlocal]
    have htime : ∃ t, daylightSavingsTime timeMs localOffset isUtc = some t ∧
        InRange (t / kMsPerDay) := by
      cases isUtc with
      | true => exact ⟨timeMs, rfl, h.days⟩
      | false =>
        refine ⟨timeMs - (localOffset + 3600 * 1000), int64_eq ?_, h.inRange (by rw [kMsPerDay_eq]; omega)⟩
        unfold BeforeUTC kMaxTimeBeforeUTCInMs kMaxTimeInMs at h
        rw [kMsPerDay_eq] at h
        omega
    obtain ⟨t, ht, hrange⟩ := htime
    have hc₁ : LocalCache.Coherent { c with localOffsetMs := localOffset } := ⟨hc.dates, fun _ => Or.inr hanswer⟩
    obtain ⟨dst, c', hdst, ⟨segments, timeSec, rfl⟩, hc'⟩ := daylightSavingsOffsetInMs_spec hc₁ hrange
    have hsum : -2147483648 ≤ localOffset + (z.daylightSavingsOffset segments timeSec).1 ∧
        localOffset + (z.daylightSavingsOffset segments timeSec).1 < 2147483647 := by
      obtain ⟨_, _, rfl⟩ := hanswer
      exact z.daylightSavingsOffset_int hicu _ _ _ _
    dsimp only
    rw [ht, Option.bind_eq_bind, Option.bind_some, hdst, Option.bind_eq_bind, Option.bind_some]
    rw [int_eq (by omega), Option.bind_some, if_pos hsum.2]
    exact ⟨_, c', rfl, by omega, hc'⟩

theorem localTimezone_spec (hc : c.Coherent) (h : InRange (timeMs / kMsPerDay)) :
    ∃ name c', c.localTimezone timeMs = some (name, c') ∧ c'.Coherent := by
  obtain ⟨t, c₁, heq, hlow, hhigh, hc₁⟩ := epochTime_spec hc h
  have hrange : InRange (t / kMsPerDay) := by
    unfold kMaxEpochTimeInMs at hhigh
    unfold InRange
    rw [kMsPerDay_eq]
    omega
  obtain ⟨dst, c', hdst, -, hc'⟩ := daylightSavingsOffsetInMs_spec hc₁ hrange
  unfold localTimezone
  rw [heq, Option.bind_eq_bind, Option.bind_some]
  dsimp only
  rw [hdst, Option.bind_some]
  split
  · exact ⟨_, _, rfl, hc'.dates, hc'.offset⟩
  · exact ⟨_, _, rfl, hc'.dates, hc'.offset⟩

theorem toLocal_spec (hc : c.Coherent) (h : BeforeUTC timeMs) :
    ∃ offset c', c.toLocal timeMs = some (timeMs + offset, c') ∧ offset.natAbs ≤ 2147483648 ∧ c'.Coherent := by
  obtain ⟨offset, c', heq, hle, hc'⟩ := getLocalOffsetFromOS_spec hc h true
  refine ⟨offset, c', ?_, hle, hc'⟩
  unfold BeforeUTC kMaxTimeBeforeUTCInMs kMaxTimeInMs at h
  rw [kMsPerDay_eq] at h
  rw [toLocal, heq, Option.bind_eq_bind, Option.bind_some]
  dsimp only
  rw [int64_eq (by omega)]
  rfl

theorem toUTC_spec (hc : c.Coherent) (h : BeforeUTC timeMs) :
    ∃ t c', c.toUTC timeMs = some (t, c') ∧ c'.Coherent := by
  obtain ⟨offset, c', heq, hle, hc'⟩ := getLocalOffsetFromOS_spec hc h false
  refine ⟨timeMs - offset, c', ?_, hc'⟩
  unfold BeforeUTC kMaxTimeBeforeUTCInMs kMaxTimeInMs at h
  rw [kMsPerDay_eq] at h
  rw [toUTC, heq, Option.bind_eq_bind, Option.bind_some]
  dsimp only
  rw [int64_eq (by omega)]
  rfl

theorem timezoneOffset_spec (hc : c.Coherent) (h : BeforeUTC timeMs) :
    ∃ offset c', c.timezoneOffset timeMs = some (offset, c') ∧ offset.natAbs ≤ 35792 ∧ c'.Coherent := by
  obtain ⟨offset, c', heq, hle, hc'⟩ := toLocal_spec hc h
  have hsub : timeMs - (timeMs + offset) = -offset := by ring
  have hdiv : ((-offset).tdiv 60000).natAbs ≤ 35792 := by
    rw [Int.natAbs_tdiv, Int.natAbs_neg]
    exact Nat.div_le_of_le_mul (hle.trans (by decide))
  have hmin : kMsPerMin = 60000 := rfl
  refine ⟨(-offset).tdiv 60000, c', ?_, hdiv, hc'⟩
  rw [timezoneOffset, heq, Option.bind_eq_bind, Option.bind_some]
  dsimp only
  rw [hsub, int64_eq (by omega), Option.bind_eq_bind, Option.bind_some, hmin, int_eq (by omega)]
  rfl

theorem coherent_resetDateCache (c : LocalCache z) : c.resetDateCache.Coherent := by
  refine ⟨c.dates.coherent_resetDateCache, fun hicu => Or.inl ?_⟩
  unfold resetDateCache
  rw [hicu]
  rfl

end LocalCache

/-! ## Breaking down -/

/-- The time within a day. -/
structure TimeOfDay where
  hour : Nat
  min : Nat
  sec : Nat
  ms : Nat
  hour_lt : hour < 24
  min_lt : min < 60
  sec_lt : sec < 60
  ms_lt : ms < 1000

def TimeOfDay.total (t : TimeOfDay) : Int := t.hour * 3600000 + t.min * 60000 + t.sec * 1000 + t.ms

theorem exists_timeOfDay (h : 0 ≤ n ∧ n < 86400000) : ∃ t : TimeOfDay, t.total = n := by
  obtain ⟨k, rfl⟩ := Int.eq_ofNat_of_zero_le h.1
  refine ⟨⟨k / 3600000, k / 60000 % 60, k / 1000 % 60, k % 1000, by omega, by omega, by omega, by omega⟩, ?_⟩
  unfold TimeOfDay.total
  push_cast
  omega

variable (t : TimeOfDay)

theorem TimeOfDay.fields :
    t.total.tdiv (60 * 60 * 1000) = t.hour ∧ (t.total.tdiv (60 * 1000)).tmod 60 = t.min ∧
      (t.total.tdiv 1000).tmod 60 = t.sec ∧ t.total.tmod 1000 = t.ms := by
  have hmin := t.min_lt
  have hsec := t.sec_lt
  have hms := t.ms_lt
  have hnonneg : 0 ≤ t.total := by unfold TimeOfDay.total; omega
  rw [Int.tdiv_eq_ediv_of_nonneg hnonneg, Int.tdiv_eq_ediv_of_nonneg hnonneg, Int.tdiv_eq_ediv_of_nonneg hnonneg,
    Int.tmod_eq_emod_of_nonneg hnonneg, Int.tmod_eq_emod_of_nonneg (Int.ediv_nonneg hnonneg (by decide)),
    Int.tmod_eq_emod_of_nonneg (Int.ediv_nonneg hnonneg (by decide))]
  unfold TimeOfDay.total
  omega

/-- The fields of a time are those of its date and its time of day. -/
theorem DateCache.breakDownTime_spec {c : DateCache} (hc : c.Coherent) {d : Calendar.Date} (hd : InRange d.dayNumber)
    (t : TimeOfDay) :
    ∃ w < 7, ∃ c', c.breakDownTime (d.dayNumber * kMsPerDay + t.total) =
      some (⟨⟨d.year, d.month, d.day⟩, (w : Nat), t.hour, t.min, t.sec, t.ms⟩, c') ∧ c'.Coherent := by
  have htotal : 0 ≤ t.total ∧ t.total < 86400000 := by
    have := t.hour_lt
    have := t.min_lt
    have := t.sec_lt
    have := t.ms_lt
    unfold TimeOfDay.total
    omega
  have hquot : (d.dayNumber * kMsPerDay + t.total) / kMsPerDay = d.dayNumber := by rw [kMsPerDay_eq]; omega
  have hrem : (d.dayNumber * kMsPerDay + t.total) % kMsPerDay = t.total := by rw [kMsPerDay_eq]; omega
  have h : InRange ((d.dayNumber * kMsPerDay + t.total) / kMsPerDay) := by rw [hquot]; exact hd
  obtain ⟨r, c', hr, ⟨d', hd', rfl⟩, hc'⟩ := DateCache.yearMonthDayFromDays_spec hc hd
  obtain rfl := Date.dayNumber_injective hd'
  obtain ⟨hhour, hmin, hsec, hms⟩ := t.fields
  obtain ⟨w, hw⟩ := Int.eq_ofNat_of_zero_le (a := Calendar.weekday d'.dayNumber) (by unfold Calendar.weekday; omega)
  have hlt : Calendar.weekday d'.dayNumber < 7 := by unfold Calendar.weekday; omega
  refine ⟨w, by omega, c', ?_, hc'⟩
  unfold DateCache.breakDownTime
  simp only [Option.bind_eq_bind]
  rw [daysFromTime_eq h, Option.bind_some, timeInDay_eq h, Option.bind_some, hquot, hrem, hr, Option.bind_some]
  unfold InRange at hd
  rw [weekday_eq (by omega), Option.bind_some, hhour, hmin, hsec, hms, hw]

theorem exists_date (h : InRange (n / kMsPerDay)) :
    ∃ (d : Calendar.Date) (t : TimeOfDay), InRange d.dayNumber ∧ n = d.dayNumber * kMsPerDay + t.total := by
  have hc : (⟨false, 0, 0, 0, 0⟩ : DateCache).Coherent := fun hv => by cases hv
  obtain ⟨r, c', hr, ⟨d, hd, rfl⟩, hc'⟩ := DateCache.yearMonthDayFromDays_spec hc h
  obtain ⟨t, ht⟩ := exists_timeOfDay (n := n % kMsPerDay) (by rw [kMsPerDay_eq]; omega)
  refine ⟨d, t, by rw [hd]; exact h, ?_⟩
  rw [hd, ht]
  rw [kMsPerDay_eq]
  omega

/-! ## The text -/

def isoYear (y : Int) (h : y.natAbs < 1000000) : IsoYear :=
  if h4 : 0 ≤ y ∧ y ≤ 9999 then .four y.natAbs (by omega)
  else .six (y < 0) y.natAbs h (by rw [decide_eq_true_eq]; omega)

theorem month_range : 1 ≤ d.month + 1 ∧ d.month + 1 ≤ 12 := by
  have := d.month_lt
  omega

theorem day_range : 1 ≤ d.day.toNat ∧ d.day.toNat ≤ 31 := by
  have := d.one_le_day
  have := d.day_le
  have := monthLength_bounds d.year d.month_lt
  omega

theorem digits_three_ne_nil (n : Nat) : digits 3 n ≠ [] := by
  rw [digits]
  simp

theorem TimeOfDay.hour_ne : t.hour ≠ 24 := Nat.ne_of_lt t.hour_lt

/-- The date-time string that ISO mode writes. -/
def isoDateTime (d : Calendar.Date) (h : d.year.natAbs < 1000000) (t : TimeOfDay) : IsoDateTime where
  year := isoYear d.year h
  monthDay := .monthDay (d.month + 1) d.day.toNat (month_range d) (day_range d)
  time := some
    { hour := t.hour
      minute := t.min
      second := .fraction t.sec t.sec_lt ⟨digits 3 t.ms, isDigits_digits 3 t.ms, digits_three_ne_nil t.ms⟩
      zone := .utc
      hour_le := Nat.le_of_lt t.hour_lt
      minute_lt := t.min_lt
      midnight := fun h => absurd h t.hour_ne }

theorem isoTail_eq (h : d.year.natAbs < 1000000) (t : TimeOfDay) :
    isoTail (d.month + 1) d.day t.hour t.min t.sec t.ms =
      (isoDateTime d h t).monthDay.text ++ DateParser.timeText (isoDateTime d h t).time := by
  have hmonth := d.month_lt
  have hday : d.day = (d.day.toNat : Int) := by have := d.one_le_day; omega
  have hle : d.day.toNat ≤ 31 := by
    have := d.day_le
    have := monthLength_bounds d.year d.month_lt
    omega
  have hhour := t.hour_lt
  have hmin := t.min_lt
  have hsec := t.sec_lt
  have hms := t.ms_lt
  have hsucc : (d.month : Int) + 1 = ((d.month + 1 : Nat) : Int) := by rfl
  unfold isoTail
  rw [hday, hsucc, formatInt_eq _ (by omega) (by omega), formatInt_eq _ (by omega) (by omega),
    formatInt_eq _ (by omega) (by omega), formatInt_eq _ (by omega) (by omega), formatInt_eq _ (by omega) (by omega),
    formatInt_eq _ (by omega) (by omega)]
  simp only [isoDateTime, DateParser.IsoMonthDay.text, DateParser.timeText, Option.elim_some, IsoTime.text,
    DateParser.IsoSecond.text, DateParser.IsoZone.text, DateParser.twoDigits, List.append_assoc, List.cons_append]

theorem formatTime_iso (h : d.year.natAbs < 1000000) (t : TimeOfDay) {w : Nat} (hw : w < 7) (zone : PrintedZone) :
    formatTime .kISODateAndTime ⟨⟨d.year, d.month, d.day⟩, w, t.hour, t.min, t.sec, t.ms⟩ zone =
      some (isoDateTime d h t).text := by
  have hweek : kShortWeekDays[(w : Int).toNat]? = some kShortWeekDays[w] := List.getElem?_eq_getElem hw
  have hmonth : kShortMonths[(d.month : Int).toNat]? = some (kShortMonths.get ⟨d.month, d.month_lt⟩) :=
    List.getElem?_eq_getElem d.month_lt
  unfold formatTime
  rw [hweek, hmonth]
  simp only
  have htext : (isoDateTime d h t).text =
      (isoYear d.year h).text ++ isoTail (d.month + 1) d.day t.hour t.min t.sec t.ms := by
    rw [isoTail_eq d h t]
    rfl
  rw [htext, isoYear]
  by_cases h4 : 0 ≤ d.year ∧ d.year ≤ 9999
  · rw [if_pos h4, dif_pos h4]
    refine (formatDate_iso _ _ _ _ _ _ _).trans ?_
    rw [formatInt_of_nonneg h4.1 (by omega) (by omega)]
    rfl
  · rw [if_neg h4, dif_neg h4]
    by_cases hneg : d.year < 0
    · rw [if_pos hneg]
      refine (formatDate_negative _ _ _ _ _ _ _).trans ?_
      rw [formatInt_of_nonneg (by omega) (by omega) (by omega), Int.natAbs_neg]
      simp only [IsoYear.text, hneg, decide_true, if_true, List.cons_append]
    · rw [if_neg hneg]
      refine (formatDate_positive _ _ _ _ _ _ _).trans ?_
      rw [formatInt_of_nonneg (by omega) (by omega) (by omega)]
      simp only [IsoYear.text, hneg, decide_false, Bool.false_eq_true, if_false, List.cons_append]

/-- The output of the parser for the text. -/
theorem parse_isoDateTime (h : d.year.natAbs < 1000000) (t : TimeOfDay) :
    DateParser.parse (isoDateTime d h t).text =
      some (some ⟨d.year, d.month, d.day, t.hour, t.min, t.sec, t.ms, some 0⟩) := by
  have hyear : (isoYear d.year h).value = d.year := by
    unfold isoYear
    split
    · rw [IsoYear.value]; omega
    · simp only [IsoYear.value, decide_eq_true_eq]
      split_ifs <;> omega
  have hms : DateParser.IsoSecond.read (.fraction t.sec t.sec_lt ⟨digits 3 t.ms, isDigits_digits 3 t.ms, by
      rw [digits]; simp⟩) = t.ms := by
    rw [DateParser.IsoSecond.read, Fraction.read_short (by simp), Fraction.milliseconds_short (by simp),
      length_digits, value_digits_of_lt t.ms_lt, pow_zero, mul_one]
  have hday : ((d.day.toNat : Nat) : Int) = d.day := by have := d.one_le_day; omega
  rw [DateParser.parse_text]
  simp only [isoDateTime, IsoDateTime.denotes, Option.elim_some, hms, hyear, DateParser.IsoMonthDay.monthValue,
    DateParser.IsoMonthDay.dayValue, hday, DateParser.IsoSecond.secondValue, DateParser.IsoZone.seconds,
    Nat.cast_add, Nat.cast_one, add_sub_cancel_right]

/-! ## Putting the fields together -/

theorem isInt_makeTime :
    (makeTime (.ofRat (t.hour : Int)) (.ofRat (t.min : Int)) (.ofRat (t.sec : Int)) (.ofRat (t.ms : Int))).IsInt
      t.total := by
  have hhourLt := t.hour_lt
  have hminLt := t.min_lt
  have hsecLt := t.sec_lt
  have hmsLt := t.ms_lt
  have hhour := Double.isInt_ofRat (n := (t.hour : Int)) (by omega)
  have hmin := Double.isInt_ofRat (n := (t.min : Int)) (by omega)
  have hsec := Double.isInt_ofRat (n := (t.sec : Int)) (by omega)
  have hms := Double.isInt_ofRat (n := (t.ms : Int)) (by omega)
  unfold makeTime TimeOfDay.total
  rw [hhour.1, hmin.1, hsec.1, hms.1]
  refine Double.isInt_add (Double.isInt_add (Double.isInt_add ?_ ?_ ?_) ?_ ?_) (isInt_doubleToInteger hms) ?_
  · exact Double.isInt_mul (isInt_doubleToInteger hhour) (Double.isInt_ofRat (by decide)) (by omega)
  · exact Double.isInt_mul (isInt_doubleToInteger hmin) (Double.isInt_ofRat (by decide)) (by omega)
  · omega
  · exact Double.isInt_mul (isInt_doubleToInteger hsec) (Double.isInt_ofRat (by decide)) (by omega)
  · omega
  · omega

theorem isInt_makeDay {d : Calendar.Date} (hd : InRange d.dayNumber) :
    ∃ r, makeDay (.ofRat d.year) (.ofRat (d.month : Int)) (.ofRat d.day) = some r ∧ r.IsInt d.dayNumber := by
  have hyear := year_bounds hd
  have hmonth := d.month_lt
  have hday : 1 ≤ d.day ∧ d.day ≤ 31 := by
    have := d.day_le
    have := monthLength_bounds d.year d.month_lt
    exact ⟨d.one_le_day, by omega⟩
  obtain ⟨r, hr, hT⟩ := makeDay_eq (Double.isInt_ofRat (n := d.year) (by omega))
    (Double.isInt_ofRat (n := (d.month : Int)) (by omega)) (Double.isInt_ofRat (n := d.day) (by omega))
    (by omega) (by omega)
  have hdiv : (d.month : Int) / 12 = 0 := by omega
  have hmod : ((d.month : Int) % 12).toNat = d.month := by omega
  have hfirst : (firstOfMonth d.year d.month).dayNumber + (d.day - 1) = d.dayNumber := by
    simp only [Date.dayNumber, firstOfMonth, hdiv, hmod, add_zero]
    omega
  have hbias : BiasedYear (d.year + (d.month : Int) / 12) := by
    rw [hdiv]
    exact Or.inl (by rw [kYearDelta]; omega)
  refine ⟨r, hr, (hT _).mpr ?_⟩
  rw [hfirst, if_pos hbias, add_zero]
  unfold InRange at hd
  exact Double.isInt_ofRat (by omega)

theorem isInt_timeClip {x : Double} (hx : x.IsInt n) (hn : -kMaxTimeInMs ≤ n ∧ n ≤ kMaxTimeInMs) :
    (timeClip x).IsInt n := by
  unfold timeClip
  rw [Double.le_isInt (Double.isInt_ofRat (by decide)) hx, Double.le_isInt hx (Double.isInt_ofRat (by decide)),
    if_pos (by simp [hn])]
  exact isInt_doubleToInteger hx

/-- Reading the text of a date and time of day gives its time, and asks nothing of the caches. -/
theorem parseDateTimeString_iso {d : Calendar.Date} (hd : InRange d.dayNumber) (h : d.year.natAbs < 1000000)
    (t : TimeOfDay) (hn : -kMaxTimeInMs ≤ n ∧ n ≤ kMaxTimeInMs) (heq : n = d.dayNumber * kMsPerDay + t.total)
    {z : TimeZone} (c : LocalCache z) :
    ∃ r, parseDateTimeString (isoDateTime d h t).text c = some (r, c) ∧ r.IsInt n := by
  have hbounds : -8640000000000000 ≤ n ∧ n ≤ 8640000000000000 := hn
  obtain ⟨day, hday, hdayInt⟩ := isInt_makeDay hd
  have htime := isInt_makeTime t
  unfold parseDateTimeString
  rw [parse_isoDateTime]
  simp only [Option.bind_eq_bind, Option.bind_some]
  rw [hday]
  refine ⟨_, rfl, isInt_timeClip ?_ hn⟩
  have hdate : (makeDate day (makeTime (.ofRat (t.hour : Int)) (.ofRat (t.min : Int)) (.ofRat (t.sec : Int))
      (.ofRat (t.ms : Int)))).IsInt n := by
    unfold makeDate
    unfold InRange at hd
    rw [hdayInt.1, htime.1, if_pos (by rfl)]
    have hsum : t.total + d.dayNumber * 86400000 = n := by rw [kMsPerDay_eq] at heq; omega
    have hmul : (day.mul (.ofRat (86400000 : Int))).IsInt (d.dayNumber * 86400000) :=
      Double.isInt_mul hdayInt (Double.isInt_ofRat (by decide)) (by omega)
    exact hsum ▸ Double.isInt_add htime hmul (by omega)
  have hzero : ((Double.ofRat (0 : Int)).mul (.ofRat (1000 : Int))).IsInt 0 :=
    Double.isInt_mul (Double.isInt_ofRat (by decide)) (Double.isInt_ofRat (by decide)) (by decide)
  exact sub_zero n ▸ Double.isInt_sub hdate hzero (by omega)

/-! ## Runs -/

/-- The calls of the methods of `DateCache`, with times up to a month outside the range of `JSDate`. -/
inductive LocalCall where
  | yearMonthDayFromDays (days : Int) (h : InRange days)
  | equivalentTime (timeMs : Int) (h : LocalCache.BeforeUTC timeMs)
  | breakDownTime (timeMs : Int) (h : LocalCache.BeforeUTC timeMs)
  | toLocal (timeMs : Int) (h : LocalCache.BeforeUTC timeMs)
  | toUTC (timeMs : Int) (h : LocalCache.BeforeUTC timeMs)
  | timezoneOffset (timeMs : Int) (h : LocalCache.BeforeUTC timeMs)
  | localTimezone (timeMs : Int) (h : LocalCache.BeforeUTC timeMs)
  | resetDateCache

namespace LocalCache

/-- What a call leaves of the caches. -/
def call (c : LocalCache z) : LocalCall → Option (LocalCache z)
  | .yearMonthDayFromDays days _ =>
    (c.dates.yearMonthDayFromDays days).map fun (_, dates) => { c with dates := dates }
  | .equivalentTime timeMs _ => (c.equivalentTime timeMs).map Prod.snd
  | .breakDownTime timeMs _ => (c.dates.breakDownTime timeMs).map fun (_, dates) => { c with dates := dates }
  | .toLocal timeMs _ => (c.toLocal timeMs).map Prod.snd
  | .toUTC timeMs _ => (c.toUTC timeMs).map Prod.snd
  | .timezoneOffset timeMs _ => (c.timezoneOffset timeMs).map Prod.snd
  | .localTimezone timeMs _ => (c.localTimezone timeMs).map Prod.snd
  | .resetDateCache => some c.resetDateCache

def run (c : LocalCache z) (calls : List LocalCall) : Option (LocalCache z) := calls.foldlM call c

theorem call_spec (hc : c.Coherent) (call : LocalCall) :
    ∃ c', c.call call = some c' ∧ c'.Coherent := by
  cases call with
  | yearMonthDayFromDays days h =>
    obtain ⟨r, dates, heq, -, hdates⟩ := DateCache.yearMonthDayFromDays_spec hc.dates h
    exact ⟨{ c with dates := dates }, by rw [LocalCache.call, heq]; rfl, hdates, hc.offset⟩
  | equivalentTime timeMs h =>
    obtain ⟨t, c', heq, -, -, hc'⟩ := equivalentTime_spec hc h.days
    exact ⟨c', by rw [LocalCache.call, heq]; rfl, hc'⟩
  | breakDownTime timeMs h =>
    obtain ⟨d, t, hd, rfl⟩ := exists_date h.days
    obtain ⟨w, -, dates, heq, hdates⟩ := DateCache.breakDownTime_spec hc.dates hd t
    exact ⟨{ c with dates := dates }, by rw [LocalCache.call, heq]; rfl, hdates, hc.offset⟩
  | toLocal timeMs h =>
    obtain ⟨offset, c', heq, -, hc'⟩ := toLocal_spec hc h
    exact ⟨c', by rw [LocalCache.call, heq]; rfl, hc'⟩
  | toUTC timeMs h =>
    obtain ⟨t, c', heq, hc'⟩ := toUTC_spec hc h
    exact ⟨c', by rw [LocalCache.call, heq]; rfl, hc'⟩
  | timezoneOffset timeMs h =>
    obtain ⟨offset, c', heq, -, hc'⟩ := timezoneOffset_spec hc h
    exact ⟨c', by rw [LocalCache.call, heq]; rfl, hc'⟩
  | localTimezone timeMs h =>
    obtain ⟨name, c', heq, hc'⟩ := localTimezone_spec hc h.days
    exact ⟨c', by rw [LocalCache.call, heq]; rfl, hc'⟩
  | resetDateCache => exact ⟨_, rfl, c.coherent_resetDateCache⟩

theorem run_spec (hc : c.Coherent) (calls : List LocalCall) :
    ∃ c', c.run calls = some c' ∧ c'.Coherent := by
  induction calls generalizing c with
  | nil => exact ⟨c, rfl, hc⟩
  | cons call calls ih =>
    obtain ⟨c₁, hcall, hc₁⟩ := call_spec hc call
    obtain ⟨c₂, hrun, hc₂⟩ := ih hc₁
    refine ⟨c₂, ?_, hc₂⟩
    rw [run, List.foldlM_cons, hcall]
    exact hrun

end LocalCache

/-- Writing in ISO mode from coherent caches. -/
theorem toDateString_iso {d : Calendar.Date} (hd : InRange d.dayNumber) (h : d.year.natAbs < 1000000) (t : TimeOfDay)
    {x : Double} (hx : x.IsInt n) (hn : -kMaxTimeInMs ≤ n ∧ n ≤ kMaxTimeInMs)
    (heq : n = d.dayNumber * kMsPerDay + t.total) {z : TimeZone} {c : LocalCache z} (hc : c.Coherent) :
    ∃ c', toDateString x c .kISODateAndTime = some ((isoDateTime d h t).text, c') := by
  have hbounds : -8640000000000000 ≤ n ∧ n ≤ 8640000000000000 := hn
  have hbefore : LocalCache.BeforeUTC n := by
    unfold LocalCache.BeforeUTC kMaxTimeBeforeUTCInMs
    rw [kMsPerDay_eq]
    omega
  obtain ⟨w, hw, dates, hbreak, hdates⟩ := DateCache.breakDownTime_spec hc.dates hd t
  have hc₁ : LocalCache.Coherent { c with dates := dates } := ⟨hdates, hc.offset⟩
  obtain ⟨offset, c₂, hoffset, hle, hc₂⟩ := LocalCache.timezoneOffset_spec hc₁ hbefore
  obtain ⟨name, c₃, hname, -⟩ := LocalCache.localTimezone_spec hc₂ hbefore.days
  have hprinted : printedTime .kISODateAndTime c n = some (n, c) := if_pos (Or.inr rfl)
  rw [← heq] at hbreak
  refine ⟨c₃, ?_⟩
  unfold toDateString
  rw [Double.isNaN_of_isFinite hx.1, Double.trunc_isInt hx]
  simp only [Bool.false_eq_true, if_false, Option.bind_eq_bind]
  rw [int64_eq (by omega), Option.bind_some, hprinted, Option.bind_some]
  rw [hbreak, Option.bind_some]
  rw [hoffset, Option.bind_some]
  rw [int_eq (by omega), Option.bind_some, hname, Option.bind_some]
  rw [formatTime_iso d h t hw, Option.bind_some]

/-- The text that ISO mode writes for a time depends on nothing else, and reading it gives the time back: for
every time zone, and after every sequence of calls on the cache. -/
theorem toDateString_parseDateTimeString {x : Double} {n : Int} (hx : x.IsInt n)
    (hn : -kMaxTimeInMs ≤ n ∧ n ≤ kMaxTimeInMs) :
    ∃ text,
      (∀ (z : TimeZone) (c : LocalCache z) (calls : List LocalCall), ∃ c₁ c₂,
        c.resetDateCache.run calls = some c₁ ∧ toDateString x c₁ .kISODateAndTime = some (text, c₂)) ∧
      ∀ (z : TimeZone) (c : LocalCache z), ∃ r, parseDateTimeString text c = some (r, c) ∧ r.IsInt n := by
  have hrange : InRange (n / kMsPerDay) := by
    have hbounds : -8640000000000000 ≤ n ∧ n ≤ 8640000000000000 := hn
    unfold InRange
    rw [kMsPerDay_eq]
    omega
  obtain ⟨d, t, hd, heq⟩ := exists_date hrange
  have h : d.year.natAbs < 1000000 := by have := year_bounds hd; omega
  refine ⟨(isoDateTime d h t).text, fun z c calls => ?_, fun z c => parseDateTimeString_iso hd h t hn heq c⟩
  obtain ⟨c₁, hrun, hc₁⟩ := LocalCache.run_spec c.coherent_resetDateCache calls
  obtain ⟨c₂, htext⟩ := toDateString_iso hd h t hx hn heq hc₁
  exact ⟨c₁, c₂, hrun, htext⟩

/-- The last millisecond before the epoch: written in UTC, after a call for the local time, and read 24 hours and
59 minutes ahead of it. -/
theorem toDateString_parseDateTimeString_beforeEpoch : ∃ text c₁ c₂ r,
    (LocalCache.resetDateCache ⟨⟨false, 0, 0, 0, 0⟩, (), 0, none, none⟩ : LocalCache .utc).run
      [.toLocal 0 ⟨by decide, by decide⟩] = some c₁ ∧
    toDateString (.ofRat (-1 : Int)) c₁ .kISODateAndTime = some (text, c₂) ∧
    (parseDateTimeString text (⟨⟨false, 0, 0, 0, 0⟩, (), 89940000, none, none⟩ :
      LocalCache (.fixed 89940000 1 0 (by decide)))).map Prod.fst = some r ∧ r.IsInt (-1) := by
  obtain ⟨text, hwrite, hread⟩ :=
    toDateString_parseDateTimeString (Double.isInt_ofRat (show (-1 : Int).natAbs ≤ 2 ^ 53 by decide)) (by decide)
  obtain ⟨c₁, c₂, hrun, htext⟩ := hwrite .utc ⟨⟨false, 0, 0, 0, 0⟩, (), 0, none, none⟩ [.toLocal 0 ⟨by decide, by decide⟩]
  obtain ⟨r, hparse, hr⟩ := hread (.fixed 89940000 1 0 (by decide)) ⟨⟨false, 0, 0, 0, 0⟩, (), 89940000, none, none⟩
  exact ⟨text, c₁, c₂, r, hrun, htext, congrArg (Option.map Prod.fst) hparse, hr⟩

end V8Core.Date
