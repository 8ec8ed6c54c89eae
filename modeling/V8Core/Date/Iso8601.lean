import V8Core.Date.DateParser
import Mathlib.Data.List.TakeWhile
import Mathlib.Tactic.IntervalCases
/-!
# Date-time strings and what the parser makes of them

The date-time string format of ECMAScript as a type whose values are the
strings with all fields in range, the text of each and the fields it denotes.
The parser gets every field right, with one exception: a fraction of a second
with more than nine digits that starts with a zero.
-/

namespace V8Core.Date.DateParser

open Decimal

variable {c : Nat} {ds : List Nat} {k : Nat} {s : List Nat} {n : Nat}

/-! ## The format -/

/-- The characters of a digit string. -/
def chars (ds : List Nat) : List Nat := ds.map (· + 48)

/-- A number with two digits. -/
def twoDigits (n : Nat) : List Nat := chars (digits 2 n)

inductive IsoYear where
  | four (y : Nat) (h : y < 10000)
  | six (negative : Bool) (y : Nat) (h : y < 1000000) (hz : negative = true → y ≠ 0)

namespace IsoYear

def text : IsoYear → List Nat
  | four y _ => chars (digits 4 y)
  | six negative y _ _ => (if negative then 45 else 43) :: chars (digits 6 y)

def value : IsoYear → Int
  | four y _ => y
  | six negative y _ _ => if negative then -y else y

end IsoYear

inductive IsoMonthDay where
  | none
  | month (m : Nat) (h : 1 ≤ m ∧ m ≤ 12)
  | monthDay (m d : Nat) (h : 1 ≤ m ∧ m ≤ 12) (hd : 1 ≤ d ∧ d ≤ 31)

namespace IsoMonthDay

def text : IsoMonthDay → List Nat
  | none => []
  | month m _ => 45 :: twoDigits m
  | monthDay m d _ _ => 45 :: twoDigits m ++ 45 :: twoDigits d

def monthValue : IsoMonthDay → Nat
  | none => 1
  | month m _ => m
  | monthDay m _ _ _ => m

def dayValue : IsoMonthDay → Nat
  | monthDay _ d _ _ => d
  | _ => 1

end IsoMonthDay

/-- The digits of a fraction of a second. -/
structure Fraction where
  digits : List Nat
  isDigits : IsDigits digits
  ne_nil : digits ≠ []

/-- The first three digits, padded with zeros on the right. -/
def Fraction.milliseconds (f : Fraction) : Nat := value ((f.digits ++ [0, 0]).take 3)

inductive IsoSecond where
  | none
  | second (s : Nat) (h : s < 60)
  | fraction (s : Nat) (h : s < 60) (f : Fraction)

namespace IsoSecond

def text : IsoSecond → List Nat
  | none => []
  | second s _ => 58 :: twoDigits s
  | fraction s _ f => 58 :: twoDigits s ++ 46 :: chars f.digits

def secondValue : IsoSecond → Nat
  | none => 0
  | second s _ => s
  | fraction s _ _ => s

def milliseconds : IsoSecond → Nat
  | fraction _ _ f => f.milliseconds
  | _ => 0

/-- Nothing but zeros. -/
def IsZero : IsoSecond → Prop
  | none => True
  | second s _ => s = 0
  | fraction s _ f => s = 0 ∧ value f.digits = 0

end IsoSecond

inductive IsoZone where
  | localTime
  | utc
  | offset (negative : Bool) (hour minute : Nat) (hh : hour < 24) (hm : minute < 60)

namespace IsoZone

def text : IsoZone → List Nat
  | localTime => []
  | utc => [90]
  | offset negative hour minute _ _ => (if negative then 45 else 43) :: twoDigits hour ++ 58 :: twoDigits minute

/-- The offset in seconds; a time without a zone has none. -/
def seconds : IsoZone → Option Int
  | localTime => none
  | utc => some 0
  | offset negative hour minute _ _ =>
    some (if negative then -(hour * 3600 + minute * 60 : Int) else (hour * 3600 + minute * 60 : Int))

end IsoZone

/-- A time of day; hour 24 is the end of the day. -/
structure IsoTime where
  hour : Nat
  minute : Nat
  second : IsoSecond
  zone : IsoZone
  hour_le : hour ≤ 24
  minute_lt : minute < 60
  midnight : hour = 24 → minute = 0 ∧ second.IsZero

def IsoTime.text (t : IsoTime) : List Nat :=
  84 :: twoDigits t.hour ++ (58 :: twoDigits t.minute ++ (t.second.text ++ t.zone.text))

def timeText (t : Option IsoTime) : List Nat := t.elim [] IsoTime.text

/-- A string `[(+|-)YY]YYYY[-MM[-DD]][Thh:mm[:ss[.f]][Z|(+|-)hh:mm]]` with its fields in range. -/
structure IsoDateTime where
  year : IsoYear
  monthDay : IsoMonthDay
  time : Option IsoTime

namespace IsoDateTime

def text (d : IsoDateTime) : List Nat :=
  d.year.text ++ (d.monthDay.text ++ timeText d.time)

/-- The fields that the string denotes. A date alone is in UTC, a time without a zone is local. -/
def denotes (d : IsoDateTime) : Output where
  year := d.year.value
  month := d.monthDay.monthValue - 1
  day := d.monthDay.dayValue
  hour := d.time.elim 0 fun t => t.hour
  minute := d.time.elim 0 fun t => t.minute
  second := d.time.elim 0 fun t => t.second.secondValue
  millisecond := d.time.elim 0 fun t => t.second.milliseconds
  utcOffset := d.time.elim (some 0) fun t => t.zone.seconds

end IsoDateTime

/-! ## Scanning -/

/-- The text does not go on with a digit. -/
def NoDigit (s : List Nat) : Prop := isDecimalDigit (s.headD 0) = false

/-- The value `ReadUnsignedNumeral` gives a digit string. -/
def numeral (ds : List Nat) : Nat := value ((ds.dropWhile (· == 0)).take kMaxSignificantDigits)

theorem readDigits_eq (hds : IsDigits ds) (hs : NoDigit s) (n i : Nat) :
    readDigits n i (chars ds ++ s) = (Positional.valueFrom 10 n (ds.take (kMaxSignificantDigits - i)), s) := by
  induction ds generalizing n i with
  | nil =>
    rw [chars, List.map_nil, List.nil_append, List.take_nil, Positional.valueFrom]
    cases s with
    | nil => rfl
    | cons c s => rw [readDigits, if_neg (by rw [show isDecimalDigit c = false from hs]; simp)]
  | cons d ds ih =>
    have htail : IsDigits ds := fun e he => hds e (List.mem_cons_of_mem d he)
    rw [chars, List.map_cons, List.cons_append, readDigits, if_pos (isDecimalDigit_digit (hds d List.mem_cons_self))]
    rw [show List.map (· + 48) ds = chars ds from rfl, ih htail, Nat.add_sub_cancel]
    by_cases hi : i < kMaxSignificantDigits
    · rw [if_pos hi, show kMaxSignificantDigits - i = kMaxSignificantDigits - (i + 1) + 1 by omega, List.take_succ_cons,
        Positional.valueFrom]
    · rw [if_neg hi, show kMaxSignificantDigits - i = 0 by omega, show kMaxSignificantDigits - (i + 1) = 0 by omega]
      rfl

theorem dropWhile_chars (ds s : List Nat) (hs : NoDigit s) :
    (chars ds ++ s).dropWhile (· == 48) = chars (ds.dropWhile (· == 0)) ++ s := by
  induction ds with
  | nil =>
    cases s with
    | nil => rfl
    | cons c s =>
      have hc : (c == 48) = false := by
        by_contra hne
        have : c = 48 := by simpa using hne
        subst this
        simp [NoDigit, isDecimalDigit] at hs
      simp [chars, hc]
  | cons d ds ih =>
    rw [chars, List.map_cons, List.cons_append, List.dropWhile_cons, List.dropWhile_cons]
    by_cases hd : d = 0
    · rw [if_pos (by rw [hd]; rfl), if_pos (by rw [hd]; rfl)]
      exact ih
    · rw [if_neg (by simpa using hd), if_neg (by simpa using hd)]
      rfl

theorem IsDigits.dropWhile (h : IsDigits ds) (p : Nat → Bool) : IsDigits (ds.dropWhile p) :=
  fun d hd => h d (List.dropWhile_sublist p |>.subset hd)

theorem readUnsignedNumeral_eq (hds : IsDigits ds) (hs : NoDigit s) :
    readUnsignedNumeral (chars ds ++ s) = (numeral ds, s) := by
  rw [readUnsignedNumeral, dropWhile_chars ds s hs, readDigits_eq (IsDigits.dropWhile hds _) hs]
  rfl

/-- A digit string is one number token. -/
theorem of_digits (hds : IsDigits ds) (hne : ds ≠ []) (hs : NoDigit s) :
    Scanner.of (chars ds ++ s) = ⟨.number (numeral ds) ds.length, s⟩ := by
  obtain ⟨d, ds', rfl⟩ := List.exists_cons_of_ne_nil hne
  have hd : d < 10 := hds d List.mem_cons_self
  have hscan : scan (chars (d :: ds') ++ s) = (.number (numeral (d :: ds')) (d :: ds').length, s) := by
    have hread := readUnsignedNumeral_eq hds hs
    rw [chars, List.map_cons, List.cons_append] at hread ⊢
    rw [scan, if_neg (by omega), if_pos (isDecimalDigit_digit hd), hread]
    simp only [List.length_cons, List.length_append, List.length_map, Prod.mk.injEq, DateToken.number.injEq,
      true_and, and_true]
    omega
  rw [Scanner.of, hscan]

/-- A number with `k` digits, at most nine. -/
theorem of_number (hk : 0 < k ∧ k ≤ 9) (hn : n < 10 ^ k) (hs : NoDigit s) :
    Scanner.of (chars (digits k n) ++ s) = ⟨.number n k, s⟩ := by
  have hne : digits k n ≠ [] := by
    intro h
    have := congrArg List.length h
    rw [length_digits] at this
    simp only [List.length_nil] at this
    omega
  have hlen : ((digits k n).dropWhile (· == 0)).length ≤ kMaxSignificantDigits := by
    have := (List.dropWhile_sublist (· == 0) (l := digits k n)).length_le
    rw [length_digits] at this
    rw [kMaxSignificantDigits]
    omega
  rw [of_digits (isDigits_digits k n) hne hs, length_digits, numeral, List.take_of_length_le hlen, value_drop_zeros,
    value_digits_of_lt hn]

theorem of_twoDigits (hn : n < 100) (hs : NoDigit s) :
    Scanner.of (twoDigits n ++ s) = ⟨.number n 2, s⟩ := of_number (by omega) hn hs

theorem of_symbol (hc : c = 58 ∨ c = 45 ∨ c = 43 ∨ c = 46) (s : List Nat) : Scanner.of (c :: s) = ⟨.symbol c, s⟩ := by
  rcases hc with rfl | rfl | rfl | rfl <;> rfl

/-- The time separator, in front of something that is no letter. -/
theorem of_separator (hs : isWordChar (s.headD 0) = false) :
    Scanner.of (84 :: s) = ⟨.keyword .timeSeparator 0 1, s⟩ := by
  have htake : (84 :: s).takeWhile isWordChar = [84] := by
    rw [List.takeWhile_cons, if_pos (by decide)]
    cases s with
    | nil => rfl
    | cons c s => rw [List.takeWhile_cons, if_neg (by simpa using hs)]
  have hdrop : (84 :: s).dropWhile isWordChar = s := by
    rw [List.dropWhile_cons, if_pos (by decide)]
    cases s with
    | nil => rfl
    | cons c s => rw [List.dropWhile_cons, if_neg (by simpa using hs)]
  have hscan : scan (84 :: s) = (.keyword .timeSeparator 0 1, s) := by
    rw [scan, readWord, htake, hdrop]
    rfl
  rw [Scanner.of, hscan]

/-! ## What follows a field -/

variable (sec : IsoSecond) (z : IsoZone)

theorem noDigit_cons (s : List Nat) (h : isDecimalDigit c = false) : NoDigit (c :: s) := h

theorem isWordChar_twoDigits (n : Nat) (s : List Nat) : isWordChar ((twoDigits n ++ s).headD 0) = false := by
  have h : ∀ d : Nat, d < 10 → isWordChar (d + 48) = false := by decide
  exact h (n / 10 % 10) (by omega)

theorem IsoZone.noDigit : NoDigit z.text := by
  cases z with
  | localTime => rfl
  | utc => rfl
  | offset negative hour minute hh hm => cases negative <;> rfl

theorem IsoSecond.noDigit : NoDigit (sec.text ++ z.text) := by
  cases sec with
  | none => exact z.noDigit
  | second s h => rfl
  | fraction s h f => rfl

/-- A zone does not go on with the given separator. -/
theorem IsoZone.skipSymbol (hc : c = 58 ∨ c = 46) : (Scanner.of z.text).peek.isSymbol c = false := by
  cases z with
  | localTime => rfl
  | utc => rfl
  | offset negative hour minute hh hm =>
    rcases hc with rfl | rfl <;> cases negative <;> rfl

theorem timeText_cases (t : Option IsoTime) :
    NoDigit (timeText t) ∧ (Scanner.of (timeText t)).peek.isSymbol 45 = false := by
  cases t with
  | none => exact ⟨rfl, rfl⟩
  | some t =>
    refine ⟨rfl, ?_⟩
    rw [timeText, Option.elim_some, IsoTime.text, List.cons_append]
    rfl

/-! ## The parts of `ParseES5DateTime` -/

variable (y : IsoYear)

theorem parseES5Year_ok (hs : NoDigit s) (time : TimeComposer) (tz : TimeZoneComposer) :
    parseES5Year ⟨.of (y.text ++ s), .empty, time, tz⟩ = .ok ⟨.of s, ⟨[y.value], none, false⟩, time, tz⟩ := by
  cases y with
  | four y h =>
    rw [IsoYear.text, of_number (by omega) h hs]
    rfl
  | six negative y h hz =>
    have hsign : (if negative then 45 else 43 : Nat) = 58 ∨ (if negative then 45 else 43 : Nat) = 45 ∨
        (if negative then 45 else 43 : Nat) = 43 ∨ (if negative then 45 else 43 : Nat) = 46 := by
      cases negative <;> simp
    rw [IsoYear.text, List.cons_append, of_symbol hsign]
    have hrest := of_number (k := 6) (by omega) h hs
    cases negative with
    | true =>
      have hy : y ≠ 0 := hz rfl
      simp [parseES5Year, hrest, DateToken.asciiSign, hy]
      rfl
    | false =>
      simp [parseES5Year, hrest, DateToken.asciiSign]
      rfl

/-- The components that the day composer gets behind the year. -/
def IsoMonthDay.comp : IsoMonthDay → List Int
  | none => []
  | month m _ => [(m : Int)]
  | monthDay m d _ _ => [(m : Int), (d : Int)]

theorem between_eq {x lo hi : Int} (h : lo ≤ x ∧ x ≤ hi) : between x lo hi = true := by
  unfold between
  simpa using h

theorem parseES5MonthDay_ok (md : IsoMonthDay) (hs : NoDigit s) (hdash : (Scanner.of s).peek.isSymbol 45 = false)
    (y : Int) (time : TimeComposer) (tz : TimeZoneComposer) :
    parseES5MonthDay ⟨.of (md.text ++ s), ⟨[y], .none, false⟩, time, tz⟩ =
      .ok ⟨.of s, ⟨y :: md.comp, .none, false⟩, time, tz⟩ := by
  cases md with
  | none =>
    rw [IsoMonthDay.text, List.nil_append, parseES5MonthDay, State.skipSymbol_other hdash]
    rfl
  | month m h =>
    have hm : isMonth m = true := between_eq (by omega)
    have hnum := of_twoDigits (n := m) (by omega) hs
    rw [IsoMonthDay.text, List.cons_append, of_symbol (by omega), parseES5MonthDay]
    simp only [State.skipSymbol_same, hnum, State.peek_mk, numberValue_number, hm, State.next_mk]
    rw [State.addDay, State.skipSymbol_other hdash]
    rfl
  | monthDay m d h hd =>
    have hm : isMonth m = true := between_eq (by omega)
    have hday : isDay d = true := between_eq (by omega)
    have hnum := of_twoDigits (n := d) (by omega) hs
    have hmonth := of_twoDigits (n := m) (by omega) (noDigit_cons (c := 45) (twoDigits d ++ s) rfl)
    rw [IsoMonthDay.text, List.append_assoc, List.cons_append, List.cons_append, of_symbol (by omega),
      parseES5MonthDay]
    simp only [State.skipSymbol_same, hmonth, State.peek_mk, numberValue_number, hm, State.next_mk]
    rw [State.addDay, of_symbol (by omega)]
    simp only [State.skipSymbol_same, hnum, State.peek_mk, numberValue_number, hday]
    rfl

/-- The rest of an hour 24 passes its test for zero. -/
theorem and_blt_eq_false {b : Bool} (h : b = true → n = 0) : (b && Nat.blt 0 n) = false := by
  cases b with
  | false => rfl
  | true => rw [h rfl]; rfl

theorem parseES5HourMinute_ok {hour minute : Nat} (hh : hour ≤ 24) (hm : minute < 60) (h24 : hour = 24 → minute = 0)
    (hs : NoDigit s) (day : DayComposer) (tz : TimeZoneComposer) :
    parseES5HourMinute ⟨.of (twoDigits hour ++ 58 :: twoDigits minute ++ s), day, .empty, tz⟩ =
      .ok ⟨.of s, day, ⟨[(hour : Int), (minute : Int)], none⟩, tz⟩ := by
  have hhour : between hour 0 24 = true := between_eq (by omega)
  have hminute : isMinute minute = true := between_eq (by omega)
  have hfirst := of_twoDigits (n := hour) (by omega) (noDigit_cons (c := 58) (twoDigits minute ++ s) rfl)
  have hsecond := of_twoDigits (n := minute) (by omega) hs
  have hzero : (hour == 24 && Nat.blt 0 minute) = false := and_blt_eq_false fun h => h24 (beq_iff_eq.mp h)
  rw [List.append_assoc, List.cons_append, hfirst, parseES5HourMinute]
  simp only [State.peek_mk, numberValue_number, hhour, State.next_mk]
  rw [State.addTime, of_symbol (by omega)]
  simp only [State.skipSymbol_same, hsecond, State.peek_mk, numberValue_number, hminute, hzero]
  rfl

/-- The milliseconds that the parser reads from a fraction. -/
def Fraction.read (f : Fraction) : Nat := readMilliseconds (numeral f.digits) f.digits.length

/-- The components that the time composer gets behind hour and minute. -/
def IsoSecond.comp : IsoSecond → List Int
  | none => []
  | second s _ => [(s : Int)]
  | fraction s _ f => [(s : Int), (f.read : Int)]

theorem numeral_eq_zero (h : value ds = 0) : numeral ds = 0 := by
  have hdrop : ds.dropWhile (· == 0) = [] := by
    rw [List.dropWhile_eq_nil_iff]
    exact fun d hd => beq_iff_eq.mpr (value_eq_zero_iff.1 h d hd)
  rw [numeral, hdrop]
  rfl

theorem parseES5Second_ok {hourIs24 : Bool} (h24 : hourIs24 = true → sec.IsZero) (day : DayComposer)
    (hour minute : Int) (tz : TimeZoneComposer) :
    parseES5Second hourIs24 ⟨.of (sec.text ++ z.text), day, ⟨[hour, minute], .none⟩, tz⟩ =
      .ok ⟨.of z.text, day, ⟨hour :: minute :: sec.comp, .none⟩, tz⟩ := by
  cases sec with
  | none =>
    rw [IsoSecond.text, List.nil_append, parseES5Second, State.skipSymbol_other (z.skipSymbol (Or.inl rfl))]
    rfl
  | second s h =>
    have hsec : isSecond s = true := between_eq (by omega)
    have hnum := of_twoDigits (n := s) (by omega) z.noDigit
    have hzero : (hourIs24 && Nat.blt 0 s) = false := and_blt_eq_false h24
    rw [IsoSecond.text, List.cons_append, of_symbol (by omega), parseES5Second]
    simp only [State.skipSymbol_same, hnum, State.peek_mk, numberValue_number, hsec, hzero, State.next_mk]
    rw [State.addTime, State.skipSymbol_other (z.skipSymbol (Or.inr rfl))]
    rfl
  | fraction s h f =>
    have hsec : isSecond s = true := between_eq (by omega)
    have hnum := of_twoDigits (n := s) (by omega) (noDigit_cons (c := 46) (chars f.digits ++ z.text) rfl)
    have hfrac := of_digits f.isDigits f.ne_nil z.noDigit
    have hzero : (hourIs24 && Nat.blt 0 s) = false := and_blt_eq_false fun ht => (h24 ht).1
    have hzeros : (hourIs24 && Nat.blt 0 (numeral f.digits)) = false :=
      and_blt_eq_false fun ht => numeral_eq_zero (h24 ht).2
    rw [IsoSecond.text, List.append_assoc, List.cons_append, List.cons_append, of_symbol (by omega), parseES5Second]
    simp only [State.skipSymbol_same, hnum, State.peek_mk, numberValue_number, hsec, hzero, State.next_mk]
    rw [State.addTime, of_symbol (by omega)]
    simp only [State.skipSymbol_same, hfrac, State.peek_mk, numberValue_number, hzeros]
    rfl

/-- The state of the time zone composer behind a zone. -/
def IsoZone.composer : IsoZone → TimeZoneComposer
  | .localTime => .empty
  | utc => ⟨some 1, some 0, some 0⟩
  | offset negative hour minute _ _ => ⟨some (if negative then -1 else 1), some (hour : Int), some (minute : Int)⟩

theorem parseES5TimeZone_ok (day : DayComposer) (time : TimeComposer) :
    parseES5TimeZone ⟨.of z.text, day, time, .empty⟩ = .ok ⟨.of [], day, time, z.composer⟩ := by
  cases z with
  | localTime => rfl
  | utc => rfl
  | offset negative hour minute hh hm =>
    have hhour : isHour hour = true := between_eq (by omega)
    have hminute : isMinute minute = true := between_eq (by omega)
    have hfirst := of_twoDigits (n := hour) (by omega) (noDigit_cons (c := 58) (twoDigits minute) rfl)
    have hsecond := of_twoDigits (n := minute) (s := []) (by omega) rfl
    rw [List.append_nil] at hsecond
    have hsign : ∀ c : Nat, c = 45 ∨ c = 43 →
        parseES5TimeZone ⟨.of (c :: twoDigits hour ++ 58 :: twoDigits minute), day, time, .empty⟩ =
          .ok ⟨.of [], day, time, ⟨some (if c = 45 then -1 else 1), some (hour : Int), some (minute : Int)⟩⟩ := by
      intro c hc
      rw [List.cons_append, of_symbol (by omega), parseES5TimeZone]
      simp only [State.peek_mk, State.next_mk, hfirst, numberValue_number, hhour]
      rw [of_symbol (by omega)]
      simp only [State.skipSymbol_same, hsecond, State.peek_mk, numberValue_number, hminute]
      rcases hc with rfl | rfl <;> rfl
    cases negative with
    | true => exact hsign 45 (Or.inl rfl)
    | false => exact hsign 43 (Or.inr rfl)

theorem parseES5Time_ok (t : IsoTime) (day : DayComposer) :
    parseES5Time ⟨.of t.text, day, .empty, .empty⟩ =
      .ok ⟨.of [], day, ⟨(t.hour : Int) :: (t.minute : Int) :: t.second.comp, none⟩, t.zone.composer⟩ := by
  have hpeek := of_twoDigits (n := t.hour) (by have := t.hour_le; omega)
    (noDigit_cons (c := 58) (twoDigits t.minute ++ (t.second.text ++ t.zone.text)) rfl)
  have hhm := parseES5HourMinute_ok t.hour_le t.minute_lt (fun h => (t.midnight h).1)
    (t.second.noDigit t.zone) day .empty
  have hsec := parseES5Second_ok t.second t.zone
    (show (t.hour == 24) = true → t.second.IsZero from fun h => (t.midnight (beq_iff_eq.mp h)).2) day t.hour t.minute .empty
  have hzone := parseES5TimeZone_ok t.zone day ⟨(t.hour : Int) :: (t.minute : Int) :: t.second.comp, none⟩
  rw [List.append_assoc, List.cons_append] at hhm
  rw [IsoTime.text, List.cons_append, List.cons_append, of_separator (isWordChar_twoDigits _ _), parseES5Time]
  simp only [State.next_mk]
  rw [hhm, hpeek]
  simp only [State.peek_mk, numberValue_number]
  change (parseES5Second _ _ >>= _) = _
  rw [hsec]
  change (parseES5TimeZone _ >>= _) = _
  rw [hzone]
  rfl

/-! ## Writing the fields -/

theorem TimeZoneComposer.write_composer : z.composer.write = some z.seconds := by
  cases z with
  | localTime => rfl
  | utc => rfl
  | offset negative hour minute hh hm =>
    have hmod : ((hour : Int) * 3600 + (minute : Int) * 60) % 2 ^ 32 = (hour : Int) * 3600 + (minute : Int) * 60 := by
      omega
    rw [IsoZone.composer, TimeZoneComposer.write]
    simp only [Option.getD_some, hmod]
    rw [if_neg (by rw [kSmiMaxValue]; omega)]
    cases negative <;> rfl

theorem numeral_lt (h : IsDigits ds) : numeral ds < 10 ^ min ds.length kMaxSignificantDigits := by
  have hsub := (List.dropWhile_sublist (· == 0) (l := ds)).length_le
  have hlt := value_lt ((IsDigits.dropWhile h (· == 0)).take kMaxSignificantDigits)
  refine lt_of_lt_of_le hlt (Nat.pow_le_pow_right (by omega) ?_)
  rw [List.length_take]
  omega

theorem Fraction.read_lt (f : Fraction) : f.read < 1000 := by
  have hlt := numeral_lt f.isDigits
  have hpos : 0 < f.digits.length := List.length_pos_of_ne_nil f.ne_nil
  unfold Fraction.read readMilliseconds
  rw [kMaxSignificantDigits] at *
  generalize numeral f.digits = n at *
  generalize f.digits.length = l at *
  by_cases h3 : l ≤ 3
  · interval_cases l <;> simp at hlt ⊢ <;> omega
  · rw [if_neg (by omega), if_pos (by omega)]
    have hmin : (if l > 9 then 9 else l) = min l 9 := by split <;> omega
    simp only [hmin]
    have hk : min l 9 = (min l 9 - 3) + 3 := by omega
    rw [Nat.div_lt_iff_lt_mul (by positivity), mul_comm]
    calc n < 10 ^ min l 9 := hlt
      _ = 10 ^ (min l 9 - 3) * 1000 := by rw [hk, pow_add]; rfl

/-- The milliseconds of a time as the parser reads them. -/
def IsoSecond.read : IsoSecond → Nat
  | fraction _ _ f => f.read
  | _ => 0

theorem readMilliseconds_zero (length : Nat) : readMilliseconds 0 length = 0 := by
  unfold readMilliseconds
  split_ifs <;> simp

theorem IsoSecond.read_eq_zero {sec : IsoSecond} (h : sec.IsZero) : sec.secondValue = 0 ∧ sec.read = 0 := by
  cases sec with
  | none => exact ⟨rfl, rfl⟩
  | second s hs => exact ⟨h, rfl⟩
  | fraction s hs f =>
    refine ⟨h.1, ?_⟩
    rw [IsoSecond.read, Fraction.read, numeral_eq_zero h.2, readMilliseconds_zero]

theorem IsoSecond.bounds : sec.secondValue < 60 ∧ sec.read < 1000 := by
  cases sec with
  | none => exact ⟨by decide, by decide⟩
  | second s h => exact ⟨h, show 0 < 1000 by omega⟩
  | fraction s h f => exact ⟨h, f.read_lt⟩

theorem TimeComposer.write_eq {hour minute second millisecond : Int}
    (hh : 0 ≤ hour ∧ hour < 24 ∨ hour = 24 ∧ minute = 0 ∧ second = 0 ∧ millisecond = 0)
    (hm : 0 ≤ minute ∧ minute < 60) (hs : 0 ≤ second ∧ second < 60) (hms : 0 ≤ millisecond ∧ millisecond < 1000)
    {comp : List Int} (hcomp : (TimeComposer.fill ⟨comp, none⟩).comp = [hour, minute, second, millisecond]) :
    TimeComposer.write ⟨comp, none⟩ = some (hour, minute, second, millisecond) := by
  have hminute : isMinute minute = true := between_eq (by omega)
  have hsecond : isSecond second = true := between_eq (by omega)
  have hmilli : isMillisecond millisecond = true := between_eq (by omega)
  unfold TimeComposer.write
  rw [hcomp]
  simp only [List.getD_cons_zero, List.getD_cons_succ, hminute, hsecond, hmilli]
  rcases hh with hh | hh
  · have hhour : isHour hour = true := between_eq (by omega)
    rw [hhour]
    rfl
  · rw [if_neg (show ¬(hour ≠ 24 ∨ minute ≠ 0 ∨ second ≠ 0 ∨ millisecond ≠ 0) by omega), ite_self]

theorem IsoTime.write_time (t : IsoTime) :
    TimeComposer.write ⟨(t.hour : Int) :: (t.minute : Int) :: t.second.comp, none⟩ =
      some ((t.hour : Int), (t.minute : Int), (t.second.secondValue : Int), (t.second.read : Int)) := by
  have hbounds := t.second.bounds
  have hhour := t.hour_le
  have hminute := t.minute_lt
  apply TimeComposer.write_eq
  · by_cases h : t.hour = 24
    · have hmid := t.midnight h
      have hzero := IsoSecond.read_eq_zero hmid.2
      right
      omega
    · left
      omega
  · omega
  · omega
  · omega
  · cases t.second <;> rfl

theorem IsoYear.value_bounds : -1000000 < y.value ∧ y.value < 1000000 := by
  cases y with
  | four y h => rw [IsoYear.value]; omega
  | six negative y h hz => rw [IsoYear.value]; split <;> omega

theorem DayComposer.write_iso (md : IsoMonthDay) :
    DayComposer.write ⟨y.value :: md.comp, none, true⟩ =
      some (y.value, (md.monthValue : Int) - 1, (md.dayValue : Int)) := by
  have hyear : between y.value kSmiMinValue kSmiMaxValue = true :=
    between_eq (by have := y.value_bounds; rw [kSmiMinValue, kSmiMaxValue]; omega)
  have hmonth : isMonth md.monthValue = true := by
    cases md with
    | none => rfl
    | month m h => exact between_eq (by rw [IsoMonthDay.monthValue]; omega)
    | monthDay m d h hd => exact between_eq (by rw [IsoMonthDay.monthValue]; omega)
  have hday : isDay md.dayValue = true := by
    cases md with
    | none => rfl
    | month m h => rfl
    | monthDay m d h hd => exact between_eq (by rw [IsoMonthDay.dayValue]; omega)
  have hcomp : (y.value :: md.comp) ++ List.replicate (DayComposer.kSize - (y.value :: md.comp).length) 1 =
      [y.value, (md.monthValue : Int), (md.dayValue : Int)] := by
    cases md <;> rfl
  unfold DayComposer.write
  simp only [hcomp]
  rw [if_neg (by simp)]
  simp [DayComposer.order, hyear, hmonth, hday]

/-! ## Whole strings -/

variable (d : IsoDateTime)

theorem parseES5Fields_ok :
    parseES5Fields ⟨.of d.text, .empty, .empty, .empty⟩ =
      .ok ⟨.of [], ⟨d.year.value :: d.monthDay.comp, none, false⟩,
        ⟨d.time.elim [] fun t => (t.hour : Int) :: (t.minute : Int) :: t.second.comp, none⟩,
        d.time.elim .empty fun t => t.zone.composer⟩ := by
  obtain ⟨hdigit, hdash⟩ := timeText_cases d.time
  have hmd : NoDigit (d.monthDay.text ++ timeText d.time) := by
    cases d.monthDay with
    | none => exact hdigit
    | month m h => rfl
    | monthDay m e h he => rfl
  rw [parseES5Fields, IsoDateTime.text, parseES5Year_ok d.year hmd]
  change (parseES5MonthDay _ >>= _) = _
  rw [parseES5MonthDay_ok d.monthDay hdigit hdash]
  change parseES5Time _ = _
  cases d.time with
  | none => rfl
  | some t => exact parseES5Time_ok t _

theorem parseES5DateTime_ok :
    parseES5DateTime ⟨.of d.text, .empty, .empty, .empty⟩ =
      (.endOfInput, ⟨.of [], ⟨d.year.value :: d.monthDay.comp, none, true⟩,
        ⟨d.time.elim [] fun t => (t.hour : Int) :: (t.minute : Int) :: t.second.comp, none⟩,
        d.time.elim ⟨some 1, some 0, some 0⟩ fun t => t.zone.composer⟩) := by
  rw [parseES5DateTime, parseES5Fields_ok]
  cases d.time with
  | none => rfl
  | some t =>
    simp only [Option.elim_some, TimeComposer.isEmpty, List.length_cons]
    simp

/-- What the parser makes of a date-time string: the fields, but for the milliseconds as it reads them. -/
theorem parse_text :
    parse d.text = some (some { d.denotes with millisecond := d.time.elim 0 fun t => t.second.read }) := by
  have hday := DayComposer.write_iso d.year d.monthDay
  have htime : TimeComposer.write ⟨d.time.elim [] fun t => (t.hour : Int) :: (t.minute : Int) :: t.second.comp, none⟩ =
      some (d.denotes.hour, d.denotes.minute, d.denotes.second, d.time.elim 0 fun t => (t.second.read : Int)) := by
    unfold IsoDateTime.denotes
    cases d.time with
    | none => rfl
    | some t => exact t.write_time
  have hzone : (d.time.elim ⟨some 1, some 0, some 0⟩ fun t => t.zone.composer : TimeZoneComposer).write =
      some d.denotes.utcOffset := by
    unfold IsoDateTime.denotes
    cases d.time with
    | none => rfl
    | some t => exact TimeZoneComposer.write_composer t.zone
  rw [parse, parseES5DateTime_ok]
  dsimp only
  rw [legacyLoop, if_pos rfl, Option.map_some, Option.bind_some, State.write, hday, htime, hzone]
  rfl

/-! ## The milliseconds -/

variable {f : Fraction}

/-- The fractions whose milliseconds come out right: up to nine digits, or no leading zero, or so few digits
behind the zeros that nothing is left of them. -/
def Fraction.Exact (f : Fraction) : Prop :=
  f.digits.length ≤ 9 ∨ f.digits.head? ≠ some 0 ∨ (f.digits.dropWhile (· == 0)).length ≤ 6

instance : DecidablePred Fraction.Exact := fun _ => inferInstanceAs (Decidable (_ ∨ _ ∨ _))

theorem Fraction.milliseconds_short (h : f.digits.length ≤ 3) :
    f.milliseconds = value f.digits * 10 ^ (3 - f.digits.length) := by
  have hpos : 0 < f.digits.length := List.length_pos_of_ne_nil f.ne_nil
  rw [Fraction.milliseconds, List.take_append, List.take_of_length_le h, value_append]
  generalize f.digits.length = l at *
  interval_cases l <;> rfl

theorem Fraction.milliseconds_long (h : 3 ≤ f.digits.length) : f.milliseconds = value (f.digits.take 3) := by
  rw [Fraction.milliseconds, List.take_append_of_le_length h]

theorem numeral_short (h : ds.length ≤ 9) : numeral ds = value ds := by
  have hsub := (List.dropWhile_sublist (· == 0) (l := ds)).length_le
  rw [numeral, List.take_of_length_le (by rw [kMaxSignificantDigits]; omega), value_drop_zeros]

theorem Fraction.read_short (h : f.digits.length ≤ 9) : f.read = f.milliseconds := by
  have hpos : 0 < f.digits.length := List.length_pos_of_ne_nil f.ne_nil
  rw [Fraction.read, numeral_short h, readMilliseconds, kMaxSignificantDigits]
  by_cases h3 : f.digits.length ≤ 3
  · rw [Fraction.milliseconds_short h3]
    generalize value f.digits = v
    generalize f.digits.length = l at *
    interval_cases l <;> simp
  · rw [Fraction.milliseconds_long (by omega), value_take f.isDigits, if_neg (by omega), if_pos (by omega),
      if_neg (by omega)]

theorem Fraction.read_long (h : 9 < f.digits.length) : f.read = numeral f.digits / 10 ^ 6 := by
  rw [Fraction.read, readMilliseconds, kMaxSignificantDigits, if_neg (by omega), if_pos (by omega), if_pos (by omega)]

/-- Zeros in front bound the leading digits. -/
theorem value_take_zeros_append {z : Nat} (h : IsDigits ds) :
    value ((List.replicate z 0 ++ ds).take k) < 10 ^ (k - z) := by
  have hzero : ∀ n, value (List.replicate n 0) = 0 := by
    intro n
    induction n with
    | zero => rfl
    | succ n ih => rw [List.replicate_succ, value_cons, ih, zero_mul]
  rw [List.take_append, List.length_replicate, List.take_replicate, value_append, hzero, zero_mul, zero_add]
  refine lt_of_lt_of_le (value_lt (h.take _)) (Nat.pow_le_pow_right (by omega) ?_)
  rw [List.length_take]
  omega

/-- A digit string that does not start with zero has a value of its length. -/
theorem pow_le_value_take (h : (ds.dropWhile (· == 0)) ≠ []) (hk : 0 < k) :
    10 ^ (min k (ds.dropWhile (· == 0)).length - 1) ≤ value ((ds.dropWhile (· == 0)).take k) := by
  have hhead := List.head_dropWhile_not (· == 0) h
  obtain ⟨d, rest, hd⟩ := List.exists_cons_of_ne_nil h
  simp only [hd] at hhead
  have hpos : 0 < d := Nat.pos_of_ne_zero (by simpa using hhead)
  rw [hd, show k = k - 1 + 1 by omega, List.take_succ_cons, value_cons, List.length_take, List.length_cons]
  have hle : 10 ^ min (k - 1) rest.length ≤ d * 10 ^ min (k - 1) rest.length := Nat.le_mul_of_pos_left _ hpos
  have hexp : min (k - 1 + 1) (rest.length + 1) - 1 = min (k - 1) rest.length := by omega
  rw [hexp]
  omega

theorem Fraction.read_eq_iff (f : Fraction) : f.read = f.milliseconds ↔ f.Exact := by
  by_cases hshort : f.digits.length ≤ 9
  · exact ⟨fun _ => Or.inl hshort, fun _ => f.read_short hshort⟩
  rw [Fraction.read_long (by omega), Fraction.milliseconds_long (by omega)]
  obtain ⟨z, hz, hzpos, -⟩ := exists_replicate_append 0 f.digits
  have hlen : f.digits.length = z + (f.digits.dropWhile (· == 0)).length := by
    have := congrArg List.length hz
    rwa [List.length_append, List.length_replicate] at this
  have hsig := IsDigits.dropWhile f.isDigits (· == 0)
  have hlead : value (f.digits.take 3) < 10 ^ (3 - z) := by
    rw [hz]
    exact value_take_zeros_append hsig
  by_cases hhead : f.digits.head? = some 0
  · have hz1 : 0 < z := hzpos.mp hhead
    have hexact : f.Exact ↔ (f.digits.dropWhile (· == 0)).length ≤ 6 := by
      unfold Fraction.Exact
      simp [hshort, hhead]
    rw [hexact]
    constructor
    · -- seven or more significant digits were read as if they followed the point
      intro heq
      by_contra hmany
      have hne : f.digits.dropWhile (· == 0) ≠ [] := by
        intro hnil
        rw [hnil] at hmany
        simp at hmany
      have hle := pow_le_value_take hne (k := 9) (by omega)
      have hquot : 10 ^ (min 9 (f.digits.dropWhile (· == 0)).length - 7) ≤ numeral f.digits / 10 ^ 6 := by
        rw [Nat.le_div_iff_mul_le (by positivity), ← pow_add]
        refine le_trans (Nat.pow_le_pow_right (by omega) ?_) hle
        omega
      have hpow : 10 ^ (3 - z) ≤ 10 ^ (min 9 (f.digits.dropWhile (· == 0)).length - 7) :=
        Nat.pow_le_pow_right (by omega) (by omega)
      omega
    · intro hfew
      have hnum : numeral f.digits < 10 ^ 6 := by
        refine lt_of_lt_of_le (value_lt (hsig.take _)) (Nat.pow_le_pow_right (by omega) ?_)
        rw [List.length_take]
        omega
      rw [show 3 - z = 0 by omega] at hlead
      rw [Nat.div_eq_of_lt hnum]
      omega
  · -- no leading zero: nine digits were read, and the first three of them are asked for
    have hz0 : z = 0 := by
      by_contra hne
      exact hhead (hzpos.mpr (by omega))
    rw [hz0, List.replicate_zero, List.nil_append] at hz
    refine ⟨fun _ => Or.inr (Or.inl hhead), fun _ => ?_⟩
    have htake := value_take (f.isDigits.take 9) 3
    rw [List.take_take, List.length_take] at htake
    rw [numeral, ← hz, kMaxSignificantDigits, show min 3 9 = 3 by rfl] at *
    rw [htake, show min 9 f.digits.length - 3 = 6 by omega]

/-! ## The parser and the format -/

/-- The strings whose fraction, if there is one, comes out right. -/
def IsoDateTime.Exact (d : IsoDateTime) : Prop :=
  d.time.elim True fun t => match t.second with
    | .fraction _ _ f => f.Exact
    | _ => True

theorem IsoDateTime.read_eq_iff : (d.time.elim 0 fun t => (t.second.read : Int)) = d.denotes.millisecond ↔ d.Exact := by
  unfold IsoDateTime.denotes IsoDateTime.Exact
  cases d.time with
  | none => simp
  | some t =>
    simp only [Option.elim_some, Nat.cast_inj]
    cases t.second with
    | none => exact ⟨fun _ => trivial, fun _ => rfl⟩
    | second s h => exact ⟨fun _ => trivial, fun _ => rfl⟩
    | fraction s h f => exact f.read_eq_iff

/-- Every string of the format is accepted with year, month, day, hour, minute, second and offset as denoted,
and the milliseconds are right too exactly for the fractions that are `Exact`. -/
theorem parse_dateTimeString (d : IsoDateTime) :
    (∃ ms, parse d.text = some (some { d.denotes with millisecond := ms })) ∧
      (parse d.text = some (some d.denotes) ↔ d.Exact) := by
  refine ⟨⟨_, parse_text d⟩, ?_⟩
  rw [parse_text, Option.some_inj, Option.some_inj, ← d.read_eq_iff]
  constructor
  · intro h
    exact congrArg Output.millisecond h
  · intro h
    rw [h]

/-- `1970-01-01T00:00:00.0123456789Z`. -/
def tenDigitFraction : IsoDateTime where
  year := .four 1970 (by decide)
  monthDay := .monthDay 1 1 (by decide) (by decide)
  time := some
    { hour := 0
      minute := 0
      second := .fraction 0 (by decide) ⟨[0, 1, 2, 3, 4, 5, 6, 7, 8, 9], by decide, by decide⟩
      zone := .utc
      hour_le := by decide
      minute_lt := by decide
      midnight := fun h => by omega }

/-- Twelve milliseconds are read as 123. -/
theorem parse_tenDigitFraction :
    parse tenDigitFraction.text = some (some ⟨1970, 0, 1, 0, 0, 0, 123, some 0⟩) ∧
      tenDigitFraction.denotes = ⟨1970, 0, 1, 0, 0, 0, 12, some 0⟩ := by decide +kernel

end V8Core.Date.DateParser
