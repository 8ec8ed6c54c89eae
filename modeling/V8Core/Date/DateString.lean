import V8Core.Date.MakeDay
import V8Core.Date.CalendarRuns
import V8Core.Date.Iso8601
/-!
# Date strings and the time zone

`ToDateString` of `date.cc` with the formatting of `StringStream`,
`ParseDateTimeString` of `builtins-date.cc`, and the methods of `DateCache` that
ask for the local time. The time zone is a parameter: the answers of the
operating system, and a cache of daylight-saving segments that may answer
whatever it likes.
-/

namespace V8Core.Date

open SignedInt
open DateParser (chars)

/-! ## The time zone -/

/-- What `tz_cache_` and the segments of daylight saving answer. -/
structure TimeZone where
  /-- The flag `icu_timezone_data`; off where there is no ICU. -/
  icuTimezoneData : Bool
  localTimeOffset : Int → Bool → Int
  localTimezone : Int → List Nat
  /-- The segments with their usage counters. -/
  Segments : Type
  clearedSegments : Segments
  /-- `DaylightSavingsOffsetInMs` once the second is known. -/
  daylightSavingsOffset : Segments → Int → Int × Segments
  /-- Every offset is an `int` other than the sentinel `kInvalidLocalOffsetInMs`, -/
  localTimeOffset_int : ∀ timeMs isUtc,
    -2147483648 ≤ localTimeOffset timeMs isUtc ∧ localTimeOffset timeMs isUtc < 2147483647
  /-- and without ICU so it is together with daylight saving. -/
  daylightSavingsOffset_int : icuTimezoneData = false → ∀ timeMs isUtc segments timeSec,
    -2147483648 ≤ localTimeOffset timeMs isUtc + (daylightSavingsOffset segments timeSec).1 ∧
      localTimeOffset timeMs isUtc + (daylightSavingsOffset segments timeSec).1 < 2147483647

/-- A zone that the operating system keeps `offset` ahead of UTC, with an hour of daylight saving in the seconds
between `first` and `last`. -/
def TimeZone.fixed (offset : Int) (first last : Int) (h : -2147483648 ≤ offset ∧ offset < 2143883647) : TimeZone where
  icuTimezoneData := false
  localTimeOffset _ _ := offset
  localTimezone _ := []
  Segments := Unit
  clearedSegments := ()
  daylightSavingsOffset _ timeSec := (if first ≤ timeSec ∧ timeSec ≤ last then 3600000 else 0, ())
  localTimeOffset_int _ _ := ⟨h.1, h.2.trans (by decide)⟩
  daylightSavingsOffset_int _ _ _ _ _ := by
    dsimp only
    split <;> omega

def TimeZone.utc : TimeZone := .fixed 0 1 0 (by decide)

def kInvalidLocalOffsetInMs : Int := 2147483647
def kMsPerMin : Int := 60 * 1000
def kMaxTimeInMs : Int := 864000000 * 10000000
def kMaxTimeBeforeUTCInMs : Int := kMaxTimeInMs + kMsPerDay * 30

/-- `DateCache` with its fields for the local time. -/
structure LocalCache (z : TimeZone) where
  dates : DateCache
  segments : z.Segments
  localOffsetMs : Int
  tzName : Option (List Nat)
  dstTzName : Option (List Nat)

namespace LocalCache

variable {z : TimeZone}

/-- `ResetDateCache`. The offset is only asked for without ICU, so it does not matter that it is kept with it. -/
def resetDateCache (c : LocalCache z) : LocalCache z where
  dates := c.dates.resetDateCache
  segments := z.clearedSegments
  localOffsetMs := if z.icuTimezoneData then c.localOffsetMs else kInvalidLocalOffsetInMs
  tzName := none
  dstTzName := none

/-- `EquivalentTime`. -/
def equivalentTime (c : LocalCache z) (timeMs : Int) : Option (Int × LocalCache z) := do
  let (t, dates) ← c.dates.equivalentTime timeMs
  some (t, { c with dates := dates })

/-- A time that the operating system knows: the time itself or the equivalent one. -/
def epochTime (c : LocalCache z) (timeMs : Int) : Option (Int × LocalCache z) :=
  if timeMs ≥ 0 ∧ timeMs ≤ kMaxEpochTimeInMs then some (timeMs, c) else c.equivalentTime timeMs

/-- `DaylightSavingsOffsetInMs`. -/
def daylightSavingsOffsetInMs (c : LocalCache z) (timeMs : Int) : Option (Int × LocalCache z) := do
  let (t, c) ← c.epochTime timeMs
  let timeSec ← int (t.tdiv 1000)
  let (offset, segments) := z.daylightSavingsOffset c.segments timeSec
  some (offset, { c with segments := segments })

/-- The time that daylight saving is looked up for, without ICU. -/
def daylightSavingsTime (timeMs localOffset : Int) (isUtc : Bool) : Option Int :=
  if isUtc then some timeMs else int64 (timeMs - (localOffset + 3600 * 1000))

/-- `GetLocalOffsetFromOS`. The sum is exact in its `double`; the sentinel as a result fails an assertion. -/
def getLocalOffsetFromOS (c : LocalCache z) (timeMs : Int) (isUtc : Bool) : Option (Int × LocalCache z) :=
  if z.icuTimezoneData then do
    let offset ← int (z.localTimeOffset timeMs isUtc)
    if offset < kInvalidLocalOffsetInMs then some (offset, c) else none
  else do
    let localOffset :=
      if c.localOffsetMs == kInvalidLocalOffsetInMs then z.localTimeOffset timeMs isUtc else c.localOffsetMs
    let t ← daylightSavingsTime timeMs localOffset isUtc
    let (dst, c) ← daylightSavingsOffsetInMs { c with localOffsetMs := localOffset } t
    let offset ← int (localOffset + dst)
    if offset < kInvalidLocalOffsetInMs then some (offset, c) else none

/-- `LocalTimezone`. -/
def localTimezone (c : LocalCache z) (timeMs : Int) : Option (List Nat × LocalCache z) := do
  let (t, c) ← c.epochTime timeMs
  let (dst, c) ← c.daylightSavingsOffsetInMs t
  if dst != 0 then
    let name := c.dstTzName.getD (z.localTimezone t)
    some (name, { c with dstTzName := some name })
  else
    let name := c.tzName.getD (z.localTimezone t)
    some (name, { c with tzName := some name })

/-- `ToLocal`. -/
def toLocal (c : LocalCache z) (timeMs : Int) : Option (Int × LocalCache z) := do
  let (offset, c) ← c.getLocalOffsetFromOS timeMs true
  let t ← int64 (timeMs + offset)
  some (t, c)

/-- `ToUTC`. -/
def toUTC (c : LocalCache z) (timeMs : Int) : Option (Int × LocalCache z) := do
  let (offset, c) ← c.getLocalOffsetFromOS timeMs false
  let t ← int64 (timeMs - offset)
  some (t, c)

/-- `TimezoneOffset`. -/
def timezoneOffset (c : LocalCache z) (timeMs : Int) : Option (Int × LocalCache z) := do
  let (localMs, c) ← c.toLocal timeMs
  let difference ← int64 (timeMs - localMs)
  let offset ← int (difference.tdiv kMsPerMin)
  some (offset, c)

end LocalCache

/-! ## Breaking down a time -/

/-- The results of `BreakDownTime`. -/
structure BrokenDownTime where
  date : YearMonthDay
  weekday : Int
  hour : Int
  min : Int
  sec : Int
  ms : Int

/-- `BreakDownTime`. -/
def DateCache.breakDownTime (c : DateCache) (timeMs : Int) : Option (BrokenDownTime × DateCache) := do
  let days ← daysFromTime timeMs
  let timeInDayMs ← timeInDay timeMs days
  let (date, c) ← c.yearMonthDayFromDays days
  let weekday ← weekday days
  some (⟨date, weekday, timeInDayMs.tdiv (60 * 60 * 1000), (timeInDayMs.tdiv (60 * 1000)).tmod 60,
    (timeInDayMs.tdiv 1000).tmod 60, timeInDayMs.tmod 1000⟩, c)

/-! ## Formatting -/

/-- The codes of a string. -/
def codes (s : String) : List Nat := s.toList.map Char.toNat

/-- The decimal digits of a number. -/
def decimalDigits (n : Nat) : List Nat :=
  if n < 10 then [n] else decimalDigits (n / 10) ++ [n % 10]

/-- The digits with zeros in front up to a width. -/
def zeroPadded (width n : Nat) : List Nat :=
  List.replicate (width - (decimalDigits n).length) 0 ++ decimalDigits n

/-- What `printf` writes for `%0<width>d`; the sign counts. -/
def formatInt (width : Nat) (n : Int) : List Nat :=
  if n < 0 then 45 :: chars (zeroPadded (width - 1) n.natAbs) else chars (zeroPadded width n.natAbs)

/-- An argument of `StringStream::Add`. -/
inductive FmtElm where
  | int (n : Int)
  | cStr (s : List Nat)

def isControlChar (c : Nat) : Bool := (48 ≤ c && c ≤ 57) || c == 46 || c == 45

/-- One directive: a string, a character, or an integer padded with zeros. No other one is used on dates. -/
def formatElm (control : List Nat) (type : Nat) (elm : FmtElm) : Option (List Nat) :=
  match Char.ofNat type, elm with
  | 's', .cStr s => some s
  | 'c', .int n => some [n.toNat]
  | 'd', .int n =>
    match control with
    | 48 :: width => some (formatInt (Decimal.value (width.map (· - 48))) n)
    | _ => none
  | _, _ => none

/-- `StringStream::Add`. The first argument holds the control characters of the directive that is being read. -/
def add : Option (List Nat) → List Nat → List FmtElm → Option (List Nat)
  | _, [], _ => some []
  | none, c :: format, elms =>
    if c != 37 || elms.isEmpty then (add none format elms).map (c :: ·) else add (some []) format elms
  | some control, c :: format, elms =>
    if isControlChar c then add (some (control ++ [c])) format elms
    else
      match elms with
      | elm :: elms => do
        let s ← formatElm control c elm
        (add none format elms).map (s ++ ·)
      | [] => none

/-- `FormatDate`. -/
def formatDate (format : String) (elms : List FmtElm) : Option (List Nat) := add none (codes format) elms

/-! ## `ToDateString` -/

inductive ToDateStringMode where
  | kLocalDate
  | kLocalTime
  | kLocalDateAndTime
  | kUTCDateAndTime
  | kISODateAndTime
deriving DecidableEq

def kShortWeekDays : List String := ["Sun", "Mon", "Tue", "Wed", "Thu", "Fri", "Sat"]
def kShortMonths : List String :=
  ["Jan", "Feb", "Mar", "Apr", "May", "Jun", "Jul", "Aug", "Sep", "Oct", "Nov", "Dec"]

/-- The time zone as `ToDateString` prints it. -/
structure PrintedZone where
  sign : Nat
  hour : Int
  min : Int
  name : List Nat

/-- The switch over the modes. -/
def formatTime (mode : ToDateStringMode) (t : BrokenDownTime) (zone : PrintedZone) : Option (List Nat) := do
  let weekday ← kShortWeekDays[t.weekday.toNat]?
  let month ← kShortMonths[t.date.month.toNat]?
  let weekday := FmtElm.cStr (codes weekday)
  let monthName := FmtElm.cStr (codes month)
  let time : List FmtElm := [.int t.hour, .int t.min, .int t.sec]
  let zone : List FmtElm := [.int zone.sign, .int zone.hour, .int zone.min, .cStr zone.name]
  let isoFields : List FmtElm := [.int (t.date.month + 1), .int t.date.day] ++ time ++ [.int t.ms]
  match mode with
  | .kLocalDate =>
    formatDate (if t.date.year < 0 then "%s %s %02d %05d" else "%s %s %02d %04d")
      [weekday, monthName, .int t.date.day, .int t.date.year]
  | .kLocalTime => formatDate "%02d:%02d:%02d GMT%c%02d%02d (%s)" (time ++ zone)
  | .kLocalDateAndTime =>
    formatDate
      (if t.date.year < 0 then "%s %s %02d %05d %02d:%02d:%02d GMT%c%02d%02d (%s)"
        else "%s %s %02d %04d %02d:%02d:%02d GMT%c%02d%02d (%s)")
      ([weekday, monthName, .int t.date.day, .int t.date.year] ++ time ++ zone)
  | .kUTCDateAndTime =>
    formatDate
      (if t.date.year < 0 then "%s, %02d %s %05d %02d:%02d:%02d GMT" else "%s, %02d %s %04d %02d:%02d:%02d GMT")
      ([weekday, .int t.date.day, monthName, .int t.date.year] ++ time)
  | .kISODateAndTime =>
    if t.date.year ≥ 0 ∧ t.date.year ≤ 9999 then
      formatDate "%04d-%02d-%02dT%02d:%02d:%02d.%03dZ" (.int t.date.year :: isoFields)
    else if t.date.year < 0 then
      formatDate "-%06d-%02d-%02dT%02d:%02d:%02d.%03dZ" (.int (-t.date.year) :: isoFields)
    else formatDate "+%06d-%02d-%02dT%02d:%02d:%02d.%03dZ" (.int t.date.year :: isoFields)

/-- The time that is broken down. -/
def printedTime {z : TimeZone} (mode : ToDateStringMode) (c : LocalCache z) (timeMs : Int) :
    Option (Int × LocalCache z) :=
  if mode = .kUTCDateAndTime ∨ mode = .kISODateAndTime then some (timeMs, c) else c.toLocal timeMs

/-- `ToDateString`. -/
def toDateString {z : TimeZone} (timeVal : Double) (c : LocalCache z) (mode : ToDateStringMode) :
    Option (List Nat × LocalCache z) :=
  if timeVal.isNaN then do
    let s ← formatDate "Invalid Date" []
    some (s, c)
  else do
    let timeMs ← int64 timeVal.trunc
    let (localTimeMs, c) ← printedTime mode c timeMs
    let (t, dates) ← c.dates.breakDownTime localTimeMs
    let (offset, c) ← LocalCache.timezoneOffset { c with dates := dates } timeMs
    let offset ← int (-offset)
    let (name, c) ← c.localTimezone timeMs
    let s ← formatTime mode t ⟨if offset < 0 then 45 else 43, offset.natAbs / 60, offset.natAbs % 60, name⟩
    some (s, c)

/-! ## `ParseDateTimeString` -/

/-- `MakeTime`. -/
def makeTime (hour min sec ms : Double) : Double :=
  if hour.isFinite && min.isFinite && sec.isFinite && ms.isFinite then
    ((((doubleToInteger hour).mul (.ofRat (3600000 : Int))).add
      ((doubleToInteger min).mul (.ofRat (60000 : Int)))).add
        ((doubleToInteger sec).mul (.ofRat (1000 : Int)))).add (doubleToInteger ms)
  else .nan

/-- `MakeDate`. -/
def makeDate (day time : Double) : Double :=
  if day.isFinite && time.isFinite then time.add (day.mul (.ofRat (86400000 : Int))) else .nan

/-- `TimeClip`. -/
def timeClip (time : Double) : Double :=
  if (Double.ofRat (-kMaxTimeInMs : Int)).le time && time.le (.ofRat kMaxTimeInMs) then doubleToInteger time else .nan

/-- `ParseDateTimeString`. -/
def parseDateTimeString {z : TimeZone} (str : List Nat) (c : LocalCache z) : Option (Double × LocalCache z) := do
  match ← DateParser.parse str with
  | none => some (.nan, c)
  | some out => do
    let day ← makeDay (.ofRat out.year) (.ofRat out.month) (.ofRat out.day)
    let time := makeTime (.ofRat out.hour) (.ofRat out.minute) (.ofRat out.second) (.ofRat out.millisecond)
    let date := makeDate day time
    match out.utcOffset with
    | none =>
      if (Double.ofRat (-kMaxTimeBeforeUTCInMs : Int)).le date && date.le (.ofRat kMaxTimeBeforeUTCInMs) then do
        let (t, c) ← c.toUTC date.trunc
        some (timeClip (.ofRat t), c)
      else some (.nan, c)
    | some utcOffset => some (timeClip (date.sub ((Double.ofRat utcOffset).mul (.ofRat (1000 : Int)))), c)

end V8Core.Date
