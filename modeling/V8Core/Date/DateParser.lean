import V8Core.Lib.Decimal
import V8Core.Strings.CharPredicates
import Mathlib.Data.List.Basic
/-!
# The date parser

`DateParser` of `src/date/dateparser.h`, `dateparser-inl.h` and
`dateparser.cc`: the reader over the characters, the tokenizer, the composers
that collect the fields, the parser for ES5 date-time strings and the legacy
parser that takes over where the former stops. A character is its code; the
end of the text and a zero character look the same to the reader.

The flag that counts uses of the legacy parser is left out.
-/

namespace V8Core.Date.DateParser

/-- `Between`. -/
def between (x lo hi : Int) : Bool := lo ≤ x && x ≤ hi

/-! ## The reader -/

def asciiAlphaToLower (c : Nat) : Nat := c ||| 0x20

def kMaxSignificantDigits : Nat := 9

/-- The second loop of `ReadUnsignedNumeral`; `i` counts the digits after the leading zeros. -/
def readDigits (n i : Nat) : List Nat → Nat × List Nat
  | [] => (n, [])
  | c :: s =>
    if isDecimalDigit c then readDigits (if i < kMaxSignificantDigits then n * 10 + (c - 48) else n) (i + 1) s
    else (n, c :: s)

/-- `ReadUnsignedNumeral`: the value and what is left of the text. -/
def readUnsignedNumeral (s : List Nat) : Nat × List Nat := readDigits 0 0 (s.dropWhile (· == 48))

/-- A character that goes on with a word. -/
def isWordChar (c : Nat) : Bool := 65 ≤ c && !isWhiteSpace c

/-- `ReadWord`: the beginning of the word in lower case, padded with zeros, its length and what is left. -/
def readWord (s : List Nat) (size : Nat) : List Nat × Nat × List Nat :=
  let word := s.takeWhile isWordChar
  let beginning := (word.take size).map asciiAlphaToLower
  (beginning ++ List.replicate (size - beginning.length) 0, word.length, s.dropWhile isWordChar)

/-- `SkipParentheses` behind its test for the opening one. -/
def skipParentheses (balance : Int) : List Nat → List Nat
  | [] => []
  | c :: s =>
    let balance := if c = 41 then balance - 1 else if c = 40 then balance + 1 else balance
    if balance > 0 ∧ s.headD 0 ≠ 0 then skipParentheses balance s else s

/-! ## Tokens -/

inductive KeywordType where
  | invalid
  | monthName
  | timeZoneName
  | timeSeparator
  | amPm
deriving DecidableEq, Repr

inductive DateToken where
  | invalid
  | unknown
  | whiteSpace (length : Nat)
  | number (value length : Nat)
  | symbol (c : Nat)
  | endOfInput
  | keyword (type : KeywordType) (value : Int) (length : Nat)
deriving DecidableEq, Repr

namespace DateToken

def isNumber : DateToken → Bool
  | number _ _ => true
  | _ => false

/-- The value of a number; it is only asked for numbers. -/
def numberValue : DateToken → Nat
  | number value _ => value
  | _ => 0

def isFixedLengthNumber (length : Nat) : DateToken → Bool
  | number _ l => l == length
  | _ => false

def isSymbol (c : Nat) : DateToken → Bool
  | symbol c' => c' == c
  | _ => false

def isAsciiSign : DateToken → Bool
  | symbol c => c == 45 || c == 43
  | _ => false

/-- One for a plus, minus one for a minus. -/
def asciiSign : DateToken → Int
  | symbol c => 44 - c
  | _ => 0

def isKeywordType (type : KeywordType) : DateToken → Bool
  | keyword t _ _ => t == type
  | _ => false

def isKeywordZ : DateToken → Bool
  | keyword .timeZoneName value length => length == 1 && value == 0
  | _ => false

def isWhiteSpaceToken : DateToken → Bool
  | whiteSpace _ => true
  | _ => false

end DateToken

/-- The rows of `KeywordTable::array` before the closing one. -/
def keywordTable : List (List Nat × KeywordType × Int) :=
  [([106, 97, 110], .monthName, 1), ([102, 101, 98], .monthName, 2), ([109, 97, 114], .monthName, 3),
    ([97, 112, 114], .monthName, 4), ([109, 97, 121], .monthName, 5), ([106, 117, 110], .monthName, 6),
    ([106, 117, 108], .monthName, 7), ([97, 117, 103], .monthName, 8), ([115, 101, 112], .monthName, 9),
    ([111, 99, 116], .monthName, 10), ([110, 111, 118], .monthName, 11), ([100, 101, 99], .monthName, 12),
    ([97, 109, 0], .amPm, 0), ([112, 109, 0], .amPm, 12), ([117, 116, 0], .timeZoneName, 0),
    ([117, 116, 99], .timeZoneName, 0), ([122, 0, 0], .timeZoneName, 0), ([103, 109, 116], .timeZoneName, 0),
    ([99, 100, 116], .timeZoneName, -5), ([99, 115, 116], .timeZoneName, -6), ([101, 100, 116], .timeZoneName, -4),
    ([101, 115, 116], .timeZoneName, -5), ([109, 100, 116], .timeZoneName, -6), ([109, 115, 116], .timeZoneName, -7),
    ([112, 100, 116], .timeZoneName, -7), ([112, 115, 116], .timeZoneName, -8), ([116, 0, 0], .timeSeparator, 0)]

/-- `KeywordTable::Lookup` with type and value of the row it finds; the closing row if there is none. -/
def lookup (pre : List Nat) (len : Nat) : KeywordType × Int :=
  match keywordTable.find? fun row => row.1 == pre && (len ≤ 3 || row.2.1 == .monthName) with
  | some row => row.2
  | none => (.invalid, 0)

/-- `Scan`: the next token and what is left of the text. -/
def scan : List Nat → DateToken × List Nat
  | [] => (.endOfInput, [])
  | ch :: s =>
    if ch = 0 then (.endOfInput, ch :: s)
    else if isDecimalDigit ch then
      let (n, rest) := readUnsignedNumeral (ch :: s)
      (.number n ((ch :: s).length - rest.length), rest)
    else if ch = 58 ∨ ch = 45 ∨ ch = 43 ∨ ch = 46 ∨ ch = 41 then (.symbol ch, s)
    else if isWordChar ch then
      let (pre, length, rest) := readWord (ch :: s) 3
      let (type, value) := lookup pre length
      (.keyword type value length, rest)
    else if isWhiteSpaceOrLineTerminator ch then (.whiteSpace 1, s)
    else if ch = 40 then (.unknown, skipParentheses 0 (ch :: s))
    else (.unknown, s)

/-- `DateStringTokenizer`: one token of lookahead. -/
structure Scanner where
  peek : DateToken
  rest : List Nat
deriving DecidableEq, Repr

namespace Scanner

def of (s : List Nat) : Scanner := ⟨(scan s).1, (scan s).2⟩

def next (sc : Scanner) : DateToken × Scanner := (sc.peek, of sc.rest)

def skipSymbol (sc : Scanner) (c : Nat) : Bool × Scanner :=
  if sc.peek.isSymbol c then (true, of sc.rest) else (false, sc)

end Scanner

/-- `ReadMilliseconds`. -/
def readMilliseconds (number length : Nat) : Nat :=
  if length < 3 then
    if length = 1 then number * 100 else if length = 2 then number * 10 else number
  else if length > 3 then
    let length := if length > kMaxSignificantDigits then kMaxSignificantDigits else length
    number / 10 ^ (length - 3)
  else number

def DateToken.readMilliseconds : DateToken → Nat
  | number value length => DateParser.readMilliseconds value length
  | _ => 0

/-! ## The composers -/

def isMinute (x : Int) : Bool := between x 0 59
def isHour (x : Int) : Bool := between x 0 23
def isSecond (x : Int) : Bool := between x 0 59
def isHour12 (x : Int) : Bool := between x 0 12
def isMillisecond (x : Int) : Bool := between x 0 999
def isMonth (x : Int) : Bool := between x 1 12
def isDay (x : Int) : Bool := between x 1 31

def kSmiMaxValue : Int := 2147483647
def kSmiMinValue : Int := -2147483648

structure TimeZoneComposer where
  sign : Option Int
  hour : Option Int
  minute : Option Int
deriving DecidableEq, Repr

namespace TimeZoneComposer

def empty : TimeZoneComposer := ⟨none, none, none⟩

def set (_ : TimeZoneComposer) (offsetInHours : Int) : TimeZoneComposer :=
  let sign := if offsetInHours < 0 then -1 else 1
  ⟨some sign, some (offsetInHours * sign), some 0⟩

def setSign (tz : TimeZoneComposer) (sign : Int) : TimeZoneComposer :=
  { tz with sign := some (if sign < 0 then -1 else 1) }

def isExpecting (tz : TimeZoneComposer) (n : Int) : Bool := tz.hour.isSome && tz.minute.isNone && isMinute n

def isUTC (tz : TimeZoneComposer) : Bool := tz.hour == some 0 && tz.minute == some 0

def isEmpty (tz : TimeZoneComposer) : Bool := tz.hour.isNone

/-- `Write`: `none` is failure, an offset of `none` is the missing value. -/
def write (tz : TimeZoneComposer) : Option (Option Int) :=
  match tz.sign with
  | some sign =>
    let totalSeconds := (tz.hour.getD 0 * 3600 + tz.minute.getD 0 * 60) % 2 ^ 32
    if totalSeconds > kSmiMaxValue then none else some (some (if sign < 0 then -totalSeconds else totalSeconds))
  | none => some none

end TimeZoneComposer

structure TimeComposer where
  comp : List Int
  hourOffset : Option Int
deriving DecidableEq, Repr

namespace TimeComposer

def kSize : Nat := 4

def empty : TimeComposer := ⟨[], none⟩

def isEmpty (time : TimeComposer) : Bool := time.comp.length == 0

def isExpecting (time : TimeComposer) (n : Int) : Bool :=
  (time.comp.length == 1 && isMinute n) || (time.comp.length == 2 && isSecond n) ||
    (time.comp.length == 3 && isMillisecond n)

def add (time : TimeComposer) (n : Int) : Bool × TimeComposer :=
  if time.comp.length < kSize then (true, { time with comp := time.comp ++ [n] }) else (false, time)

/-- Fills the remaining slots. -/
def fill (time : TimeComposer) : TimeComposer :=
  { time with comp := time.comp ++ List.replicate (kSize - time.comp.length) 0 }

def addFinal (time : TimeComposer) (n : Int) : Bool × TimeComposer :=
  match time.add n with
  | (false, time) => (false, time)
  | (true, time) => (true, time.fill)

/-- `Write`: hour, minute, second and millisecond. -/
def write (time : TimeComposer) : Option (Int × Int × Int × Int) :=
  let comp := time.fill.comp
  let minute := comp.getD 1 0
  let second := comp.getD 2 0
  let millisecond := comp.getD 3 0
  let hour := match time.hourOffset with
    | none => some (comp.getD 0 0)
    | some offset => if isHour12 (comp.getD 0 0) then some ((comp.getD 0 0).tmod 12 + offset) else none
  match hour with
  | none => none
  | some hour =>
    if !isHour hour || !isMinute minute || !isSecond second || !isMillisecond millisecond then
      if hour ≠ 24 ∨ minute ≠ 0 ∨ second ≠ 0 ∨ millisecond ≠ 0 then none
      else some (hour, minute, second, millisecond)
    else some (hour, minute, second, millisecond)

end TimeComposer

structure DayComposer where
  comp : List Int
  namedMonth : Option Int
  isIsoDate : Bool
deriving DecidableEq, Repr

namespace DayComposer

def kSize : Nat := 3

def empty : DayComposer := ⟨[], none, false⟩

def isEmpty (day : DayComposer) : Bool := day.comp.length == 0

def add (day : DayComposer) (n : Int) : Bool × DayComposer :=
  if day.comp.length < kSize then (true, { day with comp := day.comp ++ [n] }) else (false, day)

/-- The fields in the order the string seems to give them: year, month and day. -/
def order (day : DayComposer) (comp : List Int) : Int × Option Int × Option Int :=
  match day.namedMonth with
  | none =>
    if day.isIsoDate || (comp.length == 3 && !isDay (comp.getD 0 0)) then (comp.getD 0 0, comp[1]?, comp[2]?)
    else (if comp.length == 3 then comp.getD 2 0 else 0, comp[0]?, comp[1]?)
  | some month =>
    if comp.length == 1 then (0, some month, comp[0]?)
    else if !isDay (comp.getD 0 0) then (comp.getD 0 0, some month, comp[1]?)
    else (comp.getD 1 0, some month, comp[0]?)

/-- `Write`: year, month counted from zero and day. -/
def write (day : DayComposer) : Option (Int × Int × Int) :=
  if day.comp.length < 1 then none
  else
    let comp := day.comp ++ List.replicate (kSize - day.comp.length) 1
    match day.order comp with
    | (year, some month, some d) =>
      let year :=
        if day.isIsoDate then year
        else if between year 0 49 then year + 2000
        else if between year 50 99 then year + 1900
        else year
      if !(between year kSmiMinValue kSmiMaxValue) || !isMonth month || !isDay d then none
      else some (year, month - 1, d)
    | _ => none

end DayComposer

/-! ## Parsing -/

/-- The tokenizer and the composers. -/
structure State where
  scanner : Scanner
  day : DayComposer
  time : TimeComposer
  tz : TimeZoneComposer
deriving DecidableEq, Repr

namespace State

def peek (st : State) : DateToken := st.scanner.peek

def next (st : State) : DateToken × State := (st.scanner.next.1, { st with scanner := st.scanner.next.2 })

def skipSymbol (st : State) (c : Nat) : Bool × State :=
  ((st.scanner.skipSymbol c).1, { st with scanner := (st.scanner.skipSymbol c).2 })

def addDay (st : State) (n : Int) : State := { st with day := (st.day.add n).2 }

def addTime (st : State) (n : Int) : State := { st with time := (st.time.add n).2 }

end State

namespace State

variable {t : DateToken} {rest : List Nat} {sc : Scanner} {day : DayComposer} {time : TimeComposer}
  {tz : TimeZoneComposer}

@[simp] theorem peek_mk : peek ⟨⟨t, rest⟩, day, time, tz⟩ = t := rfl

@[simp] theorem next_mk : next ⟨⟨t, rest⟩, day, time, tz⟩ = (t, ⟨.of rest, day, time, tz⟩) := rfl

@[simp] theorem skipSymbol_same (c : Nat) :
    skipSymbol ⟨⟨.symbol c, rest⟩, day, time, tz⟩ c = (true, ⟨.of rest, day, time, tz⟩) := by
  simp [skipSymbol, Scanner.skipSymbol, DateToken.isSymbol]

theorem skipSymbol_other {c : Nat} (h : sc.peek.isSymbol c = false) :
    skipSymbol ⟨sc, day, time, tz⟩ c = (false, ⟨sc, day, time, tz⟩) := by
  simp [skipSymbol, Scanner.skipSymbol, h]

end State

@[simp] theorem isFixedLengthNumber_number (value length n : Nat) :
    (DateToken.number value length).isFixedLengthNumber n = (length == n) := rfl

@[simp] theorem numberValue_number (value length : Nat) : (DateToken.number value length).numberValue = value := rfl

/-- A part of `ParseES5DateTime`: the state it goes on with, or the token that it returns early. -/
abbrev ES5 := Except (DateToken × State) State

def invalid (st : State) : ES5 := .error (.invalid, st)

/-- The next token, handed to the legacy parser. -/
def giveUp (st : State) : ES5 := .error st.next

/-- The mandatory year. -/
def parseES5Year (st : State) : ES5 :=
  if st.peek.isAsciiSign then
    let (signToken, st) := st.next
    if !st.peek.isFixedLengthNumber 6 then .error (signToken, st)
    else
      let (yearToken, st) := st.next
      if signToken.asciiSign < 0 ∧ yearToken.numberValue = 0 then .error (signToken, st)
      else .ok (st.addDay (signToken.asciiSign * yearToken.numberValue))
  else if st.peek.isFixedLengthNumber 4 then .ok (st.next.2.addDay st.next.1.numberValue)
  else giveUp st

/-- The optional month and day. -/
def parseES5MonthDay (st : State) : ES5 :=
  match st.skipSymbol 45 with
  | (false, st) => .ok st
  | (true, st) =>
    if !st.peek.isFixedLengthNumber 2 || !isMonth st.peek.numberValue then giveUp st
    else
      match (st.next.2.addDay st.next.1.numberValue).skipSymbol 45 with
      | (false, st) => .ok st
      | (true, st) =>
        if !st.peek.isFixedLengthNumber 2 || !isDay st.peek.numberValue then giveUp st
        else .ok (st.next.2.addDay st.next.1.numberValue)

/-- Hour and minute, behind the time separator. -/
def parseES5HourMinute (st : State) : ES5 :=
  if !st.peek.isFixedLengthNumber 2 || !between st.peek.numberValue 0 24 then invalid st
  else
    let hourIs24 := st.peek.numberValue == 24
    match (st.next.2.addTime st.next.1.numberValue).skipSymbol 58 with
    | (false, st) => invalid st
    | (true, st) =>
      if !st.peek.isFixedLengthNumber 2 || !isMinute st.peek.numberValue ||
          (hourIs24 && Nat.blt 0 st.peek.numberValue) then invalid st
      else .ok (st.next.2.addTime st.next.1.numberValue)

/-- The optional second and fraction. -/
def parseES5Second (hourIs24 : Bool) (st : State) : ES5 :=
  match st.skipSymbol 58 with
  | (false, st) => .ok st
  | (true, st) =>
    if !st.peek.isFixedLengthNumber 2 || !isSecond st.peek.numberValue ||
        (hourIs24 && Nat.blt 0 st.peek.numberValue) then invalid st
    else
      match (st.next.2.addTime st.next.1.numberValue).skipSymbol 46 with
      | (false, st) => .ok st
      | (true, st) =>
        if !st.peek.isNumber || (hourIs24 && Nat.blt 0 st.peek.numberValue) then invalid st
        else .ok (st.next.2.addTime st.next.1.readMilliseconds)

/-- The optional time zone. -/
def parseES5TimeZone (st : State) : ES5 :=
  if st.peek.isKeywordZ then .ok { st.next.2 with tz := st.next.2.tz.set 0 }
  else if st.peek.isSymbol 43 || st.peek.isSymbol 45 then
    let (signToken, st) := st.next
    let tz := st.tz.setSign (if signToken.isSymbol 43 then 1 else -1)
    if st.peek.isFixedLengthNumber 4 then
      let (hourmin, st) := st.next
      let hour := hourmin.numberValue / 100
      let min := hourmin.numberValue % 100
      if !isHour hour || !isMinute min then invalid { st with tz := tz }
      else .ok { st with tz := { tz with hour := some hour, minute := some min } }
    else if !st.peek.isFixedLengthNumber 2 || !isHour st.peek.numberValue then invalid { st with tz := tz }
    else
      let tz := { tz with hour := some (st.peek.numberValue : Int) }
      match st.next.2.skipSymbol 58 with
      | (false, st) => invalid { st with tz := tz }
      | (true, st) =>
        if !st.peek.isFixedLengthNumber 2 || !isMinute st.peek.numberValue then invalid { st with tz := tz }
        else .ok { st.next.2 with tz := { tz with minute := some (st.peek.numberValue : Int) } }
  else .ok st

/-- The optional time. -/
def parseES5Time (st : State) : ES5 :=
  if !st.peek.isKeywordType .timeSeparator then
    if st.peek ≠ .endOfInput then giveUp st else .ok st
  else do
    let st := st.next.2
    let hourIs24 := st.peek.numberValue == 24
    let st ← parseES5HourMinute st
    let st ← parseES5Second hourIs24 st
    let st ← parseES5TimeZone st
    if st.peek ≠ .endOfInput then invalid st else .ok st

/-- Everything up to the end of the string. -/
def parseES5Fields (st : State) : ES5 := do
  let st ← parseES5Year st
  let st ← parseES5MonthDay st
  parseES5Time st

/-- `ParseES5DateTime`: the token to go on with. -/
def parseES5DateTime (st : State) : DateToken × State :=
  match parseES5Fields st with
  | .error r => r
  | .ok st =>
    let tz := if st.tz.isEmpty && st.time.isEmpty then st.tz.set 0 else st.tz
    (.endOfInput, { st with tz := tz, day := { st.day with isIsoDate := true } })

/-- A number in the legacy parser; `none` rejects the string. -/
def legacyNumber (st : State) (n : Int) : Option State :=
  match st.skipSymbol 58 with
  | (true, st) =>
    match st.skipSymbol 58 with
    | (true, st) => if !st.time.isEmpty then none else some ((st.addTime n).addTime 0)
    | (false, st) =>
      if (st.time.add n).1 then
        let st := st.addTime n
        some (if st.peek.isSymbol 46 then st.next.2 else st)
      else none
  | (false, st) =>
    match st.skipSymbol 46 with
    | (dot, st) =>
      if dot && st.time.isExpecting n then
        let st := st.addTime n
        if !st.peek.isNumber then none
        else
          let ms := st.next.1.readMilliseconds
          some { st.next.2 with time := (st.next.2.time.addFinal ms).2 }
      else if st.tz.isExpecting n then some { st with tz := { st.tz with minute := some n } }
      else if st.time.isExpecting n then
        let st := { st with time := (st.time.addFinal n).2 }
        if st.peek ≠ .endOfInput ∧ !st.peek.isWhiteSpaceToken ∧ !st.peek.isKeywordZ ∧ !st.peek.isAsciiSign then none
        else some st
      else if (st.day.add n).1 then some ((st.addDay n).skipSymbol 45).2
      else none

/-- A word in the legacy parser. -/
def legacyKeyword (st : State) (hasReadNumber : Bool) (type : KeywordType) (value : Int) : Option State :=
  if type = .amPm ∧ !st.time.isEmpty then some { st with time := { st.time with hourOffset := some value } }
  else if type = .monthName then
    some ({ st with day := { st.day with namedMonth := some value } }.skipSymbol 45).2
  else if type = .timeZoneName ∧ hasReadNumber then some { st with tz := st.tz.set value }
  else if hasReadNumber then none
  else if st.peek.isNumber then none
  else some st

/-- A sign that starts a UTC offset in the legacy parser. -/
def legacySign (st : State) (sign : Int) : Option State :=
  let tz := st.tz.setSign sign
  let (n, length, st) := match st.peek with
    | .number value length => (value, length, st.next.2)
    | _ => (0, 0, st)
  if st.peek.isSymbol 58 then some { st with tz := { tz with hour := some n, minute := none } }
  else if length = 2 ∨ length = 1 then some { st with tz := { tz with hour := some n, minute := some 0 } }
  else if length = 4 ∨ length = 3 then
    some { st with tz := { tz with hour := some (n / 100 : Nat), minute := some (n % 100 : Nat) } }
  else none

/-- One round of the legacy parser, with the flag that a number has been read. -/
def legacyToken (st : State) (hasReadNumber : Bool) (token : DateToken) : Option (State × Bool) :=
  match token with
  | .number n _ => (legacyNumber st n).map fun st => (st, true)
  | .keyword type value _ => (legacyKeyword st hasReadNumber type value).map fun st => (st, hasReadNumber)
  | token =>
    if token.isAsciiSign && (st.tz.isUTC || !st.time.isEmpty) then
      (legacySign st token.asciiSign).map fun st => (st, true)
    else if (token.isAsciiSign || token.isSymbol 41) && hasReadNumber then none
    else some (st, hasReadNumber)

/-- The loop of the legacy parser: the outer `none` stands for fuel that ran out. -/
def legacyLoop : Nat → State → Bool → DateToken → Option (Option State)
  | 0, _, _, _ => none
  | fuel + 1, st, hasReadNumber, token =>
    if token = .endOfInput then some (some st)
    else
      match legacyToken st hasReadNumber token with
      | none => some none
      | some (st, hasReadNumber) => legacyLoop fuel st.next.2 hasReadNumber st.next.1

/-- The output array. -/
structure Output where
  year : Int
  month : Int
  day : Int
  hour : Int
  minute : Int
  second : Int
  millisecond : Int
  utcOffset : Option Int
deriving DecidableEq, Repr

def State.write (st : State) : Option Output :=
  match st.day.write, st.time.write, st.tz.write with
  | some (year, month, day), some (hour, minute, second, millisecond), some utcOffset =>
    some ⟨year, month, day, hour, minute, second, millisecond, utcOffset⟩
  | _, _, _ => none

/-- The characters that are left, the token in front included. -/
def Scanner.size (sc : Scanner) : Nat := sc.rest.length + if sc.peek = .endOfInput then 0 else 1

/-- `Parse`. -/
def parse (str : List Nat) : Option (Option Output) :=
  let (token, st) := parseES5DateTime ⟨.of str, .empty, .empty, .empty⟩
  if token = .invalid then some none
  else (legacyLoop (st.scanner.size + 2) st (!st.day.isEmpty) token).map fun st => st.bind State.write

/-! ## The legacy parser ends -/

theorem readDigits_length (n i : Nat) (s : List Nat) : (readDigits n i s).2.length ≤ s.length := by
  induction s generalizing n i with
  | nil => rfl
  | cons c s ih =>
    rw [readDigits]
    split
    · exact le_trans (ih _ _) (by simp)
    · rfl

theorem readUnsignedNumeral_length {c : Nat} {s : List Nat} (hc : isDecimalDigit c = true) :
    (readUnsignedNumeral (c :: s)).2.length < (c :: s).length := by
  rw [readUnsignedNumeral, List.dropWhile_cons]
  split
  · exact lt_of_le_of_lt (readDigits_length _ _ _)
      (Nat.lt_succ_of_le (List.dropWhile_sublist _).length_le)
  · rw [readDigits, if_pos hc]
    exact Nat.lt_succ_of_le (readDigits_length _ _ _)

theorem skipParentheses_length (balance : Int) (s : List Nat) : (skipParentheses balance s).length ≤ s.length - 1 := by
  induction s generalizing balance with
  | nil => rfl
  | cons c s ih =>
    rw [skipParentheses]
    generalize (if c = 41 then balance - 1 else if c = 40 then balance + 1 else balance) = b
    split
    · exact le_trans (ih b) (by simp)
    · simp

/-- Every token but the end takes at least one character. -/
theorem scan_length (s : List Nat) : (scan s).1 = .endOfInput ∧ (scan s).2 = s ∨ (scan s).2.length < s.length := by
  cases s with
  | nil => exact Or.inl ⟨rfl, rfl⟩
  | cons c s =>
    obtain ⟨r, hr⟩ : ∃ r, scan (c :: s) = r := ⟨_, rfl⟩
    rw [hr]
    rw [scan] at hr
    split_ifs at hr with h0 hdigit hsymbol hword hspace hparen <;> subst hr
    · exact Or.inl ⟨rfl, rfl⟩
    · exact Or.inr (readUnsignedNumeral_length hdigit)
    · exact Or.inr (by simp)
    · refine Or.inr ?_
      simp only [readWord, List.dropWhile_cons, hword]
      exact Nat.lt_succ_of_le (List.dropWhile_sublist _).length_le
    · exact Or.inr (by simp)
    · exact Or.inr (Nat.lt_succ_of_le (skipParentheses_length 0 (c :: s)))
    · exact Or.inr (by simp)

theorem Scanner.size_of (s : List Nat) : (Scanner.of s).size ≤ s.length := by
  rcases scan_length s with ⟨hend, hrest⟩ | hlt
  · rw [Scanner.size, Scanner.of, if_pos hend, hrest, Nat.add_zero]
  · rw [Scanner.size, Scanner.of]
    dsimp only
    split <;> omega

theorem State.size_next (st : State) : st.next.2.scanner.size ≤ st.scanner.rest.length := Scanner.size_of _

theorem State.size_next_le (st : State) : st.next.2.scanner.size ≤ st.scanner.size :=
  le_trans st.size_next (Nat.le_add_right _ _)

theorem State.size_skipSymbol (st : State) (c : Nat) : (st.skipSymbol c).2.scanner.size ≤ st.scanner.size := by
  unfold State.skipSymbol Scanner.skipSymbol
  split
  · exact st.size_next_le
  · rfl

variable {st st' : State}

theorem legacyNumber_size {n : Int} (h : legacyNumber st n = some st') :
    st'.scanner.size ≤ st.scanner.size := by
  have hcolon := st.size_skipSymbol 58
  unfold legacyNumber at h
  split at h
  · next st₁ hst₁ =>
    rw [hst₁] at hcolon
    have hcolon₂ := st₁.size_skipSymbol 58
    split at h
    · next st₂ hst₂ =>
      rw [hst₂] at hcolon₂
      split_ifs at h
      obtain rfl := Option.some_inj.mp h
      exact le_trans hcolon₂ hcolon
    · next st₂ hst₂ =>
      rw [hst₂] at hcolon₂
      split_ifs at h
      obtain rfl := Option.some_inj.mp h
      split
      · exact le_trans (State.size_next_le _) (le_trans hcolon₂ hcolon)
      · exact le_trans hcolon₂ hcolon
  · next st₁ hst₁ =>
    rw [hst₁] at hcolon
    have hdot := st₁.size_skipSymbol 46
    generalize st₁.skipSymbol 46 = r at h hdot
    obtain ⟨dot, st₂⟩ := r
    have hle : st₂.scanner.size ≤ st.scanner.size := le_trans hdot hcolon
    dsimp only at h
    split_ifs at h <;> obtain rfl := Option.some_inj.mp h
    · exact le_trans (State.size_next_le (st₂.addTime n)) hle
    · exact hle
    · exact hle
    · exact le_trans (State.size_skipSymbol (st₂.addDay n) 45) hle

theorem legacyKeyword_size {b : Bool} {type : KeywordType} {value : Int}
    (h : legacyKeyword st b type value = some st') : st'.scanner.size ≤ st.scanner.size := by
  unfold legacyKeyword at h
  split_ifs at h <;> obtain rfl := Option.some_inj.mp h
  · rfl
  · exact State.size_skipSymbol { st with day := { st.day with namedMonth := some value } } 45
  · rfl
  · rfl

theorem legacySign_size {sign : Int} (h : legacySign st sign = some st') :
    st'.scanner.size ≤ st.scanner.size := by
  have hnext := st.size_next_le
  unfold legacySign at h
  dsimp only at h
  split at h <;> split_ifs at h <;> obtain rfl := Option.some_inj.mp h <;> first | exact hnext | rfl

theorem legacyToken_size {b b' : Bool} {token : DateToken}
    (h : legacyToken st b token = some (st', b')) : st'.scanner.size ≤ st.scanner.size := by
  unfold legacyToken at h
  split at h
  · obtain ⟨_, hnum, ⟨⟩⟩ := Option.map_eq_some_iff.1 h
    exact legacyNumber_size hnum
  · obtain ⟨_, hkey, ⟨⟩⟩ := Option.map_eq_some_iff.1 h
    exact legacyKeyword_size hkey
  · split_ifs at h
    · obtain ⟨_, hsign, ⟨⟩⟩ := Option.map_eq_some_iff.1 h
      exact legacySign_size hsign
    · cases h
      rfl

theorem legacyLoop_defined {fuel : Nat} {st : State} (h : st.scanner.size + 2 ≤ fuel) (b : Bool) (token : DateToken) :
    ∃ r, legacyLoop fuel st b token = some r := by
  induction fuel generalizing st b token with
  | zero => omega
  | succ fuel ih =>
    rw [legacyLoop]
    split_ifs with hend
    · exact ⟨_, rfl⟩
    · cases hstep : legacyToken st b token with
      | none => exact ⟨_, rfl⟩
      | some r =>
        obtain ⟨st', b'⟩ := r
        have hle := legacyToken_size hstep
        have hnext := st'.size_next
        by_cases hpeek : st'.next.1 = .endOfInput
        · -- the next round sees the end
          obtain ⟨fuel', rfl⟩ : ∃ fuel', fuel = fuel' + 1 := ⟨fuel - 1, by omega⟩
          exact ⟨some st'.next.2, if_pos hpeek⟩
        · have hsize : st'.scanner.size = st'.scanner.rest.length + 1 := congrArg (_ + ·) (if_neg hpeek)
          exact ih (by omega) b' st'.next.1

/-- The fields are in their ranges; 24:00 is the end of a day. -/
structure Output.InRange (out : Output) : Prop where
  year : between out.year kSmiMinValue kSmiMaxValue
  month : between out.month 0 11
  day : isDay out.day
  time : isHour out.hour ∧ isMinute out.minute ∧ isSecond out.second ∧ isMillisecond out.millisecond ∨
    out.hour = 24 ∧ out.minute = 0 ∧ out.second = 0 ∧ out.millisecond = 0
  utcOffset : ∀ seconds ∈ out.utcOffset, between seconds (-kSmiMaxValue) kSmiMaxValue

theorem State.write_inRange {out : Output} (h : st.write = some out) : out.InRange := by
  rw [State.write] at h
  split at h
  · next hday htime htz =>
    cases h
    rw [DayComposer.write] at hday
    rw [TimeZoneComposer.write] at htz
    refine ⟨by grind, by grind [isMonth, between], by grind, ?_, by grind [between, kSmiMaxValue]⟩
    rw [TimeComposer.write] at htime
    split at htime
    · cases htime
    · split_ifs at htime with hrange hend <;> cases htime
      · exact .inr (by simpa using hend)
      · exact .inl (by simpa [and_assoc] using hrange)
  · cases h

/-- Every string is rejected or gives fields in their ranges: the fuel is enough. -/
theorem parse_inRange (str : List Nat) : ∃ r, parse str = some r ∧ ∀ out ∈ r, out.InRange := by
  unfold parse
  split
  next token st _ =>
    split
    · exact ⟨none, rfl, by simp⟩
    · obtain ⟨r, hr⟩ := legacyLoop_defined (le_refl (st.scanner.size + 2)) (!st.day.isEmpty) token
      refine ⟨_, by rw [hr]; rfl, fun out hout => ?_⟩
      obtain ⟨st, -, hwrite⟩ := Option.bind_eq_some_iff.1 hout
      exact State.write_inRange hwrite

end V8Core.Date.DateParser
