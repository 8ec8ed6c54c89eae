import V8Core.Lib.Decimal
import V8Core.Numbers.StringToIntDouble
/-!
# Strings to numbers

`InternalStringToDouble` of `src/numbers/conversions.cc`. The text is read
once from left to right: white space, sign, `Infinity` or a literal with a
radix, or else decimal digits with point and exponent. At most 772 significant
digits are kept; the position of the point, dropped digits and the written
exponent all go into one `int`. The labels of the source are functions here,
each for the text that is left. Overflow of an `int` is undefined, here `none`.
-/

namespace V8Core.Numbers

open SignedInt

/-- The flags of `ConversionFlag`. -/
structure ConversionFlags where
  allowHex : Bool
  allowOctal : Bool
  allowImplicitOctal : Bool
  allowBinary : Bool
  allowTrailingJunk : Bool
  deriving DecidableEq, Repr

inductive Sign
  | none
  | negative
  | positive
  deriving DecidableEq, Repr

/-- The digits a buffer of characters holds. -/
def digitsOfBuffer (buffer : List Nat) : List Nat := buffer.map (· - 48)

/--
`Strtod`, which rounds correctly whatever decimal digits it gets, as long as the exponent and the number of
digits stay inside `int`.
-/
structure Strtod where
  strtod : List Nat → Int → Double
  nearest : ∀ buffer exponent, Decimal.IsDigits (digitsOfBuffer buffer) →
    -(kMaxInt : Int) ≤ exponent → exponent + buffer.length ≤ kMaxInt →
      strtod buffer exponent = .ofRat (Decimal.value (digitsOfBuffer buffer) * 10 ^ exponent)

/-- The conversion by exact arithmetic. -/
def Strtod.exact : Strtod where
  strtod buffer exponent := .ofRat (Decimal.value (digitsOfBuffer buffer) * 10 ^ exponent)
  nearest _ _ _ _ _ := rfl

def kMaxSignificantDigits : Nat := 772

/-- The local variables behind the sign. -/
structure Reading where
  buffer : List Nat := []
  exponent : Int := 0
  significantDigits : Nat := 0
  insignificantDigits : Nat := 0
  nonzeroDigitDropped : Bool := false
  octal : Bool
  deriving DecidableEq, Repr

def isBinaryDigit (c : Nat) : Bool := c == 48 || c == 49

def signedZero (sign : Sign) : Double := .zero (sign == .negative)

def kInfinityString : List Nat := [73, 110, 102, 105, 110, 105, 116, 121]

/-- `SubStringEquals`: the text behind the given one. -/
def subStringEquals : List Nat → List Nat → Option (List Nat)
  | chars, [] => some chars
  | [], _ :: _ => none
  | c :: chars, s :: substring => if c = s then subStringEquals chars substring else none

section

variable (S : Strtod) (flags : ConversionFlags) (sign : Sign)

/-- The label `parsing_done`. -/
def parsingDone (p : Reading) : Option Double := do
  let exponent ← int (p.exponent + p.insignificantDigits)
  if p.octal then internalStringToIntDouble 3 p.buffer (sign == .negative) flags.allowTrailingJunk
  else if p.nonzeroDigitDropped then do
    let exponent ← int (exponent - 1)
    some ((S.strtod (p.buffer ++ [49]) exponent).withSign (sign == .negative))
  else some ((S.strtod p.buffer exponent).withSign (sign == .negative))

/-- The check for trailing junk before the label. -/
def parseTrailing (p : Reading) (chars : List Nat) : Option Double :=
  if !flags.allowTrailingJunk && !(advanceToNonspace chars).isEmpty then some .nan
  else parsingDone S flags sign p

def maxExponent : Nat := kMaxInt / 2

/-- A digit of the written exponent, which does not grow above the limit. -/
def addExponentDigit (num digit : Nat) : Option Nat :=
  if maxExponent / 10 ≤ num ∧ ¬(num = maxExponent / 10 ∧ digit ≤ maxExponent % 10) then some maxExponent
  else natInt (num * 10 + digit)

/-- The loop over the digits of the written exponent. -/
def readExponent (num : Nat) : List Nat → Option (Nat × List Nat)
  | [] => some (num, [])
  | c :: rest =>
    if isDecimalDigit c then do
      let num ← addExponentDigit num (c - 48)
      readExponent num rest
    else some (num, c :: rest)

/-- The text behind the letter and the sign of an exponent. -/
def parseExponentDigits (p : Reading) (negativeExponent : Bool) (chars : List Nat) : Option Double :=
  if (chars.head?.map isDecimalDigit).getD false then do
    let written ← readExponent 0 chars
    let exponent ← int (p.exponent + if negativeExponent then -(written.1 : Int) else written.1)
    parseTrailing S flags sign { p with exponent := exponent } written.2
  else if flags.allowTrailingJunk then parsingDone S flags sign p
  else some .nan

/-- The text behind the letter of an exponent. -/
def parseExponent (p : Reading) (chars : List Nat) : Option Double :=
  match chars with
  | 43 :: rest => parseExponentDigits S flags sign p false rest
  | 45 :: rest => parseExponentDigits S flags sign p true rest
  | chars => parseExponentDigits S flags sign p false chars

/-- The text behind the digits, from the test whether there were any. -/
def parseAfterDigits (leadingZero : Bool) (p : Reading) (chars : List Nat) : Option Double :=
  if !leadingZero && p.exponent == 0 && p.significantDigits == 0 then some .nan
  else match chars with
    | [] => parseTrailing S flags sign p []
    | c :: rest =>
      if c = 101 ∨ c = 69 then
        if p.octal then some .nan else parseExponent S flags sign p rest
      else parseTrailing S flags sign p (c :: rest)

/-- The loop over the digits of the fraction. -/
def readFraction (p : Reading) : List Nat → Option (Reading × List Nat)
  | [] => some (p, [])
  | c :: rest =>
    if isDecimalDigit c then
      if p.significantDigits < kMaxSignificantDigits then do
        let exponent ← int (p.exponent - 1)
        readFraction { p with
          buffer := p.buffer ++ [c], significantDigits := p.significantDigits + 1, exponent := exponent } rest
      else readFraction { p with nonzeroDigitDropped := p.nonzeroDigitDropped || c != 48 } rest
    else some (p, c :: rest)

/-- The loop over the zeros a fraction begins with; a text that ends with them is zero. -/
def skipFractionZeros (p : Reading) : List Nat → Option (Reading × List Nat)
  | [] => some (p, [])
  | c :: rest =>
    if c = 48 then
      match rest with
      | [] => some (p, [])
      | _ :: _ => do
        let exponent ← int (p.exponent - 1)
        skipFractionZeros { p with exponent := exponent } rest
    else some (p, c :: rest)

/-- The digits of the fraction and the text behind them. -/
def parseFractionDigits (leadingZero : Bool) (p : Reading) (chars : List Nat) : Option Double := do
  let read ← readFraction p chars
  if read.2 = [] then parsingDone S flags sign read.1
  else parseAfterDigits S flags sign leadingZero read.1 read.2

/-- The text behind the point, which is not empty. -/
def parseFraction (leadingZero : Bool) (p : Reading) (chars : List Nat) : Option Double :=
  if p.significantDigits = 0 then do
    let start ← skipFractionZeros p chars
    if start.2 = [] then some (signedZero sign)
    else parseFractionDigits S flags sign leadingZero start.1 start.2
  else parseFractionDigits S flags sign leadingZero p chars

/-- The text behind the digits of the integer part. -/
def parsePoint (leadingZero : Bool) (p : Reading) (chars : List Nat) : Option Double :=
  match chars with
  | [] => parsingDone S flags sign p
  | c :: rest =>
    let p := if p.significantDigits = 0 then { p with octal := false } else p
    if c = 46 then
      if p.octal && !flags.allowTrailingJunk then some .nan
      else if p.octal then parsingDone S flags sign p
      else match rest with
        | [] => if p.significantDigits = 0 ∧ !leadingZero then some .nan else parsingDone S flags sign p
        | _ :: _ => parseFraction S flags sign leadingZero p rest
    else parseAfterDigits S flags sign leadingZero p (c :: rest)

/-- The loop over the digits of the integer part. -/
def readInteger (p : Reading) : List Nat → Option (Reading × List Nat)
  | [] => some (p, [])
  | c :: rest =>
    if isDecimalDigit c then
      if p.significantDigits < kMaxSignificantDigits then
        readInteger { p with
          buffer := p.buffer ++ [c], significantDigits := p.significantDigits + 1, octal := p.octal && c < 56 } rest
      else do
        let insignificantDigits ← natInt (p.insignificantDigits + 1)
        readInteger { p with
          insignificantDigits := insignificantDigits, nonzeroDigitDropped := p.nonzeroDigitDropped || c != 48,
          octal := p.octal && c < 56 } rest
    else some (p, c :: rest)

/-- A decimal literal without the zeros it begins with. -/
def parseDecimal (leadingZero : Bool) (chars : List Nat) : Option Double := do
  let read ← readInteger { octal := leadingZero && flags.allowImplicitOctal } chars
  parsePoint S flags sign leadingZero read.1 read.2

/-- The text behind the prefix of a literal with a radix. -/
def parseRadix (radixLog2 : Nat) (isRadixDigit : Nat → Bool) (chars : List Nat) : Option Double :=
  if (chars.head?.map isRadixDigit).getD false = false ∨ sign ≠ .none then some .nan
  else internalStringToIntDouble radixLog2 chars false flags.allowTrailingJunk

/-- The text behind a first zero. -/
def parseAfterZero (chars : List Nat) : Option Double :=
  match chars with
  | [] => some (signedZero sign)
  | c :: rest =>
    if flags.allowHex ∧ (c = 120 ∨ c = 88) then parseRadix flags sign 4 (isDigit · 16) rest
    else if flags.allowOctal ∧ (c = 111 ∨ c = 79) then parseRadix flags sign 3 (isDigit · 8) rest
    else if flags.allowBinary ∧ (c = 98 ∨ c = 66) then parseRadix flags sign 1 isBinaryDigit rest
    else match (c :: rest).dropWhile (· == 48) with
      | [] => some (signedZero sign)
      | c :: rest => parseDecimal S flags sign true (c :: rest)

/-- The text behind the sign. -/
def parseUnsigned (chars : List Nat) : Option Double :=
  match chars with
  | [] => some .nan
  | c :: rest =>
    if c = 73 then
      match subStringEquals (c :: rest) kInfinityString with
      | none => some .nan
      | some rest =>
        if !flags.allowTrailingJunk && !(advanceToNonspace rest).isEmpty then some .nan
        else some (Double.infinity.withSign (sign == .negative))
    else if c = 48 then parseAfterZero S flags sign rest
    else parseDecimal S flags sign false (c :: rest)

end

def internalStringToDouble (S : Strtod) (flags : ConversionFlags) (chars : List Nat) (emptyStringVal : Double) :
    Option Double :=
  match advanceToNonspace chars with
  | [] => some emptyStringVal
  | c :: rest =>
    if c = 43 then parseUnsigned S flags .positive rest
    else if c = 45 then parseUnsigned S flags .negative rest
    else parseUnsigned S flags .none (c :: rest)

end V8Core.Numbers
