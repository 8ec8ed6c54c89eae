import V8Core.Json.Grammar
import V8Core.Strings.CharPredicates
import V8Core.Strings.Text

/-!
# The scanner of the JSON parser

The state of `JsonParser` of `json/json-parser.cc` and the functions that read strings
and property keys. The cursor is the list of the characters from it to the end. The
source is a flat string and not part of another one.

The first error is kept with its message and its position. It moves the cursor to the
end, so that the parser finds nothing more to parse. To run out of fuel, to read where
there is no character or to decode an escape that does not exist has no result.
-/

namespace V8Core.Json

open Base Strings

/-! ## Tokens -/

inductive JsonToken
  | number
  | string
  | lbrace
  | rbrace
  | lbrack
  | rbrack
  | trueLiteral
  | falseLiteral
  | nullLiteral
  | whitespace
  | colon
  | comma
  | illegal
  | eos
  deriving DecidableEq, Repr

/-- `GetOneCharJsonToken`, the entries of `one_char_json_tokens`. -/
def getOneCharJsonToken (c : Nat) : JsonToken :=
  if c = quote then .string
  else if isDecimalDigit c then .number
  else if c = minus then .number
  else if c = 0x5B then .lbrack
  else if c = 0x7B then .lbrace
  else if c = 0x5D then .rbrack
  else if c = 0x7D then .rbrace
  else if c = 0x74 then .trueLiteral
  else if c = 0x66 then .falseLiteral
  else if c = 0x6E then .nullLiteral
  else if c = 0x20 then .whitespace
  else if c = 0x09 then .whitespace
  else if c = 0x0D then .whitespace
  else if c = 0x0A then .whitespace
  else if c = 0x3A then .colon
  else if c = 0x2C then .comma
  else .illegal

/-- `unibrow::Latin1::kMaxChar`. -/
def kMaxChar : Nat := 255

/-- The token that starts with a character. -/
def tokenOf (c : Nat) : JsonToken := if c ≤ kMaxChar then getOneCharJsonToken c else .illegal

inductive EscapeKind
  | kIllegal
  | kSelf
  | kBackspace
  | kTab
  | kNewLine
  | kFormFeed
  | kCarriageReturn
  | kUnicode
  deriving DecidableEq, Repr

/-- The parts of `GetJsonScanFlags`, for characters up to `kMaxChar`. -/
def getEscapeKind (c : Nat) : EscapeKind :=
  if c = 0x62 then .kBackspace
  else if c = 0x74 then .kTab
  else if c = 0x6E then .kNewLine
  else if c = 0x66 then .kFormFeed
  else if c = 0x72 then .kCarriageReturn
  else if c = 0x75 then .kUnicode
  else if c = quote then .kSelf
  else if c = backslash then .kSelf
  else if c = 0x2F then .kSelf
  else .kIllegal

def mayTerminateJsonString (c : Nat) : Bool := c < 0x20 || c == quote || c == backslash

/-- `kEndOfString` and `kInvalidUnicodeCharacter`, as `uc32` values. -/
def kEndOfString : Nat := 2 ^ 32 - 1

def kInvalidUnicodeCharacter : Nat := 2 ^ 32 - 1

/-! ## Errors -/

inductive MessageTemplate
  | kJsonParseUnexpectedEOS
  | kJsonParseUnexpectedTokenNumber
  | kJsonParseUnexpectedTokenString
  | kJsonParseShortString
  | kJsonParseUnexpectedTokenShortString
  | kJsonParseUnexpectedTokenStartStringWithContext
  | kJsonParseUnexpectedTokenSurroundStringWithContext
  | kJsonParseUnexpectedTokenEndStringWithContext
  | kJsonParseUnexpectedNonWhiteSpaceCharacter
  | kJsonParseExpectedPropNameOrRBrace
  | kJsonParseExpectedCommaOrRBrack
  | kJsonParseExpectedCommaOrRBrace
  | kJsonParseExpectedColonAfterPropertyName
  | kJsonParseExpectedDoubleQuotedPropertyName
  | kJsonParseUnterminatedString
  | kJsonParseBadUnicodeEscape
  | kJsonParseBadEscapedCharacter
  | kJsonParseBadControlCharacter
  | kJsonParseNoNumberAfterMinusSign
  | kJsonParseUnterminatedFractionalNumber
  | kJsonParseExponentPartMissingNumber
  deriving DecidableEq, Repr

/-- The first argument of a message. -/
inductive MessageArg
  | position (pos : Nat)
  | text (chars : List Nat)
  deriving DecidableEq, Repr

structure JsonError where
  message : MessageTemplate
  arg : MessageArg
  arg2 : Option (List Nat)
  pos : Nat
  deriving DecidableEq, Repr

/-- The fields of the parser. -/
structure JsonParser (w : CharWidth) where
  source : Text w
  /-- The characters from `cursor_` to `end_`. -/
  rest : List Nat
  /-- `next_` -/
  next : JsonToken
  exception : Option JsonError

namespace JsonParser
variable {w : CharWidth} (p : JsonParser w)

def position : Nat := p.source.chars.length - p.rest.length

def codes (s : String) : List Nat := s.toList.map Char.toNat

def isSpecialString : Bool :=
  [codes "[object Object]", codes "undefined", codes "Infinity", codes "NaN"].contains p.source.chars

def kMaxContextCharacters : Nat := 10

def kMinOriginalSourceLengthForContext : Nat := kMaxContextCharacters * 2 + 1

def getErrorMessageWithEllipses (pos : Nat) : MessageTemplate × MessageArg × Option (List Nat) :=
  let arg := MessageArg.text (p.rest.take 1)
  let length := p.source.chars.length
  if length ≥ kMinOriginalSourceLengthForContext then
    if pos < kMaxContextCharacters then
      (.kJsonParseUnexpectedTokenStartStringWithContext, arg, some (p.source.chars.take (pos + kMaxContextCharacters)))
    else if pos < length - kMaxContextCharacters then
      (.kJsonParseUnexpectedTokenSurroundStringWithContext, arg,
        some ((p.source.chars.drop (pos - kMaxContextCharacters)).take (kMaxContextCharacters * 2)))
    else
      (.kJsonParseUnexpectedTokenEndStringWithContext, arg, some (p.source.chars.drop (pos - kMaxContextCharacters)))
  else (.kJsonParseUnexpectedTokenShortString, arg, some p.source.chars)

def lookUpErrorMessageForJsonToken (token : JsonToken) (pos : Nat) : MessageTemplate × MessageArg × Option (List Nat) :=
  match token with
  | .eos => (.kJsonParseUnexpectedEOS, .position pos, none)
  | .number => (.kJsonParseUnexpectedTokenNumber, .position pos, none)
  | .string => (.kJsonParseUnexpectedTokenString, .position pos, none)
  | _ =>
    if p.isSpecialString then (.kJsonParseShortString, .text p.source.chars, none)
    else p.getErrorMessageWithEllipses pos

/-- `ReportUnexpectedToken`, with or without a message of its own. -/
def reportUnexpectedToken (token : JsonToken) (errorMessage : Option MessageTemplate) : JsonParser w :=
  if p.exception.isSome then p
  else
    let (message, arg, arg2) :=
      match errorMessage with
      | some message => (message, .position p.position, none)
      | none => p.lookUpErrorMessageForJsonToken token p.position
    { p with exception := some ⟨message, arg, arg2, p.position⟩, rest := [] }

/-- `ReportUnexpectedCharacter` for the current character, or for the end. -/
def reportUnexpectedCharacter (c : Option Nat) : JsonParser w :=
  match c with
  | none => p.reportUnexpectedToken .eos none
  | some c => p.reportUnexpectedToken (tokenOf c) none

def advance : JsonParser w := { p with rest := p.rest.tail }

end JsonParser

/-- A string or a key in the source, as `JsonString` describes it. -/
inductive JsonString
  | index (index : Nat)
  | span (start length : Nat) (needsConversion internalize hasEscape : Bool)
  deriving DecidableEq, Repr

/-- The constructor without arguments. -/
def JsonString.none : JsonString := .span 0 0 false false false

def JsonString.kMaxInternalizedStringValueLength : Nat := 10

def JsonString.new (start length : Nat) (needsConversion needsInternalization hasEscape : Bool) : JsonString :=
  .span start length needsConversion (needsInternalization || decide (length ≤ kMaxInternalizedStringValueLength)) hasEscape

/-- `ScanUnicodeCharacter`, where `n` digits are left and the cursor is before the next of them. -/
def scanUnicodeCharacter : Nat → Nat → List Nat → Nat × List Nat
  | 0, value, rest => (value, rest)
  | n + 1, value, rest =>
    -- `NextCharacter` moves to the digit, or to the end
    let rest := rest.tail
    let digit := hexValue (rest.headD kEndOfString)
    if digit < 0 then (kInvalidUnicodeCharacter, rest) else scanUnicodeCharacter n (value * 16 + digit.toNat) rest

/-- The search for a character that may end the string, or start an escape. -/
def findStringEnd (w : CharWidth) : List Nat → Nat → List Nat × Nat
  | [], bits => ([], bits)
  | c :: rest, bits =>
    if w.size = 2 ∧ c > kMaxChar then findStringEnd w rest (bits ||| c)
    else if mayTerminateJsonString c then (c :: rest, bits)
    else findStringEnd w rest bits

/-- How an iteration of the loop of `ScanJsonString` ends: with the string, or behind an escape with the new `offset` and
`bits`. -/
inductive StringStep (w : CharWidth)
  | done (s : JsonString) (p : JsonParser w)
  | more (offset bits : Nat) (p : JsonParser w)

namespace JsonParser
variable {w : CharWidth}

/-- The unicode escape whose digits gave `value`. -/
def scanUnicodeEscape (offset bits value : Nat) (p : JsonParser w) : StringStep w :=
  if value = kInvalidUnicodeCharacter then
    .done .none (p.reportUnexpectedToken .illegal (some .kJsonParseBadUnicodeEscape))
  else .more (offset + (5 - if value > 0xFFFF then 1 else 0)) (bits ||| value) p.advance

/-- The escape behind a backslash. -/
def scanEscape (offset bits : Nat) (p : JsonParser w) : StringStep w :=
  match p.rest with
  | [] => .done .none (p.reportUnexpectedCharacter none)
  | c :: tail =>
    if c > kMaxChar then .done .none (p.reportUnexpectedCharacter (some c))
    else
      match getEscapeKind c with
      | .kUnicode =>
        let scanned := scanUnicodeCharacter 4 0 p.rest
        scanUnicodeEscape offset bits scanned.1 { p with rest := scanned.2 }
      | .kIllegal => .done .none (p.reportUnexpectedToken .illegal (some .kJsonParseBadEscapedCharacter))
      | _ => .more (offset + 1) bits { p with rest := tail }

/-- An iteration of the loop of `ScanJsonString`. -/
def scanStringStep (needsInternalization : Bool) (start offset : Nat) (hasEscape : Bool) (bits : Nat) (p : JsonParser w) :
    StringStep w :=
  let (rest, bits) := findStringEnd w p.rest bits
  let p := { p with rest := rest }
  match rest with
  | [] => .done .none (p.reportUnexpectedToken .illegal (some .kJsonParseUnterminatedString))
  | c :: rest =>
    if c = quote then
      let length := p.position - offset
      let convert := if w.size = 1 then decide (bits > kMaxChar) else decide (bits ≤ kMaxChar)
      .done (.new start length convert needsInternalization hasEscape) { p with rest := rest }
    else if c = backslash then scanEscape offset bits { p with rest := rest }
    else .done .none (p.reportUnexpectedToken .illegal (some .kJsonParseBadControlCharacter))

/-- The loop of `ScanJsonString`, with its variables. -/
def scanJsonStringLoop (needsInternalization : Bool) (start : Nat) :
    Nat → Nat → Bool → Nat → JsonParser w → Option (JsonString × JsonParser w)
  | 0, _, _, _, _ => none
  | fuel + 1, offset, hasEscape, bits, p =>
    match scanStringStep needsInternalization start offset hasEscape bits p with
    | .done s p => some (s, p)
    | .more offset bits p => scanJsonStringLoop needsInternalization start fuel offset true bits p

def scanJsonString (p : JsonParser w) (needsInternalization : Bool) : Option (JsonString × JsonParser w) :=
  scanJsonStringLoop needsInternalization p.position (p.rest.length + 1) p.position false 0 p

end JsonParser

/-! ## Decoding -/

/-- A sequential string with characters of the given type. -/
structure SeqString where
  width : CharWidth
  chars : List Nat
  deriving DecidableEq, Repr

/-- The search for a backslash among the next `n` characters, which copies the others: what is copied, how many are
left, and the cursor. -/
def copyToBackslash : Nat → List Nat → Option (List Nat × Nat × List Nat)
  | 0, rest => some ([], 0, rest)
  | _ + 1, [] => none
  | n + 1, c :: rest =>
    if c = backslash then some ([], n + 1, c :: rest)
    else do
      let (copied, n, rest) ← copyToBackslash n rest
      return (c :: copied, n, rest)

/-- The digits of a unicode escape in `DecodeString`. -/
def decodeUnicode : Nat → Nat → List Nat → Option (Nat × List Nat)
  | 0, value, rest => some (value, rest)
  | _ + 1, _, [] => none
  | n + 1, value, c :: rest => decodeUnicode n (((value * 16 : ℤ) + hexValue c) % 2 ^ 32).toNat rest

/-- What an escape stands for, and the cursor behind it. -/
def decodeEscape : List Nat → Option (List Nat × List Nat)
  | [] => none
  | c :: rest =>
    if c > kMaxChar then none
    else
      match getEscapeKind c with
      | .kSelf => some ([c], rest)
      | .kBackspace => some ([0x08], rest)
      | .kTab => some ([0x09], rest)
      | .kNewLine => some ([0x0A], rest)
      | .kFormFeed => some ([0x0C], rest)
      | .kCarriageReturn => some ([0x0D], rest)
      | .kUnicode => do
        let (value, rest) ← decodeUnicode 4 0 rest
        if value ≤ 0xFFFF then return ([value], rest)
        else return ([0xD800 + (value - 0x10000) / 2 ^ 10 % 2 ^ 10, 0xDC00 + value % 2 ^ 10], rest)
      | .kIllegal => none

/-- The loop of `DecodeString`; `n` characters are still to be written. -/
def decodeLoop (sink : CharWidth) : Nat → Nat → List Nat → Option (List Nat)
  | 0, _, _ => none
  | fuel + 1, n, rest => do
    let (copied, n, rest) ← copyToBackslash n rest
    let written := copied.map (· % 256 ^ sink.size)
    if n = 0 then return written
    let (units, rest) ← decodeEscape rest.tail
    -- more characters than the string has room for
    if units.length > n then none
    else return written ++ units.map (· % 256 ^ sink.size) ++ (← decodeLoop sink fuel (n - units.length) rest)

/-- `DecodeString` into a string of `length` characters of the type `sink`. -/
def decodeString (source : List Nat) (sink : CharWidth) (start length : Nat) : Option (List Nat) :=
  decodeLoop sink (length + 1) length (source.drop start)

/-- `CopyChars` into a string of `length` characters of the type `sink`. -/
def copyChars (source : List Nat) (sink : CharWidth) (start length : Nat) : Option (List Nat) :=
  if start + length ≤ source.length then some (((source.drop start).take length).map (· % 256 ^ sink.size)) else none

/-- `MakeString`. Whether the string is internalized, or one that is already there is taken, makes no difference to its
characters. -/
def makeString (w : CharWidth) (source : List Nat) : JsonString → Option SeqString
  | .index _ => none
  | .span start length needsConversion _ hasEscape =>
    if length = 0 then some ⟨.oneByte, []⟩
    else
      let sink : CharWidth :=
        if w.size = 1 then if needsConversion then .twoByte else .oneByte
        else if needsConversion then .oneByte else .twoByte
      if hasEscape then (decodeString source sink start length).map (⟨sink, ·⟩)
      else (copyChars source sink start length).map (⟨sink, ·⟩)

end V8Core.Json
