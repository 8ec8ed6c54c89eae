import V8Core.Strings.Text

/-!
# Searching a string for a pattern

`StringSearch` of `strings/string-search.h`: an object for one pattern that searches
subjects from a start index on. It begins with a simple strategy and switches to better
ones when the work it has done shows that they pay: `InitialSearch`, then
`BoyerMooreHorspoolSearch` with a table of the last occurrence of each character, then
`BoyerMooreSearch` with a table of good suffix shifts. The tables belong to the isolate.
They have a fixed size and cover only the last `kBMMaxShift` characters of the pattern.

Pattern and subject have characters of one or two bytes. The `int` values stay far from
their limits, since strings are shorter than `2 ^ 30`. What the code must not do has no
result here: to read outside of a string or a table, and to search a negative number of
bytes. Loops have fuel; to run out of it has no result either.
-/

namespace V8Core.Strings

namespace Text
variable {w : CharWidth}

/-- The characters in memory, with the low byte first. -/
def bytes (v : Text w) : List Nat :=
  match w with
  | .oneByte => v.chars
  | .twoByte => v.chars.flatMap fun c => [c % 256, c / 256]

/-- `memchr` for `count` characters from `pos` on, and the alignment of its result to a character. -/
def memchr (v : Text w) (pos : ℤ) (byte : Nat) (count : ℤ) : Option (Option ℤ) :=
  if 0 ≤ pos ∧ 0 ≤ count ∧ pos + count ≤ v.length then
    some ((((v.bytes.drop (pos.toNat * w.size)).take (count.toNat * w.size)).findIdx? (· == byte)).map
      fun k => pos + (k / w.size : Nat))
  else none

def isOneByteString (v : Text w) : Bool := v.chars.all (· ≤ 255)

end Text

def kBMMaxShift : Nat := 250

def kLatin1AlphabetSize : Nat := 256

def kUC16AlphabetSize : Nat := 256

def kBMMinPatternLength : ℤ := 7

/-- The tables of the isolate. -/
structure Isolate where
  badCharShiftTable : Table ℤ kUC16AlphabetSize
  goodSuffixShiftTable : Table ℤ (kBMMaxShift + 1)
  suffixTable : Table ℤ (kBMMaxShift + 1)

inductive Strategy
  | failSearch
  | singleCharSearch
  | linearSearch
  | initialSearch
  | boyerMooreHorspoolSearch
  | boyerMooreSearch
  deriving DecidableEq, Repr

/-- A search object, for patterns and subjects of the given types. -/
structure StringSearch (pw sw : CharWidth) where
  pattern : Text pw
  strategy : Strategy
  start : ℤ

variable {pw sw : CharWidth}

/-- The constructor. -/
def StringSearch.new (sw : CharWidth) (pattern : Text pw) : StringSearch pw sw :=
  let start := max 0 (pattern.length - kBMMaxShift)
  if pw.size > sw.size ∧ pattern.isOneByteString = false then ⟨pattern, .failSearch, start⟩
  else if pattern.length < kBMMinPatternLength then
    if pattern.length = 1 then ⟨pattern, .singleCharSearch, start⟩ else ⟨pattern, .linearSearch, start⟩
  else ⟨pattern, .initialSearch, start⟩

def alphabetSize : CharWidth → Nat
  | .oneByte => kLatin1AlphabetSize
  | .twoByte => kUC16AlphabetSize

def exceedsOneByte (c : Nat) : Bool := c > 255

/-- `static_cast` to a character type. -/
def castChar (w : CharWidth) (c : Nat) : Nat := c % 256 ^ w.size

def charOccurrence (pw sw : CharWidth) (badCharOccurrence : Table ℤ kUC16AlphabetSize) (charCode : Nat) : Option ℤ :=
  if sw.size = 1 then badCharOccurrence.get charCode
  else if pw.size = 1 then
    if exceedsOneByte charCode then some (-1) else badCharOccurrence.get charCode
  else badCharOccurrence.get (charCode % kUC16AlphabetSize : Nat)

/-! ## Single characters and linear search -/

def getHighestValueByte (w : CharWidth) (c : Nat) : Nat :=
  match w with
  | .oneByte => c
  | .twoByte => max (c % 256) (c / 256)

section Linear
variable (pattern : Text pw) (subject : Text sw)

/-- The loop for the character 0. -/
def findZeroLoop (maxN : ℤ) : Nat → ℤ → Option ℤ
  | 0, _ => none
  | fuel + 1, i =>
    if i < maxN then do
      if (← subject.get i) = 0 then return i
      findZeroLoop maxN fuel (i + 1)
    else return -1

/-- The loop around `memchr`. -/
def findCharLoop (searchByte searchChar : Nat) (maxN : ℤ) : Nat → ℤ → Option ℤ
  | 0, _ => none
  | fuel + 1, pos => do
    match ← subject.memchr pos searchByte (maxN - pos) with
    | none => return -1
    | some pos =>
      if (← subject.get pos) = searchChar then return pos
      if pos + 1 < maxN then findCharLoop searchByte searchChar maxN fuel (pos + 1) else return -1

def findFirstCharacter (index : ℤ) : Option ℤ := do
  let patternFirstChar ← pattern.get 0
  let maxN := subject.length - pattern.length + 1
  if sw.size = 2 ∧ patternFirstChar = 0 then findZeroLoop subject maxN ((maxN - index).toNat + 1) index
  else
    findCharLoop subject (getHighestValueByte pw patternFirstChar) (castChar sw patternFirstChar) maxN
      ((maxN - index).toNat + 1) index

def singleCharSearch (index : ℤ) : Option ℤ := do
  let patternFirstChar ← pattern.get 0
  if pw.size > sw.size ∧ exceedsOneByte patternFirstChar then return -1
  findFirstCharacter pattern subject index

/-- `CharCompare` for the characters of the pattern from `pos` on; `length` of them are left. -/
def charCompare (i : ℤ) : Nat → ℤ → Option Bool
  | 0, _ => none
  | length + 1, pos => do
    if (← pattern.get pos) ≠ (← subject.get (i + pos)) then return false
    if length = 0 then return true
    charCompare i length (pos + 1)

def linearSearchLoop (n : ℤ) : Nat → ℤ → Option ℤ
  | 0, _ => none
  | fuel + 1, i =>
    if i ≤ n then do
      let i ← findFirstCharacter pattern subject i
      if i = -1 then return -1
      if ← charCompare pattern subject i (pattern.length - 1).toNat 1 then return i
      linearSearchLoop n fuel (i + 1)
    else return -1

def linearSearch (index : ℤ) : Option ℤ :=
  let n := subject.length - pattern.length
  linearSearchLoop pattern subject n ((n - index).toNat + 2) index

end Linear

/-! ## Boyer-Moore search -/

section BoyerMoore
variable (pattern : Text pw) (subject : Text sw) (badCharOccurrence : Table ℤ kUC16AlphabetSize)

/-- The loop that shifts until the last character matches. -/
def boyerMooreSkipLoop (lastChar : Nat) : Nat → ℤ → Option (Option ℤ)
  | 0, _ => none
  | fuel + 1, index => do
    let j := pattern.length - 1
    let c ← subject.get (index + j)
    if lastChar ≠ c then
      let shift := j - (← charOccurrence pw sw badCharOccurrence c)
      if index + shift > subject.length - pattern.length then return none
      boyerMooreSkipLoop lastChar fuel (index + shift)
    else return some index

/-- The loop that compares from `j` downwards; the place of the mismatch, or `-1`. -/
def matchLoop (index : ℤ) : Nat → ℤ → Option ℤ
  | 0, _ => none
  | fuel + 1, j =>
    if 0 ≤ j then do
      if (← pattern.get j) = (← subject.get (index + j)) then matchLoop index fuel (j - 1) else return j
    else return j

def boyerMooreLoop (goodSuffixShift : Table ℤ (kBMMaxShift + 1)) (start : ℤ) (lastChar : Nat) : Nat → ℤ → Option ℤ
  | 0, _ => none
  | fuel + 1, index =>
    if index ≤ subject.length - pattern.length then do
      match ← boyerMooreSkipLoop pattern subject badCharOccurrence lastChar (fuel + 1) index with
      | none => return -1
      | some index =>
        let j ← matchLoop pattern subject index (pattern.length.toNat + 1) (pattern.length - 1)
        if j < 0 then return index
        if j < start then
          let occ ← charOccurrence pw sw badCharOccurrence (castChar sw lastChar)
          boyerMooreLoop goodSuffixShift start lastChar fuel (index + (pattern.length - 1 - occ))
        else
          let gsShift ← goodSuffixShift.get (j + 1 - start)
          let bcOcc ← charOccurrence pw sw badCharOccurrence (← subject.get (index + j))
          let shift := j - bcOcc
          let shift := if gsShift > shift then gsShift else shift
          boyerMooreLoop goodSuffixShift start lastChar fuel (index + shift)
    else return -1

def boyerMooreSearch (goodSuffixShift : Table ℤ (kBMMaxShift + 1)) (start index : ℤ) : Option ℤ := do
  let lastChar ← pattern.get (pattern.length - 1)
  boyerMooreLoop pattern subject badCharOccurrence goodSuffixShift start lastChar
    ((subject.length - pattern.length - index).toNat + 2) index

end BoyerMoore

section Populate
variable (pattern : Text pw) (start : ℤ)

/-- The loop that sets the entries from `i` on, `n` of them. -/
def fillLoop {size : Nat} (x : ℤ) : Nat → ℤ → Table ℤ size → Option (Table ℤ size)
  | 0, _, table => some table
  | n + 1, i, table => do fillLoop x n (i + 1) (← table.set i x)

/-- The tables while the suffixes are found. The pointers to them are biased by `start`. -/
structure SuffixState where
  i : ℤ
  suffix : ℤ
  shiftTable : Table ℤ (kBMMaxShift + 1)
  suffixTable : Table ℤ (kBMMaxShift + 1)

/-- Sets an entry that still has the value for no shift. -/
def setIfUnset (shiftTable : Table ℤ (kBMMaxShift + 1)) (length suffix shift : ℤ) : Option (Table ℤ (kBMMaxShift + 1)) := do
  if (← shiftTable.get (suffix - start)) = length then shiftTable.set (suffix - start) shift else return shiftTable

/-- The loop over the suffixes that the character before `i` does not extend. -/
def suffixLoop (length : ℤ) (c : Nat) : Nat → SuffixState → Option SuffixState
  | 0, _ => none
  | fuel + 1, s =>
    if s.suffix ≤ pattern.length then do
      if c ≠ (← pattern.get (s.suffix - 1)) then
        let shiftTable ← setIfUnset start s.shiftTable length s.suffix (s.suffix - s.i)
        let suffix ← s.suffixTable.get (s.suffix - start)
        suffixLoop length c fuel { s with suffix := suffix, shiftTable := shiftTable }
      else return s
    else return s

/-- The loop that looks for the last character, where there is no suffix to extend. -/
def lastCharLoop (length : ℤ) (lastChar : Nat) : Nat → SuffixState → Option SuffixState
  | 0, _ => none
  | fuel + 1, s =>
    if s.i > start then do
      if (← pattern.get (s.i - 1)) ≠ lastChar then
        let shiftTable ← setIfUnset start s.shiftTable length pattern.length (pattern.length - s.i)
        let suffixTable ← s.suffixTable.set (s.i - 1 - start) pattern.length
        lastCharLoop length lastChar fuel { s with i := s.i - 1, shiftTable := shiftTable, suffixTable := suffixTable }
      else return s
    else return s

/-- The assignment `suffix_table[--i] = --suffix`. -/
def SuffixState.push (s : SuffixState) : Option SuffixState := do
  let suffixTable ← s.suffixTable.set (s.i - 1 - start) (s.suffix - 1)
  return { s with i := s.i - 1, suffix := s.suffix - 1, suffixTable := suffixTable }

def findSuffixesLoop (length : ℤ) (lastChar : Nat) : Nat → SuffixState → Option SuffixState
  | 0, _ => none
  | fuel + 1, s =>
    if s.i > start then do
      let c ← pattern.get (s.i - 1)
      let s ← suffixLoop pattern start length c (length.toNat + 2) s
      let s ← s.push start
      if s.suffix = pattern.length then
        let s ← lastCharLoop pattern start length lastChar (length.toNat + 1) s
        if s.i > start then findSuffixesLoop length lastChar fuel (← s.push start)
        else findSuffixesLoop length lastChar fuel s
      else findSuffixesLoop length lastChar fuel s
    else return s

/-- The next suffix, once the entry of this one is set. -/
def nextSuffix (suffixTable : Table ℤ (kBMMaxShift + 1)) (i suffix : ℤ) : Option ℤ :=
  if i = suffix then suffixTable.get (suffix - start) else some suffix

/-- The loop that completes the shift table, with `n` entries left. -/
def buildShiftLoop (length : ℤ) (suffixTable : Table ℤ (kBMMaxShift + 1)) :
    Nat → ℤ → ℤ → Table ℤ (kBMMaxShift + 1) → Option (Table ℤ (kBMMaxShift + 1))
  | 0, _, _, shiftTable => some shiftTable
  | n + 1, i, suffix, shiftTable => do
    let shiftTable ← setIfUnset start shiftTable length i (suffix - start)
    let suffix ← nextSuffix start suffixTable i suffix
    buildShiftLoop length suffixTable n (i + 1) suffix shiftTable

/-- Building the shift table using suffixes. -/
def buildShiftTable (length : ℤ) (s : SuffixState) : Option (Table ℤ (kBMMaxShift + 1)) :=
  if s.suffix < pattern.length then buildShiftLoop start length s.suffixTable (length.toNat + 1) start s.suffix s.shiftTable
  else some s.shiftTable

def populateBoyerMooreTable (isolate : Isolate) : Option Isolate := do
  let length := pattern.length - start
  let shiftTable ← fillLoop length length.toNat 0 isolate.goodSuffixShiftTable
  let shiftTable ← shiftTable.set (pattern.length - start) 1
  let suffixTable ← isolate.suffixTable.set (pattern.length - start) (pattern.length + 1)
  if pattern.length ≤ start then
    return { isolate with goodSuffixShiftTable := shiftTable, suffixTable := suffixTable }
  let lastChar ← pattern.get (pattern.length - 1)
  let s ← findSuffixesLoop pattern start length lastChar (length.toNat + 1)
    ⟨pattern.length, pattern.length + 1, shiftTable, suffixTable⟩
  let shiftTable ← buildShiftTable pattern start length s
  return { isolate with goodSuffixShiftTable := shiftTable, suffixTable := s.suffixTable }

/-- The loop that registers the characters of the pattern from `i` on, `n` of them. -/
def registerLoop : Nat → ℤ → Table ℤ kUC16AlphabetSize → Option (Table ℤ kUC16AlphabetSize)
  | 0, _, table => some table
  | n + 1, i, table => do
    let c ← pattern.get i
    let bucket := if pw.size = 1 then c else c % alphabetSize pw
    registerLoop n (i + 1) (← table.set bucket i)

def populateBoyerMooreHorspoolTable (isolate : Isolate) : Option Isolate := do
  let tableSize := alphabetSize pw
  let table ← fillLoop (if start = 0 then -1 else start - 1) tableSize 0 isolate.badCharShiftTable
  let table ← registerLoop pattern (pattern.length - 1 - start).toNat start table
  return { isolate with badCharShiftTable := table }

end Populate

/-! ## Boyer-Moore-Horspool search -/

/-- How a search that may bail out ends: with a result, or at an index from which the better strategy goes on. -/
inductive Outcome
  | done (result : ℤ)
  | bailOut (index : ℤ)
  deriving DecidableEq, Repr

section Horspool
variable (pattern : Text pw) (subject : Text sw) (charOccurrences : Table ℤ kUC16AlphabetSize)

/-- The loop that shifts until the last character matches, with the badness. -/
def horspoolSkipLoop (lastChar : Nat) : Nat → ℤ → ℤ → Option (Option (ℤ × ℤ))
  | 0, _, _ => none
  | fuel + 1, index, badness => do
    let j := pattern.length - 1
    let subjectChar ← subject.get (index + j)
    if lastChar ≠ subjectChar then
      let shift := j - (← charOccurrence pw sw charOccurrences subjectChar)
      if index + shift > subject.length - pattern.length then return none
      horspoolSkipLoop lastChar fuel (index + shift) (badness + (1 - shift))
    else return some (index, badness)

def horspoolLoop (lastChar : Nat) (lastCharShift : ℤ) : Nat → ℤ → ℤ → Option Outcome
  | 0, _, _ => none
  | fuel + 1, index, badness =>
    if index ≤ subject.length - pattern.length then do
      match ← horspoolSkipLoop pattern subject charOccurrences lastChar (fuel + 1) index badness with
      | none => return .done (-1)
      | some (index, badness) =>
        let j ← matchLoop pattern subject index pattern.length.toNat (pattern.length - 2)
        if j < 0 then return .done index
        let index := index + lastCharShift
        let badness := badness + ((pattern.length - j) - lastCharShift)
        if badness > 0 then return .bailOut index
        horspoolLoop lastChar lastCharShift fuel index badness
    else return .done (-1)

def horspoolSearch (index : ℤ) : Option Outcome := do
  let lastChar ← pattern.get (pattern.length - 1)
  let lastCharShift := pattern.length - 1 - (← charOccurrence pw sw charOccurrences (castChar sw lastChar))
  horspoolLoop pattern subject charOccurrences lastChar lastCharShift
    ((subject.length - pattern.length - index).toNat + 2) index (-pattern.length)

end Horspool

/-! ## Initial search -/

section Initial
variable (pattern : Text pw) (subject : Text sw)

/-- The loop over `j`: the number of characters that match, at least the first one. -/
def prefixLoop (i : ℤ) : Nat → ℤ → Option ℤ
  | 0, _ => none
  | fuel + 1, j => do
    if (← pattern.get j) ≠ (← subject.get (i + j)) then return j
    if j + 1 < pattern.length then prefixLoop i fuel (j + 1) else return j + 1

def initialSearchLoop (n : ℤ) : Nat → ℤ → ℤ → Option Outcome
  | 0, _, _ => none
  | fuel + 1, i, badness =>
    if i ≤ n then do
      let badness := badness + 1
      if badness ≤ 0 then
        let i ← findFirstCharacter pattern subject i
        if i = -1 then return .done (-1)
        let j ← prefixLoop pattern subject i (pattern.length.toNat + 1) 1
        if j = pattern.length then return .done i
        initialSearchLoop n fuel (i + 1) (badness + j)
      else return .bailOut i
    else return .done (-1)

def initialSearch (index : ℤ) : Option Outcome :=
  let n := subject.length - pattern.length
  initialSearchLoop pattern subject n ((n - index).toNat + 2) index (-10 - pattern.length * 4)

end Initial

/-! ## The search object -/

namespace StringSearch
variable (search : StringSearch pw sw) (isolate : Isolate) (subject : Text sw)

/-- `BoyerMooreHorspoolSearch`, which may switch to `BoyerMooreSearch`. -/
def boyerMooreHorspoolSearch (index : ℤ) : Option (ℤ × StringSearch pw sw × Isolate) := do
  match ← horspoolSearch search.pattern subject isolate.badCharShiftTable index with
  | .done result => return (result, search, isolate)
  | .bailOut index =>
    let isolate ← populateBoyerMooreTable search.pattern search.start isolate
    let result ← Strings.boyerMooreSearch search.pattern subject isolate.badCharShiftTable isolate.goodSuffixShiftTable
      search.start index
    return (result, { search with strategy := .boyerMooreSearch }, isolate)

/-- `Search`: the result, and the object and the tables behind the call. -/
def searchFrom (index : ℤ) : Option (ℤ × StringSearch pw sw × Isolate) :=
  match search.strategy with
  | .failSearch => some (-1, search, isolate)
  | .singleCharSearch => do return (← Strings.singleCharSearch search.pattern subject index, search, isolate)
  | .linearSearch => do return (← Strings.linearSearch search.pattern subject index, search, isolate)
  | .initialSearch => do
    match ← Strings.initialSearch search.pattern subject index with
    | .done result => return (result, search, isolate)
    | .bailOut index =>
      let isolate ← populateBoyerMooreHorspoolTable search.pattern search.start isolate
      boyerMooreHorspoolSearch { search with strategy := .boyerMooreHorspoolSearch } isolate subject index
  | .boyerMooreHorspoolSearch => boyerMooreHorspoolSearch search isolate subject index
  | .boyerMooreSearch => do
    return (← Strings.boyerMooreSearch search.pattern subject isolate.badCharShiftTable isolate.goodSuffixShiftTable
      search.start index, search, isolate)

/-- Calls of `Search` on one object, with a subject and a start index each. -/
def searchAll (search : StringSearch pw sw) (isolate : Isolate) : List (Text sw × ℤ) → Option (List ℤ)
  | [] => some []
  | (subject, index) :: calls => do
    let (result, search, isolate) ← searchFrom search isolate subject index
    return result :: (← searchAll search isolate calls)

end StringSearch

end V8Core.Strings
