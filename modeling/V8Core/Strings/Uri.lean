import V8Core.Strings.Utf8
import V8Core.Strings.Text
import V8Core.Base.Strings

/-!
# Encoding and decoding URIs

`Uri::Encode` and `Uri::Decode` of `strings/uri.cc`. Decoding starts with characters of
one byte and goes on with two bytes at the first character that needs them.
`ecmaDecode` is the operation `Decode` of ECMAScript.

A string that is too long throws. The factory takes the length of a vector as an `int`, so
that it does not see all of the length of an encoded string of four gigabytes.
-/

namespace V8Core.Strings.Uri

open Base Unicode

/-! ## Strings -/

inductive Error
  | uriError
  | invalidStringLength
  deriving DecidableEq, Repr

/-- `String::kMaxLength` with pointers of eight bytes. -/
def kMaxLength : Nat := 2 ^ 29 - 24

/-- `static_cast<int>` of a `size_t`. -/
def toInt (n : Nat) : ℤ := Int.bmod n (2 ^ 32)

/-- The check of `NewRawStringWithMap`. -/
def checkLength (length : ℤ) : Except Error Unit :=
  if length > kMaxLength ∨ length < 0 then .error .invalidStringLength else .ok ()

/-- `NewStringFromOneByte`, for a vector. -/
def newStringFromOneByte (string : List Nat) : Except Error (List Nat) := do
  let length := toInt string.length
  if length = 0 then return []
  if length = 1 then return string.take 1
  checkLength length
  return string.take length.toNat

/-! ## Decoding -/

def percent : Nat := 0x25

/-- The characters `# $ & + , / : ; = ? @`. -/
def isReservedPredicate (c : Nat) : Bool := [0x23, 0x24, 0x26, 0x2B, 0x2C, 0x2F, 0x3A, 0x3B, 0x3D, 0x3F, 0x40].contains c

def isReplacementCharacter (octets : List Nat) : Bool := octets == [0xEF, 0xBF, 0xBD]

/-- `DecodeOctets`: what is added to the buffer. -/
def decodeOctets (octets : List Nat) : Option (List Nat) :=
  let value := Utf8.valueOf octets
  if value = Utf8.kBadChar ∧ ¬ isReplacementCharacter octets then none
  else if value ≤ Utf16.kMaxNonSurrogateCharCode then some [value]
  else some [Utf16.leadSurrogate value, Utf16.trailSurrogate value]

def twoDigitHex (character1 character2 : Nat) : ℤ :=
  if character1 > 0x66 then -1
  else
    let high := hexValue character1
    if high = -1 then -1
    else if character2 > 0x66 then -1
    else
      let low := hexValue character2
      if low = -1 then -1 else high * 2 ^ 4 + low

/-- `AddToBuffer`, with the characters behind the percent sign. -/
def addToBuffer (decoded first second : Nat) (isUri : Bool) : List Nat :=
  if isUri && isReservedPredicate decoded then [percent, first, second] else [decoded]

/-- The loop that reads the continuation bytes of `decoded`: the octets, and the characters behind them. It is at `n`
octets and ends after at most five iterations. -/
def continuationLoop (decoded : Nat) : Nat → Nat → List Nat → List Nat → Option (List Nat × List Nat)
  | 0, _, _, _ => none
  | fuel + 1, n, octets, rest =>
    let n := n + 1
    if decoded <<< n &&& 0x80 ≠ 0 then
      if n > 3 then none
      else
        match rest with
        | c :: c1 :: c2 :: rest =>
          if c ≠ percent then none
          else
            let twoDigits := twoDigitHex c1 c2
            if twoDigits < 0 then none else continuationLoop decoded fuel n (octets ++ [twoDigits.toNat]) rest
        | _ => none
    else some (octets, rest)

variable {rest' string : List Nat} {c c1 c2 b v : Nat} {preserve : Nat → Bool} {isUri : Bool}

theorem continuationLoop_length {decoded fuel n : Nat} {octets rest octets' : List Nat}
    (h : continuationLoop decoded fuel n octets rest = some (octets', rest')) : rest'.length ≤ rest.length := by
  fun_induction continuationLoop decoded fuel n octets rest with
  | case5 fuel _ octets n _ _ c c1 c2 rest _ twoDigits _ ih =>
    have := ih h
    simp only [List.length_cons]
    omega
  | case7 =>
    cases h
    exact Nat.le_refl _
  | _ => cases h

/-- `IntoTwoByte`, from the current character on. -/
def intoTwoByte (isUri : Bool) (uri : List Nat) : Option (List Nat) :=
  match uri with
  | [] => some []
  | code :: rest =>
    if code = percent then
      match rest with
      | c1 :: c2 :: rest =>
        let twoDigits := twoDigitHex c1 c2
        if twoDigits < 0 then none
        else
          let decoded := twoDigits.toNat
          if decoded > Utf8.kMaxOneByteChar then
            match _h : continuationLoop decoded 5 0 [decoded] rest with
            | none => none
            | some (octets, rest') => do
              let units ← decodeOctets octets
              return units ++ (← intoTwoByte isUri rest')
          else do return addToBuffer decoded c1 c2 isUri ++ (← intoTwoByte isUri rest)
      | _ => none
    else do return code :: (← intoTwoByte isUri rest)
termination_by uri.length
decreasing_by
  · have := continuationLoop_length _h
    simp only [List.length_cons]
    omega
  · simp only [List.length_cons]
    omega
  · simp only [List.length_cons]
    omega

/-- `IntoOneAndTwoByte`, from the current character on: what is added to either buffer. -/
def intoOneAndTwoByte (isUri : Bool) : List Nat → Option (List Nat × List Nat)
  | [] => some ([], [])
  | code :: rest =>
    if code = percent then
      match rest with
      | c1 :: c2 :: rest' =>
        let twoDigits := twoDigitHex c1 c2
        if twoDigits < 0 then none
        else
          let decoded := twoDigits.toNat
          if decoded > Utf8.kMaxOneByteChar then do return ([], ← intoTwoByte isUri (code :: rest))
          else do
            let (one, two) ← intoOneAndTwoByte isUri rest'
            return (addToBuffer decoded c1 c2 isUri ++ one, two)
      | _ => none
    else if code > Utf8.kMaxOneByteChar then do return ([], ← intoTwoByte isUri (code :: rest))
    else do
      let (one, two) ← intoOneAndTwoByte isUri rest
      return (code :: one, two)

/-- `Uri::Decode`. -/
def decode (isUri : Bool) (uri : List Nat) : Except Error (List Nat) :=
  match intoOneAndTwoByte isUri uri with
  | none => .error .uriError
  | some (one, two) =>
    if two = [] then newStringFromOneByte one
    else do
      checkLength (toInt (one.length + two.length))
      return one ++ two

/-! ## Encoding -/

/-- `IsAlphaNumeric`. -/
def isAlphaNumeric (c : Nat) : Bool := (0x61 ≤ c ||| 0x20 && c ||| 0x20 ≤ 0x7A) || (0x30 ≤ c && c ≤ 0x39)

/-- Letters, digits and the characters `! ' ( ) * - . _ ~`. -/
def isUnescapePredicateInUriComponent (c : Nat) : Bool :=
  isAlphaNumeric c || [0x21, 0x27, 0x28, 0x29, 0x2A, 0x2D, 0x2E, 0x5F, 0x7E].contains c

/-- The characters `# : ; / ? $ & + , @ =`. -/
def isUriSeparator (c : Nat) : Bool := [0x23, 0x3A, 0x3B, 0x2F, 0x3F, 0x24, 0x26, 0x2B, 0x2C, 0x40, 0x3D].contains c

def addEncodedOctetToBuffer (octet : Nat) : List Nat :=
  [percent, hexCharOfValue (octet >>> 4), hexCharOfValue (octet &&& 0x0F)]

/-- `EncodeSingle`. -/
def encodeSingle (c : Nat) : List Nat := (Utf8.encode c).flatMap addEncodedOctetToBuffer

/-- `EncodePair`. -/
def encodePair (cc1 cc2 : Nat) : List Nat :=
  (Utf8.encode (Utf16.combineSurrogatePair cc1 cc2)).flatMap addEncodedOctetToBuffer

/-- The loop of `Uri::Encode`: the buffer, unless an error is found. -/
def encodeLoop (isUri : Bool) : List Nat → Option (List Nat)
  | [] => some []
  | cc1 :: rest =>
    if Utf16.isLeadSurrogate cc1 then
      match rest with
      | cc2 :: rest => if Utf16.isTrailSurrogate cc2 then do return encodePair cc1 cc2 ++ (← encodeLoop isUri rest) else none
      | [] => none
    else if !Utf16.isTrailSurrogate cc1 then
      if isUnescapePredicateInUriComponent cc1 || (isUri && isUriSeparator cc1) then do return cc1 :: (← encodeLoop isUri rest)
      else do return encodeSingle cc1 ++ (← encodeLoop isUri rest)
    else none

/-- `Uri::Encode`. -/
def encode (isUri : Bool) (uri : List Nat) : Except Error (List Nat) :=
  match encodeLoop isUri uri with
  | none => .error .uriError
  | some buffer => newStringFromOneByte buffer

/-! ## The operation of ECMAScript -/

/-- `ParseHexOctet`. -/
def parseHexOctet (c1 c2 : Nat) : Option Nat := do
  let high ← hexDigit c1
  let low ← hexDigit c2
  return high * 16 + low

/-- The number of leading 1 bits of an octet. -/
def leadingOnes (b : Nat) : Nat :=
  if b < 0x80 then 0 else if b < 0xC0 then 1 else if b < 0xE0 then 2 else if b < 0xF0 then 3 else if b < 0xF8 then 4
  else if b < 0xFC then 5 else if b < 0xFE then 6 else if b < 0xFF then 7 else 8

/-- The octets of the next `n` escapes. -/
def takeEscapes : Nat → List Nat → Option (List Nat × List Nat)
  | 0, rest => some ([], rest)
  | n + 1, c :: c1 :: c2 :: rest =>
    if c ≠ percent then none
    else do
      let b ← parseHexOctet c1 c2
      let (bs, rest) ← takeEscapes n rest
      return (b :: bs, rest)
  | _ + 1, _ => none

variable {n : Nat}

theorem takeEscapes_length {rest bs : List Nat} (h : takeEscapes n rest = some (bs, rest')) :
    rest'.length + 3 * n = rest.length := by
  fun_induction takeEscapes n rest generalizing bs rest' with
  | case1 rest =>
    cases h
    rfl
  | case3 n c c1 c2 rest _ ih =>
    simp only [bind, Option.bind_eq_some_iff, Prod.exists] at h
    obtain ⟨b, _, bs', rest'', hrec, _, rfl⟩ := h
    have := ih hrec
    simp only [List.length_cons]
    omega
  | _ => cases h

open Classical in
/-- The code point whose encoding the octets are. -/
noncomputable def utf8Value (octets : List Nat) : Option Nat :=
  if h : ∃ v, IsScalar v ∧ utf8 v = octets then some h.choose else none

/-- `Decode ( string, preserveEscapeSet )` of ECMAScript. -/
noncomputable def ecmaDecode (preserveEscapeSet : Nat → Bool) (string : List Nat) : Option (List Nat) :=
  match string with
  | [] => some []
  | c :: rest =>
    if c ≠ percent then do return c :: (← ecmaDecode preserveEscapeSet rest)
    else
      match rest with
      | c1 :: c2 :: rest =>
        match parseHexOctet c1 c2 with
        | none => none
        | some b =>
          let n := leadingOnes b
          if n = 0 then
            do return (if preserveEscapeSet b then [c, c1, c2] else [b]) ++ (← ecmaDecode preserveEscapeSet rest)
          else if n = 1 ∨ n > 4 then none
          else
            match _h : takeEscapes (n - 1) rest with
            | none => none
            | some (bs, rest') => do
              let v ← utf8Value (b :: bs)
              return utf16 v ++ (← ecmaDecode preserveEscapeSet rest')
      | _ => none
termination_by string.length
decreasing_by
  · simp only [List.length_cons]
    omega
  · simp only [List.length_cons]
    omega
  · have := takeEscapes_length _h
    simp only [List.length_cons]
    omega

/-- The escapes that `Decode` keeps. -/
def preserved (isUri : Bool) (c : Nat) : Bool := isUri && isReservedPredicate c

/-! ## Octets -/

theorem hexValue_eq (hc : c ≤ 0x66) : hexValue c = (hexDigit c).elim (-1) fun d => (d : ℤ) := by
  revert c
  decide +kernel

theorem hexDigit_of_gt (hc : c > 0x66) : hexDigit c = none := by
  cases h : hexDigit c with
  | none => rfl
  | some d => exact absurd (hexDigit_le h) (by omega)

theorem twoDigitHex_eq (c1 c2 : Nat) : twoDigitHex c1 c2 = (parseHexOctet c1 c2).elim (-1) fun b => (b : ℤ) := by
  unfold twoDigitHex parseHexOctet
  by_cases h1 : c1 > 0x66
  · simp [h1, hexDigit_of_gt h1]
  have hvalue1 := hexValue_eq (show c1 ≤ 0x66 by omega)
  cases hd1 : hexDigit c1 with
  | none =>
    rw [hd1] at hvalue1
    simp [hvalue1]
  | some d1 =>
    rw [hd1] at hvalue1
    have hne1 : (d1 : ℤ) ≠ -1 := by omega
    by_cases h2 : c2 > 0x66
    · simp [h2, hexDigit_of_gt h2]
    have hvalue2 := hexValue_eq (show c2 ≤ 0x66 by omega)
    cases hd2 : hexDigit c2 with
    | none =>
      rw [hd2] at hvalue2
      simp [hvalue2]
    | some d2 =>
      rw [hd2] at hvalue2
      have hne2 : (d2 : ℤ) ≠ -1 := by omega
      simp [h1, hvalue1, h2, hvalue2]

theorem twoDigitHex_none (h : parseHexOctet c1 c2 = none) : twoDigitHex c1 c2 = -1 := by
  rw [twoDigitHex_eq, h, Option.elim_none]

theorem twoDigitHex_some (h : parseHexOctet c1 c2 = some b) : twoDigitHex c1 c2 = b := by
  rw [twoDigitHex_eq, h, Option.elim_some]

theorem parseHexOctet_lt (h : parseHexOctet c1 c2 = some b) : b < 256 := by
  simp only [parseHexOctet, bind, Option.bind_eq_some_iff, pure, Option.some.injEq] at h
  obtain ⟨high, hhigh, low, hlow, rfl⟩ := h
  have := (hexValue_of_hexDigit hhigh).2
  have := (hexValue_of_hexDigit hlow).2
  omega

theorem takeEscapes_spec {rest bs : List Nat} (h : takeEscapes n rest = some (bs, rest')) :
    bs.length = n ∧ ∀ b ∈ bs, b < 256 := by
  fun_induction takeEscapes n rest generalizing bs rest' with
  | case1 rest =>
    cases h
    exact ⟨rfl, by simp⟩
  | case3 n c c1 c2 rest _ ih =>
    simp only [bind, Option.bind_eq_some_iff, Prod.exists] at h
    obtain ⟨b, hb, bs', rest'', hrec, rfl, rfl⟩ := h
    obtain ⟨hlen, hlt⟩ := ih hrec
    exact ⟨by simp [hlen], List.forall_mem_cons.2 ⟨parseHexOctet_lt hb, hlt⟩⟩
  | _ => cases h

/-- The loop counts the leading bits of the first octet. -/
theorem shift_and_iff (hb : b < 256) (hlow : 0x80 ≤ b) (hn : n ≤ 3) (hle : n + 1 ≤ leadingOnes b) :
    b <<< (n + 1) &&& 0x80 ≠ 0 ↔ n + 1 < leadingOnes b := by
  revert hle
  revert n
  revert hlow
  revert b
  decide +kernel

theorem continuationLoop_eq (hb : b < 256) (hlow : 0x80 ≤ b) (hn : n ≤ 3) (hle : n + 1 ≤ leadingOnes b)
    {fuel : Nat} (hfuel : 4 < fuel + n) (octets rest : List Nat) :
    continuationLoop b fuel n octets rest =
      if leadingOnes b > 4 then none
      else (takeEscapes (leadingOnes b - 1 - n) rest).map fun r => (octets ++ r.1, r.2) := by
  induction fuel generalizing n octets rest with
  | zero => omega
  | succ fuel ih =>
    rw [continuationLoop.eq_def]
    simp only [shift_and_iff hb hlow hn hle]
    by_cases hmore : n + 1 < leadingOnes b
    · rw [if_pos hmore]
      by_cases hlast : n + 1 > 3
      · rw [if_pos hlast, if_pos (by omega)]
      rw [if_neg hlast]
      obtain ⟨k, hk⟩ : ∃ k, leadingOnes b - 1 - n = k + 1 := ⟨leadingOnes b - 1 - n - 1, by omega⟩
      have hk' : leadingOnes b - 1 - (n + 1) = k := by omega
      rw [hk]
      cases rest with
      | nil => simp [takeEscapes]
      | cons c rest =>
        cases rest with
        | nil => simp [takeEscapes]
        | cons c1 rest =>
          cases rest with
          | nil => simp [takeEscapes]
          | cons c2 rest =>
            rw [takeEscapes]
            dsimp only
            by_cases hc : c = percent
            · rw [if_neg (not_not.2 hc), if_neg (not_not.2 hc)]
              cases hb' : parseHexOctet c1 c2 with
              | none =>
                rw [twoDigitHex_none hb']
                simp
              | some b' =>
                rw [twoDigitHex_some hb', ih (by omega) (by omega) (by omega), hk']
                cases takeEscapes k rest with
                | none => rfl
                | some r => simp
            · simp [hc]
    · rw [if_neg hmore, if_neg (by omega), show leadingOnes b - 1 - n = 0 by omega]
      simp [takeEscapes]

theorem utf8Value_eq_some {octets : List Nat} : utf8Value octets = some v ↔ IsScalar v ∧ utf8 v = octets := by
  unfold utf8Value
  constructor
  · intro h
    split at h
    · next hex =>
      obtain rfl := Option.some.inj h
      exact hex.choose_spec
    · cases h
  · rintro ⟨hv, henc⟩
    have hex : ∃ v, IsScalar v ∧ utf8 v = octets := ⟨v, hv, henc⟩
    rw [dif_pos hex, utf8_injective (hex.choose_spec.2.trans henc.symm)]

theorem leadingOnes_utf8 {bs : List Nat} (hv : IsScalar v) (h : utf8 v = b :: bs) (hb : 0x80 ≤ b) :
    leadingOnes b = bs.length + 1 := by
  unfold IsScalar at hv
  unfold utf8 at h
  unfold leadingOnes
  split_ifs at h with h1 h2 h3 <;> simp only [List.cons.injEq] at h <;> obtain ⟨rfl, rfl⟩ := h
  · omega
  · rw [if_neg (by omega), if_neg (by omega), if_pos (by omega)]
    rfl
  · rw [if_neg (by omega), if_neg (by omega), if_neg (by omega), if_pos (by omega)]
    rfl
  · rw [if_neg (by omega), if_neg (by omega), if_neg (by omega), if_neg (by omega), if_pos (by omega)]
    rfl

theorem leadingOnes_eq_zero : leadingOnes b = 0 ↔ b < 0x80 := by
  unfold leadingOnes
  by_cases h : b < 0x80
  · simp [h]
  · rw [if_neg h]
    refine ⟨fun hzero => ?_, fun hlt => absurd hlt h⟩
    split_ifs at hzero

theorem utf8_singleton (h : utf8 v = [b]) : b < 0x80 := by
  unfold utf8 at h
  split_ifs at h <;> simp only [List.cons.injEq, reduceCtorEq, and_false] at h
  omega

/-- The octets that the loop has read are decoded as their encoding, if they are one. -/
theorem decodeOctets_eq {bs : List Nat} (hb : 0x80 ≤ b) (hbytes : ∀ x ∈ b :: bs, x < 256)
    (hlength : leadingOnes b = bs.length + 1) : decodeOctets (b :: bs) = (utf8Value (b :: bs)).map utf16 := by
  unfold decodeOctets
  rcases Utf8.valueOf_cases hbytes with ⟨c, rest, hc, hbegin, hvalue⟩ | ⟨hvalue, hnone⟩
  · have hrest : rest = [] := by
      obtain ⟨b', bs', henc⟩ := List.exists_cons_of_ne_nil (utf8_ne_nil c)
      rw [henc, List.cons_append] at hbegin
      obtain ⟨rfl, hbs⟩ := List.cons.inj hbegin
      have hlen := leadingOnes_utf8 hc henc hb
      have := congrArg List.length hbs
      rw [List.length_append] at this
      exact List.length_eq_zero_iff.1 (by omega)
    rw [hrest, List.append_nil] at hbegin
    have hgood : ¬ (c = Utf8.kBadChar ∧ ¬ isReplacementCharacter (b :: bs) = true) := by
      rintro ⟨rfl, hnot⟩
      apply hnot
      rw [hbegin]
      decide
    simp only [hvalue, if_neg hgood, utf8Value_eq_some.2 ⟨hc, hbegin.symm⟩, Option.map_some]
    unfold IsScalar at hc
    by_cases hbmp : c ≤ Utf16.kMaxNonSurrogateCharCode
    · have hlt : c < 0x10000 := Nat.lt_succ_of_le hbmp
      rw [if_pos hbmp, utf16, if_pos hlt]
    · rw [if_neg hbmp, Utf16.utf16_eq_surrogates (Nat.lt_of_not_le hbmp) (by omega)]
  · have hnotReplacement : isReplacementCharacter (b :: bs) = false := by
      rw [isReplacementCharacter, beq_eq_false_iff_ne]
      intro heq
      exact hnone 0xFFFD (by decide) (by rw [heq]; decide)
    have hnoValue : utf8Value (b :: bs) = none := by
      cases h : utf8Value (b :: bs) with
      | none => rfl
      | some v =>
        obtain ⟨hv, henc⟩ := utf8Value_eq_some.1 h
        exact absurd (henc ▸ List.prefix_rfl) (hnone v hv)
    simp [hvalue, hnotReplacement, hnoValue]

/-! ## Decoding -/

theorem intoTwoByte_eq (isUri : Bool) (uri : List Nat) : intoTwoByte isUri uri = ecmaDecode (preserved isUri) uri := by
  induction hn : uri.length using Nat.strongRecOn generalizing uri with
  | ind n ih =>
    subst hn
    rw [intoTwoByte.eq_def, ecmaDecode.eq_def]
    cases uri with
    | nil => rfl
    | cons c rest =>
      dsimp only
      by_cases hc : c = percent
      · rw [if_pos hc, if_neg (not_not.2 hc)]
        cases rest with
        | nil => rfl
        | cons c1 rest =>
          cases rest with
          | nil => rfl
          | cons c2 rest =>
            dsimp only
            cases hb : parseHexOctet c1 c2 with
            | none =>
              rw [twoDigitHex_none hb]
              simp
            | some b =>
              rw [twoDigitHex_some hb, if_neg (show ¬ (b : ℤ) < 0 by omega)]
              simp only [Int.toNat_natCast]
              have hlt := parseHexOctet_lt hb
              by_cases hascii : b > Utf8.kMaxOneByteChar
              · have hlow : 0x80 ≤ b := hascii
                have hne : leadingOnes b ≠ 0 := fun h => absurd (leadingOnes_eq_zero.1 h) (by omega)
                have hloop := @continuationLoop_eq b 0 hlt hlow (by omega) (by omega) 5 (by omega) [b] rest
                rw [if_pos hascii, if_neg hne]
                by_cases hbad : leadingOnes b > 4
                · rw [if_pos hbad] at hloop
                  rw [if_pos (.inr hbad)]
                  split
                  · rfl
                  · next h =>
                    rw [hloop] at h
                    cases h
                rw [if_neg hbad, Nat.sub_zero] at hloop
                by_cases hone : leadingOnes b = 1
                · have hnone : utf8Value [b] = none := by
                    cases hvalue : utf8Value [b] with
                    | none => rfl
                    | some v => exact absurd (utf8_singleton (utf8Value_eq_some.1 hvalue).2) (by omega)
                  rw [hone] at hloop
                  rw [if_pos (.inl hone)]
                  split
                  · rfl
                  · next h =>
                    rw [hloop] at h
                    cases h
                    have hdecode := @decodeOctets_eq b [] hlow (by simpa using hlt) hone
                    rw [List.append_nil, hdecode, hnone]
                    rfl
                · rw [if_neg (by omega)]
                  split
                  · next h =>
                    split
                    · rfl
                    · next h' =>
                      rw [hloop, h'] at h
                      cases h
                  · next octets rest' h =>
                    split
                    · next h' =>
                      rw [hloop, h'] at h
                      cases h
                    · next bs rest'' h' =>
                      rw [hloop, h'] at h
                      cases h
                      obtain ⟨hlength, hbytes⟩ := takeEscapes_spec h'
                      have hle := takeEscapes_length h'
                      rw [List.singleton_append, decodeOctets_eq hlow (List.forall_mem_cons.2 ⟨hlt, hbytes⟩) (by omega),
                        ih rest''.length (by simp only [List.length_cons]; omega) rest'' rfl]
                      cases utf8Value (b :: bs) with
                      | none => rfl
                      | some v => rfl
              · rw [if_neg hascii, if_pos (leadingOnes_eq_zero.2 (by unfold Utf8.kMaxOneByteChar at hascii; omega)),
                  ih rest.length (by simp only [List.length_cons]; omega) rest rfl]
                unfold addToBuffer preserved
                rw [hc]
      · rw [if_neg hc, if_pos hc, ih rest.length (by simp) rest rfl]

/-- What the buffers are together. -/
def joined (r : List Nat × List Nat) : List Nat := r.1 ++ r.2

theorem joined_cons (part : List Nat) (r : Option (List Nat × List Nat)) :
    (do let (one, two) ← r; return (part ++ one, two)).map joined = do return part ++ (← r.map joined) := by
  cases r with
  | none => rfl
  | some r => simp [joined]

theorem joined_intoTwoByte (isUri : Bool) (uri : List Nat) :
    (do return ([], ← intoTwoByte isUri uri)).map joined = intoTwoByte isUri uri := by
  cases intoTwoByte isUri uri <;> rfl

/-- It makes no difference where the two-byte characters begin. -/
theorem intoOneAndTwoByte_joined (isUri : Bool) (uri : List Nat) :
    (intoOneAndTwoByte isUri uri).map joined = intoTwoByte isUri uri := by
  fun_induction intoOneAndTwoByte isUri uri with
  | case1 =>
    rw [intoTwoByte]
    rfl
  | case2 c1 c2 rest' twoDigits hneg =>
    rw [intoTwoByte.eq_def]
    simp [twoDigits, hneg]
  | case3 => exact joined_intoTwoByte isUri _
  | case4 c1 c2 rest' twoDigits hneg decoded hascii ih =>
    rw [intoTwoByte.eq_def, joined_cons, ih]
    simp only [if_true]
    rw [if_neg hneg, if_neg hascii]
  | case5 rest hshort =>
    rw [intoTwoByte.eq_def]
    simp only [if_true]
    rfl
  | case6 => exact joined_intoTwoByte isUri _
  | case7 code rest hcode hascii ih =>
    rw [intoTwoByte.eq_def]
    dsimp only
    rw [if_neg hcode, ← ih]
    exact joined_cons [code] _

theorem length_utf16_le (v : Nat) : (utf16 v).length ≤ 2 := by
  unfold utf16
  split <;> simp

theorem ecmaDecode_length {result : List Nat} (h : ecmaDecode preserve string = some result) :
    result.length ≤ string.length := by
  fun_induction ecmaDecode preserve string generalizing result with
  | case1 =>
    cases h
    exact Nat.le_refl _
  | case2 c rest hc ih =>
    simp only [bind, Option.bind_eq_some_iff, pure, Option.some.injEq] at h
    obtain ⟨r, hr, rfl⟩ := h
    exact Nat.succ_le_succ (ih hr)
  | case4 c hc c1 c2 rest b hb n hn =>
    rename_i ih
    simp only [bind, Option.bind_eq_some_iff, pure, Option.some.injEq] at h
    obtain ⟨r, hr, rfl⟩ := h
    have := ih hr
    rw [List.length_append]
    split <;> simp only [List.length_cons, List.length_nil] <;> omega
  | case7 c hc c1 c2 rest b hb n hn hn' bs rest' htake =>
    rename_i ih
    simp only [bind, Option.bind_eq_some_iff, pure, Option.some.injEq] at h
    obtain ⟨v, _, r, hr, rfl⟩ := h
    have hle := ih hr
    have hunits := length_utf16_le v
    have hlength := takeEscapes_length htake
    rw [List.length_append]
    simp only [List.length_cons]
    omega
  | _ => cases h

theorem toInt_eq (h : n < 2 ^ 31) : toInt n = n := by
  unfold toInt
  rw [Int.bmod_def]
  omega

theorem newStringFromOneByte_eq (h : string.length ≤ kMaxLength) :
    newStringFromOneByte string = .ok string := by
  unfold newStringFromOneByte
  rw [toInt_eq (by unfold kMaxLength at h; omega)]
  by_cases h0 : string.length = 0
  · rw [List.length_eq_zero_iff.1 h0]
    rfl
  by_cases h1 : string.length = 1
  · simp only [h1, List.take_of_length_le (Nat.le_of_eq h1)]
    rfl
  · have hcheck : checkLength string.length = .ok () := if_neg (by omega)
    rw [if_neg (by omega), if_neg (by omega), hcheck, Int.toNat_natCast, List.take_length]
    rfl

/-- Decoding does what the operation of ECMAScript does. -/
theorem decode_eq {uri : List Nat} (hlength : uri.length ≤ kMaxLength) :
    decode isUri uri = (ecmaDecode (preserved isUri) uri).elim (.error .uriError) .ok := by
  unfold decode
  have hjoined := (intoOneAndTwoByte_joined isUri uri).trans (intoTwoByte_eq isUri uri)
  cases hbuffers : intoOneAndTwoByte isUri uri with
  | none =>
    rw [hbuffers] at hjoined
    rw [← hjoined]
    rfl
  | some r =>
    obtain ⟨one, two⟩ := r
    rw [hbuffers, Option.map_some] at hjoined
    have hle := ecmaDecode_length hjoined.symm
    rw [← hjoined, Option.elim_some]
    simp only [joined, List.length_append] at hle ⊢
    by_cases htwo : two = []
    · subst htwo
      rw [if_pos rfl, List.append_nil, newStringFromOneByte_eq (by omega)]
    · have hcheck : checkLength (toInt (one.length + two.length)) = .ok () := by
        rw [toInt_eq (by unfold kMaxLength at hlength; omega)]
        exact if_neg (by omega)
      rw [if_neg htwo, hcheck]
      rfl

/-! ## Surrogates -/

/-- A lead without a trail behind it, or a trail without a lead before it. -/
def HasUnpairedSurrogate (string : List Nat) : Prop :=
  ∃ before c behind, string = before ++ c :: behind ∧
    ((IsLead c ∧ ∀ d ∈ behind.head?, ¬ IsTrail d) ∨ (IsTrail c ∧ ∀ d ∈ before.getLast?, ¬ IsLead d))

theorem not_lead_of_trail (h : IsTrail c) : ¬ IsLead c := by
  unfold IsTrail at h
  unfold IsLead
  omega

theorem not_hasUnpairedSurrogate_nil : ¬ HasUnpairedSurrogate [] := by
  rintro ⟨before, c, behind, h, _⟩
  simp at h

/-- Characters before the string that are paired do not matter. -/
theorem hasUnpairedSurrogate_append {front rest : List Nat} (hlast : ∀ d ∈ front.getLast?, ¬ IsLead d)
    (h : HasUnpairedSurrogate rest) : HasUnpairedSurrogate (front ++ rest) := by
  obtain ⟨before, c, behind, rfl, hc⟩ := h
  refine ⟨front ++ before, c, behind, by simp, hc.imp_right fun ⟨htrail, hbefore⟩ => ⟨htrail, ?_⟩⟩
  intro d hd
  rw [List.getLast?_append] at hd
  cases hlast' : before.getLast? with
  | none =>
    rw [hlast'] at hd
    exact hlast d hd
  | some e =>
    rw [hlast'] at hd
    exact hbefore d (by rw [hlast']; exact hd)

theorem hasUnpairedSurrogate_of_cons {rest : List Nat} (hlead : ¬ IsLead c) (htrail : ¬ IsTrail c)
    (h : HasUnpairedSurrogate (c :: rest)) : HasUnpairedSurrogate rest := by
  obtain ⟨before, c', behind, heq, hc⟩ := h
  cases before with
  | nil =>
    obtain ⟨rfl, rfl⟩ := List.cons.inj heq
    rcases hc with ⟨hc, _⟩ | ⟨hc, _⟩
    · exact absurd hc hlead
    · exact absurd hc htrail
  | cons b before =>
    obtain ⟨rfl, rfl⟩ := List.cons.inj heq
    refine ⟨before, c', behind, rfl, hc.imp_right fun ⟨ht, hbefore⟩ => ⟨ht, fun d hd => hbefore d ?_⟩⟩
    rw [List.getLast?_cons, Option.mem_def.1 hd]
    rfl

theorem hasUnpairedSurrogate_of_pair {rest : List Nat} (hlead : IsLead c1) (htrail : IsTrail c2)
    (h : HasUnpairedSurrogate (c1 :: c2 :: rest)) : HasUnpairedSurrogate rest := by
  obtain ⟨before, c', behind, heq, hc⟩ := h
  rcases before with _ | ⟨b1, _ | ⟨b2, before⟩⟩
  · obtain ⟨rfl, rfl⟩ := List.cons.inj heq
    rcases hc with ⟨_, hc⟩ | ⟨hc, _⟩
    · exact absurd htrail (hc c2 rfl)
    · exact absurd hlead (not_lead_of_trail hc)
  · obtain ⟨rfl, htail⟩ := List.cons.inj heq
    obtain ⟨rfl, rfl⟩ := List.cons.inj htail
    rcases hc with ⟨hc, _⟩ | ⟨_, hc⟩
    · exact absurd hc (not_lead_of_trail htrail)
    · exact absurd hlead (hc c1 rfl)
  · obtain ⟨rfl, htail⟩ := List.cons.inj heq
    obtain ⟨rfl, rfl⟩ := List.cons.inj htail
    refine ⟨before, c', behind, rfl, hc.imp_right fun ⟨ht, hbefore⟩ => ⟨ht, fun d hd => hbefore d ?_⟩⟩
    rw [List.getLast?_cons, List.getLast?_cons, Option.mem_def.1 hd]
    rfl

/-! ## Encoding -/

/-- The characters that stand as they are. -/
def unescaped (isUri : Bool) (c : Nat) : Bool := isUnescapePredicateInUriComponent c || (isUri && isUriSeparator c)

/-- How many characters a code unit takes. Either half of a pair takes two of the four escapes. -/
def encodedSize (isUri : Bool) (c : Nat) : Nat :=
  if unescaped isUri c then 1 else if c < 0x80 then 3 else if c < 0x800 then 6 else if IsLead c ∨ IsTrail c then 6 else 9

def encodedLength (isUri : Bool) (uri : List Nat) : Nat := (uri.map (encodedSize isUri)).sum

theorem parseHexOctet_encoded (hb : b < 256) :
    parseHexOctet (hexCharOfValue (b >>> 4)) (hexCharOfValue (b &&& 0x0F)) = some b := by
  revert b
  decide +kernel

theorem takeEscapes_flatMap {bs : List Nat} (hbs : ∀ b ∈ bs, b < 256) (rest : List Nat) :
    takeEscapes bs.length (bs.flatMap addEncodedOctetToBuffer ++ rest) = some (bs, rest) := by
  induction bs with
  | nil => rfl
  | cons b bs ih =>
    obtain ⟨hb, hbs⟩ := List.forall_mem_cons.1 hbs
    rw [List.length_cons, List.flatMap_cons, addEncodedOctetToBuffer]
    simp only [List.cons_append, List.nil_append]
    rw [takeEscapes, if_neg (not_not.2 rfl), parseHexOctet_encoded hb, ih hbs]
    rfl

/-- The escapes of a code point are decoded to it, unless they are preserved. -/
theorem ecmaDecode_escapes (hv : IsScalar v) (hpreserve : preserve v = false)
    (rest : List Nat) :
    ecmaDecode preserve ((utf8 v).flatMap addEncodedOctetToBuffer ++ rest) =
      do return utf16 v ++ (← ecmaDecode preserve rest) := by
  obtain ⟨b, bs, henc⟩ := List.exists_cons_of_ne_nil (utf8_ne_nil v)
  have hbytes := utf8_lt hv
  rw [henc] at hbytes ⊢
  obtain ⟨hb, hbs⟩ := List.forall_mem_cons.1 hbytes
  rw [List.flatMap_cons, List.append_assoc, addEncodedOctetToBuffer, ecmaDecode.eq_def]
  simp only [List.cons_append, List.nil_append, ne_eq, not_true_eq_false, if_false, parseHexOctet_encoded hb]
  by_cases hascii : v < 0x80
  · rw [utf8_ascii hascii] at henc
    obtain ⟨rfl, rfl⟩ := List.cons.inj henc
    have hunits : utf16 v = [v] := if_pos (by omega)
    rw [if_pos (leadingOnes_eq_zero.2 hascii), hpreserve, hunits]
    rfl
  · have hlow : 0x80 ≤ b := by
      by_contra hlt
      have := utf8_eq_of_begins (c := b) (d := v) (by rw [utf8_ascii (by omega), henc]; exact ⟨bs, rfl⟩)
      omega
    have hlength := leadingOnes_utf8 hv henc hlow
    have hshort : bs.length ≤ 3 ∧ bs ≠ [] := by
      have hle : (utf8 v).length ≤ 4 := by
        unfold utf8
        split_ifs <;> simp
      rw [henc, List.length_cons] at hle
      refine ⟨by omega, ?_⟩
      rintro rfl
      exact absurd (utf8_singleton henc) (by omega)
    have hpos := List.length_pos_iff.2 hshort.2
    have htake := takeEscapes_flatMap hbs rest
    rw [if_neg (by omega), if_neg (by omega)]
    split
    · next h =>
      rw [hlength, Nat.add_sub_cancel, htake] at h
      cases h
    · next h =>
      rw [hlength, Nat.add_sub_cancel, htake] at h
      cases h
      rw [utf8Value_eq_some.2 ⟨hv, henc⟩]
      rfl

theorem ecmaDecode_unescaped (hc : c ≠ percent) (rest : List Nat) :
    ecmaDecode preserve (c :: rest) = do return c :: (← ecmaDecode preserve rest) := by
  rw [ecmaDecode.eq_def]
  simp only [hc, ne_eq, not_false_eq_true, if_true]

theorem isReservedPredicate_eq (c : Nat) : isReservedPredicate c = isUriSeparator c := by
  unfold isReservedPredicate isUriSeparator
  rw [Bool.eq_iff_iff]
  simp only [List.contains_iff_mem, List.mem_cons, List.not_mem_nil, or_false]
  omega

theorem ne_percent_of_unescaped (h : unescaped isUri c = true) : c ≠ percent := by
  rintro rfl
  cases isUri <;> revert h <;> decide

/-- What is escaped is not preserved. -/
theorem preserved_eq_false (h : unescaped isUri c = false) : preserved isUri c = false := by
  unfold unescaped at h
  rw [Bool.or_eq_false_iff] at h
  rw [preserved, isReservedPredicate_eq]
  exact h.2

theorem preserved_of_ge (hv : 0x80 ≤ v) : preserved isUri v = false := by
  have : isReservedPredicate v = false := by
    rw [isReservedPredicate, ← Bool.not_eq_true, List.contains_iff_mem]
    simp only [List.mem_cons, List.not_mem_nil, or_false]
    omega
  rw [preserved, this, Bool.and_false]

theorem length_escapes (bs : List Nat) : (bs.flatMap addEncodedOctetToBuffer).length = 3 * bs.length := by
  induction bs with
  | nil => rfl
  | cons b bs ih =>
    rw [List.flatMap_cons, List.length_append, ih, List.length_cons]
    simp only [addEncodedOctetToBuffer, List.length_cons, List.length_nil]
    omega

theorem length_utf8 :
    (utf8 v).length = if v < 0x80 then 1 else if v < 0x800 then 2 else if v < 0x10000 then 3 else 4 := by
  unfold utf8
  split_ifs <;> rfl

theorem unescaped_lt (h : unescaped isUri c = true) : c < 0x80 := by
  have hor : c ≤ c ||| 0x20 := Nat.left_le_or
  simp only [unescaped, isUnescapePredicateInUriComponent, isAlphaNumeric, isUriSeparator, Bool.or_eq_true, Bool.and_eq_true,
    decide_eq_true_eq, List.contains_iff_mem, List.mem_cons, List.not_mem_nil, or_false] at h
  omega

theorem encodedLength_cons (isUri : Bool) (c : Nat) (rest : List Nat) :
    encodedLength isUri (c :: rest) = encodedSize isUri c + encodedLength isUri rest := by
  rw [encodedLength]
  rfl

theorem encodedSize_surrogate (isUri : Bool) (h : IsLead c ∨ IsTrail c) : encodedSize isUri c = 6 := by
  have hlow : 0xD800 ≤ c := by
    rcases h with h | h
    · exact h.1
    · unfold IsTrail at h
      omega
  have hescaped : ¬ unescaped isUri c = true := fun hc => absurd (unescaped_lt hc) (by omega)
  rw [encodedSize, if_neg hescaped, if_neg (by omega), if_neg (by omega), if_pos h]

theorem encodedSize_single (hc : c < 2 ^ 16) (hescaped : ¬ unescaped isUri c = true)
    (hlead : ¬ IsLead c) (htrail : ¬ IsTrail c) : encodedSize isUri c = 3 * (utf8 c).length := by
  rw [encodedSize, length_utf8]
  simp only [hlead, htrail, or_false, if_false]
  split_ifs <;> omega

/-- The loop finds every surrogate that is not paired. Otherwise the buffer has the encoded length, and is decoded to the
string. -/
theorem encodeLoop_cases (isUri : Bool) {uri : List Nat} (huri : ∀ c ∈ uri, c < 2 ^ 16) :
    (HasUnpairedSurrogate uri ∧ encodeLoop isUri uri = none) ∨
    (¬ HasUnpairedSurrogate uri ∧ ∃ buffer, encodeLoop isUri uri = some buffer ∧
      buffer.length = encodedLength isUri uri ∧ ecmaDecode (preserved isUri) buffer = some uri) := by
  fun_induction encodeLoop isUri uri with
  | case1 =>
    right
    refine ⟨not_hasUnpairedSurrogate_nil, [], rfl, rfl, ?_⟩
    rw [ecmaDecode]
  | case2 cc1 hlead cc2 rest htrail ih =>
    obtain ⟨h1, h2⟩ := List.forall_mem_cons.1 huri
    obtain ⟨h2, hrest⟩ := List.forall_mem_cons.1 h2
    rw [Utf16.isLeadSurrogate_iff h1] at hlead
    rw [Utf16.isTrailSurrogate_iff h2] at htrail
    obtain ⟨hscalar, hunits, hlow⟩ := Utf16.utf16_combineSurrogatePair hlead htrail
    rcases ih hrest with ⟨hunpaired, hnone⟩ | ⟨hpaired, buffer, hbuffer, hlength, hdecode⟩
    · left
      refine ⟨?_, by rw [hnone]; rfl⟩
      exact @hasUnpairedSurrogate_append [cc1, cc2] rest (by simpa using not_lead_of_trail htrail) hunpaired
    · right
      refine ⟨fun h => hpaired (hasUnpairedSurrogate_of_pair hlead htrail h), _, by rw [hbuffer]; rfl, ?_, ?_⟩
      · rw [List.length_append, hlength, encodePair, length_escapes, Utf8.encode_eq_utf8 (by unfold IsScalar at hscalar; omega),
          length_utf8, encodedLength_cons, encodedLength_cons, encodedSize_surrogate isUri (.inl hlead),
          encodedSize_surrogate isUri (.inr htrail), if_neg (by omega), if_neg (by omega), if_neg (by omega)]
        omega
      · rw [encodePair, Utf8.encode_eq_utf8 (by unfold IsScalar at hscalar; omega),
          ecmaDecode_escapes hscalar (preserved_of_ge (by omega)), hdecode, hunits]
        rfl
  | case3 cc1 hlead cc2 rest htrail =>
    left
    obtain ⟨h1, h2⟩ := List.forall_mem_cons.1 huri
    rw [Utf16.isLeadSurrogate_iff h1] at hlead
    rw [Utf16.isTrailSurrogate_iff (h2 cc2 List.mem_cons_self)] at htrail
    exact ⟨⟨[], cc1, cc2 :: rest, rfl, .inl ⟨hlead, by simpa using htrail⟩⟩, rfl⟩
  | case4 cc1 hlead =>
    left
    rw [Utf16.isLeadSurrogate_iff (huri cc1 List.mem_cons_self)] at hlead
    exact ⟨⟨[], cc1, [], rfl, .inl ⟨hlead, by simp⟩⟩, rfl⟩
  | case5 cc1 rest hlead htrail hplain ih =>
    obtain ⟨h1, hrest⟩ := List.forall_mem_cons.1 huri
    rw [Utf16.isLeadSurrogate_iff h1] at hlead
    rw [Bool.not_eq_true', ← Bool.not_eq_true, Utf16.isTrailSurrogate_iff h1] at htrail
    rcases ih hrest with ⟨hunpaired, hnone⟩ | ⟨hpaired, buffer, hbuffer, hlength, hdecode⟩
    · left
      refine ⟨?_, by rw [hnone]; rfl⟩
      exact @hasUnpairedSurrogate_append [cc1] rest (by simpa using hlead) hunpaired
    · right
      refine ⟨fun h => hpaired (hasUnpairedSurrogate_of_cons hlead htrail h), _, by rw [hbuffer]; rfl, ?_, ?_⟩
      · have hsize : encodedSize isUri cc1 = 1 := if_pos hplain
        rw [List.length_cons, hlength, encodedLength_cons, hsize, Nat.add_comm]
      · rw [ecmaDecode_unescaped (ne_percent_of_unescaped hplain), hdecode]
        rfl
  | case6 cc1 rest hlead htrail hplain ih =>
    obtain ⟨h1, hrest⟩ := List.forall_mem_cons.1 huri
    rw [Utf16.isLeadSurrogate_iff h1] at hlead
    rw [Bool.not_eq_true', ← Bool.not_eq_true, Utf16.isTrailSurrogate_iff h1] at htrail
    have hscalar : IsScalar cc1 := by
      unfold IsLead at hlead
      unfold IsTrail at htrail
      unfold IsScalar
      omega
    have hencode : encodeSingle cc1 = (utf8 cc1).flatMap addEncodedOctetToBuffer := by
      rw [encodeSingle, Utf8.encode_eq_utf8 (by omega)]
    rcases ih hrest with ⟨hunpaired, hnone⟩ | ⟨hpaired, buffer, hbuffer, hlength, hdecode⟩
    · left
      refine ⟨?_, by rw [hnone]; rfl⟩
      exact @hasUnpairedSurrogate_append [cc1] rest (by simpa using hlead) hunpaired
    · right
      refine ⟨fun h => hpaired (hasUnpairedSurrogate_of_cons hlead htrail h), _, by rw [hbuffer]; rfl, ?_, ?_⟩
      · rw [List.length_append, hlength, hencode, length_escapes, encodedLength_cons,
          encodedSize_single h1 hplain hlead htrail]
      · have hunits : utf16 cc1 = [cc1] := if_pos h1
        rw [hencode, ecmaDecode_escapes hscalar (preserved_eq_false (Bool.eq_false_iff.2 hplain)), hdecode, hunits]
        rfl
  | case7 cc1 rest hlead htrail =>
    left
    have h1 := huri cc1 List.mem_cons_self
    rw [Bool.not_eq_true', Bool.not_eq_false, Utf16.isTrailSurrogate_iff h1] at htrail
    exact ⟨⟨[], cc1, rest, rfl, .inr ⟨htrail, by simp⟩⟩, rfl⟩

/-! ## Both ways -/

/-- What is expected of an encoded string: an error for surrogates that are not paired, and for every other string the
way back. -/
def RoundTrips (isUri : Bool) (uri : List Nat) : Prop :=
  ((∃ e, encode isUri uri = .error e) ↔ HasUnpairedSurrogate uri) ∧
    (¬ HasUnpairedSurrogate uri → ∃ encoded, encode isUri uri = .ok encoded ∧ decode isUri encoded = .ok uri)

theorem encodedSize_le (isUri : Bool) (c : Nat) : encodedSize isUri c ≤ 9 := by
  unfold encodedSize
  split_ifs <;> omega

theorem encodedLength_le (isUri : Bool) (uri : List Nat) : encodedLength isUri uri ≤ 9 * uri.length := by
  induction uri with
  | nil => exact Nat.le_refl _
  | cons c rest ih =>
    have := encodedSize_le isUri c
    rw [encodedLength_cons, List.length_cons]
    omega

/-- A string that is too long is not made, or not all of it. -/
theorem newStringFromOneByte_long {buffer : List Nat} (hn : n ≤ kMaxLength) (hlong : kMaxLength < buffer.length)
    (hle : buffer.length ≤ 9 * n) (h : newStringFromOneByte buffer = .ok string) : string.length < n := by
  unfold kMaxLength at hn hlong
  unfold newStringFromOneByte at h
  by_cases hwraps : buffer.length < 2 ^ 32
  · -- the length is seen to be too large, or to be negative
    have herror : ¬ toInt buffer.length = 0 ∧ ¬ toInt buffer.length = 1 ∧
        (toInt buffer.length > kMaxLength ∨ toInt buffer.length < 0) := by
      unfold toInt kMaxLength
      rw [Int.bmod_def]
      omega
    have hcheck : checkLength (toInt buffer.length) = .error .invalidStringLength := if_pos herror.2.2
    rw [if_neg herror.1, if_neg herror.2.1, hcheck] at h
    cases h
  · obtain ⟨l, hl⟩ : ∃ l, buffer.length = 2 ^ 32 + l := ⟨buffer.length - 2 ^ 32, by omega⟩
    have hint : toInt buffer.length = l := by
      unfold toInt
      rw [Int.bmod_def]
      omega
    rw [hint] at h
    have hlength : string.length ≤ l := by
      by_cases h0 : l = 0
      · rw [if_pos (by omega)] at h
        cases h
        exact Nat.zero_le _
      by_cases h1 : l = 1
      · rw [if_neg (by omega), if_pos (by omega)] at h
        cases h
        rw [List.length_take]
        omega
      · rw [if_neg (by omega), if_neg (by omega)] at h
        have hcheck : checkLength l = .ok () := if_neg (by unfold kMaxLength; omega)
        rw [hcheck] at h
        cases h
        rw [List.length_take]
        omega
    omega

/-- Encoding and decoding is the way back exactly if the encoded string is not too long, and decoding does what the
operation of ECMAScript does for every string. -/
theorem uri_encode_decode (isUri : Bool) (uri : Text .twoByte) (hlength : uri.chars.length ≤ kMaxLength) :
    (RoundTrips isUri uri.chars ↔ HasUnpairedSurrogate uri.chars ∨ encodedLength isUri uri.chars ≤ kMaxLength) ∧
      decode isUri uri.chars = (ecmaDecode (preserved isUri) uri.chars).elim (.error .uriError) .ok := by
  refine ⟨?_, decode_eq hlength⟩
  have hchars : ∀ c ∈ uri.chars, c < 2 ^ 16 := fun c hc => by simpa [CharWidth.size] using uri.bounded c hc
  rcases encodeLoop_cases isUri hchars with ⟨hunpaired, hnone⟩ | ⟨hpaired, buffer, hbuffer, hsize, hdecode⟩
  · have hencode : encode isUri uri.chars = .error .uriError := by
      unfold encode
      rw [hnone]
    exact ⟨fun _ => .inl hunpaired, fun _ => ⟨⟨fun _ => hunpaired, fun _ => ⟨_, hencode⟩⟩, fun h => absurd hunpaired h⟩⟩
  have hencode : encode isUri uri.chars = newStringFromOneByte buffer := by
    unfold encode
    rw [hbuffer]
  rw [RoundTrips, hencode]
  constructor
  · rintro ⟨_, hback⟩
    right
    by_contra hlong
    obtain ⟨encoded, hok, hdecoded⟩ := hback hpaired
    have hle := encodedLength_le isUri uri.chars
    have hshort := newStringFromOneByte_long hlength (by omega) (by omega) hok
    rw [decode_eq (by omega)] at hdecoded
    cases hresult : ecmaDecode (preserved isUri) encoded with
    | none =>
      rw [hresult] at hdecoded
      cases hdecoded
    | some result =>
      rw [hresult] at hdecoded
      cases hdecoded
      have := ecmaDecode_length hresult
      omega
  · rintro (hunpaired | hshort)
    · exact absurd hunpaired hpaired
    · rw [newStringFromOneByte_eq (by omega)]
      refine ⟨⟨fun ⟨e, he⟩ => (nomatch he), fun h => absurd h hpaired⟩, fun _ => ⟨buffer, rfl, ?_⟩⟩
      rw [decode_eq (by omega), hdecode]
      rfl

theorem uri_encode_decode_percent : RoundTrips true [0x61, 0x25] :=
  (uri_encode_decode true ⟨[0x61, 0x25], by decide⟩ (by decide)).1.2 (.inr (by decide))

theorem encodeLoop_replicate (n : Nat) :
    encodeLoop false (List.replicate n 0x800) =
      some (List.replicate n [0x25, 0x45, 0x30, 0x25, 0x41, 0x30, 0x25, 0x38, 0x30]).flatten := by
  induction n with
  | zero => rfl
  | succ n ih =>
    rw [List.replicate_succ, encodeLoop.eq_def, List.replicate_succ, List.flatten_cons]
    simp only [ih]
    rfl

/-- An encoded string that is five characters longer than an `int` can tell. -/
theorem encode_replicate (hn : 9 * n = 2 ^ 32 + 5) :
    encode false (List.replicate n 0x800) = .ok [0x25, 0x45, 0x30, 0x25, 0x41] := by
  have hint : toInt (9 * n) = 5 := by
    rw [hn]
    decide +kernel
  obtain ⟨m, rfl⟩ : ∃ m, n = m + 1 := ⟨n - 1, by omega⟩
  unfold encode
  rw [encodeLoop_replicate]
  unfold newStringFromOneByte
  have hlength : (List.replicate (m + 1) [0x25, 0x45, 0x30, 0x25, 0x41, 0x30, 0x25, 0x38, 0x30]).flatten.length = 9 * (m + 1) := by
    simp [Nat.mul_comm]
  simp only [hlength, hint]
  rw [List.replicate_succ, List.flatten_cons]
  rfl

theorem not_hasUnpairedSurrogate_replicate (n : Nat) : ¬ HasUnpairedSurrogate (List.replicate n 0x800) := by
  rintro ⟨before, c, behind, h, hc⟩
  have hmem : c ∈ List.replicate n 0x800 := by
    rw [h]
    exact List.mem_append_right _ List.mem_cons_self
  obtain rfl := List.eq_of_mem_replicate hmem
  rcases hc with ⟨hc, _⟩ | ⟨hc, _⟩ <;> revert hc <;> decide

/-- The first five characters of `%E0%A0%80%E0...`, which are an error when they are decoded. -/
theorem encode_truncates :
    ¬ HasUnpairedSurrogate (List.replicate 477218589 0x800) ∧
      encode false (List.replicate 477218589 0x800) = .ok [0x25, 0x45, 0x30, 0x25, 0x41] ∧
      decode false [0x25, 0x45, 0x30, 0x25, 0x41] = .error .uriError := by
  have hnone : ecmaDecode (preserved false) [0x25, 0x45, 0x30, 0x25, 0x41] = none := by
    rw [ecmaDecode.eq_def]
    rfl
  refine ⟨not_hasUnpairedSurrogate_replicate _, encode_replicate (by decide), ?_⟩
  rw [decode_eq (by decide), hnone]
  rfl

end V8Core.Strings.Uri
