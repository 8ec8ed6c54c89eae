import V8Core.Numbers.LiteralReading
/-!
# The number a string denotes

The parts of `InternalStringToDouble` in front of the digits: sign, infinity,
literals with a radix and leading zeros. Together with the reading of decimal
literals they give the whole conversion: a blank string becomes the given
value, a numeric literal the double nearest to its mathematical value, and
every other string NaN.
-/

namespace V8Core.Numbers

open Decimal
open SignedInt

variable {c : Nat} {radix : LiteralRadix} {rest : List Nat} {x : Double}

variable {chars : List Nat}

section

variable (S : Strtod) (sign : Sign)

/-! ## Literals with a radix -/

/-- What may follow the letter of a radix. -/
def RadixDenotes (radix : LiteralRadix) (chars : List Nat) (x : Double) : Prop :=
  sign = .none ∧ ∃ cs after, cs ≠ [] ∧ (∀ c ∈ cs, isDigit c (2 ^ radix.log2) = true) ∧ IsBlank after ∧
    chars = cs ++ after ∧ x = .ofRat (denoted (2 ^ radix.log2) cs)

theorem not_isDigit_of_blank {radix : Nat} (hradix : radix ≤ 16) (h : isWhiteSpaceOrLineTerminator c = true) :
    isDigit c radix = false := by
  simp only [isWhiteSpaceOrLineTerminator, isWhiteSpace, Bool.or_eq_true, beq_iff_eq, Bool.and_eq_true,
    decide_eq_true_eq] at h
  simp only [isDigit, Bool.or_eq_false_iff, Bool.and_eq_false_iff, decide_eq_false_iff_not]
  omega

theorem LiteralRadix.two_pow_log2_le (radix : LiteralRadix) : 2 ^ radix.log2 ≤ 16 := by cases radix <;> decide

theorem exists_radix_split (radix : Nat) (chars : List Nat) :
    ∃ cs rest, (∀ c ∈ cs, isDigit c radix = true) ∧ (∀ c ∈ rest.head?, isDigit c radix = false) ∧
      chars = cs ++ rest := by
  induction chars with
  | nil => exact ⟨[], [], nofun, nofun, rfl⟩
  | cons c rest ih =>
    cases hc : isDigit c radix with
    | false =>
      refine ⟨[], c :: rest, nofun, ?_, rfl⟩
      rintro _ ⟨⟩
      exact hc
    | true =>
      obtain ⟨cs, tail, hcs, htail, rfl⟩ := ih
      exact ⟨c :: cs, tail, List.forall_mem_cons.mpr ⟨hc, hcs⟩, htail, rfl⟩

theorem parseRadix_recognises (radix : LiteralRadix) {isRadixDigit : Nat → Bool}
    (hdigit : ∀ c, isRadixDigit c = isDigit c (2 ^ radix.log2)) (hlen : chars.length ≤ kMaxLength) :
    Recognises (parseRadix stringToNumberFlags sign radix.log2 isRadixDigit chars) (RadixDenotes sign radix chars) := by
  have hk : radix.log2 ≤ 4 := by cases radix <;> decide
  have hbits : radix.log2 * chars.length + 10 ≤ kMaxInt :=
    le_trans (Nat.add_le_add_right (Nat.mul_le_mul hk hlen) 10) (by decide)
  rw [parseRadix]
  split
  next hbad =>
    refine recognises_nan ?_
    rintro x ⟨hsign, cs, after, hne, hcs, -, rfl, -⟩
    rcases hbad with hbad | hbad
    · cases cs with
      | nil => exact hne rfl
      | cons c cs =>
        rw [List.cons_append, List.head?_cons, Option.map_some, hdigit,
          hcs c List.mem_cons_self] at hbad
        exact Bool.false_ne_true hbad.symm
    · exact hbad hsign
  next hgood =>
    rw [not_or, Bool.not_eq_false, not_not] at hgood
    obtain ⟨hfirst, hsign⟩ := hgood
    obtain ⟨cs, rest, hcs, hrest, rfl⟩ := exists_radix_split (2 ^ radix.log2) chars
    obtain ⟨hdigits, hafter⟩ := digits_append hcs hrest
    have hdenoted : denoted (2 ^ radix.log2) (cs ++ rest) = denoted (2 ^ radix.log2) cs := by
      rw [denoted, hdigits, denoted]
    have hyes (hblank : IsBlank rest) :
        internalStringToIntDouble radix.log2 (cs ++ rest) false stringToNumberFlags.allowTrailingJunk =
          some (.ofRat (denoted (2 ^ radix.log2) cs)) := by
      rw [internalStringToIntDouble_eq (by omega) (Or.inr (by rw [hafter]; exact advanceToNonspace_eq_nil.mpr hblank)),
        if_pos (denoted_lt_limit (by omega)), hdenoted]
      rfl
    have hno (hjunk : ¬IsBlank rest) :
        internalStringToIntDouble radix.log2 (cs ++ rest) false stringToNumberFlags.allowTrailingJunk = some .nan :=
      internalStringToIntDouble_junk (by omega) (by rwa [hafter, Ne, advanceToNonspace_eq_nil]) hbits false
    refine (recognises_if hyes hno).congr fun x => ⟨?_, ?_⟩
    · rintro ⟨hblank, rfl⟩
      refine ⟨hsign, cs, rest, ?_, hcs, hblank, rfl, rfl⟩
      rintro rfl
      cases rest with
      | nil => exact Bool.false_ne_true hfirst
      | cons c rest =>
        rw [List.nil_append, List.head?_cons, Option.map_some, hdigit, hrest c rfl] at hfirst
        exact Bool.false_ne_true hfirst
    · rintro ⟨-, cs', after, -, hcs', hblank, heq, rfl⟩
      have hafter' : ∀ c ∈ after.head?, isDigit c (2 ^ radix.log2) = false := fun c hc =>
        not_isDigit_of_blank radix.two_pow_log2_le (hblank c (List.mem_of_mem_head? hc))
      obtain ⟨hdigits', hrest'⟩ := digits_append hcs' hafter'
      rw [← heq, hafter] at hrest'
      rw [← heq, hdigits] at hdigits'
      subst hrest'
      exact ⟨hblank, by rw [denoted, denoted, hdigits']⟩

/-! ## Leading zeros -/

/-- What may follow a first zero. -/
def AfterZeroDenotes (chars : List Nat) (x : Double) : Prop :=
  DecimalDenotes sign true chars x ∨
    ∃ radix letter rest, letter ∈ LiteralRadix.letters radix ∧ chars = letter :: rest ∧ RadixDenotes sign radix rest x

theorem decimalDenotes_nil (x : Double) : DecimalDenotes sign true [] x ↔ x = signedZero sign := by
  have hzero : decimalDouble sign [] 0 = signedZero sign := by
    rw [decimalDouble, value_nil, Nat.cast_zero, zero_mul, Double.ofRat_zero]
    cases sign <;> rfl
  have hnil : DecimalDenotes sign true [] x ↔ PointDenotes sign true [] [] x :=
    decimalDenotes_append sign isDigits_nil noDigit_nil x
  rw [hnil, pointDenotes_no_point sign (by simp), and_iff_right (Or.inl rfl), ← hzero]
  constructor
  · rintro ⟨e, after, -, heq, rfl⟩
    cases e with
    | none => rfl
    | some e => cases heq
  · rintro rfl
    refine ⟨none, [], ?_, rfl, rfl⟩
    intro c hc
    cases hc

theorem letters_disjoint {radix' : LiteralRadix} (h : c ∈ radix.letters) (h' : c ∈ radix'.letters) :
    radix = radix' := by
  cases radix <;> cases radix' <;> simp [LiteralRadix.letters] at h h' ⊢ <;> omega

theorem decimalDenotes_letter (h : c ∈ radix.letters) {leadingZero : Bool} :
    ¬DecimalDenotes sign leadingZero (c :: rest) x := by
  intro hdec
  have hc : c = 120 ∨ c = 88 ∨ c = 111 ∨ c = 79 ∨ c = 98 ∨ c = 66 := by
    cases radix <;> simp [LiteralRadix.letters] at h <;> omega
  rcases decimalDenotes_head sign hdec with h | h | h | h | h
  · obtain ⟨d, hd, rfl⟩ := exists_digit h
    omega
  · omega
  · omega
  · omega
  · rcases hc with rfl | rfl | rfl | rfl | rfl | rfl <;> exact absurd h (by decide)

theorem afterZeroDenotes_letter (h : c ∈ radix.letters) (rest : List Nat) (x : Double) :
    AfterZeroDenotes sign (c :: rest) x ↔ RadixDenotes sign radix rest x := by
  constructor
  · rintro (hdec | ⟨radix', letter, rest', hletter, heq, hx⟩)
    · exact absurd hdec (decimalDenotes_letter sign h)
    · obtain ⟨rfl, rfl⟩ := List.cons.inj heq
      rw [letters_disjoint h hletter]
      exact hx
  · exact fun hx => Or.inr ⟨radix, c, rest, h, rfl, hx⟩

theorem isBinaryDigit_eq (c : Nat) : isBinaryDigit c = isDigit c 2 := by
  rw [Bool.eq_iff_iff]
  simp only [isBinaryDigit, isDigit, Bool.or_eq_true, Bool.and_eq_true, beq_iff_eq, decide_eq_true_eq]
  omega

theorem parseAfterZero_letter (h : c ∈ radix.letters) (rest : List Nat) :
    parseAfterZero S stringToNumberFlags sign (c :: rest) =
      parseRadix stringToNumberFlags sign radix.log2 (isDigit · (2 ^ radix.log2)) rest := by
  have hbinary : isBinaryDigit = (isDigit · 2) := funext isBinaryDigit_eq
  rw [parseAfterZero.eq_def, hbinary]
  cases radix with
  | hex => rcases List.mem_pair.mp h with rfl | rfl <;> rfl
  | octal => rcases List.mem_pair.mp h with rfl | rfl <;> rfl
  | binary => rcases List.mem_pair.mp h with rfl | rfl <;> rfl

theorem parseAfterZero_other (h : ∀ radix : LiteralRadix, c ∉ radix.letters) (rest : List Nat) :
    parseAfterZero S stringToNumberFlags sign (c :: rest) =
      if (c :: rest).dropWhile (· == 48) = [] then some (signedZero sign)
      else parseDecimal S stringToNumberFlags sign true ((c :: rest).dropWhile (· == 48)) := by
  have hhex : ¬(c = 120 ∨ c = 88) := fun hc => h .hex (List.mem_pair.mpr hc)
  have hoctal : ¬(c = 111 ∨ c = 79) := fun hc => h .octal (List.mem_pair.mpr hc)
  have hbinary : ¬(c = 98 ∨ c = 66) := fun hc => h .binary (List.mem_pair.mpr hc)
  rw [parseAfterZero.eq_def]
  simp only [hhex, hoctal, hbinary]
  cases (c :: rest).dropWhile (· == 48) <;> rfl

theorem recognises_eq (v : Double) : Recognises (some v) fun x => x = v :=
  ⟨fun x hx => by rw [hx], fun hnone => absurd rfl (hnone v)⟩

theorem parseAfterZero_recognises (hlen : chars.length ≤ kMaxLength) :
    Recognises (parseAfterZero S stringToNumberFlags sign chars) (AfterZeroDenotes sign chars) := by
  cases chars with
  | nil =>
    refine (recognises_eq (signedZero sign)).congr fun x => ?_
    rw [AfterZeroDenotes, decimalDenotes_nil]
    simp
  | cons c rest =>
    by_cases hletter : ∃ radix : LiteralRadix, c ∈ radix.letters
    · obtain ⟨radix, hc⟩ := hletter
      rw [List.length_cons] at hlen
      rw [parseAfterZero_letter S sign hc]
      exact (parseRadix_recognises sign radix (fun _ => rfl) (by omega)).congr fun x =>
        (afterZeroDenotes_letter sign hc rest x).symm
    · rw [not_exists] at hletter
      obtain ⟨z, hz, -, hhead⟩ := exists_replicate_append 48 (c :: rest)
      have hdenotes : ∀ x, DecimalDenotes sign true ((c :: rest).dropWhile (· == 48)) x ↔
          AfterZeroDenotes sign (c :: rest) x := by
        intro x
        rw [← decimalDenotes_zeros sign z, ← hz, AfterZeroDenotes, iff_self_or]
        rintro ⟨radix, letter, rest', hmem, heq, -⟩
        rw [← (List.cons.inj heq).1] at hmem
        exact absurd hmem (hletter radix)
      rw [parseAfterZero_other S sign hletter]
      by_cases hnil : (c :: rest).dropWhile (· == 48) = []
      · rw [if_pos hnil]
        refine (recognises_eq (signedZero sign)).congr fun x => ?_
        rw [← hdenotes, hnil, decimalDenotes_nil]
      · rw [if_neg hnil]
        have hshort := le_trans (List.dropWhile_suffix (l := c :: rest) (· == 48)).length_le hlen
        exact (parseDecimal_recognises S sign hnil hhead hshort).congr hdenotes

/-! ## The sign and infinity -/

/-- What may follow the sign. -/
def UnsignedDenotes (chars : List Nat) (x : Double) : Prop :=
  (∃ after, IsBlank after ∧ chars = kInfinityString ++ after ∧ x = Double.infinity.withSign (sign == .negative)) ∨
    DecimalDenotes sign false chars x ∨
    ∃ radix letter rest, letter ∈ LiteralRadix.letters radix ∧ chars = 48 :: letter :: rest ∧
      RadixDenotes sign radix rest x

theorem subStringEquals_eq_some {substring : List Nat} :
    subStringEquals chars substring = some rest ↔ chars = substring ++ rest := by
  induction substring generalizing chars with
  | nil => rw [subStringEquals, Option.some.injEq, List.nil_append]
  | cons s substring ih =>
    cases chars with
    | nil => simp [subStringEquals]
    | cons c chars =>
      rw [subStringEquals, List.cons_append, List.cons.injEq, ← ih]
      split <;> simp [*]

theorem decimalDenotes_zero_cons (rest : List Nat) (x : Double) :
    DecimalDenotes sign false (48 :: rest) x ↔ DecimalDenotes sign true rest x := by
  obtain ⟨ds, tail, hds, htail, rfl⟩ := exists_digit_split rest
  have htext : 48 :: (digitText ds ++ tail) = digitText (0 :: ds) ++ tail := rfl
  rw [htext, decimalDenotes_append sign (isDigits_cons.mpr ⟨by omega, hds⟩) htail,
    decimalDenotes_append sign hds htail]
  simp [PointDenotes, decimalDouble, value_cons]

theorem decimalDenotes_false_nil (x : Double) : ¬DecimalDenotes sign false [] x := by
  have hnil : DecimalDenotes sign false [] x ↔ PointDenotes sign false [] [] x :=
    decimalDenotes_append sign isDigits_nil noDigit_nil x
  rw [hnil, pointDenotes_no_point sign (by simp)]
  simp

theorem parseUnsigned_infinity :
    Recognises (parseUnsigned S stringToNumberFlags sign (73 :: rest)) (UnsignedDenotes sign (73 :: rest)) := by
  have hdenotes : ∀ x, UnsignedDenotes sign (73 :: rest) x ↔ ∃ after, IsBlank after ∧
      73 :: rest = kInfinityString ++ after ∧ x = Double.infinity.withSign (sign == .negative) := by
    intro x
    refine or_iff_left ?_
    rintro (hdec | ⟨radix, letter, rest', -, heq, -⟩)
    · exact absurd (decimalDenotes_head sign hdec) (by decide)
    · exact absurd (List.cons.inj heq).1 (by decide)
  rw [parseUnsigned.eq_def]
  simp only [if_true]
  cases hsub : subStringEquals (73 :: rest) kInfinityString with
  | none =>
    refine recognises_nan fun x hx => ?_
    obtain ⟨after, -, heq, -⟩ := (hdenotes x).mp hx
    rw [subStringEquals_eq_some.mpr heq] at hsub
    cases hsub
  | some tail =>
    have heq := subStringEquals_eq_some.mp hsub
    have hjunk : (!stringToNumberFlags.allowTrailingJunk && !(advanceToNonspace tail).isEmpty) = true ↔
        ¬IsBlank tail := by
      rw [← advanceToNonspace_eq_nil]
      simp [stringToNumberFlags]
    refine Recognises.congr
      (recognises_if (P := IsBlank tail) (fun h => if_neg fun hc => hjunk.mp hc h) fun h => if_pos (hjunk.mpr h))
      fun x => ?_
    rw [hdenotes]
    constructor
    · rintro ⟨hblank, rfl⟩
      exact ⟨tail, hblank, heq, rfl⟩
    · rintro ⟨after, hblank, heq', rfl⟩
      rw [List.append_cancel_left (heq.symm.trans heq')]
      exact ⟨hblank, rfl⟩

theorem parseUnsigned_recognises (hlen : chars.length ≤ kMaxLength) :
    Recognises (parseUnsigned S stringToNumberFlags sign chars) (UnsignedDenotes sign chars) := by
  cases chars with
  | nil =>
    refine recognises_nan ?_
    rintro x (⟨after, -, heq, -⟩ | hdec | ⟨radix, letter, rest, -, heq, -⟩)
    · cases heq
    · exact decimalDenotes_false_nil sign x hdec
    · cases heq
  | cons c rest =>
    by_cases hinfinity : c = 73
    · subst hinfinity
      exact parseUnsigned_infinity S sign
    have hnoInfinity : ∀ {after : List Nat}, c :: rest ≠ kInfinityString ++ after :=
      fun heq => hinfinity (List.cons.inj heq).1
    rw [parseUnsigned.eq_def]
    simp only [if_neg hinfinity]
    by_cases hzero : c = 48
    · subst hzero
      rw [List.length_cons] at hlen
      have hrest : rest.length ≤ kMaxLength := by omega
      refine (parseAfterZero_recognises S sign hrest).congr fun x => ⟨?_, ?_⟩
      · rintro (hdec | ⟨radix, letter, tail, hletter, rfl, hx⟩)
        · exact Or.inr (Or.inl ((decimalDenotes_zero_cons sign rest x).mpr hdec))
        · exact Or.inr (Or.inr ⟨radix, letter, tail, hletter, rfl, hx⟩)
      · rintro (⟨after, -, heq, -⟩ | hdec | ⟨radix, letter, tail, hletter, heq, hx⟩)
        · exact absurd heq hnoInfinity
        · exact Or.inl ((decimalDenotes_zero_cons sign rest x).mp hdec)
        · exact Or.inr ⟨radix, letter, tail, hletter, (List.cons.inj heq).2, hx⟩
    · simp only [if_neg hzero]
      have hhead : 48 ∉ (c :: rest).head? := by
        rintro ⟨⟩
        exact hzero rfl
      refine (parseDecimal_recognises S sign (List.cons_ne_nil c rest) hhead hlen).congr fun x => ⟨?_, ?_⟩
      · exact fun hdec => Or.inr (Or.inl hdec)
      · rintro (⟨after, -, heq, -⟩ | hdec | ⟨radix, letter, tail, -, heq, -⟩)
        · exact absurd heq hnoInfinity
        · exact hdec
        · exact absurd (List.cons.inj heq).1 hzero

end

/-! ## The whole text -/

/-- The text is a literal with white space behind it, which stands for the double. -/
def LiteralDenotes (chars : List Nat) (x : Double) : Prop :=
  ∃ (l : StringNumericLiteral) (after : List Nat), IsBlank after ∧ chars = l.text ++ after ∧ x = l.nearest

/-- The literals with a sign. -/
theorem literalDenotes_of_unsigned {sign : Sign} (h : UnsignedDenotes sign chars x) :
    LiteralDenotes (sign.text ++ chars) x := by
  rcases h with ⟨after, hblank, rfl, rfl⟩ | hdec |
    ⟨radix, letter, rest, hletter, rfl, hsign, cs, after, hne, hcs, hblank, rfl, rfl⟩
  · exact ⟨.infinity sign, after, hblank, by rw [StringNumericLiteral.text, List.append_assoc], rfl⟩
  · obtain ⟨ds, rest, hds, -, rfl, fraction, e, after, hfr, hsome, hblank, rfl, rfl⟩ := hdec
    refine ⟨.decimal ⟨sign, ds, fraction, e, ⟨hds, hfr⟩, ?_⟩, after, hblank, ?_, rfl⟩
    · simpa using hsome
    · simp only [StringNumericLiteral.text, DecimalLiteral.unsignedText, List.append_assoc]
  · subst hsign
    exact ⟨.nonDecimal ⟨radix, letter, cs, hletter, hcs, hne⟩, after, hblank, rfl, rfl⟩

/-- A literal has one sign, which decides about the text behind it. -/
theorem unsigned_of_literalDenotes (h : LiteralDenotes chars x) :
    ∃ sign rest, chars = Sign.text sign ++ rest ∧ UnsignedDenotes sign rest x := by
  obtain ⟨l, after, hblank, rfl, rfl⟩ := h
  cases l with
  | infinity sign =>
    exact ⟨sign, kInfinityString ++ after, List.append_assoc .., Or.inl ⟨after, hblank, rfl, rfl⟩⟩
  | decimal l =>
    refine ⟨l.sign, l.unsignedText ++ after, List.append_assoc .., Or.inr (Or.inl ?_)⟩
    refine ⟨l.integer, fractionText l.fraction ++ (exponentText l.exponent ++ after), l.isDigits.1,
      noDigit_fraction _ (noDigit_exponent _ hblank), ?_, l.fraction, l.exponent, after, l.isDigits.2, ?_,
      hblank, rfl, rfl⟩
    · simp only [DecimalLiteral.unsignedText, List.append_assoc]
    · exact Or.inr l.some_digit
  | nonDecimal l =>
    refine ⟨.none, 48 :: l.letter :: (l.chars ++ after), rfl, Or.inr (Or.inr ?_)⟩
    exact ⟨l.radix, l.letter, l.chars ++ after, l.isLetter, rfl, rfl, l.chars, after, l.nonempty, l.isDigits, hblank,
      rfl, rfl⟩

theorem unsignedDenotes_head {sign : Sign} (h : UnsignedDenotes sign (c :: rest) x) : c ≠ 43 ∧ c ≠ 45 := by
  rcases h with ⟨after, -, heq, -⟩ | hdec | ⟨radix, letter, rest', -, heq, -⟩
  · rw [(List.cons.inj heq).1]
    decide
  · have hhead := decimalDenotes_head sign hdec
    constructor <;> rintro rfl <;> exact absurd hhead (by decide)
  · rw [(List.cons.inj heq).1]
    decide

theorem literalDenotes_plus (rest : List Nat) (x : Double) :
    UnsignedDenotes .positive rest x ↔ LiteralDenotes (43 :: rest) x := by
  refine ⟨fun h => literalDenotes_of_unsigned h, fun h => ?_⟩
  obtain ⟨sign, rest', heq, hx⟩ := unsigned_of_literalDenotes h
  cases sign with
  | none =>
    obtain rfl : 43 :: rest = rest' := heq
    exact absurd rfl (unsignedDenotes_head hx).1
  | negative => exact absurd (List.cons.inj heq).1 (by decide)
  | positive =>
    obtain rfl := (List.cons.inj heq).2
    exact hx

theorem literalDenotes_minus (rest : List Nat) (x : Double) :
    UnsignedDenotes .negative rest x ↔ LiteralDenotes (45 :: rest) x := by
  refine ⟨fun h => literalDenotes_of_unsigned h, fun h => ?_⟩
  obtain ⟨sign, rest', heq, hx⟩ := unsigned_of_literalDenotes h
  cases sign with
  | none =>
    obtain rfl : 45 :: rest = rest' := heq
    exact absurd rfl (unsignedDenotes_head hx).2
  | negative =>
    obtain rfl := (List.cons.inj heq).2
    exact hx
  | positive => exact absurd (List.cons.inj heq).1 (by decide)

theorem literalDenotes_unsigned (hplus : c ≠ 43) (hminus : c ≠ 45) (rest : List Nat) (x : Double) :
    UnsignedDenotes .none (c :: rest) x ↔ LiteralDenotes (c :: rest) x := by
  refine ⟨fun h => literalDenotes_of_unsigned h, fun h => ?_⟩
  obtain ⟨sign, rest', heq, hx⟩ := unsigned_of_literalDenotes h
  cases sign with
  | none =>
    obtain rfl : c :: rest = rest' := heq
    exact hx
  | negative => exact absurd (List.cons.inj heq).1 hminus
  | positive => exact absurd (List.cons.inj heq).1 hplus

theorem internalStringToDouble_recognises (S : Strtod) (hlen : chars.length ≤ kMaxLength)
    (hblank : ¬IsBlank chars) (emptyStringVal : Double) :
    Recognises (internalStringToDouble S stringToNumberFlags chars emptyStringVal)
      (LiteralDenotes (advanceToNonspace chars)) := by
  have hshort : (advanceToNonspace chars).length ≤ kMaxLength :=
    le_trans (List.dropWhile_suffix isWhiteSpaceOrLineTerminator).length_le hlen
  rw [← advanceToNonspace_eq_nil] at hblank
  rw [internalStringToDouble]
  cases hchars : advanceToNonspace chars with
  | nil => exact absurd hchars hblank
  | cons c rest =>
    rw [hchars] at hshort
    have hrest : rest.length ≤ kMaxLength := le_trans (Nat.le_succ _) hshort
    by_cases hplus : c = 43
    · subst hplus
      exact (parseUnsigned_recognises S .positive hrest).congr (literalDenotes_plus rest)
    · by_cases hminus : c = 45
      · subst hminus
        exact (parseUnsigned_recognises S .negative hrest).congr (literalDenotes_minus rest)
      · simp only [if_neg hplus, if_neg hminus]
        exact (parseUnsigned_recognises S .none hshort).congr (literalDenotes_unsigned hplus hminus rest)

/-- A literal begins with a character that is not white space. -/
theorem StringNumericLiteral.text_head (l : StringNumericLiteral) :
    ∃ c rest, l.text = c :: rest ∧ isWhiteSpaceOrLineTerminator c = false := by
  cases l with
  | infinity sign => cases sign <;> exact ⟨_, _, rfl, by decide⟩
  | nonDecimal l => exact ⟨_, _, rfl, by decide⟩
  | decimal l =>
    obtain ⟨sign, integer, fraction, exponent, ⟨hdigits, -⟩, hsome⟩ := l
    cases sign with
    | negative => exact ⟨_, _, rfl, by decide⟩
    | positive => exact ⟨_, _, rfl, by decide⟩
    | none =>
      cases integer with
      | cons d ds =>
        refine ⟨d + 48, _, rfl, Bool.eq_false_iff.mpr fun hblank => ?_⟩
        have hdigit := isDecimalDigit_digit (isDigits_cons.mp hdigits).1
        rw [(not_digit_of_blank hblank).1] at hdigit
        exact Bool.false_ne_true hdigit
      | nil =>
        cases fraction with
        | none => simp [fractionDigits] at hsome
        | some f => exact ⟨_, _, rfl, by decide⟩

theorem Spells.advanceToNonspace {l : StringNumericLiteral} (h : Spells chars l) :
    ∃ after, IsBlank after ∧ advanceToNonspace chars = l.text ++ after := by
  obtain ⟨before, after, hbefore, hafter, rfl⟩ := h
  obtain ⟨c, rest, htext, hc⟩ := l.text_head
  refine ⟨after, hafter, ?_⟩
  rw [advanceToNonspace_append hbefore, htext]
  exact advanceToNonspace_of_not hc _

theorem Spells.not_isBlank {l : StringNumericLiteral} (h : Spells chars l) : ¬IsBlank chars := by
  obtain ⟨after, -, heq⟩ := h.advanceToNonspace
  obtain ⟨c, rest, htext, -⟩ := l.text_head
  rw [← advanceToNonspace_eq_nil, heq, htext]
  exact List.cons_ne_nil _ _

theorem literalDenotes_iff_spells (chars : List Nat) (x : Double) :
    LiteralDenotes (advanceToNonspace chars) x ↔ ∃ l, Spells chars l ∧ x = l.nearest := by
  constructor
  · rintro ⟨l, after, hafter, heq, rfl⟩
    obtain ⟨before, hbefore, hchars⟩ := exists_blank_append chars
    exact ⟨l, ⟨before, after, hbefore, hafter, by rw [← heq]; exact hchars⟩, rfl⟩
  · rintro ⟨l, hl, rfl⟩
    obtain ⟨after, hafter, heq⟩ := hl.advanceToNonspace
    exact ⟨l, after, hafter, heq, rfl⟩

theorem StringNumericLiteral.nearest_ne_nan (l : StringNumericLiteral) : l.nearest ≠ .nan := by
  have hsign : ∀ (negative : Bool) (r : ℚ), (Double.ofRat r).withSign negative ≠ .nan := by
    intro negative r
    cases negative <;> nofun
  cases l with
  | infinity sign => cases sign <;> nofun
  | decimal l => exact hsign _ _
  | nonDecimal l => nofun

/-- A string to convert. -/
structure NumberString where
  chars : List Nat
  short : chars.length ≤ kMaxLength

/--
The conversion of a string to a number: the given value for a blank string, the nearest double for a numeric
literal, and NaN for the other strings only.
-/
theorem internalStringToDouble_spec (S : Strtod) (s : NumberString) (emptyStringVal : Double) :
    (IsBlank s.chars → internalStringToDouble S stringToNumberFlags s.chars emptyStringVal = some emptyStringVal) ∧
      (¬IsBlank s.chars →
        (internalStringToDouble S stringToNumberFlags s.chars emptyStringVal = some .nan ↔ ¬∃ l, Spells s.chars l)) ∧
      ∀ l, Spells s.chars l →
        internalStringToDouble S stringToNumberFlags s.chars emptyStringVal = some l.nearest := by
  have hrec (hblank : ¬IsBlank s.chars) := internalStringToDouble_recognises S s.short hblank emptyStringVal
  have hliteral : ∀ l, Spells s.chars l →
      internalStringToDouble S stringToNumberFlags s.chars emptyStringVal = some l.nearest := fun l hl =>
    (hrec hl.not_isBlank).1 _ ((literalDenotes_iff_spells s.chars _).mpr ⟨l, hl, rfl⟩)
  refine ⟨fun hblank => ?_, fun hblank => ⟨?_, fun hnone => ?_⟩, hliteral⟩
  · rw [internalStringToDouble, advanceToNonspace_eq_nil.mpr hblank]
  · rintro hnan ⟨l, hl⟩
    rw [hliteral l hl, Option.some.injEq] at hnan
    exact l.nearest_ne_nan hnan
  · refine (hrec hblank).2 fun x hx => hnone ?_
    obtain ⟨l, hl, -⟩ := (literalDenotes_iff_spells s.chars x).mp hx
    exact ⟨l, hl⟩

/-- The literal `12.5`. -/
def twelveAndAHalf : DecimalLiteral where
  sign := .none
  integer := [1, 2]
  fraction := some [5]
  exponent := none
  isDigits := by decide
  some_digit := by decide

/-- The string ` 12.5` behind a blank. -/
theorem internalStringToDouble_twelve_and_a_half :
    internalStringToDouble .exact stringToNumberFlags [32, 49, 50, 46, 53] .nan =
      some (StringNumericLiteral.decimal twelveAndAHalf).nearest :=
  (internalStringToDouble_spec .exact ⟨[32, 49, 50, 46, 53], by decide⟩ .nan).2.2 (.decimal twelveAndAHalf)
    ⟨[32], [], by decide, nofun, rfl⟩

end V8Core.Numbers
