import V8Core.Numbers.DigitReading
/-!
# Strings that are numeric literals

`InternalStringToDouble` with the flags of the conversion of strings to
numbers accepts exactly the numeric literals. Each function of the model
recognises what its part of the text may denote: it returns the double if
there is one and NaN if there is none.
-/

namespace V8Core.Numbers

open Decimal
open SignedInt

variable {L : Double → Prop} {c : Nat} {leadingZero : Bool} {rest : List Nat} {result : Option Double}

/-- The flags for literals with a radix, without implicit octal literals and without trailing junk. -/
def stringToNumberFlags : ConversionFlags where
  allowHex := true
  allowOctal := true
  allowImplicitOctal := false
  allowBinary := true
  allowTrailingJunk := false

/-- The result is a double that the text may denote, or NaN if there is none. -/
def Recognises (result : Option Double) (Denotes : Double → Prop) : Prop :=
  (∀ x, Denotes x → result = some x) ∧ ((∀ x, ¬Denotes x) → result = some .nan)

theorem Recognises.congr {L' : Double → Prop} (h : Recognises result L) (hiff : ∀ x, L x ↔ L' x) :
    Recognises result L' :=
  ⟨fun x hx => h.1 x ((hiff x).mpr hx), fun hnone => h.2 fun x hx => hnone x ((hiff x).mp hx)⟩

/-- The text denotes one double under a condition. -/
theorem recognises_if {P : Prop} {v : Double} (hyes : P → result = some v) (hno : ¬P → result = some .nan) :
    Recognises result fun x => P ∧ x = v := by
  refine ⟨?_, fun hnone => hno fun hP => hnone v ⟨hP, rfl⟩⟩
  rintro x ⟨hP, rfl⟩
  exact hyes hP

theorem recognises_nan (h : ∀ x, ¬L x) : Recognises (some .nan) L :=
  ⟨fun x hx => absurd hx (h x), fun _ => rfl⟩

section

variable (S : Strtod) (sign : Sign)

/-! ## The exponent -/

variable {chars f ds : List Nat}

theorem parseTrailing_blank (p : Reading) (h : IsBlank chars) :
    parseTrailing S stringToNumberFlags sign p chars = parsingDone S stringToNumberFlags sign p := by
  rw [parseTrailing, advanceToNonspace_eq_nil.mpr h]
  rfl

theorem parseTrailing_junk (p : Reading) (h : ¬IsBlank chars) :
    parseTrailing S stringToNumberFlags sign p chars = some .nan := by
  rw [← advanceToNonspace_eq_nil] at h
  rw [parseTrailing, List.isEmpty_eq_false_iff.mpr h]
  rfl

/-- What may follow the digits of a decimal literal, and the double it makes of them. -/
def TailDenotes (digits : List Nat) (m : Nat) (chars : List Nat) (x : Double) : Prop :=
  ∃ e after, IsBlank after ∧ chars = exponentText e ++ after ∧ x = decimalDouble sign digits (exponentValue e - m)

/-- What may follow the letter and the sign of an exponent. -/
def ExponentDenotes (digits : List Nat) (m : Nat) (negative : Bool) (chars : List Nat) (x : Double) : Prop :=
  ∃ es after, IsDigits es ∧ es ≠ [] ∧ IsBlank after ∧ chars = digitText es ++ after ∧
    x = decimalDouble sign digits ((if negative then -(value es : Int) else value es) - m)

section

variable {ds f : List Nat} {z : Nat} (hds : IsDigits (ds ++ f)) (hlead : (ds ++ f).head? ≠ some 0)
  (hlen : ds.length + z + f.length ≤ kMaxLength)
include hds hlead hlen

theorem parsingDone_after :
    parsingDone S stringToNumberFlags sign (.after ds z f) =
      some (decimalDouble sign (ds ++ f) (0 - (z + f.length : Nat))) := by
  have h := parsingDone_eq S stringToNumberFlags sign hds hlead hlen (x := 0) (by omega)
  rwa [Int.add_zero] at h

theorem parseExponentDigits_recognises (negative : Bool) (chars : List Nat) :
    Recognises (parseExponentDigits S stringToNumberFlags sign (.after ds z f) negative chars)
      (ExponentDenotes sign (ds ++ f) (z + f.length) negative chars) := by
  obtain ⟨es, rest, hes, hrest, rfl⟩ := exists_digit_split chars
  have hM : kMaxInt = 2147483647 := by decide
  have hL : kMaxLength = 536870888 := by decide
  have hE : maxExponent = 1073741823 := by decide
  cases es with
  | nil =>
    -- no digit: nothing is denoted
    have hnan : parseExponentDigits S stringToNumberFlags sign (.after ds z f) negative (digitText [] ++ rest) =
        some .nan := by
      cases rest with
      | nil => rfl
      | cons c rest =>
        show parseExponentDigits S stringToNumberFlags sign _ negative (c :: rest) = _
        rw [parseExponentDigits, List.head?_cons, Option.map_some, hrest c rfl]
        rfl
    rw [hnan]
    refine recognises_nan ?_
    rintro x ⟨es, after, hes', hne, hblank, heq, -⟩
    exact hne (digit_split_unique hes hes' hrest (noDigit_blank hblank) heq).1.symm
  | cons e es =>
    have hhead : (((digitText (e :: es) ++ rest).head?).map isDecimalDigit).getD false = true :=
      isDecimalDigit_digit (isDigits_cons.mp hes).1
    have hread := readExponent_eq [] hes hrest
    rw [value_nil, Nat.zero_min, List.nil_append] at hread
    obtain ⟨w, hw⟩ : ∃ w : Int, w = if negative then -((min (value (e :: es)) maxExponent : Nat) : Int)
      else (min (value (e :: es)) maxExponent : Nat) := ⟨_, rfl⟩
    have hwb : -(maxExponent : Int) ≤ w ∧ w ≤ maxExponent := by
      rw [hw]
      split <;> omega
    have hexp : -(kMaxInt : Int) ≤ (Reading.after ds z f).exponent + w ∧
        (Reading.after ds z f).exponent + w ≤ kMaxInt := by
      simp only [Reading.after]
      omega
    have hrun : parseExponentDigits S stringToNumberFlags sign (.after ds z f) negative (digitText (e :: es) ++ rest) =
        parseTrailing S stringToNumberFlags sign
          { Reading.after ds z f with exponent := (Reading.after ds z f).exponent + w } rest := by
      rw [parseExponentDigits, hhead, hread, Option.bind_eq_bind, Option.bind_some, ← hw,
        int_of_bounds hexp.1 hexp.2]
      rfl
    have hvalue := decimalDouble_limit sign hds (m := z + f.length) (by rw [List.length_append]; omega) (by omega)
      negative (value (e :: es))
    rw [← hw] at hvalue
    have hdone := (parsingDone_eq S stringToNumberFlags sign hds hlead hlen hwb).trans (congrArg some hvalue)
    have hyes (hblank : IsBlank rest) := (hrun.trans (parseTrailing_blank S sign _ hblank)).trans hdone
    have hno (hjunk : ¬IsBlank rest) := hrun.trans (parseTrailing_junk S sign _ hjunk)
    refine (recognises_if hyes hno).congr fun x => ⟨?_, ?_⟩
    · rintro ⟨hblank, rfl⟩
      exact ⟨e :: es, rest, hes, List.cons_ne_nil _ _, hblank, rfl, rfl⟩
    · rintro ⟨es', after, hes', -, hblank, heq, rfl⟩
      obtain ⟨rfl, rfl⟩ := digit_split_unique hes hes' hrest (noDigit_blank hblank) heq
      exact ⟨hblank, rfl⟩

/-- What may follow the letter of an exponent. -/
def SignedExponentDenotes (digits : List Nat) (m : Nat) (chars : List Nat) (x : Double) : Prop :=
  ∃ (s : Sign) (es after : List Nat), IsDigits es ∧ es ≠ [] ∧ IsBlank after ∧
    chars = s.text ++ (digitText es ++ after) ∧
    x = decimalDouble sign digits ((if s = .negative then -(value es : Int) else value es) - m)

theorem parseExponent_recognises (chars : List Nat) :
    Recognises (parseExponent S stringToNumberFlags sign (.after ds z f) chars)
      (SignedExponentDenotes sign (ds ++ f) (z + f.length) chars) := by
  have hfirst : ∀ {c : Nat} {rest es after : List Nat}, es ≠ [] → c :: rest = digitText es ++ after → 48 ≤ c := by
    intro c rest es after hne heq
    cases es with
    | nil => exact absurd rfl hne
    | cons e es =>
      rw [digitText_cons, List.cons_append, List.cons.injEq] at heq
      omega
  rw [parseExponent.eq_def]
  split
  next rest =>
    refine (parseExponentDigits_recognises S sign hds hlead hlen false rest).congr fun x => ⟨?_, ?_⟩
    · rintro ⟨es, after, hes, hne, hblank, rfl, rfl⟩
      exact ⟨.positive, es, after, hes, hne, hblank, rfl, rfl⟩
    · rintro ⟨s, es, after, hes, hne, hblank, heq, rfl⟩
      cases s with
      | none => exact absurd (hfirst hne heq) (by decide)
      | negative => exact absurd (List.cons.inj heq).1 (by decide)
      | positive => exact ⟨es, after, hes, hne, hblank, (List.cons.inj heq).2, rfl⟩
  next rest =>
    refine (parseExponentDigits_recognises S sign hds hlead hlen true rest).congr fun x => ⟨?_, ?_⟩
    · rintro ⟨es, after, hes, hne, hblank, rfl, rfl⟩
      exact ⟨.negative, es, after, hes, hne, hblank, rfl, rfl⟩
    · rintro ⟨s, es, after, hes, hne, hblank, heq, rfl⟩
      cases s with
      | none => exact absurd (hfirst hne heq) (by decide)
      | negative => exact ⟨es, after, hes, hne, hblank, (List.cons.inj heq).2, rfl⟩
      | positive => exact absurd (List.cons.inj heq).1 (by decide)
  next hplus hminus =>
    refine (parseExponentDigits_recognises S sign hds hlead hlen false chars).congr fun x => ⟨?_, ?_⟩
    · rintro ⟨es, after, hes, hne, hblank, rfl, rfl⟩
      exact ⟨.none, es, after, hes, hne, hblank, rfl, rfl⟩
    · rintro ⟨s, es, after, hes, hne, hblank, heq, rfl⟩
      cases s with
      | none => exact ⟨es, after, hes, hne, hblank, heq, rfl⟩
      | negative => exact absurd heq (hminus _)
      | positive => exact absurd heq (hplus _)

section
variable (hsome : leadingZero = true ∨ 0 < z ∨ ds ++ f ≠ [])
include hsome

omit hds hlead hlen in
/-- The test for a text without digits. -/
theorem some_digit_read :
    (!leadingZero && (Reading.after ds z f).exponent == 0 && (Reading.after ds z f).significantDigits == 0) =
      false := by
  have hS : kMaxSignificantDigits = 772 := rfl
  rw [Bool.eq_false_iff]
  intro h
  simp only [Bool.and_eq_true, Bool.not_eq_true', beq_iff_eq, Reading.after] at h
  rcases hsome with h' | h' | h'
  · exact Bool.false_ne_true (h.1.1.symm.trans h')
  · omega
  · have := List.length_pos_of_ne_nil h'
    omega

omit hds hlead hlen in
theorem parseAfterDigits_nil :
    parseAfterDigits S stringToNumberFlags sign leadingZero (.after ds z f) [] =
      parsingDone S stringToNumberFlags sign (.after ds z f) := by
  rw [parseAfterDigits.eq_def, some_digit_read hsome, if_neg Bool.false_ne_true]
  exact parseTrailing_blank S sign _ nofun

/-- The text behind the digits, if there were any. -/
theorem parseAfterDigits_recognises (chars : List Nat) :
    Recognises (parseAfterDigits S stringToNumberFlags sign leadingZero (.after ds z f) chars)
      (TailDenotes sign (ds ++ f) (z + f.length) chars) := by
  have htrailing : ∀ chars : List Nat, (∀ c ∈ chars.head?, c ≠ 101 ∧ c ≠ 69) →
      Recognises (parseTrailing S stringToNumberFlags sign (.after ds z f) chars)
        (TailDenotes sign (ds ++ f) (z + f.length) chars) := by
    intro chars hletter
    have hyes (hblank : IsBlank chars) :=
      (parseTrailing_blank S sign _ hblank).trans (parsingDone_after S sign hds hlead hlen)
    refine (recognises_if hyes (parseTrailing_junk S sign _)).congr fun x => ⟨?_, ?_⟩
    · rintro ⟨hblank, rfl⟩
      exact ⟨none, chars, hblank, rfl, rfl⟩
    · rintro ⟨e, after, hblank, rfl, rfl⟩
      cases e with
      | none => exact ⟨hblank, rfl⟩
      | some e =>
        obtain ⟨h1, h2⟩ := hletter e.letter rfl
        rcases e.isLetter with h | h
        · exact absurd h h1
        · exact absurd h h2
  rw [parseAfterDigits.eq_def, some_digit_read hsome, if_neg Bool.false_ne_true]
  cases chars with
  | nil => exact htrailing [] nofun
  | cons c rest =>
    dsimp only
    split
    next hletter =>
      rw [show (Reading.after ds z f).octal = false from rfl]
      refine (parseExponent_recognises S sign hds hlead hlen rest).congr fun x => ⟨?_, ?_⟩
      · rintro ⟨s, es, after, hes, hne, hblank, rfl, rfl⟩
        refine ⟨some ⟨c, s, es, hletter, hes, hne⟩, after, hblank, ?_, rfl⟩
        rw [exponentText, List.cons_append, List.append_assoc]
      · rintro ⟨e, after, hblank, heq, rfl⟩
        cases e with
        | none =>
          have hc := not_digit_of_blank (hblank c (by rw [← show c :: rest = after from heq]; exact List.mem_cons_self))
          omega
        | some e =>
          rw [exponentText, List.cons_append, List.append_assoc, List.cons.injEq] at heq
          exact ⟨e.sign, e.digits, after, e.isDigits, e.nonempty, hblank, heq.2, rfl⟩
    next hletter =>
      refine htrailing (c :: rest) ?_
      rintro _ ⟨⟩
      omega

end

end

/-! ## The fraction -/

theorem value_zeros_append (z : Nat) (ds : List Nat) : value (List.replicate z 0 ++ ds) = value ds := by
  induction z with
  | zero => rfl
  | succ z ih => rw [List.replicate_succ, List.cons_append, value_cons, zero_mul, zero_add, ih]

theorem parseFractionDigits_eq (ds : List Nat) (z : Nat) (hf : IsDigits f) (hrest : NoDigit rest)
    (hlen : z + f.length ≤ kMaxInt) (hsome : rest = [] → leadingZero = true ∨ 0 < z ∨ ds ++ f ≠ []) :
    parseFractionDigits S stringToNumberFlags sign leadingZero (.after ds z []) (digitText f ++ rest) =
      parseAfterDigits S stringToNumberFlags sign leadingZero (.after ds z f) rest := by
  rw [parseFractionDigits, readFraction_eq ds z [] hf hrest hlen, Option.bind_eq_bind, Option.bind_some]
  split
  next hnil =>
    subst hnil
    exact (parseAfterDigits_nil S sign (hsome rfl)).symm
  next => rfl

/-- The loops over the fraction: the zeros it begins with are counted if there is no integer part. -/
theorem parseFraction_eq (hf : IsDigits f) (hrest : NoDigit rest) (hlead : ds.head? ≠ some 0)
    (hne : digitText f ++ rest ≠ []) (hlen : ds.length + f.length ≤ kMaxLength) :
    ∃ z f', f = List.replicate z 0 ++ f' ∧ (ds = [] ∨ z = 0) ∧ (ds ++ f').head? ≠ some 0 ∧
      parseFraction S stringToNumberFlags sign leadingZero (.after ds 0 []) (digitText f ++ rest) =
        parseAfterDigits S stringToNumberFlags sign leadingZero (.after ds z f') rest := by
  have hmax : kMaxLength ≤ kMaxInt := by decide
  cases ds with
  | cons d ds =>
    refine ⟨0, f, rfl, Or.inr rfl, hlead, ?_⟩
    have hsig : (Reading.after (d :: ds) 0 []).significantDigits ≠ 0 := by
      have hS : kMaxSignificantDigits = 772 := rfl
      simp only [Reading.after, List.append_nil, List.length_cons]
      omega
    rw [parseFraction, if_neg hsig]
    exact parseFractionDigits_eq S sign (d :: ds) 0 hf hrest (by omega) fun _ => Or.inr (Or.inr (List.cons_ne_nil _ _))
  | nil =>
    obtain ⟨z, hz, -, hzero⟩ := exists_replicate_append 0 f
    generalize f.dropWhile (· == 0) = f' at hz hzero
    subst hz
    refine ⟨z, f', rfl, Or.inl rfl, hzero, ?_⟩
    rw [List.length_append, List.length_replicate] at hlen
    have htext : digitText (List.replicate z 0 ++ f') ++ rest = List.replicate z 48 ++ (digitText f' ++ rest) := by
      rw [digitText_append, List.append_assoc, digitText_replicate]
    have hdone : (digitText f' ++ rest = []) → f' = [] ∧ rest = [] := by
      intro h
      exact ⟨List.map_eq_nil_iff.mp (List.append_eq_nil_iff.mp h).1, (List.append_eq_nil_iff.mp h).2⟩
    rw [htext] at hne ⊢
    rw [parseFraction]
    by_cases hnil : digitText f' ++ rest = []
    · -- the text ends with the zeros
      obtain ⟨rfl, rfl⟩ := hdone hnil
      obtain ⟨y, rfl⟩ : ∃ y, z = y + 1 := Nat.exists_eq_succ_of_ne_zero (by rintro rfl; exact hne rfl)
      obtain ⟨p, hp⟩ := skipFractionZeros_replicate 0 y (by omega)
      rw [hnil, List.append_nil, hp, parseAfterDigits_nil S sign (Or.inr (Or.inl (Nat.succ_pos y))),
        parsingDone_after S sign (by decide) (by decide) (by omega)]
      simp only [decimalDouble, List.append_nil, value_nil, Nat.cast_zero, zero_mul, Double.ofRat_zero]
      cases sign <;> rfl
    · have hhead : 48 ∉ (digitText f' ++ rest).head? := by
        cases f' with
        | nil =>
          intro h
          exact absurd (hrest 48 h) (by decide)
        | cons d f' =>
          rintro ⟨⟩
          exact hzero rfl
      rw [skipFractionZeros_eq 0 z hnil hhead (by omega), Option.bind_eq_bind, Option.bind_some, zero_add, if_neg hnil]
      refine parseFractionDigits_eq S sign [] z (isDigits_append.mp hf).2 hrest (by omega) fun h => ?_
      subst h
      refine Or.inr (Or.inr fun h => hnil ?_)
      rw [show f' = [] from h]
      rfl

/-- What may follow the digits of the integer part. -/
def PointDenotes (leadingZero : Bool) (ds chars : List Nat) (x : Double) : Prop :=
  ∃ fraction e after, IsDigits (fractionDigits fraction) ∧
    (leadingZero = true ∨ ds ≠ [] ∨ fractionDigits fraction ≠ []) ∧ IsBlank after ∧
    chars = fractionText fraction ++ (exponentText e ++ after) ∧
    x = decimalDouble sign (ds ++ fractionDigits fraction) (exponentValue e - (fractionDigits fraction).length)

/-- The zeros that are left out do not change the number. -/
theorem tailDenotes_zeros {f' : List Nat} {z : Nat} (hf : f = List.replicate z 0 ++ f') (hz : ds = [] ∨ z = 0)
    (chars : List Nat) (x : Double) :
    TailDenotes sign (ds ++ f') (z + f'.length) chars x ↔ TailDenotes sign (ds ++ f) f.length chars x := by
  have hlen : f.length = z + f'.length := by rw [hf, List.length_append, List.length_replicate]
  have hvalue : value (ds ++ f) = value (ds ++ f') := by
    rcases hz with rfl | rfl
    · rw [hf, List.nil_append, List.nil_append, value_zeros_append]
    · rw [hf, List.replicate_zero, List.nil_append]
  simp only [TailDenotes, decimalDouble, hlen, hvalue]

/-- A text without digits denotes nothing. -/
theorem parseAfterDigits_none (chars : List Nat) :
    parseAfterDigits S stringToNumberFlags sign false (.after [] 0 []) chars = some .nan := by
  rw [parseAfterDigits.eq_def]
  rfl

theorem exponent_head {e : Option ExponentPart} {after : List Nat} (hblank : IsBlank after)
    (h : c :: rest = exponentText e ++ after) : c ≠ 46 := by
  cases e with
  | none =>
    have hafter : c :: rest = after := h
    exact (not_digit_of_blank (hblank c (hafter ▸ List.mem_cons_self))).2.1
  | some e =>
    obtain rfl : c = e.letter := (List.cons.inj h).1
    have := e.isLetter
    omega

/-- A point and digits can be followed by what may follow digits. -/
theorem pointDenotes_point (hf : IsDigits f) (hrest : NoDigit rest) (x : Double) :
    PointDenotes sign leadingZero ds (46 :: (digitText f ++ rest)) x ↔
      (leadingZero = true ∨ ds ≠ [] ∨ f ≠ []) ∧ TailDenotes sign (ds ++ f) f.length rest x := by
  constructor
  · rintro ⟨fraction, e, after, hfr, hsome, hblank, heq, rfl⟩
    cases fraction with
    | none => exact absurd rfl (exponent_head hblank heq)
    | some g =>
      obtain ⟨rfl, rfl⟩ := digit_split_unique hf hfr hrest (noDigit_exponent e hblank) (List.cons.inj heq).2
      exact ⟨hsome, e, after, hblank, rfl, rfl⟩
  · rintro ⟨hsome, e, after, hblank, rfl, rfl⟩
    exact ⟨some f, e, after, hf, hsome, hblank, rfl, rfl⟩

/-- Without a point there are no digits behind it. -/
theorem pointDenotes_no_point (h : 46 ∉ chars.head?) (x : Double) :
    PointDenotes sign leadingZero ds chars x ↔ (leadingZero = true ∨ ds ≠ []) ∧ TailDenotes sign ds 0 chars x := by
  constructor
  · rintro ⟨fraction, e, after, hfr, hsome, hblank, rfl, rfl⟩
    cases fraction with
    | none =>
      refine ⟨hsome.imp_right fun h => h.resolve_right fun h => h rfl, e, after, hblank, rfl, ?_⟩
      rw [fractionDigits, Option.getD_none, List.append_nil]
      rfl
    | some g => exact absurd rfl h
  · rintro ⟨hsome, e, after, hblank, rfl, rfl⟩
    refine ⟨none, e, after, nofun, hsome.imp_right Or.inl, hblank, rfl, ?_⟩
    rw [fractionDigits, Option.getD_none, List.append_nil]
    rfl

/-- A text that denotes one double. -/
theorem recognises_and {P : Prop} (hyes : P → Recognises result L) (hno : ¬P → result = some .nan) :
    Recognises result fun x => P ∧ L x := by
  refine ⟨fun x hx => (hyes hx.1).1 x hx.2, fun hnone => ?_⟩
  by_cases hP : P
  · exact (hyes hP).2 fun x hx => hnone x ⟨hP, hx⟩
  · exact hno hP

theorem after_octal (ds : List Nat) :
    (if (Reading.after ds 0 []).significantDigits = 0 then { Reading.after ds 0 [] with octal := false }
      else Reading.after ds 0 []) = Reading.after ds 0 [] := by
  split <;> rfl

theorem parsePoint_no_point (hc : c ≠ 46) :
    parsePoint S stringToNumberFlags sign leadingZero (.after ds 0 []) (c :: rest) =
      parseAfterDigits S stringToNumberFlags sign leadingZero (.after ds 0 []) (c :: rest) := by
  rw [parsePoint.eq_def]
  simp only [after_octal, if_neg hc]

/-- The point and the fraction, which may be empty. -/
theorem parsePoint_point (leadingZero : Bool) (hf : IsDigits f) (hrest : NoDigit rest)
    (hlead : ds.head? ≠ some 0) (hlen : ds.length + f.length ≤ kMaxLength) :
    ∃ z f', f = List.replicate z 0 ++ f' ∧ (ds = [] ∨ z = 0) ∧ (ds ++ f').head? ≠ some 0 ∧
      parsePoint S stringToNumberFlags sign leadingZero (.after ds 0 []) (46 :: (digitText f ++ rest)) =
        parseAfterDigits S stringToNumberFlags sign leadingZero (.after ds z f') rest := by
  rw [parsePoint.eq_def]
  simp only [after_octal, if_true]
  rw [show (Reading.after ds 0 []).octal = false from rfl, Bool.false_and, if_neg Bool.false_ne_true,
    if_neg Bool.false_ne_true]
  split
  next hnil =>
    -- the text ends with the point
    obtain rfl : f = [] := List.map_eq_nil_iff.mp (List.append_eq_nil_iff.mp hnil).1
    obtain rfl : rest = [] := (List.append_eq_nil_iff.mp hnil).2
    refine ⟨0, [], rfl, Or.inr rfl, by rwa [List.append_nil], ?_⟩
    have hsig : (Reading.after ds 0 []).significantDigits = 0 ↔ ds = [] := by
      have hS : kMaxSignificantDigits = 772 := rfl
      simp only [Reading.after, List.append_nil, ← List.length_eq_zero_iff]
      omega
    split
    next h =>
      obtain ⟨hds, hzero⟩ := h
      rw [hsig] at hds
      subst hds
      rw [Bool.not_eq_true'] at hzero
      rw [hzero, parseAfterDigits_none]
    next h =>
      rw [parseAfterDigits_nil]
      rw [hsig, Bool.not_eq_true', not_and_or, Bool.not_eq_false] at h
      exact h.symm.imp_right fun h => Or.inr (by rwa [List.append_nil])
  next c tail hcons =>
    exact parseFraction_eq S sign hf hrest hlead (by rw [hcons]; exact List.cons_ne_nil _ _) hlen

theorem parsePoint_recognises (hds : IsDigits ds) (hlead : ds.head? ≠ some 0)
    (hchars : NoDigit chars) (hsome : chars = [] → leadingZero = true ∨ ds ≠ [])
    (hlen : ds.length + chars.length ≤ kMaxLength) :
    Recognises (parsePoint S stringToNumberFlags sign leadingZero (.after ds 0 []) chars)
      (PointDenotes sign leadingZero ds chars) := by
  have hds' : IsDigits (ds ++ []) := by rwa [List.append_nil]
  have hlead' : (ds ++ []).head? ≠ some 0 := by rwa [List.append_nil]
  have hafter : leadingZero = true ∨ ds ≠ [] → ∀ chars,
      Recognises (parseAfterDigits S stringToNumberFlags sign leadingZero (.after ds 0 []) chars)
        (TailDenotes sign ds 0 chars) := by
    intro h chars
    have hrec := parseAfterDigits_recognises S sign hds' hlead' (z := 0) (by rw [List.length_nil]; omega)
      (h.imp_right fun h => Or.inr (by rwa [List.append_nil])) chars
    rwa [List.append_nil] at hrec
  have hnone : ¬(leadingZero = true ∨ ds ≠ []) → leadingZero = false ∧ ds = [] := by
    intro h
    rw [not_or, not_not, Bool.not_eq_true] at h
    exact h
  cases chars with
  | nil =>
    have hrec := hafter (hsome rfl) []
    rw [parseAfterDigits_nil S sign ((hsome rfl).imp_right fun h => Or.inr (by rwa [List.append_nil]))] at hrec
    refine hrec.congr fun x => ?_
    rw [pointDenotes_no_point sign (by simp), and_iff_right (hsome rfl)]
  | cons c rest =>
    by_cases hpoint : c = 46
    · subst hpoint
      obtain ⟨f, tail, hf, htail, rfl⟩ := exists_digit_split rest
      rw [List.length_cons, List.length_append, digitText, List.length_map] at hlen
      obtain ⟨z, f', hsplit, hz, hfirst, hrun⟩ := parsePoint_point S sign leadingZero hf htail hlead
        (by omega)
      rw [hrun]
      have hflen : f.length = z + f'.length := by rw [hsplit, List.length_append, List.length_replicate]
      refine Recognises.congr (recognises_and (fun h => ?_) fun h => ?_)
        fun x => (pointDenotes_point sign hf htail x).symm
      · rw [hsplit] at hf
        have hdigit : leadingZero = true ∨ 0 < z ∨ ds ++ f' ≠ [] := by
          rcases h with h | h | h
          · exact Or.inl h
          · exact Or.inr (Or.inr (List.append_ne_nil_of_left_ne_nil h _))
          · have := List.length_pos_of_ne_nil h
            rcases Nat.eq_zero_or_pos z with h0 | hpos
            · exact Or.inr (Or.inr (List.append_ne_nil_of_right_ne_nil _ (List.ne_nil_of_length_pos (by omega))))
            · exact Or.inr (Or.inl hpos)
        have hdigits := isDigits_append.mpr ⟨hds, (isDigits_append.mp hf).2⟩
        exact (parseAfterDigits_recognises S sign hdigits hfirst (by omega) hdigit tail).congr
          (tailDenotes_zeros sign hsplit hz tail)
      · rw [not_or, not_or, not_not, not_not, Bool.not_eq_true] at h
        obtain ⟨rfl, rfl, rfl⟩ := h
        obtain ⟨rfl, rfl⟩ : z = 0 ∧ f' = [] := by
          rw [List.length_nil] at hflen
          exact ⟨by omega, List.eq_nil_of_length_eq_zero (by omega)⟩
        exact parseAfterDigits_none S sign tail
    · rw [parsePoint_no_point S sign hpoint]
      have hhead : 46 ∉ (c :: rest).head? := by
        rintro ⟨⟩
        exact hpoint rfl
      refine Recognises.congr (recognises_and (hafter · _) fun h => ?_)
        fun x => (pointDenotes_no_point sign hhead x).symm
      obtain ⟨rfl, rfl⟩ := hnone h
      exact parseAfterDigits_none S sign _

/-! ## Decimal literals -/

/-- What may follow the sign and a zero, or the sign only. -/
def DecimalDenotes (leadingZero : Bool) (chars : List Nat) (x : Double) : Prop :=
  ∃ ds rest, IsDigits ds ∧ NoDigit rest ∧ chars = digitText ds ++ rest ∧ PointDenotes sign leadingZero ds rest x

theorem decimalDenotes_append (hds : IsDigits ds) (hrest : NoDigit rest) (x : Double) :
    DecimalDenotes sign leadingZero (digitText ds ++ rest) x ↔ PointDenotes sign leadingZero ds rest x := by
  constructor
  · rintro ⟨ds', rest', hds', hrest', heq, h⟩
    obtain ⟨rfl, rfl⟩ := digit_split_unique hds hds' hrest hrest' heq
    exact h
  · exact fun h => ⟨ds, rest, hds, hrest, rfl, h⟩

theorem head_ne_zero (h : 48 ∉ (digitText ds ++ rest).head?) : ds.head? ≠ some 0 := by
  cases ds with
  | nil => exact nofun
  | cons d ds =>
    rintro ⟨⟩
    exact h rfl

theorem parseDecimal_recognises (hne : chars ≠ []) (hfirst : 48 ∉ chars.head?)
    (hlen : chars.length ≤ kMaxLength) :
    Recognises (parseDecimal S stringToNumberFlags sign leadingZero chars) (DecimalDenotes sign leadingZero chars) := by
  have hmax : kMaxLength ≤ kMaxInt := by decide
  obtain ⟨ds, rest, hds, hrest, rfl⟩ := exists_digit_split chars
  rw [List.length_append, digitText, List.length_map] at hlen
  have hinit : ({ octal := leadingZero && stringToNumberFlags.allowImplicitOctal } : Reading) = .after [] 0 [] := by
    cases leadingZero <;> rfl
  have hread := readInteger_eq [] hds hrest (by rw [List.length_nil]; omega)
  rw [parseDecimal, hinit, hread]
  refine (parsePoint_recognises S sign hds (head_ne_zero hfirst) hrest ?_ hlen).congr
    fun x => (decimalDenotes_append sign hds hrest x).symm
  rintro rfl
  refine Or.inr fun h => hne ?_
  rw [h]
  rfl

/-- Zeros in front do not change what is denoted. -/
theorem decimalDenotes_zeros (z : Nat) (chars : List Nat) (x : Double) :
    DecimalDenotes sign true (List.replicate z 48 ++ chars) x ↔ DecimalDenotes sign true chars x := by
  obtain ⟨ds, rest, hds, hrest, rfl⟩ := exists_digit_split chars
  have hzeros : IsDigits (List.replicate z 0) := by
    intro d hd
    rw [List.eq_of_mem_replicate hd]
    exact Nat.succ_pos 9
  have htext : List.replicate z 48 ++ (digitText ds ++ rest) = digitText (List.replicate z 0 ++ ds) ++ rest := by
    rw [digitText_append, List.append_assoc, digitText_replicate]
  rw [htext, decimalDenotes_append sign (isDigits_append.mpr ⟨hzeros, hds⟩) hrest,
    decimalDenotes_append sign hds hrest]
  simp only [PointDenotes, decimalDouble, List.append_assoc, value_zeros_append, true_or]

/-- The first character of a decimal literal. -/
theorem decimalDenotes_head {x : Double} (h : DecimalDenotes sign leadingZero (c :: rest) x) :
    isDecimalDigit c = true ∨ c = 46 ∨ c = 101 ∨ c = 69 ∨ isWhiteSpaceOrLineTerminator c = true := by
  obtain ⟨ds, rest, hds, -, heq, fraction, e, after, -, -, hblank, rfl, -⟩ := h
  cases ds with
  | cons d ds =>
    rw [(List.cons.inj heq).1]
    exact Or.inl (isDecimalDigit_digit (isDigits_cons.mp hds).1)
  | nil =>
    cases fraction with
    | some f => exact Or.inr (Or.inl (List.cons.inj heq).1)
    | none =>
      cases e with
      | some e =>
        rw [(List.cons.inj heq).1]
        exact Or.inr (Or.inr (e.isLetter.imp_right Or.inl))
      | none =>
        obtain rfl : c :: rest = after := heq
        exact Or.inr (Or.inr (Or.inr (Or.inr (hblank c List.mem_cons_self))))

end

end V8Core.Numbers
