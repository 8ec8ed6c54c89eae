import V8Core.Lib.DecimalRounding
import V8Core.Numbers.NumericLiteral
/-!
# Reading digits

What the loops of `InternalStringToDouble` leave in its variables, as a
function of the digits they have read, and the double that the label
`parsing_done` makes of it: cutting the digits, moving the point and limiting
the written exponent do not change the nearest double.
-/

namespace V8Core.Numbers

open Decimal
open SignedInt

variable (ds : List Nat) {d : Nat} (z : Nat) {rest : List Nat}

/-! ## The loops -/

/--
The variables after the digits `ds` of the integer part, `z` zeros behind the point and then the digits `f`,
where the zeros are left out unless `ds` is empty.
-/
def Reading.after (ds : List Nat) (z : Nat) (f : List Nat) : Reading where
  buffer := digitText ((ds ++ f).take kMaxSignificantDigits)
  exponent := -((z + min f.length (kMaxSignificantDigits - ds.length) : Nat) : Int)
  significantDigits := min (ds ++ f).length kMaxSignificantDigits
  insignificantDigits := ds.length - kMaxSignificantDigits
  nonzeroDigitDropped := ((ds ++ f).drop kMaxSignificantDigits).any (· != 0)
  octal := false

theorem keep_digit {ds : List Nat} {n : Nat} (h : ds.length < n) (d : Nat) :
    digitText (ds.take n) ++ [d + 48] = digitText ((ds ++ [d]).take n) ∧ (ds ++ [d]).drop n = [] ∧ ds.drop n = [] := by
  rw [List.take_of_length_le h.le, List.take_of_length_le (by rw [List.length_append]; exact h), digitText_append]
  exact ⟨rfl, List.drop_eq_nil_of_le (by rw [List.length_append]; exact h), List.drop_eq_nil_of_le h.le⟩

theorem drop_digit {ds : List Nat} {n : Nat} (h : n ≤ ds.length) (d : Nat) :
    (ds ++ [d]).take n = ds.take n ∧ (ds ++ [d]).drop n = ds.drop n ++ [d] :=
  ⟨List.take_append_of_le_length h, List.drop_append_of_le_length h⟩

theorem digit_bne : (d + 48 != 48) = (d != 0) := by
  rw [Bool.eq_iff_iff, bne_iff_ne, bne_iff_ne]
  omega

theorem readInteger_cons (hd : d < 10) (hlen : ds.length < kMaxInt) (rest : List Nat) :
    readInteger (.after ds 0 []) ((d + 48) :: rest) = readInteger (.after (ds ++ [d]) 0 []) rest := by
  rw [readInteger, if_pos (isDecimalDigit_digit hd)]
  have hsig : (Reading.after ds 0 []).significantDigits = min ds.length kMaxSignificantDigits := by
    simp [Reading.after]
  rw [hsig]
  rcases Nat.lt_or_ge ds.length kMaxSignificantDigits with hlt | hge
  · obtain ⟨hbuf, hdrop, hdrop'⟩ := keep_digit hlt d
    rw [if_pos (by omega)]
    congr 1
    simp only [Reading.after, List.append_nil, hbuf, hdrop, hdrop', List.length_append, List.length_cons,
      List.length_nil, Bool.false_and, Reading.mk.injEq]
    refine ⟨trivial, by omega, by omega, by omega, trivial, trivial⟩
  · obtain ⟨htake, hdrop⟩ := drop_digit hge d
    rw [if_neg (by omega), natInt_of_le (by simp only [Reading.after]; omega), Option.bind_eq_bind, Option.bind_some]
    congr 1
    simp only [Reading.after, List.append_nil, htake, hdrop, List.length_append, List.length_cons,
      List.length_nil, Bool.false_and, Reading.mk.injEq, List.any_append, List.any_cons, List.any_nil, Bool.or_false,
      digit_bne]
    refine ⟨trivial, by omega, by omega, by omega, trivial, trivial⟩

theorem readInteger_eq (ds0 : List Nat) {ds : List Nat} (hds : IsDigits ds) (hrest : NoDigit rest)
    (hlen : ds0.length + ds.length ≤ kMaxInt) :
    readInteger (.after ds0 0 []) (digitText ds ++ rest) = some (.after (ds0 ++ ds) 0 [], rest) := by
  induction ds generalizing ds0 with
  | nil =>
    rw [List.append_nil]
    cases rest with
    | nil => rfl
    | cons c rest =>
      show readInteger _ (c :: rest) = _
      rw [readInteger, hrest c rfl]
      rfl
  | cons d ds ih =>
    rw [List.length_cons] at hlen
    obtain ⟨hd, hds⟩ := isDigits_cons.mp hds
    rw [digitText_cons, List.cons_append, readInteger_cons ds0 hd (by omega),
      ih _ hds (by rw [List.length_append, List.length_singleton]; omega), List.append_assoc]
    rfl

theorem readFraction_cons (f : List Nat) (hd : d < 10) (hlen : z + f.length < kMaxInt) (rest : List Nat) :
    readFraction (.after ds z f) ((d + 48) :: rest) = readFraction (.after ds z (f ++ [d])) rest := by
  rw [readFraction, if_pos (isDecimalDigit_digit hd)]
  have hsig : (Reading.after ds z f).significantDigits = min (ds ++ f).length kMaxSignificantDigits := rfl
  rw [hsig]
  rcases Nat.lt_or_ge (ds ++ f).length kMaxSignificantDigits with hlt | hge
  · obtain ⟨hbuf, hdrop, hdrop'⟩ := keep_digit hlt d
    rw [List.length_append] at hlt
    rw [if_pos (by rw [List.length_append]; omega),
      int_of_bounds (by simp only [Reading.after]; omega) (by simp only [Reading.after]; omega),
      Option.bind_eq_bind, Option.bind_some]
    congr 1
    simp only [Reading.after, ← List.append_assoc, hbuf, hdrop, hdrop', List.length_append, List.length_cons,
      List.length_nil, Reading.mk.injEq]
    refine ⟨trivial, by omega, by omega, trivial, trivial, trivial⟩
  · obtain ⟨htake, hdrop⟩ := drop_digit hge d
    rw [List.length_append] at hge
    rw [if_neg (by rw [List.length_append]; omega)]
    congr 1
    simp only [Reading.after, ← List.append_assoc, htake, hdrop, List.length_append, Reading.mk.injEq, List.any_append,
      List.any_cons, List.any_nil, Bool.or_false, digit_bne]
    refine ⟨trivial, by omega, by omega, trivial, trivial, trivial⟩

theorem readFraction_eq (f0 : List Nat) {f : List Nat} (hf : IsDigits f) (hrest : NoDigit rest)
    (hlen : z + f0.length + f.length ≤ kMaxInt) :
    readFraction (.after ds z f0) (digitText f ++ rest) = some (.after ds z (f0 ++ f), rest) := by
  induction f generalizing f0 with
  | nil =>
    rw [List.append_nil]
    cases rest with
    | nil => rfl
    | cons c rest =>
      show readFraction _ (c :: rest) = _
      rw [readFraction, hrest c rfl]
      rfl
  | cons d f ih =>
    rw [List.length_cons] at hlen
    obtain ⟨hd, hf⟩ := isDigits_cons.mp hf
    rw [digitText_cons, List.cons_append, readFraction_cons ds z f0 hd (by omega),
      ih _ hf (by rw [List.length_append, List.length_singleton]; omega), List.append_assoc]
    rfl

/-- A zero behind the point, if something follows it. -/
theorem skipFractionZeros_cons {z0 c : Nat} (hlen : z0 < kMaxInt) (tail : List Nat) :
    skipFractionZeros (.after [] z0 []) (48 :: c :: tail) = skipFractionZeros (.after [] (z0 + 1) []) (c :: tail) := by
  have hnext : (Reading.after [] z0 []).exponent - 1 = (Reading.after [] (z0 + 1) []).exponent := by
    simp only [Reading.after]
    omega
  rw [skipFractionZeros.eq_def]
  simp only [if_true]
  rw [int_of_bounds (by simp only [Reading.after, List.length_nil]; omega)
    (by simp only [Reading.after]; omega), hnext]
  rfl

/-- The zeros a fraction begins with, if something follows them. -/
theorem skipFractionZeros_eq (z0 z : Nat) (hne : rest ≠ []) (hrest : 48 ∉ rest.head?) (hlen : z0 + z ≤ kMaxInt) :
    skipFractionZeros (.after [] z0 []) (List.replicate z 48 ++ rest) = some (.after [] (z0 + z) [], rest) := by
  induction z generalizing z0 with
  | zero =>
    cases rest with
    | nil => exact absurd rfl hne
    | cons c rest =>
      have hc : c ≠ 48 := fun h => hrest (by rw [h]; rfl)
      show skipFractionZeros _ (c :: rest) = _
      rw [skipFractionZeros.eq_def]
      simp only [if_neg hc, Nat.add_zero]
  | succ z ih =>
    obtain ⟨c, tail, htail⟩ : ∃ c tail, List.replicate z 48 ++ rest = c :: tail :=
      List.exists_cons_of_ne_nil (by simp [hne])
    rw [List.replicate_succ, List.cons_append, htail, skipFractionZeros_cons (by omega), ← htail,
      show z0 + (z + 1) = z0 + 1 + z by omega]
    exact ih (z0 + 1) (by omega)

/-- A text of zeros only. -/
theorem skipFractionZeros_replicate (z0 z : Nat) (hlen : z0 + z ≤ kMaxInt) :
    ∃ p, skipFractionZeros (.after [] z0 []) (List.replicate (z + 1) 48) = some (p, []) := by
  induction z generalizing z0 with
  | zero => exact ⟨_, rfl⟩
  | succ z ih =>
    obtain ⟨p, hp⟩ := ih (z0 + 1) (by omega)
    refine ⟨p, ?_⟩
    rw [List.replicate_succ, List.replicate_succ, skipFractionZeros_cons (by omega)]
    exact hp

theorem addExponentDigit_eq (hd : d < 10) :
    addExponentDigit (min (value ds) maxExponent) d = some (min (value (ds ++ [d])) maxExponent) := by
  have hnext : value (ds ++ [d]) = value ds * 10 + d := by
    rw [value_append, value_cons, value_nil, List.length_singleton, List.length_nil]
    omega
  have hmax : maxExponent = 1073741823 := by decide
  have hM : kMaxInt = 2147483647 := by decide
  rw [addExponentDigit, hnext, hmax]
  split
  next h => rw [min_eq_right (by omega)]
  next h => rw [natInt_of_le (by omega), min_eq_left (by omega), min_eq_left (by omega)]

/-- The written exponent is the number its digits stand for, but not above the limit. -/
theorem readExponent_eq (ds0 : List Nat) {ds : List Nat} (hds : IsDigits ds) (hrest : NoDigit rest) :
    readExponent (min (value ds0) maxExponent) (digitText ds ++ rest) =
      some (min (value (ds0 ++ ds)) maxExponent, rest) := by
  induction ds generalizing ds0 with
  | nil =>
    rw [List.append_nil]
    cases rest with
    | nil => rfl
    | cons c rest =>
      show readExponent _ (c :: rest) = _
      rw [readExponent, hrest c rfl]
      rfl
  | cons d ds ih =>
    obtain ⟨hd, hds⟩ := isDigits_cons.mp hds
    rw [digitText_cons, List.cons_append, readExponent, if_pos (isDecimalDigit_digit hd), Nat.add_sub_cancel,
      addExponentDigit_eq _ hd, Option.bind_eq_bind, Option.bind_some, ih _ hds, List.append_assoc]
    rfl

/-! ## The double -/

/-- The sum of the exponents, once the digits that were dropped from the integer part are added. -/
theorem after_exponent (f : List Nat) :
    (Reading.after ds z f).exponent + (Reading.after ds z f).insignificantDigits =
      ((ds ++ f).length - kMaxSignificantDigits : Nat) - (z + f.length : Int) := by
  simp only [Reading.after, List.length_append]
  omega

theorem digitsOfBuffer_digitText : digitsOfBuffer (digitText ds) = ds := by
  rw [digitsOfBuffer, digitText, List.map_map]
  exact List.map_id' ds

/-- A decimal number and its nearest double, with a sign. -/
def decimalDouble (sign : Sign) (digits : List Nat) (exponent : Int) : Double :=
  (Double.ofRat (value digits * 10 ^ exponent)).withSign (sign == .negative)

theorem parsingDone_eq (S : Strtod) (flags : ConversionFlags) (sign : Sign) {ds f : List Nat} {z : Nat}
    (hds : IsDigits (ds ++ f)) (hlead : (ds ++ f).head? ≠ some 0) (hlen : ds.length + z + f.length ≤ kMaxLength)
    {x : Int} (hx : -(maxExponent : Int) ≤ x ∧ x ≤ maxExponent) :
    parsingDone S flags sign { Reading.after ds z f with exponent := (Reading.after ds z f).exponent + x } =
      some (decimalDouble sign (ds ++ f) (x - (z + f.length : Nat))) := by
  have hM : kMaxInt = 2147483647 := by decide
  have hL : kMaxLength = 536870888 := by decide
  have hE : maxExponent = 1073741823 := by decide
  have hS : kMaxSignificantDigits = 772 := rfl
  have hexp := after_exponent ds z f
  obtain ⟨E, hEq⟩ : ∃ E, E = x - (z + f.length : Nat) + ((ds ++ f).length - kMaxSignificantDigits : Nat) := ⟨_, rfl⟩
  have hsum : (Reading.after ds z f).exponent + x + (Reading.after ds z f).insignificantDigits = E := by
    rw [hEq]
    push_cast
    linarith
  have hL' : (ds ++ f).length = ds.length + f.length := List.length_append
  have hbuffer : (Reading.after ds z f).buffer = digitText ((ds ++ f).take kMaxSignificantDigits) := rfl
  have htake : ((ds ++ f).take kMaxSignificantDigits).length ≤ 772 := by
    rw [List.length_take, hS]
    omega
  have hlenText : ∀ l : List Nat, (digitText l).length = l.length := fun l => List.length_map _
  simp only [parsingDone, hsum]
  rw [int_of_bounds (by omega) (by omega), Option.bind_eq_bind, Option.bind_some,
    show (Reading.after ds z f).octal = false from rfl]
  cases hdrop : (Reading.after ds z f).nonzeroDigitDropped with
  | true =>
    rw [int_of_bounds (by omega) (by omega), Option.bind_some, hbuffer,
      show digitText ((ds ++ f).take kMaxSignificantDigits) ++ [49] =
        digitText ((ds ++ f).take kMaxSignificantDigits ++ [1]) by rw [digitText_append]; rfl,
      S.nearest _ _ ?_ ?_ ?_, digitsOfBuffer_digitText, hEq,
      Double.ofRat_sticky (n := kMaxSignificantDigits) hds hlead (le_refl 772) hdrop]
    · rfl
    · rw [digitsOfBuffer_digitText]
      exact isDigits_append.mpr ⟨hds.take _, by decide⟩
    · omega
    · rw [hlenText, List.length_append, List.length_singleton]
      omega
  | false =>
    have hzero : value ((ds ++ f).drop kMaxSignificantDigits) = 0 := by
      by_contra h
      exact Bool.false_ne_true (hdrop.symm.trans (value_pos_iff.mp (Nat.pos_of_ne_zero h)))
    have hvalue := value_take_drop (ds ++ f) kMaxSignificantDigits
    rw [hzero, Nat.add_zero] at hvalue
    rw [hbuffer, S.nearest _ _ ?_ ?_ ?_, digitsOfBuffer_digitText, decimalDouble, hvalue,
      hEq]
    · rw [zpow_add₀ (by norm_num), zpow_natCast]
      push_cast
      rw [mul_assoc, mul_comm ((10 : ℚ) ^ _)]
    · rw [digitsOfBuffer_digitText]
      exact hds.take _
    · omega
    · rw [hlenText]
      omega

/-- Limiting the written exponent does not change the double: the number is infinite or zero either way. -/
theorem decimalDouble_limit (sign : Sign) {digits : List Nat} (hdigits : IsDigits digits) {m : Nat}
    (hlen : digits.length ≤ kMaxLength) (hm : m ≤ kMaxLength) (negative : Bool) (n : Nat) :
    decimalDouble sign digits
        ((if negative then -((min n maxExponent : Nat) : Int) else (min n maxExponent : Nat)) - m) =
      decimalDouble sign digits ((if negative then -(n : Int) else n) - m) := by
  have hL : kMaxLength = 536870888 := by decide
  have hE : maxExponent = 1073741823 := by decide
  rcases Nat.le_total n maxExponent with hle | hge
  · rw [min_eq_left hle]
  · rw [min_eq_right hge]
    rcases Nat.eq_zero_or_pos (value digits) with h0 | hpos
    · simp only [decimalDouble, h0, Nat.cast_zero, zero_mul]
    · cases negative with
      | true =>
        have hlt := value_lt hdigits
        simp only [decimalDouble, if_true]
        rw [Double.ofRat_small hlt (by omega), Double.ofRat_small hlt (by omega)]
      | false =>
        simp only [decimalDouble, Bool.false_eq_true, if_false]
        rw [Double.ofRat_large hpos (by omega), Double.ofRat_large hpos (by omega)]

end V8Core.Numbers
