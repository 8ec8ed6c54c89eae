import V8Core.Bigint.DivSchoolbook
import V8Core.Lib.Double
import V8Core.Objects.BigInt

/-!
# Comparing BigInts with doubles

`CompareToDouble` of `objects/bigint.cc`. When the bit lengths agree, the mantissa of the
double is cut into digits and compared with the digits of the BigInt from the top. What is
not consumed of it is kept at the top of 64 bits, as a fraction of the next digit;
`NewFromDouble` cuts the mantissa in the same way.
-/

open Radix V8Core.Bigint

namespace V8Core.Objects

variable {t : Target}

/-! ## The mantissa, digit by digit -/

def kPhysicalSignificandSize : Nat := 52

def kSignificandMask : BitVec 64 := BitVec.ofNat 64 (2 ^ 52 - 1)

def kHiddenBit : BitVec 64 := BitVec.ofNat 64 (2 ^ 52)

/-- The position of the hidden bit. -/
def kMantissaTopBit : Nat := 52

/-- `raw_exponent`. -/
def rawExponent (doubleBits : BitVec 64) : Nat := (doubleBits >>> kPhysicalSignificandSize).toNat &&& 0x7FF

/-- `mantissa`, with the hidden bit. -/
def mantissaOf (doubleBits : BitVec 64) : BitVec 64 := doubleBits &&& kSignificandMask ||| kHiddenBit

/-- `remaining_mantissa_bits`, and the bits themselves. -/
structure MantissaBits where
  remaining : ℤ
  mantissa : BitVec 64

/-- The digit whose top bit, the first one of the mantissa, is at `msd_topbit`. -/
def firstMantissaDigit (t : Target) (mantissa : BitVec 64) (msdTopbit : Nat) : BitVec t.kDigitBits × MantissaBits :=
  if msdTopbit < kMantissaTopBit then
    let remaining := kMantissaTopBit - msdTopbit
    ((mantissa >>> remaining).setWidth t.kDigitBits, ⟨remaining, mantissa <<< (64 - remaining)⟩)
  else ((mantissa <<< (msdTopbit - kMantissaTopBit)).setWidth t.kDigitBits, ⟨0, 0#64⟩)

/-- One turn of the loop over the other digits. -/
def MantissaBits.next (t : Target) (s : MantissaBits) : BitVec t.kDigitBits × MantissaBits :=
  if s.remaining > 0 then
    if t.kDigitBits ≠ 64 then
      ((s.mantissa >>> (64 - t.kDigitBits)).setWidth t.kDigitBits, ⟨s.remaining - t.kDigitBits, s.mantissa <<< t.kDigitBits⟩)
    else (s.mantissa.setWidth t.kDigitBits, ⟨s.remaining - t.kDigitBits, 0#64⟩)
  else (0#t.kDigitBits, s)

/-- No bits are set below the ones that remain. -/
def MantissaBits.Aligned (s : MantissaBits) : Prop := 2 ^ 64 ∣ s.mantissa.toNat * 2 ^ s.remaining.toNat

theorem firstMantissaDigit_spec {M : BitVec 64} (hM : M.toNat < 2 ^ 53) {topbit : Nat} (htop : topbit < t.kDigitBits) :
    let r := firstMantissaDigit t M topbit
    r.1.toNat * 2 ^ 64 + r.2.mantissa.toNat = M.toNat * 2 ^ (topbit + 12) ∧ r.2.Aligned := by
  intro r
  have hw : t.kDigitBits ≤ 64 := by cases t <;> decide
  unfold r firstMantissaDigit kMantissaTopBit
  by_cases hlow : topbit < 52
  · obtain ⟨c, hc⟩ : ∃ c, c = 52 - topbit := ⟨_, rfl⟩
    have hpow : 2 ^ (topbit + 12) * 2 ^ c = 2 ^ 64 := by rw [← Nat.pow_add]; congr 1; omega
    have hdm := Nat.div_add_mod M.toNat (2 ^ c)
    rw [if_pos hlow, ← hc]
    have hdigit : ((M >>> c).setWidth t.kDigitBits).toNat = M.toNat / 2 ^ c := by
      rw [BitVec.toNat_setWidth, BitVec.toNat_ushiftRight, Nat.shiftRight_eq_div_pow, Nat.mod_eq_of_lt]
      rw [Nat.div_lt_iff_lt_mul (Nat.two_pow_pos c)]
      refine Nat.lt_of_lt_of_le hM ?_
      rw [← Nat.pow_add]
      exact Nat.pow_le_pow_right (by decide) (by omega)
    have hrest : (M <<< (64 - c)).toNat = M.toNat % 2 ^ c * 2 ^ (topbit + 12) := by
      rw [BitVec.toNat_shiftLeft, Nat.shiftLeft_eq, show 64 - c = topbit + 12 by omega, ← hpow, Nat.mul_comm M.toNat,
        Nat.mul_mod_mul_left, Nat.mul_comm]
    simp only [hdigit, hrest, MantissaBits.Aligned]
    refine ⟨?_, ?_⟩
    · rw [← hpow]
      conv_rhs => rw [← hdm]
      ring
    · rw [Int.toNat_natCast, Nat.mul_assoc, hpow]
      exact Nat.dvd_mul_left _ _
  · rw [if_neg hlow]
    have hbig : M.toNat * 2 ^ (topbit - 52) < 2 ^ t.kDigitBits := by
      calc M.toNat * 2 ^ (topbit - 52) < 2 ^ 53 * 2 ^ (topbit - 52) := Nat.mul_lt_mul_of_pos_right hM (by positivity)
        _ = 2 ^ (topbit + 1) := by rw [← Nat.pow_add]; congr 1; omega
        _ ≤ 2 ^ t.kDigitBits := Nat.pow_le_pow_right (by decide) htop
    have hfits : 2 ^ t.kDigitBits ≤ 2 ^ 64 := Nat.pow_le_pow_right (by decide) hw
    have hdigit : ((M <<< (topbit - 52)).setWidth t.kDigitBits).toNat = M.toNat * 2 ^ (topbit - 52) := by
      rw [BitVec.toNat_setWidth, BitVec.toNat_shiftLeft, Nat.shiftLeft_eq, Nat.mod_eq_of_lt (hbig.trans_le hfits),
        Nat.mod_eq_of_lt hbig]
    simp only [hdigit, MantissaBits.Aligned]
    refine ⟨?_, by simp⟩
    rw [show topbit + 12 = topbit - 52 + 64 by omega, Nat.pow_add]
    simp [Nat.mul_assoc]

/-- The next digit and the rest are the fraction, shifted by a digit. -/
theorem MantissaBits.next_spec {s : MantissaBits} (h : s.Aligned) :
    (s.next t).1.toNat * 2 ^ 64 + (s.next t).2.mantissa.toNat = s.mantissa.toNat * 2 ^ t.kDigitBits ∧ (s.next t).2.Aligned := by
  unfold MantissaBits.next
  by_cases hpos : s.remaining > 0
  · -- the product with the digit size, cut at 64 bits
    have hcut : ∀ d m : Nat, d * 2 ^ 64 + m = s.mantissa.toNat * 2 ^ t.kDigitBits →
        2 ^ 64 ∣ m * 2 ^ (s.remaining - t.kDigitBits).toNat := by
      intro d m heq
      have hdvd : 2 ^ 64 ∣ (d * 2 ^ 64 + m) * 2 ^ (s.remaining - t.kDigitBits).toNat := by
        rw [heq, Nat.mul_assoc, ← Nat.pow_add]
        exact h.trans (Nat.mul_dvd_mul_left _ (Nat.pow_dvd_pow 2 (by omega)))
      rw [Nat.add_mul] at hdvd
      exact (Nat.dvd_add_right ⟨d * 2 ^ (s.remaining - t.kDigitBits).toNat, by ring⟩).1 hdvd
    rw [if_pos hpos]
    cases t with
    | bits32 =>
      have heq : ((s.mantissa >>> 32).setWidth 32).toNat * 2 ^ 64 + (s.mantissa <<< 32).toNat = s.mantissa.toNat * 2 ^ 32 := by
        rw [BitVec.toNat_setWidth, BitVec.toNat_ushiftRight, BitVec.toNat_shiftLeft, Nat.shiftLeft_eq]
        omega
      exact ⟨heq, hcut _ _ heq⟩
    | bits64 =>
      have heq : (s.mantissa.setWidth 64).toNat * 2 ^ 64 + (0#64).toNat = s.mantissa.toNat * 2 ^ 64 := by simp
      exact ⟨heq, hcut _ _ heq⟩
  · rw [if_neg hpos]
    have hzero : s.mantissa.toNat = 0 := by
      have hdvd := h
      rw [MantissaBits.Aligned, Int.toNat_of_nonpos (by omega), Nat.pow_zero, Nat.mul_one] at hdvd
      exact Nat.eq_zero_of_dvd_of_lt hdvd s.mantissa.isLt
    exact ⟨by simp [hzero], h⟩

/-! ## Bit lengths -/

/-- `x_bitlength`. -/
def BigInt.bitlength (x : BigInt t) : Nat := x.length * t.kDigitBits - countLeadingZeros (msd x.digits)

section Length
variable {x : BigInt t}

theorem BigInt.digits_ne_nil (hx : x.isZero = false) : x.digits ≠ [] := by
  rintro h
  simp [isZero, length, h] at hx

/-- Where the top bit is: in the top digit, and in the number. -/
theorem BigInt.bitlength_spec (hx : x.isZero = false) : ∃ topbit < t.kDigitBits,
    countLeadingZeros (msd x.digits) = t.kDigitBits - 1 - topbit ∧
      x.bitlength = t.kDigitBits * (x.length - 1) + topbit + 1 ∧ 2 ^ topbit ≤ (msd x.digits).toNat ∧
      (msd x.digits).toNat < 2 ^ (topbit + 1) ∧ 2 ^ (x.bitlength - 1) ≤ value x.digits ∧
      value x.digits < 2 ^ x.bitlength := by
  have hne := digits_ne_nil hx
  have hlen := List.length_pos_of_ne_nil hne
  have hmsd : msd x.digits ≠ 0#t.kDigitBits := by
    have := x.normalized
    rcases List.eq_nil_or_concat x.digits with h | ⟨Y, d, h⟩
    · exact absurd h hne
    · rw [h] at this ⊢
      simpa [IsDigitNormalized, msd] using this
  obtain ⟨hlow, hhigh, hlt⟩ := countLeadingZeros_spec hmsd
  have htop := value_eq_top x.digits hlen
  have hrest := value_take_lt x.digits (x.digits.length - 1)
  unfold BigInt.bitlength BigInt.length
  generalize countLeadingZeros (msd x.digits) = c at *
  generalize (msd x.digits).toNat = d at *
  obtain ⟨b, hb⟩ : ∃ b, t.kDigitBits = c + b + 1 := ⟨t.kDigitBits - 1 - c, by omega⟩
  have hbits : x.digits.length * t.kDigitBits - c = t.kDigitBits * (x.digits.length - 1) + b + 1 := by
    obtain ⟨k, hk⟩ : ∃ k, x.digits.length = k + 1 := ⟨x.digits.length - 1, by omega⟩
    rw [hk, Nat.add_sub_cancel, Nat.succ_mul, Nat.mul_comm k]
    omega
  have hpow : 2 ^ t.kDigitBits = 2 ^ c * 2 ^ (b + 1) := by rw [← Nat.pow_add, hb, Nat.add_assoc]
  rw [hpow] at hlow hhigh
  have hd : 2 ^ b ≤ d := by
    rw [Nat.pow_succ] at hlow
    exact Nat.le_of_mul_le_mul_left (show 2 ^ c * 2 ^ b ≤ 2 ^ c * d by linarith) (by positivity)
  have hd' : d + 1 ≤ 2 ^ (b + 1) := Nat.le_of_mul_le_mul_left hhigh (by positivity)
  refine ⟨b, by omega, by omega, hbits, hd, hd', ?_, ?_⟩
  · rw [hbits, Nat.add_sub_cancel, Nat.pow_add, htop]
    exact Nat.le_add_left_of_le (Nat.mul_le_mul_left _ hd)
  · rw [hbits, Nat.add_assoc, Nat.pow_add, htop]
    have := Nat.mul_le_mul_left (2 ^ (t.kDigitBits * (x.digits.length - 1))) hd'
    rw [Nat.mul_succ] at this
    omega
end Length

/-! ## The comparison -/

inductive ComparisonResult
  | kLessThan
  | kEqual
  | kGreaterThan
  | kUndefined
  deriving DecidableEq, Repr

def unequalSign (leftNegative : Bool) : ComparisonResult := if leftNegative then .kLessThan else .kGreaterThan

def absoluteGreater (bothNegative : Bool) : ComparisonResult := if bothNegative then .kLessThan else .kGreaterThan

def absoluteLess (bothNegative : Bool) : ComparisonResult := if bothNegative then .kGreaterThan else .kLessThan

/-- The comparison of the remaining digits, from the top, and of the fractional part of the double. -/
def compareMantissa (xSign : Bool) : List (BitVec t.kDigitBits) → MantissaBits → ComparisonResult
  | [], s => if s.mantissa ≠ 0#64 then absoluteLess xSign else .kEqual
  | digit :: digits, s =>
    if digit > (s.next t).1 then absoluteGreater xSign
    else if digit < (s.next t).1 then absoluteLess xSign
    else compareMantissa xSign digits (s.next t).2

/-- `CompareToDouble` for a double and a BigInt of one sign that are not zero. -/
def compareNonzero (x : BigInt t) (doubleBits : BitVec 64) : ComparisonResult :=
  let exponent : ℤ := rawExponent doubleBits - 0x3FF
  if exponent < 0 then absoluteGreater x.sign
  else if x.bitlength < exponent + 1 then absoluteLess x.sign
  else if x.bitlength > exponent + 1 then absoluteGreater x.sign
  else
    let msdTopbit := t.kDigitBits - 1 - countLeadingZeros (msd x.digits)
    let first := firstMantissaDigit t (mantissaOf doubleBits) msdTopbit
    if msd x.digits > first.1 then absoluteGreater x.sign
    else if msd x.digits < first.1 then absoluteLess x.sign
    else compareMantissa x.sign (x.digits.take (x.length - 1)).reverse first.2

/-- `CompareToDouble(x, y)`. -/
def compareToDouble (x : BigInt t) (y : BitVec 64) : ComparisonResult :=
  let number := Double.ofBits y
  if number.isNaN then .kUndefined
  else if number = Double.infinity then .kLessThan
  else if number = Double.infinity.neg then .kGreaterThan
  else if x.sign ≠ decide (number.toRat < 0) then unequalSign x.sign
  else if number.toRat = 0 then if x.isZero then .kEqual else .kGreaterThan
  else if x.isZero then .kLessThan
  else compareNonzero x y

/-! ## The order of the numbers -/

def ratOrder (v r : ℚ) : ComparisonResult := if v < r then .kLessThan else if r < v then .kGreaterThan else .kEqual

/-- The order of the mathematical values; NaN has none. -/
def numericOrder (v : ℤ) : Double → ComparisonResult
  | .nan => .kUndefined
  | .number negative bits h =>
    if bits = Binary64.infinity then if negative then .kGreaterThan else .kLessThan
    else ratOrder v (Double.number negative bits h).toRat

/-- The result for magnitudes in the given order. -/
def magnitudeResult (bothNegative : Bool) : Ordering → ComparisonResult
  | .lt => absoluteLess bothNegative
  | .eq => .kEqual
  | .gt => absoluteGreater bothNegative

/-- Numbers of one sign are in the order of their magnitudes, which may be scaled. -/
theorem ratOrder_signed (s : Bool) (X : Nat) {V : ℚ} {B k : Nat} (hB : (B : ℚ) = V * 2 ^ k) :
    ratOrder (if s then -X else X) (if s then -V else V) = magnitudeResult s (compare (X * 2 ^ k) B) := by
  have hpow : (0 : ℚ) < 2 ^ k := pow_pos two_pos k
  have hA : ((X * 2 ^ k : Nat) : ℚ) = X * 2 ^ k := by push_cast; rfl
  have hlt : X * 2 ^ k < B ↔ X < V := by rw [← Nat.cast_lt (α := ℚ), hA, hB, mul_lt_mul_iff_left₀ hpow]
  have hgt : B < X * 2 ^ k ↔ V < X := by rw [← Nat.cast_lt (α := ℚ), hA, hB, mul_lt_mul_iff_left₀ hpow]
  rcases Nat.lt_trichotomy (X * 2 ^ k) B with h | h | h
  · have := hlt.1 h
    rw [Nat.compare_eq_lt.2 h]
    cases s <;> simp [ratOrder, magnitudeResult, absoluteLess, this, this.le]
  · have hle : ¬X < V := mt hlt.2 (by omega)
    have hge : ¬V < X := mt hgt.2 (by omega)
    rw [Nat.compare_eq_eq.2 h]
    cases s <;> simp [ratOrder, magnitudeResult, hle, hge]
  · have := hgt.1 h
    rw [Nat.compare_eq_gt.2 h]
    cases s <;> simp [ratOrder, magnitudeResult, absoluteGreater, this, this.le]

/-- The first digits decide, unless they are equal. -/
theorem compare_digit {v d c m P Q : Nat} (hv : v < P) (hm : m < Q) : compare ((v + P * d) * Q) ((c * Q + m) * P) =
    if d > c then .gt else if d < c then .lt else compare (v * Q) (m * P) := by
  have hvQ : v * Q < P * Q := Nat.mul_lt_mul_of_pos_right hv (by omega)
  have hmP : m * P < P * Q := by
    rw [Nat.mul_comm P]
    exact Nat.mul_lt_mul_of_pos_right hm (by omega)
  have hleft : (v + P * d) * Q = P * Q * d + v * Q := by ring
  have hright : (c * Q + m) * P = P * Q * c + m * P := by ring
  rw [hleft, hright]
  generalize P * Q = R at *
  generalize v * Q = a at *
  generalize m * P = b at *
  split
  · rename_i hgt
    have := Nat.mul_le_mul_left R (Nat.succ_le_of_lt hgt)
    rw [Nat.mul_succ] at this
    rw [Nat.compare_eq_gt]
    omega
  · split
    · rename_i hlt
      have := Nat.mul_le_mul_left R (Nat.succ_le_of_lt hlt)
      rw [Nat.mul_succ] at this
      rw [Nat.compare_eq_lt]
      omega
    · obtain rfl : d = c := by omega
      rcases Nat.lt_trichotomy a b with h | h | h
      · rw [Nat.compare_eq_lt.2 h, Nat.compare_eq_lt]
        omega
      · rw [Nat.compare_eq_eq.2 h, Nat.compare_eq_eq]
        omega
      · rw [Nat.compare_eq_gt.2 h, Nat.compare_eq_gt]
        omega

theorem magnitudeResult_digit (xSign : Bool) {d c : BitVec t.kDigitBits} (o : Ordering) :
    magnitudeResult xSign (if d.toNat > c.toNat then .gt else if d.toNat < c.toNat then .lt else o) =
      if d > c then absoluteGreater xSign else if d < c then absoluteLess xSign else magnitudeResult xSign o := by
  simp only [BitVec.lt_def]
  split
  · rfl
  · split <;> rfl

theorem compareMantissa_spec (xSign : Bool) (digits : List (BitVec t.kDigitBits)) {s : MantissaBits} (h : s.Aligned) :
    compareMantissa xSign digits s = magnitudeResult xSign
      (compare (value digits.reverse * 2 ^ 64) (s.mantissa.toNat * 2 ^ (t.kDigitBits * digits.length))) := by
  induction digits generalizing s with
  | nil =>
    rw [compareMantissa, List.reverse_nil, value_nil, Nat.zero_mul, List.length_nil, Nat.mul_zero, Nat.pow_zero, Nat.mul_one]
    by_cases hzero : s.mantissa = 0#64
    · simp [hzero, magnitudeResult]
    · have hpos : 0 < s.mantissa.toNat := Nat.pos_of_ne_zero fun h0 => hzero (BitVec.toNat_inj.1 h0)
      rw [if_pos hzero, Nat.compare_eq_lt.2 hpos]
      rfl
  | cons digit digits ih =>
    obtain ⟨hnext, haligned⟩ := MantissaBits.next_spec (t := t) h
    have hlt := value_lt digits.reverse
    rw [List.length_reverse] at hlt
    rw [compareMantissa, ih haligned, List.reverse_cons, value_concat, List.length_reverse, List.length_cons, Nat.mul_succ,
      Nat.pow_add, Nat.mul_comm (2 ^ _) (2 ^ t.kDigitBits), ← Nat.mul_assoc, ← hnext,
      compare_digit hlt (s.next t).2.mantissa.isLt, magnitudeResult_digit]

/-! ## The fields of a double -/

theorem rawExponent_eq (y : BitVec 64) : rawExponent y = y.toNat % 2 ^ 63 / 2 ^ 52 := by
  rw [rawExponent, kPhysicalSignificandSize, BitVec.toNat_ushiftRight, show (0x7FF : Nat) = 2 ^ 11 - 1 by decide, Nat.and_two_pow_sub_one_eq_mod]
  omega

theorem mantissaOf_eq (y : BitVec 64) : (mantissaOf y).toNat = y.toNat % 2 ^ 63 % 2 ^ 52 + 2 ^ 52 := by
  have hlow : y.toNat &&& (2 ^ 52 - 1) = y.toNat % 2 ^ 52 := Nat.and_two_pow_sub_one_eq_mod _ _
  have hor : 2 ^ 52 + y.toNat % 2 ^ 52 = 2 ^ 52 ||| y.toNat % 2 ^ 52 := by
    simpa using Nat.two_pow_add_eq_or_of_lt (Nat.mod_lt y.toNat (Nat.two_pow_pos 52)) 1
  rw [mantissaOf, BitVec.toNat_or, BitVec.toNat_and, kSignificandMask, kHiddenBit, BitVec.toNat_ofNat, BitVec.toNat_ofNat,
    Nat.mod_eq_of_lt (by decide), Nat.mod_eq_of_lt (by decide), hlow, Nat.or_comm, ← hor]
  omega

theorem significand_of_exponent {b e : Nat} (h : b / 2 ^ 52 = 0x3FF + e) :
    Binary64.significand b = b % 2 ^ 52 + 2 ^ 52 := by
  rw [Binary64.significand, if_neg (by omega)]

/-- A double of at least one is its mantissa at the position of its exponent. -/
theorem value_of_exponent {b e : Nat} (h : b / 2 ^ 52 = 0x3FF + e) :
    (((b % 2 ^ 52 + 2 ^ 52) * 2 ^ (e + 12) : Nat) : ℚ) = Binary64.value b * 2 ^ 64 := by
  have hscale : Binary64.scale b - 1 = e + 12 + 1010 := by
    rw [Binary64.scale, h]
    omega
  have hunit : Binary64.unitBits = 1010 + 64 := rfl
  rw [Binary64.value, Binary64.units, significand_of_exponent h, hscale, hunit, div_mul_eq_mul_div,
    eq_div_iff (by positivity)]
  rw [Nat.cast_mul, Nat.cast_mul, Nat.cast_pow, Nat.cast_pow, Nat.cast_ofNat, pow_add 2 (e + 12), pow_add 2 1010]
  generalize (2 : ℚ) ^ 1010 = p
  ring

theorem units_lt_of_exponent {b : Nat} (h : b / 2 ^ 52 < 0x3FF) : Binary64.units b < 2 ^ Binary64.unitBits := by
  have hunit : Binary64.unitBits = 52 + 1022 := rfl
  have hone : ∀ s, Binary64.units (s * 2 ^ 52 + 2 ^ 52) = 2 ^ (52 + s) := fun s => by
    rw [Binary64.units_add (by decide) (Or.inr (le_refl _)), Nat.pow_add]
  rw [hunit, ← hone]
  exact Binary64.units_strictMono (by omega)

/-! ## The comparison is the order of the values -/

section Finite
variable {x : BigInt t} {y : BitVec 64} {b : Nat}

/-- Bit lengths, and then the mantissa, decide between magnitudes of at least one. -/
theorem compareNonzero_mantissa (hx : x.isZero = false) (hb : b = y.toNat % 2 ^ 63) {e : Nat}
    (he : b / 2 ^ 52 = 0x3FF + e) : compareNonzero x y = magnitudeResult x.sign
      (compare (value x.digits * 2 ^ 64) ((b % 2 ^ 52 + 2 ^ 52) * 2 ^ (e + 12))) := by
  obtain ⟨topbit, htop, hclz, hlength, -, -, hlow, hhigh⟩ := BigInt.bitlength_spec hx
  have hmantissa : (mantissaOf y).toNat = b % 2 ^ 52 + 2 ^ 52 := by rw [mantissaOf_eq, hb]
  have hM : b % 2 ^ 52 + 2 ^ 52 < 2 ^ 53 := by omega
  have hMlow : 2 ^ 52 ≤ b % 2 ^ 52 + 2 ^ 52 := by omega
  have hexponent : (rawExponent y : ℤ) - 0x3FF = e := by
    rw [rawExponent_eq, ← hb, he]
    omega
  unfold compareNonzero
  rw [hexponent]
  dsimp only
  rw [if_neg (by omega)]
  generalize b % 2 ^ 52 + 2 ^ 52 = M at *
  rcases Nat.lt_trichotomy x.bitlength (e + 1) with hless | hsame | hmore
  · have hlt : value x.digits * 2 ^ 64 < M * 2 ^ (e + 12) := by
      calc value x.digits * 2 ^ 64 < 2 ^ x.bitlength * 2 ^ 64 := Nat.mul_lt_mul_of_pos_right hhigh (by positivity)
        _ ≤ 2 ^ e * 2 ^ 64 := Nat.mul_le_mul_right _ (Nat.pow_le_pow_right (by decide) (by omega))
        _ = 2 ^ 52 * 2 ^ (e + 12) := by ring
        _ ≤ M * 2 ^ (e + 12) := Nat.mul_le_mul_right _ hMlow
    rw [if_pos (by omega), Nat.compare_eq_lt.2 hlt, magnitudeResult]
  · obtain ⟨hfirst, haligned⟩ := firstMantissaDigit_spec (hmantissa ▸ hM) htop
    have hlen : (x.digits.take (x.length - 1)).length = x.length - 1 := List.length_take_of_le (Nat.sub_le _ _)
    have hrest := value_lt (x.digits.take (x.length - 1))
    have htake : value x.digits = value (x.digits.take (x.length - 1)) +
        2 ^ (t.kDigitBits * (x.length - 1)) * (msd x.digits).toNat :=
      value_eq_top x.digits (List.length_pos_of_ne_nil (BigInt.digits_ne_nil hx))
    rw [hlen] at hrest
    rw [if_neg (by omega), if_neg (by omega), show t.kDigitBits - 1 - countLeadingZeros (msd x.digits) = topbit by omega,
      compareMantissa_spec _ _ haligned, List.reverse_reverse, List.length_reverse, hlen, ← magnitudeResult_digit,
      ← compare_digit hrest (BitVec.isLt _), hfirst, hmantissa, ← htake, Nat.mul_assoc M, ← Nat.pow_add,
      show topbit + 12 + t.kDigitBits * (x.length - 1) = e + 12 by omega]
  · have hgt : M * 2 ^ (e + 12) < value x.digits * 2 ^ 64 := by
      calc M * 2 ^ (e + 12) < 2 ^ 53 * 2 ^ (e + 12) := Nat.mul_lt_mul_of_pos_right hM (by positivity)
        _ = 2 ^ (e + 1) * 2 ^ 64 := by ring
        _ ≤ 2 ^ (x.bitlength - 1) * 2 ^ 64 := Nat.mul_le_mul_right _ (Nat.pow_le_pow_right (by decide) (by omega))
        _ ≤ value x.digits * 2 ^ 64 := Nat.mul_le_mul_right _ hlow
    rw [if_neg (by omega), if_pos (by omega), Nat.compare_eq_gt.2 hgt, magnitudeResult]

theorem compareNonzero_spec (hx : x.isZero = false) (hb : b = y.toNat % 2 ^ 63) :
    compareNonzero x y = ratOrder (if x.sign then -value x.digits else value x.digits)
      (if x.sign then -Binary64.value b else Binary64.value b) := by
  rcases Nat.lt_or_ge (b / 2 ^ 52) 0x3FF with hsmall | hlarge
  · -- a double below one, in units of the smallest double
    have hpos := x.value_pos (BigInt.digits_ne_nil hx)
    have hlt : Binary64.units b < value x.digits * 2 ^ Binary64.unitBits :=
      (units_lt_of_exponent hsmall).trans_le (Nat.le_mul_of_pos_left _ hpos)
    have hunits : (Binary64.units b : ℚ) = Binary64.value b * 2 ^ Binary64.unitBits :=
      (div_mul_cancel₀ _ (pow_ne_zero _ two_ne_zero)).symm
    rw [ratOrder_signed x.sign _ hunits, Nat.compare_eq_gt.2 hlt, compareNonzero, rawExponent_eq, ← hb, if_pos (by omega),
      magnitudeResult]
  · obtain ⟨e, he⟩ := Nat.exists_eq_add_of_le hlarge
    rw [compareNonzero_mantissa hx hb he, ratOrder_signed x.sign _ (value_of_exponent he)]

/-- The signs decide, or zeros, or the magnitudes. -/
theorem compareToDouble_finite (hb : b = y.toNat % 2 ^ 63) (negative : Bool) {r : ℚ}
    (hr : r = if negative then -Binary64.value b else Binary64.value b) :
    (if x.sign ≠ decide (r < 0) then unequalSign x.sign
      else if r = 0 then if x.isZero then .kEqual else .kGreaterThan
      else if x.isZero then .kLessThan else compareNonzero x y) = ratOrder x.toInt r := by
  have hX : (x.toInt : ℚ) = if x.sign then -(value x.digits : ℚ) else value x.digits := by
    unfold BigInt.toInt signedValue
    cases x.sign <;> simp
  have hV : 0 ≤ Binary64.value b := by unfold Binary64.value; positivity
  have hneg : x.sign = true → (x.toInt : ℚ) < 0 := fun h => by exact_mod_cast x.toInt_neg_iff.2 h
  have hnonneg : x.sign = false → (0 : ℚ) ≤ x.toInt := fun h => by simp [hX, h]
  by_cases hsign : x.sign = decide (r < 0)
  · rw [if_neg (not_not.2 hsign)]
    cases hzero : x.isZero with
    | true =>
      have h0 := x.toInt_of_isZero hzero
      have : ¬r < 0 := fun h => by simp [h0, hsign, h] at hneg
      by_cases hr0 : r = 0
      · simp [hr0, ratOrder, h0]
      · have : 0 < r := lt_of_le_of_ne (not_lt.1 this) (Ne.symm hr0)
        simp [hr0, ratOrder, h0, this]
    | false =>
      have hpos : (0 : ℚ) < value x.digits := by exact_mod_cast x.value_pos (BigInt.digits_ne_nil hzero)
      by_cases hr0 : r = 0
      · have hs : x.sign = false := by simp [hsign, hr0]
        simp [hr0, ratOrder, hX, hs, hpos]
      · have hs : x.sign = negative := by
          rw [hsign, hr]
          cases negative with
          | false => simpa using hV
          | true => simpa using lt_of_le_of_ne hV fun h => hr0 (by simp [hr, ← h])
        rw [if_neg hr0, if_neg (by simp), compareNonzero_spec hzero hb, hX, hr, hs]
  · rw [if_pos hsign]
    cases hs : x.sign with
    | false =>
      have hrneg : r < 0 := by simpa [hs] using hsign
      simp [unequalSign, ratOrder, hrneg.trans_le (hnonneg hs), (hrneg.trans_le (hnonneg hs)).le]
    | true =>
      have hrpos : 0 ≤ r := by simpa [hs] using hsign
      simp [unequalSign, ratOrder, (hneg hs).trans_le hrpos]

end Finite

/-- `CompareToDouble` gives the order of the mathematical values. -/
theorem compareToDouble_spec (x : BigInt t) (y : BitVec 64) : compareToDouble x y = numericOrder x.toInt (Double.ofBits y) := by
  obtain ⟨b, hb⟩ : ∃ b, b = y.toNat % 2 ^ 63 := ⟨_, rfl⟩
  unfold compareToDouble Double.ofBits
  rw [← hb]
  by_cases hnan : b ≤ Binary64.infinity
  · generalize y.msb = negative
    rw [dif_pos hnan]
    by_cases hinf : b = Binary64.infinity
    · subst hinf
      cases negative <;> simp [Double.isNaN, Double.infinity, Double.neg, numericOrder]
    · have hfinite : ∀ h, Double.number negative b hnan ≠ Double.number h Binary64.infinity (le_refl _) := by
        intro h heq
        injection heq with _ hbits
        exact hinf hbits
      have hplus : Double.number negative b hnan ≠ Double.infinity := hfinite false
      have hminus : Double.number negative b hnan ≠ Double.infinity.neg := hfinite true
      simp only [if_neg hplus, if_neg hminus, numericOrder, if_neg hinf]
      exact compareToDouble_finite hb negative rfl
  · rw [dif_neg hnan]
    rfl

end V8Core.Objects
