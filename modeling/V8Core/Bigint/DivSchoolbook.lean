import V8Core.Bigint.MulSchoolbook
import V8Core.Bigint.Shift
import V8Core.Lib.LongDivision
/-!
# Schoolbook division

`DivideSchoolbook` of `div-schoolbook.cc`, with the shifts of `div-helpers.cc` and
`digit_div`. Both inputs are shifted left until the top bit of the divisor is set.
Each iteration guesses one quotient digit from the top digits (`estimateDigit`),
subtracts that multiple of the divisor and takes one divisor back where the guess was
one too large (`subtractDigit`). What remains of the dividend is the remainder.

`divideLoop` is the state after a number of iterations, so that a statement about
every iteration is a statement about every prefix of the loop.
-/

open Radix

namespace V8Core.Bigint

variable {w : Nat}

/-! ## Shifts by less than a digit -/

/-- `LeftShift(Z, X, shift)` of `div-helpers.cc`, for `shift < kDigitBits`. -/
def DivHelpers.leftShift (zlen : Nat) (X : List (BitVec w)) (shift : Nat) : List (BitVec w) :=
  if shift = 0 then padTo zlen X
  else
    let r := shiftLeftDigits shift X 0#w
    padTo zlen (r.1 ++ if X.length < zlen then [r.2] else [])

/-- `RightShift(Z, X, shift)` of `div-helpers.cc`. Below `kDigitBits` its loop is
the one of the general shift. -/
def DivHelpers.rightShift (zlen : Nat) (X : List (BitVec w)) (shift : Nat) : List (BitVec w) :=
  let X := normalize X
  if shift = 0 then padTo zlen X
  else if X.length = 0 then padTo zlen []
  else padTo zlen (shiftRightDigits X shift)

/-- `CountLeadingZeros(d)`. -/
def countLeadingZeros (d : BitVec w) : Nat := d.clz.toNat

/-- `ShiftedDigits(original)`: the digits and the shift that sets the top bit. -/
def shiftedDigits (original : List (BitVec w)) : List (BitVec w) × Nat :=
  let shift := countLeadingZeros (msd original)
  if shift = 0 then (original, shift) else (DivHelpers.leftShift original.length original shift, shift)

/-! ## Division -/

/-- `ProductGreaterThan(factor1, factor2, high, low)`. -/
def productGreaterThan (factor1 factor2 high low : BitVec w) : Bool :=
  let r := digitMul factor1 factor2
  r.2 > high || (r.2 == high && r.1 > low)

theorem productGreaterThan_iff (factor1 factor2 high low : BitVec w) :
    productGreaterThan factor1 factor2 high low = true ↔
      2 ^ w * high.toNat + low.toNat < factor1.toNat * factor2.toNat := by
  rw [← digitMul_spec]
  simp only [productGreaterThan, Bool.or_eq_true, Bool.and_eq_true, decide_eq_true_eq, beq_iff_eq, BitVec.lt_def,
    ← BitVec.toNat_inj]
  generalize (digitMul factor1 factor2).2.toNat = h
  have hlo := (digitMul factor1 factor2).1.isLt
  generalize (digitMul factor1 factor2).1.toNat = l at *
  rcases Nat.lt_trichotomy high.toNat h with hlt | heq | hgt
  · have : 2 ^ w * (high.toNat + 1) ≤ 2 ^ w * h := Nat.mul_le_mul_left _ hlt
    rw [Nat.mul_succ] at this
    omega
  · rw [← heq]; omega
  · have : 2 ^ w * (h + 1) ≤ 2 ^ w * high.toNat := Nat.mul_le_mul_left _ hgt
    rw [Nat.mul_succ] at this
    omega

theorem pos_of_productGreaterThan {factor1 factor2 high low : BitVec w}
    (h : productGreaterThan factor1 factor2 high low = true) : 0 < factor1.toNat := by
  rw [productGreaterThan_iff] at h
  rcases Nat.eq_zero_or_pos factor1.toNat with h0 | h0
  · rw [h0] at h; omega
  · exact h0

theorem toNat_pred {x : BitVec w} (h : 0 < x.toNat) : (x - 1#w).toNat = x.toNat - 1 := by
  have hx := x.isLt
  have hw : 0 < w := Nat.pos_of_ne_zero (by rintro rfl; simp at hx; omega)
  rw [BitVec.toNat_sub, toNat_one hw, show 2 ^ w - 1 + x.toNat = (x.toNat - 1) + 2 ^ w by omega,
    Nat.add_mod_right, Nat.mod_eq_of_lt (by omega)]

/-- The loop that decrements `qhat` while the next digit shows it to be too large. -/
def correctEstimate (vn1 vn2 ujn2 qhat rhat : BitVec w) : BitVec w :=
  if productGreaterThan qhat vn2 rhat ujn2 then
    let qhat' := qhat - 1#w
    let rhat' := rhat + vn1
    -- an overflow of `rhat` ends the loop
    if rhat' < rhat then qhat' else correctEstimate vn1 vn2 ujn2 qhat' rhat'
  else qhat
termination_by qhat.toNat
decreasing_by
  rename_i h _
  have := pos_of_productGreaterThan h
  rw [toNat_pred this]; omega

/-- D3: the estimate of quotient digit `j`, from the dividend `U` and the divisor `B`. -/
def estimateDigit (B U : List (BitVec w)) (j : Nat) : BitVec w :=
  let n := B.length
  let vn1 := digit B (n - 1)
  let ujn := digit U (j + n)
  if ujn ≠ vn1 then
    let r := digitDiv ujn (digit U (j + n - 1)) vn1
    correctEstimate vn1 (digit B (n - 2)) (digit U (j + n - 2)) r.1 r.2
  else BitVec.allOnes w

/-- D4: subtract `qhat` times the divisor at position `j`, and correct `qhat`. -/
def subtractDigit (B U : List (BitVec w)) (j : Nat) (qhat : BitVec w) : List (BitVec w) × BitVec w :=
  let n := B.length
  let qhatv := if qhat = 0#w then List.replicate (n + 1) 0#w else multiplySingle (n + 1) B qhat
  let r := subtractAndReturnBorrow (U.drop j) (U.drop j) qhatv
  if r.2 ≠ 0#w then
    let s := addAndReturnCarry r.1 r.1 B
    (U.take j ++ s.1.set n (digit s.1 n + s.2), qhat - 1#w)
  else (U.take j ++ r.1, qhat)

/-- What the loop of `DivideSchoolbook` changes. -/
structure DivideState (w : Nat) where
  U : List (BitVec w)
  Q : List (BitVec w)

/-- Iteration `j`. -/
def divideStep (B : List (BitVec w)) (j : Nat) (s : DivideState w) : DivideState w :=
  let r := subtractDigit B s.U j (estimateDigit B s.U j)
  if s.Q.length ≠ 0 then
    if j ≥ s.Q.length then ⟨r.1, s.Q⟩ else ⟨r.1, s.Q.set j r.2⟩
  else ⟨r.1, s.Q⟩

/-- The state after the first `k` iterations, which are for `j = m, m - 1, …`. -/
def divideLoop (Q A B : List (BitVec w)) : Nat → DivideState w
  | 0 => ⟨DivHelpers.leftShift (A.length + 1) A (shiftedDigits B).2, Q⟩
  | k + 1 => divideStep (shiftedDigits B).1 (A.length - B.length - k) (divideLoop Q A B k)

/-- `DivideSchoolbook(Q, R, A, B)`: what it leaves in `Q` and `R`. -/
def divideSchoolbook (Q R A B : List (BitVec w)) : List (BitVec w) × List (BitVec w) :=
  let m := A.length - B.length
  let s := divideLoop Q A B (m + 1)
  (s.Q.take (m + 1) ++ List.replicate (s.Q.length - (m + 1)) 0#w,
    if R.length ≠ 0 then DivHelpers.rightShift R.length s.U (shiftedDigits B).2 else R)

/-- `QLengthOK(Q, A, B)`. -/
def qLengthOK (Q A B : List (BitVec w)) : Bool :=
  if greaterThanOrEqual (slice A (A.length - B.length) B.length) B then Q.length ≥ A.length - B.length + 1
  else Q.length ≥ A.length - B.length

/-- The arguments `DivideSchoolbook` asserts. -/
structure DivisionInput (w : Nat) where
  Q : List (BitVec w)
  R : List (BitVec w)
  A : List (BitVec w)
  B : List (BitVec w)
  two_le : 2 ≤ B.length
  msd_ne_zero : msd B ≠ 0#w
  length_le : B.length ≤ A.length
  qLength : Q.length = 0 ∨ qLengthOK Q A B = true
  rLength : R.length = 0 ∨ B.length ≤ R.length

/-! ## The shifts -/

/-- Shifting out the leading zeros of a digit sets its top bit and loses none. -/
theorem countLeadingZeros_spec {d : BitVec w} (h : d ≠ 0#w) :
    2 ^ w ≤ 2 * (2 ^ countLeadingZeros d * d.toNat) ∧ 2 ^ countLeadingZeros d * (d.toNat + 1) ≤ 2 ^ w ∧
      countLeadingZeros d < w := by
  have hw : 0 < w := Nat.pos_of_ne_zero (by rintro rfl; exact h (BitVec.of_length_zero))
  have hlt : countLeadingZeros d < w := by
    have hc := BitVec.clz_lt_iff_ne_zero.2 h
    rwa [BitVec.lt_def, BitVec.natCast_eq_ofNat, BitVec.toNat_ofNat,
      Nat.mod_eq_of_lt Nat.lt_two_pow_self] at hc
  have hlow := BitVec.two_pow_sub_clz_le_toNat_of_ne_zero hw h
  have hhigh := BitVec.toNat_lt_two_pow_sub_clz (x := d)
  simp only [countLeadingZeros] at *
  generalize d.clz.toNat = c at *
  refine ⟨?_, ?_, hlt⟩
  · calc 2 ^ w = 2 * (2 ^ c * 2 ^ (w - 1 - c)) := by
          rw [← Nat.pow_add, ← Nat.pow_succ']; congr 1; omega
      _ ≤ 2 * (2 ^ c * d.toNat) := Nat.mul_le_mul_left _ (Nat.mul_le_mul_left _ hlow)
  · calc 2 ^ c * (d.toNat + 1) ≤ 2 ^ c * 2 ^ (w - c) := Nat.mul_le_mul_left _ hhigh
      _ = 2 ^ w := by rw [← Nat.pow_add]; congr 1; omega

/-- A left shift multiplies, if its result fits. -/
theorem DivHelpers.leftShift_spec (zlen : Nat) (X : List (BitVec w)) {shift : Nat} (hs : shift < w)
    (hz : X.length ≤ zlen) (hfit : 2 ^ shift * value X < 2 ^ (w * zlen)) :
    value (leftShift zlen X shift) = 2 ^ shift * value X ∧ (leftShift zlen X shift).length = zlen := by
  simp only [leftShift]
  by_cases h0 : shift = 0
  · rw [if_pos h0, length_padTo, h0]
    exact ⟨by simp, by omega⟩
  rw [if_neg h0]
  obtain ⟨h, -⟩ := shiftLeftDigits_spec shift hs.le X 0#w (by simp)
  simp only [BitVec.toNat_ofNat, Nat.zero_mod] at h
  rcases Nat.lt_or_ge X.length zlen with hlt | hge
  · rw [if_pos hlt, value_padTo, length_padTo, value_concat, shiftLeftDigits_length]
    refine ⟨h, ?_⟩
    simp only [List.length_append, shiftLeftDigits_length, List.length_singleton]
    omega
  · have hlen : zlen = X.length := by omega
    -- the carry has nowhere to go, and is zero
    have hcarry : (shiftLeftDigits shift X 0#w).2.toNat = 0 := by
      by_contra hne
      have : 2 ^ (w * X.length) * 1 ≤ 2 ^ (w * X.length) * (shiftLeftDigits shift X 0#w).2.toNat :=
        Nat.mul_le_mul_left _ (by omega)
      rw [hlen] at hfit
      omega
    rw [if_neg (by omega), List.append_nil, value_padTo, length_padTo, shiftLeftDigits_length]
    rw [hcarry, Nat.mul_zero] at h
    exact ⟨h, by omega⟩

/-- A right shift divides, if its operand fits. -/
theorem DivHelpers.rightShift_spec (zlen : Nat) (X : List (BitVec w)) {shift : Nat} (hs : shift < w)
    (hfit : value X < 2 ^ (w * zlen)) :
    value (rightShift zlen X shift) = value X / 2 ^ shift ∧ (rightShift zlen X shift).length = zlen := by
  have hlen : (normalize X).length ≤ zlen :=
    length_le_of_value_lt (isDigitNormalized_normalize X) (by rwa [value_normalize])
  simp only [rightShift]
  by_cases h0 : shift = 0
  · rw [if_pos h0, value_padTo, length_padTo, h0]
    exact ⟨by simp, by omega⟩
  rw [if_neg h0]
  by_cases hnil : (normalize X).length = 0
  · have hzero : value X = 0 := (normalize_eq_nil_iff X).1 (List.length_eq_zero_iff.1 hnil)
    rw [if_pos hnil, hzero]
    exact ⟨by simp, by simp⟩
  · obtain ⟨h1, h2⟩ := shiftRightDigits_spec (by omega) (normalize X) shift
      (by rw [Nat.div_eq_of_lt hs]; omega)
    rw [Nat.div_eq_of_lt hs] at h2
    rw [if_neg hnil, value_padTo, length_padTo, h1, value_normalize]
    exact ⟨rfl, by omega⟩

theorem value_eq_top (X : List (BitVec w)) (hX : 0 < X.length) :
    value X = value (X.take (X.length - 1)) + 2 ^ (w * (X.length - 1)) * (msd X).toNat := by
  obtain ⟨Y, d, rfl⟩ := (List.eq_nil_or_concat X).resolve_left (List.ne_nil_of_length_pos hX)
  simp [value_concat, msd]

/-- The shifted divisor has the same length and its top bit set. -/
theorem shiftedDigits_spec (B : List (BitVec w)) (hB : 0 < B.length) (hmsd : msd B ≠ 0#w) :
    value (shiftedDigits B).1 = 2 ^ (shiftedDigits B).2 * value B ∧ (shiftedDigits B).1.length = B.length ∧
      (shiftedDigits B).2 < w ∧ 2 ^ (w * B.length) ≤ 2 * value (shiftedDigits B).1 := by
  obtain ⟨hlow, hhigh, hlt⟩ := countLeadingZeros_spec hmsd
  have htop := value_eq_top B hB
  have htake := value_take_lt B (B.length - 1)
  have hpow : 2 ^ (w * B.length) = 2 ^ (w * (B.length - 1)) * 2 ^ w := by
    rw [← Nat.pow_add, ← Nat.mul_succ]; congr 2; omega
  have hfit : 2 ^ countLeadingZeros (msd B) * value B < 2 ^ (w * B.length) := by
    calc 2 ^ countLeadingZeros (msd B) * value B
        < 2 ^ countLeadingZeros (msd B) * (2 ^ (w * (B.length - 1)) * ((msd B).toNat + 1)) := by
          refine Nat.mul_lt_mul_of_pos_left ?_ (by positivity)
          rw [Nat.mul_succ]; omega
      _ = 2 ^ (w * (B.length - 1)) * (2 ^ countLeadingZeros (msd B) * ((msd B).toNat + 1)) := by ring
      _ ≤ 2 ^ (w * B.length) := by rw [hpow]; exact Nat.mul_le_mul_left _ hhigh
  have hval : value (shiftedDigits B).1 = 2 ^ countLeadingZeros (msd B) * value B ∧
      (shiftedDigits B).1.length = B.length := by
    by_cases h0 : countLeadingZeros (msd B) = 0
    · simp [shiftedDigits, h0]
    · simp only [shiftedDigits, if_neg h0]
      exact DivHelpers.leftShift_spec B.length B hlt le_rfl hfit
  have hshift : (shiftedDigits B).2 = countLeadingZeros (msd B) := by
    simp only [shiftedDigits]; split <;> rfl
  rw [hshift]
  refine ⟨hval.1, hval.2, hlt, ?_⟩
  rw [hval.1, hpow]
  calc 2 ^ (w * (B.length - 1)) * 2 ^ w
      ≤ 2 ^ (w * (B.length - 1)) * (2 * (2 ^ countLeadingZeros (msd B) * (msd B).toNat)) :=
        Nat.mul_le_mul_left _ hlow
    _ = 2 * (2 ^ countLeadingZeros (msd B) * (2 ^ (w * (B.length - 1)) * (msd B).toNat)) := by ring
    _ ≤ 2 * (2 ^ countLeadingZeros (msd B) * value B) :=
        Nat.mul_le_mul_left _ (Nat.mul_le_mul_left _ (by omega))

/-! ## The estimate -/

theorem add_lt_left_iff (x y : BitVec w) : x + y < x ↔ 2 ^ w ≤ x.toNat + y.toNat := by
  rw [BitVec.lt_def, BitVec.toNat_add]
  rcases Nat.lt_or_ge (x.toNat + y.toNat) (2 ^ w) with h | h
  · rw [Nat.mod_eq_of_lt h]; omega
  · rw [Nat.mod_eq_sub_mod h, Nat.mod_eq_of_lt (by omega)]; omega

/-- The test of the correction loop compares `qhat` with the quotient of three digits by two. -/
theorem productGreaterThan_estimate (vn1 vn2 ujn2 qhat rhat : BitVec w) (hv : 0 < vn1.toNat) :
    productGreaterThan qhat vn2 rhat ujn2 = true ↔
      (2 ^ w * (vn1.toNat * qhat.toNat + rhat.toNat) + ujn2.toNat) / (2 ^ w * vn1.toNat + vn2.toNat) <
        qhat.toNat := by
  rw [productGreaterThan_iff, LongDivision.div_lt_iff (by positivity)]

/-- The correction loop ends with the quotient of three digits by two, unless it started below. -/
theorem correctEstimate_spec (vn1 vn2 ujn2 qhat rhat : BitVec w) (hv : 0 < vn1.toNat) :
    (correctEstimate vn1 vn2 ujn2 qhat rhat).toNat =
      min qhat.toNat ((2 ^ w * (vn1.toNat * qhat.toNat + rhat.toNat) + ujn2.toNat) /
        (2 ^ w * vn1.toNat + vn2.toNat)) := by
  fun_induction correctEstimate vn1 vn2 ujn2 qhat rhat with
  | case1 qhat rhat hgt q' r' hover =>
    have hpos := pos_of_productGreaterThan hgt
    rw [productGreaterThan_estimate vn1 vn2 ujn2 qhat rhat hv] at hgt
    rw [add_lt_left_iff] at hover
    obtain ⟨p, hp⟩ : ∃ p, qhat.toNat = p + 1 := ⟨qhat.toNat - 1, by omega⟩
    have hle := LongDivision.le_div_of_long (q := p) (u := ujn2.toNat) (by positivity) (by omega) vn2.isLt.le hover
    rw [← hp] at hle
    rw [toNat_pred hpos]
    omega
  | case2 qhat rhat hgt q' r' hover ih =>
    have hpos := pos_of_productGreaterThan hgt
    rw [productGreaterThan_estimate vn1 vn2 ujn2 qhat rhat hv] at hgt
    rw [add_lt_left_iff] at hover
    have hr : r'.toNat = rhat.toNat + vn1.toNat := by
      rw [BitVec.toNat_add, Nat.mod_eq_of_lt (by omega)]
    have hsame : vn1.toNat * q'.toNat + r'.toNat = vn1.toNat * qhat.toNat + rhat.toNat := by
      obtain ⟨p, hp⟩ : ∃ p, qhat.toNat = p + 1 := ⟨qhat.toNat - 1, by omega⟩
      rw [hr, toNat_pred hpos, hp, Nat.add_sub_cancel]
      ring
    rw [ih, hsame, toNat_pred hpos]
    omega
  | case3 qhat rhat hle =>
    rw [productGreaterThan_estimate vn1 vn2 ujn2 qhat rhat hv] at hle
    omega

/-- A divisor with its top bit set and the part of the dividend that is left when a
quotient digit is due: less than `2 ^ w` times the divisor. -/
structure Window (B U : List (BitVec w)) (j : Nat) : Prop where
  two_le : 2 ≤ B.length
  top_bit : 2 ^ (w * B.length) ≤ 2 * value B
  length_lt : j + B.length < U.length
  lt_mul : value (U.drop j) < 2 ^ w * value B

namespace Window

variable {B U : List (BitVec w)} {j : Nat} (h : Window B U j)
include h

theorem value_pos : 0 < value B := by
  have := h.top_bit
  have h2 : 0 < 2 ^ (w * B.length) := by positivity
  omega

/-- Nothing is left above the digit the next quotient digit is read from. -/
theorem value_drop_above : value (U.drop (j + B.length + 1)) = 0 := by
  have hlt := h.lt_mul
  have hB := value_lt B
  rw [show j + B.length + 1 = j + (B.length + 1) by omega, ← List.drop_drop, value_drop]
  refine Nat.div_eq_of_lt (lt_trans hlt ?_)
  rw [pow_succ_len]
  exact Nat.mul_lt_mul_of_pos_left hB (by positivity)

/-- The digit in front, and the two and three digits in front. -/
theorem value_drop_top : value (U.drop (j + B.length)) = (digit U (j + B.length)).toNat := by
  rw [drop_eq_digit_cons U _ h.length_lt, value_cons, h.value_drop_above, Nat.mul_zero, Nat.add_zero]

theorem value_drop_top_two : value (U.drop (j + B.length - 1)) =
    (digit U (j + B.length - 1)).toNat + 2 ^ w * (digit U (j + B.length)).toNat := by
  have h2 := h.two_le
  have hl := h.length_lt
  rw [drop_eq_digit_cons U _ (by omega), value_cons, show j + B.length - 1 + 1 = j + B.length by omega,
    h.value_drop_top]

theorem value_drop_top_three : value (U.drop (j + B.length - 2)) =
    (digit U (j + B.length - 2)).toNat + 2 ^ w * value (U.drop (j + B.length - 1)) := by
  have h2 := h.two_le
  have hl := h.length_lt
  rw [drop_eq_digit_cons U _ (by omega), value_cons, show j + B.length - 2 + 1 = j + B.length - 1 by omega]

theorem divisor_top : value (B.drop (B.length - 1)) = (digit B (B.length - 1)).toNat := by
  have h2 := h.two_le
  rw [drop_eq_digit_cons B _ (by omega), List.drop_eq_nil_of_le (by omega)]
  simp

theorem divisor_top_two : value (B.drop (B.length - 2)) =
    (digit B (B.length - 2)).toNat + 2 ^ w * (digit B (B.length - 1)).toNat := by
  have h2 := h.two_le
  rw [drop_eq_digit_cons B _ (by omega), value_cons, show B.length - 2 + 1 = B.length - 1 by omega, h.divisor_top]

theorem divisor_lt : value B < 2 ^ (w * (B.length - 1)) * ((digit B (B.length - 1)).toNat + 1) := by
  have h1 := value_split_at B (B.length - 1)
  have h2 := value_take_lt B (B.length - 1)
  rw [h.divisor_top] at h1
  rw [Nat.mul_succ]
  omega

theorem pow_eq : 2 ^ (w * B.length) = 2 ^ (w * (B.length - 1)) * 2 ^ w := by
  have h2 := h.two_le
  rw [← Nat.pow_add, ← Nat.mul_succ]; congr 2; omega

theorem base_lt : 2 ^ w < 2 * ((digit B (B.length - 1)).toNat + 1) := by
  have htop := h.top_bit
  have hlt := h.divisor_lt
  rw [h.pow_eq] at htop
  refine Nat.lt_of_mul_lt_mul_left (a := 2 ^ (w * (B.length - 1))) ?_
  calc 2 ^ (w * (B.length - 1)) * 2 ^ w ≤ 2 * value B := htop
    _ < 2 * (2 ^ (w * (B.length - 1)) * ((digit B (B.length - 1)).toNat + 1)) := by omega
    _ = _ := by ring

theorem divisor_top_pos : 0 < (digit B (B.length - 1)).toNat := by
  have hb := h.base_lt
  rcases Nat.eq_zero_or_pos w with rfl | hw
  · have := h.value_pos
    have := value_lt B
    simp at this
    omega
  · have : 2 ^ 1 ≤ 2 ^ w := Nat.pow_le_pow_right (by norm_num) hw
    omega

/-- The precondition of `digit_div`, but for the case the loop treats apart. -/
theorem top_le : (digit U (j + B.length)).toNat ≤ (digit B (B.length - 1)).toNat := by
  have hlt := h.lt_mul
  have hB := h.divisor_lt
  rw [← h.value_drop_top, ← List.drop_drop, value_drop, ← Nat.lt_succ_iff, Nat.div_lt_iff_lt_mul (by positivity)]
  calc value (U.drop j) < 2 ^ w * value B := hlt
    _ ≤ 2 ^ w * (2 ^ (w * (B.length - 1)) * ((digit B (B.length - 1)).toNat + 1)) := Nat.mul_le_mul_left _ hB.le
    _ = ((digit B (B.length - 1)).toNat + 1) * 2 ^ (w * B.length) := by rw [h.pow_eq]; ring

theorem div_lt : value (U.drop j) / value B < 2 ^ w := by
  rw [Nat.div_lt_iff_lt_mul h.value_pos]
  exact h.lt_mul

omit h in
theorem leading (k : Nat) (hk : k ≤ B.length) :
    value (U.drop j) / 2 ^ (w * (B.length - k)) = value (U.drop (j + B.length - k)) ∧
      value B / 2 ^ (w * (B.length - k)) = value (B.drop (B.length - k)) := by
  rw [← value_drop, ← value_drop, List.drop_drop, Nat.add_sub_assoc hk]
  exact ⟨rfl, rfl⟩

/-- Away from the special case, the estimate is the quotient of three digits by two. -/
theorem estimateDigit_of_ne (hne : digit U (j + B.length) ≠ digit B (B.length - 1)) :
    (estimateDigit B U j).toNat =
      value (U.drop (j + B.length - 2)) / value (B.drop (B.length - 2)) := by
  have hlt : (digit U (j + B.length)).toNat < (digit B (B.length - 1)).toNat :=
    lt_of_le_of_ne h.top_le (fun he => hne (BitVec.toNat_inj.1 he))
  obtain ⟨hdiv, hrem⟩ := digitDiv_spec _ (digit U (j + B.length - 1)) _ hlt
  simp only [estimateDigit, if_pos hne]
  rw [correctEstimate_spec _ _ _ _ _ h.divisor_top_pos, hdiv]
  have htwo : 2 ^ w * (digit U (j + B.length)).toNat + (digit U (j + B.length - 1)).toNat =
      value (U.drop (j + B.length - 1)) := by rw [h.value_drop_top_two]; omega
  rw [htwo] at hdiv ⊢
  have hq : (digitDiv (digit U (j + B.length)) (digit U (j + B.length - 1)) (digit B (B.length - 1))).1.toNat =
      value (U.drop (j + B.length - 1)) / (digit B (B.length - 1)).toNat := by
    rw [← hdiv, Nat.mul_add_div h.divisor_top_pos, Nat.div_eq_of_lt hrem, Nat.add_zero]
  have hthree := h.value_drop_top_three
  have hdtwo := h.divisor_top_two
  have hbound : value (U.drop (j + B.length - 2)) / value (B.drop (B.length - 2)) ≤
      value (U.drop (j + B.length - 1)) / (digit B (B.length - 1)).toNat := by
    have hU : value (U.drop (j + B.length - 2)) / 2 ^ w = value (U.drop (j + B.length - 1)) := by
      rw [hthree, Nat.add_mul_div_left _ _ (by positivity), Nat.div_eq_of_lt (BitVec.isLt _), Nat.zero_add]
    have hV : value (B.drop (B.length - 2)) / 2 ^ w = (digit B (B.length - 1)).toNat := by
      rw [hdtwo, Nat.add_mul_div_left _ _ (by positivity), Nat.div_eq_of_lt (BitVec.isLt _), Nat.zero_add]
    rw [← hU, ← hV]
    exact LongDivision.div_le_div_leading (by rw [hV]; exact h.divisor_top_pos)
  rw [hq, Nat.add_comm (2 ^ w * _), Nat.add_comm (2 ^ w * _), ← hthree, ← hdtwo, Nat.min_eq_right hbound]

/-- The estimate is the quotient digit or one more. -/
theorem estimateDigit_spec : value (U.drop j) / value B ≤ (estimateDigit B U j).toNat ∧
    (estimateDigit B U j).toNat ≤ value (U.drop j) / value B + 1 := by
  have h2 := h.two_le
  have hdpos := h.divisor_top_pos
  by_cases hne : digit U (j + B.length) ≠ digit B (B.length - 1)
  · have hest := h.estimateDigit_of_ne hne
    have hltE := (estimateDigit B U j).isLt
    obtain ⟨hU, hV⟩ := leading (U := U) (j := j) 2 h2
    have hdtwo := h.divisor_top_two
    have hlead : 0 < value B / 2 ^ (w * (B.length - 2)) := by rw [hV, hdtwo]; positivity
    rw [← hU, ← hV] at hest
    rw [hest] at hltE ⊢
    refine ⟨LongDivision.div_le_div_leading hlead, LongDivision.div_leading_le_succ (by positivity) h.value_pos ?_⟩
    -- the estimate is a digit, and the divisor has a digit more than is cut off
    have hVge : 2 ^ w * 2 ^ (w * (B.length - 2)) ≤ value B := by
      rw [← Nat.le_div_iff_mul_le (by positivity), hV, hdtwo]
      have := Nat.mul_le_mul_left (2 ^ w) hdpos
      omega
    exact le_trans (Nat.mul_le_mul_right _ hltE.le) hVge
  · rw [ne_eq, not_not] at hne
    have hest : (estimateDigit B U j).toNat = 2 ^ w - 1 := by
      simp only [estimateDigit, hne, ne_eq, not_true_eq_false, if_false, BitVec.toNat_allOnes]
    obtain ⟨hU, hV⟩ := leading (U := U) (j := j) 1 (show 1 ≤ B.length by omega)
    have hdiv := h.div_lt
    rw [hest]
    refine ⟨by omega, LongDivision.max_digit_le_succ (P := 2 ^ (w * (B.length - 1))) (by positivity)
      h.value_pos ?_ ?_⟩
    · rw [hV, h.divisor_top]
      have := h.base_lt
      omega
    · rw [hU, hV, h.divisor_top, h.value_drop_top_two, hne]
      omega

end Window

/-! ## The subtraction -/

/-- `qhatv`: the multiple of the divisor to be subtracted. -/
theorem qhatv_spec (B : List (BitVec w)) (qhat : BitVec w) :
    value (if qhat = 0#w then List.replicate (B.length + 1) 0#w else multiplySingle (B.length + 1) B qhat) =
        value B * qhat.toNat ∧
      (if qhat = 0#w then List.replicate (B.length + 1) 0#w
        else multiplySingle (B.length + 1) B qhat).length = B.length + 1 := by
  split
  · rename_i h0; simp [h0]
  · obtain ⟨h1, h2⟩ := multiplySingle_spec (B.length + 1) B qhat
    exact ⟨h1, by rw [h2]; simp⟩

/-- Two ways to write a number as a low part and a multiple. -/
theorem eq_of_low_add_mul {P lo lo' x y : Nat} (hlo : lo < P) (hlo' : lo' < P) (h : lo + P * x = lo' + P * y) :
    lo = lo' ∧ x = y := by
  have hP : 0 < P := by omega
  have h1 := congrArg (· % P) h
  have h2 := congrArg (· / P) h
  simp only [Nat.add_mul_mod_self_left, Nat.mod_eq_of_lt hlo, Nat.mod_eq_of_lt hlo'] at h1
  simp only [Nat.add_mul_div_left _ _ hP, Nat.div_eq_of_lt hlo, Nat.div_eq_of_lt hlo', Nat.zero_add] at h2
  exact ⟨h1, h2⟩

/-- Adding the divisor back: the carry out of it runs off the top digit, which
becomes zero. -/
theorem addBack_spec (B X : List (BitVec w)) (hl : B.length < X.length) {r : Nat} (hr : r < 2 ^ (w * B.length))
    (h : value X + value B = r + 2 ^ (w * (B.length + 1))) (hz : value (X.drop (B.length + 1)) = 0) :
    let s := addAndReturnCarry X X B
    value (s.1.set B.length (digit s.1 B.length + s.2)) = r ∧
      (s.1.set B.length (digit s.1 B.length + s.2)).length = X.length := by
  intro s
  obtain ⟨hs, hlen, habove⟩ := addAndReturnCarry_spec X B hl.le
  have hsz : s.1.drop (B.length + 1) = X.drop (B.length + 1) := habove _ (Nat.le_succ _)
  have hsplit := value_split_at s.1 B.length
  have htake := value_take_lt s.1 B.length
  rw [drop_eq_digit_cons s.1 _ (by rw [hlen]; exact hl), value_cons, hsz, hz, Nat.mul_zero, Nat.add_zero] at hsplit
  have hs' : value s.1 + 2 ^ (w * B.length) * s.2.toNat = value X + value B := hs
  have hsum : value (s.1.take B.length) + 2 ^ (w * B.length) * ((digit s.1 B.length).toNat + s.2.toNat) =
      r + 2 ^ (w * B.length) * 2 ^ w := by
    rw [pow_succ_len, Nat.mul_comm (2 ^ w)] at h
    rw [Nat.mul_add]
    omega
  obtain ⟨hlo, hcarry⟩ := eq_of_low_add_mul htake hr hsum
  have hdigit : (digit s.1 B.length + s.2).toNat = 0 := by
    rw [BitVec.toNat_add, hcarry, Nat.mod_self]
  refine ⟨?_, by rw [List.length_set]; exact hlen⟩
  rw [List.set_eq_take_append_cons_drop, if_pos (by rw [hlen]; exact hl), value_append, value_cons, hsz, hz, hdigit, hlo]
  simp

namespace Window

variable {B U : List (BitVec w)} {j : Nat} (h : Window B U j)
include h

/-- From an estimate that is the quotient digit or one more, the quotient digit
and what is left of the dividend. -/
theorem subtractDigit_spec {qhat : BitVec w} (hlow : value (U.drop j) / value B ≤ qhat.toNat)
    (hhigh : qhat.toNat ≤ value (U.drop j) / value B + 1) :
    (subtractDigit B U j qhat).2.toNat = value (U.drop j) / value B ∧
      value ((subtractDigit B U j qhat).1.drop j) = value (U.drop j) % value B ∧
      (subtractDigit B U j qhat).1.take j = U.take j ∧
      (subtractDigit B U j qhat).1.length = U.length := by
  have hl := h.length_lt
  obtain ⟨hqv, hqlen⟩ := qhatv_spec B qhat
  simp only [subtractDigit]
  generalize (if qhat = 0#w then List.replicate (B.length + 1) 0#w
    else multiplySingle (B.length + 1) B qhat) = qhatv at *
  have hWlen : (U.drop j).length = U.length - j := List.length_drop ..
  obtain ⟨hsub, hborrow, hslen, hsdrop⟩ := subtractAndReturnBorrow_spec (U.drop j) qhatv (by omega)
  rw [hqv, hqlen] at hsub
  have hrem := Nat.div_add_mod (value (U.drop j)) (value B)
  have hmod := Nat.mod_lt (value (U.drop j)) h.value_pos
  have htake : (U.take j).length = j := by rw [List.length_take]; omega
  by_cases hc : (subtractAndReturnBorrow (U.drop j) (U.drop j) qhatv).2 = 0#w
  · rw [if_neg (by simpa using hc)]
    rw [hc, BitVec.toNat_ofNat, Nat.zero_mod, Nat.mul_zero] at hsub
    -- no borrow, so the estimate was not too large
    have hq : qhat.toNat = value (U.drop j) / value B := by
      refine le_antisymm ?_ hlow
      rw [Nat.le_div_iff_mul_le h.value_pos, Nat.mul_comm]
      omega
    refine ⟨hq, ?_, ?_, ?_⟩
    · rw [List.drop_append, htake, Nat.sub_self, List.drop_zero, List.drop_eq_nil_of_le (by omega), List.nil_append]
      rw [hq] at hsub
      omega
    · rw [List.take_append, htake, Nat.sub_self, List.take_zero, List.append_nil, List.take_of_length_le (by omega)]
    · rw [List.length_append, hslen, htake]; omega
  · rw [if_pos (by simpa using hc)]
    have hone : (subtractAndReturnBorrow (U.drop j) (U.drop j) qhatv).2.toNat = 1 := by
      have : (subtractAndReturnBorrow (U.drop j) (U.drop j) qhatv).2.toNat ≠ 0 :=
        fun h0 => hc (BitVec.toNat_inj.1 (by simpa using h0))
      omega
    rw [hone] at hsub
    -- a borrow, so the estimate was one too large
    have habove : value ((subtractAndReturnBorrow (U.drop j) (U.drop j) qhatv).1.drop (B.length + 1)) = 0 := by
      rw [hsdrop _ hqlen.le, List.drop_drop]
      exact h.value_drop_above
    have hlt : value (subtractAndReturnBorrow (U.drop j) (U.drop j) qhatv).1 < 2 ^ (w * (B.length + 1)) := by
      rw [value_split_at _ (B.length + 1), habove, Nat.mul_zero]
      exact value_take_lt _ _
    have hq : qhat.toNat = value (U.drop j) / value B + 1 := by
      rcases Nat.lt_or_ge (value (U.drop j) / value B) qhat.toNat with hgt | hle
      · omega
      · rw [le_antisymm hle hlow] at hsub
        omega
    have hback : value (subtractAndReturnBorrow (U.drop j) (U.drop j) qhatv).1 + value B =
        value (U.drop j) % value B + 2 ^ (w * (B.length + 1)) := by
      rw [hq, Nat.mul_succ] at hsub
      omega
    obtain ⟨hval, hlen⟩ := addBack_spec B (subtractAndReturnBorrow (U.drop j) (U.drop j) qhatv).1 (by omega)
      (lt_trans hmod (value_lt B)) hback habove
    refine ⟨by rw [toNat_pred (hq ▸ Nat.succ_pos _), hq, Nat.add_sub_cancel], ?_, ?_, ?_⟩
    · rw [List.drop_append, htake, Nat.sub_self, List.drop_eq_nil_of_le (by omega)]
      exact hval
    · rw [List.take_append, htake, Nat.sub_self, List.take_zero, List.append_nil, List.take_of_length_le (by omega)]
    · rw [List.length_append, hlen, hslen, htake]; omega

/-- One iteration finds the quotient digit and leaves the remainder. -/
theorem digit_spec :
    (subtractDigit B U j (estimateDigit B U j)).2.toNat = value (U.drop j) / value B ∧
      value (subtractDigit B U j (estimateDigit B U j)).1 = value U % (2 ^ (w * j) * value B) ∧
      (subtractDigit B U j (estimateDigit B U j)).1.length = U.length := by
  obtain ⟨hlow, hhigh⟩ := h.estimateDigit_spec
  obtain ⟨hq, hr, ht, hl⟩ := h.subtractDigit_spec hlow hhigh
  refine ⟨hq, ?_, hl⟩
  rw [value_split_at _ j, ht, hr, value_take, value_drop, Nat.mod_mul]

end Window

/-! ## The loop -/

/-- Digits that are those of a number make up its low part. -/
theorem value_eq_mod {X : List (BitVec w)} {N : Nat}
    (h : ∀ i < X.length, (digit X i).toNat = N / 2 ^ (w * i) % 2 ^ w) : value X = N % 2 ^ (w * X.length) := by
  induction X generalizing N with
  | nil => simp [Nat.mod_one]
  | cons d X ih =>
    have h0 : d.toNat = N % 2 ^ w := by simpa [digit] using h 0 (by simp)
    have hs : value X = N / 2 ^ w % 2 ^ (w * X.length) := by
      refine ih fun i hi => ?_
      have := h (i + 1) (by simpa using hi)
      rw [pow_succ_len, ← Nat.div_div_eq_div_mul] at this
      simpa [digit] using this
    rw [value_cons, List.length_cons, pow_succ_len, Nat.mod_mul, h0, hs]

namespace DivisionInput

variable (d : DivisionInput w)

/-- The number of the first iteration. -/
def m : Nat := d.A.length - d.B.length

/-- The shifted divisor. -/
def divisor : List (BitVec w) := (shiftedDigits d.B).1

/-- The state in which iteration `j` starts. -/
def entry (j : Nat) : DivideState w := divideLoop d.Q d.A d.B (d.m - j)

/-- The quotient digit that iteration `j` is to find. -/
def quotientDigit (j : Nat) : Nat := value d.A / value d.B / 2 ^ (w * j) % 2 ^ w

theorem shift_lt : (shiftedDigits d.B).2 < w :=
  (shiftedDigits_spec d.B (by have := d.two_le; omega) d.msd_ne_zero).2.2.1

theorem value_divisor : value d.divisor = 2 ^ (shiftedDigits d.B).2 * value d.B :=
  (shiftedDigits_spec d.B (by have := d.two_le; omega) d.msd_ne_zero).1

theorem length_divisor : d.divisor.length = d.B.length :=
  (shiftedDigits_spec d.B (by have := d.two_le; omega) d.msd_ne_zero).2.1

theorem divisor_top_bit : 2 ^ (w * d.divisor.length) ≤ 2 * value d.divisor := by
  rw [d.length_divisor]
  exact (shiftedDigits_spec d.B (by have := d.two_le; omega) d.msd_ne_zero).2.2.2

theorem value_B_pos : 0 < value d.B := by
  have htop := d.divisor_top_bit
  rw [d.value_divisor] at htop
  refine Nat.pos_of_ne_zero fun h0 => ?_
  rw [h0] at htop
  have : 0 < 2 ^ (w * d.divisor.length) := by positivity
  omega

/-- The quotient has at most `m + 1` digits. -/
theorem value_A_lt : value d.A < 2 ^ (w * (d.m + 1)) * value d.B := by
  have hlen := d.length_le
  have h2 := d.two_le
  have htop := value_eq_top d.B (by omega)
  have hne : 1 ≤ (msd d.B).toNat :=
    Nat.pos_of_ne_zero fun h0 => d.msd_ne_zero (BitVec.toNat_inj.1 (by simpa using h0))
  have hB : 2 ^ (w * (d.B.length - 1)) ≤ value d.B := by
    have := Nat.mul_le_mul_left (2 ^ (w * (d.B.length - 1))) hne
    omega
  calc value d.A < 2 ^ (w * d.A.length) := value_lt d.A
    _ = 2 ^ (w * (d.m + 1)) * 2 ^ (w * (d.B.length - 1)) := by
        rw [← Nat.pow_add, ← Nat.mul_add]; congr 2; simp only [m]; omega
    _ ≤ 2 ^ (w * (d.m + 1)) * value d.B := Nat.mul_le_mul_left _ hB

/-- What the loop keeps: the dividend modulo the multiples already taken out, and the digits found. -/
structure Inv (k : Nat) : Prop where
  length_U : (divideLoop d.Q d.A d.B k).U.length = d.A.length + 1
  value_U : value (divideLoop d.Q d.A d.B k).U =
    2 ^ (shiftedDigits d.B).2 * value d.A % (2 ^ (w * (d.m + 1 - k)) * value d.divisor)
  length_Q : (divideLoop d.Q d.A d.B k).Q.length = d.Q.length
  digit_Q : ∀ i < d.Q.length, d.m + 1 - k ≤ i → i ≤ d.m →
    (digit (divideLoop d.Q d.A d.B k).Q i).toNat = d.quotientDigit i

variable {d} in
/-- The invariant leaves a quotient digit to be found. -/
theorem Inv.window {k : Nat} (h : d.Inv k) (hk : k ≤ d.m) :
    Window d.divisor (divideLoop d.Q d.A d.B k).U (d.m - k) where
  two_le := by rw [d.length_divisor]; exact d.two_le
  top_bit := d.divisor_top_bit
  length_lt := by
    have := d.length_le
    rw [d.length_divisor, h.length_U]
    simp only [m] at *
    omega
  lt_mul := by
    have hpos : 0 < value d.divisor := by
      rw [d.value_divisor]
      exact Nat.mul_pos (by positivity) d.value_B_pos
    rw [value_drop, h.value_U, Nat.div_lt_iff_lt_mul (by positivity)]
    refine lt_of_lt_of_eq (Nat.mod_lt _ (Nat.mul_pos (by positivity) hpos)) ?_
    rw [show d.m + 1 - k = d.m - k + 1 by omega]
    ring

variable {d} in
/-- The digit found in the window is the one of the quotient. -/
theorem Inv.window_div {k : Nat} (h : d.Inv k) (hk : k ≤ d.m) :
    value ((divideLoop d.Q d.A d.B k).U.drop (d.m - k)) / value d.divisor = d.quotientDigit (d.m - k) := by
  rw [value_drop, h.value_U, show d.m + 1 - k = d.m - k + 1 by omega, Nat.div_div_eq_div_mul, pow_succ_len,
    show 2 ^ w * 2 ^ (w * (d.m - k)) * value d.divisor = 2 ^ (w * (d.m - k)) * value d.divisor * 2 ^ w by ring,
    Nat.mod_mul_right_div_self, quotientDigit, d.value_divisor, Nat.mul_comm (2 ^ (w * (d.m - k))),
    ← Nat.div_div_eq_div_mul, Nat.mul_div_mul_left _ _ (by positivity)]

theorem inv_zero : d.Inv 0 := by
  have hA := value_lt d.A
  have hfit : 2 ^ (shiftedDigits d.B).2 * value d.A < 2 ^ (w * (d.A.length + 1)) := by
    rw [pow_succ_len]
    exact Nat.mul_lt_mul_of_le_of_lt (Nat.pow_le_pow_right (by norm_num) d.shift_lt.le) hA (by positivity)
  obtain ⟨hval, hlen⟩ := DivHelpers.leftShift_spec (d.A.length + 1) d.A d.shift_lt (Nat.le_succ _) hfit
  refine ⟨hlen, ?_, rfl, fun i _ hi hm => by omega⟩
  rw [divideLoop, hval, Nat.mod_eq_of_lt]
  rw [Nat.sub_zero, d.value_divisor]
  calc 2 ^ (shiftedDigits d.B).2 * value d.A
      < 2 ^ (shiftedDigits d.B).2 * (2 ^ (w * (d.m + 1)) * value d.B) :=
        Nat.mul_lt_mul_of_pos_left d.value_A_lt (by positivity)
    _ = _ := by ring

/-- What iteration `j` makes of the state. -/
theorem divideStep_eq (B : List (BitVec w)) (j : Nat) (s : DivideState w) :
    divideStep B j s = ⟨(subtractDigit B s.U j (estimateDigit B s.U j)).1,
      s.Q.set j (subtractDigit B s.U j (estimateDigit B s.U j)).2⟩ := by
  simp only [divideStep]
  split
  · split
    · rename_i hge
      rw [List.set_eq_of_length_le hge]
    · rfl
  · rename_i h0
    rw [List.set_eq_of_length_le (by omega)]

theorem inv_succ {k : Nat} (hk : k ≤ d.m) (h : d.Inv k) : d.Inv (k + 1) := by
  have hw := h.window hk
  obtain ⟨hq, hval, hlen⟩ := hw.digit_spec
  rw [h.window_div hk] at hq
  have heq : divideLoop d.Q d.A d.B (k + 1) = divideStep d.divisor (d.m - k) (divideLoop d.Q d.A d.B k) := rfl
  rw [divideStep_eq] at heq
  have hj : d.m + 1 - (k + 1) = d.m - k := by omega
  refine ⟨by rw [heq]; exact hlen.trans h.length_U, ?_, ?_, ?_⟩
  · rw [heq, hval, h.value_U, hj]
    refine Nat.mod_mod_of_dvd _ (Nat.mul_dvd_mul_right ?_ _)
    exact Nat.pow_dvd_pow 2 (Nat.mul_le_mul_left _ (by omega))
  · rw [heq, List.length_set, h.length_Q]
  · intro i hi hlow hm
    rw [heq, digit, List.getD_eq_getElem _ _ (by rw [List.length_set, h.length_Q]; exact hi), List.getElem_set]
    split
    · rename_i hij
      rw [← hij]; exact hq
    · rename_i hij
      rw [← List.getD_eq_getElem _ 0#w]
      exact h.digit_Q i hi (by omega) hm

theorem inv (k : Nat) (hk : k ≤ d.m + 1) : d.Inv k := by
  induction k with
  | zero => exact d.inv_zero
  | succ k ih => exact d.inv_succ (by omega) (ih (by omega))

/-- `QLengthOK` leaves room for the quotient. -/
theorem quotient_lt (hQ : d.Q.length ≠ 0) : value d.A / value d.B < 2 ^ (w * d.Q.length) := by
  have hok := d.qLength.resolve_left hQ
  rw [Nat.div_lt_iff_lt_mul d.value_B_pos]
  unfold qLengthOK at hok
  split at hok
  · have hle : d.m + 1 ≤ d.Q.length := by simpa [m] using hok
    calc value d.A < 2 ^ (w * (d.m + 1)) * value d.B := d.value_A_lt
      _ ≤ 2 ^ (w * d.Q.length) * value d.B :=
        Nat.mul_le_mul_right _ (Nat.pow_le_pow_right (by norm_num) (Nat.mul_le_mul_left _ hle))
  · rename_i hge
    have hle : d.m ≤ d.Q.length := by simpa [m] using hok
    have htop : value (d.A.drop d.m) < value d.B := by
      rw [greaterThanOrEqual_iff, Nat.not_le, slice, List.take_of_length_le (by rw [List.length_drop]; omega)] at hge
      exact hge
    rw [value_drop, Nat.div_lt_iff_lt_mul (by positivity), Nat.mul_comm] at htop
    exact lt_of_lt_of_le htop
      (Nat.mul_le_mul_right _ (Nat.pow_le_pow_right (by norm_num) (Nat.mul_le_mul_left _ hle)))

/-- Above the quotient there are no digits. -/
theorem quotientDigit_eq_zero {i : Nat} (h : value d.A / value d.B < 2 ^ (w * i)) : d.quotientDigit i = 0 := by
  rw [quotientDigit, Nat.div_eq_of_lt h, Nat.zero_mod]

/-- `Q` as the loop leaves it, with the digits above `m` cleared. -/
theorem divideSchoolbook_fst : (divideSchoolbook d.Q d.R d.A d.B).1 =
    (divideLoop d.Q d.A d.B (d.m + 1)).Q.take (d.m + 1) ++
      List.replicate ((divideLoop d.Q d.A d.B (d.m + 1)).Q.length - (d.m + 1)) 0#w := rfl

theorem length_quotient : (divideSchoolbook d.Q d.R d.A d.B).1.length = d.Q.length := by
  have h := (d.inv (d.m + 1) le_rfl).length_Q
  rw [divideSchoolbook_fst, List.length_append, List.length_take, List.length_replicate]
  omega

theorem digit_quotient {i : Nat} (hi : i < d.Q.length) :
    (digit (divideSchoolbook d.Q d.R d.A d.B).1 i).toNat = d.quotientDigit i := by
  have hinv := d.inv (d.m + 1) le_rfl
  have hlQ := hinv.length_Q
  rw [divideSchoolbook_fst, digit]
  rcases Nat.lt_or_ge i (d.m + 1) with hlt | hge
  · rw [List.getD_append _ _ _ _ (by rw [List.length_take]; omega), ← hinv.digit_Q i hi (by omega) (by omega), digit,
      List.getD_eq_getElem _ _ (by rw [List.length_take]; omega), List.getElem_take,
      List.getD_eq_getElem _ _ (by omega)]
  · have hlt : value d.A / value d.B < 2 ^ (w * i) := by
      rw [Nat.div_lt_iff_lt_mul d.value_B_pos]
      exact lt_of_lt_of_le d.value_A_lt
        (Nat.mul_le_mul_right _ (Nat.pow_le_pow_right (by norm_num) (Nat.mul_le_mul_left _ hge)))
    rw [d.quotientDigit_eq_zero hlt, List.getD_append_right _ _ _ _ (by rw [List.length_take]; omega),
      List.getD_eq_getElem?_getD]
    simp

/-- `Q` receives the quotient. -/
theorem value_quotient (hQ : d.Q.length ≠ 0) :
    value (divideSchoolbook d.Q d.R d.A d.B).1 = value d.A / value d.B := by
  have hlen := d.length_quotient
  rw [value_eq_mod (N := value d.A / value d.B) (fun i hi => d.digit_quotient (hlen ▸ hi)), hlen,
    Nat.mod_eq_of_lt (d.quotient_lt hQ)]

/-- `R` receives the remainder. -/
theorem value_remainder (hR : d.R.length ≠ 0) :
    value (divideSchoolbook d.Q d.R d.A d.B).2 = value d.A % value d.B ∧
      (divideSchoolbook d.Q d.R d.A d.B).2.length = d.R.length := by
  have hinv := d.inv (d.m + 1) le_rfl
  have hU : value (divideLoop d.Q d.A d.B (d.m + 1)).U = 2 ^ (shiftedDigits d.B).2 * (value d.A % value d.B) := by
    rw [hinv.value_U, Nat.sub_self, d.value_divisor, Nat.mul_zero, Nat.pow_zero, Nat.one_mul, Nat.mul_mod_mul_left]
  have hfit : value (divideLoop d.Q d.A d.B (d.m + 1)).U < 2 ^ (w * d.R.length) := by
    have hrem := Nat.mod_lt (value d.A) d.value_B_pos
    have hRB := d.rLength.resolve_left hR
    calc value (divideLoop d.Q d.A d.B (d.m + 1)).U
        = 2 ^ (shiftedDigits d.B).2 * (value d.A % value d.B) := hU
      _ < 2 ^ (shiftedDigits d.B).2 * value d.B := Nat.mul_lt_mul_of_pos_left hrem (by positivity)
      _ = value d.divisor := d.value_divisor.symm
      _ < 2 ^ (w * d.divisor.length) := value_lt _
      _ ≤ 2 ^ (w * d.R.length) := by
          rw [d.length_divisor]
          exact Nat.pow_le_pow_right (by norm_num) (Nat.mul_le_mul_left _ hRB)
  obtain ⟨hval, hlen⟩ := DivHelpers.rightShift_spec d.R.length _ d.shift_lt hfit
  rw [hU, Nat.mul_div_cancel_left _ (by positivity)] at hval
  simp only [divideSchoolbook, if_pos hR]
  exact ⟨hval, hlen⟩

/-- `DivideSchoolbook` divides: `Q` and `R` receive the Euclidean quotient and remainder. In every
iteration `digit_div` is called with a high digit below the divisor, the estimate is the quotient digit
or one more, and a quotient digit that `Q` has no room for is zero. -/
theorem divideSchoolbook_spec (d : DivisionInput w) :
    let r := divideSchoolbook d.Q d.R d.A d.B
    (r.1.length = d.Q.length ∧ r.2.length = d.R.length) ∧
      (d.Q.length ≠ 0 → value r.1 = value d.A / value d.B) ∧
      (d.R.length ≠ 0 → value r.2 = value d.A % value d.B) ∧
      (d.Q.length ≠ 0 → d.R.length ≠ 0 →
        value d.A = value r.1 * value d.B + value r.2 ∧ value r.2 < value d.B) ∧
      ∀ j ≤ d.m,
        let U := (d.entry j).U
        let qhat := estimateDigit d.divisor U j
        (digit U (j + d.B.length) ≠ digit d.divisor (d.B.length - 1) →
          digit U (j + d.B.length) < digit d.divisor (d.B.length - 1)) ∧
        (d.quotientDigit j ≤ qhat.toNat ∧ qhat.toNat ≤ d.quotientDigit j + 1) ∧
        (d.Q.length ≠ 0 → d.Q.length ≤ j → (subtractDigit d.divisor U j qhat).2 = 0#w) := by
  intro r
  refine ⟨⟨d.length_quotient, ?_⟩, d.value_quotient, fun hR => (d.value_remainder hR).1, ?_, ?_⟩
  · by_cases hR : d.R.length = 0
    · simp only [r, divideSchoolbook, hR, ne_eq, not_true_eq_false, if_false]
    · exact (d.value_remainder hR).2
  · intro hQ hR
    rw [d.value_quotient hQ, (d.value_remainder hR).1]
    exact ⟨(Nat.div_add_mod' _ _).symm, Nat.mod_lt _ d.value_B_pos⟩
  · intro j hj U qhat
    have hinv := d.inv (d.m - j) (by omega)
    have hw := hinv.window (Nat.sub_le _ _)
    have hdiv := hinv.window_div (Nat.sub_le _ _)
    rw [Nat.sub_sub_self hj] at hw hdiv
    have hest := hw.estimateDigit_spec
    rw [hdiv] at hest
    refine ⟨fun hne => ?_, hest, fun hQ hle => ?_⟩
    · have hle := hw.top_le
      rw [d.length_divisor] at hle
      exact lt_of_le_of_ne hle (fun he => hne (BitVec.toNat_inj.1 he))
    · have hq := hw.digit_spec.1
      rw [hdiv, d.quotientDigit_eq_zero] at hq
      · exact BitVec.toNat_inj.1 (by rw [BitVec.toNat_ofNat]; exact hq)
      · exact lt_of_lt_of_le (d.quotient_lt hQ) (Nat.pow_le_pow_right (by norm_num) (Nat.mul_le_mul_left _ hle))

/-- `2^128` divided by `2^64 + 1`. -/
theorem divideSchoolbook_spec_three_digits :
    value (divideSchoolbook [0#64] [0#64, 0#64] [0#64, 0#64, 1#64] [1#64, 1#64]).1 =
        value [0#64, 0#64, 1#64] / value [1#64, 1#64] ∧
      value (divideSchoolbook [0#64] [0#64, 0#64] [0#64, 0#64, 1#64] [1#64, 1#64]).2 =
        value [0#64, 0#64, 1#64] % value [1#64, 1#64] := by
  obtain ⟨-, hq, hr, -⟩ := divideSchoolbook_spec {
    Q := [0#64]
    R := [0#64, 0#64]
    A := [0#64, 0#64, 1#64]
    B := [1#64, 1#64]
    two_le := by decide
    msd_ne_zero := by decide
    length_le := by decide
    qLength := .inr (by decide)
    rLength := .inr (by decide) }
  exact ⟨hq (by decide), hr (by decide)⟩

end DivisionInput

end V8Core.Bigint
