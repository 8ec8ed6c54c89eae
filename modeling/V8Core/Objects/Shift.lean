import V8Core.Bigint.Shift
import V8Core.Objects.BigInt
/-!
# Shifting BigInts

`BigInt::LeftShift` and `BigInt::SignedRightShift`. The shift amount is a BigInt
of any size. One that is over the maximal bit length is cut off first: it makes
every left shift throw and every right shift return 0 or -1.
-/

open Radix V8Core.Bigint

namespace V8Core.Objects

variable {t : Target}

open MutableBigInt (new new_finish checked_finish new_tooBig newFromInt newFromInt_returns)

/-- `ToShiftAmount(x)`: the magnitude of `x` unless it is over the maximal bit length. -/
def MutableBigInt.toShiftAmount (x : BigInt t) : Option Nat :=
  if x.length > 1 then none
  else
    let value := (digit x.digits 0).toNat
    if value > kMaxLengthBits then none else some value

/-- `LeftShiftByAbsolute(x, y)`. -/
def MutableBigInt.leftShiftByAbsolute (x y : BigInt t) : Except Fault (BigInt t) :=
  match toShiftAmount y with
  | none => .error .rangeError
  | some shift =>
    let resultLength := leftShiftResultLength x.length (digit x.digits (x.length - 1)) shift
    if resultLength > kMaxLength t then .error .rangeError
    else do
      let result ← new resultLength
      result.finish x.sign (leftShift resultLength x.digits shift)

/-- `RightShiftByMaximum(sign)`. -/
def MutableBigInt.rightShiftByMaximum (sign : Bool) : Except Fault (BigInt t) :=
  if sign then newFromInt (-1) else .ok (BigInt.zero t)

/-- `RightShiftByAbsolute(x, y)`. -/
def MutableBigInt.rightShiftByAbsolute (x y : BigInt t) : Except Fault (BigInt t) :=
  match toShiftAmount y with
  | none => rightShiftByMaximum x.sign
  | some shift =>
    let (resultLength, mustRoundDown) := rightShiftResultLength x.digits x.sign shift
    if resultLength = 0 then rightShiftByMaximum x.sign
    else do
      let result ← toHandleChecked (new resultLength)
      result.finish x.sign (rightShift resultLength x.digits shift mustRoundDown)

def BigInt.leftShift (x y : BigInt t) : Except Fault (BigInt t) :=
  if y.isZero || x.isZero then .ok x
  else if y.sign then MutableBigInt.rightShiftByAbsolute x y
  else MutableBigInt.leftShiftByAbsolute x y

def BigInt.signedRightShift (x y : BigInt t) : Except Fault (BigInt t) :=
  if y.isZero || x.isZero then .ok x
  else if y.sign then MutableBigInt.leftShiftByAbsolute x y
  else MutableBigInt.rightShiftByAbsolute x y

/-! ## The shift amount -/

variable (x : BigInt t)

theorem two_pow_kDigitBits (t : Target) : kMaxLengthBits < 2 ^ t.kDigitBits := by
  cases t <;> simp [kMaxLengthBits, Target.kDigitBits]

/-- A shift amount is cut off exactly when it is over the maximal bit length. -/
theorem toShiftAmount_eq (h : x.digits ≠ []) :
    MutableBigInt.toShiftAmount x = if value x.digits > kMaxLengthBits then none else some (value x.digits) := by
  unfold MutableBigInt.toShiftAmount BigInt.length
  split
  · rename_i hl
    have h1 := le_value_of_normalized x.normalized h
    have h2 : 2 ^ t.kDigitBits ≤ 2 ^ (t.kDigitBits * (x.digits.length - 1)) :=
      Nat.pow_le_pow_right (by norm_num) (Nat.le_mul_of_pos_right _ (by omega))
    have h3 := two_pow_kDigitBits t
    rw [if_pos (by omega)]
  · rename_i hl
    obtain ⟨d, hd⟩ := List.length_eq_one_iff.1
      (show x.digits.length = 1 by have := List.length_pos_of_ne_nil h; omega)
    simp [hd, digit]

/-! ## Shifting left -/

variable (y : BigInt t)

theorem digit_last (X : List (BitVec t.kDigitBits)) (h : X ≠ []) : digit X (X.length - 1) = msd X := by
  obtain ⟨Y, d, rfl⟩ := (List.eq_nil_or_concat X).resolve_left h
  simp [digit, msd]

theorem leftShiftByAbsolute_spec (hx : x.digits ≠ []) (hy : y.digits ≠ []) :
    if 2 ^ kMaxLengthBits ≤ value x.digits * 2 ^ value y.digits then
      MutableBigInt.leftShiftByAbsolute x y = .error .rangeError
    else Returns (MutableBigInt.leftShiftByAbsolute x y) (x.toInt * 2 ^ value y.digits) := by
  have hxpos := x.value_pos hx
  have hw := t.kDigitBits_pos
  unfold MutableBigInt.leftShiftByAbsolute
  rw [toShiftAmount_eq y hy, BigInt.length, digit_last x.digits hx]
  generalize value y.digits = n
  by_cases hn : n > kMaxLengthBits
  · have h1 : 2 ^ kMaxLengthBits ≤ 2 ^ n := Nat.pow_le_pow_right (by norm_num) (by omega)
    rw [if_pos hn, if_pos (le_trans h1 (Nat.le_mul_of_pos_left _ hxpos))]
  · obtain ⟨h1, h2⟩ := leftShift_spec hw x.digits hx n
    have h3 := le_leftShift_value hw x.digits x.normalized hx n
    have h4 := value_lt (leftShift (leftShiftResultLength x.digits.length (msd x.digits) n) x.digits n)
    rw [h1, h2] at h4
    have hlen := List.length_pos_of_ne_nil hx
    rw [if_neg hn, ← kMaxLength_mul t]
    generalize hz : leftShiftResultLength x.digits.length (msd x.digits) n = zlen at *
    have hzpos : 0 < zlen := by
      rw [← hz, leftShiftResultLength, Nat.add_assoc]; exact Nat.lt_of_lt_of_le hlen (Nat.le_add_right _ _)
    -- the result length is the digit count of the product
    have hiff : zlen > kMaxLength t ↔ 2 ^ (t.kDigitBits * kMaxLength t) ≤ value x.digits * 2 ^ n := by
      constructor
      · intro hlt
        exact le_trans (Nat.pow_le_pow_right (by norm_num) (Nat.mul_le_mul_left _ (by omega))) h3
      · intro hle
        exact Nat.lt_of_mul_lt_mul_left ((Nat.pow_lt_pow_iff_right (by norm_num)).1 (lt_of_le_of_lt hle h4))
    by_cases hfit : 2 ^ (t.kDigitBits * kMaxLength t) ≤ value x.digits * 2 ^ n
    · rw [if_pos hfit]
      simp only [hz, if_pos (hiff.2 hfit)]
    · rw [if_neg hfit]
      simp only [hz, if_neg (hiff.not.2 hfit)]
      refine new_finish ⟨?_, h2⟩ (Nat.le_of_not_lt (hiff.not.2 hfit)) (fun h0 => by omega)
      simp only [BigInt.toInt, signedValue, h1]
      split <;> push_cast <;> ring

/-! ## Shifting right -/

/-- Rounding a negated quotient down. -/
theorem neg_ediv_round (v : Nat) {p : Nat} (hp : 0 < p) :
    -(v : ℤ) / p = -((v / p + if v % p ≠ 0 then 1 else 0 : Nat) : ℤ) := by
  have hdm : (p : ℤ) * (v / p : Nat) + (v % p : Nat) = v := by exact_mod_cast Nat.div_add_mod v p
  have hlt := Nat.mod_lt v hp
  rw [Int.ediv_eq_iff_of_pos (by exact_mod_cast hp)]
  generalize v / p = q at *
  generalize v % p = r at *
  split
  · rename_i h
    have hr : (1 : ℤ) ≤ r := by exact_mod_cast Nat.one_le_iff_ne_zero.2 h
    zify at hlt
    push_cast
    constructor <;> nlinarith
  · rename_i h
    rw [show r = 0 by omega] at hdm
    zify at hp
    push_cast at *
    constructor <;> nlinarith

/-- A number below `2 ^ n` leaves only its sign when shifted by `n`. -/
theorem rightShiftByMaximum_returns {n : Nat} (h : value x.digits < 2 ^ n) :
    Returns (MutableBigInt.rightShiftByMaximum x.sign : Except Fault (BigInt t)) (x.toInt / 2 ^ n) := by
  cases hs : x.sign with
  | true =>
    have hpos := x.value_pos_of_sign hs
    have hv : x.toInt / 2 ^ n = -1 := by
      have hr := neg_ediv_round (value x.digits) (show 0 < 2 ^ n by positivity)
      rw [Nat.div_eq_of_lt h, Nat.mod_eq_of_lt h, if_pos (by omega)] at hr
      rw [BigInt.toInt, hs, signedValue]
      simpa using hr
    have h1 : (-1 : ℤ).natAbs < 2 ^ t.kDigitBits := Nat.one_lt_two_pow t.kDigitBits_pos.ne'
    rw [hv]
    exact newFromInt_returns h1
  | false =>
    refine ⟨_, rfl, ?_⟩
    rw [BigInt.toInt_zero, BigInt.toInt, hs, signedValue_false]
    exact_mod_cast (Nat.div_eq_of_lt h).symm

theorem rightShiftByAbsolute_spec (hy : y.digits ≠ []) :
    Returns (MutableBigInt.rightShiftByAbsolute x y) (x.toInt / 2 ^ value y.digits) := by
  have hw := t.kDigitBits_pos
  unfold MutableBigInt.rightShiftByAbsolute
  rw [toShiftAmount_eq y hy]
  generalize value y.digits = n
  by_cases hn : n > kMaxLengthBits
  · rw [if_pos hn]
    exact rightShiftByMaximum_returns x
      (lt_of_lt_of_le x.value_lt_max (Nat.pow_le_pow_right (by norm_num) (by omega)))
  · rw [if_neg hn]
    rcases Nat.lt_or_ge (n / t.kDigitBits) x.digits.length with hlt | hge
    · obtain ⟨h1, h2⟩ := rightShift_spec hw x.digits x.sign n hlt
      have hr := mustRoundDown_iff hw x.digits x.sign n hlt
      have hmax := le_trans (rightShiftResultLength_le hw x.digits x.sign n) x.length_le
      have hpos : (rightShiftResultLength x.digits x.sign n).1 ≠ 0 := by
        rw [rightShiftResultLength, if_neg (by omega)]
        simp only []; omega
      simp only [if_neg hpos]
      refine checked_finish ⟨?_, h2⟩ hmax (fun h0 => absurd h0 hpos)
      rw [BigInt.toInt, signedValue, h1]
      cases hs : x.sign with
      | true =>
        rw [hs] at hr
        have hround := neg_ediv_round (value x.digits) (show 0 < 2 ^ n by positivity)
        simp only [hr, true_and]
        exact hround.symm
      | false =>
        rw [hs] at hr
        simp [hr, signedValue]
    · have hz : rightShiftResultLength x.digits x.sign n = (0, false) := if_pos hge
      simp only [hz]
      refine rightShiftByMaximum_returns x (lt_of_lt_of_le (value_lt x.digits) (Nat.pow_le_pow_right (by norm_num) ?_))
      exact le_trans (Nat.mul_le_mul_left _ hge) (Nat.mul_div_le _ _)

/-! ## Both shifts -/

theorem floor_mul_two_pow (x : ℤ) (n : ℕ) : ⌊(x : ℚ) * 2 ^ (n : ℤ)⌋ = x * 2 ^ n := by
  rw [zpow_natCast, show (x : ℚ) * 2 ^ n = ((x * 2 ^ n : ℤ) : ℚ) by push_cast; rfl, Int.floor_intCast]

theorem floor_div_two_pow (x : ℤ) (n : ℕ) : ⌊(x : ℚ) * 2 ^ (-(n : ℤ))⌋ = x / 2 ^ n := by
  rw [zpow_neg, zpow_natCast]
  have h := Rat.floor_intCast_div_natCast x (2 ^ n)
  push_cast at h
  exact h

/-- What a shift by `n` (to the left if positive) does to `x`. -/
def ShiftsBy (r : Except Fault (BigInt t)) (x n : ℤ) : Prop :=
  if kMaxLength t < digitCount t ⌊(x : ℚ) * 2 ^ n⌋ then r = .error .rangeError
  else Returns r ⌊(x : ℚ) * 2 ^ n⌋

theorem Returns.digitCount_le {r : Except Fault (BigInt t)} {v : ℤ} (h : Returns r v) :
    ¬ kMaxLength t < digitCount t v := by
  obtain ⟨z, -, rfl⟩ := h
  rw [kMaxLength_lt_digitCount, z.natAbs_toInt]
  exact Nat.not_le.2 z.value_lt_max

theorem leftShiftByAbsolute_shiftsBy (hx : x.digits ≠ []) (hy : y.digits ≠ []) :
    ShiftsBy (MutableBigInt.leftShiftByAbsolute x y) x.toInt (value y.digits) := by
  have h := leftShiftByAbsolute_spec x y hx hy
  have habs : (x.toInt * 2 ^ value y.digits).natAbs = value x.digits * 2 ^ value y.digits := by
    rw [Int.natAbs_mul, x.natAbs_toInt]; rfl
  simp only [ShiftsBy, floor_mul_two_pow, kMaxLength_lt_digitCount, habs]
  exact h

theorem rightShiftByAbsolute_shiftsBy (hy : y.digits ≠ []) :
    ShiftsBy (MutableBigInt.rightShiftByAbsolute x y) x.toInt (-value y.digits) := by
  have h := rightShiftByAbsolute_spec x y hy
  rw [ShiftsBy, floor_div_two_pow, if_neg h.digitCount_le]
  exact h

/-- A shift, with the shortcut for a zero operand. -/
theorem ite_shiftsBy {r : Except Fault (BigInt t)} {n : ℤ} (hn : y.digits = [] → n = 0)
    (h : x.digits ≠ [] → y.digits ≠ [] → ShiftsBy r x.toInt n) :
    ShiftsBy (if y.isZero || x.isZero then .ok x else r) x.toInt n := by
  split
  · rename_i h0
    have hv : ⌊(x.toInt : ℚ) * 2 ^ n⌋ = x.toInt := by
      rcases Bool.or_eq_true_iff.1 h0 with h | h
      · rw [hn (by simpa [BigInt.isZero, BigInt.length] using h)]; simp
      · rw [x.toInt_of_isZero h]; simp
    have hr : Returns (.ok x) x.toInt := ⟨x, rfl, rfl⟩
    rw [ShiftsBy, hv, if_neg hr.digitCount_le]
    exact hr
  · rename_i h0
    simp only [BigInt.isZero, BigInt.length, Bool.or_eq_true, beq_iff_eq, List.length_eq_zero_iff, not_or] at h0
    exact h h0.2 h0.1

theorem BigInt.leftShift_spec : ShiftsBy (x.leftShift y) x.toInt y.toInt := by
  refine ite_shiftsBy x y (fun h => by simp [BigInt.toInt, signedValue, h]) fun hx hy => ?_
  cases hs : y.sign with
  | true => simpa [BigInt.toInt, signedValue, hs] using rightShiftByAbsolute_shiftsBy x y hy
  | false => simpa [BigInt.toInt, signedValue, hs] using leftShiftByAbsolute_shiftsBy x y hx hy

theorem BigInt.signedRightShift_spec : ShiftsBy (x.signedRightShift y) x.toInt (-y.toInt) := by
  refine ite_shiftsBy x y (fun h => by simp [BigInt.toInt, signedValue, h]) fun hx hy => ?_
  cases hs : y.sign with
  | true => simpa [BigInt.toInt, signedValue, hs] using leftShiftByAbsolute_shiftsBy x y hx hy
  | false => simpa [BigInt.toInt, signedValue, hs] using rightShiftByAbsolute_shiftsBy x y hy

/-- Both shifts return the floor of the exact result, or throw exactly when it
has too many digits. `RightShift_ResultLength` reserves a digit for the
rounding increment exactly when one is due, whole digits are shifted out and
the top digit is at maximum; the digit is left in the result exactly when the
increment overflows. -/
theorem shifts_floor_or_tooBig (t : Target) :
    (∀ x y : BigInt t, ShiftsBy (x.leftShift y) x.toInt y.toInt ∧ ShiftsBy (x.signedRightShift y) x.toInt (-y.toInt)) ∧
    ∀ (X : List (BitVec t.kDigitBits)) (xSign : Bool) (shift : Nat), shift / t.kDigitBits < X.length →
      let r := rightShiftResultLength X xSign shift
      let n := X.length - shift / t.kDigitBits
      (r.2 = true ↔ xSign = true ∧ value X % 2 ^ shift ≠ 0) ∧
      (r.1 = n + 1 ↔ r.2 = true ∧ shift % t.kDigitBits = 0 ∧ digitIsMax (msd X) = true) ∧
      ((normalize (rightShift r.1 X shift r.2)).length = n + 1 ↔
        r.2 = true ∧ value X / 2 ^ shift + 1 = 2 ^ (t.kDigitBits * n)) := by
  have hw := t.kDigitBits_pos
  refine ⟨fun x y => ⟨x.leftShift_spec y, x.signedRightShift_spec y⟩, fun X xSign shift h => ?_⟩
  refine ⟨mustRoundDown_iff hw X xSign shift h, ?_, rightShift_grows_iff hw X xSign shift h⟩
  rw [rightShiftResultLength, if_neg (Nat.not_le.2 h)]
  simp [and_assoc]

/-- -(2^128 - 2^64 + 1) >> 64 == -2^64: the increment overflows into the reserved digit. -/
theorem shifts_floor_or_tooBig_overflow :
    let r := rightShiftResultLength [1#64, BitVec.allOnes 64] true 64
    r = (2, true) ∧ (normalize (rightShift r.1 [1#64, BitVec.allOnes 64] 64 r.2)).length = 2 :=
  ⟨by decide, ((shifts_floor_or_tooBig .bits64).2 [1#64, BitVec.allOnes 64] true 64 (by decide)).2.2.2
    ⟨by decide, by decide⟩⟩

/-- A digit is reserved for -(5 + 2^64 * (2^64 - 1)) * 2^64 - 1 >> 64 although
the increment of the shifted magnitude does not overflow. -/
theorem rightShift_reserves_without_overflow :
    rightShiftResultLength [1#64, 5#64, BitVec.allOnes 64] true 64 = (3, true) ∧
      value [1#64, 5#64, BitVec.allOnes 64] / 2 ^ 64 + 1 < 2 ^ (64 * 2) := by
  decide

end V8Core.Objects
