import V8Core.Objects.BigInt
/-!
# Bitwise operations on BigInts

`BigInt::BitwiseAnd`, `BitwiseOr`, `BitwiseXor` and `BitwiseNot`. Each picks the
routine for its operands' signs and allocates that routine's result length.
Where the length can exceed the limit the allocation may throw, and then it
throws for every pair of operands of that length, whether or not the result
would fit.
-/

open Radix V8Core.Bigint

namespace V8Core.Objects

variable {t : Target}

open MutableBigInt (new new_finish checked_finish new_tooBig)

/-! ## The operations -/

def BigInt.bitwiseAnd (x y : BigInt t) : Except Fault (BigInt t) :=
  if !x.sign && !y.sign then do
    let resultLength := bitwiseAndPosPosResultLength x.length y.length
    let result ← toHandleChecked (new resultLength)
    result.finish false (bitwiseAndPosPos resultLength x.digits y.digits)
  else if x.sign && y.sign then do
    let resultLength := bitwiseAndNegNegResultLength x.length y.length
    let result ← new resultLength
    result.finish true (bitwiseAndNegNeg resultLength x.digits y.digits)
  else do
    let (x, y) := if x.sign then (y, x) else (x, y)
    let resultLength := bitwiseAndPosNegResultLength x.length
    let result ← toHandleChecked (new resultLength)
    result.finish false (bitwiseAndPosNeg resultLength x.digits y.digits)

def BigInt.bitwiseXor (x y : BigInt t) : Except Fault (BigInt t) :=
  if !x.sign && !y.sign then do
    let resultLength := bitwiseXorPosPosResultLength x.length y.length
    let result ← toHandleChecked (new resultLength)
    result.finish false (bitwiseXorPosPos resultLength x.digits y.digits)
  else if x.sign && y.sign then do
    let resultLength := bitwiseXorNegNegResultLength x.length y.length
    let result ← toHandleChecked (new resultLength)
    result.finish false (bitwiseXorNegNeg resultLength x.digits y.digits)
  else do
    let (x, y) := if x.sign then (y, x) else (x, y)
    let resultLength := bitwiseXorPosNegResultLength x.length y.length
    let result ← new resultLength
    result.finish true (bitwiseXorPosNeg resultLength x.digits y.digits)

def BigInt.bitwiseOr (x y : BigInt t) : Except Fault (BigInt t) := do
  let resultLength := bitwiseOrResultLength x.length y.length
  let result ← toHandleChecked (new resultLength)
  if !x.sign && !y.sign then
    result.finish false (bitwiseOrPosPos resultLength x.digits y.digits)
  else if x.sign && y.sign then
    result.finish true (bitwiseOrNegNeg resultLength x.digits y.digits)
  else
    let (x, y) := if x.sign then (y, x) else (x, y)
    result.finish true (bitwiseOrPosNeg resultLength x.digits y.digits)

/-- `AbsoluteAddOne(x, sign)`. -/
def MutableBigInt.absoluteAddOne (x : BigInt t) (sign : Bool) : Except Fault (MutableBigInt t) := do
  -- the addition overflows into a new digit if all existing digits are at maximum
  let willOverflow := x.digits.all digitIsMax
  let resultLength := x.length + if willOverflow then 1 else 0
  let result ← new resultLength
  let result ← result.writeDigits
    (if x.length = 0 then [1#t.kDigitBits]
      else if x.length = 1 && !willOverflow then [digit x.digits 0 + 1#t.kDigitBits]
      else addOne resultLength x.digits)
  return result.setSign sign

/-- `AbsoluteSubOne(x)`, for `x` not zero. -/
def MutableBigInt.absoluteSubOne (x : BigInt t) : Except Fault (MutableBigInt t) := do
  let result ← toHandleChecked (new x.length)
  result.writeDigits
    (if x.length = 1 then [digit x.digits 0 - 1#t.kDigitBits] else subtractOne x.length x.digits)

def BigInt.bitwiseNot (x : BigInt t) : Except Fault (BigInt t) := do
  if x.sign then
    -- ~(-x) == ~(~(x-1)) == x-1
    let result ← MutableBigInt.absoluteSubOne x
    result.makeImmutable
  else
    -- ~x == -x-1 == -(x+1)
    let result ← MutableBigInt.absoluteAddOne x true
    result.makeImmutable

/-! ## And, or, xor -/

variable (x y : BigInt t)

theorem BigInt.max_length_le : max x.length y.length ≤ kMaxLength t :=
  max_le x.length_le y.length_le

theorem BigInt.max_length_pos (h : x.sign = true ∨ y.sign = true) : max x.length y.length ≠ 0 := by
  unfold BigInt.length
  rcases h with h | h
  · have := length_pos_of_value_pos (x.value_pos_of_sign h); omega
  · have := length_pos_of_value_pos (y.value_pos_of_sign h); omega

/-- Both operands negative is the only case in which the result may be longer
than the operands. -/
theorem BigInt.bitwiseAnd_spec :
    if x.sign ∧ y.sign ∧ max x.length y.length = kMaxLength t then x.bitwiseAnd y = .error .rangeError
    else Returns (x.bitwiseAnd y) (Int.land x.toInt y.toInt) := by
  have hw := t.kDigitBits_pos
  have hmax := x.max_length_le y
  unfold bitwiseAnd toInt
  cases hsx : x.sign <;> cases hsy : y.sign <;> simp only [true_and]
  · exact checked_finish (bitwiseAndPosPos_spec x.digits y.digits) (le_trans (min_le_left _ _) x.length_le)
      (fun _ => rfl)
  · exact checked_finish (bitwiseAndPosNeg_spec hw x.digits y.digits (y.value_pos_of_sign hsy)) x.length_le
      (fun _ => rfl)
  · rw [int_land_comm]
    exact checked_finish (bitwiseAndPosNeg_spec hw y.digits x.digits (x.value_pos_of_sign hsx)) y.length_le
      (fun _ => rfl)
  · split
    · rename_i h; exact new_tooBig (show kMaxLength t < max x.length y.length + 1 by omega) _
    · exact new_finish (bitwiseAndNegNeg_spec hw x.digits y.digits (x.value_pos_of_sign hsx)
        (y.value_pos_of_sign hsy)) (show max x.length y.length + 1 ≤ kMaxLength t by omega) (fun h => absurd h (Nat.succ_ne_zero _))

theorem BigInt.bitwiseOr_spec : Returns (x.bitwiseOr y) (Int.lor x.toInt y.toInt) := by
  have hw := t.kDigitBits_pos
  have hmax := x.max_length_le y
  have hpos := x.max_length_pos y
  unfold bitwiseOr toInt
  cases hsx : x.sign <;> cases hsy : y.sign <;> simp only
  · exact checked_finish (bitwiseOrPosPos_spec x.digits y.digits) hmax (fun _ => rfl)
  · exact checked_finish (bitwiseOrPosNeg_spec hw x.digits y.digits (y.value_pos_of_sign hsy)) hmax
      (fun h => absurd h (hpos (.inr hsy)))
  · rw [int_lor_comm, bitwiseOrResultLength, Nat.max_comm] at *
    exact checked_finish (bitwiseOrPosNeg_spec hw y.digits x.digits (x.value_pos_of_sign hsx)) hmax
      (fun h => absurd h (hpos (.inl hsx)))
  · exact checked_finish (bitwiseOrNegNeg_spec hw x.digits y.digits (x.value_pos_of_sign hsx)
      (y.value_pos_of_sign hsy)) hmax (fun h => absurd h (hpos (.inl hsx)))

/-- Operands of different signs are the only case in which the result may be
longer than the operands. -/
theorem BigInt.bitwiseXor_spec :
    if x.sign ≠ y.sign ∧ max x.length y.length = kMaxLength t then x.bitwiseXor y = .error .rangeError
    else Returns (x.bitwiseXor y) (Int.xor x.toInt y.toInt) := by
  have hw := t.kDigitBits_pos
  have hmax := x.max_length_le y
  unfold bitwiseXor toInt
  cases hsx : x.sign <;> cases hsy : y.sign <;> simp only [Bool.false_eq_true, ne_eq, not_false_eq_true, true_and,
    Bool.true_eq_false]
  · exact checked_finish (bitwiseXorPosPos_spec x.digits y.digits) hmax (fun _ => rfl)
  · split
    · rename_i h; exact new_tooBig (show kMaxLength t < max x.length y.length + 1 by omega) _
    · exact new_finish (bitwiseXorPosNeg_spec hw x.digits y.digits (y.value_pos_of_sign hsy))
        (show max x.length y.length + 1 ≤ kMaxLength t by omega) (fun h => absurd h (Nat.succ_ne_zero _))
  · rw [int_xor_comm]
    split
    · rename_i h; exact new_tooBig (show kMaxLength t < max y.length x.length + 1 by omega) _
    · exact new_finish (bitwiseXorPosNeg_spec hw y.digits x.digits (x.value_pos_of_sign hsx))
        (show max y.length x.length + 1 ≤ kMaxLength t by omega) (fun h => absurd h (Nat.succ_ne_zero _))
  · exact checked_finish (bitwiseXorNegNeg_spec hw x.digits y.digits (x.value_pos_of_sign hsx)
      (y.value_pos_of_sign hsy)) hmax (fun _ => rfl)

/-! ## Not -/

/-- The digits `AbsoluteAddOne` writes. -/
theorem addOne_digits_spec : let willOverflow := x.digits.all digitIsMax
    let resultLength := x.length + if willOverflow then 1 else 0
    let Z := if x.length = 0 then [1#t.kDigitBits]
      else if x.length = 1 && !willOverflow then [digit x.digits 0 + 1#t.kDigitBits]
      else addOne resultLength x.digits
    value Z = value x.digits + 1 ∧ Z.length = resultLength := by
  intro willOverflow resultLength Z
  have hw := t.kDigitBits_pos
  have hX := value_lt x.digits
  by_cases h0 : x.length = 0
  · have hnil : x.digits = [] := List.length_eq_zero_iff.1 h0
    have hof : willOverflow = true := by simp [willOverflow, hnil]
    simp only [Z, resultLength, hof, hnil, h0]
    simp [toNat_one hw]
  · by_cases h1 : (x.length = 1 && !willOverflow) = true
    · simp only [Z, resultLength, if_neg h0, if_pos h1]
      simp only [Bool.and_eq_true, decide_eq_true_eq, Bool.not_eq_true'] at h1
      obtain ⟨d, hd⟩ := List.length_eq_one_iff.1 h1.1
      have hof := all_digitIsMax_iff x.digits
      rw [show x.digits.all digitIsMax = false from h1.2] at hof
      simp only [hd, Bool.false_eq_true, value_cons, value_nil, List.length_singleton, Nat.mul_one, false_iff] at hof
      rw [hd, h1.1, h1.2]
      simp only [digit, List.getD_cons_zero, value_cons, value_nil, Nat.mul_zero, Nat.add_zero, BitVec.toNat_add,
        toNat_one hw]
      exact ⟨Nat.mod_eq_of_lt (by omega), rfl⟩
    · simp only [Z, if_neg h0, if_neg h1]
      have hof := all_digitIsMax_iff x.digits
      refine addOne_spec hw resultLength x.digits (Nat.le_add_right _ _) ?_
      by_cases ho : willOverflow = true
      · simp only [resultLength, if_pos ho]
        exact value_succ_lt hw rfl
      · have hne := hof.not.1 ho
        simp only [resultLength, if_neg ho, Nat.add_zero, BigInt.length]
        omega

theorem subOne_digits_spec (h : x.digits ≠ []) :
    let Z := if x.length = 1 then [digit x.digits 0 - 1#t.kDigitBits] else subtractOne x.length x.digits
    value Z + 1 = value x.digits ∧ Z.length = x.length := by
  intro Z
  have hw := t.kDigitBits_pos
  have hpos := x.value_pos h
  by_cases h1 : x.length = 1
  · obtain ⟨d, hd⟩ := List.length_eq_one_iff.1 h1
    simp only [Z, if_pos h1, h1]
    rw [hd] at hpos ⊢
    simp only [value_cons, value_nil] at hpos
    have hle : 1#t.kDigitBits ≤ d := by rw [BitVec.le_def, toNat_one hw]; exact hpos
    simp only [digit, List.getD_cons_zero, value_cons, BitVec.toNat_sub_of_le hle, toNat_one hw]
    exact ⟨by omega, rfl⟩
  · simp only [Z, if_neg h1]
    exact subtractOne_spec hw x.length x.digits (le_refl _) hpos

/-- `AbsoluteAddOne` needs more than `kMaxLength` digits only for the largest BigInt. -/
theorem addOne_tooLong_iff :
    kMaxLength t < x.length + (if x.digits.all digitIsMax then 1 else 0) ↔
      value x.digits + 1 = 2 ^ kMaxLengthBits := by
  have hX := value_lt x.digits
  have hle := x.length_le
  have hall := all_digitIsMax_iff x.digits
  rw [← kMaxLength_mul t, BigInt.length]
  constructor
  · intro h
    split at h
    · rename_i hm
      rw [hall.1 hm, show x.digits.length = kMaxLength t by omega]
    · omega
  · intro h
    have hlen : x.digits.length = kMaxLength t := by
      rcases Nat.lt_or_ge x.digits.length (kMaxLength t) with hlt | hge
      · have : 2 ^ (t.kDigitBits * x.digits.length) < 2 ^ (t.kDigitBits * kMaxLength t) :=
          Nat.pow_lt_pow_right (by norm_num) (Nat.mul_lt_mul_of_pos_left hlt t.kDigitBits_pos)
        omega
      · omega
    rw [if_pos (hall.2 (by rw [h, hlen]))]
    omega

theorem absoluteSubOne_spec (h : x.digits ≠ []) :
    ∃ result, MutableBigInt.absoluteSubOne x = .ok result ∧ result.sign = false ∧
      value result.digits + 1 = value x.digits := by
  obtain ⟨h1, h2⟩ := subOne_digits_spec x h
  have hmax : x.length ≤ kMaxLength t := x.length_le
  refine ⟨⟨false, _, h2.trans_le hmax⟩, ?_, rfl, h1⟩
  rw [MutableBigInt.absoluteSubOne, MutableBigInt.toHandleChecked_new hmax]
  exact MutableBigInt.new_writeDigits h2 hmax

theorem absoluteAddOne_spec (sign : Bool) :
    if value x.digits + 1 = 2 ^ kMaxLengthBits then MutableBigInt.absoluteAddOne x sign = .error .rangeError
    else ∃ result, MutableBigInt.absoluteAddOne x sign = .ok result ∧ result.sign = sign ∧
      value result.digits = value x.digits + 1 := by
  obtain ⟨h1, h2⟩ := addOne_digits_spec x
  have hlong := addOne_tooLong_iff x
  split
  · rename_i hbig
    exact new_tooBig (hlong.2 hbig) _
  · rename_i hbig
    have hmax := Nat.le_of_not_lt (hlong.not.2 hbig)
    refine ⟨MutableBigInt.setSign ⟨false, _, h2.trans_le hmax⟩ sign, ?_, rfl, h1⟩
    rw [MutableBigInt.absoluteAddOne, ← bind_assoc, MutableBigInt.new_writeDigits h2 hmax]
    rfl

/-- `~x` needs a new digit only for the largest BigInt. -/
theorem BigInt.bitwiseNot_spec :
    if x.toInt = 2 ^ kMaxLengthBits - 1 then x.bitwiseNot = .error .rangeError
    else Returns x.bitwiseNot (Int.lnot x.toInt) := by
  unfold bitwiseNot
  cases hs : x.sign with
  | true =>
    have hne : x.toInt ≠ 2 ^ kMaxLengthBits - 1 := by
      have h1 := x.toInt_neg_iff.2 hs
      have h2 : (0 : ℤ) < 2 ^ kMaxLengthBits := by positivity
      omega
    have hd : x.digits ≠ [] := fun h0 => by simp [x.sign_of_zero h0] at hs
    obtain ⟨result, h1, h2, h3⟩ := absoluteSubOne_spec x hd
    rw [if_neg hne, h1, toInt, hs, signedValue_true h3.symm]
    have h := result.makeImmutable_returns (fun _ => h2)
    rwa [h2] at h
  | false =>
    have hiff : x.toInt = 2 ^ kMaxLengthBits - 1 ↔ value x.digits + 1 = 2 ^ kMaxLengthBits := by
      rw [toInt, hs, signedValue_false]
      zify
      constructor <;> intro h <;> linarith
    have h := absoluteAddOne_spec x true
    simp only [hiff]
    split at h
    · rename_i hbig
      rw [if_pos hbig, h]; rfl
    · rename_i hbig
      obtain ⟨result, h1, h2, h3⟩ := h
      rw [if_neg hbig, h1, toInt, hs]
      have h := result.makeImmutable_returns (fun h0 => by rw [h0] at h3; simp at h3)
      rwa [h2, signedValue_true h3] at h

/-! ## All bitwise operations -/

/-- A routine fills its output of `zlen` digits, which then stands for `v`
under the sign its caller sets. -/
def Fills {w : Nat} (Z : List (BitVec w)) (zlen : Nat) (negative : Bool) (v : ℤ) : Prop :=
  signedValue negative Z = v ∧ Z.length = zlen

/-- Every routine is exact on an output of its result length, for operands of
any lengths, and every operation returns the two's complement result, except
that "and" of two negative operands, "xor" of operands of different signs and
"not" of the largest BigInt throw when the length they allocate for the worst
case is over the limit. -/
theorem bitwise_exact_or_tooBig (t : Target) :
    (∀ X Y : List (BitVec t.kDigitBits),
      Fills (bitwiseAndPosPos (bitwiseAndPosPosResultLength X.length Y.length) X Y)
        (bitwiseAndPosPosResultLength X.length Y.length) false (Int.land (value X) (value Y)) ∧
      Fills (bitwiseOrPosPos (bitwiseOrResultLength X.length Y.length) X Y)
        (bitwiseOrResultLength X.length Y.length) false (Int.lor (value X) (value Y)) ∧
      Fills (bitwiseXorPosPos (bitwiseXorPosPosResultLength X.length Y.length) X Y)
        (bitwiseXorPosPosResultLength X.length Y.length) false (Int.xor (value X) (value Y))) ∧
    (∀ X Y : List (BitVec t.kDigitBits), 0 < value Y →
      Fills (bitwiseAndPosNeg (bitwiseAndPosNegResultLength X.length) X Y)
        (bitwiseAndPosNegResultLength X.length) false (Int.land (value X) (-value Y)) ∧
      Fills (bitwiseOrPosNeg (bitwiseOrResultLength X.length Y.length) X Y)
        (bitwiseOrResultLength X.length Y.length) true (Int.lor (value X) (-value Y)) ∧
      Fills (bitwiseXorPosNeg (bitwiseXorPosNegResultLength X.length Y.length) X Y)
        (bitwiseXorPosNegResultLength X.length Y.length) true (Int.xor (value X) (-value Y))) ∧
    (∀ X Y : List (BitVec t.kDigitBits), 0 < value X → 0 < value Y →
      Fills (bitwiseAndNegNeg (bitwiseAndNegNegResultLength X.length Y.length) X Y)
        (bitwiseAndNegNegResultLength X.length Y.length) true (Int.land (-value X) (-value Y)) ∧
      Fills (bitwiseOrNegNeg (bitwiseOrResultLength X.length Y.length) X Y)
        (bitwiseOrResultLength X.length Y.length) true (Int.lor (-value X) (-value Y)) ∧
      Fills (bitwiseXorNegNeg (bitwiseXorNegNegResultLength X.length Y.length) X Y)
        (bitwiseXorNegNegResultLength X.length Y.length) false (Int.xor (-value X) (-value Y))) ∧
    ∀ x y : BigInt t,
      (if x.sign ∧ y.sign ∧ max x.length y.length = kMaxLength t then x.bitwiseAnd y = .error .rangeError
        else Returns (x.bitwiseAnd y) (Int.land x.toInt y.toInt)) ∧
      Returns (x.bitwiseOr y) (Int.lor x.toInt y.toInt) ∧
      (if x.sign ≠ y.sign ∧ max x.length y.length = kMaxLength t then x.bitwiseXor y = .error .rangeError
        else Returns (x.bitwiseXor y) (Int.xor x.toInt y.toInt)) ∧
      (if x.toInt = 2 ^ kMaxLengthBits - 1 then x.bitwiseNot = .error .rangeError
        else Returns x.bitwiseNot (Int.lnot x.toInt)) := by
  have hw := t.kDigitBits_pos
  refine ⟨fun X Y => ?_, fun X Y hY => ?_, fun X Y hX hY => ?_, fun x y => ?_⟩
  · exact ⟨bitwiseAndPosPos_spec X Y, bitwiseOrPosPos_spec X Y, bitwiseXorPosPos_spec X Y⟩
  · exact ⟨bitwiseAndPosNeg_spec hw X Y hY, bitwiseOrPosNeg_spec hw X Y hY, bitwiseXorPosNeg_spec hw X Y hY⟩
  · exact ⟨bitwiseAndNegNeg_spec hw X Y hX hY, bitwiseOrNegNeg_spec hw X Y hX hY,
      bitwiseXorNegNeg_spec hw X Y hX hY⟩
  · exact ⟨x.bitwiseAnd_spec y, x.bitwiseOr_spec y, x.bitwiseXor_spec y, x.bitwiseNot_spec⟩

/-- -2 & -3 == -4: the result needs a bit more than the operands. -/
theorem bitwise_exact_or_tooBig_growth :
    Fills (bitwiseAndNegNeg 2 [2#64] [3#64]) 2 true (-4) :=
  ((bitwise_exact_or_tooBig .bits64).2.2.1 [2#64] [3#64] (by decide) (by decide)).1

/-- A BigInt of the maximal length with all bits set. -/
def BigInt.allOnes (t : Target) (sign : Bool) : BigInt t where
  sign := sign
  digits := List.replicate (kMaxLength t) (BitVec.allOnes t.kDigitBits)
  normalized := by
    have hne : BitVec.allOnes t.kDigitBits ≠ 0#t.kDigitBits := by cases t <;> decide
    simpa [IsDigitNormalized, List.getLast?_replicate, (kMaxLength_pos t).ne'] using hne
  sign_of_zero h := absurd h (by simp [(kMaxLength_pos t).ne'])
  length_le := by simp

/-- "and" of the lowest BigInt with itself throws although the result, the
operand itself, fits. -/
theorem bitwiseAnd_lowest_throws :
    (BigInt.allOnes .bits64 true).bitwiseAnd (BigInt.allOnes .bits64 true) = .error .rangeError ∧
      Int.land (BigInt.allOnes .bits64 true).toInt (BigInt.allOnes .bits64 true).toInt =
        (BigInt.allOnes .bits64 true).toInt := by
  have h := (BigInt.allOnes .bits64 true).bitwiseAnd_spec (BigInt.allOnes .bits64 true)
  rw [if_pos ⟨rfl, rfl, by simp [BigInt.length, BigInt.allOnes]⟩] at h
  exact ⟨h, int_land_self _⟩

end V8Core.Objects
