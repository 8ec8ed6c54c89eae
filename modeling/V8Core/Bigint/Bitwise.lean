import V8Core.Lib.Bits
import V8Core.Bigint.Vector
/-!
# Bitwise operations on sign and magnitude

The first part of `bitwise.cc`. BigInts are stored as sign and magnitude but
their bitwise operations are those of two's complement numbers, so a negative
operand `-y` is read as `~(y - 1)`: the loops subtract one on the fly, and the
routines with a negative result add one at the end. Each specification says
what a routine leaves in an output of exactly its result length: every digit is
written, nothing is written past the end, and the sign and magnitude stand for
the bitwise operation on the integers.
-/

open Radix

namespace V8Core.Bigint

variable {w : Nat}
variable (zlen : Nat) (X Y : List (BitVec w))

/-! ## The loops -/

/-- `Z[i] = op(digit_sub(X[i], x_borrow, &x_borrow), digit_sub(Y[i], y_borrow, &y_borrow))`,
both borrows starting at one. -/
def bothMinusOne (op : BitVec w → BitVec w → BitVec w) (X Y : List (BitVec w)) :
    List (BitVec w) × BitVec w × BitVec w :=
  chain (fun p b => (op (digitSub p.1 b.1).1 (digitSub p.2 b.2).1, ((digitSub p.1 b.1).2, (digitSub p.2 b.2).2)))
    (X.zip Y) (1#w, 1#w)

/-- `Z[i] = op(X[i], digit_sub(Y[i], borrow, &borrow))`, the borrow starting at one. -/
def rightMinusOne (op : BitVec w → BitVec w → BitVec w) (X Y : List (BitVec w)) : List (BitVec w) × BitVec w :=
  chain (fun p b => (op p.1 (digitSub p.2 b).1, (digitSub p.2 b).2)) (X.zip Y) 1#w

/-- The digits of `X - 1`. -/
def minusOne (X : List (BitVec w)) : List (BitVec w) := (borrowDigits X 1#w).1

@[simp] theorem length_minusOne : (minusOne X).length = X.length := by simp [minusOne, borrowDigits]

theorem value_minusOne (hw : 0 < w) (X : List (BitVec w)) (h : 0 < value X) :
    value (minusOne X) + 1 = value X := by
  have hleaves := borrowDigits_leaves X 1#w (by rw [toNat_one hw])
  have h1 := hleaves.sub_eq
  have h2 := hleaves.carry
  have h3 := value_lt (minusOne X)
  rw [toNat_one hw] at h1
  rw [length_minusOne] at h3
  rcases Nat.eq_zero_or_pos (borrowDigits X 1#w).2.toNat with h0 | h0
  · rw [h0] at h1; simpa [minusOne] using h1
  · rw [show (borrowDigits X 1#w).2.toNat = 1 by omega] at h1
    simp only [minusOne] at h3
    omega

theorem bothMinusOne_eq (op : BitVec w → BitVec w → BitVec w) (X Y : List (BitVec w)) :
    bothMinusOne op X Y = ((minusOne X).zipWith op (minusOne Y),
      (borrowDigits (X.take Y.length) 1#w).2, (borrowDigits (Y.take X.length) 1#w).2) :=
  chain_both op (fun x b => digitSub x b) (fun y b => digitSub y b) X Y 1#w 1#w

theorem rightMinusOne_eq (op : BitVec w → BitVec w → BitVec w) (X Y : List (BitVec w)) :
    rightMinusOne op X Y = (X.zipWith op (minusOne Y), (borrowDigits (Y.take X.length) 1#w).2) :=
  chain_right op (fun y b => digitSub y b) X Y 1#w

/-- A loop that goes on with the borrow of the first `n` digits writes the rest of `X - 1`. -/
theorem borrowDigits_rest (n : Nat) :
    (borrowDigits (X.drop n) (borrowDigits (X.take n) 1#w).2).1 = (minusOne X).drop n :=
  chain_drop (fun x b => digitSub x b) X n 1#w

/-! ## And -/

def bitwiseAndPosPosResultLength (xLength yLength : Nat) : Nat := min xLength yLength

/-- Result length growth example: -2 & -3 = -4. -/
def bitwiseAndNegNegResultLength (xLength yLength : Nat) : Nat := max xLength yLength + 1

def bitwiseAndPosNegResultLength (xLength : Nat) : Nat := xLength

/-- `BitwiseAnd_PosPos(Z, X, Y)`. -/
def bitwiseAndPosPos (zlen : Nat) (X Y : List (BitVec w)) : List (BitVec w) :=
  padTo zlen (X.zipWith (· &&& ·) Y)

/-- `BitwiseAnd_NegNeg(Z, X, Y)`: `(-x) & (-y) == -(((x-1) | (y-1)) + 1)`. -/
def bitwiseAndNegNeg (zlen : Nat) (X Y : List (BitVec w)) : List (BitVec w) :=
  let pairs := bothMinusOne (· ||| ·) X Y
  -- at least one of the next two loops performs no iteration
  let restX := borrowDigits (X.drop Y.length) pairs.2.1
  let restY := borrowDigits (Y.drop X.length) pairs.2.2
  addDigit (padTo zlen (pairs.1 ++ restX.1 ++ restY.1)) 1#w

/-- `BitwiseAnd_PosNeg(Z, X, Y)`: `x & (-y) == x & ~(y-1)`. -/
def bitwiseAndPosNeg (zlen : Nat) (X Y : List (BitVec w)) : List (BitVec w) :=
  padTo zlen ((rightMinusOne (fun x y => x &&& ~~~y) X Y).1 ++ X.drop Y.length)

/-! ## Or -/

def bitwiseOrResultLength (xLength yLength : Nat) : Nat := max xLength yLength

/-- `BitwiseOr_PosPos(Z, X, Y)`. -/
def bitwiseOrPosPos (zlen : Nat) (X Y : List (BitVec w)) : List (BitVec w) :=
  padTo zlen (X.zipWith (· ||| ·) Y ++ X.drop Y.length ++ Y.drop X.length)

/-- `BitwiseOr_NegNeg(Z, X, Y)`: `(-x) | (-y) == -(((x-1) & (y-1)) + 1)`. -/
def bitwiseOrNegNeg (zlen : Nat) (X Y : List (BitVec w)) : List (BitVec w) :=
  -- any leftover borrows do not matter, the "and" would drop them anyway
  addDigit (padTo zlen (bothMinusOne (· &&& ·) X Y).1) 1#w

/-- `BitwiseOr_PosNeg(Z, X, Y)`: `x | (-y) == -(((y-1) &~ x) + 1)`. -/
def bitwiseOrPosNeg (zlen : Nat) (X Y : List (BitVec w)) : List (BitVec w) :=
  let pairs := rightMinusOne (fun x y => y &&& ~~~x) X Y
  let restY := borrowDigits (Y.drop X.length) pairs.2
  addDigit (padTo zlen (pairs.1 ++ restY.1)) 1#w

/-! ## Xor -/

def bitwiseXorPosPosResultLength (xLength yLength : Nat) : Nat := max xLength yLength

def bitwiseXorNegNegResultLength (xLength yLength : Nat) : Nat := max xLength yLength

/-- Result length growth example: 3 ^ -1 == -4. -/
def bitwiseXorPosNegResultLength (xLength yLength : Nat) : Nat := max xLength yLength + 1

/-- `BitwiseXor_PosPos(Z, X, Y)`, which makes `X` the shorter operand first. -/
def bitwiseXorPosPos (zlen : Nat) (X Y : List (BitVec w)) : List (BitVec w) :=
  let (X, Y) := if Y.length < X.length then (Y, X) else (X, Y)
  padTo zlen (X.zipWith (· ^^^ ·) Y ++ Y.drop X.length)

/-- `BitwiseXor_NegNeg(Z, X, Y)`: `(-x) ^ (-y) == (x-1) ^ (y-1)`. -/
def bitwiseXorNegNeg (zlen : Nat) (X Y : List (BitVec w)) : List (BitVec w) :=
  let pairs := bothMinusOne (· ^^^ ·) X Y
  let restX := borrowDigits (X.drop Y.length) pairs.2.1
  let restY := borrowDigits (Y.drop X.length) pairs.2.2
  padTo zlen (pairs.1 ++ restX.1 ++ restY.1)

/-- `BitwiseXor_PosNeg(Z, X, Y)`: `x ^ (-y) == -((x ^ (y-1)) + 1)`. -/
def bitwiseXorPosNeg (zlen : Nat) (X Y : List (BitVec w)) : List (BitVec w) :=
  let pairs := rightMinusOne (· ^^^ ·) X Y
  let restY := borrowDigits (Y.drop X.length) pairs.2
  addDigit (padTo zlen (pairs.1 ++ X.drop Y.length ++ restY.1)) 1#w

/-! ## The routines as one bitwise operation -/

theorem bitwiseAndPosPos_eq : bitwiseAndPosPos zlen X Y = padTo zlen (zipBits (· &&& ·) false false X Y) := by
  simp [bitwiseAndPosPos, zipBits]

theorem bitwiseAndNegNeg_eq :
    bitwiseAndNegNeg zlen X Y =
      addDigit (padTo zlen (zipBits (· ||| ·) true true (minusOne X) (minusOne Y))) 1#w := by
  simp [bitwiseAndNegNeg, bothMinusOne_eq, borrowDigits_rest, zipBits]

theorem bitwiseAndPosNeg_eq :
    bitwiseAndPosNeg zlen X Y = padTo zlen (zipBits (fun x y => x &&& ~~~y) true false X (minusOne Y)) := by
  simp [bitwiseAndPosNeg, rightMinusOne_eq, zipBits]

theorem bitwiseOrNegNeg_eq :
    bitwiseOrNegNeg zlen X Y =
      addDigit (padTo zlen (zipBits (· &&& ·) false false (minusOne X) (minusOne Y))) 1#w := by
  simp [bitwiseOrNegNeg, bothMinusOne_eq, zipBits]

theorem bitwiseOrPosNeg_eq :
    bitwiseOrPosNeg zlen X Y =
      addDigit (padTo zlen (zipBits (fun y x => y &&& ~~~x) true false (minusOne Y) X)) 1#w := by
  have hc : X.zipWith (fun x y => y &&& ~~~x) (minusOne Y) = (minusOne Y).zipWith (fun y x => y &&& ~~~x) X :=
    List.zipWith_comm
  simp [bitwiseOrPosNeg, rightMinusOne_eq, borrowDigits_rest, zipBits, hc]

theorem bitwiseXorPosPos_eq : bitwiseXorPosPos zlen X Y = padTo zlen (zipBits (· ^^^ ·) true true X Y) := by
  simp only [bitwiseXorPosPos, zipBits]
  split
  · rename_i h
    rw [List.drop_eq_nil_of_le (show Y.length ≤ X.length by omega), List.zipWith_comm]
    simp [BitVec.xor_comm]
  · rename_i h
    rw [List.drop_eq_nil_of_le (show X.length ≤ Y.length by omega)]
    simp

theorem bitwiseXorNegNeg_eq :
    bitwiseXorNegNeg zlen X Y = padTo zlen (zipBits (· ^^^ ·) true true (minusOne X) (minusOne Y)) := by
  simp [bitwiseXorNegNeg, bothMinusOne_eq, borrowDigits_rest, zipBits]

theorem bitwiseXorPosNeg_eq :
    bitwiseXorPosNeg zlen X Y =
      addDigit (padTo zlen (zipBits (· ^^^ ·) true true X (minusOne Y))) 1#w := by
  simp [bitwiseXorPosNeg, rightMinusOne_eq, borrowDigits_rest, zipBits]

/-! ## What the routines compute -/

theorem signedValue_false : signedValue false X = value X := rfl

variable {n : Nat} {Z : List (BitVec w)}

/-- A negative operand read as the complement of its magnitude minus one. -/
theorem signedValue_true {X : List (BitVec w)} (h : value X = n + 1) :
    signedValue true X = Int.negSucc n := by
  simp [signedValue, h, Int.negSucc_eq]

theorem signedValue_minusOne (hw : 0 < w) {X : List (BitVec w)} (h : 0 < value X) :
    signedValue true X = Int.negSucc (value (minusOne X)) :=
  signedValue_true (value_minusOne hw X h).symm

/-- One digit more than a list has holds its value plus one. -/
theorem value_succ_lt (hw : 0 < w) (hl : Z.length = n) :
    value Z + 1 < 2 ^ (w * (n + 1)) := by
  have h := value_lt Z
  rw [hl] at h
  exact lt_of_le_of_lt h (Nat.pow_lt_pow_right (by norm_num) (by rw [Nat.mul_succ]; omega))

theorem length_pos_of_value_pos {X : List (BitVec w)} (h : 0 < value X) : 0 < X.length := by
  rcases X with _ | ⟨d, X⟩
  · simp at h
  · simp

theorem ldiff_le (a b : Nat) : Nat.ldiff a b ≤ a := by
  refine Nat.le_of_testBit fun i h => ?_
  rw [Nat.testBit_ldiff] at h
  exact (Bool.and_eq_true_iff.1 h).1

/-- The digits of a result that is not negative, as long as the output. -/
theorem positive_spec {zlen : Nat} (hn : value Z = n) (hl : Z.length = zlen) :
    signedValue false (padTo zlen Z) = n ∧ (padTo zlen Z).length = zlen := by
  rw [signedValue_false, value_padTo, hn]
  exact ⟨rfl, by simp [hl]⟩

theorem bitwiseAndPosPos_spec :
    let Z := bitwiseAndPosPos (bitwiseAndPosPosResultLength X.length Y.length) X Y
    signedValue false Z = Int.land (signedValue false X) (signedValue false Y) ∧
      Z.length = bitwiseAndPosPosResultLength X.length Y.length := by
  simp only [bitwiseAndPosPos_eq]
  exact positive_spec (value_zipBits actsAs_and X Y) (by simp [zipBits, bitwiseAndPosPosResultLength])

theorem bitwiseOrPosPos_spec :
    let Z := bitwiseOrPosPos (bitwiseOrResultLength X.length Y.length) X Y
    signedValue false Z = Int.lor (signedValue false X) (signedValue false Y) ∧
      Z.length = bitwiseOrResultLength X.length Y.length := by
  exact positive_spec (value_zipBits actsAs_or X Y) (by simp [bitwiseOrResultLength]; omega)

theorem bitwiseXorPosPos_spec :
    let Z := bitwiseXorPosPos (bitwiseXorPosPosResultLength X.length Y.length) X Y
    signedValue false Z = Int.xor (signedValue false X) (signedValue false Y) ∧
      Z.length = bitwiseXorPosPosResultLength X.length Y.length := by
  simp only [bitwiseXorPosPos_eq]
  exact positive_spec (value_zipBits actsAs_xor X Y) (by simp [zipBits, bitwiseXorPosPosResultLength]; omega)

variable (hw : 0 < w)
include hw

/-- `Add(Z, 1)` after clearing the rest of `Z`. -/
theorem plusOne_spec (zlen : Nat) (Z : List (BitVec w)) (hz : 0 < zlen) (hl : Z.length ≤ zlen)
    (h : value Z + 1 < 2 ^ (w * zlen)) :
    value (addDigit (padTo zlen Z) 1#w) = value Z + 1 ∧ (addDigit (padTo zlen Z) 1#w).length = zlen := by
  have hlen : (padTo zlen Z).length = zlen := by simp [hl]
  have hne : padTo zlen Z ≠ [] := fun h0 => by rw [h0] at hlen; simp at hlen; omega
  rw [addDigit_value, addDigit_length _ _ hne (by rwa [hlen, value_padTo, toNat_one hw]), value_padTo, toNat_one hw]
  exact ⟨rfl, hlen⟩

/-- The magnitude of a negative result. One digit more than the digits have is enough. -/
theorem grown_spec {m : Nat} (hn : value Z = n) (hl : Z.length = m) :
    signedValue true (addDigit (padTo (m + 1) Z) 1#w) = Int.negSucc n ∧ (addDigit (padTo (m + 1) Z) 1#w).length = m + 1 := by
  obtain ⟨h1, h2⟩ := plusOne_spec hw (m + 1) Z (Nat.succ_pos m) (by omega) (value_succ_lt hw hl)
  exact ⟨signedValue_true (by rw [h1, hn]), h2⟩

/-- So is the length of an operand whose magnitude minus one is not less. -/
theorem bounded_spec {A : List (BitVec w)} {m : Nat} (hn : value Z = n) (hA : 0 < value A) (hm : A.length ≤ m)
    (hle : n ≤ value (minusOne A)) (hl : Z.length ≤ m) :
    signedValue true (addDigit (padTo m Z) 1#w) = Int.negSucc n ∧ (addDigit (padTo m Z) 1#w).length = m := by
  have hlt := value_lt A
  have hpow : 2 ^ (w * A.length) ≤ 2 ^ (w * m) := Nat.pow_le_pow_right two_pos (Nat.mul_le_mul_left w hm)
  rw [← value_minusOne hw A hA] at hlt
  obtain ⟨h1, h2⟩ := plusOne_spec hw m Z (lt_of_lt_of_le (length_pos_of_value_pos hA) hm) hl (by omega)
  exact ⟨signedValue_true (by rw [h1, hn]), h2⟩

variable (X Y : List (BitVec w))

theorem bitwiseAndNegNeg_spec (hX : 0 < value X) (hY : 0 < value Y) :
    let Z := bitwiseAndNegNeg (bitwiseAndNegNegResultLength X.length Y.length) X Y
    signedValue true Z = Int.land (signedValue true X) (signedValue true Y) ∧
      Z.length = bitwiseAndNegNegResultLength X.length Y.length := by
  simp only [bitwiseAndNegNeg_eq, signedValue_minusOne hw hX, signedValue_minusOne hw hY]
  exact grown_spec hw (value_zipBits actsAs_or (minusOne X) (minusOne Y)) (by simp [zipBits]; omega)

theorem bitwiseAndPosNeg_spec (hY : 0 < value Y) :
    let Z := bitwiseAndPosNeg (bitwiseAndPosNegResultLength X.length) X Y
    signedValue false Z = Int.land (signedValue false X) (signedValue true Y) ∧
      Z.length = bitwiseAndPosNegResultLength X.length := by
  simp only [bitwiseAndPosNeg_eq, signedValue_minusOne hw hY]
  exact positive_spec (value_zipBits actsAs_andNot X (minusOne Y)) (by simp [zipBits, bitwiseAndPosNegResultLength]; omega)

theorem bitwiseOrNegNeg_spec (hX : 0 < value X) (hY : 0 < value Y) :
    let Z := bitwiseOrNegNeg (bitwiseOrResultLength X.length Y.length) X Y
    signedValue true Z = Int.lor (signedValue true X) (signedValue true Y) ∧
      Z.length = bitwiseOrResultLength X.length Y.length := by
  simp only [bitwiseOrNegNeg_eq, signedValue_minusOne hw hX, signedValue_minusOne hw hY]
  exact bounded_spec hw (value_zipBits actsAs_and (minusOne X) (minusOne Y)) hX (Nat.le_max_left _ _) Nat.and_le_left
    (by simp [zipBits, bitwiseOrResultLength])

theorem bitwiseOrPosNeg_spec (hY : 0 < value Y) :
    let Z := bitwiseOrPosNeg (bitwiseOrResultLength X.length Y.length) X Y
    signedValue true Z = Int.lor (signedValue false X) (signedValue true Y) ∧
      Z.length = bitwiseOrResultLength X.length Y.length := by
  simp only [bitwiseOrPosNeg_eq, signedValue_minusOne hw hY]
  exact bounded_spec hw (value_zipBits actsAs_andNot (minusOne Y) X) hY (Nat.le_max_right _ _) (ldiff_le _ _)
    (by simp [zipBits, bitwiseOrResultLength]; omega)

theorem bitwiseXorNegNeg_spec (hX : 0 < value X) (hY : 0 < value Y) :
    let Z := bitwiseXorNegNeg (bitwiseXorNegNegResultLength X.length Y.length) X Y
    signedValue false Z = Int.xor (signedValue true X) (signedValue true Y) ∧
      Z.length = bitwiseXorNegNegResultLength X.length Y.length := by
  simp only [bitwiseXorNegNeg_eq, signedValue_minusOne hw hX, signedValue_minusOne hw hY]
  exact positive_spec (value_zipBits actsAs_xor (minusOne X) (minusOne Y))
    (by simp [zipBits, bitwiseXorNegNegResultLength]; omega)

theorem bitwiseXorPosNeg_spec (hY : 0 < value Y) :
    let Z := bitwiseXorPosNeg (bitwiseXorPosNegResultLength X.length Y.length) X Y
    signedValue true Z = Int.xor (signedValue false X) (signedValue true Y) ∧
      Z.length = bitwiseXorPosNegResultLength X.length Y.length := by
  simp only [bitwiseXorPosNeg_eq, signedValue_minusOne hw hY]
  exact grown_spec hw (value_zipBits actsAs_xor X (minusOne Y)) (by simp [zipBits]; omega)

end V8Core.Bigint
