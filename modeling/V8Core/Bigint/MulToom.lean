import V8Core.Bigint.MulKaratsuba
import V8Core.Bigint.Shift

/-!
# Toom-Cook multiplication

`mul-toom.cc`. `Toom3Main` cuts both factors into three parts, evaluates the polynomials
with these coefficients at 0, 1, -1, -2 and infinity, multiplies the values, and
interpolates the five coefficients of the product. Values are signed magnitudes;
`Stands` says which integer one is, and has a rule for each operation the code uses.

An operation whose result does not fit, or whose division leaves a remainder, has no
result (`exactly`), and neither has a failed assertion. Names that are bound again are
chunks of the temporary storage that are used again.
-/

open Radix

namespace V8Core.Bigint

variable {w : Nat}

/-! ## Small factors -/

/-- `TimesTwo(X)`. -/
def timesTwo (X : List (BitVec w)) : List (BitVec w) := (shiftLeftDigits 1 X 0#w).1

/-- `DivideByTwo(X)`. -/
def divideByTwo (X : List (BitVec w)) : List (BitVec w) :=
  (chainDown (fun (d carry : BitVec w) => (d >>> 1 ||| carry, d <<< (w - 1))) X 0#w).1

/-- One digit of `DivideByThree`: the upper half of a digit and then the lower one. -/
def divideByThreeStep (d remainder : BitVec w) : BitVec w × BitVec w :=
  let upper := remainder <<< kHalfDigitBits w ||| d >>> kHalfDigitBits w
  let uResult := upper / 3#w
  let remainder := upper - 3#w * uResult
  let lower := remainder <<< kHalfDigitBits w ||| d &&& (1#w <<< kHalfDigitBits w - 1#w)
  let lResult := lower / 3#w
  let remainder := lower - 3#w * lResult
  (uResult <<< kHalfDigitBits w ||| lResult, remainder)

/-- `DivideByThree(X)`. -/
def divideByThree (X : List (BitVec w)) : List (BitVec w) := (chainDown divideByThreeStep X 0#w).1

@[simp] theorem timesTwo_length (X : List (BitVec w)) : (timesTwo X).length = X.length := by simp [timesTwo]

@[simp] theorem divideByTwo_length (X : List (BitVec w)) : (divideByTwo X).length = X.length := by simp [divideByTwo]

@[simp] theorem divideByThree_length (X : List (BitVec w)) : (divideByThree X).length = X.length := by simp [divideByThree]

theorem timesTwo_value (hw : 0 < w) (X : List (BitVec w)) (h : 2 * value X < 2 ^ (w * X.length)) :
    value (timesTwo X) = 2 * value X := by
  obtain ⟨heq, _⟩ := shiftLeftDigits_spec 1 hw X 0#w (by simp)
  have hlt := value_lt (timesTwo X)
  rw [timesTwo_length, timesTwo] at hlt
  simp only [BitVec.toNat_ofNat, Nat.zero_mod, Nat.add_zero, Nat.pow_one] at heq
  have hmod := congrArg (· % 2 ^ (w * X.length)) heq
  simp only [Nat.add_mul_mod_self_left] at hmod
  rwa [Nat.mod_eq_of_lt h, Nat.mod_eq_of_lt hlt] at hmod

/-- The bit a digit passes down is the top bit of the carry. -/
theorem divideByTwo_value (hw : 0 < w) (X : List (BitVec w)) : value (divideByTwo X) = value X / 2 := by
  have hpow : 2 ^ w = 2 * 2 ^ (w - 1) := (mul_pow_sub_one hw.ne' 2).symm
  obtain ⟨hlast, heq⟩ := chainDown_value (fun (d carry : BitVec w) => (d >>> 1 ||| carry, d <<< (w - 1))) 2
    (fun carry : BitVec w => carry.toNat / 2 ^ (w - 1)) (fun carry => 2 ^ (w - 1) ∣ carry.toNat)
    (by
      intro d carry hcarry
      obtain ⟨bit, hbit⟩ := hcarry
      have hnext : (d <<< (w - 1)).toNat = 2 ^ (w - 1) * (d.toNat % 2) := by
        rw [BitVec.toNat_shiftLeft, Nat.shiftLeft_eq, Nat.mul_comm, hpow, Nat.mul_comm 2, Nat.mul_mod_mul_left]
      have hhalf : (d >>> 1).toNat = d.toNat / 2 := by rw [BitVec.toNat_ushiftRight, Nat.shiftRight_one]
      refine ⟨⟨_, hnext⟩, ?_⟩
      rw [hnext, Nat.mul_div_cancel_left _ (by positivity), BitVec.toNat_or, hhalf, hbit,
        Nat.mul_div_cancel_left _ (by positivity), Nat.or_comm,
        ← Nat.two_pow_add_eq_or_of_lt (show d.toNat / 2 < 2 ^ (w - 1) by omega), hpow]
      generalize 2 ^ (w - 1) = p at *
      rw [Nat.mul_assoc]
      omega)
    X 0#w (by simp)
  obtain ⟨bit, hbit⟩ := hlast
  have hlt := (chainDown (fun (d carry : BitVec w) => (d >>> 1 ||| carry, d <<< (w - 1))) X 0#w).2.isLt
  rw [hbit, hpow, Nat.mul_comm 2] at hlt
  have hone := Nat.lt_of_mul_lt_mul_left hlt
  rw [hbit, Nat.mul_div_cancel_left _ (by positivity)] at heq
  simp only [BitVec.toNat_ofNat, Nat.zero_mod, Nat.zero_div] at heq
  rw [divideByTwo]
  omega

/-- Dividing half a digit by three, with the remainder from above. -/
theorem third_step {h : Nat} (hh : 2 ≤ h) (hw : w = 2 * h) {r : BitVec w} (hr : r.toNat < 3) (low : BitVec w)
    (hlow : low.toNat < 2 ^ h) :
    let x := r <<< h ||| low
    3 * (x / 3#w).toNat + (x - 3#w * (x / 3#w)).toNat = 2 ^ h * r.toNat + low.toNat ∧ (x / 3#w).toNat < 2 ^ h ∧
      (x - 3#w * (x / 3#w)).toNat < 3 := by
  intro x
  have hpow : 2 ^ w = 2 ^ h * 2 ^ h := by rw [← Nat.pow_add, hw, Nat.two_mul]
  have hfour : 2 ^ 2 ≤ 2 ^ h := Nat.pow_le_pow_right (by decide) hh
  have hbig : 2 ^ h * 4 ≤ 2 ^ w := by
    rw [hpow]
    exact Nat.mul_le_mul_left _ hfour
  have hle : 2 ^ h * r.toNat ≤ 2 ^ h * 2 := Nat.mul_le_mul_left _ (by omega)
  have hshl : (r <<< h).toNat = 2 ^ h * r.toNat := by
    rw [BitVec.toNat_shiftLeft, Nat.shiftLeft_eq, Nat.mul_comm, Nat.mod_eq_of_lt (by omega)]
  have hx : x.toNat = 2 ^ h * r.toNat + low.toNat := by
    rw [BitVec.toNat_or, hshl, Nat.two_pow_add_eq_or_of_lt hlow]
  have hthree : (3#w).toNat = 3 := by
    rw [BitVec.toNat_ofNat, Nat.mod_eq_of_lt (by omega)]
  have hq : (x / 3#w).toNat = x.toNat / 3 := by rw [BitVec.toNat_udiv, hthree]
  have hdm := Nat.div_add_mod x.toNat 3
  have hlt := Nat.mod_lt x.toNat (show 3 > 0 by decide)
  have hprod : (3#w * (x / 3#w)).toNat = 3 * (x.toNat / 3) := by
    rw [BitVec.toNat_mul, hthree, hq, Nat.mod_eq_of_lt]
    omega
  have hrem : (x - 3#w * (x / 3#w)).toNat = x.toNat % 3 := by
    have hle : 3#w * (x / 3#w) ≤ x := by
      rw [BitVec.le_def, hprod]
      omega
    rw [BitVec.toNat_sub_of_le hle, hprod]
    omega
  rw [hrem, hq, hx]
  rw [hx] at hdm hlt
  exact ⟨hdm, by omega, hlt⟩

/-- Both halves of a digit. -/
theorem divideByThreeStep_spec (hw : 6 ≤ w) (heven : w = 2 * (w / 2)) (d r : BitVec w) (hr : r.toNat < 3) :
    (divideByThreeStep d r).2.toNat < 3 ∧
      3 * (divideByThreeStep d r).1.toNat + (divideByThreeStep d r).2.toNat = 2 ^ w * r.toNat + d.toNat := by
  have hpow : 2 ^ w = 2 ^ (w / 2) * 2 ^ (w / 2) := by rw [← Nat.pow_add, ← Nat.two_mul, ← heven]
  have hd := d.isLt
  have hhigh : (d >>> (w / 2)).toNat = d.toNat / 2 ^ (w / 2) := by
    rw [BitVec.toNat_ushiftRight, Nat.shiftRight_eq_div_pow]
  have hlow := toNat_and_mask (show 0 < w by omega) d (w / 2) (by omega)
  rw [divideByThreeStep, kHalfDigitBits]
  obtain ⟨hu, hult, hur⟩ := third_step (show 2 ≤ w / 2 by omega) heven hr (d >>> (w / 2)) (by
    rw [hhigh, Nat.div_lt_iff_lt_mul (by positivity), ← hpow]
    exact hd)
  generalize r <<< (w / 2) ||| d >>> (w / 2) = upper at *
  obtain ⟨hl, hllt, hlr⟩ := third_step (show 2 ≤ w / 2 by omega) heven hur
    (d &&& (1#w <<< (w / 2) - 1#w)) (by
      rw [hlow]
      exact Nat.mod_lt _ (by positivity))
  generalize (upper - 3#w * (upper / 3#w)) <<< (w / 2) ||| d &&& (1#w <<< (w / 2) - 1#w) = lower at *
  refine ⟨hlr, ?_⟩
  have hshl : ((upper / 3#w) <<< (w / 2)).toNat = 2 ^ (w / 2) * (upper / 3#w).toNat := by
    rw [BitVec.toNat_shiftLeft, Nat.shiftLeft_eq, Nat.mul_comm, Nat.mod_eq_of_lt]
    rw [hpow]
    exact Nat.mul_lt_mul_of_pos_left hult (by positivity)
  rw [BitVec.toNat_or, hshl, ← Nat.two_pow_add_eq_or_of_lt hllt, hpow]
  have hdm := Nat.div_add_mod d.toNat (2 ^ (w / 2))
  rw [hhigh] at hu
  rw [hlow] at hl
  zify at *
  linear_combination 2 ^ (w / 2) * hu + hl + hdm

theorem divideByThree_value (hw : 6 ≤ w) (heven : w = 2 * (w / 2)) (X : List (BitVec w)) :
    value (divideByThree X) = value X / 3 := by
  obtain ⟨hlt, heq⟩ := chainDown_value divideByThreeStep 3 (fun r : BitVec w => r.toNat) (fun r => r.toNat < 3)
    (fun d r hr => divideByThreeStep_spec hw heven d r hr) X 0#w (by simp)
  simp only [BitVec.toNat_ofNat, Nat.zero_mod] at heq
  rw [divideByThree]
  omega

/-! ## Signed magnitudes -/

/-- A result, provided that it stands for the right number. -/
def exactly (v : ℤ) (r : List (BitVec w) × Bool) : Option (List (BitVec w) × Bool) :=
  if signedValue r.2 r.1 = v then some r else none

section Operations
variable (zlen : Nat) (X Y : List (BitVec w) × Bool)

def addExactly : Option (List (BitVec w) × Bool) :=
  exactly (signedValue X.2 X.1 + signedValue Y.2 Y.1) (addSigned zlen X.1 X.2 Y.1 Y.2)

def subtractExactly : Option (List (BitVec w) × Bool) :=
  exactly (signedValue X.2 X.1 - signedValue Y.2 Y.1) (subtractSigned zlen X.1 X.2 Y.1 Y.2)

def timesTwoExactly : Option (List (BitVec w) × Bool) := exactly (2 * signedValue X.2 X.1) (timesTwo X.1, X.2)

def divideByTwoExactly : Option (List (BitVec w) × Bool) :=
  if 2 * value (divideByTwo X.1) = value X.1 then some (divideByTwo X.1, X.2) else none

def divideByThreeExactly : Option (List (BitVec w) × Bool) :=
  if 3 * value (divideByThree X.1) = value X.1 then some (divideByThree X.1, X.2) else none

end Operations

/-- A magnitude of `n` digits and its sign stand for `v`. -/
def Stands (X : List (BitVec w) × Bool) (n : Nat) (v : ℤ) : Prop := signedValue X.2 X.1 = v ∧ X.1.length = n

namespace Stands
variable {X Y : List (BitVec w) × Bool} {n m zlen : Nat} {a b : ℤ}

theorem natAbs (h : Stands X n a) : a.natAbs = value X.1 := by
  obtain ⟨hval, _⟩ := h
  rw [← hval, signedValue]
  split <;> omega

theorem of_digits (D : List (BitVec w)) : Stands (D, false) D.length (value D) := ⟨rfl, rfl⟩

theorem add (hX : Stands X n a) (hY : Stands Y m b) (hn : n ≤ zlen) (hm : m ≤ zlen)
    (hfit : a.natAbs + b.natAbs < 2 ^ (w * zlen)) : ∃ r, addExactly zlen X Y = some r ∧ Stands r zlen (a + b) := by
  rw [hX.natAbs, hY.natAbs] at hfit
  obtain ⟨rfl, rfl⟩ := hX
  obtain ⟨rfl, rfl⟩ := hY
  obtain ⟨hval, hlen⟩ := addSigned_spec zlen X.1 X.2 Y.1 Y.2 hn hm fun _ => hfit
  exact ⟨_, if_pos hval, hval, hlen⟩

theorem neg (hX : Stands X n a) : Stands (X.1, !X.2) n (-a) := by
  obtain ⟨rfl, hlen⟩ := hX
  refine ⟨?_, hlen⟩
  cases h : X.2 <;> simp [signedValue]

theorem sub (hX : Stands X n a) (hY : Stands Y m b) (hn : n ≤ zlen) (hm : m ≤ zlen)
    (hfit : a.natAbs + b.natAbs < 2 ^ (w * zlen)) : ∃ r, subtractExactly zlen X Y = some r ∧ Stands r zlen (a - b) := by
  obtain ⟨r, hr, hstands⟩ := hX.add hY.neg hn hm (by rwa [Int.natAbs_neg])
  refine ⟨r, ?_, by rwa [sub_eq_add_neg]⟩
  rw [← hr, subtractExactly, addExactly, subtractSigned_eq, hY.neg.1, ← hY.1, sub_eq_add_neg]

/-- Changing the magnitude by a factor on either side. -/
theorem scale (hX : Stands X n a) {D : List (BitVec w)} (hlen : D.length = n) {p q : ℤ} (h : p * value D = q * value X.1)
    (hb : q * a = p * b) (hp : p ≠ 0) : Stands (D, X.2) n b := by
  obtain ⟨rfl, _⟩ := hX
  refine ⟨mul_left_cancel₀ hp ?_, hlen⟩
  rw [← hb]
  simp only [signedValue]
  split
  · linear_combination -h
  · exact h

theorem twice (hw : 0 < w) (hX : Stands X n a) (hfit : 2 * a.natAbs < 2 ^ (w * n)) :
    ∃ r, timesTwoExactly X = some r ∧ Stands r n (2 * a) := by
  have hval := timesTwo_value hw X.1 (by rwa [hX.2, ← hX.natAbs])
  have hstands : Stands (timesTwo X.1, X.2) n (2 * a) := hX.scale (p := 1) (q := 2) (by rw [timesTwo_length, hX.2])
    (by rw [hval]; push_cast; ring) (by ring) (by decide)
  exact ⟨_, if_pos (by rw [hstands.1, hX.1]), hstands⟩

theorem half (hw : 0 < w) (hX : Stands X n (2 * b)) : ∃ r, divideByTwoExactly X = some r ∧ Stands r n b := by
  have habs := hX.natAbs
  have hval := divideByTwo_value hw X.1
  exact ⟨_, if_pos (by omega), hX.scale (p := 2) (q := 1) (by rw [divideByTwo_length, hX.2]) (by omega) (by ring) (by decide)⟩

theorem third (hw : 6 ≤ w) (heven : w = 2 * (w / 2)) (hX : Stands X n (3 * b)) :
    ∃ r, divideByThreeExactly X = some r ∧ Stands r n b := by
  have habs := hX.natAbs
  have hval := divideByThree_value hw heven X.1
  exact ⟨_, if_pos (by omega), hX.scale (p := 3) (q := 1) (by rw [divideByThree_length, hX.2]) (by omega) (by ring) (by decide)⟩

/-- A number that is not negative has no sign, or no digits. -/
theorem nonneg {c : Nat} (hX : Stands X n c) : X.2 = false ∨ (normalize X.1).length = 0 := by
  obtain ⟨hval, _⟩ := hX
  cases hsign : X.2 with
  | false => exact .inl rfl
  | true =>
    right
    rw [hsign, signedValue, if_pos rfl] at hval
    rw [List.length_eq_zero_iff, normalize_eq_nil_iff]
    omega
end Stands

/-! ## Evaluation and interpolation -/

/-- Phase 2a: `p_1`, and `p_m1` in the place of `po`. -/
def toomEvaluate (pLen : Nat) (X0 X1 X2 : List (BitVec w)) : Option ((List (BitVec w) × Bool) × (List (BitVec w) × Bool)) := do
  -- `Add` is `AddSigned` for two numbers without a sign
  let p ← addExactly pLen (X0, false) (X2, false)
  let p1 ← addExactly pLen p (X1, false)
  let p ← subtractExactly pLen p (X1, false)
  return (p1, p)

/-- Phase 2b: `p_m2` in the place of `p_1`. -/
def toomEvaluateTwo (pLen : Nat) (pm1 : List (BitVec w) × Bool) (X0 X2 : List (BitVec w)) :
    Option (List (BitVec w) × Bool) := do
  -- p_m2 = (p_m1 + X2) * 2 - X0
  let p ← addExactly pLen pm1 (X2, false)
  let p ← timesTwoExactly p
  subtractExactly pLen p (X0, false)

/-- Phase 4: the coefficients R1, R2 and R3, in the place of `r_1`, `r_m1` and `r_m2`. -/
def toomInterpolate (rLen : Nat) (r0 r1 : List (BitVec w)) (rm1 rm2 : List (BitVec w) × Bool) (rInf : List (BitVec w)) :
    Option (List (BitVec w) × List (BitVec w) × List (BitVec w)) := do
  -- R3 <- (r_m2 - r_1) / 3
  let R3 ← subtractExactly rLen rm2 (r1, false)
  let R3 ← divideByThreeExactly R3
  -- R1 <- (r_1 - r_m1) / 2
  let R1 ← subtractExactly rLen (r1, false) rm1
  let R1 ← divideByTwoExactly R1
  -- R2 <- r_m1 - r_0
  let R2 ← subtractExactly rLen rm1 (r0, false)
  -- R3 <- (R2 - R3) / 2 + 2 * r_inf
  let R3 ← subtractExactly rLen R2 R3
  let R3 ← divideByTwoExactly R3
  let R3 ← addExactly rLen R3 (rInf, false)
  let R3 ← addExactly rLen R3 (rInf, false)
  -- R2 <- R2 + R1 - R4
  let R2 ← addExactly rLen R2 R1
  let R2 ← subtractExactly rLen R2 (rInf, false)
  -- R1 <- R1 - R3
  let R1 ← subtractExactly rLen R1 R3
  guard (R1.2 = false ∨ (normalize R1.1).length = 0)
  guard (R2.2 = false ∨ (normalize R2.1).length = 0)
  guard (R3.2 = false ∨ (normalize R3.1).length = 0)
  return (R1.1, R2.1, R3.1)

theorem toomEvaluate_spec (hw : 6 ≤ w) {i : Nat} {X0 X1 X2 : List (BitVec w)} (h0 : X0.length ≤ i) (h1 : X1.length ≤ i)
    (h2 : X2.length ≤ i) :
    ∃ p1 pm1 pm2, toomEvaluate (i + 1) X0 X1 X2 = some (p1, pm1) ∧ toomEvaluateTwo (i + 1) pm1 X0 X2 = some pm2 ∧
      Stands p1 (i + 1) (value X0 + value X1 + value X2) ∧ Stands pm1 (i + 1) (value X0 - value X1 + value X2) ∧
      Stands pm2 (i + 1) (value X0 - 2 * value X1 + 4 * value X2) := by
  -- one more digit than the coefficients have is enough for all sums
  have hroom : 2 ^ 6 * 2 ^ (w * i) ≤ 2 ^ (w * (i + 1)) := by
    rw [pow_succ_len]
    exact Nat.mul_le_mul_right _ (Nat.pow_le_pow_right (by decide) hw)
  have hbound : ∀ D : List (BitVec w), D.length ≤ i → value D < 2 ^ (w * i) := fun D hD =>
    Nat.lt_of_lt_of_le (value_lt D) (Nat.pow_le_pow_right (by decide) (Nat.mul_le_mul_left _ hD))
  have hb0 := hbound X0 h0
  have hb1 := hbound X1 h1
  have hb2 := hbound X2 h2
  obtain ⟨po, epo, spo⟩ := (Stands.of_digits X0).add (Stands.of_digits X2) (show _ ≤ i + 1 by omega) (by omega) (by omega)
  obtain ⟨p1, ep1, sp1⟩ := spo.add (Stands.of_digits X1) (Nat.le_refl _) (by omega) (by omega)
  obtain ⟨pm1, epm1, spm1⟩ := spo.sub (Stands.of_digits X1) (Nat.le_refl _) (by omega) (by omega)
  obtain ⟨a, ea, sa⟩ := spm1.add (Stands.of_digits X2) (Nat.le_refl _) (by omega) (by omega)
  obtain ⟨b, eb, sb⟩ := sa.twice (by omega) (by omega)
  obtain ⟨pm2, epm2, spm2⟩ := sb.sub (Stands.of_digits X0) (Nat.le_refl _) (by omega) (by omega)
  refine ⟨p1, pm1, pm2, ?_, ?_, ?_, ?_, ?_⟩
  · simp only [toomEvaluate, epo, ep1, epm1, Option.bind_eq_bind, Option.bind_some, Option.pure_def]
  · simp only [toomEvaluateTwo, ea, eb, epm2, Option.bind_eq_bind, Option.bind_some]
  · rwa [add_right_comm] at sp1
  · rwa [sub_add_eq_add_sub]
  · rwa [show 2 * ((value X0 : ℤ) + value X2 - value X1 + value X2) - value X0 =
      value X0 - 2 * value X1 + 4 * value X2 by ring] at spm2

theorem toomInterpolate_spec (hw : 6 ≤ w) (heven : w = 2 * (w / 2)) {rLen bound c0 c4 : Nat} {r0 r1 rInf : List (BitVec w)}
    (rm1 rm2 : List (BitVec w) × Bool) (c1 c2 c3 : Nat) (hroom : 64 * bound < 2 ^ (w * rLen)) (hc0 : c0 ≤ bound)
    (hc1 : c1 ≤ 2 * bound) (hc2 : c2 ≤ 3 * bound) (hc3 : c3 ≤ 2 * bound) (hc4 : c4 ≤ bound)
    (h0 : value r0 = c0) (hl0 : r0.length = rLen) (h1 : value r1 = c0 + c1 + c2 + c3 + c4) (hl1 : r1.length = rLen)
    (hm1 : Stands rm1 rLen (c0 - c1 + c2 - c3 + c4)) (hm2 : Stands rm2 rLen (c0 - 2 * c1 + 4 * c2 - 8 * c3 + 16 * c4))
    (h4 : value rInf = c4) (hl4 : rInf.length = rLen) :
    ∃ R1 R2 R3, toomInterpolate rLen r0 r1 rm1 rm2 rInf = some (R1, R2, R3) ∧ value R1 = c1 ∧ value R2 = c2 ∧
      value R3 = c3 := by
  have s0 := Stands.of_digits r0
  have s1 := Stands.of_digits r1
  have s4 := Stands.of_digits rInf
  rw [h0, hl0] at s0
  rw [h1, hl1] at s1
  rw [h4, hl4] at s4
  have hle := Nat.le_refl rLen
  obtain ⟨a3, ea3, sa3⟩ := hm2.sub s1 hle hle (by omega)
  rw [show ((c0 : ℤ) - 2 * c1 + 4 * c2 - 8 * c3 + 16 * c4) - ((c0 + c1 + c2 + c3 + c4 : Nat) : ℤ) =
    3 * (-c1 + c2 - 3 * c3 + 5 * c4) by push_cast; ring] at sa3
  obtain ⟨b3, eb3, sb3⟩ := sa3.third hw heven
  obtain ⟨a1, ea1, sa1⟩ := s1.sub hm1 hle hle (by omega)
  rw [show ((c0 + c1 + c2 + c3 + c4 : Nat) : ℤ) - (c0 - c1 + c2 - c3 + c4) = 2 * (c1 + c3) by push_cast; ring] at sa1
  obtain ⟨b1, eb1, sb1⟩ := sa1.half (by omega)
  obtain ⟨a2, ea2, sa2⟩ := hm1.sub s0 hle hle (by omega)
  obtain ⟨d3, ed3, sd3⟩ := sa2.sub sb3 hle hle (by omega)
  rw [show ((c0 : ℤ) - c1 + c2 - c3 + c4) - c0 - (-c1 + c2 - 3 * c3 + 5 * c4) = 2 * (c3 - 2 * c4) by ring] at sd3
  obtain ⟨e3, ee3, se3⟩ := sd3.half (by omega)
  obtain ⟨f3, ef3, sf3⟩ := se3.add s4 hle hle (by omega)
  obtain ⟨R3, eR3, sR3⟩ := sf3.add s4 hle hle (by omega)
  obtain ⟨b2, eb2, sb2⟩ := sa2.add sb1 hle hle (by omega)
  obtain ⟨R2, eR2, sR2⟩ := sb2.sub s4 hle hle (by omega)
  obtain ⟨R1, eR1, sR1⟩ := sb1.sub sR3 hle hle (by omega)
  rw [show (c1 : ℤ) + c3 - (c3 - 2 * c4 + c4 + c4) = c1 by ring] at sR1
  rw [show (c0 : ℤ) - c1 + c2 - c3 + c4 - c0 + (c1 + c3) - c4 = c2 by ring] at sR2
  rw [show (c3 : ℤ) - 2 * c4 + c4 + c4 = c3 by ring] at sR3
  refine ⟨R1.1, R2.1, R3.1, ?_, sR1.natAbs.symm, sR2.natAbs.symm, sR3.natAbs.symm⟩
  simp only [toomInterpolate, ea3, eb3, ea1, eb1, ea2, ed3, ee3, ef3, eR3, eb2, eR2, eR1, guard, if_pos sR1.nonneg,
    if_pos sR2.nonneg, if_pos sR3.nonneg, Option.bind_eq_bind, Option.bind_some, Option.pure_def]

/-! ## The product -/

/-- `Toom3Main(Z, X, Y)`, where `mul` is `Multiply`. -/
def toom3Main (mul : Multiplier w) : Multiplier w := fun zlen X Y => do
  guard (zlen ≥ X.length + Y.length)
  let i := (max X.length Y.length + 2) / 3
  let pLen := i + 1
  let rLen := 2 * pLen
  guard (zlen ≥ rLen)
  let p ← toomEvaluate pLen (slice X 0 i) (slice X i i) (slice X (2 * i) i)
  let q ← toomEvaluate pLen (slice Y 0 i) (slice Y i i) (slice Y (2 * i) i)
  let r0 ← mul rLen (slice X 0 i) (slice Y 0 i)
  let r1 ← mul rLen p.1.1 q.1.1
  let rm1 ← mul rLen p.2.1 q.2.1
  let rm1Sign := p.2.2 != q.2.2
  let p ← toomEvaluateTwo pLen p.2 (slice X 0 i) (slice X (2 * i) i)
  let q ← toomEvaluateTwo pLen q.2 (slice Y 0 i) (slice Y (2 * i) i)
  let rm2 ← mul rLen p.1 q.1
  let rInf ← mul rLen (slice X (2 * i) i) (slice Y (2 * i) i)
  let R ← toomInterpolate rLen r0 r1 (rm1, rm1Sign) (rm2, p.2 != q.2) rInf
  -- R0 is already in place
  let Z := r0 ++ List.replicate (zlen - r0.length) 0#w
  let Z ← addInto Z i R.1
  let Z ← addInto Z (2 * i) R.2.1
  let Z ← addInto Z (3 * i) R.2.2
  addInto Z (4 * i) rInf

/-- `MultiplyToomCook(Z, X, Y)`. -/
def multiplyToomCook (mul : Multiplier w) : Multiplier w := fun zlen X Y => do
  let k := Y.length
  let Z ← toom3Main mul zlen (slice X 0 k) Y
  if X.length > Y.length then
    (chunkOffsets X.length k).foldlM (fun Z i => do
      let T ← toom3Main mul (2 * k) (slice X i k) Y
      addInto Z i T) Z
  else some Z

theorem Stands.mul {X Y Z : List (BitVec w)} {s t : Bool} {n m r : Nat} {a b : ℤ} (hX : Stands (X, s) n a)
    (hY : Stands (Y, t) m b) (hZ : value Z = value X * value Y) (hlen : Z.length = r) : Stands (Z, s != t) r (a * b) := by
  obtain ⟨rfl, _⟩ := hX
  obtain ⟨rfl, _⟩ := hY
  refine ⟨?_, hlen⟩
  cases s <;> cases t <;> simp [signedValue, hZ]

/-- Three parts of `i` digits are the whole number. -/
theorem value_thirds {X : List (BitVec w)} {i : Nat} (h : X.length ≤ 3 * i) :
    value X = value (slice X 0 i) + 2 ^ (w * i) * value (slice X i i) + 2 ^ (w * (2 * i)) * value (slice X (2 * i) i) := by
  have h1 := value_take_add X i i
  have h2 := value_take_add X (2 * i) i
  rw [← Nat.two_mul] at h1
  rw [List.take_of_length_le (by omega)] at h2
  rw [h2, h1]
  rfl

/-- The recomposition: no partial sum is larger than the product. -/
theorem toom_recompose (Z R1 R2 R3 R4 : List (BitVec w)) {i : Nat} (hi : 4 * i ≤ Z.length)
    (hfit : value Z + 2 ^ (w * i) * value R1 + 2 ^ (w * (2 * i)) * value R2 + 2 ^ (w * (3 * i)) * value R3 +
      2 ^ (w * (4 * i)) * value R4 < 2 ^ (w * Z.length)) :
    ∃ Z', (do
        let Z ← addInto Z i R1
        let Z ← addInto Z (2 * i) R2
        let Z ← addInto Z (3 * i) R3
        addInto Z (4 * i) R4) = some Z' ∧
      value Z' = value Z + 2 ^ (w * i) * value R1 + 2 ^ (w * (2 * i)) * value R2 + 2 ^ (w * (3 * i)) * value R3 +
        2 ^ (w * (4 * i)) * value R4 ∧ Z'.length = Z.length := by
  obtain ⟨Z1, e1, h1, l1⟩ := addInto_spec (Z := Z) (X := R1) (show i ≤ _ by omega) (by omega)
  obtain ⟨Z2, e2, h2, l2⟩ := addInto_spec (Z := Z1) (X := R2) (show 2 * i ≤ _ by omega) (by rw [h1, l1]; omega)
  obtain ⟨Z3, e3, h3, l3⟩ := addInto_spec (Z := Z2) (X := R3) (show 3 * i ≤ _ by omega) (by rw [h2, l2, h1, l1]; omega)
  obtain ⟨Z4, e4, h4, l4⟩ := addInto_spec (Z := Z3) (X := R4) (show 4 * i ≤ _ by omega)
    (by rw [h3, l3, h2, l2, h1, l1]; omega)
  refine ⟨Z4, ?_, by rw [h4, h3, h2, h1], by rw [l4, l3, l2, l1]⟩
  simp only [e1, e2, e3, e4, Option.bind_eq_bind, Option.bind_some]

theorem toom3Main_spec (hw : 6 ≤ w) (heven : w = 2 * (w / 2)) {mul : Multiplier w} {X Y : List (BitVec w)} {zlen : Nat}
    (hmul : Multiplies mul Y.length Y.length) (hXY : X.length ≤ Y.length) (hY : 16 ≤ Y.length) (hz : 2 * Y.length ≤ zlen) :
    ∃ Z, toom3Main mul zlen X Y = some Z ∧ value Z = value X * value Y ∧ Z.length = zlen := by
  obtain ⟨i, hi⟩ : ∃ i, i = (max X.length Y.length + 2) / 3 := ⟨_, rfl⟩
  simp only [toom3Main, ← hi]
  rw [guard, if_pos (by omega), guard, if_pos (by omega)]
  have hX3 := value_thirds (show X.length ≤ 3 * i by omega)
  have hY3 := value_thirds (show Y.length ≤ 3 * i by omega)
  have hprod := value_mul_lt X Y (show X.length + Y.length ≤ zlen by omega)
  obtain ⟨p1, pm1, pm2, ep, ep2, sp1, spm1, spm2⟩ :=
    toomEvaluate_spec hw (length_slice_le X 0 i) (length_slice_le X i i) (length_slice_le X (2 * i) i)
  obtain ⟨q1, qm1, qm2, eq, eq2, sq1, sqm1, sqm2⟩ :=
    toomEvaluate_spec hw (length_slice_le Y 0 i) (length_slice_le Y i i) (length_slice_le Y (2 * i) i)
  have hx0 := length_slice_le X 0 i
  have hy0 := length_slice_le Y 0 i
  have hx2 := length_slice_le X (2 * i) i
  have hy2 := length_slice_le Y (2 * i) i
  have bx0 := value_slice_lt X 0 i
  have bx1 := value_slice_lt X i i
  have bx2 := value_slice_lt X (2 * i) i
  have by0 := value_slice_lt Y 0 i
  have by1 := value_slice_lt Y i i
  have by2 := value_slice_lt Y (2 * i) i
  generalize slice X 0 i = X0 at *
  generalize slice X i i = X1 at *
  generalize slice X (2 * i) i = X2 at *
  generalize slice Y 0 i = Y0 at *
  generalize slice Y i i = Y1 at *
  generalize slice Y (2 * i) i = Y2 at *
  have hprod' : ∀ A B : List (BitVec w), A.length ≤ i + 1 → B.length ≤ i + 1 →
      ∃ Z, mul (2 * (i + 1)) A B = some Z ∧ value Z = value A * value B ∧ Z.length = 2 * (i + 1) := fun A B hA hB =>
    hmul (2 * (i + 1)) A B (by omega) (by omega) (by omega)
  obtain ⟨r0, e0, v0, l0⟩ := hprod' X0 Y0 (by omega) (by omega)
  obtain ⟨r1, e1, v1, l1⟩ := hprod' p1.1 q1.1 sp1.2.le sq1.2.le
  obtain ⟨rm1, e2, v2, l2⟩ := hprod' pm1.1 qm1.1 spm1.2.le sqm1.2.le
  obtain ⟨rm2, e3, v3, l3⟩ := hprod' pm2.1 qm2.1 spm2.2.le sqm2.2.le
  obtain ⟨rInf, e4, v4, l4⟩ := hprod' X2 Y2 (by omega) (by omega)
  have sm1 := spm1.mul sqm1 v2 l2
  have sm2 := spm2.mul sqm2 v3 l3
  have hv1 : value r1 = (value X0 + value X1 + value X2) * (value Y0 + value Y1 + value Y2) := by
    have hp := sp1.natAbs
    have hq := sq1.natAbs
    rw [v1, ← hp, ← hq]
    congr 1
  have hmax : ∀ {a b : Nat}, a < 2 ^ (w * i) → b < 2 ^ (w * i) → a * b ≤ 2 ^ (w * i) * 2 ^ (w * i) := fun ha hb =>
    Nat.mul_le_mul ha.le hb.le
  have m00 := hmax bx0 by0
  have m01 := hmax bx0 by1
  have m02 := hmax bx0 by2
  have m10 := hmax bx1 by0
  have m11 := hmax bx1 by1
  have m12 := hmax bx1 by2
  have m20 := hmax bx2 by0
  have m21 := hmax bx2 by1
  have m22 := hmax bx2 by2
  have hroom : 64 * (2 ^ (w * i) * 2 ^ (w * i)) < 2 ^ (w * (2 * (i + 1))) := by
    rw [show w * (2 * (i + 1)) = w * i + w * i + (w + w) by ring, Nat.pow_add, Nat.pow_add, Nat.mul_comm 64]
    apply Nat.mul_lt_mul_of_pos_left _ (by positivity)
    exact Nat.lt_of_lt_of_le (by decide) (Nat.pow_le_pow_right (by decide) (show 12 ≤ w + w by omega))
  obtain ⟨R1, R2, R3, eR, hR1, hR2, hR3⟩ := toomInterpolate_spec hw heven (rm1, pm1.2 != qm1.2) (rm2, pm2.2 != qm2.2)
    (value X0 * value Y1 + value X1 * value Y0) (value X0 * value Y2 + value X1 * value Y1 + value X2 * value Y0)
    (value X1 * value Y2 + value X2 * value Y1) hroom m00 (by omega) (by omega) (by omega) m22 v0 l0
    (by rw [hv1]; ring) l1 (by convert sm1 using 1; push_cast; ring) (by convert sm2 using 1; push_cast; ring) v4 l4
  -- the sum of the coefficients is the product
  have htotal : value X * value Y = value r0 + 2 ^ (w * i) * value R1 + 2 ^ (w * (2 * i)) * value R2 +
      2 ^ (w * (3 * i)) * value R3 + 2 ^ (w * (4 * i)) * value rInf := by
    rw [hX3, hY3, v0, hR1, hR2, hR3, v4, show w * (2 * i) = w * i + w * i by ring, show w * (3 * i) = w * i + w * i + w * i by ring,
      Nat.pow_add, Nat.pow_add, Nat.pow_add]
    ring
  have hzlen : (r0 ++ List.replicate (zlen - r0.length) 0#w).length = zlen := by
    rw [List.length_append, List.length_replicate]
    omega
  obtain ⟨Z, eZ, hres, hlen⟩ := toom_recompose (r0 ++ List.replicate (zlen - r0.length) 0#w) R1 R2 R3 rInf
    (show 4 * i ≤ _ by omega) (by rwa [hzlen, value_append_zeros, ← htotal])
  refine ⟨Z, ?_, hres.trans (by rw [value_append_zeros, ← htotal]), hlen.trans hzlen⟩
  simp only [ep, eq, e0, e1, e2, ep2, eq2, e3, e4, eR, Option.bind_eq_bind, Option.bind_some]
  exact eZ

/-- `MultiplyToomCook` multiplies if `Multiply` does so for shorter factors. -/
theorem multiplyToomCook_multiplies (hw : 6 ≤ w) (heven : w = 2 * (w / 2)) {mul : Multiplier w} {zlen : Nat}
    {X Y : List (BitVec w)} (hYX : Y.length ≤ X.length) (hY : 16 ≤ Y.length) (hz : X.length + Y.length ≤ zlen)
    (hmul : Multiplies mul Y.length Y.length) :
    ∃ Z, multiplyToomCook mul zlen X Y = some Z ∧ value Z = value X * value Y ∧ Z.length = zlen := by
  obtain ⟨Z, hZ, hval, hlen⟩ := toom3Main_spec hw heven hmul (length_slice_le X 0 Y.length) hY (show 2 * Y.length ≤ zlen by omega)
  rw [multiplyToomCook, hZ, Option.bind_eq_bind]
  rw [slice_zero] at hval
  split
  · apply chunk_loop (by omega) ⟨hval, hlen⟩
    -- one more chunk of `X`
    intro Z i hi hlt hP
    obtain ⟨hval, hlen⟩ := hP
    obtain ⟨T, hT, hTval, hTlen⟩ := toom3Main_spec hw heven hmul (length_slice_le X i Y.length) hY (Nat.le_refl _)
    have hle := Nat.mul_le_mul_right (value Y) (value_take_le X (i + Y.length))
    have htotal := value_mul_lt X Y hz
    have hsum : value (X.take (i + Y.length)) * value Y = value Z + 2 ^ (w * i) * value T := by
      rw [value_take_add, hval, hTval]
      ring
    rw [← hlen] at htotal
    obtain ⟨Z', hZ', hval', hlen'⟩ := addInto_spec (Z := Z) (X := T) (show i ≤ _ by omega) (by omega)
    refine ⟨Z', ?_, hval'.trans hsum.symm, hlen'.trans hlen⟩
    rw [hT]
    exact hZ'
  · rename_i hsame
    rw [List.take_of_length_le (by omega)] at hval
    exact ⟨Z, rfl, hval, hlen⟩

/-! ## The choice of a routine -/

def kToomThreshold : Nat := 193

def kFftThreshold : Nat := 1500

/-- `Multiply(Z, X, Y)` with all routines, and fuel for the calls of `Toom3Main`; `fft` is `MultiplyFFT`. -/
def multiply (fft : Multiplier w) : Nat → Multiplier w
  | 0 => fun _ _ _ => none
  | fuel + 1 => multiplySmall fun zlen X Y =>
    if Y.length < kToomThreshold then multiplyKaratsuba (List.replicate zlen 0#w) X Y
    else if Y.length < kFftThreshold then multiplyToomCook (multiply fft fuel) zlen X Y
    else fft zlen X Y

/-- `Multiply` multiplies as long as the shorter factor is too short for the Fourier transform: Karatsuba for middle
lengths, and Toom-Cook with `Multiply` itself for the products of the parts. -/
theorem multiply_multiplies (bits : w = 32 ∨ w = 64) (fft : Multiplier w) (fuel : Nat) :
    Multiplies (multiply fft fuel) fuel (kFftThreshold - 1) := by
  have hw : 6 ≤ w := by rcases bits with rfl | rfl <;> decide
  have heven : w = 2 * (w / 2) := by rcases bits with rfl | rfl <;> rfl
  induction fuel with
  | zero =>
    intro zlen X Y hlt
    omega
  | succ fuel ih =>
    apply multiplySmall_spec hw
    intro zlen X Y hYX hY hlt hshort hz
    dsimp only
    split
    · simpa using multiplyKaratsuba_multiplies hw (Z := List.replicate zlen 0#w) hYX hY (by simpa using hz)
    · rename_i hlong
      have hfft : Y.length < kFftThreshold := Nat.lt_of_le_of_lt hshort (by decide)
      rw [if_pos hfft]
      refine multiplyToomCook_multiplies hw heven hYX (Nat.le_trans (by decide) (Nat.not_lt.1 hlong)) hz ?_
      exact fun zlen X' Y' hlt' hmin => ih zlen X' Y' (by omega) (by omega)

/-- The arguments of `MultiplyToomCook`, and a `Multiply` that is right for shorter factors. -/
structure ToomInput (w : Nat) where
  mul : Multiplier w
  zlen : Nat
  X : List (BitVec w)
  Y : List (BitVec w)
  bits : w = 32 ∨ w = 64
  length_le : Y.length ≤ X.length
  threshold_le : kToomThreshold ≤ Y.length
  room : X.length + Y.length ≤ zlen
  multiplies : Multiplies mul Y.length Y.length

/-- `MultiplyToomCook` multiplies: all values fit, the divisions leave no remainder, the coefficients are not negative, and
no overflow is lost. -/
theorem multiplyToomCook_spec (d : ToomInput w) :
    ∃ Z, multiplyToomCook d.mul d.zlen d.X d.Y = some Z ∧ value Z = value d.X * value d.Y ∧ Z.length = d.zlen := by
  have hw : 6 ≤ w := by rcases d.bits with rfl | rfl <;> decide
  have heven : w = 2 * (w / 2) := by rcases d.bits with rfl | rfl <;> rfl
  exact multiplyToomCook_multiplies hw heven d.length_le (Nat.le_trans (by decide) d.threshold_le) d.room d.multiplies

/-- With `Multiply` as it chooses its routines, for factors of 193 digits with all bits set. -/
theorem multiplyToomCook_spec_ones : ∃ Z,
    multiplyToomCook (multiply (fun _ _ _ => none) 193) 386 (List.replicate 193 (-1#64)) (List.replicate 193 (-1#64)) =
        some Z ∧
      value Z = value (List.replicate 193 (-1#64)) * value (List.replicate 193 (-1#64)) ∧ Z.length = 386 :=
  multiplyToomCook_spec {
    mul := multiply (fun _ _ _ => none) 193
    zlen := 386
    X := List.replicate 193 (-1#64)
    Y := List.replicate 193 (-1#64)
    bits := .inr rfl
    length_le := Nat.le_refl _
    threshold_le := Nat.le_of_eq List.length_replicate.symm
    room := by rw [List.length_replicate]
    multiplies := by
      rw [List.length_replicate]
      exact fun zlen X Y hlt hmin => multiply_multiplies (.inr rfl) _ 193 zlen X Y hlt (hmin.trans (by decide)) }

end V8Core.Bigint
