import V8Core.Base.DivisionByConstant
import V8Core.Compiler.WordSoundness
/-!
# Dividing by a constant

`ReduceInt32Div` and the other seven reducers for division and remainder replace a
division by a constant with a multiplication and shifts, a shift for powers of two, or a
mask. The two word sizes have the same code, so there is one definition for both, over
the nodes that the reducer builds (`WordBuilders`).

`x / x` on 64-bit words feeds the 32-bit outcome of a comparison to a comparison of
64-bit words. The upper half of such an outcome is zero here.
-/

namespace V8Core.Compiler

open Node WordFacts Base

variable (G : GraphInfo) {w : Nat}
variable {L n : Nat} {D d k : BitVec w} {s : Nat}

/-! ## Building nodes -/

/-- The operations on words that the reducer builds and reduces at once. -/
structure WordBuilders (w : Nat) where
  size : w = 32 ∨ w = 64
  intNAdd : Node w → Node w → Node w
  intNAdd_refines : ∀ left right, (Node.binop .add left right).Refines (intNAdd left right)
  intNSub : Node w → Node w → Node w
  intNSub_refines : ∀ left right, (Node.binop .sub left right).Refines (intNSub left right)
  wordNAnd : Node w → Node w → Node w
  wordNAnd_refines : ∀ left right, (Node.binop .and left right).Refines (wordNAnd left right)
  /-- `x != 0`, as a word. -/
  notZero : Node w → Node w
  notZero_eval : ∀ (x : Node w) (env : Env), x.Valid env →
    (notZero x).Valid env ∧ (notZero x).eval env = if x.eval env = 0#w then 0#w else 1#w

/-- `WordNSar(lhs, rhs)`. -/
def wordNSar (lhs : Node w) (rhs : Nat) : Node w :=
  if rhs = 0 then lhs else .binop .sar lhs (.constant (BitVec.ofNat w rhs))

/-- `WordNShr(lhs, rhs)`. -/
def wordNShr (lhs : Node w) (rhs : Nat) : Node w :=
  if rhs = 0 then lhs else .binop .shr lhs (.constant (BitVec.ofNat w rhs))

/-- The builders for 32-bit words. -/
def word32Builders : WordBuilders 32 where
  size := .inl rfl
  intNAdd left right := followedBy (.binop .add left right) (reduceInt32Add G left right)
  intNAdd_refines left right := Refines.followedBy (Refines.refl _) (reduceInt32Add_sound G left right)
  intNSub left right := followedBy (.binop .sub left right) (reduceInt32Sub G left right)
  intNSub_refines left right := Refines.followedBy (Refines.refl _) (reduceInt32Sub_sound G left right)
  wordNAnd left right := followedBy (.binop .and left right) (reduceWord32And G (word32Adapter G) left right)
  wordNAnd_refines left right := Refines.followedBy (Refines.refl _) (reduceWord32And_sound G _ left right)
  notZero x := .compare .equal (.compare .equal x (.constant 0#32)) (.constant 0#32)
  notZero_eval x env hv := by
    refine ⟨⟨⟨hv, trivial⟩, trivial⟩, ?_⟩
    by_cases h : x.eval env = 0#32 <;> simp [eval, Comparison.test, h, ofBool]

/-- The builders for 64-bit words. -/
def word64Builders : WordBuilders 64 where
  size := .inr rfl
  intNAdd left right := followedBy (.binop .add left right) (reduceInt64Add G left right)
  intNAdd_refines left right := Refines.followedBy (Refines.refl _) (reduceInt64Add_sound G left right)
  intNSub left right := followedBy (.binop .sub left right) (reduceInt64Sub G left right)
  intNSub_refines left right := Refines.followedBy (Refines.refl _) (reduceInt64Sub_sound G left right)
  wordNAnd left right := followedBy (.binop .and left right) (reduceWordNAnd G (word64Adapter G) left right)
  wordNAnd_refines left right := Refines.followedBy (Refines.refl _) (reduceWordNAnd_sound G _ left right)
  notZero x := .changeInt32ToInt64
    (.compare .equal (.changeUint32ToUint64 (.compare .equal x (.constant 0#64))) (.constant 0#64))
  notZero_eval x env hv := by
    refine ⟨⟨⟨hv, trivial⟩, trivial⟩, ?_⟩
    by_cases h : x.eval env = 0#64 <;> simp [eval, Comparison.test, h, ofBool]

variable (B : WordBuilders w)

/-! ## Constants -/

/-- `Abs(a)`. -/
def abs (a : BitVec w) : BitVec w :=
  let y := a.sshiftRight (w - 1)
  (a ^^^ y) - y

/-- `IsPowerOfTwo(value)`. -/
def isPowerOfTwo (value : BitVec w) : Bool := decide (0#w < value) && (value &&& (value - 1#w)) == 0#w

/-- `SignedDiv32`, `SignedDiv64`. -/
def signedDiv (lhs rhs : BitVec w) : BitVec w :=
  if rhs = 0#w then 0#w
  else if rhs = -1#w then (if lhs = BitVec.intMin w then lhs else -lhs)
  else BitVec.ofInt w (lhs.toInt.tdiv rhs.toInt)

/-- `SignedMod32`, `SignedMod64`. -/
def signedMod (lhs rhs : BitVec w) : BitVec w :=
  if rhs = 0#w ∨ rhs = -1#w then 0#w else BitVec.ofInt w (lhs.toInt.tmod rhs.toInt)

/-- `UnsignedDiv32`, `UnsignedDiv64`. -/
def unsignedDiv (lhs rhs : BitVec w) : BitVec w := if rhs = 0#w then 0#w else BitVec.ofNat w (lhs.toNat / rhs.toNat)

/-- `UnsignedMod32`, `UnsignedMod64`. -/
def unsignedMod (lhs rhs : BitVec w) : BitVec w := if rhs = 0#w then 0#w else BitVec.ofNat w (lhs.toNat % rhs.toNat)

/-! ## The reducers -/

/-- `Int32Div(dividend, divisor)`, `Int64Div`. -/
def intNDiv (dividend : Node w) (divisor : BitVec w) : Node w :=
  let mag := signedDivisionByConstant divisor
  let quotient := .binop .mulHigh dividend (.constant mag.multiplier)
  let quotient :=
    if 0 < divisor.toInt ∧ mag.multiplier.toInt < 0 then B.intNAdd quotient dividend
    else if divisor.toInt < 0 ∧ 0 < mag.multiplier.toInt then B.intNSub quotient dividend
    else quotient
  B.intNAdd (wordNSar quotient mag.shift) (wordNShr dividend (w - 1))

/-- `Uint32Div(dividend, divisor)`, `Uint64Div`. -/
def uintNDiv (dividend : Node w) (divisor : BitVec w) : Node w :=
  let shift := divisor.ctz.toNat
  let dividend := wordNShr dividend shift
  let divisor := divisor >>> shift
  let mag := unsignedDivisionByConstant divisor shift
  let quotient := .binop .uintMulHigh dividend (.constant mag.multiplier)
  if mag.add then wordNShr (B.intNAdd (wordNShr (B.intNSub dividend quotient) 1) quotient) (mag.shift - 1)
  else wordNShr quotient mag.shift

/-- The quotient by `2 ^ shift`, rounded towards zero. -/
def powerOfTwoQuotient (dividend : Node w) (shift : Nat) : Node w :=
  let quotient := if shift > 1 then wordNSar dividend (w - 1) else dividend
  let quotient := B.intNAdd (wordNShr quotient (w - shift)) dividend
  wordNSar quotient shift

/-- `ReduceInt32Div`, `ReduceInt64Div`. -/
def reduceIntNDiv (left right : Node w) : Option (Node w) :=
  onlyIf (left.is 0#w) left
  <|> onlyIf (right.is 0#w) right
  <|> onlyIf (right.is 1#w) left
  <|> fold signedDiv left right
  <|> onlyIf (G.same left right) (B.notZero left)
  <|> onlyIf (right.is (-1#w)) (.binop .sub (.constant 0#w) left)
  <|> (do
    let divisor ← right.resolvedValue
    let quotient :=
      if isPowerOfTwo (abs divisor) then powerOfTwoQuotient B left (abs divisor).ctz.toNat
      else intNDiv B left (abs divisor)
    return if divisor.slt 0#w then .binop .sub (.constant 0#w) quotient else quotient)

/-- `ReduceUint32Div`, `ReduceUint64Div`. -/
def reduceUintNDiv (left right : Node w) : Option (Node w) :=
  onlyIf (left.is 0#w) left
  <|> onlyIf (right.is 0#w) right
  <|> onlyIf (right.is 1#w) left
  <|> fold unsignedDiv left right
  <|> onlyIf (G.same left right) (B.notZero left)
  <|> (do
    let divisor ← right.resolvedValue
    return if isPowerOfTwo divisor then .binop .shr left (.constant divisor.ctz) else uintNDiv B left divisor)

/-- `ReduceInt32Mod`, `ReduceInt64Mod`. -/
def reduceIntNMod (left right : Node w) : Option (Node w) :=
  onlyIf (left.is 0#w) left
  <|> onlyIf (right.is 0#w) right
  <|> onlyIf (right.is 1#w) (.constant 0#w)
  <|> onlyIf (right.is (-1#w)) (.constant 0#w)
  <|> onlyIf (G.same left right) (.constant 0#w)
  <|> fold signedMod left right
  <|> (do
    let divisor := abs (← right.resolvedValue)
    let zero : Node w := .constant 0#w
    if isPowerOfTwo divisor then
      let mask : Node w := .constant (divisor - 1#w)
      return .phi (.compare .lessThan left zero) (B.intNSub zero (B.wordNAnd (B.intNSub zero left) mask))
        (B.wordNAnd left mask)
    else return .binop .sub left (.binop .mul (intNDiv B left divisor) (.constant divisor)))

/-- `ReduceUint32Mod`, `ReduceUint64Mod`. -/
def reduceUintNMod (left right : Node w) : Option (Node w) :=
  onlyIf (left.is 0#w) left
  <|> onlyIf (right.is 0#w) right
  <|> onlyIf (right.is 1#w) (.constant 0#w)
  <|> onlyIf (G.same left right) (.constant 0#w)
  <|> fold unsignedMod left right
  <|> (do
    let divisor ← right.resolvedValue
    return if isPowerOfTwo divisor then .binop .and left (.constant (divisor - 1#w))
      else .binop .sub left (.binop .mul (uintNDiv B left divisor) (.constant divisor)))

/-- The divisions and remainders. -/
inductive Division
  | div | uintDiv | mod | uintMod
deriving DecidableEq, Repr

def Division.binop : Division → Binop
  | .div => .div
  | .uintDiv => .uintDiv
  | .mod => .mod
  | .uintMod => .uintMod

/-- `Reduce` on a division or a remainder. -/
def reduceDivision (op : Division) (left right : Node w) : Option (Node w) :=
  match op with
  | .div => reduceIntNDiv G B left right
  | .uintDiv => reduceUintNDiv G B left right
  | .mod => reduceIntNMod G B left right
  | .uintMod => reduceUintNMod G B left right

theorem WordBuilders.two_le (B : WordBuilders w) : 2 ≤ w := by rcases B.size with rfl | rfl <;> decide

/-! ## What the built nodes compute -/

/-- The node keeps its promises and has the word. -/
structure Computes (env : Env) (node : Node w) (value : BitVec w) : Prop where
  valid : node.Valid env
  eval : node.eval env = value

section Computes
variable {env : Env} {x y : Node w} {a b : BitVec w}

theorem computes_constant (k : BitVec w) : Computes env (.constant k) k := ⟨trivial, rfl⟩

theorem Computes.binop (op : Binop) (hx : Computes env x a) (hy : Computes env y b)
    (hop : op ≠ .sarShiftOutZeros := by decide) : Computes env (.binop op x y) (op.eval a b) :=
  ⟨.binop hop hx.valid hy.valid, by rw [Node.eval, hx.eval, hy.eval]⟩

theorem Computes.refines {z : Node w} (hx : Computes env x a) (h : x.Refines z) : Computes env z a := by
  obtain ⟨hv, he⟩ := h env hx.valid
  exact ⟨hv, he.trans hx.eval⟩

theorem Computes.add (hx : Computes env x a) (hy : Computes env y b) : Computes env (B.intNAdd x y) (a + b) :=
  (hx.binop .add hy).refines (B.intNAdd_refines x y)

theorem Computes.sub (hx : Computes env x a) (hy : Computes env y b) : Computes env (B.intNSub x y) (a - b) :=
  (hx.binop .sub hy).refines (B.intNSub_refines x y)

theorem Computes.and (hx : Computes env x a) (hy : Computes env y b) : Computes env (B.wordNAnd x y) (a &&& b) :=
  (hx.binop .and hy).refines (B.wordNAnd_refines x y)

theorem toNat_amount (hn : n < w) : (BitVec.ofNat w n).toNat % w = n := by
  rw [BitVec.toNat_ofNat, Nat.mod_eq_of_lt (hn.trans Nat.lt_two_pow_self), Nat.mod_eq_of_lt hn]

theorem Computes.sar (hn : n < w) (hx : Computes env x a) : Computes env (wordNSar x n) (a.sshiftRight n) := by
  unfold wordNSar
  split
  · rename_i h0
    rw [h0, BitVec.sshiftRight_zero]
    exact hx
  · have h := hx.binop .sar (computes_constant (BitVec.ofNat w n))
    rwa [Binop.eval, toNat_amount hn] at h

theorem Computes.shr (hn : n < w) (hx : Computes env x a) : Computes env (wordNShr x n) (a >>> n) := by
  unfold wordNShr
  split
  · rename_i h0
    rw [h0]
    exact hx
  · have h := hx.binop .shr (computes_constant (BitVec.ofNat w n))
    rwa [Binop.eval, toNat_amount hn] at h

end Computes

/-! ## Signed division -/

/-- The word of a signed quotient. -/
theorem sdiv_eq_ofInt (a b : BitVec w) : a.sdiv b = BitVec.ofInt w (a.toInt.tdiv b.toInt) := by
  rw [← BitVec.toInt_inj, BitVec.toInt_sdiv, BitVec.toInt_ofInt]

theorem srem_eq_ofInt (a b : BitVec w) : a.srem b = BitVec.ofInt w (a.toInt.tmod b.toInt) := by
  rw [← BitVec.toInt_srem, BitVec.ofInt_toInt]

theorem sshiftRight_ofInt (hw : 0 < w) {n : ℤ} {k : Nat} (hlo : -2 ^ (w - 1) ≤ n) (hhi : n < 2 ^ (w - 1)) :
    (BitVec.ofInt w n).sshiftRight k = BitVec.ofInt w (n / 2 ^ k) := by
  rw [BitVec.sshiftRight, BitVec.toInt_ofInt_eq_self hw hlo hhi, Int.shiftRight_eq_div_pow, Nat.cast_pow,
    Nat.cast_ofNat]

/-- The sign bit of a word. -/
theorem ushiftRight_sign (hw : 0 < w) (a : BitVec w) :
    a >>> (w - 1) = BitVec.ofInt w (if a.toInt < 0 then 1 else 0) := by
  have hpow := two_pow_half hw
  have hone : 1 < 2 ^ w := Nat.one_lt_two_pow (by omega)
  rw [← BitVec.toNat_inj, BitVec.toNat_ushiftRight, Nat.shiftRight_eq_div_pow]
  by_cases hneg : a.toInt < 0
  · have hle := BitVec.toInt_neg_iff.1 hneg
    rw [if_pos hneg, Nat.div_eq_of_lt_le (k := 1) (by omega) (by omega)]
    exact (Nat.mod_eq_of_lt hone).symm
  · have hlt := mt BitVec.toInt_neg_iff.2 hneg
    rw [if_neg hneg, Nat.div_eq_of_lt (by omega)]
    simp

variable {a : BitVec w} {env : Env} {x : Node w}

/-- The high half of the product with the multiplier, where a negative multiplier is corrected. -/
theorem mulHigh_corrected {m : BitVec w} (hneg : m.toInt < 0) :
    BitVec.ofInt w (a.toInt * m.toInt / 2 ^ w) + a = BitVec.ofInt w (a.toInt * m.toNat / 2 ^ w) := by
  have hm : m.toInt = m.toNat - 2 ^ w := by
    rw [BitVec.toInt_neg_iff] at hneg
    rw [BitVec.toInt_eq_toNat_cond, if_neg (by omega)]
    norm_cast
  have hdiv : a.toInt * m.toInt / 2 ^ w = a.toInt * m.toNat / 2 ^ w - a.toInt := by
    rw [hm, mul_sub, Int.sub_mul_ediv_right _ _ (by positivity)]
  conv_lhs => rw [hdiv, ← BitVec.ofInt_toInt (x := a), ← BitVec.ofInt_add, BitVec.ofInt_toInt]
  rw [Int.sub_add_cancel]

theorem intNDiv_computes (hd : PositiveDivisor d) (hx : Computes env x a) :
    Computes env (intNDiv B x d) (BitVec.ofInt w (a.toInt.tdiv d.toNat)) := by
  obtain ⟨hshift, hdiv⟩ := signedDivisionByConstant_spec hd
  unfold intNDiv
  generalize signedDivisionByConstant d = mag at hshift hdiv ⊢
  have hlo := BitVec.le_toInt (x := a)
  have hhi := BitVec.toInt_lt (x := a)
  have hdpos : 0 < d.toInt := by
    have h2 := hd.two_le
    have hlt := hd.lt
    have hpow := two_pow_half (w := w) (by omega)
    rw [BitVec.toInt_eq_toNat_of_lt (by omega)]
    omega
  have hmul : Computes env (.binop .mulHigh x (.constant mag.multiplier))
      (BitVec.ofInt w (a.toInt * mag.multiplier.toInt / 2 ^ w)) := hx.binop .mulHigh (computes_constant _)
  have hq : Computes env
      (if 0 < d.toInt ∧ mag.multiplier.toInt < 0 then B.intNAdd (.binop .mulHigh x (.constant mag.multiplier)) x
        else if d.toInt < 0 ∧ 0 < mag.multiplier.toInt then
          B.intNSub (.binop .mulHigh x (.constant mag.multiplier)) x
        else .binop .mulHigh x (.constant mag.multiplier))
      (BitVec.ofInt w (a.toInt * mag.multiplier.toNat / 2 ^ w)) := by
    split
    · rename_i h
      rw [← mulHigh_corrected h.2]
      exact hmul.add B hx
    · rename_i h
      rw [if_neg (by omega)]
      have hnonneg : ¬ mag.multiplier.toInt < 0 := fun hneg => h ⟨hdpos, hneg⟩
      rwa [BitVec.toInt_eq_toNat_of_lt (Nat.not_le.1 (mt BitVec.toInt_neg_iff.2 hnonneg))] at hmul
  have hres := (hq.sar hshift).add B (hx.shr (show w - 1 < w by omega))
  have hbound : -2 ^ (w - 1) ≤ a.toInt * mag.multiplier.toNat / 2 ^ w ∧
      a.toInt * mag.multiplier.toNat / 2 ^ w < 2 ^ (w - 1) := by
    have hm : (mag.multiplier.toNat : ℤ) < 2 ^ w := by exact_mod_cast mag.multiplier.isLt
    have hp : (0 : ℤ) < 2 ^ w := by positivity
    have hH : (0 : ℤ) < 2 ^ (w - 1) := by positivity
    exact ⟨(Int.le_ediv_iff_mul_le hp).2 (by nlinarith), Int.ediv_lt_of_lt_mul hp (by nlinarith)⟩
  rw [sshiftRight_ofInt (by omega) hbound.1 hbound.2, ushiftRight_sign (by omega), ← BitVec.ofInt_add,
    Int.ediv_ediv_of_nonneg (by positivity), ← pow_add, hdiv _ hlo hhi] at hres
  exact hres

theorem ones_ushiftRight (hlt : s ≤ w) : (BitVec.allOnes w >>> (w - s)).toNat = 2 ^ s - 1 := by
  have hdiv := Nat.mul_sub_div 0 (2 ^ (w - s)) (2 ^ s) (by positivity)
  rw [← pow_add, show w - s + s = w by omega, Nat.zero_div] at hdiv
  rw [BitVec.toNat_ushiftRight, Nat.shiftRight_eq_div_pow]
  exact hdiv

/-- What is added to the dividend before a shift that is to round towards zero. -/
theorem rounding_words (hs : 0 < s) (hlt : s < w) (a : BitVec w) :
    (if s > 1 then a.sshiftRight (w - 1) else a) >>> (w - s) =
      BitVec.ofInt w (if a.toInt < 0 then 2 ^ s - 1 else 0) := by
  rcases Nat.lt_or_ge 1 s with h1 | h1
  · rw [if_pos h1, sshiftRight_sign]
    split
    · have hpow : 2 ^ s < 2 ^ w := Nat.pow_lt_pow_right (by decide) hlt
      have hpos := Nat.two_pow_pos s
      have hcast : (2 ^ s - 1 : ℤ) = ((2 ^ s - 1 : ℕ) : ℤ) := by push_cast [Nat.one_le_two_pow]; rfl
      rw [← BitVec.toNat_inj, ones_ushiftRight hlt.le, hcast, BitVec.ofInt_natCast, BitVec.toNat_ofNat,
        Nat.mod_eq_of_lt (by omega)]
    · simp
  · obtain rfl : s = 1 := by omega
    rw [ushiftRight_sign (by omega)]
    rfl

/-- Rounding down after adding `2 ^ s - 1` to a negative number rounds towards zero. -/
theorem add_ediv_eq_tdiv (n : ℤ) (s : Nat) : (n + if n < 0 then 2 ^ s - 1 else 0) / 2 ^ s = n.tdiv (2 ^ s) := by
  have hpos : (0 : ℤ) < 2 ^ s := by positivity
  split
  · rename_i hneg
    obtain ⟨a, rfl⟩ := Int.exists_eq_neg_ofNat hneg.le
    have hsplit := Int.mul_ediv_add_emod (a : ℤ) (2 ^ s)
    have hr := Int.emod_nonneg (a : ℤ) hpos.ne'
    have hr' := Int.emod_lt_of_pos (a : ℤ) hpos
    rw [Int.neg_tdiv, Int.tdiv_eq_ediv_of_nonneg (Int.natCast_nonneg a)]
    refine Int.le_antisymm (Int.lt_add_one_iff.1 (Int.ediv_lt_of_lt_mul hpos ?_)) ((Int.le_ediv_iff_mul_le hpos).2 ?_)
    · linarith
    · linarith
  · rw [Int.add_zero, Int.tdiv_eq_ediv_of_nonneg (by omega)]

theorem powerOfTwoQuotient_computes (hs : 0 < s) (hlt : s < w)
    (hx : Computes env x a) : Computes env (powerOfTwoQuotient B x s) (BitVec.ofInt w (a.toInt.tdiv (2 ^ s))) := by
  have hlo := BitVec.le_toInt (x := a)
  have hhi := BitVec.toInt_lt (x := a)
  have hq : Computes env (if s > 1 then wordNSar x (w - 1) else x) (if s > 1 then a.sshiftRight (w - 1) else a) := by
    split
    · exact hx.sar (by omega)
    · exact hx
  have hsum := ((hq.shr (show w - s < w by omega)).add B hx).sar hlt
  have hadd : BitVec.ofInt w (if a.toInt < 0 then 2 ^ s - 1 else 0) + a =
      BitVec.ofInt w (a.toInt + if a.toInt < 0 then 2 ^ s - 1 else 0) := by
    rw [Int.add_comm, BitVec.ofInt_add, BitVec.ofInt_toInt]
  have hpow : (2 : ℤ) ^ s ≤ 2 ^ (w - 1) := pow_le_pow_right₀ (by decide) (by omega)
  have hpos : (0 : ℤ) < 2 ^ s := by positivity
  rw [rounding_words hs hlt, hadd, sshiftRight_ofInt (by omega) (by split <;> omega) (by split <;> omega),
    add_ediv_eq_tdiv] at hsum
  exact hsum

/-! ## Divisors -/

theorem toNat_abs (k : BitVec w) : ((abs k).toNat : ℤ) = |k.toInt| := by
  rw [abs, sshiftRight_sign]
  by_cases hneg : k.toInt < 0
  · have hle := BitVec.toInt_neg_iff.1 hneg
    have hpow : ((2 ^ w : ℕ) : ℤ) = 2 ^ w := by norm_cast
    rw [if_pos hneg, BitVec.xor_allOnes, ← BitVec.neg_one_eq_allOnes, BitVec.sub_neg, ← BitVec.neg_eq_not_add,
      abs_of_neg hneg, BitVec.toNat_neg, Nat.mod_eq_of_lt (by omega), BitVec.toInt_eq_toNat_cond]
    omega
  · have hlt := mt BitVec.toInt_neg_iff.2 hneg
    rw [if_neg hneg, BitVec.xor_zero, BitVec.sub_zero, abs_of_nonneg (not_lt.1 hneg),
      BitVec.toInt_eq_toNat_of_lt (by omega)]

theorem isPowerOfTwo_iff {x : BitVec w} : isPowerOfTwo x = true ↔ x.toNat = 2 ^ x.ctz.toNat := by
  rw [isPowerOfTwo, Bool.and_eq_true, decide_eq_true_eq, beq_iff_eq]
  constructor
  · rintro ⟨hpos, h⟩
    have hne : x ≠ 0#w := by
      rintro rfl
      exact absurd hpos (by simp)
    obtain ⟨L, hL⟩ := exists_pow_of_and_sub_one hne h
    rw [ctz_of_toNat hL, hL]
  · intro h
    have hne := ne_zero_of_toNat h
    have hpos := toNat_pos_of_ne_zero hne
    refine ⟨by rw [BitVec.lt_def]; simpa using hpos, ?_⟩
    rw [← BitVec.toNat_inj, BitVec.toNat_and, toNat_sub_one hne, BitVec.toNat_ofNat]
    exact (Nat.and_sub_one_eq_zero_iff_isPowerOfTwo hpos.ne').2 ⟨_, h⟩

/-- A constant the reducer divides by: not 0, 1 or -1. -/
structure Proper (k : BitVec w) : Prop where
  ne_zero : k ≠ 0#w
  ne_one : k ≠ 1#w
  ne_neg_one : k ≠ -1#w

theorem toInt_neg_one (hw : 2 ≤ w) : (-1#w).toInt = -1 := by
  rw [BitVec.neg_one_eq_allOnes, BitVec.toInt_allOnes, if_pos (by omega)]

theorem Proper.bounds (hw : 2 ≤ w) (h : Proper k) : 2 ≤ (abs k).toNat ∧ (abs k).toNat ≤ 2 ^ (w - 1) := by
  have habs := toNat_abs k
  have hlo := BitVec.le_toInt (x := k)
  have hhi := BitVec.toInt_lt (x := k)
  have h0 : k.toInt ≠ 0 := fun h' => h.ne_zero (BitVec.toInt_inj.1 (by rw [h', BitVec.toInt_zero]))
  have h1 : k.toInt ≠ 1 := fun h' => h.ne_one (BitVec.toInt_inj.1 (by rw [h', BitVec.toInt_one (by omega)]))
  have h2 : k.toInt ≠ -1 := fun h' => h.ne_neg_one (BitVec.toInt_inj.1 (by rw [h', toInt_neg_one hw]))
  have hcast : ((2 ^ (w - 1) : ℕ) : ℤ) = 2 ^ (w - 1) := by norm_cast
  rcases abs_cases k.toInt with ⟨he, _⟩ | ⟨he, _⟩ <;> omega

/-- The quotient by the absolute value of the divisor. -/
theorem absQuotient_computes (hw : 2 ≤ w) (hk : Proper k)
    (hx : Computes env x a) : Computes env
      (if isPowerOfTwo (abs k) then powerOfTwoQuotient B x (abs k).ctz.toNat else intNDiv B x (abs k))
      (BitVec.ofInt w (a.toInt.tdiv (abs k).toNat)) := by
  obtain ⟨h2, hle⟩ := hk.bounds hw
  split
  · rename_i hpow
    rw [isPowerOfTwo_iff] at hpow
    generalize (abs k).ctz.toNat = s at hpow ⊢
    rw [hpow] at h2 hle ⊢
    have hlt : s ≤ w - 1 := (Nat.pow_le_pow_iff_right (by decide)).1 hle
    have hs : s ≠ 0 := by rintro rfl; omega
    rw [Nat.cast_pow]
    exact powerOfTwoQuotient_computes B (by omega) (by omega) hx
  · rename_i hpow
    refine intNDiv_computes B ⟨hw, h2, lt_of_le_of_ne hle fun heq => hpow ?_⟩ hx
    rw [isPowerOfTwo_iff, ctz_of_toNat heq, heq]

theorem sdiv_neg_one (hw : 2 ≤ w) (a : BitVec w) : a.sdiv (-1#w) = -a := by
  rw [sdiv_eq_ofInt, toInt_neg_one hw, Int.tdiv_neg, Int.tdiv_one, BitVec.ofInt_neg, BitVec.ofInt_toInt]

theorem signedDiv_eq (hw : 2 ≤ w) (a b : BitVec w) : signedDiv a b = a.sdiv b := by
  unfold signedDiv
  split
  · rename_i h
    rw [h, BitVec.sdiv_zero]
  · split
    · rename_i h
      rw [h, sdiv_neg_one hw]
      split
      · rename_i hmin
        rw [hmin, BitVec.neg_intMin]
      · rfl
    · exact (sdiv_eq_ofInt a b).symm

/-! ## The signed reducers -/

section Steps
variable {left right : Node w} {op : Binop}

theorem sound_zeroDividend (h : ∀ b : BitVec w, op.eval 0#w b = 0#w) :
    (Node.binop op left right).Sound (onlyIf (left.is 0#w) left) :=
  Sound.onlyIf fun h0 env hv => ⟨hv.1, by rw [eval, is_eval h0, h]⟩

theorem sound_zeroDivisor (h : ∀ a : BitVec w, op.eval a 0#w = 0#w) :
    (Node.binop op left right).Sound (onlyIf (right.is 0#w) right) :=
  Sound.onlyIf fun h0 env hv => ⟨hv.2.1, by rw [eval, is_eval h0, h]⟩

/-- A divisor for which the result is the dividend. -/
theorem sound_leftOf (h : ∀ a : BitVec w, op.eval a k = a) :
    (Node.binop op left right).Sound (onlyIf (right.is k) left) :=
  Sound.onlyIf fun hk env hv => ⟨hv.1, by rw [eval, is_eval hk, h]⟩

/-- A divisor for which the result is zero. -/
theorem sound_zeroOf (h : ∀ a : BitVec w, op.eval a k = 0#w) :
    (Node.binop op left right).Sound (onlyIf (right.is k) (.constant 0#w)) :=
  Sound.onlyIf fun hk env _ => ⟨trivial, by rw [eval, eval, is_eval hk, h]⟩

theorem sound_sameNotZero (h : ∀ a : BitVec w, op.eval a a = if a = 0#w then 0#w else 1#w) :
    (Node.binop op left right).Sound (onlyIf (G.same left right) (B.notZero left)) :=
  Sound.onlyIf fun hs env hv => by
    obtain ⟨hval, heval⟩ := B.notZero_eval left env hv.1
    exact ⟨hval, by rw [heval, eval, ← G.same_eq _ _ hs, h]⟩

theorem sound_sameZero (h : ∀ a : BitVec w, op.eval a a = 0#w) :
    (Node.binop op left right).Sound (onlyIf (G.same left right) (.constant 0#w)) :=
  Sound.onlyIf fun hs env _ => ⟨trivial, by rw [eval, eval, ← G.same_eq _ _ hs, h]⟩

/-- A constant that an earlier alternative has not taken. -/
theorem ne_of_onlyIf_none {c : BitVec w} {n : Node w} (hk : right.resolvedValue = some k)
    (h : onlyIf (right.is c) n = none) : k ≠ c := by
  rintro rfl
  simp [onlyIf, is, hk] at h

end Steps

/-- The divisor from its absolute value. -/
theorem toInt_eq_abs (k : BitVec w) :
    k.toInt = if k.slt 0#w then -((abs k).toNat : ℤ) else (abs k).toNat := by
  rw [toNat_abs]
  by_cases hneg : k.toInt < 0
  · rw [if_pos (by rwa [BitVec.slt_iff_toInt_lt, BitVec.toInt_zero]), abs_of_neg hneg, neg_neg]
  · rw [if_neg (by rwa [BitVec.slt_iff_toInt_lt, BitVec.toInt_zero]), abs_of_nonneg (not_lt.1 hneg)]

/-- The quotient with the sign of the divisor. -/
theorem Computes.signed {q : Node w}
    (hq : Computes env q (BitVec.ofInt w (a.toInt.tdiv (abs k).toNat))) :
    Computes env (if k.slt 0#w then .binop .sub (.constant 0#w) q else q) (a.sdiv k) := by
  rw [sdiv_eq_ofInt, toInt_eq_abs k]
  split
  · have h := (computes_constant 0#w).binop .sub hq
    rwa [Binop.eval, BitVec.zero_sub, ← BitVec.ofInt_neg, ← Int.tdiv_neg] at h
  · exact hq

theorem reduceIntNDiv_sound (left right : Node w) :
    (Node.binop .div left right).Sound (reduceIntNDiv G B left right) := by
  have hw := B.two_le
  refine Sound.orElse (sound_zeroDividend fun b => BitVec.zero_sdiv) (Sound.orElse_of_none
    (sound_zeroDivisor fun a => BitVec.sdiv_zero) fun h0 => Sound.orElse_of_none
      (sound_leftOf fun a => BitVec.sdiv_one) fun h1 => Sound.orElse
        (sound_fold fun env => (signedDiv_eq hw _ _).symm) (Sound.orElse
          (sound_sameNotZero G B fun a => ?_) (Sound.orElse_of_none
            (Sound.onlyIf fun h env hv => ⟨.binop (by decide) trivial hv.1, ?_⟩) fun hm1 => Sound.bind fun k hk =>
              Sound.some fun env hv => ?_)))
  · rw [Binop.eval]
    simp
  · rw [eval, eval, eval, is_eval h, Binop.eval, Binop.eval, sdiv_neg_one hw, BitVec.zero_sub]
  · have hproper : Proper k := ⟨ne_of_onlyIf_none hk h0, ne_of_onlyIf_none hk h1, ne_of_onlyIf_none hk hm1⟩
    have hq := absQuotient_computes B hw hproper ⟨hv.1, rfl⟩
    have hres := hq.signed
    rw [eval, resolvedValue_eval hk]
    exact ⟨hres.valid, hres.eval⟩

theorem tmod_abs (a k : BitVec w) : a.toInt.tmod k.toInt = a.toInt.tmod (abs k).toNat := by
  rw [toInt_eq_abs k]
  split
  · rw [Int.tmod_neg]
  · rfl

theorem signedMod_eq (hw : 2 ≤ w) (a b : BitVec w) : signedMod a b = Binop.mod.eval a b := by
  unfold signedMod
  rw [Binop.eval, srem_eq_ofInt]
  by_cases h0 : b = 0#w
  · rw [if_pos (.inl h0), if_pos h0]
  · rw [if_neg h0]
    by_cases h1 : b = -1#w
    · rw [if_pos (.inr h1), h1, toInt_neg_one hw, Int.tmod_neg, Int.tmod_one]
      rfl
    · rw [if_neg (by tauto)]

theorem zero_mod (b : BitVec w) : Binop.mod.eval 0#w b = 0#w := by
  rw [Binop.eval, BitVec.zero_srem, ite_self]

theorem mod_zero (a : BitVec w) : Binop.mod.eval a 0#w = 0#w := by
  rw [Binop.eval, if_pos rfl]

theorem mod_one (hw : 2 ≤ w) (a : BitVec w) : Binop.mod.eval a 1#w = 0#w := by
  rw [Binop.eval, srem_eq_ofInt, BitVec.toInt_one (by omega), Int.tmod_one]
  exact ite_self _

theorem mod_neg_one (hw : 2 ≤ w) (a : BitVec w) : Binop.mod.eval a (-1#w) = 0#w := by
  rw [← signedMod_eq hw, signedMod, if_pos (.inr rfl)]

theorem mod_self (a : BitVec w) : Binop.mod.eval a a = 0#w := by
  rw [Binop.eval, BitVec.srem_self, ite_self]

/-- A mask of low bits takes the remainder by a power of two. -/
theorem and_mask {x : BitVec w} (hD : D.toNat = 2 ^ L) : x &&& (D - 1#w) = BitVec.ofNat w (x.toNat % 2 ^ L) := by
  rw [← BitVec.toNat_inj, BitVec.toNat_and, toNat_sub_one (ne_zero_of_toNat hD), hD, Nat.and_two_pow_sub_one_eq_mod,
    BitVec.toNat_ofNat, Nat.mod_eq_of_lt ((Nat.mod_le _ _).trans_lt x.isLt)]

/-- The remainder of a negative word, by the mask on its absolute value. -/
theorem neg_and_mask (hD : D.toNat = 2 ^ L) (hneg : a.toInt < 0) :
    0#w - ((0#w - a) &&& (D - 1#w)) = BitVec.ofInt w (a.toInt.tmod D.toNat) := by
  have hle := BitVec.toInt_neg_iff.1 hneg
  have hn : a.toInt = -((-a).toNat : ℤ) := by
    have hpow : ((2 ^ w : ℕ) : ℤ) = 2 ^ w := by norm_cast
    rw [BitVec.toNat_neg, Nat.mod_eq_of_lt (by omega), BitVec.toInt_eq_toNat_cond]
    omega
  rw [and_mask hD, BitVec.zero_sub, BitVec.zero_sub, hn, Int.neg_tmod, ← Int.ofNat_tmod, hD, BitVec.ofInt_neg,
    BitVec.ofInt_natCast]

theorem pos_and_mask (hD : D.toNat = 2 ^ L) (hpos : ¬ a.toInt < 0) :
    a &&& (D - 1#w) = BitVec.ofInt w (a.toInt.tmod D.toNat) := by
  have hlt := mt BitVec.toInt_neg_iff.2 hpos
  rw [and_mask hD, BitVec.toInt_eq_toNat_of_lt (by omega), ← Int.ofNat_tmod, hD, BitVec.ofInt_natCast]

/-- What is left after subtracting the multiple of the divisor. -/
theorem sub_mul_tdiv (a D : BitVec w) :
    a - BitVec.ofInt w (a.toInt.tdiv D.toNat) * D = BitVec.ofInt w (a.toInt.tmod D.toNat) := by
  have hD : D = BitVec.ofInt w D.toNat := by rw [BitVec.ofInt_natCast, BitVec.ofNat_toNat, BitVec.setWidth_eq]
  have ha : a = BitVec.ofInt w a.toInt := BitVec.ofInt_toInt.symm
  conv_lhs => rw [ha, hD, ← BitVec.ofInt_mul, BitVec.sub_eq_add_neg, ← BitVec.ofInt_neg, ← BitVec.ofInt_add]
  rw [Int.tmod_def, ← hD, ← ha, Int.mul_comm, Int.sub_eq_add_neg]

/-- The diamond takes the branch of the dividend's sign. -/
theorem Computes.ifNegative {t f : Node w} {v : BitVec w} (hx : x.Valid env)
    (ht : (x.eval env).toInt < 0 → Computes env t v) (hf : ¬ (x.eval env).toInt < 0 → Computes env f v)
    (htv : t.Valid env) (hfv : f.Valid env) : Computes env (.phi (.compare .lessThan x (.constant 0#w)) t f) v := by
  refine ⟨⟨⟨hx, trivial⟩, htv, hfv⟩, ?_⟩
  have hslt : (x.eval env).slt 0#w = true ↔ (x.eval env).toInt < 0 := by
    rw [BitVec.slt_iff_toInt_lt, BitVec.toInt_zero]
  by_cases hneg : (x.eval env).toInt < 0
  · simp [Node.eval, Comparison.test, hslt.2 hneg, ofBool, (ht hneg).eval]
  · simp [Node.eval, Comparison.test, Bool.eq_false_iff.2 (mt hslt.1 hneg), ofBool, (hf hneg).eval]

theorem reduceIntNMod_sound (left right : Node w) :
    (Node.binop .mod left right).Sound (reduceIntNMod G B left right) := by
  have hw := B.two_le
  refine Sound.orElse (sound_zeroDividend zero_mod) (Sound.orElse_of_none
    (sound_zeroDivisor mod_zero) fun h0 => Sound.orElse_of_none
      (sound_zeroOf (mod_one hw)) fun h1 => Sound.orElse_of_none (sound_zeroOf (mod_neg_one hw)) fun hm1 =>
        Sound.orElse (sound_sameZero G mod_self) (Sound.orElse
          (sound_fold fun env => (signedMod_eq hw _ _).symm) (Sound.bind fun k hk => ?_)))
  have hproper : Proper k := ⟨ne_of_onlyIf_none hk h0, ne_of_onlyIf_none hk h1, ne_of_onlyIf_none hk hm1⟩
  have hnode : ∀ env, (Node.binop .mod left right).eval env =
      BitVec.ofInt w ((left.eval env).toInt.tmod (abs k).toNat) := by
    intro env
    rw [eval, resolvedValue_eval hk, Binop.eval, if_neg hproper.ne_zero, srem_eq_ofInt, tmod_abs]
  dsimp only
  split
  · rename_i hpow
    refine Sound.some fun env hv => ?_
    have hx : Computes env left (left.eval env) := ⟨hv.1, rfl⟩
    have hD := isPowerOfTwo_iff.1 hpow
    have hneg := (computes_constant 0#w).sub B
      (((computes_constant 0#w).sub B hx).and B (computes_constant (abs k - 1#w)))
    have hpos := hx.and B (computes_constant (abs k - 1#w))
    have hres : Computes env _ (BitVec.ofInt w ((left.eval env).toInt.tmod (abs k).toNat)) :=
      Computes.ifNegative hv.1 (fun h => by rwa [neg_and_mask hD h] at hneg)
        (fun h => by rwa [pos_and_mask hD h] at hpos) hneg.valid hpos.valid
    rw [hnode]
    exact ⟨hres.valid, hres.eval⟩
  · rename_i hpow
    refine Sound.some fun env hv => ?_
    have hx : Computes env left (left.eval env) := ⟨hv.1, rfl⟩
    have hq := absQuotient_computes B hw hproper hx
    rw [if_neg hpow] at hq
    have hres := hx.binop .sub (hq.binop .mul (computes_constant (abs k)))
    rw [hnode, ← sub_mul_tdiv]
    exact ⟨hres.valid, hres.eval⟩

/-! ## The unsigned reducers -/

/-- The divisor without its trailing zeros. -/
theorem oddPart (h0 : d ≠ 0#w) (hpow : isPowerOfTwo d = false) :
    (d >>> d.ctz.toNat).toNat = d.toNat / 2 ^ d.ctz.toNat ∧ (d >>> d.ctz.toNat).toNat % 2 = 1 ∧
      3 ≤ (d >>> d.ctz.toNat).toNat ∧ (d >>> d.ctz.toNat).toNat < 2 ^ (w - d.ctz.toNat) := by
  have hlt := ctz_lt h0
  have hodd := div_ctz_odd h0
  have heq : (d >>> d.ctz.toNat).toNat = d.toNat / 2 ^ d.ctz.toNat := by
    rw [BitVec.toNat_ushiftRight, Nat.shiftRight_eq_div_pow]
  rw [heq]
  refine ⟨rfl, hodd, ?_, ?_⟩
  · have hne : d.toNat / 2 ^ d.ctz.toNat ≠ 1 := by
      intro hone
      have hdvd := Nat.div_mul_cancel (two_pow_ctz_dvd d)
      rw [hone, Nat.one_mul] at hdvd
      rw [isPowerOfTwo_iff.2 hdvd.symm] at hpow
      cases hpow
    omega
  · rw [Nat.div_lt_iff_lt_mul (Nat.two_pow_pos _), ← pow_add, show w - d.ctz.toNat + d.ctz.toNat = w by omega]
    exact d.isLt

/-- The fix-up for a multiplier of one bit more: the mean of dividend and high half, without overflow. -/
theorem add_fixup {m : Nat} (hs : 0 < s) (hm : 2 ^ w ≤ m) (hm' : m < 2 ^ (w + 1)) :
    n * (m - 2 ^ w) / 2 ^ w ≤ n ∧
      ((n - n * (m - 2 ^ w) / 2 ^ w) / 2 + n * (m - 2 ^ w) / 2 ^ w) / 2 ^ (s - 1) = n * m / 2 ^ (w + s) := by
  have hpos := Nat.two_pow_pos w
  have hhi : n * (m - 2 ^ w) / 2 ^ w ≤ n := by
    have hle : m - 2 ^ w ≤ 2 ^ w := by omega
    calc n * (m - 2 ^ w) / 2 ^ w ≤ n * 2 ^ w / 2 ^ w := Nat.div_le_div_right (Nat.mul_le_mul_left _ hle)
      _ = n := Nat.mul_div_cancel _ hpos
  have hsum : n * (m - 2 ^ w) / 2 ^ w + n = n * m / 2 ^ w := by
    rw [← Nat.add_mul_div_right _ _ hpos, ← Nat.mul_add, Nat.sub_add_cancel hm]
  refine ⟨hhi, ?_⟩
  generalize n * (m - 2 ^ w) / 2 ^ w = hi at hhi hsum ⊢
  rw [show (n - hi) / 2 + hi = (hi + n) / 2 by omega, hsum, Nat.div_div_eq_div_mul, Nat.div_div_eq_div_mul,
    ← pow_succ', show s - 1 + 1 = s by omega, ← pow_add]

theorem ushiftRight_ofNat (h : n < 2 ^ w) (k : Nat) : BitVec.ofNat w n >>> k = BitVec.ofNat w (n / 2 ^ k) := by
  rw [← BitVec.toNat_inj, BitVec.toNat_ushiftRight, BitVec.toNat_ofNat, BitVec.toNat_ofNat, Nat.mod_eq_of_lt h,
    Nat.shiftRight_eq_div_pow, Nat.mod_eq_of_lt ((Nat.div_le_self _ _).trans_lt h)]

theorem uintNDiv_computes (hw : 2 ≤ w) (h0 : d ≠ 0#w) (hpow : isPowerOfTwo d = false)
    (hx : Computes env x a) : Computes env (uintNDiv B x d) (BitVec.ofNat w (a.toNat / d.toNat)) := by
  obtain ⟨heq, hodd, h3, hlt⟩ := oddPart h0 hpow
  have hctz := ctz_lt h0
  have hdvd := two_pow_ctz_dvd d
  unfold uintNDiv
  dsimp only
  generalize d.ctz.toNat = sh at heq hodd h3 hlt hctz hdvd ⊢
  obtain ⟨m, hmag⟩ := unsignedDivisionByConstant_spec hw hctz.le h3 hodd hlt
  generalize unsignedDivisionByConstant (d >>> sh) sh = mag at hmag ⊢
  have hx' := hx.shr hctz
  have ha : (a >>> sh).toNat = a.toNat / 2 ^ sh := by rw [BitVec.toNat_ushiftRight, Nat.shiftRight_eq_div_pow]
  have hbound : (a >>> sh).toNat ≤ 2 ^ (w - sh) - 1 := by
    refine Nat.le_sub_one_of_lt ?_
    rw [ha, Nat.div_lt_iff_lt_mul (Nat.two_pow_pos _), ← pow_add, show w - sh + sh = w by omega]
    exact a.isLt
  rw [← Nat.mul_div_cancel' hdvd, ← heq, ← Nat.div_div_eq_div_mul, ← ha, ← hmag.div _ hbound]
  have hblt := (a >>> sh).isLt
  generalize a >>> sh = b at hx' hblt ⊢
  have hq := hx'.binop .uintMulHigh (computes_constant mag.multiplier)
  have hm : mag.multiplier.toNat = m % 2 ^ w := by rw [hmag.multiplier, BitVec.toNat_ofNat]
  rw [Binop.eval, hm] at hq
  split
  · rename_i hadd
    obtain ⟨hs, hs'⟩ := hmag.shift_of_add hadd
    have hmle : 2 ^ w ≤ m := by
      rw [hmag.add, decide_eq_true_eq] at hadd
      exact hadd
    have hmlt := hmag.lt
    obtain ⟨hhi, hfix⟩ := add_fixup hs hmle hmlt
    rw [Nat.mod_eq_sub_mod hmle, Nat.mod_eq_of_lt (by omega)] at hq
    rw [← hfix]
    generalize b.toNat * (m - 2 ^ w) / 2 ^ w = hi at hq hhi ⊢
    have hsub : b - BitVec.ofNat w hi = BitVec.ofNat w (b.toNat - hi) := by
      rw [← BitVec.ofNat_sub_ofNat_of_le _ _ (by omega) hhi, BitVec.ofNat_toNat, BitVec.setWidth_eq]
    have hres := (((hx'.sub B hq).shr (show 1 < w by omega)).add B hq).shr
      (show mag.shift - 1 < w by omega)
    rw [hsub, ushiftRight_ofNat (by omega), ← BitVec.ofNat_add, ushiftRight_ofNat (by omega)] at hres
    exact hres
  · rename_i hadd
    have hmlt : m < 2 ^ w := by
      rw [hmag.add, decide_eq_true_eq] at hadd
      omega
    rw [Nat.mod_eq_of_lt hmlt] at hq
    have hhi : b.toNat * m / 2 ^ w < 2 ^ w := by
      rw [Nat.div_lt_iff_lt_mul (Nat.two_pow_pos w)]
      exact Nat.mul_lt_mul'' hblt hmlt
    have hres := hq.shr (hmag.shift_of_not_add (Bool.eq_false_iff.2 hadd))
    rw [ushiftRight_ofNat hhi, Nat.div_div_eq_div_mul, ← pow_add] at hres
    exact hres

theorem unsignedDiv_eq (a b : BitVec w) : unsignedDiv a b = a / b := by
  unfold unsignedDiv
  split
  · rename_i h
    rw [h, BitVec.udiv_zero]
  · rw [BitVec.udiv_def]

theorem reduceUintNDiv_sound (left right : Node w) :
    (Node.binop .uintDiv left right).Sound (reduceUintNDiv G B left right) := by
  have hw := B.two_le
  refine Sound.orElse (sound_zeroDividend fun b => BitVec.zero_udiv) (Sound.orElse_of_none
    (sound_zeroDivisor fun a => BitVec.udiv_zero) fun h0 => Sound.orElse (sound_leftOf fun a => BitVec.udiv_one)
      (Sound.orElse (sound_fold fun env => (unsignedDiv_eq _ _).symm) (Sound.orElse
        (sound_sameNotZero G B fun a => ?_) (Sound.bind fun k hk => Sound.some fun env hv => ?_))))
  · rw [Binop.eval]
    simp
  · have hne := ne_of_onlyIf_none hk h0
    have hx : Computes env left (left.eval env) := ⟨hv.1, rfl⟩
    have hnode : (Node.binop .uintDiv left right).eval env = BitVec.ofNat w ((left.eval env).toNat / k.toNat) := by
      rw [eval, resolvedValue_eval hk, Binop.eval, BitVec.udiv_def]
    rw [hnode]
    split
    · rename_i hpow
      rw [isPowerOfTwo_iff] at hpow
      refine ⟨.binop (by decide) hv.1 trivial, ?_⟩
      rw [eval, eval, Binop.eval, Nat.mod_eq_of_lt (ctz_lt hne), hpow, ← BitVec.toNat_inj, BitVec.toNat_ushiftRight,
        Nat.shiftRight_eq_div_pow, BitVec.toNat_ofNat,
        Nat.mod_eq_of_lt ((Nat.div_le_self _ _).trans_lt (left.eval env).isLt)]
    · rename_i hpow
      have hres := uintNDiv_computes B hw hne (Bool.eq_false_iff.2 hpow) hx
      exact ⟨hres.valid, hres.eval⟩

theorem unsignedMod_eq (a b : BitVec w) : unsignedMod a b = Binop.uintMod.eval a b := by
  rw [unsignedMod, Binop.eval, BitVec.umod_def]

/-- What is left after subtracting the multiple of the divisor. -/
theorem sub_mul_div (a d : BitVec w) :
    a - BitVec.ofNat w (a.toNat / d.toNat) * d = BitVec.ofNat w (a.toNat % d.toNat) := by
  have hd : BitVec.ofNat w (a.toNat / d.toNat) * d = BitVec.ofNat w (a.toNat / d.toNat * d.toNat) := by
    rw [BitVec.ofNat_mul, BitVec.ofNat_toNat, BitVec.setWidth_eq]
  have hle : a.toNat / d.toNat * d.toNat ≤ a.toNat := Nat.div_mul_le_self _ _
  have hsub := BitVec.ofNat_sub_ofNat_of_le _ _ (hle.trans_lt a.isLt) hle
  rw [BitVec.ofNat_toNat, BitVec.setWidth_eq] at hsub
  have hmod := Nat.div_add_mod' a.toNat d.toNat
  rw [hd, hsub, show a.toNat - a.toNat / d.toNat * d.toNat = a.toNat % d.toNat by omega]

theorem reduceUintNMod_sound (left right : Node w) :
    (Node.binop .uintMod left right).Sound (reduceUintNMod G B left right) := by
  have hw := B.two_le
  refine Sound.orElse (sound_zeroDividend fun b => ?_) (Sound.orElse_of_none
    (sound_zeroDivisor fun a => ?_) fun h0 => Sound.orElse (sound_zeroOf fun a => ?_)
      (Sound.orElse (sound_sameZero G fun a => ?_) (Sound.orElse
        (sound_fold fun env => (unsignedMod_eq _ _).symm) (Sound.bind fun k hk => Sound.some fun env hv => ?_))))
  · rw [Binop.eval, BitVec.zero_umod, ite_self]
  · rw [Binop.eval, if_pos rfl]
  · rw [Binop.eval, BitVec.umod_one, ite_self]
  · rw [Binop.eval, BitVec.umod_self, ite_self]
  · have hne := ne_of_onlyIf_none hk h0
    have hx : Computes env left (left.eval env) := ⟨hv.1, rfl⟩
    have hnode : (Node.binop .uintMod left right).eval env = BitVec.ofNat w ((left.eval env).toNat % k.toNat) := by
      rw [eval, resolvedValue_eval hk, Binop.eval, if_neg hne, BitVec.umod_def]
    rw [hnode]
    split
    · rename_i hpow
      rw [isPowerOfTwo_iff] at hpow
      refine ⟨.binop (by decide) hv.1 trivial, ?_⟩
      rw [eval, eval, Binop.eval, and_mask hpow, ← hpow]
    · rename_i hpow
      have hq := uintNDiv_computes B hw hne (Bool.eq_false_iff.2 hpow) hx
      have hres := hx.binop .sub (hq.binop .mul (computes_constant k))
      rw [← sub_mul_div]
      exact ⟨hres.valid, hres.eval⟩

theorem reduceDivision_sound (op : Division) (left right : Node w) :
    (Node.binop op.binop left right).Sound (reduceDivision G B op left right) := by
  cases op with
  | div => exact reduceIntNDiv_sound G B left right
  | uintDiv => exact reduceUintNDiv_sound G B left right
  | mod => exact reduceIntNMod_sound G B left right
  | uintMod => exact reduceUintNMod_sound G B left right

/-- A constant divisor is never left alone: the last alternative takes any. -/
theorem reduceDivision_isSome (op : Division) (left : Node w) {right : Node w} (h : right.resolvedValue = some k) :
    (reduceDivision G B op left right).isSome = true := by
  cases op with
  | mod => by_cases hpow : isPowerOfTwo (abs k) = true <;> simp [reduceDivision, reduceIntNMod, h, hpow]
  | _ => simp [reduceDivision, reduceIntNDiv, reduceUintNDiv, reduceUintNMod, h]

/-- A division or remainder by a constant is rewritten, for either word size, and whatever the reducers return has the
word of the machine operation. -/
theorem reduceDivision_correct (op : Division) :
    (∀ left right : Node 32,
      (Node.binop op.binop left right).Sound (reduceDivision G (word32Builders G) op left right) ∧
        (right.resolvedValue.isSome = true → (reduceDivision G (word32Builders G) op left right).isSome = true)) ∧
    ∀ left right : Node 64,
      (Node.binop op.binop left right).Sound (reduceDivision G (word64Builders G) op left right) ∧
        (right.resolvedValue.isSome = true → (reduceDivision G (word64Builders G) op left right).isSome = true) := by
  refine ⟨fun left right => ⟨reduceDivision_sound G _ op left right, fun h => ?_⟩,
    fun left right => ⟨reduceDivision_sound G _ op left right, fun h => ?_⟩⟩
  · obtain ⟨k, hk⟩ := Option.isSome_iff_exists.1 h
    exact reduceDivision_isSome G _ op left hk
  · obtain ⟨k, hk⟩ := Option.isSome_iff_exists.1 h
    exact reduceDivision_isSome G _ op left hk

/-- A word divided by the smallest one, which is its own absolute value. -/
theorem reduceDivision_correct_intMin : ∃ r : Node 32,
    reduceDivision treeGraph (word32Builders treeGraph) .div (.leaf 0) (.constant (BitVec.intMin 32)) = some r ∧
      (Node.binop .div (.leaf 0) (.constant (BitVec.intMin 32))).Refines r := by
  obtain ⟨hsound, hsome⟩ := (reduceDivision_correct treeGraph .div).1 (.leaf 0) (.constant (BitVec.intMin 32))
  obtain ⟨r, hr⟩ := Option.isSome_iff_exists.1 (hsome rfl)
  exact ⟨r, hr, hsound r hr⟩

end V8Core.Compiler
