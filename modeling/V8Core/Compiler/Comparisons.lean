import V8Core.Compiler.WordSoundness
/-!
# Reducing order comparisons

The 32-bit comparisons, and `ReduceWord64Comparisons`, which narrows a 64-bit comparison
of extended 32-bit words to a 32-bit one. A right shift that shifts out zeros only is
moved to the constant on the other side, and there the narrowing asks whether the shifted
constant fits into 32 bits as a signed word. For a zero-extended word the new comparison
is unsigned, and a negative constant then turns into a large one.
-/

namespace V8Core.Compiler

open Node WordFacts

variable (G : GraphInfo) {w : Nat}
variable {c : BitVec 32} {env : Env}

/-! ## Comparisons of 32-bit words -/

/-- `(x >> K) cmp (y >> K)`: the shifted words, if both shifts shift out zeros only. -/
def bothShifted (left right : Node w) : Option (Node w × Node w) := do
  let (x, s) ← left.inputs .sarShiftOutZeros
  let (y, t) ← right.inputs .sarShiftOutZeros
  let k ← s.resolvedValue
  if t.is k then some (x, y) else none

/-- `(x >> n) cmp k`: the shifted word and `k << n`, if shifting `k` loses nothing. -/
def revertShift (shifted : Node w) (k : BitVec w) : Option (Node w × BitVec w) := do
  let (x, s) ← shifted.inputs .sarShiftOutZeros
  let shift ← s.resolvedValue
  if G.usedOnce shifted && canRevertLeftShiftWithRightShift k shift then some (x, k <<< shift.toNat) else none

/-- `ReduceWord32Comparisons`. -/
def reduceWord32Comparisons (op : Comparison) (left right : Node 32) : Option (Node 32) :=
  (do
    let (x, y) ← bothShifted left right
    return .compare op x y)
  <|> (do
    let k ← right.resolvedValue
    let (x, value) ← revertShift G left k
    return .compare op x (.constant value))
  <|> (do
    let k ← left.resolvedValue
    let (x, value) ← revertShift G right k
    return .compare op (.constant value) x)

/-- `ReplaceBool(value)`. -/
def replaceBool (value : Bool) : Node 32 := .constant (ofBool value)

/-- `K cmp K => K`. -/
def foldCompare (op : Comparison) (left right : Node w) : Option (Node 32) := do
  let a ← left.resolvedValue
  let b ← right.resolvedValue
  return replaceBool (op.test a b)

/-- `IsNegative()`. -/
def Node.isNegative (node : Node w) : Bool :=
  match node.resolvedValue with
  | some k => k.slt 0#w
  | none => false

/-- `Reduce` on `Int32LessThan`. -/
def reduceInt32LessThan (left right : Node 32) : Option (Node 32) :=
  foldCompare .lessThan left right
  <|> onlyIf (G.same left right) (replaceBool false)
  <|> (do  -- (x | K) < 0 => true
    let (x, y) ← left.inputs .or
    onlyIf (right.is 0#32 && (x.isNegative || y.isNegative)) (replaceBool true))
  <|> reduceWord32Comparisons G .lessThan left right

/-- `Reduce` on `Int32LessThanOrEqual`. -/
def reduceInt32LessThanOrEqual (left right : Node 32) : Option (Node 32) :=
  foldCompare .lessThanOrEqual left right
  <|> onlyIf (G.same left right) (replaceBool true)
  <|> reduceWord32Comparisons G .lessThanOrEqual left right

/-- `Reduce` on `Uint32LessThan`. -/
def reduceUint32LessThan (left right : Node 32) : Option (Node 32) :=
  onlyIf (left.is (-1#32)) (replaceBool false)
  <|> onlyIf (right.is 0#32) (replaceBool false)
  <|> foldCompare .uintLessThan left right
  <|> onlyIf (G.same left right) (replaceBool false)
  <|> (do  -- (x >> K) < C => x < (C << K) when C < (M >> K)
    let (x, s) ← left.sarInputs
    let c ← right.resolvedValue
    let k ← s.resolvedValue
    let k := (k &&& 0x1F#32).toNat
    if c.toNat < (2 ^ 31 - 1) >>> k then some (.compare .uintLessThan x (.constant (c <<< k))) else none)
  <|> reduceWord32Comparisons G .uintLessThan left right

/-- `ReduceUintNLessThanOrEqual`, with `ReduceWordNComparisons` of the word size. -/
def reduceUintNLessThanOrEqual (reduceWordNComparisons : Node w → Node w → Option (Node 32)) (left right : Node w) :
    Option (Node 32) :=
  onlyIf (left.is 0#w) (replaceBool true)
  <|> onlyIf (right.is (-1#w)) (replaceBool true)
  <|> foldCompare .uintLessThanOrEqual left right
  <|> onlyIf (G.same left right) (replaceBool true)
  <|> onlyIf (right.is 0#w) (.compare .equal left right)
  <|> reduceWordNComparisons left right

/-- `Reduce` on a comparison of 32-bit words. -/
def reduceCompare32 (op : Comparison) (left right : Node 32) : Option (Node 32) :=
  match op with
  | .equal => reduceWord32Equal G (word32Adapter G) left right
  | .lessThan => reduceInt32LessThan G left right
  | .lessThanOrEqual => reduceInt32LessThanOrEqual G left right
  | .uintLessThan => reduceUint32LessThan G left right
  | .uintLessThanOrEqual =>
    reduceUintNLessThanOrEqual G (reduceWord32Comparisons G .uintLessThanOrEqual) left right

/-! ## Comparisons of 64-bit words -/

/-- `Map64To32Comparison(op, sign_extended)`. -/
def map64To32Comparison (op : Comparison) (signExtended : Bool) : Comparison :=
  match op with
  | .lessThan => if signExtended then .lessThan else .uintLessThan
  | .lessThanOrEqual => if signExtended then .lessThanOrEqual else .uintLessThanOrEqual
  | op => op

/-- `CanTruncate(value)`. -/
def canTruncate (value : BitVec 64) : Bool := -2 ^ 31 ≤ value.toInt && value.toInt ≤ 2 ^ 31 - 1

/-- `IsChangeInt32ToInt64()` or `IsChangeUint32ToUint64()`: whether it is the former, and the input. -/
def Node.extended (node : Node 64) : Option (Bool × Node 32) :=
  match node with
  | .changeInt32ToInt64 x => some (true, x)
  | .changeUint32ToUint64 x => some (false, x)
  | _ => none

/-- `Changed(node).FollowedBy(Reduce(node))` on the narrowed comparison. -/
def narrow (op : Comparison) (signExtended : Bool) (left right : Node 32) : Node 32 :=
  let op := map64To32Comparison op signExtended
  followedBy (.compare op left right) (reduceCompare32 G op left right)

/-- `static_cast<uint32_t>(value) == value`. -/
def fitsUint32 (value : BitVec 64) : Bool := (value.setWidth 32).setWidth 64 == value

/-- `Int64LessThan(Int32ToInt64(a), Int64Constant(c))` and the like, with the constant on the right. -/
def reduceInt64CompareConstant (op : Comparison) (left : Node 64) (k : BitVec 64) : Option (Node 32) :=
  match left with
  | .changeInt32ToInt64 a =>
    if fitsInt32 k then some (.compare op a (.constant (k.setWidth 32)))
    else if k.toInt < -2 ^ 31 then some (.constant 0#32)
    else if k.toInt > 2 ^ 31 - 1 then some (.constant 1#32)
    else none
  | _ => none

/-- The same with the constant on the left. -/
def reduceConstantCompareInt64 (op : Comparison) (k : BitVec 64) (right : Node 64) : Option (Node 32) :=
  match right with
  | .changeInt32ToInt64 a =>
    if fitsInt32 k then some (.compare op (.constant (k.setWidth 32)) a)
    else if k.toInt < -2 ^ 31 then some (.constant 1#32)
    else if k.toInt > 2 ^ 31 - 1 then some (.constant 0#32)
    else none
  | _ => none

/-- `Uint64LessThan(Uint32ToInt64(a), Uint64Constant(c))` and the like, with the constant on the right. -/
def reduceUint64CompareConstant (op : Comparison) (left : Node 64) (k : BitVec 64) : Option (Node 32) :=
  match left with
  | .changeUint32ToUint64 a =>
    if fitsUint32 k then some (.compare op a (.constant (k.setWidth 32))) else some (.constant 1#32)
  | _ => none

/-- The same with the constant on the left. -/
def reduceConstantCompareUint64 (op : Comparison) (k : BitVec 64) (right : Node 64) : Option (Node 32) :=
  match right with
  | .changeUint32ToUint64 a =>
    if fitsUint32 k then some (.compare op (.constant (k.setWidth 32)) a) else some (.constant 0#32)
  | _ => none

/-- `Int64LessThan` or `Int64LessThanOrEqual`. -/
def Comparison.isSigned : Comparison → Bool
  | .lessThan | .lessThanOrEqual => true
  | _ => false

/-- `Uint64LessThan` or `Uint64LessThanOrEqual`. -/
def Comparison.isUnsigned : Comparison → Bool
  | .uintLessThan | .uintLessThanOrEqual => true
  | _ => false

/-- `ReduceWord64Comparisons`. -/
def reduceWord64Comparisons (op : Comparison) (left right : Node 64) : Option (Node 32) :=
  (do
    let (signExtended, x) ← left.extended
    let (signExtended', y) ← right.extended
    onlyIf (signExtended == signExtended') (narrow G op signExtended x y))
  <|> (do  -- (x >> K) < (y >> K) => x < y
    let (x, y) ← bothShifted left right
    return .compare op x y)
  <|> (do  -- (x >> n) cmp k => x cmp (k << n)
    let k ← right.resolvedValue
    let (x, value) ← revertShift G left k
    match x.extended with
    | some (signExtended, a) =>
      if canTruncate value then some (narrow G op signExtended a (.constant (value.setWidth 32)))
      else some (.compare op x (.constant value))
    | none => some (.compare op x (.constant value)))
  <|> (do  -- k cmp (x >> n) => (k << n) cmp x
    let k ← left.resolvedValue
    let (x, value) ← revertShift G right k
    match x.extended with
    | some (signExtended, a) =>
      if canTruncate value then some (narrow G op signExtended (.constant (value.setWidth 32)) a)
      else some (.compare op (.constant value) x)
    | none => some (.compare op (.constant value) x))
  <|> (if op.isSigned then
      (do reduceInt64CompareConstant op left (← right.resolvedValue))
      <|> (do reduceConstantCompareInt64 op (← left.resolvedValue) right)
    else none)
  <|> (if op.isUnsigned then
      (do reduceUint64CompareConstant op left (← right.resolvedValue))
      <|> (do reduceConstantCompareUint64 op (← left.resolvedValue) right)
    else none)

/-! ## Comparisons under scaling and extension -/

variable {node : Node 64}

/-- Words whose signed values are scaled alike compare alike. -/
theorem Comparison.test_scale {v : Nat} {a b : BitVec w} {a' b' : BitVec v} {c : ℤ} (hc : 0 < c)
    (ha : a.toInt = c * a'.toInt) (hb : b.toInt = c * b'.toInt) (op : Comparison) : op.test a b = op.test a' b' := by
  rw [Bool.eq_iff_iff]
  cases op with
  | equal =>
    simp only [Comparison.test, beq_iff_eq, ← BitVec.toInt_inj, ha, hb]
    exact mul_right_inj' hc.ne'
  | lessThan => simp only [Comparison.test, BitVec.slt_iff_toInt_lt, ha, hb, mul_lt_mul_iff_right₀ hc]
  | lessThanOrEqual => simp only [Comparison.test, BitVec.sle_iff_toInt_le, ha, hb, mul_le_mul_iff_right₀ hc]
  | uintLessThan =>
    simp only [Comparison.test, BitVec.ult, decide_eq_true_eq]
    exact toNat_lt_iff_of_scale hc ha hb
  | uintLessThanOrEqual =>
    simp only [Comparison.test, BitVec.ule, decide_eq_true_eq, ← Nat.not_lt]
    exact not_congr (toNat_lt_iff_of_scale hc hb ha)

theorem toInt_zeroExtend (a : BitVec 32) : (a.setWidth 64).toInt = a.toNat := by
  rw [BitVec.toInt_eq_toNat_of_lt] <;> rw [BitVec.toNat_setWidth, Nat.mod_eq_of_lt (by omega)]
  omega

variable (op : Comparison)

/-- Sign-extended words compare as before. -/
theorem Comparison.test_signExtended (a b : BitVec 32) :
    op.test (a.signExtend 64) (b.signExtend 64) = (map64To32Comparison op true).test a b := by
  have hext : ∀ x : BitVec 32, (x.signExtend 64).toInt = 1 * x.toInt := fun x => by
    rw [BitVec.toInt_signExtend_of_le (by decide), one_mul]
  have h := Comparison.test_scale one_pos (hext a) (hext b) op
  cases op <;> exact h

/-- Zero-extended words compare as unsigned words. -/
theorem Comparison.test_zeroExtended (a b : BitVec 32) :
    op.test (a.setWidth 64) (b.setWidth 64) = (map64To32Comparison op false).test a b := by
  rw [Bool.eq_iff_iff]
  cases op with
  | equal =>
    simp only [Comparison.test, map64To32Comparison, beq_iff_eq, ← BitVec.toInt_inj (x := a.setWidth 64),
      toInt_zeroExtend, ← BitVec.toNat_inj, Nat.cast_inj]
  | lessThan =>
    simp only [Comparison.test, map64To32Comparison, BitVec.slt_iff_toInt_lt, toInt_zeroExtend, Bool.false_eq_true,
      if_false, BitVec.ult, decide_eq_true_eq, Nat.cast_lt]
  | lessThanOrEqual =>
    simp only [Comparison.test, map64To32Comparison, BitVec.sle_iff_toInt_le, toInt_zeroExtend, Bool.false_eq_true,
      if_false, BitVec.ule, decide_eq_true_eq, Nat.cast_le]
  | uintLessThan =>
    simp only [Comparison.test, map64To32Comparison, BitVec.ult, BitVec.toNat_setWidth]
    rw [Nat.mod_eq_of_lt (by omega), Nat.mod_eq_of_lt (by omega)]
  | uintLessThanOrEqual =>
    simp only [Comparison.test, map64To32Comparison, BitVec.ule, BitVec.toNat_setWidth]
    rw [Nat.mod_eq_of_lt (by omega), Nat.mod_eq_of_lt (by omega)]

variable {signExtended : Bool} {x : Node 32} {b k : BitVec 64}

theorem extended_eval (h : node.extended = some (signExtended, x)) (env : Env) :
    node.eval env = if signExtended then (x.eval env).signExtend 64 else (x.eval env).setWidth 64 := by
  unfold extended at h
  split at h <;> cases h <;> rfl

theorem extended_valid (h : node.extended = some (signExtended, x))
    (hv : node.Valid env) : x.Valid env := by
  unfold extended at h
  split at h <;> cases h <;> exact hv

theorem bothShifted_sound (hw : 0 < w) {left right : Node w} (hl : left.Valid env) (hr : right.Valid env) :
    Yields (bothShifted left right) fun p => p.1.Valid env ∧ p.2.Valid env ∧
      ∀ op : Comparison, op.test (p.1.eval env) (p.2.eval env) = op.test (left.eval env) (right.eval env) := by
  refine Yields.bind₂ fun x s hx => Yields.bind₂ fun y t hy => Yields.bind fun k hs => Yields.ite fun ht => ?_
  refine ⟨(inputs_valid hx hl).1, (inputs_valid hy hr).1, Comparison.test_scale (pow_pos two_pos (k.toNat % w)) ?_ ?_⟩
  · have hz := inputs_shiftsOutZeros hx hl
    rw [resolvedValue_eval hs] at hz
    rw [inputs_eval hx, resolvedValue_eval hs]
    exact toInt_eq_mul_sshiftRight (Nat.mod_lt _ hw).le hz
  · have hz := inputs_shiftsOutZeros hy hr
    rw [is_eval ht] at hz
    rw [inputs_eval hy, is_eval ht]
    exact toInt_eq_mul_sshiftRight (Nat.mod_lt _ hw).le hz

/-- Moving the shift to the constant scales both sides. -/
theorem revertShift_sound {shifted : Node w} {k : BitVec w} (hv : shifted.Valid env) :
    Yields (revertShift G shifted k) fun p => p.1.Valid env ∧
      ∃ c : ℤ, 0 < c ∧ (p.1.eval env).toInt = c * (shifted.eval env).toInt ∧ p.2.toInt = c * k.toInt := by
  refine Yields.bind₂ fun x s hx => Yields.bind fun shift hs => Yields.ite fun h => ?_
  rw [Bool.and_eq_true] at h
  obtain ⟨hlt, hrev⟩ := canRevert_spec h.2
  have hz := inputs_shiftsOutZeros hx hv
  rw [ShiftsOutZeros, resolvedValue_eval hs, Nat.mod_eq_of_lt hlt] at hz
  refine ⟨(inputs_valid hx hv).1, 2 ^ shift.toNat, pow_pos two_pos _, ?_, toInt_shl_of_revert hlt.le hrev⟩
  rw [inputs_eval hx, Binop.eval, resolvedValue_eval hs, Nat.mod_eq_of_lt hlt]
  exact toInt_eq_mul_sshiftRight hlt.le hz

/-- This keeps the outcome, and the sign of the constant. -/
theorem test_shifted {shifted x : Node w} {k value : BitVec w}
    (h : revertShift G shifted k = some (x, value)) (hv : shifted.Valid env) :
    x.Valid env ∧
      op.test (x.eval env) value = op.test (shifted.eval env) k ∧
      op.test value (x.eval env) = op.test k (shifted.eval env) ∧ (value.toInt < 0 ↔ k.toInt < 0) := by
  obtain ⟨hx, c, hc, h1, h2⟩ := revertShift_sound G hv _ h
  refine ⟨hx, Comparison.test_scale hc h1 h2 op, Comparison.test_scale hc h2 h1 op, ?_⟩
  rw [h2, ← mul_zero c, mul_lt_mul_iff_right₀ hc, mul_zero]

/-! ## The 32-bit reducers -/

section
variable {v : Nat} {op op' : Comparison} {l r : Node w} {l' r' : Node v}

theorem refines_compare
    (h : ∀ env, l.Valid env → r.Valid env → l'.Valid env ∧ r'.Valid env ∧
      op'.test (l'.eval env) (r'.eval env) = op.test (l.eval env) (r.eval env)) :
    (Node.compare op l r).Refines (.compare op' l' r') := by
  intro env hv
  obtain ⟨hl, hr, ht⟩ := h env hv.1 hv.2
  exact ⟨⟨hl, hr⟩, congrArg ofBool ht⟩

theorem refines_replaceBool (value : Bool) (h : ∀ env, op.test (l.eval env) (r.eval env) = value) :
    (Node.compare op l r).Refines (replaceBool value) := fun env _ => ⟨trivial, congrArg ofBool (h env).symm⟩

theorem foldCompare_sound : (Node.compare op l r).Sound (foldCompare op l r) :=
  Sound.bind fun a ha => Sound.bind fun b hb => Sound.some (refines_replaceBool _ fun env => by
    rw [resolvedValue_eval ha, resolvedValue_eval hb])

/-- `x cmp x` is what the comparison says of equal words. -/
theorem sound_compareSame {value : Bool} (h : ∀ x : BitVec w, op.test x x = value) :
    (Node.compare op l r).Sound (onlyIf (G.same l r) (replaceBool value)) :=
  Sound.onlyIf fun hs => refines_replaceBool _ fun env => by rw [G.same_eq _ _ hs]; exact h _

end

variable (left right : Node 32)

theorem reduceWord32Comparisons_sound :
    (Node.compare op left right).Sound (reduceWord32Comparisons G op left right) := by
  refine Sound.orElse (Sound.bind₂ fun x y h => Sound.some (refines_compare fun env hl hr => ?_))
    (Sound.orElse
      (Sound.bind fun k hk => Sound.bind₂ fun x value h => Sound.some (refines_compare fun env hl hr => ?_))
      (Sound.bind fun k hk => Sound.bind₂ fun x value h => Sound.some (refines_compare fun env hl hr => ?_)))
  · obtain ⟨hx, hy, ht⟩ := bothShifted_sound (by decide) hl hr _ h
    exact ⟨hx, hy, ht op⟩
  · obtain ⟨hx, ht, -⟩ := test_shifted G op h hl
    exact ⟨hx, trivial, by rwa [resolvedValue_eval hk]⟩
  · obtain ⟨hx, -, ht, -⟩ := test_shifted G op h hr
    exact ⟨trivial, hx, by rwa [resolvedValue_eval hk]⟩

theorem isNegative_eval {node : Node w} (h : node.isNegative = true) (env : Env) :
    (node.eval env).msb = true := by
  unfold isNegative at h
  split at h
  · rename_i k hk
    rwa [resolvedValue_eval hk, ← BitVec.slt_zero_eq_msb]
  · cases h

theorem reduceInt32LessThan_sound :
    (Node.compare .lessThan left right).Sound (reduceInt32LessThan G left right) := by
  refine Sound.orElse foldCompare_sound (Sound.orElse (sound_compareSame G fun x => by simp [Comparison.test, BitVec.slt])
    (Sound.orElse (Sound.bind₂ fun x y hin => Sound.onlyIf fun h => refines_replaceBool _ fun env => ?_)
      (reduceWord32Comparisons_sound G _ left right)))
  rw [Bool.and_eq_true, Bool.or_eq_true] at h
  rw [Comparison.test, is_eval h.1, BitVec.slt_zero_eq_msb, inputs_eval hin, Binop.eval, BitVec.msb_or]
  rcases h.2 with hx | hy
  · rw [isNegative_eval hx, Bool.true_or]
  · rw [isNegative_eval hy, Bool.or_true]

theorem reduceInt32LessThanOrEqual_sound :
    (Node.compare .lessThanOrEqual left right).Sound (reduceInt32LessThanOrEqual G left right) :=
  Sound.orElse foldCompare_sound (Sound.orElse (sound_compareSame G fun x => by simp [Comparison.test, BitVec.sle])
    (reduceWord32Comparisons_sound G _ left right))

/-- An unsigned comparison of a signed shift with a small constant. -/
theorem ult_sshiftRight {x : BitVec 32} {k : Nat} (hc : c.toNat < (2 ^ 31 - 1) >>> k) :
    (x.sshiftRight k).ult c = x.ult (c <<< k) := by
  have hpos : 0 < 2 ^ k := Nat.two_pow_pos k
  rw [Nat.shiftRight_eq_div_pow, Nat.lt_div_iff_mul_lt hpos] at hc
  have hshl : (c <<< k).toNat = c.toNat * 2 ^ k := by
    rw [BitVec.toNat_shiftLeft, Nat.shiftLeft_eq]
    omega
  simp only [BitVec.ult, hshl, decide_eq_decide]
  cases hx : x.msb with
  | false => rw [BitVec.sshiftRight_eq_of_msb_false hx, BitVec.toNat_ushiftRight, Nat.shiftRight_eq_div_pow,
      Nat.div_lt_iff_lt_mul hpos]
  | true =>
    -- both words are at least `2 ^ 31`
    have hs : (x.sshiftRight k).msb = true := by rw [BitVec.msb_sshiftRight, hx]
    rw [BitVec.msb_eq_decide, decide_eq_true_eq] at hx hs
    have hle : c.toNat ≤ c.toNat * 2 ^ k := Nat.le_mul_of_pos_right _ hpos
    omega

theorem reduceUint32LessThan_sound :
    (Node.compare .uintLessThan left right).Sound (reduceUint32LessThan G left right) := by
  refine Sound.orElse (Sound.onlyIf fun h => refines_replaceBool _ fun env => ?_)
    (Sound.orElse (Sound.onlyIf fun h => refines_replaceBool _ fun env => ?_) (Sound.orElse foldCompare_sound
      (Sound.orElse (sound_compareSame G fun x => by simp [Comparison.test, BitVec.ult])
        (Sound.orElse (Sound.bind₂ fun x s hin => Sound.bind fun c hc => Sound.bind fun k hk => ?_)
          (reduceWord32Comparisons_sound G _ left right)))))
  · have hlt := (right.eval env).isLt
    rw [Comparison.test, is_eval h, BitVec.ult, decide_eq_false_iff_not, show (-1#32).toNat = 2 ^ 32 - 1 from rfl]
    omega
  · rw [Comparison.test, is_eval h]
    exact decide_eq_false (Nat.not_lt_zero _)
  · dsimp only
    split
    · rename_i hlt
      refine Sound.some (refines_compare fun env hl hr => ⟨(sarInputs_valid hin hl).1, trivial, ?_⟩)
      rw [toNat_and_31] at hlt ⊢
      rw [sarInputs_eval hin, resolvedValue_eval hk, resolvedValue_eval hc]
      exact (ult_sshiftRight hlt).symm
    · exact Sound.none

theorem reduceUintNLessThanOrEqual_sound {reduceWordNComparisons : Node w → Node w → Option (Node 32)}
    {left right : Node w}
    (h : (Node.compare .uintLessThanOrEqual left right).Sound (reduceWordNComparisons left right)) :
    (Node.compare .uintLessThanOrEqual left right).Sound
      (reduceUintNLessThanOrEqual G reduceWordNComparisons left right) := by
  refine Sound.orElse (Sound.onlyIf fun h => refines_replaceBool _ fun env => ?_)
    (Sound.orElse (Sound.onlyIf fun h => refines_replaceBool _ fun env => ?_) (Sound.orElse foldCompare_sound
      (Sound.orElse (sound_compareSame G fun x => by simp [Comparison.test, BitVec.ule])
        (Sound.orElse (Sound.onlyIf fun h => refines_compare fun env hl hr => ⟨hl, hr, ?_⟩) h))))
  · rw [Comparison.test, is_eval h]
    exact decide_eq_true (Nat.zero_le _)
  · have hlt := (left.eval env).isLt
    rw [Comparison.test, is_eval h, BitVec.ule, BitVec.neg_one_eq_allOnes, BitVec.toNat_allOnes]
    exact decide_eq_true (by omega)
  · rw [Comparison.test, Comparison.test, is_eval h, Bool.eq_iff_iff, beq_iff_eq, BitVec.ule, ← BitVec.toNat_inj]
    simp

theorem reduceCompare32_sound :
    (Node.compare op left right).Sound (reduceCompare32 G op left right) := by
  cases op with
  | equal => exact reduceWord32Equal_sound G _ left right
  | lessThan => exact reduceInt32LessThan_sound G left right
  | lessThanOrEqual => exact reduceInt32LessThanOrEqual_sound G left right
  | uintLessThan => exact reduceUint32LessThan_sound G left right
  | uintLessThanOrEqual => exact reduceUintNLessThanOrEqual_sound G (reduceWord32Comparisons_sound G _ left right)

/-! ## The 64-bit reducers -/

variable {shifted : Node 64}

theorem narrow_refines {op : Comparison} {l r : Node 64} {y : Node 32}
    (h : ∀ env, l.Valid env → r.Valid env → x.Valid env ∧ y.Valid env ∧
      (map64To32Comparison op signExtended).test (x.eval env) (y.eval env) = op.test (l.eval env) (r.eval env)) :
    (Node.compare op l r).Refines (narrow G op signExtended x y) :=
  Refines.followedBy (refines_compare h) (reduceCompare32_sound G _ x y)

/-- Both operands extended in one way. -/
theorem Comparison.test_narrow (signExtended : Bool) (a b : BitVec 32) :
    op.test (if signExtended then a.signExtend 64 else a.setWidth 64)
        (if signExtended then b.signExtend 64 else b.setWidth 64) =
      (map64To32Comparison op signExtended).test a b := by
  cases signExtended with
  | true => exact op.test_signExtended a b
  | false => exact op.test_zeroExtended a b

/-- A constant that can be truncated is the extension of what is left: the sign extension always,
the zero extension unless it is negative. -/
theorem extend_of_canTruncate {value : BitVec 64} (h : canTruncate value = true)
    (hs : signExtended = true ∨ 0 ≤ value.toInt) :
    (if signExtended then (value.setWidth 32).signExtend 64 else (value.setWidth 32).setWidth 64) = value := by
  simp only [canTruncate, Bool.and_eq_true, decide_eq_true_eq] at h
  cases signExtended with
  | true =>
    rw [if_pos rfl, ← BitVec.toInt_inj, BitVec.toInt_signExtend_of_le (by decide), BitVec.toInt_setWidth]
    rw [BitVec.toInt_eq_toNat_cond] at h ⊢
    rw [Int.bmod_def]
    split <;> split <;> omega
  | false =>
    have hpos := hs.resolve_left (by decide)
    rw [BitVec.toInt_eq_toNat_cond] at h hpos
    rw [if_neg (by decide), ← BitVec.toNat_inj, BitVec.toNat_setWidth, BitVec.toNat_setWidth]
    split at hpos <;> omega

/-- A non-negative word compares with a negative one as zero with minus one. -/
theorem Comparison.test_of_signs {a : BitVec 64} (ha : 0 ≤ a.toInt) (hb : b.toInt < 0) :
    op.test a b = op.test 0#64 (-1#64) ∧ op.test b a = op.test (-1#64) 0#64 := by
  have hab : b.toInt < a.toInt := by omega
  have hult : a.toNat < b.toNat := by
    rw [toNat_lt_iff_toInt, if_neg (by omega)]
    exact .inl hb
  have hne : a ≠ b := by rintro rfl; omega
  cases op with
  | equal => exact ⟨beq_eq_false_iff_ne.2 hne, beq_eq_false_iff_ne.2 hne.symm⟩
  | lessThan => exact ⟨decide_eq_false (by omega), decide_eq_true hab⟩
  | lessThanOrEqual => exact ⟨decide_eq_false (by omega), decide_eq_true hab.le⟩
  | uintLessThan => exact ⟨decide_eq_true hult, decide_eq_false (by omega)⟩
  | uintLessThanOrEqual => exact ⟨decide_eq_true hult.le, decide_eq_false (by omega)⟩

/-- `(x >> n) cmp k` where `x` is zero-extended, `k` is negative and `k << n` passes for a 32-bit
constant: the 32-bit operands. -/
def zeroExtendedNegative (shifted : Node 64) (k : BitVec 64) : Option (Node 32 × BitVec 32) := do
  let (x, value) ← revertShift G shifted k
  match x.extended with
  | some (false, a) => if canTruncate value && k.slt 0#64 then some (a, value.setWidth 32) else none
  | _ => none

/-- How a 32-bit word has to lie to the low word `c` of a negative constant on its right: the 64-bit comparison takes
the constant for smaller if it is signed, and for larger if it is not. -/
def LiesLeftOf (op : Comparison) (a c : BitVec 32) : Prop :=
  match op with
  | .equal => a ≠ c
  | .lessThan => c.toNat ≤ a.toNat
  | .lessThanOrEqual => c.toNat < a.toNat
  | .uintLessThan => a.toNat < c.toNat
  | .uintLessThanOrEqual => a.toNat ≤ c.toNat

/-- The same for the low word `c` of a negative constant on its left. -/
def LiesRightOf (op : Comparison) (c a : BitVec 32) : Prop :=
  match op with
  | .equal => a ≠ c
  | .lessThan => c.toNat < a.toNat
  | .lessThanOrEqual => c.toNat ≤ a.toNat
  | .uintLessThan => a.toNat ≤ c.toNat
  | .uintLessThanOrEqual => a.toNat < c.toNat

/-- Where a zero-extended word is compared with a negative constant after the shift, the word lies to the low word of
the shifted constant as the comparison of 64 bits says. -/
def NarrowsWell (op : Comparison) (left right : Node 64) (env : Env) : Prop :=
  match right.resolvedValue.bind (zeroExtendedNegative G left),
    left.resolvedValue.bind (zeroExtendedNegative G right) with
  | some (a, c), _ => LiesLeftOf op (a.eval env) c
  | none, some (a, c) => LiesRightOf op c (a.eval env)
  | none, none => True

theorem liesLeftOf_iff (op : Comparison) (a c : BitVec 32) :
    (map64To32Comparison op false).test a c = op.test 0#64 (-1#64) ↔ LiesLeftOf op a c := by
  cases op with
  | equal => exact beq_eq_false_iff_ne
  | lessThan => exact decide_eq_false_iff_not.trans Nat.not_lt
  | lessThanOrEqual => exact decide_eq_false_iff_not.trans Nat.not_le
  | uintLessThan | uintLessThanOrEqual => exact decide_eq_true_iff

theorem liesRightOf_iff (op : Comparison) (c a : BitVec 32) :
    (map64To32Comparison op false).test c a = op.test (-1#64) 0#64 ↔ LiesRightOf op c a := by
  cases op with
  | equal => exact beq_eq_false_iff_ne.trans ne_comm
  | lessThan | lessThanOrEqual => exact decide_eq_true_iff
  | uintLessThan => exact decide_eq_false_iff_not.trans Nat.not_lt
  | uintLessThanOrEqual => exact decide_eq_false_iff_not.trans Nat.not_le

section Shifted
variable {k value : BitVec 64} {x : Node 64} {signExtended : Bool} {a : Node 32}

/-- What is narrowed outside `zeroExtendedNegative` is extended as its constant is. -/
theorem narrowed_sign (h : revertShift G shifted k = some (x, value)) (hx : x.extended = some (signExtended, a))
    (hc : canTruncate value = true) (hn : zeroExtendedNegative G shifted k = none) :
    signExtended = true ∨ ¬ k.toInt < 0 := by
  cases signExtended with
  | true => exact .inl rfl
  | false =>
    simp only [zeroExtendedNegative, h, Option.bind_eq_bind, Option.bind_some, hx, hc, Bool.true_and] at hn
    refine .inr fun hk => ?_
    rw [if_pos (by rwa [BitVec.slt_iff_toInt_lt])] at hn
    cases hn

/-- The narrowed comparison, where the constant keeps its sign in 32 bits. -/
theorem test_narrowed (op : Comparison) (h : revertShift G shifted k = some (x, value))
    (hn : zeroExtendedNegative G shifted k = none) (hx : x.extended = some (signExtended, a))
    (hc : canTruncate value = true) (hv : shifted.Valid env) :
    a.Valid env ∧
      (map64To32Comparison op signExtended).test (a.eval env) (value.setWidth 32) = op.test (shifted.eval env) k ∧
      (map64To32Comparison op signExtended).test (value.setWidth 32) (a.eval env) = op.test k (shifted.eval env) := by
  obtain ⟨hxv, h1, h2, hsign⟩ := test_shifted G op h hv
  have hs := (narrowed_sign G h hx hc hn).imp_right fun hk => not_lt.1 (mt hsign.1 hk)
  rw [← h1, ← h2, extended_eval hx, ← Comparison.test_narrow, ← Comparison.test_narrow, extend_of_canTruncate hc hs]
  exact ⟨extended_valid hx hxv, rfl, rfl⟩

/-- A comparison is narrowed if its operand is extended and the constant fits. -/
theorem sound_narrowed {node plain : Node 32} {narrowed : Bool → Node 32 → Node 32} (hplain : node.Refines plain)
    (h : ∀ signExtended a, x.extended = some (signExtended, a) → canTruncate value = true →
      node.Refines (narrowed signExtended a)) :
    node.Sound (match x.extended with
      | some (signExtended, a) => if canTruncate value then some (narrowed signExtended a) else some plain
      | none => some plain) := by
  split
  · rename_i signExtended a hx
    split
    · rename_i hc
      exact Sound.some (h signExtended a hx hc)
    · exact Sound.some hplain
  · exact Sound.some hplain

end Shifted

section Constants
variable {op : Comparison} {l r : Node 64} {k : BitVec 64}

theorem map64To32Comparison_signed (op : Comparison) : map64To32Comparison op true = op := by
  cases op <;> rfl

theorem map64To32Comparison_unsigned (h : op.isUnsigned = true) : map64To32Comparison op false = op := by
  cases op <;> simp_all [Comparison.isUnsigned, map64To32Comparison]

theorem Comparison.test_of_lt (hop : op.isSigned = true) {a : BitVec 64} (h : a.toInt < b.toInt) :
    op.test a b = true ∧ op.test b a = false := by
  cases op with
  | lessThan => exact ⟨decide_eq_true h, decide_eq_false (by omega)⟩
  | lessThanOrEqual => exact ⟨decide_eq_true h.le, decide_eq_false (by omega)⟩
  | _ => cases hop

theorem Comparison.test_of_ult (hop : op.isUnsigned = true) {a : BitVec 64} (h : a.toNat < b.toNat) :
    op.test a b = true ∧ op.test b a = false := by
  cases op with
  | uintLessThan => exact ⟨decide_eq_true h, decide_eq_false (by omega)⟩
  | uintLessThanOrEqual => exact ⟨decide_eq_true h.le, decide_eq_false (by omega)⟩
  | _ => cases hop

theorem signExtend_range (a : BitVec 32) :
    -2 ^ 31 ≤ (a.signExtend 64).toInt ∧ (a.signExtend 64).toInt ≤ 2 ^ 31 - 1 := by
  have h1 := BitVec.le_toInt (x := a)
  have h2 := BitVec.toInt_lt (x := a)
  rw [BitVec.toInt_signExtend_of_le (by decide)]
  omega

/-- A constant that is no zero extension is above all of them. -/
theorem zeroExtend_lt (a : BitVec 32) (h : fitsUint32 k = false) : (a.setWidth 64).toNat < k.toNat := by
  have ha := a.isLt
  rw [fitsUint32, beq_eq_false_iff_ne, Ne, ← BitVec.toNat_inj, BitVec.toNat_setWidth, BitVec.toNat_setWidth] at h
  rw [BitVec.toNat_setWidth, Nat.mod_eq_of_lt (by omega)]
  refine lt_of_lt_of_le ha (Nat.not_lt.1 fun hk => h ?_)
  rw [Nat.mod_eq_of_lt hk, Nat.mod_eq_of_lt k.isLt]

theorem reduceInt64CompareConstant_sound (hop : op.isSigned = true) (hk : r.resolvedValue = some k) :
    (Node.compare op l r).Sound (reduceInt64CompareConstant op l k) := by
  unfold reduceInt64CompareConstant
  split
  · rename_i a
    have hrange := fun env => signExtend_range (a.eval env)
    split
    · rename_i hfit
      refine Sound.some (refines_compare fun env hl _ => ⟨hl, trivial, ?_⟩)
      have ht := op.test_signExtended (a.eval env) (k.setWidth 32)
      rw [beq_iff_eq.1 hfit, map64To32Comparison_signed] at ht
      rw [resolvedValue_eval hk]
      exact ht.symm
    · split
      · refine Sound.some (refines_replaceBool false fun env => ?_)
        rw [resolvedValue_eval hk]
        exact (Comparison.test_of_lt hop (by have := hrange env; rw [eval]; omega)).2
      · split
        · refine Sound.some (refines_replaceBool true fun env => ?_)
          rw [resolvedValue_eval hk]
          exact (Comparison.test_of_lt hop (by have := hrange env; rw [eval]; omega)).1
        · exact Sound.none
  · exact Sound.none

theorem reduceConstantCompareInt64_sound (hop : op.isSigned = true) (hk : l.resolvedValue = some k) :
    (Node.compare op l r).Sound (reduceConstantCompareInt64 op k r) := by
  unfold reduceConstantCompareInt64
  split
  · rename_i a
    have hrange := fun env => signExtend_range (a.eval env)
    split
    · rename_i hfit
      refine Sound.some (refines_compare fun env _ hr => ⟨trivial, hr, ?_⟩)
      have ht := op.test_signExtended (k.setWidth 32) (a.eval env)
      rw [beq_iff_eq.1 hfit, map64To32Comparison_signed] at ht
      rw [resolvedValue_eval hk]
      exact ht.symm
    · split
      · refine Sound.some (refines_replaceBool true fun env => ?_)
        rw [resolvedValue_eval hk]
        exact (Comparison.test_of_lt hop (by have := hrange env; rw [eval]; omega)).1
      · split
        · refine Sound.some (refines_replaceBool false fun env => ?_)
          rw [resolvedValue_eval hk]
          exact (Comparison.test_of_lt hop (by have := hrange env; rw [eval]; omega)).2
        · exact Sound.none
  · exact Sound.none

theorem reduceUint64CompareConstant_sound (hop : op.isUnsigned = true) (hk : r.resolvedValue = some k) :
    (Node.compare op l r).Sound (reduceUint64CompareConstant op l k) := by
  unfold reduceUint64CompareConstant
  split
  · rename_i a
    split
    · rename_i hfit
      refine Sound.some (refines_compare fun env hl _ => ⟨hl, trivial, ?_⟩)
      have ht := op.test_zeroExtended (a.eval env) (k.setWidth 32)
      rw [beq_iff_eq.1 hfit, map64To32Comparison_unsigned hop] at ht
      rw [resolvedValue_eval hk]
      exact ht.symm
    · rename_i hfit
      refine Sound.some (refines_replaceBool true fun env => ?_)
      rw [resolvedValue_eval hk]
      exact (Comparison.test_of_ult hop (zeroExtend_lt _ (Bool.not_eq_true _ ▸ hfit))).1
  · exact Sound.none

theorem reduceConstantCompareUint64_sound (hop : op.isUnsigned = true) (hk : l.resolvedValue = some k) :
    (Node.compare op l r).Sound (reduceConstantCompareUint64 op k r) := by
  unfold reduceConstantCompareUint64
  split
  · rename_i a
    split
    · rename_i hfit
      refine Sound.some (refines_compare fun env _ hr => ⟨trivial, hr, ?_⟩)
      have ht := op.test_zeroExtended (k.setWidth 32) (a.eval env)
      rw [beq_iff_eq.1 hfit, map64To32Comparison_unsigned hop] at ht
      rw [resolvedValue_eval hk]
      exact ht.symm
    · rename_i hfit
      refine Sound.some (refines_replaceBool false fun env => ?_)
      rw [resolvedValue_eval hk]
      exact (Comparison.test_of_ult hop (zeroExtend_lt _ (Bool.not_eq_true _ ▸ hfit))).2
  · exact Sound.none

end Constants

/-! ## When narrowing keeps the outcome -/

section Narrowing
variable {op : Comparison} {left right : Node 64}

/-- Outside `zeroExtendedNegative` every step keeps the outcome. -/
theorem reduceWord64Comparisons_sound (hl : right.resolvedValue.bind (zeroExtendedNegative G left) = none)
    (hr : left.resolvedValue.bind (zeroExtendedNegative G right) = none) :
    (Node.compare op left right).Sound (reduceWord64Comparisons G op left right) := by
  refine Sound.orElse (Sound.bind₂ fun s x hx => Sound.bind₂ fun t y hy => Sound.onlyIf fun h => ?_)
    (Sound.orElse (Sound.bind₂ fun x y h => Sound.some (refines_compare fun env hl hr => ?_))
      (Sound.orElse (Sound.bind fun k hk => Sound.bind₂ fun x value h => ?_)
        (Sound.orElse (Sound.bind fun k hk => Sound.bind₂ fun x value h => ?_) (Sound.orElse ?_ ?_))))
  · obtain rfl : s = t := by simpa using h
    refine narrow_refines G fun env hl hr => ⟨extended_valid hx hl, extended_valid hy hr, ?_⟩
    rw [extended_eval hx, extended_eval hy, Comparison.test_narrow]
  · obtain ⟨hx, hy, ht⟩ := bothShifted_sound (by decide) hl hr _ h
    exact ⟨hx, hy, ht op⟩
  · rw [hk] at hl
    refine sound_narrowed (refines_compare fun env hv _ => ?_) fun s a hx hc => narrow_refines G fun env hv _ => ?_
    · obtain ⟨hxv, ht, -⟩ := test_shifted G op h hv
      exact ⟨hxv, trivial, by rwa [resolvedValue_eval hk]⟩
    · obtain ⟨ha, ht, -⟩ := test_narrowed G op h hl hx hc hv
      exact ⟨ha, trivial, by rwa [resolvedValue_eval hk]⟩
  · rw [hk] at hr
    refine sound_narrowed (refines_compare fun env _ hv => ?_) fun s a hx hc => narrow_refines G fun env _ hv => ?_
    · obtain ⟨hxv, -, ht, -⟩ := test_shifted G op h hv
      exact ⟨trivial, hxv, by rwa [resolvedValue_eval hk]⟩
    · obtain ⟨ha, -, ht⟩ := test_narrowed G op h hr hx hc hv
      exact ⟨trivial, ha, by rwa [resolvedValue_eval hk]⟩
  · split
    · rename_i hop
      exact Sound.orElse (Sound.bind fun k hk => reduceInt64CompareConstant_sound hop hk)
        (Sound.bind fun k hk => reduceConstantCompareInt64_sound hop hk)
    · exact Sound.none
  · split
    · rename_i hop
      exact Sound.orElse (Sound.bind fun k hk => reduceUint64CompareConstant_sound hop hk)
        (Sound.bind fun k hk => reduceConstantCompareUint64_sound hop hk)
    · exact Sound.none

theorem inputs_of_resolvedValue {node : Node w} {k : BitVec w} (h : node.resolvedValue = some k) (o : Binop) :
    node.inputs o = none := by
  cases node <;> first | rfl | cases h

theorem extended_of_resolvedValue (h : node.resolvedValue = some k) : node.extended = none := by
  cases node <;> first | rfl | cases h

theorem revertShift_shape {x : Node 64} {value : BitVec 64} (h : revertShift G shifted k = some (x, value)) :
    shifted.extended = none ∧ shifted.resolvedValue = none := by
  cases shifted <;> first | exact ⟨rfl, rfl⟩ | cases h

variable {a : Node 32}

/-- What `zeroExtendedNegative` has found. -/
theorem zeroExtendedNegative_cases (h : zeroExtendedNegative G shifted k = some (a, c)) :
    ∃ x value, revertShift G shifted k = some (x, value) ∧ x.extended = some (false, a) ∧
      canTruncate value = true ∧ c = value.setWidth 32 ∧ k.toInt < 0 := by
  obtain ⟨⟨x, value⟩, hrev, h⟩ := Option.bind_eq_some_iff.1 h
  dsimp only at h
  split at h
  · rename_i a' hx
    split at h
    · rename_i hc
      rw [Bool.and_eq_true, BitVec.slt_iff_toInt_lt] at hc
      cases h
      exact ⟨x, value, hrev, hx, hc.1, rfl, hc.2⟩
    · cases h
  · cases h

/-- The outcome of the 64-bit comparison that `zeroExtendedNegative` finds. -/
theorem test_zeroExtendedNegative (op : Comparison)
    (h : zeroExtendedNegative G shifted k = some (a, c)) (hv : shifted.Valid env) :
    a.Valid env ∧ op.test (shifted.eval env) k = op.test 0#64 (-1#64) ∧
      op.test k (shifted.eval env) = op.test (-1#64) 0#64 := by
  obtain ⟨x, value, hrev, hx, -, -, hk⟩ := zeroExtendedNegative_cases G h
  obtain ⟨hxv, h1, h2, hsign⟩ := test_shifted G op hrev hv
  have hpos : 0 ≤ (x.eval env).toInt := by
    rw [extended_eval hx, if_neg (by decide), toInt_zeroExtend]
    exact Int.natCast_nonneg _
  obtain ⟨h3, h4⟩ := op.test_of_signs hpos (hsign.2 hk)
  exact ⟨extended_valid hx hxv, h1.symm.trans h3, h2.symm.trans h4⟩

theorem valid_constant (k : BitVec w) (env : Env) : (Node.constant k).Valid env := trivial

theorem narrow_eval (op : Comparison) (signExtended : Bool) {y : Node 32} (hx : x.Valid env) (hy : y.Valid env) :
    (narrow G op signExtended x y).eval env =
      ofBool ((map64To32Comparison op signExtended).test (x.eval env) (y.eval env)) := by
  have hv : (Node.compare (map64To32Comparison op signExtended) x y).Valid env := ⟨hx, hy⟩
  exact (Refines.followedBy (Refines.refl _) (reduceCompare32_sound G _ x y) env hv).2

theorem reduceWord64Comparisons_left (hk : right.resolvedValue = some k)
    (h : zeroExtendedNegative G left k = some (a, c)) :
    reduceWord64Comparisons G op left right = some (narrow G op false a (.constant c)) := by
  obtain ⟨x, value, hrev, hx, hc, rfl, -⟩ := zeroExtendedNegative_cases G h
  have hboth : bothShifted left right = none := by
    simp [bothShifted, inputs_of_resolvedValue hk]
  simp [reduceWord64Comparisons, (revertShift_shape G hrev).1, hboth, hk, hrev, hx, hc]

theorem reduceWord64Comparisons_right (hk : left.resolvedValue = some k)
    (h : zeroExtendedNegative G right k = some (a, c)) :
    reduceWord64Comparisons G op left right = some (narrow G op false (.constant c) a) := by
  obtain ⟨x, value, hrev, hx, hc, rfl, -⟩ := zeroExtendedNegative_cases G h
  have hboth : bothShifted left right = none := by
    simp [bothShifted, inputs_of_resolvedValue hk]
  simp [reduceWord64Comparisons, extended_of_resolvedValue hk, (revertShift_shape G hrev).2, hboth, hk, hrev, hx, hc]

/-- What `ReduceWord64Comparisons` returns has the outcome of the comparison it replaces, except where a zero-extended
word is compared with a negative constant and lies to its low word as it does not lie to the constant. -/
theorem reduceWord64Comparisons_correct_iff {r : Node 32} {env : Env}
    (h : reduceWord64Comparisons G op left right = some r) (hv : (Node.compare op left right).Valid env) :
    r.eval env = (Node.compare op left right).eval env ↔ NarrowsWell G op left right env := by
  unfold NarrowsWell
  split
  · rename_i a c hl
    obtain ⟨k, hk, hn⟩ := Option.bind_eq_some_iff.1 hl
    obtain ⟨ha, ht, -⟩ := test_zeroExtendedNegative G op hn hv.1
    rw [reduceWord64Comparisons_left G hk hn, Option.some.injEq] at h
    subst h
    rw [narrow_eval G op false ha (valid_constant c env), eval, eval, resolvedValue_eval hk, ht, ofBool_inj,
      liesLeftOf_iff]
  · rename_i a c hl hr
    obtain ⟨k, hk, hn⟩ := Option.bind_eq_some_iff.1 hr
    obtain ⟨ha, -, ht⟩ := test_zeroExtendedNegative G op hn hv.2
    rw [reduceWord64Comparisons_right G hk hn, Option.some.injEq] at h
    subst h
    rw [narrow_eval G op false (valid_constant c env) ha, eval, eval, resolvedValue_eval hk, ht, ofBool_inj,
      liesRightOf_iff]
  · rename_i hl hr
    exact iff_true_intro (reduceWord64Comparisons_sound G hl hr r h env hv).2

end Narrowing

/-- All leaves zero. -/
def zeroEnv : Env := ⟨fun _ _ => 0, fun _ => false, fun _ => 0, fun _ => 0⟩

/-- `Int64LessThan(Word64SarShiftOutZeros(ChangeUint32ToUint64(a), 1), -1)` is false for every `a`.
The narrowed comparison `Uint32LessThan(a, 0xFFFFFFFE)` is true for `a = 0`. -/
theorem reduceWord64Comparisons_negative_constant :
    ∃ r, reduceWord64Comparisons treeGraph .lessThan
        (.binop .sarShiftOutZeros (.changeUint32ToUint64 (.leaf 0)) (.constant 1#64)) (.constant (-1#64)) = some r ∧
      (Node.compare .lessThan (.binop .sarShiftOutZeros (.changeUint32ToUint64 (.leaf 0)) (.constant 1#64))
        (.constant (-1#64))).Valid zeroEnv ∧
      r.eval zeroEnv ≠ (Node.compare .lessThan
        (.binop .sarShiftOutZeros (.changeUint32ToUint64 (.leaf 0)) (.constant 1#64)) (.constant (-1#64))).eval zeroEnv :=
  ⟨.compare .uintLessThan (.leaf 0) (.constant 0xFFFFFFFE#32), rfl,
    ⟨⟨trivial, trivial, fun _ => by decide⟩, trivial⟩, by decide⟩

/-- With a constant that is not negative the narrowed comparison has the right outcome. -/
theorem reduceWord64Comparisons_correct_iff_three :
    (Node.compare .uintLessThan (.leaf 0) (.constant 6#32)).eval zeroEnv =
      (Node.compare .lessThan (.binop .sarShiftOutZeros (.changeUint32ToUint64 (.leaf 0)) (.constant 1#64))
        (.constant 3#64)).eval zeroEnv :=
  (@reduceWord64Comparisons_correct_iff treeGraph .lessThan
    (.binop .sarShiftOutZeros (.changeUint32ToUint64 (.leaf 0)) (.constant 1#64)) (.constant 3#64) _ zeroEnv
    rfl ⟨⟨trivial, trivial, fun _ => by decide⟩, trivial⟩).2 trivial

end V8Core.Compiler
