import V8Core.Compiler.Machine
import V8Core.Lib.WordFacts
/-!
# Reducing word operations

The reducers of `machine-operator-reducer.cc` for addition, subtraction and
multiplication, bitwise operations, shifts and rotation, equality and the conversions
between the word sizes. A reducer takes the inputs of the node and returns the
replacement, if there is one; its alternatives stand in the order of the source. Code
the source writes once for both word sizes is generic here too, over a `WordNAdapter`.

`BitfieldCheck` recognises a test of some bits of a word. Two tests of one word become
one.
-/

namespace V8Core.Compiler

open Node

variable (G : GraphInfo) {w : Nat}

/-! ## Addition and subtraction -/

mutual

/-- `ReduceInt32Add`. -/
def reduceInt32Add (left right : Node 32) : Option (Node 32) :=
  let l := (putConstantOnRight left right).1
  let r := (putConstantOnRight left right).2
  onlyIf (r.is 0#32) l
  <|> fold (· + ·) l r
  <|> (match _hin : l.inputs .sub with  -- (0 - x) + y => y - x
    | some (zero, x) => onlyIf (zero.is 0#32) (followedBy (.binop .sub r x) (reduceInt32Sub r x))
    | none => none)
  <|> (match _hin : r.inputs .sub with  -- y + (0 - x) => y - x
    | some (zero, x) => onlyIf (zero.is 0#32) (followedBy (.binop .sub l x) (reduceInt32Sub l x))
    | none => none)
  <|> (do  -- (x + K) + K => x + K
    let b ← r.resolvedValue
    let (x, k) ← l.inputs .add
    let a ← k.resolvedValue
    onlyIf (G.ownsInput l) (.binop .add x (.constant (b + a))))
termination_by 2 * (left.size + right.size)
decreasing_by
  · have := size_put left right
    have hs := inputs_size _hin
    simp only [l] at hs
    have := size_pos zero
    omega
  · have := size_put left right
    have hs := inputs_size _hin
    simp only [r] at hs
    have := size_pos zero
    omega

/-- `ReduceInt32Sub`. -/
def reduceInt32Sub (left right : Node 32) : Option (Node 32) :=
  onlyIf (right.is 0#32) left
  <|> fold (· - ·) left right
  <|> onlyIf (G.same left right) (.constant 0#32)
  <|> (do  -- x - K => x + -K
    let k ← right.resolvedValue
    return followedBy (.binop .add left (.constant (-k))) (reduceInt32Add left (.constant (-k))))
termination_by 2 * (left.size + right.size) + 1
decreasing_by
  have := size_pos right
  simp only [Node.size]
  omega

end

/-- `ReduceInt64Add`. -/
def reduceInt64Add (left right : Node 64) : Option (Node 64) :=
  let l := (putConstantOnRight left right).1
  let r := (putConstantOnRight left right).2
  onlyIf (r.is 0#64) l
  <|> fold (· + ·) l r
  <|> (do  -- (x + K) + K => x + K
    let b ← r.resolvedValue
    let (x, k) ← l.inputs .add
    let a ← k.resolvedValue
    onlyIf (G.ownsInput l) (.binop .add x (.constant (b + a))))

/-- `ReduceInt64Sub`. -/
def reduceInt64Sub (left right : Node 64) : Option (Node 64) :=
  onlyIf (right.is 0#64) left
  <|> fold (· - ·) left right
  <|> onlyIf (G.same left right) (.constant 0#64)
  <|> (do  -- x - K => x + -K
    let k ← right.resolvedValue
    return followedBy (.binop .add left (.constant (-k))) (reduceInt64Add G left (.constant (-k))))

/-! ## Word sizes -/

/-- The two shifts that a rotation is matched from. -/
def rorShifts (l r : Node 32) : Option ((Node 32 × Node 32) × (Node 32 × Node 32)) :=
  (do return (← l.inputs .shl, ← r.inputs .shr)) <|> (do return (← r.inputs .shl, ← l.inputs .shr))

/-- The amount that is the word size minus the other one. -/
def rorSub (a b : Node 32) : Option ((Node 32 × Node 32) × Node 32) :=
  (do return (← a.inputs .sub, b)) <|> (do return (← b.inputs .sub, a))

/-- `TryMatchWord32Ror`, on a `Word32Or` or a `Word32Xor`. -/
def tryMatchWord32Ror (isXor : Bool) (left right : Node 32) : Option (Node 32) := do
  let l := (putConstantOnRight left right).1
  let r := (putConstantOnRight left right).2
  let ((x, a), (x', b)) ← rorShifts l r
  if G.same x x' then
    match a.resolvedValue, b.resolvedValue with
    | some ka, some kb =>
      if ka + kb ≠ 32#32 then none
      else onlyIf (!(isXor && ka &&& 31#32 == 0#32)) (.binop .ror x b)
    | _, _ =>
      let ((s, t), y) ← rorSub a b
      onlyIf (s.is 32#32 && G.same t y && !isXor) (.binop .ror x b)
  else none

/-- What `Word32Adapter` and `Word64Adapter` provide to the code for both. -/
structure WordNAdapter (w : Nat) where
  pos : 0 < w
  reduceIntNAdd : Node w → Node w → Option (Node w)
  reduceIntNAdd_sound : ∀ left right, (Node.binop .add left right).Sound (reduceIntNAdd left right)
  tryMatchWordNRor : Bool → Node w → Node w → Option (Node w)
  tryMatchWordNRor_sound : ∀ isXor left right,
    (Node.binop (if isXor then .xor else .or) left right).Sound (tryMatchWordNRor isXor left right)

/-! ## And -/

/-- `IsNegativePowerOf2()`. -/
def isNegativePowerOf2 (value : BitVec w) : Bool :=
  value.slt 0#w && (value == BitVec.intMin w || (-value &&& (-value - 1#w)) == 0#w)

/-- `IsMultipleOf(n)`. -/
def Node.isMultipleOf (node : Node w) (n : BitVec w) : Bool :=
  match node.resolvedValue with
  | some value => value.srem n == 0#w
  | none => false

/-- The walk through conversions for `(x + x) & 1 => 0`. -/
def isDoubled : {w : Nat} → Node w → Bool
  | _, .truncateInt64ToInt32 input => isDoubled input
  | _, .changeInt32ToInt64 input => isDoubled input
  | _, .changeUint32ToUint64 input => isDoubled input
  | _, .binop .add left right => G.same left right
  | _, _ => false

/-- The part of `ReduceWordNAnd` for `(x + y) & mask`, where `xAnd` and `yAnd` are the
nodes `WordNAnd` builds for `x & mask` and `y & mask`. -/
def reduceAndOfAdd (a : WordNAdapter w) (mask : BitVec w) (x y xAnd yAnd : Node w) : Option (Node w) :=
  (do  -- (x + (K << L)) & (-1 << L) => (x & (-1 << L)) + (K << L)
    let k ← y.resolvedValue
    onlyIf (k &&& mask == k) (followedBy (.binop .add xAnd y) (a.reduceIntNAdd xAnd y)))
  <|> (do  -- (y * (K << L) + x) & (-1 << L) => (x & (-1 << L)) + y * (K << L)
    let (_, k) ← x.inputs .mul
    onlyIf (k.isMultipleOf (-mask)) (followedBy (.binop .add yAnd x) (a.reduceIntNAdd yAnd x)))
  <|> (do
    let (_, k) ← y.inputs .mul
    onlyIf (k.isMultipleOf (-mask)) (followedBy (.binop .add xAnd y) (a.reduceIntNAdd xAnd y)))
  <|> (do  -- (y << L + x) & (-1 << L) => (x & (-1 << L)) + y << L
    let (_, s) ← x.inputs .shl
    onlyIf (s.is mask.ctz) (followedBy (.binop .add yAnd x) (a.reduceIntNAdd yAnd x)))
  <|> (do
    let (_, s) ← y.inputs .shl
    onlyIf (s.is mask.ctz) (followedBy (.binop .add xAnd y) (a.reduceIntNAdd xAnd y)))

/-- `ReduceWordNAnd`. The nodes it builds in turn have a constant on the right, where
`ReduceWord32And` does nothing more than this (`reduceWord32And_of_constant`). -/
def reduceWordNAnd (a : WordNAdapter w) (left right : Node w) : Option (Node w) :=
  let l := (putConstantOnRight left right).1
  let r := (putConstantOnRight left right).2
  onlyIf (r.is 0#w) r
  <|> onlyIf (r.is (-1#w)) l
  <|> onlyIf (r.is 1#w && isDoubled G l) (.constant 0#w)
  <|> onlyIf (l.isComparison && r.is 1#w) l
  <|> fold (· &&& ·) l r
  <|> onlyIf (G.same l r) l
  <|> (match _hin : l.inputs .and with  -- (x & K) & K => x & K
    | some (x, k) =>
      match k.resolvedValue, r.resolvedValue with
      | some k₁, some k₂ =>
        some (followedBy (.binop .and x (.constant (k₂ &&& k₁))) (reduceWordNAnd a x (.constant (k₂ &&& k₁))))
      | _, _ => none
    | none => none)
  <|> (match r.resolvedValue with
    | none => none
    | some mask =>
      if isNegativePowerOf2 mask then
        (do  -- (x << L) & (-1 << K) => x << L iff L >= K
          let (_, s) ← l.inputs .shl
          let k ← s.resolvedValue
          onlyIf (k.toNat % w ≥ mask.ctz.toNat) l)
        <|> (match _hin : l.inputs .add with
          | some (x, y) =>
            reduceAndOfAdd a mask x y (followedBy (.binop .and x r) (reduceWordNAnd a x r))
              (followedBy (.binop .and y r) (reduceWordNAnd a y r))
          | none => none)
        <|> (do  -- (x * (K << L)) & (-1 << L) => x * (K << L)
          let (_, k) ← l.inputs .mul
          onlyIf (k.isMultipleOf (-mask)) l)
      else none)
termination_by left.size + right.size
decreasing_by
  all_goals
    have := size_put left right
    have hs := inputs_size _hin
    have := size_pos (putConstantOnRight left right).2
    simp only [l, Node.size] at *
    omega

/-- `WordNAnd(lhs, rhs)`, for a constant on the right. -/
def wordNAnd (a : WordNAdapter w) (left right : Node w) : Node w :=
  followedBy (.binop .and left right) (reduceWordNAnd G a left right)

/-! ## Or and exclusive or -/

/-- `ReduceWordNOr`. -/
def reduceWordNOr (a : WordNAdapter w) (left right : Node w) : Option (Node w) :=
  let l := (putConstantOnRight left right).1
  let r := (putConstantOnRight left right).2
  onlyIf (r.is 0#w) l
  <|> onlyIf (r.is (-1#w)) r
  <|> fold (· ||| ·) l r
  <|> onlyIf (G.same l r) l
  <|> (do  -- (x & K1) | K2 => x | K2 if K2 has ones for every zero bit in K1
    let k₂ ← r.resolvedValue
    let (x, k) ← l.inputs .and
    let k₁ ← k.resolvedValue
    onlyIf (k₂ ||| k₁ == -1#w) (.binop .or x r))
  <|> a.tryMatchWordNRor false l r

/-- `ReduceWordNXor`. -/
def reduceWordNXor (a : WordNAdapter w) (left right : Node w) : Option (Node w) :=
  let l := (putConstantOnRight left right).1
  let r := (putConstantOnRight left right).2
  onlyIf (r.is 0#w) l
  <|> fold (· ^^^ ·) l r
  <|> onlyIf (G.same l r) (.constant 0#w)
  <|> (do  -- (x ^ -1) ^ -1 => x
    let (x, k) ← l.inputs .xor
    onlyIf (r.is (-1#w) && k.is (-1#w)) x)
  <|> a.tryMatchWordNRor true l r

/-- `IsWord32Equal()` and the inputs. -/
def Node.word32EqualInputs (node : Node 32) : Option (Node 32 × Node 32) :=
  match node with
  | .compare (w := 32) .equal left right => some (left, right)
  | _ => none

/-- `ReduceWord32Xor`. -/
def reduceWord32Xor (a : WordNAdapter 32) (left right : Node 32) : Option (Node 32) :=
  let l := (putConstantOnRight left right).1
  let r := (putConstantOnRight left right).2
  onlyIf (r.word32EqualInputs.isSome && l.is 1#32) (.compare .equal r (.constant 0#32))
  <|> reduceWordNXor G a left right

/-! ## Truncation -/

/-- `ReduceTruncateInt64ToInt32`. -/
def reduceTruncateInt64ToInt32 (input : Node 64) : Option (Node 32) :=
  (do return .constant ((← input.resolvedValue).setWidth 32))
  <|> (match input with
    | .changeInt32ToInt64 x => some x
    | .changeUint32ToUint64 x => some x
    | .bitcastTaggedLoad id => onlyIf (G.usedOnce input && G.loadUsedOnce id) (.load .int32 id)
    | _ => none)

/-- `TruncateInt64ToInt32(value)`. -/
def truncateInt64ToInt32 (value : Node 64) : Node 32 :=
  followedBy (.truncateInt64ToInt32 value) (reduceTruncateInt64ToInt32 G value)

/-! ## Equality -/

/-- `CanRevertLeftShiftWithRightShift(value, shift)`. -/
def canRevertLeftShiftWithRightShift (value shift : BitVec w) : Bool :=
  if shift.slt 0#w || shift.toInt ≥ w then false
  else (value <<< shift.toNat).sshiftRight shift.toNat == value

/-- `ReduceWordEqualForConstantRhs`, for a comparison of the operands' size: the new operands. -/
def reduceWordEqualForConstantRhs (a : WordNAdapter w) (lhs : Node w) (rhs : BitVec w) :
    Option (Node w × BitVec w) :=
  (do  -- ((x >> K1) & K2) == K3 => (x & (K2 << K1)) == (K3 << K1)
    let (y, m) ← lhs.inputs .and
    let (x, s) ← y.shiftRightInputs
    let mask ← m.resolvedValue
    let shiftBits ← s.resolvedValue
    if shiftBits.toNat ≤ mask.clz.toNat ∧ shiftBits.toNat ≤ rhs.clz.toNat then
      some (wordNAnd G a x (.constant (mask <<< shiftBits.toNat)), rhs <<< shiftBits.toNat)
    else none)
  <|> (do  -- (x >> n) == k => x == k << n
    let (x, s) ← lhs.inputs .sarShiftOutZeros
    let shift ← s.resolvedValue
    if G.usedOnce lhs && canRevertLeftShiftWithRightShift rhs shift then
      some (x, rhs <<< shift.toNat)
    else none)

/-- `ReduceWordEqualForConstantRhs`, for a 32-bit comparison of a truncated word. -/
def reduceWordEqualForConstantRhs64To32 (a : WordNAdapter 32) (lhs : Node 64) (rhs : BitVec 32) :
    Option (Node 32 × BitVec 32) := do
  let (y, m) ← lhs.inputs .and
  let (x, s) ← y.shiftRightInputs
  let mask ← m.resolvedValue
  let shiftBits ← s.resolvedValue
  if shiftBits.toNat ≤ mask.clz.toNat ∧ shiftBits.toNat ≤ rhs.clz.toNat ∧
      (mask <<< shiftBits.toNat).toNat ≤ 2 ^ 32 - 1 then
    some (wordNAnd G a (truncateInt64ToInt32 G x) (.constant ((mask <<< shiftBits.toNat).setWidth 32)),
      rhs <<< shiftBits.toNat)
  else none

/-- `IsInt32Constant()` or `IsInt64Constant()`. -/
def Node.isConstant (node : Node w) : Bool :=
  match node with
  | .constant _ => true
  | _ => false

/-- `(x + k1) == k2 => x == k2 - k1`. -/
def reduceEqualOfAdd (l r : Node w) : Option (Node 32) := do
  let (x, k) ← l.inputs .add
  let k₁ ← k.resolvedValue
  let k₂ ← r.resolvedValue
  if r.isConstant && k.isConstant then some (.compare .equal x (.constant (k₂ - k₁))) else none

/-- `K == K => K`. -/
def foldEqual (l r : Node w) : Option (Node 32) := do
  let a ← l.resolvedValue
  let b ← r.resolvedValue
  return .constant (ofBool (a == b))

/-- `x - y == 0 => x == y`. -/
def reduceEqualOfSub (l r : Node w) : Option (Node 32) := do
  let (x, y) ← l.inputs .sub
  if r.is 0#w then some (.compare .equal x y) else none

/-- `ReduceWord32Equal`. -/
def reduceWord32Equal (a : WordNAdapter 32) (left right : Node 32) : Option (Node 32) :=
  let l := (putConstantOnRight left right).1
  let r := (putConstantOnRight left right).2
  foldEqual l r
  <|> reduceEqualOfSub l r
  <|> onlyIf (G.same l r) (.constant (ofBool true))
  <|> (do
    let k ← r.resolvedValue
    let (x, k') ←
      match l with
      | .truncateInt64ToInt32 input => reduceWordEqualForConstantRhs64To32 G a input k
      | l => reduceWordEqualForConstantRhs G a l k
    return .compare .equal x (.constant k'))
  <|> reduceEqualOfAdd l r

/-- `static_cast<int32_t>(value) == value`. -/
def fitsInt32 (value : BitVec 64) : Bool := (value.setWidth 32).signExtend 64 == value

/-- `ReduceWord64Equal`. -/
def reduceWord64Equal (a : WordNAdapter 64) (left right : Node 64) : Option (Node 32) :=
  let l := (putConstantOnRight left right).1
  let r := (putConstantOnRight left right).2
  foldEqual l r
  <|> reduceEqualOfSub l r
  <|> onlyIf (G.same l r) (.constant (ofBool true))
  <|> (do
    let k ← r.resolvedValue
    let (x, k') ← reduceWordEqualForConstantRhs G a l k
    return .compare .equal x (.constant k'))
  <|> reduceEqualOfAdd l r
  <|> (do
    let k ← r.resolvedValue
    match l with
    | .changeInt32ToInt64 x =>
      if fitsInt32 k then some (.compare .equal x (.constant (k.setWidth 32))) else some (.constant 0#32)
    | _ => none)

/-! ## Bitfield checks -/

/-- The word a check looks at, which may have to be truncated first. -/
inductive BitfieldSource
  | word32 (node : Node 32)
  | word64 (node : Node 64)

/-- `(source & mask) == masked_value`. -/
structure BitfieldCheck where
  source : BitfieldSource
  mask : BitVec 32
  maskedValue : BitVec 32
  subset : maskedValue &&& ~~~mask = 0#32

/-- `TryDetectShiftAndMaskOneBit`: `(val >> shift) & 1`, as the source and the mask. -/
def tryDetectShiftAndMaskOneBit (node : Node w) : Option (Node w × BitVec 32) := do
  let (x, k) ← node.inputs .and
  if k.is 1#w then
    (do
      let (y, s) ← x.shiftRightInputs
      let shift ← s.resolvedValue
      if shift.toNat < 32 then some (y, 1#32 <<< shift.toNat) else none)
    <|> some (x, 1#32)
  else none

/-- A check of all bits of a mask. -/
def BitfieldCheck.ofMask (source : BitfieldSource) (mask : BitVec 32) : BitfieldCheck :=
  ⟨source, mask, mask, BitVec.and_not_self mask⟩

/-- `BitfieldCheck::Detect`. -/
def BitfieldCheck.detect (node : Node 32) : Option BitfieldCheck :=
  match node with
  | .compare (w := 32) .equal left right => do
    let l := (putConstantOnRight left right).1
    let r := (putConstantOnRight left right).2
    let (x, m) ← l.inputs .and
    let mask ← m.resolvedValue
    let maskedValue ← r.resolvedValue
    if h : maskedValue &&& ~~~mask = 0#32 then
      match x with
      | .truncateInt64ToInt32 input => some ⟨.word64 input, mask, maskedValue, h⟩
      | x => some ⟨.word32 x, mask, maskedValue, h⟩
    else none
  | .truncateInt64ToInt32 input => do
    let (x, mask) ← tryDetectShiftAndMaskOneBit input
    return .ofMask (.word64 x) mask
  | node => do
    let (x, mask) ← tryDetectShiftAndMaskOneBit node
    return .ofMask (.word32 x) mask

/-- One node, and truncated alike. -/
def BitfieldSource.same (a b : BitfieldSource) : Bool :=
  match a, b with
  | .word32 a, .word32 b => G.same a b
  | .word64 a, .word64 b => G.same a b
  | _, _ => false

/-- Where two checks allow it, one check for both. -/
theorem BitfieldCheck.combine_subset {m v m' v' : BitVec 32} (h : v &&& ~~~m = 0#32) (h' : v' &&& ~~~m' = 0#32) :
    (v ||| v') &&& ~~~(m ||| m') = 0#32 := by
  refine BitVec.eq_of_getLsbD_eq fun i hi => ?_
  have h1 := congrArg (BitVec.getLsbD · i) h
  have h2 := congrArg (BitVec.getLsbD · i) h'
  simp only [BitVec.getLsbD_and, BitVec.getLsbD_or, BitVec.getLsbD_not, hi] at h1 h2 ⊢
  revert h1 h2
  cases v.getLsbD i <;> cases v'.getLsbD i <;> cases m.getLsbD i <;> cases m'.getLsbD i <;> simp

/-- `TryCombine`. -/
def BitfieldCheck.tryCombine (a b : BitfieldCheck) : Option BitfieldCheck :=
  if a.source.same G b.source then
    let overlappingBits := a.mask &&& b.mask
    if a.maskedValue &&& overlappingBits ≠ b.maskedValue &&& overlappingBits then none
    else some ⟨a.source, a.mask ||| b.mask, a.maskedValue ||| b.maskedValue, combine_subset a.subset b.subset⟩
  else none

/-- `ReduceWord32And`. -/
def reduceWord32And (a : WordNAdapter 32) (left right : Node 32) : Option (Node 32) :=
  reduceWordNAnd G a left right
  <|> (do
    let l := (putConstantOnRight left right).1
    let r := (putConstantOnRight left right).2
    let rightBitfield ← BitfieldCheck.detect r
    let leftBitfield ← BitfieldCheck.detect l
    let combined ← leftBitfield.tryCombine G rightBitfield
    let source :=
      match combined.source with
      | .word32 node => node
      | .word64 node => truncateInt64ToInt32 G node
    let masked := wordNAnd G a source (.constant combined.mask)
    let value : Node 32 := .constant combined.maskedValue
    return followedBy (.compare .equal masked value) (reduceWord32Equal G a masked value))

/-! ## Shifts -/

/-- `ReduceWord32Shifts`: the explicit `& 0x1F` is what the machine does anyway. -/
def reduceWord32Shifts (op : Binop) (left right : Node 32) : Option (Node 32) := do
  let (x, k) ← right.inputs .and
  onlyIf (G.word32ShiftIsSafe && k.is 0x1F#32) (.binop op left x)

/-- `ReduceWord32Sar`, for either kind of the shift. -/
def reduceWord32Sar (op : Binop) (left right : Node 32) : Option (Node 32) :=
  onlyIf (right.is 0#32) left
  <|> fold (fun a b => a.sshiftRight (b &&& 31#32).toNat) left right
  <|> (do
    let (x, s) ← left.inputs .shl
    (onlyIf (x.isComparison && right.is 31#32 && s.is 31#32)  -- Comparison << 31 >> 31 => 0 - Comparison
        (followedBy (.binop .sub (.constant 0#32) x) (reduceInt32Sub G (.constant 0#32) x)))
      <|> (match x with
        | .load .int8 _ => onlyIf (right.is 24#32 && s.is 24#32) x
        | .load .int16 _ => onlyIf (right.is 16#32 && s.is 16#32) x
        | _ => none))
  <|> reduceWord32Shifts G op left right

/-- `ReduceWord64Sar`. -/
def reduceWord64Sar (left right : Node 64) : Option (Node 64) :=
  onlyIf (right.is 0#64) left
  <|> fold (fun a b => a.sshiftRight (b &&& 63#64).toNat) left right

/-- `IsInRange(low, high)`, for signed bounds. -/
def Node.isInRange (node : Node w) (low high : BitVec w) : Bool :=
  match node.resolvedValue with
  | some k => low.sle k && k.sle high
  | none => false

/-- `(x >> K) << L` where `x >> K` only shifted out zeros. -/
def reduceShlOfSarShiftOutZeros (reduceSar : Node w → Node w → Option (Node w)) (l r : Node w) :
    Option (Node w) := do
  let (x, s) ← l.inputs .sarShiftOutZeros
  let k ← s.resolvedValue
  let shift ← r.resolvedValue
  if s.isInRange 1#w (BitVec.ofNat w (w - 1)) then
    if k = shift then some x
    else if shift.slt k then
      some (followedBy (.binop .sar x (.constant (k - shift))) (reduceSar x (.constant (k - shift))))
    else some (.binop .shl x (.constant (shift - k)))
  else none

/-- `(x >> K) << K => x & ~(2^K - 1)`, for either right shift. -/
def reduceShlOfShiftRight (reduceAnd : Node w → Node w → Option (Node w)) (l r : Node w) : Option (Node w) := do
  let (x, s) ← l.shiftRightInputs
  let k ← r.resolvedValue
  if s.is k then
    let mask : Node w := .constant (BitVec.allOnes w <<< k.toNat)
    some (followedBy (.binop .and x mask) (reduceAnd x mask))
  else none

/-- `ReduceWord32Shl`. -/
def reduceWord32Shl (a : WordNAdapter 32) (left right : Node 32) : Option (Node 32) :=
  onlyIf (right.is 0#32) left
  <|> fold (fun a b => a <<< (b &&& 31#32).toNat) left right
  <|> (if right.isInRange 1#32 31#32 then
      reduceShlOfSarShiftOutZeros (reduceWord32Sar G .sar) left right
      <|> reduceShlOfShiftRight (reduceWord32And G a) left right
    else none)
  <|> reduceWord32Shifts G .shl left right

/-- `ReduceWord64Shl`. -/
def reduceWord64Shl (a : WordNAdapter 64) (left right : Node 64) : Option (Node 64) :=
  onlyIf (right.is 0#64) left
  <|> fold (fun a b => a <<< (b &&& 63#64).toNat) left right
  <|> (if right.isInRange 1#64 63#64 then
      reduceShlOfSarShiftOutZeros reduceWord64Sar left right
      <|> reduceShlOfShiftRight (reduceWordNAnd G a) left right
    else none)

/-- `ReduceWord32Shr`. -/
def reduceWord32Shr (left right : Node 32) : Option (Node 32) :=
  onlyIf (right.is 0#32) left
  <|> fold (fun a b => a >>> (b &&& 31#32).toNat) left right
  <|> (do  -- (m >>> s) == 0 implies ((x & m) >>> s) == 0
    let (_, k) ← left.inputs .and
    let shift ← right.resolvedValue
    let mask ← k.resolvedValue
    onlyIf (mask >>> (shift &&& 31#32).toNat == 0#32) (.constant 0#32))
  <|> reduceWord32Shifts G .shr left right

/-- `ReduceWord64Shr`. -/
def reduceWord64Shr (left right : Node 64) : Option (Node 64) :=
  onlyIf (right.is 0#64) left
  <|> fold (fun a b => a >>> (b &&& 63#64).toNat) left right

/-- `kWord32Ror`. -/
def reduceWord32Ror (left right : Node 32) : Option (Node 32) :=
  onlyIf (right.is 0#32) left
  <|> fold (fun a b => a.rotateRight (b &&& 31#32).toNat) left right

/-! ## Multiplication -/

/-- `IsPowerOf2()`. -/
def isPowerOf2 (value : BitVec w) : Bool := (0#w).slt value && (value &&& (value - 1#w)) == 0#w

/-- A multiplication of either word size. -/
def reduceIntNMul (reduceShl : Node w → Node w → Option (Node w)) (left right : Node w) : Option (Node w) :=
  let l := (putConstantOnRight left right).1
  let r := (putConstantOnRight left right).2
  onlyIf (r.is 0#w) r
  <|> onlyIf (r.is 1#w) l
  <|> fold (· * ·) l r
  <|> onlyIf (r.is (-1#w)) (.binop .sub (.constant 0#w) l)
  <|> (do  -- x * 2^n => x << n
    let k ← r.resolvedValue
    onlyIf (isPowerOf2 k) (followedBy (.binop .shl l (.constant k.ctz)) (reduceShl l (.constant k.ctz))))
  <|> (do  -- (x * K) * K => x * K
    let b ← r.resolvedValue
    let (x, k) ← l.inputs .mul
    let a ← k.resolvedValue
    onlyIf (G.ownsInput l) (.binop .mul x (.constant (b * a))))

/-- `kInt32Mul`. -/
def reduceInt32Mul (a : WordNAdapter 32) (left right : Node 32) : Option (Node 32) :=
  reduceIntNMul G (reduceWord32Shl G a) left right

/-- `ReduceInt64Mul`. -/
def reduceInt64Mul (a : WordNAdapter 64) (left right : Node 64) : Option (Node 64) :=
  reduceIntNMul G (reduceWord64Shl G a) left right

/-! ## Conversions -/

/-- `kChangeInt32ToInt64`. -/
def reduceChangeInt32ToInt64 (input : Node 32) : Option (Node 64) :=
  input.resolvedValue.map fun k => .constant (k.signExtend 64)

/-- `kChangeUint32ToUint64`. -/
def reduceChangeUint32ToUint64 (input : Node 32) : Option (Node 64) :=
  input.resolvedValue.map fun k => .constant (k.setWidth 64)

end V8Core.Compiler
