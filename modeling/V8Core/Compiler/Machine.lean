import Mathlib.Data.Nat.Init
import Mathlib.Algebra.Order.Ring.Nat
import Mathlib.Tactic.SplitIfs
/-!
# The machine graph

The part of the machine graph that `MachineOperatorReducer` works on: a node is the
tree of its value inputs, indexed by its word size. What the reducers can ask of the
graph beyond that tree (whether two inputs are one node, how often a node is used,
what the machine guarantees) is a `GraphInfo`.

`eval` gives a node its word. Shift amounts count modulo the word size. A
`SarShiftOutZeros` promises that it shifts out zeros only, and `Valid` says that every
such promise below a node is kept; a replacement has to keep the promises it makes and
the word (`Refines`), under every assignment of words to the leaves.

`BinopMatcher` swaps the inputs of a commutative node in place when only the left one
is a constant. Here the swapped inputs are what the reducer goes on with
(`putConstantOnRight`, `inputs`).
-/

namespace V8Core.Compiler

/-- Operators with two word inputs and a word output, of one size. -/
inductive Binop
  | add | sub | mul | mulHigh | uintMulHigh
  | div | uintDiv | mod | uintMod
  | and | or | xor
  | shl | shr | sar | sarShiftOutZeros | ror
deriving DecidableEq, Repr

/-- Comparisons of words of one size. -/
inductive Comparison
  | equal | lessThan | lessThanOrEqual | uintLessThan | uintLessThanOrEqual
deriving DecidableEq, Repr

/-- The loads whose representation a reducer looks at. -/
inductive LoadRepresentation
  | int8 | int16 | int32
deriving DecidableEq, Repr

/-- A node with its value inputs. `leaf` is any other operator. -/
inductive Node : Nat → Type
  | constant {w : Nat} (value : BitVec w) : Node w
  | typeGuard {w : Nat} (input : Node w) : Node w
  | leaf {w : Nat} (id : Nat) : Node w
  | load (rep : LoadRepresentation) (id : Nat) : Node 32
  /-- `BitcastTaggedToWordForTagAndSmiBits` of a load of a 32-bit tagged value. -/
  | bitcastTaggedLoad (id : Nat) : Node 64
  | floatComparison (id : Nat) : Node 32
  | binop {w : Nat} (op : Binop) (left right : Node w) : Node w
  | compare {w : Nat} (op : Comparison) (left right : Node w) : Node 32
  | changeInt32ToInt64 (input : Node 32) : Node 64
  | changeUint32ToUint64 (input : Node 32) : Node 64
  | truncateInt64ToInt32 (input : Node 64) : Node 32
  /-- The phi of a diamond. -/
  | phi {w : Nat} (condition : Node 32) (ifTrue ifFalse : Node w) : Node w

/-- What a reducer can ask of the graph and of the machine. -/
structure GraphInfo where
  /-- `a == b` on node pointers. -/
  same : {w : Nat} → Node w → Node w → Bool
  same_eq : ∀ {w : Nat} (a b : Node w), same a b = true → a = b
  /-- `UseCount() == 1`. -/
  usedOnce : {w : Nat} → Node w → Bool
  /-- `m.OwnsInput(input)`: the matched node is the only user. -/
  ownsInput : {w : Nat} → Node w → Bool
  /-- The load has one value use. -/
  loadUsedOnce : Nat → Bool
  word32ShiftIsSafe : Bool

/-- A graph in which every node is used once and no two inputs are one node. -/
def treeGraph : GraphInfo where
  same _ _ := false
  same_eq _ _ h := nomatch h
  usedOnce _ := true
  ownsInput _ := true
  loadUsedOnce _ := true
  word32ShiftIsSafe := true

/-! ## Values -/

variable {op : Binop}

section Values
variable {w : Nat}

/-- What an operator computes. Division by zero gives zero, and so does the remainder. -/
def Binop.eval (op : Binop) (a b : BitVec w) : BitVec w :=
  match op with
  | .add => a + b
  | .sub => a - b
  | .mul => a * b
  | .mulHigh => BitVec.ofInt w (a.toInt * b.toInt / 2 ^ w)
  | .uintMulHigh => BitVec.ofNat w (a.toNat * b.toNat / 2 ^ w)
  | .div => a.sdiv b
  | .uintDiv => a / b
  | .mod => if b = 0#w then 0#w else a.srem b
  | .uintMod => if b = 0#w then 0#w else a % b
  | .and => a &&& b
  | .or => a ||| b
  | .xor => a ^^^ b
  | .shl => a <<< (b.toNat % w)
  | .shr => a >>> (b.toNat % w)
  | .sar => a.sshiftRight (b.toNat % w)
  | .sarShiftOutZeros => a.sshiftRight (b.toNat % w)
  | .ror => a.rotateRight (b.toNat % w)

/-- The operators marked `kCommutative`. -/
def Binop.isCommutative : Binop → Bool
  | .add | .mul | .mulHigh | .uintMulHigh | .and | .or | .xor => true
  | _ => false

theorem Binop.eval_comm (h : op.isCommutative = true) (a b : BitVec w) : op.eval a b = op.eval b a := by
  cases op <;> cases h
  · exact BitVec.add_comm a b
  · exact BitVec.mul_comm a b
  · simp only [Binop.eval, Int.mul_comm]
  · simp only [Binop.eval, Nat.mul_comm]
  · exact BitVec.and_comm a b
  · exact BitVec.or_comm a b
  · exact BitVec.xor_comm a b

/-- What a comparison decides. -/
def Comparison.test (op : Comparison) (a b : BitVec w) : Bool :=
  match op with
  | .equal => a == b
  | .lessThan => a.slt b
  | .lessThanOrEqual => a.sle b
  | .uintLessThan => a.ult b
  | .uintLessThanOrEqual => a.ule b

/-- A truth value as a word. -/
def ofBool (b : Bool) : BitVec 32 := if b then 1#32 else 0#32

/-- The bits a shift moves out are zero. -/
def ShiftsOutZeros (a b : BitVec w) : Prop := 2 ^ (b.toNat % w) ∣ a.toNat

instance (a b : BitVec w) : Decidable (ShiftsOutZeros a b) := inferInstanceAs (Decidable (_ ∣ _))

end Values

/-- An assignment of words to the leaves. -/
structure Env where
  word : (w : Nat) → Nat → BitVec w
  bit : Nat → Bool
  /-- The 32 bits a load finds. -/
  memory : Nat → BitVec 32
  /-- What decompression puts above them. -/
  upper : Nat → BitVec 32

/-- The value of a load: as many bits as its representation has, sign-extended. -/
def LoadRepresentation.eval (rep : LoadRepresentation) (bits : BitVec 32) : BitVec 32 :=
  match rep with
  | .int8 => (bits.setWidth 8).signExtend 32
  | .int16 => (bits.setWidth 16).signExtend 32
  | .int32 => bits

namespace Node

/-- The word of a node. -/
def eval (env : Env) : {w : Nat} → Node w → BitVec w
  | _, .constant value => value
  | _, .typeGuard input => eval env input
  | w, .leaf id => env.word w id
  | _, .load rep id => rep.eval (env.memory id)
  | _, .bitcastTaggedLoad id => env.upper id ++ env.memory id
  | _, .floatComparison id => ofBool (env.bit id)
  | _, .binop op left right => op.eval (eval env left) (eval env right)
  | _, .compare op left right => ofBool (op.test (eval env left) (eval env right))
  | _, .changeInt32ToInt64 input => (eval env input).signExtend 64
  | _, .changeUint32ToUint64 input => (eval env input).setWidth 64
  | _, .truncateInt64ToInt32 input => (eval env input).setWidth 32
  | _, .phi condition ifTrue ifFalse =>
    if eval env condition ≠ 0#32 then eval env ifTrue else eval env ifFalse

/-- Every `SarShiftOutZeros` below the node shifts out zeros only. -/
def Valid (env : Env) : {w : Nat} → Node w → Prop
  | _, .constant _ | _, .leaf _ | _, .load _ _ | _, .bitcastTaggedLoad _ | _, .floatComparison _ => True
  | _, .typeGuard input => Valid env input
  | _, .binop op left right =>
    Valid env left ∧ Valid env right ∧
      (op = .sarShiftOutZeros → ShiftsOutZeros (eval env left) (eval env right))
  | _, .compare _ left right => Valid env left ∧ Valid env right
  | _, .changeInt32ToInt64 input => Valid env input
  | _, .changeUint32ToUint64 input => Valid env input
  | _, .truncateInt64ToInt32 input => Valid env input
  | _, .phi condition ifTrue ifFalse => Valid env condition ∧ Valid env ifTrue ∧ Valid env ifFalse

/-- `HasResolvedValue()` and `ResolvedValue()`: value identities are skipped. -/
def resolvedValue : {w : Nat} → Node w → Option (BitVec w)
  | _, .constant value => some value
  | _, .typeGuard input => resolvedValue input
  | _, _ => none

/-- `Is(value)`. -/
def is {w : Nat} (node : Node w) (value : BitVec w) : Bool := node.resolvedValue == some value

/-- `IsComparison()`. -/
def isComparison {w : Nat} (node : Node w) : Bool :=
  match node with
  | .compare _ _ _ => true
  | .floatComparison _ => true
  | _ => false

variable {w : Nat}

/-- `PutConstantOnRight()`. -/
def putConstantOnRight (left right : Node w) : Node w × Node w :=
  if left.resolvedValue.isSome && right.resolvedValue.isNone then (right, left) else (left, right)

/-- The opcode test and the `BinopMatcher` on an input: its two inputs, if it has the operator. -/
def inputs (op : Binop) (node : Node w) : Option (Node w × Node w) :=
  match node with
  | .binop op' left right =>
    if op' = op then some (if op.isCommutative then putConstantOnRight left right else (left, right)) else none
  | _ => none

/-- `IsWordNSar()`: either kind of the shift. -/
def sarInputs (node : Node w) : Option (Node w × Node w) := node.inputs .sar <|> node.inputs .sarShiftOutZeros

/-- `IsWordNShr() || IsWordNSar()`. -/
def shiftRightInputs (node : Node w) : Option (Node w × Node w) := node.inputs .shr <|> node.sarInputs

/-- The number of operators and leaves of a node. -/
def size : {w : Nat} → Node w → Nat
  | _, .typeGuard input => size input + 1
  | _, .binop _ left right => size left + size right + 1
  | _, .compare _ left right => size left + size right + 1
  | _, .changeInt32ToInt64 input => size input + 1
  | _, .changeUint32ToUint64 input => size input + 1
  | _, .truncateInt64ToInt32 input => size input + 1
  | _, .phi condition ifTrue ifFalse => size condition + size ifTrue + size ifFalse + 1
  | _, _ => 1

/-- `return` under a condition. -/
def onlyIf (c : Bool) (node : Node w) : Option (Node w) := if c then some node else none

/-- `reduction.Changed() ? reduction.replacement() : node`, which is also what `FollowedBy` leaves. -/
def followedBy (node : Node w) (reduction : Option (Node w)) : Node w := reduction.getD node

/-- `IsFoldable()`: an operation on two constants. -/
def fold (f : BitVec w → BitVec w → BitVec w) (left right : Node w) : Option (Node w) :=
  match left.resolvedValue, right.resolvedValue with
  | some a, some b => some (.constant (f a b))
  | _, _ => none

theorem size_pos (node : Node w) : 0 < node.size := by
  cases node <;> simp [size]

/-! ## Refinement -/

/-- Every result satisfies `P`. -/
def Yields {α : Type} (o : Option α) (P : α → Prop) : Prop := ∀ x, o = some x → P x

section Yields
variable {α β : Type} {P : α → Prop}

theorem Yields.none : Yields (none : Option α) P := fun _ h => nomatch h

theorem Yields.some {x : α} (h : P x) : Yields (some x) P := by
  rintro r ⟨⟩; exact h

theorem Yields.orElse {x y : Option α} (hx : Yields x P) (hy : Yields y P) : Yields (x <|> y) P := by
  intro r h
  cases x with
  | none => exact hy r h
  | some x => exact hx r h

theorem Yields.ite {c : Prop} [Decidable c] {x : α} (h : c → P x) :
    Yields (if c then Option.some x else Option.none) P := by
  split
  · exact Yields.some (h ‹_›)
  · exact Yields.none

theorem Yields.bind {o : Option β} {f : β → Option α} (h : ∀ x, o = Option.some x → Yields (f x) P) :
    Yields (o.bind f) P := by
  cases o with
  | none => exact Yields.none
  | some x => exact h x rfl

theorem Yields.bind₂ {γ : Type} {o : Option (β × γ)} {f : β × γ → Option α}
    (h : ∀ x y, o = Option.some (x, y) → Yields (f (x, y)) P) : Yields (o.bind f) P :=
  Yields.bind fun p hp => h p.1 p.2 hp

end Yields

/-- `replacement` may stand for `node`: where the promises below `node` are kept, so are
those below the replacement, and both have the same word. -/
def Refines (node replacement : Node w) : Prop :=
  ∀ env, node.Valid env → replacement.Valid env ∧ replacement.eval env = node.eval env

/-- Whatever a reducer returns for a node may stand for it. -/
def Sound (node : Node w) (reduction : Option (Node w)) : Prop := Yields reduction node.Refines

variable {node a b : Node w}

theorem Refines.refl (node : Node w) : node.Refines node := fun _ h => ⟨h, rfl⟩

theorem Refines.trans {c : Node w} (h1 : a.Refines b) (h2 : b.Refines c) : a.Refines c := by
  intro env hv
  obtain ⟨hb, hab⟩ := h1 env hv
  obtain ⟨hc, hbc⟩ := h2 env hb
  exact ⟨hc, hbc.trans hab⟩

theorem Sound.none : node.Sound none := Yields.none

theorem Sound.some (h : node.Refines a) : node.Sound (some a) := Yields.some h

theorem Sound.orElse {x y : Option (Node w)} (hx : node.Sound x) (hy : node.Sound y) : node.Sound (x <|> y) :=
  Yields.orElse hx hy

/-- An alternative may rely on the failure of the one before it. -/
theorem Sound.orElse_of_none {x y : Option (Node w)} (hx : node.Sound x) (hy : x = Option.none → node.Sound y) :
    node.Sound (x <|> y) := by
  cases x with
  | none => exact hy rfl
  | some x => exact hx

theorem Sound.ite {c : Prop} [Decidable c] (h : c → node.Refines a) :
    node.Sound (if c then Option.some a else Option.none) := Yields.ite h

theorem Sound.onlyIf {c : Bool} (h : c = true → node.Refines a) : node.Sound (onlyIf c a) := Sound.ite h

theorem Sound.bind {α : Type} {o : Option α} {f : α → Option (Node w)}
    (h : ∀ x, o = Option.some x → node.Sound (f x)) : node.Sound (o.bind f) := Yields.bind h

theorem Sound.bind₂ {α β : Type} {o : Option (α × β)} {f : α × β → Option (Node w)}
    (h : ∀ x y, o = Option.some (x, y) → node.Sound (f (x, y))) : node.Sound (o.bind f) := Yields.bind₂ h

theorem Sound.of_refines {r : Option (Node w)} (h1 : a.Refines b) (h2 : b.Sound r) : a.Sound r :=
  fun x hx => h1.trans (h2 x hx)

theorem Refines.followedBy {r : Option (Node w)} (h1 : a.Refines b) (h2 : b.Sound r) :
    a.Refines (b.followedBy r) := by
  cases r with
  | none => exact h1
  | some r => exact h1.trans (h2 r rfl)

theorem resolvedValue_eval {k : BitVec w} (h : node.resolvedValue = some k) (env : Env) : node.eval env = k := by
  induction node with
  | constant value => simpa [resolvedValue, eval] using h
  | typeGuard input ih => exact ih h
  | _ => simp [resolvedValue] at h

theorem is_eval {k : BitVec w} (h : node.is k = true) (env : Env) : node.eval env = k :=
  resolvedValue_eval (by simpa [is] using h) env

theorem putConstantOnRight_cases (left right : Node w) :
    putConstantOnRight left right = (left, right) ∨ putConstantOnRight left right = (right, left) := by
  unfold putConstantOnRight
  split
  · exact .inr rfl
  · exact .inl rfl

variable {left right : Node w} {env : Env}

/-- The matched inputs are those of the node, swapped only if the operator is commutative. -/
theorem inputs_cases (h : node.inputs op = some (left, right)) :
    node = .binop op left right ∨ op.isCommutative = true ∧ node = .binop op right left := by
  unfold inputs at h
  split at h
  · rename_i op' l r
    split at h
    · rename_i heq
      subst heq
      split at h
      · rename_i hc
        rcases putConstantOnRight_cases l r with hp | hp
        · rw [hp] at h; cases h; exact .inl rfl
        · rw [hp] at h; cases h; exact .inr ⟨hc, rfl⟩
      · cases h; exact .inl rfl
    · cases h
  · cases h

theorem inputs_eval (h : node.inputs op = some (left, right)) (env : Env) :
    node.eval env = op.eval (left.eval env) (right.eval env) := by
  rcases inputs_cases h with rfl | ⟨hc, rfl⟩
  · rfl
  · exact Binop.eval_comm hc _ _

theorem inputs_valid (h : node.inputs op = some (left, right))
    (hv : node.Valid env) : left.Valid env ∧ right.Valid env := by
  rcases inputs_cases h with rfl | ⟨-, rfl⟩
  · exact ⟨hv.1, hv.2.1⟩
  · exact ⟨hv.2.1, hv.1⟩

theorem inputs_size (h : node.inputs op = some (left, right)) :
    node.size = left.size + right.size + 1 := by
  rcases inputs_cases h with rfl | ⟨-, rfl⟩
  · rfl
  · rw [size, Nat.add_comm right.size]

theorem inputs_shiftsOutZeros (h : node.inputs .sarShiftOutZeros = some (left, right))
    (hv : node.Valid env) : ShiftsOutZeros (left.eval env) (right.eval env) := by
  rcases inputs_cases h with rfl | ⟨hc, -⟩
  · exact hv.2.2 rfl
  · cases hc

theorem sarInputs_cases (h : node.sarInputs = some (left, right)) :
    node.inputs .sar = some (left, right) ∨ node.inputs .sarShiftOutZeros = some (left, right) :=
  ((Option.orElse_eq_some _ _ _).1 h).imp_right And.right

theorem sarInputs_eval (h : node.sarInputs = some (left, right)) (env : Env) :
    node.eval env = (left.eval env).sshiftRight ((right.eval env).toNat % w) := by
  rcases sarInputs_cases h with h | h
  · exact inputs_eval h env
  · exact inputs_eval h env

theorem sarInputs_valid (h : node.sarInputs = some (left, right))
    (hv : node.Valid env) : left.Valid env ∧ right.Valid env := by
  rcases sarInputs_cases h with h | h
  · exact inputs_valid h hv
  · exact inputs_valid h hv

theorem shiftRightInputs_cases (h : node.shiftRightInputs = some (left, right)) :
    node.inputs .shr = some (left, right) ∨ node.sarInputs = some (left, right) :=
  ((Option.orElse_eq_some _ _ _).1 h).imp_right And.right

theorem shiftRightInputs_valid (h : node.shiftRightInputs = some (left, right))
    (hv : node.Valid env) : left.Valid env ∧ right.Valid env := by
  rcases shiftRightInputs_cases h with h | h
  · exact inputs_valid h hv
  · exact sarInputs_valid h hv

/-- The bits of either shift that come from the shifted word. -/
theorem shiftRightInputs_bit (h : node.shiftRightInputs = some (left, right)) (env : Env)
    {j : Nat} (hj : j + (right.eval env).toNat % w < w) :
    (node.eval env).getLsbD j = (left.eval env).getLsbD (j + (right.eval env).toNat % w) := by
  rcases shiftRightInputs_cases h with h | h
  · rw [inputs_eval h, Binop.eval, BitVec.getLsbD_ushiftRight, Nat.add_comm]
  · rw [sarInputs_eval h, BitVec.getLsbD_sshiftRight, if_pos (by omega), Nat.add_comm]
    simp
    omega

theorem refines_put (hc : op.isCommutative = true) (left right : Node w) :
    (Node.binop op left right).Refines
      (.binop op (putConstantOnRight left right).1 (putConstantOnRight left right).2) := by
  intro env hv
  rcases putConstantOnRight_cases left right with hp | hp
  · rw [hp]; exact ⟨hv, rfl⟩
  · rw [hp]
    refine ⟨⟨hv.2.1, hv.1, ?_⟩, Binop.eval_comm hc _ _⟩
    rintro rfl
    cases hc

theorem refines_put_equal (left right : Node w) :
    (Node.compare .equal left right).Refines
      (.compare .equal (putConstantOnRight left right).1 (putConstantOnRight left right).2) := by
  intro env hv
  rcases putConstantOnRight_cases left right with hp | hp
  · rw [hp]; exact ⟨hv, rfl⟩
  · rw [hp]
    refine ⟨⟨hv.2, hv.1⟩, ?_⟩
    simp only [eval, Comparison.test, BEq.comm]

theorem size_put (left right : Node w) :
    (putConstantOnRight left right).1.size + (putConstantOnRight left right).2.size = left.size + right.size := by
  rcases putConstantOnRight_cases left right with hp | hp
  · rw [hp]
  · rw [hp, Nat.add_comm]

/-- Folding computes what the operator would. -/
theorem sound_fold {f : BitVec w → BitVec w → BitVec w}
    (h : ∀ env, node.eval env = f (left.eval env) (right.eval env)) : node.Sound (fold f left right) := by
  unfold fold
  split
  · rename_i x y hx hy
    refine Sound.some fun env _ => ⟨trivial, ?_⟩
    rw [h env, resolvedValue_eval hx, resolvedValue_eval hy]
    rfl
  · exact Sound.none

end Node
end V8Core.Compiler
