import Mathlib.Algebra.Order.Ring.Int
import Mathlib.Tactic.Positivity

/-!
# Folding the index of a memory operation

`ReduceMemoryIndex` of Turboshaft's `MachineOptimizationReducer`: additions and shifts by constants in
the index of a load or store move into its offset and its element scale. The address that the operation
uses is `(index << element_scale) + offset`. There is no result where a 32-bit number is shifted by 32 or
more, which is undefined, where `signed_integral` is asked for a number that is none (`UNREACHABLE`), and
where the assertion of `integral` fails.

`Faults` says on the index itself where that happens: at a constant under so many shifts, with every
constant further out in the range of the offset.
-/

namespace V8Core.Compiler

/-- The operations of an index. A pointer-sized constant is a word (`kWord64`), a relocatable one
(`kRelocatableWasmCall`, `kRelocatableWasmStubCall`) with the number stored in it, or a symbol (`kExternal`,
`kTaggedIndex`). `leaf` is any other operation. -/
inductive IndexOp
  | constant (value : BitVec 64)
  | relocatable (value : BitVec 64)
  | symbol (id : Nat)
  | shiftLeft (left right : IndexOp)
  | add (left right : IndexOp)
  | leaf (id : Nat)

/-- The word of an index. A shift takes the low half of its amount, modulo the word size. -/
def IndexOp.eval (env : Nat → BitVec 64) : IndexOp → BitVec 64
  | constant value | relocatable value => value
  | shiftLeft left right => left.eval env <<< (((right.eval env).setWidth 32).toNat % 64)
  | add left right => left.eval env + right.eval env
  | symbol id | leaf id => env id

structure MemoryIndex where
  index : Option IndexOp
  offset : BitVec 32
  elementScale : Fin 64

def MemoryIndex.address (env : Nat → BitVec 64) (m : MemoryIndex) : BitVec 64 :=
  (m.index.elim 0 (·.eval env)) <<< m.elementScale.val + m.offset.signExtend 64

/-- `limit >> element_scale` for a 32-bit limit. -/
def shiftLimit (limit : ℤ) (elementScale : Nat) : Option ℤ :=
  if elementScale < 32 then some (limit >>> elementScale) else none

/-- `TryAdjustOffset`: the new offset if the operation is a constant that fits. -/
def tryAdjustOffset (offset : BitVec 32) (maybeConstant : IndexOp) (elementScale : Nat) :
    Option (Option (BitVec 32)) :=
  match maybeConstant with
  | .constant diff => do
    let high ← shiftLimit (2 ^ 31 - 1) elementScale
    let low ← shiftLimit (-2 ^ 31) elementScale
    let scaled := (diff <<< elementScale).setWidth 32
    return if diff.toInt ≤ high ∧ low ≤ diff.toInt ∧ ¬ offset.saddOverflow scaled then some (offset + scaled) else none
  | .relocatable _ | .symbol _ => none
  | _ => some none

/-- `TryAdjustElementScale`: the new scale if the amount is a constant that leaves it below the word size. -/
def tryAdjustElementScale (elementScale : Fin 64) : IndexOp → Option (Option (Fin 64))
  | .constant diff | .relocatable diff =>
    some (if h : diff.toNat < 64 - elementScale.val then some ⟨_, Nat.add_lt_of_lt_sub' h⟩ else none)
  | .symbol _ => none
  | _ => some none

/-- The loop of `ReduceMemoryIndex`. -/
def reduceMemoryIndex : IndexOp → BitVec 32 → Fin 64 → Option MemoryIndex
  | .shiftLeft left right, offset, elementScale =>
    (tryAdjustElementScale elementScale right).bind fun
      | some elementScale => reduceMemoryIndex left offset elementScale
      | none => some ⟨some (.shiftLeft left right), offset, elementScale⟩
  | .add left right, offset, elementScale =>
    (tryAdjustOffset offset right elementScale).bind fun
      | some offset => reduceMemoryIndex left offset elementScale
      | none => some ⟨some (.add left right), offset, elementScale⟩
  | index, offset, elementScale =>
    (tryAdjustOffset offset index elementScale).map fun
      | some offset => ⟨none, offset, 0⟩
      | none => ⟨some index, offset, elementScale⟩

/-! ## Where there is no result -/

/-- What can stand around a part of an index: a shift by a constant or the addition of one. -/
inductive IndexStep
  | shiftLeft (amount : BitVec 64)
  | add (value : BitVec 64)

/-- `inner` stands in the index under these shifts and additions, the outermost first. -/
inductive Under : IndexOp → List IndexStep → IndexOp → Prop
  | here (index : IndexOp) : Under index [] index
  | shiftLeft {left right inner : IndexOp} {amount : BitVec 64} {steps : List IndexStep}
      (hright : right = .constant amount ∨ right = .relocatable amount) (h : Under left steps inner) :
      Under (.shiftLeft left right) (.shiftLeft amount :: steps) inner
  | add {left inner : IndexOp} {value : BitVec 64} {steps : List IndexStep} (h : Under left steps inner) :
      Under (.add left (.constant value)) (.add value :: steps) inner

/-- The element scale and the amounts of all shifts. -/
def scaleUnder (elementScale : Nat) : List IndexStep → Nat
  | [] => elementScale
  | .shiftLeft amount :: steps => scaleUnder (elementScale + amount.toNat) steps
  | .add _ :: steps => scaleUnder elementScale steps

/-- The constants added, each with the scale of the shifts around it. -/
def sumUnder (elementScale : Nat) : List IndexStep → ℤ
  | [] => 0
  | .shiftLeft amount :: steps => sumUnder (elementScale + amount.toNat) steps
  | .add value :: steps => value.toInt * 2 ^ elementScale + sumUnder elementScale steps

def IsInt32 (n : ℤ) : Prop := -2 ^ 31 ≤ n ∧ n < 2 ^ 31

/-- The scale stays below the word size, and below 32 at an addition; a constant with its scale and the sum of the
offset and all constants so far are 32-bit numbers. -/
def Foldable (offset : ℤ) (elementScale : Nat) (steps : List IndexStep) : Prop :=
  ∀ outer step, outer ++ [step] <+: steps → match step with
    | .shiftLeft amount => scaleUnder elementScale outer + amount.toNat < 64
    | .add value => scaleUnder elementScale outer < 32 ∧ IsInt32 (value.toInt * 2 ^ scaleUnder elementScale outer) ∧
        IsInt32 (offset + sumUnder elementScale (outer ++ [step]))

/-- An operation that `TryAdjustOffset` must not look at. -/
def IndexOp.Unfit (scale : Nat) : IndexOp → Prop
  | constant _ => 32 ≤ scale
  | relocatable _ | symbol _ => True
  | _ => False

/-- An index that the loop must not reach. -/
def IndexOp.Stuck (scale : Nat) : IndexOp → Prop
  | shiftLeft _ right => ∃ id, right = .symbol id
  | add _ right => right.Unfit scale
  | index => index.Unfit scale

/-- Under shifts and additions that all fold away stands an index that the loop must not reach. -/
def Faults (index : IndexOp) (offset : BitVec 32) (elementScale : Fin 64) : Prop :=
  ∃ steps inner, Under index steps inner ∧ Foldable offset.toInt elementScale steps ∧
    inner.Stuck (scaleUnder elementScale steps)

variable {offset folded : BitVec 32} {op left right : IndexOp} {elementScale : Nat} {amount value diff : BitVec 64}
  {steps : List IndexStep}

/-! ## One step of the loop -/

theorem tryAdjustOffset_eq_none : tryAdjustOffset offset op elementScale = none ↔ op.Unfit elementScale := by
  cases op with
  | constant diff => by_cases h : elementScale < 32 <;> simp [tryAdjustOffset, shiftLimit, IndexOp.Unfit, h]; omega
  | _ => simp [tryAdjustOffset, IndexOp.Unfit]

/-- A constant is within the shifted limits exactly when it is within the limits once it is scaled. -/
theorem le_shiftLimit_iff {diff : ℤ} (hscale : elementScale < 32) :
    (diff ≤ (2 ^ 31 - 1 : ℤ) >>> elementScale ∧ (-2 ^ 31 : ℤ) >>> elementScale ≤ diff) ↔
      IsInt32 (diff * 2 ^ elementScale) := by
  have hpos : (0 : ℤ) < 2 ^ elementScale := by positivity
  have hdvd : (2 ^ elementScale : ℤ) ∣ -2 ^ 31 := by
    rw [Int.dvd_neg]
    exact pow_dvd_pow 2 (by omega)
  have hlow : (-2 ^ 31 : ℤ) / 2 ^ elementScale ≤ diff ↔ -2 ^ 31 ≤ diff * 2 ^ elementScale := by
    rw [← Int.mul_le_mul_right hpos, Int.ediv_mul_cancel hdvd]
  rw [Int.shiftRight_eq_div_pow, Int.shiftRight_eq_div_pow, Nat.cast_pow, Nat.cast_ofNat,
    Int.le_ediv_iff_mul_le hpos, hlow, IsInt32]
  omega

theorem shiftLeft_eq_ofInt (diff : BitVec 64) (n : Nat) : diff <<< n = BitVec.ofInt 64 (diff.toInt * 2 ^ n) := by
  have htwo : BitVec.twoPow 64 n = BitVec.ofNat 64 (2 ^ n) := BitVec.eq_of_toNat_eq (by simp)
  have hcast : (2 ^ n : ℤ) = ((2 ^ n : Nat) : ℤ) := by push_cast; rfl
  rw [hcast, BitVec.ofInt_mul, BitVec.ofInt_toInt, BitVec.ofInt_natCast, BitVec.shiftLeft_eq_mul_twoPow, htwo]

theorem setWidth_ofInt (n : ℤ) : (BitVec.ofInt 64 n).setWidth 32 = BitVec.ofInt 32 n := by
  apply BitVec.eq_of_toNat_eq
  simp only [BitVec.toNat_setWidth, BitVec.toNat_ofInt]
  omega

/-- A constant is folded in exactly when it fits once it is scaled, and so does the sum. -/
theorem tryAdjustOffset_constant :
    tryAdjustOffset offset (.constant diff) elementScale = some (some folded) ↔
      elementScale < 32 ∧ IsInt32 (diff.toInt * 2 ^ elementScale) ∧
        folded.toInt = offset.toInt + diff.toInt * 2 ^ elementScale := by
  by_cases hscale : elementScale < 32
  case neg => simp [tryAdjustOffset, shiftLimit, hscale]
  simp only [tryAdjustOffset, shiftLimit, if_pos hscale, Option.bind_eq_bind, Option.bind_some, Option.pure_def,
    Option.some.injEq, Option.ite_none_right_eq_some, ← and_assoc, le_shiftLimit_iff hscale]
  rw [and_assoc, and_iff_right hscale, and_congr_right_iff]
  intro hfits
  rw [shiftLeft_eq_ofInt, setWidth_ofInt]
  have htoInt := BitVec.toInt_ofInt_eq_self (w := 32) (by decide) hfits.1 hfits.2
  constructor
  · rintro ⟨hover, rfl⟩
    rw [BitVec.toInt_add_of_not_saddOverflow hover, htoInt]
  · intro hfolded
    have hover : ¬ offset.saddOverflow (BitVec.ofInt 32 (diff.toInt * 2 ^ elementScale)) = true := by
      have := folded.toInt_lt
      have := folded.le_toInt
      simp only [BitVec.saddOverflow, htoInt, ← hfolded]
      simp; omega
    refine ⟨hover, BitVec.eq_of_toInt_eq ?_⟩
    rw [BitVec.toInt_add_of_not_saddOverflow hover, htoInt, hfolded]

/-- Nothing of a folded constant is cut off. -/
theorem tryAdjustOffset_eq_some (env : Nat → BitVec 64)
    (h : tryAdjustOffset offset op elementScale = some (some folded)) :
    folded.signExtend 64 = op.eval env <<< elementScale + offset.signExtend 64 := by
  cases op with
  | constant diff =>
    obtain ⟨-, -, hfolded⟩ := tryAdjustOffset_constant.1 h
    rw [BitVec.signExtend, hfolded, BitVec.ofInt_add, BitVec.add_comm, IndexOp.eval, shiftLeft_eq_ofInt,
      BitVec.signExtend]
  | _ => cases h

theorem tryAdjustElementScale_eq_none {elementScale : Fin 64} :
    tryAdjustElementScale elementScale op = none ↔ ∃ id, op = .symbol id := by
  cases op <;> simp [tryAdjustElementScale]

theorem tryAdjustElementScale_eq_some {elementScale scaled : Fin 64} :
    tryAdjustElementScale elementScale op = some (some scaled) ↔ ∃ amount : BitVec 64,
      (op = .constant amount ∨ op = .relocatable amount) ∧ scaled.val = elementScale + amount.toNat := by
  have key (amount : BitVec 64) :
      (∃ h : amount.toNat < 64 - elementScale.val, (⟨_, Nat.add_lt_of_lt_sub' h⟩ : Fin 64) = scaled) ↔
        scaled.val = elementScale + amount.toNat := by
    simp only [Fin.ext_iff]
    have := scaled.isLt
    constructor
    · rintro ⟨_, h⟩
      omega
    · intro h
      exact ⟨by omega, by omega⟩
  cases op <;> simp [tryAdjustElementScale, key]

/-- Two shifts in turn are one by the sum of the amounts. -/
theorem shiftLeft_shiftLeft {elementScale scaled : Fin 64} (env : Nat → BitVec 64)
    (h : tryAdjustElementScale elementScale op = some (some scaled)) (x : BitVec 64) :
    x <<< (((op.eval env).setWidth 32).toNat % 64) <<< elementScale.val = x <<< scaled.val := by
  obtain ⟨amount, hop, hscaled⟩ := tryAdjustElementScale_eq_some.1 h
  have heval : op.eval env = amount := by rcases hop with rfl | rfl <;> rfl
  have hmod : (amount.setWidth 32).toNat % 64 = amount.toNat := by
    have := scaled.isLt
    rw [BitVec.toNat_setWidth]
    omega
  rw [heval, hmod, ← BitVec.shiftLeft_add, hscaled, Nat.add_comm]

/-! ## The condition, one step at a time -/

theorem foldable_nil (offset : ℤ) : Foldable offset elementScale [] := by
  intro outer step h
  simpa using h.length_le

/-- What holds after each beginning of a list, by the head of the list. -/
theorem forall_beginning_cons {α : Type} {P : List α → α → Prop} {head : α} {tail : List α} :
    (∀ outer step, outer ++ [step] <+: head :: tail → P outer step) ↔
      P [] head ∧ ∀ outer step, outer ++ [step] <+: tail → P (head :: outer) step := by
  constructor
  · intro h
    exact ⟨h [] head (by simp), fun outer step hp => h (head :: outer) step (by simpa using hp)⟩
  · rintro ⟨hhead, htail⟩ (_ | ⟨x, outer⟩) step hp
    · obtain rfl : step = head := by simpa using hp
      exact hhead
    · obtain ⟨rfl, hp'⟩ := List.cons_prefix_cons.1 hp
      exact htail outer step hp'

theorem foldable_shiftLeft {offset : ℤ} : Foldable offset elementScale (.shiftLeft amount :: steps) ↔
    elementScale + amount.toNat < 64 ∧ Foldable offset (elementScale + amount.toNat) steps := by
  rw [Foldable, forall_beginning_cons]
  rfl

theorem foldable_add {offset : ℤ} : Foldable offset elementScale (.add value :: steps) ↔
    (elementScale < 32 ∧ IsInt32 (value.toInt * 2 ^ elementScale) ∧ IsInt32 (offset + value.toInt * 2 ^ elementScale)) ∧
      Foldable (offset + value.toInt * 2 ^ elementScale) elementScale steps := by
  rw [Foldable, forall_beginning_cons]
  simp only [scaleUnder, List.nil_append, List.cons_append, sumUnder, add_zero, ← add_assoc]
  rfl

theorem faults_shiftLeft {elementScale : Fin 64} : Faults (.shiftLeft left right) offset elementScale ↔
    (∃ id, right = .symbol id) ∨
      ∃ scaled, tryAdjustElementScale elementScale right = some (some scaled) ∧ Faults left offset scaled := by
  constructor
  · rintro ⟨_, _, hunder, hfold, hstuck⟩
    cases hunder with
    | here => exact .inl hstuck
    | shiftLeft hright hunder =>
      obtain ⟨hlt, hfold⟩ := foldable_shiftLeft.1 hfold
      exact .inr ⟨⟨_, hlt⟩, tryAdjustElementScale_eq_some.2 ⟨_, hright, rfl⟩, _, _, hunder, hfold, hstuck⟩
  · rintro (hright | ⟨scaled, hadjust, steps, inner, hunder, hfold, hstuck⟩)
    · exact ⟨[], _, .here _, foldable_nil _, hright⟩
    · obtain ⟨amount, hright, hscaled⟩ := tryAdjustElementScale_eq_some.1 hadjust
      rw [hscaled] at hfold hstuck
      exact ⟨_, _, .shiftLeft hright hunder, foldable_shiftLeft.2 ⟨hscaled ▸ scaled.isLt, hfold⟩, hstuck⟩

theorem faults_add {elementScale : Fin 64} : Faults (.add left right) offset elementScale ↔
    right.Unfit elementScale ∨
      ∃ folded, tryAdjustOffset offset right elementScale = some (some folded) ∧ Faults left folded elementScale := by
  constructor
  · rintro ⟨_, _, hunder, hfold, hstuck⟩
    cases hunder with
    | here => exact .inl hstuck
    | @add _ _ value _ hunder =>
      obtain ⟨⟨hscale, hvalue, hsum⟩, hfold⟩ := foldable_add.1 hfold
      have hfolded := BitVec.toInt_ofInt_eq_self (w := 32) (by decide) hsum.1 hsum.2
      rw [← hfolded] at hfold
      exact .inr ⟨_, tryAdjustOffset_constant.2 ⟨hscale, hvalue, hfolded⟩, _, _, hunder, hfold, hstuck⟩
  · rintro (hright | ⟨folded, hadjust, steps, inner, hunder, hfold, hstuck⟩)
    · exact ⟨[], _, .here _, foldable_nil _, hright⟩
    · cases right with
      | constant value =>
        obtain ⟨hscale, hvalue, hfolded⟩ := tryAdjustOffset_constant.1 hadjust
        have hsum : IsInt32 folded.toInt := ⟨folded.le_toInt, folded.toInt_lt⟩
        rw [hfolded] at hfold hsum
        exact ⟨_, _, .add hunder, foldable_add.2 ⟨⟨hscale, hvalue, hsum⟩, hfold⟩, hstuck⟩
      | _ => cases hadjust

/-- Nothing stands under any other operation. -/
theorem faults_other {elementScale : Fin 64} (hshift : ∀ left right, op ≠ .shiftLeft left right)
    (hadd : ∀ left right, op ≠ .add left right) :
    Faults op offset elementScale ↔ op.Unfit elementScale := by
  have hstuck scale : op.Stuck scale ↔ op.Unfit scale := by
    cases op with
    | shiftLeft left right => exact absurd rfl (hshift left right)
    | add left right => exact absurd rfl (hadd left right)
    | _ => rfl
  constructor
  · rintro ⟨_, _, hunder, -, h⟩
    cases hunder with
    | here => exact (hstuck _).1 h
    | shiftLeft => exact absurd rfl (hshift _ _)
    | add => exact absurd rfl (hadd _ _)
  · exact fun h => ⟨[], op, .here op, foldable_nil _, (hstuck _).2 h⟩

/-- There is a result, with the address kept, exactly when the loop reaches no operation it must not look at. -/
theorem reduceMemoryIndex_spec (index : IndexOp) (offset : BitVec 32) (elementScale : Fin 64) :
    (∃ m, reduceMemoryIndex index offset elementScale = some m ∧
      ∀ env, m.address env = (MemoryIndex.mk (some index) offset elementScale).address env) ↔
      ¬ Faults index offset elementScale := by
  induction index generalizing offset elementScale with
  | shiftLeft left right ihl _ =>
    rw [faults_shiftLeft, ← @tryAdjustElementScale_eq_none right elementScale]
    rcases hadjust : tryAdjustElementScale elementScale right with _ | _ | scaled
    · simp [reduceMemoryIndex, hadjust]
    · simp [reduceMemoryIndex, hadjust]
    · have haddress env : (MemoryIndex.mk (some (.shiftLeft left right)) offset elementScale).address env =
          (MemoryIndex.mk (some left) offset scaled).address env :=
        congrArg (· + _) (shiftLeft_shiftLeft env hadjust _)
      simpa [reduceMemoryIndex, hadjust, haddress] using ihl offset scaled
  | add left right ihl _ =>
    rw [faults_add, ← @tryAdjustOffset_eq_none offset]
    rcases hadjust : tryAdjustOffset offset right elementScale.val with _ | _ | folded
    · simp [reduceMemoryIndex, hadjust]
    · simp [reduceMemoryIndex, hadjust]
    · have haddress env : (MemoryIndex.mk (some (.add left right)) offset elementScale).address env =
          (MemoryIndex.mk (some left) folded elementScale).address env := by
        simp only [MemoryIndex.address, Option.elim, IndexOp.eval, BitVec.shiftLeft_add_distrib,
          tryAdjustOffset_eq_some env hadjust, BitVec.add_assoc]
      simpa [reduceMemoryIndex, hadjust, haddress] using ihl folded elementScale
  | constant | relocatable | symbol | leaf =>
    rw [faults_other, ← @tryAdjustOffset_eq_none offset]
    case hshift | hadd => exact fun _ _ => nofun
    rcases hadjust : tryAdjustOffset offset _ elementScale.val with _ | _ | folded
    · simp [reduceMemoryIndex, hadjust]
    · simp [reduceMemoryIndex, hadjust]
    · simpa [reduceMemoryIndex, hadjust, MemoryIndex.address] using fun env => tryAdjustOffset_eq_some env hadjust

/-- `(x - 1) << 40`: the constant is met at scale 40. -/
theorem reduceMemoryIndex_shift_forty :
    reduceMemoryIndex (.shiftLeft (.add (.leaf 0) (.constant (-1))) (.constant 40)) 0 0 = none := by
  decide

end V8Core.Compiler
