import Mathlib.Algebra.Order.Ring.Nat
import Mathlib.Data.Fintype.Basic
import Mathlib.Tactic.Common

/-!
# WebAssembly value types

`HeapType` and `ValueType` of `wasm/value-type.h`. A heap type is an index into
the types of a module, one of the generic heap types, or bottom; a value type is
a primitive, an rtt or a nullable or non-nullable reference. `bitField` is the
32 bit encoding that type canonicalization compares.
-/

namespace V8Core.Wasm

/-- The limit on type definitions of one module; type indices stay below it. -/
def kV8MaxWasmTypes : Nat := 1000000

/-- The generic heap types, in the order of `HeapType::Representation`. -/
inductive GenericHeapType
  | kFunc | kEq | kI31 | kStruct | kArray | kAny | kExtern | kString
  | kStringViewWtf8 | kStringViewWtf16 | kStringViewIter | kNone | kNoFunc | kNoExtern
  deriving DecidableEq, Repr

instance : Fintype GenericHeapType where
  elems := {.kFunc, .kEq, .kI31, .kStruct, .kArray, .kAny, .kExtern, .kString, .kStringViewWtf8, .kStringViewWtf16,
    .kStringViewIter, .kNone, .kNoFunc, .kNoExtern}
  complete x := by cases x <;> decide

/-- A heap type: a type of a module by its index, a generic type, or bottom. -/
inductive HeapType
  | index (i : Nat)
  | generic (g : GenericHeapType)
  | kBottom
  deriving DecidableEq, Repr

/-- The three string views, which have no supertypes. -/
def GenericHeapType.isStringView : GenericHeapType → Bool
  | .kStringViewWtf8 | .kStringViewWtf16 | .kStringViewIter => true
  | _ => false

/-- The number of a generic heap type among the sentinels. -/
def GenericHeapType.sentinel : GenericHeapType → Nat
  | .kFunc => 0 | .kEq => 1 | .kI31 => 2 | .kStruct => 3 | .kArray => 4 | .kAny => 5 | .kExtern => 6
  | .kString => 7 | .kStringViewWtf8 => 8 | .kStringViewWtf16 => 9 | .kStringViewIter => 10
  | .kNone => 11 | .kNoFunc => 12 | .kNoExtern => 13

def HeapType.representation : HeapType → Nat
  | .index i => i
  | .generic g => kV8MaxWasmTypes + g.sentinel
  | .kBottom => kV8MaxWasmTypes + 14

inductive Nullability
  | kNonNullable | kNullable
  deriving DecidableEq, Repr

/-- The kinds without a heap type. -/
inductive PrimitiveKind
  | kVoid | kI32 | kI64 | kF32 | kF64 | kS128 | kI8 | kI16 | kBottom
  deriving DecidableEq, Repr

inductive ValueType
  | primitive (kind : PrimitiveKind)
  | rtt (typeIndex : Nat)
  | ref (heapType : HeapType) (nullability : Nullability)
  deriving DecidableEq, Repr

namespace ValueType

def kWasmBottom : ValueType := primitive .kBottom

/-- `RefMaybeNull`. -/
def refMaybeNull (heapType : HeapType) (nullability : Nullability) : ValueType := ref heapType nullability

def isObjectReference : ValueType → Bool
  | ref _ _ => true
  | _ => false

def isNullable : ValueType → Bool
  | ref _ .kNullable => true
  | _ => false

/-- The index of a type that has one (`has_index`, `ref_index`). -/
def refIndex? : ValueType → Option Nat
  | rtt i => some i
  | ref (.index i) _ => some i
  | _ => none

/-- The number of the kind in the `ValueKind` enumeration. -/
def kind : ValueType → Nat
  | primitive .kVoid => 0 | primitive .kI32 => 1 | primitive .kI64 => 2 | primitive .kF32 => 3
  | primitive .kF64 => 4 | primitive .kS128 => 5 | primitive .kI8 => 6 | primitive .kI16 => 7
  | rtt _ => 8 | ref _ .kNonNullable => 9 | ref _ .kNullable => 10 | primitive .kBottom => 11

def kKindBits : Nat := 5
def kHeapTypeBits : Nat := 20

/-- `FromIndex`: the fields are shifted and joined, nothing is cut off. -/
def fromIndex (kind index : Nat) : BitVec 32 :=
  BitVec.ofNat 32 kind ||| BitVec.ofNat 32 index <<< kKindBits

/-- `CanonicalWithRelativeIndex`: the same with the relative bit. -/
def canonicalWithRelativeIndex (kind index : Nat) : BitVec 32 :=
  fromIndex kind index ||| 1#32 <<< (kKindBits + kHeapTypeBits)

/-- The 32 bits of a value type. -/
def bitField (t : ValueType) : BitVec 32 :=
  match t with
  | primitive _ => BitVec.ofNat 32 t.kind
  | rtt i => fromIndex t.kind i
  | ref h _ => fromIndex t.kind h.representation

end ValueType

end V8Core.Wasm
