import V8Core.Lib.Forest
import V8Core.Wasm.CanonicalTypes

/-!
# Subtyping and unions of value types

`IsSubtypeOf`, `EquivalentTypes`, `ValidSubtypeDefinition` and `Union` of
`wasm/wasm-subtyping.cc`, with `GetSubtypingDepth` and `IsCanonicalSubtype`.

A `none` stands for no answer: a walk over supertypes that does not end or
leaves its table, or a heap type that the code does not expect (`UNREACHABLE`).
Walks over a table get one step more than the table has entries, which is enough
for every walk that does not go round in a circle.
-/

namespace V8Core.Wasm

def kV8MaxRttSubtypingDepth : Nat := 63

/-- The loop of `GetSubtypingDepth`, with the steps left until the depth exceeds its limit. -/
def getSubtypingDepthLoop (m : WasmModule) (startingPoint : Nat) : Nat → Nat → Int → Int
  | 0, _, depth => depth
  | left + 1, typeIndex, depth =>
    match m.supertype typeIndex with
    | none => depth
    | some s => if s = startingPoint then -1 else getSubtypingDepthLoop m startingPoint left s (depth + 1)

/-- `GetSubtypingDepth`: the number of supertypes, -1 for a cycle. -/
def getSubtypingDepth (m : WasmModule) (typeIndex : Nat) : Int :=
  getSubtypingDepthLoop m typeIndex (kV8MaxRttSubtypingDepth + 1) typeIndex 0

/-- The loop of `IsCanonicalSubtype`. -/
def isCanonicalSubtypeLoop (supertypes : List (Option Nat)) (canonicalSuper : Nat) : Nat → Option Nat → Option Bool
  | 0, _ => none
  | _ + 1, none => some false
  | fuel + 1, some canonicalSub =>
    if canonicalSub = canonicalSuper then some true
    else (supertypes[canonicalSub]?).bind (isCanonicalSubtypeLoop supertypes canonicalSuper fuel)

namespace Engine

variable (w : Engine)

/-- `IsCanonicalSubtype` on type indices. -/
def isCanonicalSubtype (subIndex superIndex : Nat) (subModule superModule : ModuleId) : Option Bool :=
  isCanonicalSubtypeLoop w.canonicalSupertypes ((w.modules superModule).canonicalId superIndex)
    (w.canonicalSupertypes.length + 1) (some ((w.modules subModule).canonicalId subIndex))

def equivalentIndices (index1 index2 : Nat) (module1 module2 : ModuleId) : Bool :=
  (w.modules module1).canonicalId index1 = (w.modules module2).canonicalId index2

/-- `IsHeapSubtypeOfImpl` from an indexed type on. -/
def isIndexSubtypeOfImpl (subIndex : Nat) (superHeap : HeapType) (subModule superModule : ModuleId) : Option Bool :=
  match superHeap with
  | .generic .kFunc => some ((w.modules subModule).hasSignature subIndex)
  | .generic .kStruct => some ((w.modules subModule).hasStruct subIndex)
  | .generic .kEq | .generic .kAny => some (!(w.modules subModule).hasSignature subIndex)
  | .generic .kArray => some ((w.modules subModule).hasArray subIndex)
  | .generic .kI31 | .generic .kExtern => some false
  | .generic .kString | .generic .kStringViewWtf8 | .generic .kStringViewWtf16 | .generic .kStringViewIter => some false
  | .kBottom => none
  | .generic .kNone | .generic .kNoExtern | .generic .kNoFunc => some false
  | .index superIndex =>
    if subModule = superModule ∧ subIndex = superIndex then some true
    else w.isCanonicalSubtype subIndex superIndex subModule superModule

/-- `IsHeapSubtypeOfImpl`. -/
def isHeapSubtypeOfImpl (subHeap superHeap : HeapType) (subModule superModule : ModuleId) : Option Bool :=
  match subHeap with
  | .generic .kFunc => some (subHeap = superHeap)
  | .generic .kEq => some (subHeap = superHeap ∨ superHeap = .generic .kAny)
  | .generic .kAny => some (superHeap = .generic .kAny)
  | .generic .kExtern => some (superHeap = .generic .kExtern)
  | .generic .kI31 | .generic .kStruct | .generic .kArray =>
    some (superHeap = subHeap ∨ superHeap = .generic .kEq ∨ superHeap = .generic .kAny)
  | .generic .kString => some (subHeap = superHeap ∨ superHeap = .generic .kAny)
  | .generic .kStringViewWtf8 | .generic .kStringViewWtf16 | .generic .kStringViewIter => some (subHeap = superHeap)
  | .kBottom => none
  | .generic .kNone =>
    match superHeap with
    | .index i => some (!(w.modules superModule).hasSignature i)
    | _ => some (superHeap ≠ .generic .kFunc ∧ superHeap ≠ .generic .kNoFunc ∧ superHeap ≠ .generic .kExtern ∧
        superHeap ≠ .generic .kNoExtern)
  | .generic .kNoExtern => some (superHeap = .generic .kNoExtern ∨ superHeap = .generic .kExtern)
  | .generic .kNoFunc =>
    match superHeap with
    | .index i => some ((w.modules superModule).hasSignature i)
    | _ => some (superHeap = .generic .kNoFunc ∨ superHeap = .generic .kFunc)
  | .index subIndex => w.isIndexSubtypeOfImpl subIndex superHeap subModule superModule

/-- `IsSubtypeOfImpl`. -/
def isSubtypeOfImpl (subtype supertype : ValueType) (subModule superModule : ModuleId) : Option Bool :=
  match subtype with
  | .primitive _ => some (subtype = supertype)
  | .rtt i =>
    match supertype with
    | .rtt j => some (w.equivalentIndices i j subModule superModule)
    | _ => some false
  | .ref subHeap _ =>
    match supertype with
    | .ref superHeap _ =>
      -- a non-nullable reference may be used as a nullable one, not the other way round
      if subtype.isNullable && !supertype.isNullable then some false
      else w.isHeapSubtypeOfImpl subHeap superHeap subModule superModule
    | _ => some false

/-- `IsSubtypeOf`. -/
def isSubtypeOf (subtype supertype : ValueType) (subModule superModule : ModuleId) : Option Bool :=
  if subtype = supertype ∧ subModule = superModule then some true
  else w.isSubtypeOfImpl subtype supertype subModule superModule

/-- `EquivalentTypes`. -/
def equivalentTypes (type1 type2 : ValueType) (module1 module2 : ModuleId) : Bool :=
  if type1 = type2 ∧ module1 = module2 then true
  else
    match type1.refIndex?, type2.refIndex? with
    | some index1, some index2 =>
      if type1.kind ≠ type2.kind then false else w.equivalentIndices index1 index2 module1 module2
    | _, _ => type1 = type2

/-! ## Declared supertypes -/

/-- One field of `ValidStructSubtypeDefinition`. -/
def validFieldSubtype (sub super : ValueType × Bool) (m : ModuleId) : Option Bool :=
  if sub.2 ≠ super.2 then some false
  else if sub.2 then some (w.equivalentTypes sub.1 super.1 m m)
  else w.isSubtypeOf sub.1 super.1 m m

/-- `ValidSubtypeDefinition` for two types of one module, whose kinds are compared by the match. -/
def validSubtypeDefinition (subtype supertype : TypeDefinition) (m : ModuleId) : Option Bool :=
  if supertype.isFinal then some false
  else
    match subtype.body, supertype.body with
    | .function subReturns subParameters, .function superReturns superParameters =>
      if subParameters.length ≠ superParameters.length ∨ subReturns.length ≠ superReturns.length then some false
      else do
        let parameters ← (subParameters.zip superParameters).allM fun x => w.isSubtypeOf x.2 x.1 m m
        if parameters then (subReturns.zip superReturns).allM fun x => w.isSubtypeOf x.1 x.2 m m else some false
    | .struct subFields, .struct superFields =>
      if subFields.length < superFields.length then some false
      else (subFields.zip superFields).allM fun x => w.validFieldSubtype x.1 x.2 m
    | .array subElement subMutability, .array superElement superMutability =>
      w.validFieldSubtype (subElement, subMutability) (superElement, superMutability) m
    | _, _ => some false

/-! ## Common supertypes -/

/-- What two kinds have in common: the switch at the end of `CommonAncestor`. -/
def commonKind (kind1 kind2 : TypeKind) : HeapType :=
  match kind1, kind2 with
  | .kFunction, .kFunction => .generic .kFunc
  | .kFunction, .kStruct | .kFunction, .kArray => .kBottom
  | .kStruct, .kFunction => .kBottom
  | .kStruct, .kStruct => .generic .kStruct
  | .kStruct, .kArray => .generic .kEq
  | .kArray, .kFunction => .kBottom
  | .kArray, .kStruct => .generic .kEq
  | .kArray, .kArray => .generic .kArray

/-- `CommonAncestor`, as a type of `module1`. -/
def commonAncestor (typeIndex1 typeIndex2 : Nat) (module1 module2 : ModuleId) : Option HeapType := do
  let kind1 ← (w.modules module1).kindOf typeIndex1
  let kind2 ← (w.modules module2).kindOf typeIndex2
  let depth1 := getSubtypingDepth (w.modules module1) typeIndex1
  let depth2 := getSubtypingDepth (w.modules module2) typeIndex2
  let common ← Forest.meetUp (w.modules module1).supertype (w.modules module2).supertype
    (fun i j => (i = j && module1 = module2) || w.equivalentIndices i j module1 module2)
    ((w.modules module1).types.length + 1) (depth1 - depth2).toNat (depth2 - depth1).toNat typeIndex1 typeIndex2
  match common with
  | some i => some (.index i)
  | none => some (commonKind kind1 kind2)

end Engine

/-- `CommonAncestorWithGeneric`. -/
def commonAncestorWithGeneric (heap1 : GenericHeapType) (heap2 : HeapType) (module2 : WasmModule) : HeapType :=
  match heap1 with
  | .kFunc =>
    match heap2 with
    | .generic .kFunc | .generic .kNoFunc => .generic .kFunc
    | .index i => if module2.hasSignature i then .generic .kFunc else .kBottom
    | _ => .kBottom
  | .kAny =>
    match heap2 with
    | .generic .kI31 | .generic .kNone | .generic .kEq | .generic .kStruct | .generic .kArray | .generic .kAny
    | .generic .kString => .generic .kAny
    | .index i => if module2.hasSignature i then .kBottom else .generic .kAny
    | _ => .kBottom
  | .kEq =>
    match heap2 with
    | .generic .kI31 | .generic .kNone | .generic .kEq | .generic .kStruct | .generic .kArray => .generic .kEq
    | .generic .kAny | .generic .kString => .generic .kAny
    | .index i => if module2.hasSignature i then .kBottom else .generic .kEq
    | _ => .kBottom
  | .kI31 =>
    match heap2 with
    | .generic .kI31 | .generic .kNone => .generic .kI31
    | .generic .kEq | .generic .kStruct | .generic .kArray => .generic .kEq
    | .generic .kAny | .generic .kString => .generic .kAny
    | .index i => if module2.hasSignature i then .kBottom else .generic .kEq
    | _ => .kBottom
  | .kStruct =>
    match heap2 with
    | .generic .kStruct | .generic .kNone => .generic .kStruct
    | .generic .kArray | .generic .kI31 | .generic .kEq => .generic .kEq
    | .generic .kAny | .generic .kString => .generic .kAny
    | .index i => if module2.hasStruct i then .generic .kStruct else if module2.hasArray i then .generic .kEq else .kBottom
    | _ => .kBottom
  | .kArray =>
    match heap2 with
    | .generic .kArray | .generic .kNone => .generic .kArray
    | .generic .kStruct | .generic .kI31 | .generic .kEq => .generic .kEq
    | .generic .kAny | .generic .kString => .generic .kAny
    | .index i => if module2.hasArray i then .generic .kArray else if module2.hasStruct i then .generic .kEq else .kBottom
    | _ => .kBottom
  | .kNone =>
    match heap2 with
    | .generic .kArray | .generic .kNone | .generic .kStruct | .generic .kI31 | .generic .kEq | .generic .kAny
    | .generic .kString => heap2
    | .index i => if module2.hasSignature i then .kBottom else heap2
    | _ => .kBottom
  | .kNoFunc =>
    match heap2 with
    | .generic .kNoFunc | .generic .kFunc => heap2
    | .index i => if module2.hasSignature i then heap2 else .kBottom
    | _ => .kBottom
  | .kNoExtern => if heap2 = .generic .kExtern ∨ heap2 = .generic .kNoExtern then heap2 else .kBottom
  | .kExtern => if heap2 = .generic .kExtern ∨ heap2 = .generic .kNoExtern then .generic .kExtern else .kBottom
  | .kString =>
    match heap2 with
    | .generic .kI31 | .generic .kEq | .generic .kStruct | .generic .kArray | .generic .kAny => .generic .kAny
    | .generic .kNone | .generic .kString => .generic .kString
    | .index i => if module2.hasSignature i then .kBottom else .generic .kAny
    | _ => .kBottom
  | .kStringViewIter | .kStringViewWtf16 | .kStringViewWtf8 =>
    if .generic heap1 = heap2 then .generic heap1 else .kBottom

/-- A value type and the module it belongs to. -/
structure TypeInModule where
  type : ValueType
  module : ModuleId
  deriving DecidableEq, Repr

namespace Engine

/-- The heap type part of `Union`, with the module of the result. -/
def unionHeap (w : Engine) (heap1 heap2 : HeapType) (module1 module2 : ModuleId) : Option (HeapType × ModuleId) :=
  if heap1 = heap2 ∧ module1 = module2 then some (heap1, module1)
  else
    match heap1, heap2 with
    | .generic g, _ => some (commonAncestorWithGeneric g heap2 (w.modules module2), module2)
    | _, .generic g => some (commonAncestorWithGeneric g heap1 (w.modules module1), module1)
    | .index i, .index j => (w.commonAncestor i j module1 module2).map (·, module1)
    | _, _ => none

/-- `Union`. -/
def union (w : Engine) (type1 type2 : ValueType) (module1 module2 : ModuleId) : Option TypeInModule :=
  match type1, type2 with
  | .ref heap1 nullability1, .ref heap2 nullability2 => do
    let nullability :=
      if nullability1 = .kNullable ∨ nullability2 = .kNullable then Nullability.kNullable else .kNonNullable
    let (heap, module) ← w.unionHeap heap1 heap2 module1 module2
    some ⟨if heap = .kBottom then .kWasmBottom else .refMaybeNull heap nullability, module⟩
  | _, _ => some ⟨if w.equivalentTypes type1 type2 module1 module2 then type1 else .kWasmBottom, module1⟩

end Engine

end V8Core.Wasm
