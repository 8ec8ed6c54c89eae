import V8Core.Wasm.ValueType

/-!
# Type canonicalization

`TypeCanonicalizer` of `wasm/canonical-types.cc` and the part of a module it
works on. Every recursive group of types that a module defines is canonicalized:
references to types before the group become canonical ids, references into the
group become relative. A group seen before gives its canonical ids again, a new
one gets the next ids.

The canonicalizer is shared by all modules of the process and takes a lock per
group, so its states are those reached by any interleaving of the groups of any
modules (`Reachable`). Groups are registered before the declared supertypes of
the module are checked; groups of modules that are rejected later stay.

Supertypes are `Option`s where the code has `kNoSuperType`.
-/

namespace V8Core.Wasm

variable {k : Nat}

inductive TypeKind
  | kFunction | kStruct | kArray
  deriving DecidableEq, Repr

/-- What a definition defines, over value types `V`. -/
inductive TypeBody (V : Type)
  | function (returns parameters : List V)
  | struct (fields : List (V × Bool))
  | array (elementType : V) (mutability : Bool)
  deriving DecidableEq, Repr

def TypeBody.kind {V : Type} : TypeBody V → TypeKind
  | function _ _ => .kFunction
  | struct _ => .kStruct
  | array _ _ => .kArray

def TypeBody.map {V W : Type} (f : V → W) : TypeBody V → TypeBody W
  | function returns parameters => function (returns.map f) (parameters.map f)
  | struct fields => struct (fields.map fun x => (f x.1, x.2))
  | array elementType mutability => array (f elementType) mutability

@[simp] theorem TypeBody.kind_map {V W : Type} (f : V → W) (b : TypeBody V) : (b.map f).kind = b.kind := by
  cases b <;> rfl

structure TypeDefinition where
  body : TypeBody ValueType
  supertype : Option Nat
  isFinal : Bool
  deriving DecidableEq, Repr

/-- A canonicalized definition: value types as bit fields, the supertype absolute or relative. -/
structure CanonicalType where
  body : TypeBody (BitVec 32)
  supertype : Option Nat
  isFinal : Bool
  isRelativeSupertype : Bool
  deriving DecidableEq, Repr

/-- The types of a module and their canonical ids. -/
structure WasmModule where
  types : List TypeDefinition
  isorecursiveCanonicalTypeIds : List Nat
  deriving DecidableEq, Repr

namespace WasmModule

def kindOf (m : WasmModule) (i : Nat) : Option TypeKind := (m.types[i]?).map (·.body.kind)

def hasSignature (m : WasmModule) (i : Nat) : Bool := m.kindOf i = some .kFunction
def hasStruct (m : WasmModule) (i : Nat) : Bool := m.kindOf i = some .kStruct
def hasArray (m : WasmModule) (i : Nat) : Bool := m.kindOf i = some .kArray

def supertype (m : WasmModule) (i : Nat) : Option Nat := (m.types[i]?).bind (·.supertype)

/-- The canonical id of a type; ids that are not computed yet read as 0. -/
def canonicalId (m : WasmModule) (i : Nat) : Nat := (m.isorecursiveCanonicalTypeIds[i]?).getD 0

/-- A module with one more group, whose types get the ids from `first` on. -/
def append (m : WasmModule) (defs : List TypeDefinition) (first : Nat) : WasmModule :=
  ⟨m.types ++ defs, m.isorecursiveCanonicalTypeIds ++ (List.range defs.length).map (first + ·)⟩

end WasmModule

/-- `CanonicalizeValueType`. -/
def canonicalizeValueType (m : WasmModule) (recursiveGroupStart : Nat) (t : ValueType) : BitVec 32 :=
  match t.refIndex? with
  | none => t.bitField
  | some i =>
    if i ≥ recursiveGroupStart then ValueType.canonicalWithRelativeIndex t.kind (i - recursiveGroupStart)
    else ValueType.fromIndex t.kind (m.canonicalId i)

/-- The canonical supertype, and whether it is relative. -/
def canonicalizeSupertype (m : WasmModule) (recursiveGroupStart : Nat) : Option Nat → Option Nat × Bool
  | none => (none, false)
  | some s =>
    if s < recursiveGroupStart then (some (m.canonicalId s), false) else (some (s - recursiveGroupStart), true)

/-- `CanonicalizeTypeDef`. -/
def canonicalizeTypeDef (m : WasmModule) (recursiveGroupStart : Nat) (type : TypeDefinition) : CanonicalType where
  body := type.body.map (canonicalizeValueType m recursiveGroupStart)
  supertype := (canonicalizeSupertype m recursiveGroupStart type.supertype).1
  isFinal := type.isFinal
  isRelativeSupertype := (canonicalizeSupertype m recursiveGroupStart type.supertype).2

/-- The supertype of a canonical type whose group has its first type at `first`. -/
def CanonicalType.resolve (first : Nat) (t : CanonicalType) : Option Nat :=
  if t.isRelativeSupertype then t.supertype.map (· + first) else t.supertype

/-- Module pointers. -/
abbrev ModuleId := Nat

/-- The canonicalizer, the modules of the process, and which of them are decoded. -/
structure Engine where
  canonicalSupertypes : List (Option Nat)
  canonicalGroups : List (List CanonicalType × Nat)
  modules : ModuleId → WasmModule
  decoded : ModuleId → Bool

variable {w : Engine}

namespace Engine

/-- Nothing registered, all modules empty. -/
def initial : Engine := ⟨[], [], fun _ => ⟨[], []⟩, fun _ => false⟩

/-- The id of the first type of an identical group. -/
def findCanonicalGroup (w : Engine) (group : List CanonicalType) : Option Nat :=
  (w.canonicalGroups.find? (·.1 = group)).map (·.2)

/-- Enters a group under the next ids. -/
def newCanonicalGroup (w : Engine) (group : List CanonicalType) : Engine :=
  { w with
    canonicalSupertypes := w.canonicalSupertypes ++ group.map (·.resolve w.canonicalSupertypes.length)
    canonicalGroups := (group, w.canonicalSupertypes.length) :: w.canonicalGroups }

/-- The group's first canonical id, and the canonicalizer that knows the group. -/
def canonicalize (w : Engine) (group : List CanonicalType) : Nat × Engine :=
  match w.findCanonicalGroup group with
  | some first => (first, w)
  | none => (w.canonicalSupertypes.length, w.newCanonicalGroup group)

/-- `AddRecursiveGroup`, for the types a module has just appended as one group. -/
def addRecursiveGroup (w : Engine) (m : ModuleId) (defs : List TypeDefinition) : Engine :=
  let startIndex := (w.modules m).types.length
  let (first, w') := w.canonicalize (defs.map (canonicalizeTypeDef (w.modules m) startIndex))
  { w' with modules := Function.update w'.modules m ((w.modules m).append defs first) }

/-- `AddRecursiveGroup` for a signature without indexed types. -/
def addSignature (w : Engine) (returns parameters : List ValueType) (isFinal : Bool) : Nat × Engine :=
  w.canonicalize [⟨.function (returns.map ValueType.bitField) (parameters.map ValueType.bitField), none, isFinal, false⟩]

/-! ## What the canonicalizer maintains -/

/-- The table of supertypes agrees with the groups, a supertype outside of a group is older than
the group, and an id stands for types of one kind. -/
structure Canonical (w : Engine) : Prop where
  supertypes : ∀ {g first}, (g, first) ∈ w.canonicalGroups → ∀ {k t}, g[k]? = some t →
    w.canonicalSupertypes[first + k]? = some (t.resolve first)
  absolute : ∀ {g first}, (g, first) ∈ w.canonicalGroups → ∀ {t}, t ∈ g → t.isRelativeSupertype = false →
    ∀ {s}, t.supertype = some s → s < first
  kinds : ∀ {g first g' first'}, (g, first) ∈ w.canonicalGroups → (g', first') ∈ w.canonicalGroups →
    ∀ {k t k' t'}, g[k]? = some t → g'[k']? = some t' → first + k = first' + k' → t.body.kind = t'.body.kind

/-- The type `d` at index `i` of `m` has the id of a canonical type like it. -/
def RegisteredAt (w : Engine) (m : WasmModule) (i : Nat) (d : TypeDefinition) : Prop :=
  ∃ g first k t, (g, first) ∈ w.canonicalGroups ∧ g[k]? = some t ∧ m.canonicalId i = first + k ∧
    t.body.kind = d.body.kind ∧ (d.supertype = none → t.resolve first = none) ∧
    ∀ s, d.supertype = some s → s < i → t.resolve first = some (m.canonicalId s) ∧ m.canonicalId s < m.canonicalId i

/-- All types of `m` are registered. -/
structure Registered (w : Engine) (m : WasmModule) : Prop where
  length : m.isorecursiveCanonicalTypeIds.length = m.types.length
  types : ∀ {i d}, m.types[i]? = some d → RegisteredAt w m i d

theorem initial_canonical : Canonical initial := by
  constructor <;> simp [initial]

theorem Canonical.lt_length (h : Canonical w) {g : List CanonicalType} {first : Nat} {t : CanonicalType}
    (hg : (g, first) ∈ w.canonicalGroups) (hk : g[k]? = some t) : first + k < w.canonicalSupertypes.length := by
  have := h.supertypes hg hk
  exact (List.getElem?_eq_some_iff.1 this).1

theorem Registered.canonicalId_lt {m : WasmModule} (hw : Canonical w) (h : Registered w m) {i : Nat}
    (hi : i < m.types.length) : m.canonicalId i < w.canonicalSupertypes.length := by
  obtain ⟨g, first, k, t, hg, hk, hid, _⟩ := h.types (List.getElem?_eq_getElem hi)
  rw [hid]
  exact hw.lt_length hg hk

/-- Later groups do not disturb what is registered. -/
theorem Registered.mono {w' : Engine} {m : WasmModule} (h : Registered w m)
    (hsub : ∀ e ∈ w.canonicalGroups, e ∈ w'.canonicalGroups) : Registered w' m := by
  refine ⟨h.length, fun hd => ?_⟩
  obtain ⟨g, first, k, t, hg, hrest⟩ := h.types hd
  exact ⟨g, first, k, t, hsub _ hg, hrest⟩

theorem newCanonicalGroup_canonical (hw : Canonical w) (group : List CanonicalType)
    (habs : ∀ t ∈ group, t.isRelativeSupertype = false → ∀ s, t.supertype = some s → s < w.canonicalSupertypes.length) :
    Canonical (w.newCanonicalGroup group) := by
  constructor
  · intro g first hg k t hk
    rcases List.mem_cons.1 hg with h | h
    · cases h
      simp only [newCanonicalGroup]
      rw [List.getElem?_append_right (by omega), Nat.add_sub_cancel_left, List.getElem?_map, hk]
      rfl
    · simp only [newCanonicalGroup]
      rw [List.getElem?_append_left (hw.lt_length h hk)]
      exact hw.supertypes h hk
  · intro g first hg t ht hrel s hs
    rcases List.mem_cons.1 hg with h | h
    · cases h
      exact habs t ht hrel s hs
    · exact hw.absolute h ht hrel hs
  · intro g first g' first' hg hg' k t k' t' hk hk' heq
    rcases List.mem_cons.1 hg with h | h <;> rcases List.mem_cons.1 hg' with h' | h'
    · cases h; cases h'
      obtain rfl : k = k' := by omega
      rw [hk] at hk'
      cases hk'
      rfl
    · cases h
      have := hw.lt_length h' hk'
      omega
    · cases h'
      have := hw.lt_length h hk
      omega
    · exact hw.kinds h h' hk hk' heq

theorem canonicalize_spec (hw : Canonical w) (group : List CanonicalType)
    (habs : ∀ t ∈ group, t.isRelativeSupertype = false → ∀ s, t.supertype = some s → s < w.canonicalSupertypes.length) :
    let r := w.canonicalize group
    Canonical r.2 ∧ (group, r.1) ∈ r.2.canonicalGroups ∧ (∀ e ∈ w.canonicalGroups, e ∈ r.2.canonicalGroups) ∧
      r.2.modules = w.modules ∧ r.2.decoded = w.decoded := by
  simp only [canonicalize, findCanonicalGroup]
  cases h : w.canonicalGroups.find? (·.1 = group) with
  | none => exact ⟨newCanonicalGroup_canonical hw group habs, .head _, fun e he => .tail _ he, rfl, rfl⟩
  | some e =>
    have hmem := List.mem_of_find?_eq_some h
    have heq : e.1 = group := by simpa using List.find?_some h
    subst heq
    exact ⟨hw, hmem, fun _ he => he, rfl, rfl⟩

end Engine

section Append
variable {m : WasmModule} {defs : List TypeDefinition} {first : Nat}

theorem WasmModule.canonicalId_append_old (hlen : m.isorecursiveCanonicalTypeIds.length = m.types.length) {i : Nat}
    (hi : i < m.types.length) : (m.append defs first).canonicalId i = m.canonicalId i := by
  simp only [append, canonicalId]
  rw [List.getElem?_append_left (by omega)]

theorem WasmModule.canonicalId_append_new (hlen : m.isorecursiveCanonicalTypeIds.length = m.types.length)
    (hk : k < defs.length) : (m.append defs first).canonicalId (m.types.length + k) = first + k := by
  simp only [append, canonicalId]
  rw [List.getElem?_append_right (by omega), hlen]
  simp [List.getElem?_range hk]

/-- The supertype of a type of the new group, as the canonicalizer sees it, is the supertype's id. -/
theorem resolve_canonicalizeTypeDef (hw : w.Canonical) (hm : w.Registered m)
    (hg : (defs.map (canonicalizeTypeDef m m.types.length), first) ∈ w.canonicalGroups) {d : TypeDefinition}
    (hd : defs[k]? = some d) {s : Nat} (hs : d.supertype = some s) (hlt : s < m.types.length + k) :
    (canonicalizeTypeDef m m.types.length d).resolve first = some ((m.append defs first).canonicalId s) ∧
      (m.append defs first).canonicalId s < first + k := by
  have hk := (List.getElem?_eq_some_iff.1 hd).1
  by_cases hin : s < m.types.length
  · rw [WasmModule.canonicalId_append_old hm.length hin]
    have hcanon : (canonicalizeTypeDef m m.types.length d).isRelativeSupertype = false ∧
        (canonicalizeTypeDef m m.types.length d).supertype = some (m.canonicalId s) := by
      simp [canonicalizeTypeDef, canonicalizeSupertype, hs, hin]
    have hold := hw.absolute hg (List.mem_map_of_mem (List.mem_of_getElem? hd)) hcanon.1 hcanon.2
    refine ⟨by simp [CanonicalType.resolve, hcanon], by omega⟩
  · obtain ⟨j, rfl⟩ : ∃ j, s = m.types.length + j := ⟨s - m.types.length, by omega⟩
    rw [WasmModule.canonicalId_append_new hm.length (by omega)]
    refine ⟨?_, by omega⟩
    simp only [CanonicalType.resolve, canonicalizeTypeDef, canonicalizeSupertype, hs, if_neg hin, if_true,
      Option.map_some, Nat.add_sub_cancel_left, Nat.add_comm j]

/-- Registering a group of a registered module registers the longer module. -/
theorem Engine.Registered.append (hw : w.Canonical) (hm : w.Registered m)
    (hg : (defs.map (canonicalizeTypeDef m m.types.length), first) ∈ w.canonicalGroups) :
    w.Registered (m.append defs first) := by
  refine ⟨by simp [WasmModule.append, hm.length], fun {i d} hd => ?_⟩
  by_cases hi : i < m.types.length
  · have hd' : m.types[i]? = some d := by
      simpa only [WasmModule.append, List.getElem?_append_left hi] using hd
    obtain ⟨g, f, k, t, hmem, hk, hid, hkind, hnone, hsome⟩ := hm.types hd'
    refine ⟨g, f, k, t, hmem, hk, ?_, hkind, hnone, fun s hs hlt => ?_⟩
    · rw [WasmModule.canonicalId_append_old hm.length hi, hid]
    · rw [WasmModule.canonicalId_append_old hm.length hi, WasmModule.canonicalId_append_old hm.length (hlt.trans hi)]
      exact hsome s hs hlt
  · obtain ⟨k, rfl⟩ : ∃ k, i = m.types.length + k := ⟨i - m.types.length, by omega⟩
    have hd' : defs[k]? = some d := by
      simpa [WasmModule.append, List.getElem?_append_right] using hd
    have hk := (List.getElem?_eq_some_iff.1 hd').1
    have hid : (m.append defs first).canonicalId (m.types.length + k) = first + k :=
      WasmModule.canonicalId_append_new hm.length hk
    refine ⟨_, first, k, canonicalizeTypeDef m m.types.length d, hg, by simp [hd'], hid, by simp [canonicalizeTypeDef],
      fun hnone => ?_, fun s hs hlt => ?_⟩
    · simp [CanonicalType.resolve, canonicalizeTypeDef, canonicalizeSupertype, hnone]
    · rw [hid]
      exact resolve_canonicalizeTypeDef hw hm hg hd' hs hlt
end Append

namespace Engine

/-- All modules are registered with a well-formed canonicalizer. -/
structure WellFormed (w : Engine) : Prop where
  canonical : Canonical w
  registered : ∀ m, Registered w (w.modules m)

theorem initial_wellFormed : WellFormed initial :=
  ⟨initial_canonical, fun m => ⟨rfl, fun h => by simp [initial] at h⟩⟩

/-- The supertypes outside of a new group have ids that are in use. -/
theorem WellFormed.absolute_lt (hw : WellFormed w) (m : ModuleId) (defs : List TypeDefinition) :
    ∀ t ∈ defs.map (canonicalizeTypeDef (w.modules m) (w.modules m).types.length),
      t.isRelativeSupertype = false → ∀ s, t.supertype = some s → s < w.canonicalSupertypes.length := by
  intro t ht hrel s hs
  obtain ⟨d, _, rfl⟩ := List.mem_map.1 ht
  cases hsup : d.supertype with
  | none => simp [canonicalizeTypeDef, canonicalizeSupertype, hsup] at hs
  | some s' =>
    by_cases hlt : s' < (w.modules m).types.length
    · have hid : (w.modules m).canonicalId s' = s := by
        simpa [canonicalizeTypeDef, canonicalizeSupertype, hsup, hlt] using hs
      rw [← hid]
      exact (hw.registered m).canonicalId_lt hw.canonical hlt
    · simp [canonicalizeTypeDef, canonicalizeSupertype, hsup, hlt] at hrel

theorem addRecursiveGroup_wellFormed (hw : WellFormed w) (m : ModuleId) (defs : List TypeDefinition) :
    WellFormed (w.addRecursiveGroup m defs) := by
  obtain ⟨hcan, hg, hsub, hmod, _⟩ := canonicalize_spec hw.canonical _ (hw.absolute_lt m defs)
  have hcan' : Canonical (w.addRecursiveGroup m defs) := ⟨hcan.supertypes, hcan.absolute, hcan.kinds⟩
  refine ⟨hcan', fun m' => ?_⟩
  by_cases h : m' = m
  · subst h
    have hold : Registered (w.addRecursiveGroup m' defs) (w.modules m') := (hw.registered m').mono hsub
    have hnew := hold.append hcan' hg
    simpa only [addRecursiveGroup, Function.update_self] using hnew
  · simp only [addRecursiveGroup, Function.update_of_ne h, hmod]
    exact (hw.registered m').mono hsub

theorem addSignature_wellFormed (hw : WellFormed w) (returns parameters : List ValueType) (isFinal : Bool) :
    WellFormed (w.addSignature returns parameters isFinal).2 := by
  obtain ⟨hcan, _, hsub, hmod, _⟩ := canonicalize_spec hw.canonical
    [⟨.function (returns.map ValueType.bitField) (parameters.map ValueType.bitField), none, isFinal, false⟩]
    (by simp)
  refine ⟨hcan, fun m => ?_⟩
  rw [addSignature, hmod]
  exact (hw.registered m).mono hsub

end Engine

end V8Core.Wasm
