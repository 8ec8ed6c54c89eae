import V8Core.Wasm.Subtyping

/-!
# Isorecursive identity

What `TypeCanonicalizer` is for: types at the same position of identical groups get one
canonical id. Groups are identical if they have the same shape and their references are
to the same position inside the group, or to types with the same id outside
(`RecursiveGroup.form`).

The canonicalizer compares the 32 bit encodings of the references instead. An id of
`kV8MaxWasmTypes` or more does not fit into its field, so that the encoding of a
reference outside can be that of a generic heap type, or of a reference inside. And
`IsCanonicalSubtype` does not end on a type that is above itself. In every run in which
no group refers to such an id or declares such supertypes (`Registrable`), ids stand for
identity and `IsCanonicalSubtype` for the closure of the declared supertypes.

Ids are natural numbers here; the code's 32 bit ids would only be exhausted by more than
2^31 types.
-/

namespace V8Core.Wasm

variable {V W : Type} {x : IsoType} {w w' : Engine} {G : RecursiveGroup} {groups : List RecursiveGroup} {m' : ModuleId} {i : Nat}

theorem TypeBody.map_map {U : Type} (f : U → V) (g : V → W) (b : TypeBody U) : (b.map f).map g = b.map (g ∘ f) := by
  cases b <;> simp [map]

/-- The value types of a definition. -/
def TypeBody.valueTypes {V : Type} : TypeBody V → List V
  | function returns parameters => returns ++ parameters
  | struct fields => fields.map (·.1)
  | array elementType _ => [elementType]

theorem list_eq_of_map_eq {f : V → W} {l l' : List V} (hf : ∀ x ∈ l, ∀ y ∈ l', f x = f y → x = y)
    (h : l.map f = l'.map f) : l = l' := by
  induction l generalizing l' with
  | nil => simpa using h
  | cons a l ih =>
    cases l' with
    | nil => simp at h
    | cons b l' =>
      obtain ⟨hab, hrest⟩ := List.cons.inj h
      rw [hf a (.head _) b (.head _) hab, ih (fun x hx y hy => hf x (.tail _ hx) y (.tail _ hy)) hrest]

/-- A function that is injective on the value types of two bodies tells the bodies apart. -/
theorem TypeBody.eq_of_map_eq {f : V → W} {b c : TypeBody V}
    (hf : ∀ x ∈ b.valueTypes, ∀ y ∈ c.valueTypes, f x = f y → x = y) (h : b.map f = c.map f) : b = c := by
  cases b with
  | function returns parameters =>
    cases c with
    | function returns' parameters' =>
      obtain ⟨hr, hp⟩ := TypeBody.function.inj h
      rw [list_eq_of_map_eq (fun x hx y hy => hf x (by simp [valueTypes, hx]) y (by simp [valueTypes, hy])) hr,
        list_eq_of_map_eq (fun x hx y hy => hf x (by simp [valueTypes, hx]) y (by simp [valueTypes, hy])) hp]
    | struct fields => cases h
    | array e m => cases h
  | struct fields =>
    cases c with
    | function returns parameters => cases h
    | struct fields' =>
      have hfields := TypeBody.struct.inj h
      congr 1
      refine list_eq_of_map_eq (fun x hx y hy hxy => ?_) hfields
      obtain ⟨h1, h2⟩ := Prod.mk.inj hxy
      exact Prod.ext (hf x.1 (List.mem_map_of_mem hx) y.1 (List.mem_map_of_mem hy) h1) h2
    | array e m => cases h
  | array e m =>
    cases c with
    | function returns parameters => cases h
    | struct fields => cases h
    | array e' m' =>
      obtain ⟨he, hm⟩ := TypeBody.array.inj h
      rw [hf e (.head _) e' (.head _) he, hm]

theorem TypeBody.valueTypes_map (f : V → W) (b : TypeBody V) : (b.map f).valueTypes = b.valueTypes.map f := by
  cases b <;> simp [map, valueTypes]

/-! ## Groups -/

/-- A value type of a group, with references by position inside of the group and by id outside. -/
inductive IsoType
  | plain (t : ValueType)
  | inside (kind position : Nat)
  | outside (kind id : Nat)
  deriving DecidableEq, Repr

/-- The bits the canonicalizer compares. -/
def IsoType.encode : IsoType → BitVec 32
  | plain t => t.bitField
  | inside kind position => ValueType.canonicalWithRelativeIndex kind position
  | outside kind id => ValueType.fromIndex kind id

def isoValueType (m : WasmModule) (start : Nat) (t : ValueType) : IsoType :=
  match t.refIndex? with
  | none => .plain t
  | some i => if i ≥ start then .inside t.kind (i - start) else .outside t.kind (m.canonicalId i)

/-- A definition of a group up to identity. -/
structure IsoDefinition where
  body : TypeBody IsoType
  supertype : Option Nat
  isFinal : Bool
  isRelativeSupertype : Bool
  deriving DecidableEq, Repr

def isoTypeDef (m : WasmModule) (start : Nat) (type : TypeDefinition) : IsoDefinition where
  body := type.body.map (isoValueType m start)
  supertype := (canonicalizeSupertype m start type.supertype).1
  isFinal := type.isFinal
  isRelativeSupertype := (canonicalizeSupertype m start type.supertype).2

def IsoDefinition.encode (d : IsoDefinition) : CanonicalType :=
  ⟨d.body.map IsoType.encode, d.supertype, d.isFinal, d.isRelativeSupertype⟩

theorem encode_isoValueType (m : WasmModule) (start : Nat) (t : ValueType) :
    (isoValueType m start t).encode = canonicalizeValueType m start t := by
  unfold isoValueType canonicalizeValueType
  cases t.refIndex? with
  | none => rfl
  | some i =>
    dsimp only
    split <;> rfl

theorem encode_isoTypeDef (m : WasmModule) (start : Nat) (d : TypeDefinition) :
    (isoTypeDef m start d).encode = canonicalizeTypeDef m start d := by
  simp only [IsoDefinition.encode, isoTypeDef, canonicalizeTypeDef, TypeBody.map_map, Function.comp_def, encode_isoValueType]

/-! ## When the encoding is faithful -/

/-- References whose ids fit into their field. -/
def IsoType.Fits : IsoType → Prop
  | plain t => t.refIndex? = none
  | inside kind position => 8 ≤ kind ∧ kind ≤ 10 ∧ position < 2 ^ ValueType.kHeapTypeBits
  | outside kind id => 8 ≤ kind ∧ kind ≤ 10 ∧ id < kV8MaxWasmTypes

/-- The fields of the encoding: kind, heap type, relative bit. -/
def IsoType.fields : IsoType → Nat × Nat × Nat
  | plain (.ref h n) => (ValueType.kind (.ref h n), h.representation, 0)
  | plain t => (t.kind, 0, 0)
  | inside kind position => (kind, position, 1)
  | outside kind id => (kind, id, 0)

theorem toNat_fromIndex {kind index : Nat} (hk : kind < 32) (hi : index < 2 ^ 20) :
    (ValueType.fromIndex kind index).toNat = kind + 32 * index := by
  have hk' : (BitVec.ofNat 32 kind).toNat = kind := by
    rw [BitVec.toNat_ofNat]
    omega
  have hi' : (BitVec.ofNat 32 index <<< ValueType.kKindBits).toNat = 2 ^ 5 * index := by
    rw [BitVec.toNat_shiftLeft, BitVec.toNat_ofNat, ValueType.kKindBits]
    omega
  rw [ValueType.fromIndex, BitVec.toNat_or, hk', hi', Nat.or_comm, ← Nat.two_pow_add_eq_or_of_lt (show kind < 2 ^ 5 by omega)]
  omega

theorem toNat_canonicalWithRelativeIndex {kind index : Nat} (hk : kind < 32) (hi : index < 2 ^ 20) :
    (ValueType.canonicalWithRelativeIndex kind index).toNat = kind + 32 * index + 2 ^ 25 := by
  have h := toNat_fromIndex hk hi
  have hbit : (1#32 <<< (ValueType.kKindBits + ValueType.kHeapTypeBits)).toNat = 2 ^ 25 * 1 := by decide
  rw [ValueType.canonicalWithRelativeIndex, BitVec.toNat_or, h, hbit, Nat.or_comm,
    ← Nat.two_pow_add_eq_or_of_lt (show kind + 32 * index < 2 ^ 25 by omega)]
  omega

theorem ValueType.kind_lt (t : ValueType) : t.kind < 32 := by
  cases t with
  | primitive kind => cases kind <;> decide
  | rtt i => simp [kind]
  | ref h n => cases n <;> simp [kind]

theorem representation_of_plain {h : HeapType} (hh : ∀ i, h ≠ .index i) :
    kV8MaxWasmTypes ≤ h.representation ∧ h.representation < 2 ^ 20 := by
  cases h with
  | index i => exact absurd rfl (hh i)
  | generic g => cases g <;> decide
  | kBottom => decide

/-- Heap types without an index have different representations. -/
theorem representation_injective {h h' : HeapType} (hh : ∀ i, h ≠ .index i) (hh' : ∀ i, h' ≠ .index i)
    (heq : h.representation = h'.representation) : h = h' := by
  cases h with
  | index i => exact absurd rfl (hh i)
  | generic g =>
    cases h' with
    | index i => exact absurd rfl (hh' i)
    | generic g' => cases g <;> cases g' <;> first | rfl | exact absurd heq (by decide)
    | kBottom => cases g <;> exact absurd heq (by decide)
  | kBottom =>
    cases h' with
    | index i => exact absurd rfl (hh' i)
    | generic g' => cases g' <;> exact absurd heq (by decide)
    | kBottom => rfl

theorem IsoType.encode_toNat (hx : x.Fits) :
    x.encode.toNat = x.fields.1 + 32 * x.fields.2.1 + 2 ^ 25 * x.fields.2.2 ∧ x.fields.1 < 32 ∧ x.fields.2.1 < 2 ^ 20 := by
  cases x with
  | plain t =>
    have hk := t.kind_lt
    cases t with
    | primitive kind =>
      refine ⟨?_, hk, Nat.two_pow_pos 20⟩
      simp only [encode, fields, ValueType.bitField, BitVec.toNat_ofNat]
      omega
    | rtt i => simp [Fits, ValueType.refIndex?] at hx
    | ref h n =>
      have hne : ∀ i, h ≠ .index i := by
        rintro i rfl
        simp [Fits, ValueType.refIndex?] at hx
      have hr := (representation_of_plain hne).2
      exact ⟨toNat_fromIndex hk hr, hk, hr⟩
  | inside kind position =>
    obtain ⟨_, hk, hp⟩ := hx
    exact ⟨toNat_canonicalWithRelativeIndex (by omega) hp, by simp only [fields]; omega, hp⟩
  | outside kind id =>
    obtain ⟨_, hk, hid⟩ := hx
    have hid' : id < 2 ^ 20 := Nat.lt_trans hid (by decide)
    exact ⟨toNat_fromIndex (by omega) hid', by simp only [fields]; omega, hid'⟩

/-- The fields say which reference it is. -/
theorem IsoType.fields_injective {y : IsoType} (hx : x.Fits) (hy : y.Fits) (h : x.fields = y.fields) : x = y := by
  -- a reference without an index has a heap type of at least `kV8MaxWasmTypes`
  have hplain : ∀ {h n}, (plain (.ref h n)).Fits → ∀ i, h ≠ .index i := by
    rintro _ n hfits i rfl
    simp [Fits, ValueType.refIndex?] at hfits
  have hlarge : ∀ {h n kind id}, (plain (.ref h n)).Fits → (outside kind id).Fits → h.representation ≠ id := by
    intro h n kind id hfits hout heq
    have := (representation_of_plain (hplain hfits)).1
    have := hout.2.2
    omega
  have hprimitive : ∀ {k : PrimitiveKind}, 8 ≤ (ValueType.primitive k).kind → (ValueType.primitive k).kind ≤ 10 → False := by
    intro k
    cases k <;> decide
  cases x with
  | plain t =>
    cases t with
    | rtt i => simp [Fits, ValueType.refIndex?] at hx
    | primitive k =>
      cases y with
      | plain u =>
        cases u with
        | rtt i => simp [Fits, ValueType.refIndex?] at hy
        | primitive k' =>
          have hk : (ValueType.primitive k).kind = (ValueType.primitive k').kind := congrArg (·.1) h
          cases k <;> cases k' <;> first | rfl | exact absurd hk (by decide)
        | ref h' n =>
          have hk : (ValueType.primitive k).kind = (ValueType.ref h' n).kind := congrArg (·.1) h
          cases k <;> cases n <;> simp [ValueType.kind] at hk
      | inside kind p => simp [fields] at h
      | outside kind id =>
        have hk : (ValueType.primitive k).kind = kind := congrArg (·.1) h
        exact (hprimitive (hk ▸ hy.1) (hk ▸ hy.2.1)).elim
    | ref a n =>
      cases y with
      | plain u =>
        cases u with
        | rtt i => simp [Fits, ValueType.refIndex?] at hy
        | primitive k =>
          have hk : (ValueType.ref a n).kind = (ValueType.primitive k).kind := congrArg (·.1) h
          cases k <;> cases n <;> simp [ValueType.kind] at hk
        | ref b n' =>
          have hk : (ValueType.ref a n).kind = (ValueType.ref b n').kind := congrArg (·.1) h
          obtain rfl : a = b := representation_injective (hplain hx) (hplain hy) (congrArg (·.2.1) h)
          cases n <;> cases n' <;> first | rfl | simp [ValueType.kind] at hk
      | inside kind p => simp [fields] at h
      | outside kind id => exact (hlarge hx hy (congrArg (·.2.1) h)).elim
  | inside kind p =>
    cases y with
    | plain u => cases u <;> simp [fields] at h
    | inside kind' p' =>
      simp only [fields, Prod.mk.injEq] at h
      rw [h.1, h.2.1]
    | outside kind' id => simp [fields] at h
  | outside kind id =>
    cases y with
    | plain u =>
      cases u with
      | rtt i => simp [Fits, ValueType.refIndex?] at hy
      | primitive k =>
        have hk : kind = (ValueType.primitive k).kind := congrArg (·.1) h
        exact (hprimitive (hk ▸ hx.1) (hk ▸ hx.2.1)).elim
      | ref b n => exact (hlarge hy hx (congrArg (·.2.1) h).symm).elim
    | inside kind' p => simp [fields] at h
    | outside kind' id' =>
      simp only [fields, Prod.mk.injEq] at h
      rw [h.1, h.2.1]

theorem IsoType.encode_injective {y : IsoType} (hx : x.Fits) (hy : y.Fits) (h : x.encode = y.encode) : x = y := by
  obtain ⟨h1, hk1, hi1⟩ := encode_toNat hx
  obtain ⟨h2, hk2, hi2⟩ := encode_toNat hy
  rw [h] at h1
  apply fields_injective hx hy
  generalize x.fields = f at *
  generalize y.fields = g at *
  obtain ⟨a, b, c⟩ := f
  obtain ⟨a', b', c'⟩ := g
  simp only [Prod.mk.injEq]
  simp only at *
  omega

/-- Definitions of whose references all ids fit. -/
def IsoDefinition.Fits (d : IsoDefinition) : Prop := ∀ x ∈ d.body.valueTypes, x.Fits

theorem IsoDefinition.encode_injective {d e : IsoDefinition} (hd : d.Fits) (he : e.Fits) (h : d.encode = e.encode) : d = e := by
  obtain ⟨hbody, hsuper, hfinal, hrel⟩ := CanonicalType.mk.inj h
  obtain ⟨b, s, f, r⟩ := d
  obtain ⟨b', s', f', r'⟩ := e
  obtain rfl : b = b' := TypeBody.eq_of_map_eq (fun x hx y hy => IsoType.encode_injective (hd x hx) (he y hy)) hbody
  simp only at hsuper hfinal hrel
  rw [hsuper, hfinal, hrel]

/-- The types that a module registers in one call. -/
structure RecursiveGroup where
  module : ModuleId
  start : Nat
  defs : List TypeDefinition

/-- Indices below `n` only. -/
def TypeDefinition.RefersBelow (n : Nat) (d : TypeDefinition) : Prop :=
  (∀ t ∈ d.body.valueTypes, ∀ i, t.refIndex? = some i → i < n) ∧ ∀ s, d.supertype = some s → s < n

/-- A definition with one value type and no supertype. -/
theorem refersBelow_singleton {n : Nat} {d : TypeDefinition} {t : ValueType} (hbody : d.body.valueTypes = [t])
    (hsuper : d.supertype = none) (ht : ∀ i, t.refIndex? = some i → i < n) : ∀ d' ∈ [d], d'.RefersBelow n := by
  refine List.forall_mem_singleton.2 ⟨?_, fun s hs => by simp [hsuper] at hs⟩
  rwa [hbody, List.forall_mem_singleton]

namespace RecursiveGroup

variable (w : Engine) (G : RecursiveGroup)

/-- What makes two groups identical. -/
def form : List IsoDefinition := G.defs.map (isoTypeDef (w.modules G.module) G.start)

/-- What the canonicalizer compares. -/
def code : List CanonicalType := G.defs.map (canonicalizeTypeDef (w.modules G.module) G.start)

theorem encode_form : (G.form w).map IsoDefinition.encode = G.code w := by
  simp [form, code, encode_isoTypeDef]

/-- The canonical id of the type at a position of the group. -/
def id (k : Nat) : Nat := (w.modules G.module).canonicalId (G.start + k)

/-- The ids of the types outside of the group that it refers to fit into their field. -/
def IdsFit : Prop :=
  ∀ d ∈ G.defs, ∀ t ∈ d.body.valueTypes, ∀ i, t.refIndex? = some i → i < G.start →
    (w.modules G.module).canonicalId i < kV8MaxWasmTypes

/-- Different groups with the same encoding. -/
def Collides (G' : RecursiveGroup) : Prop := G.code w = G'.code w ∧ G.form w ≠ G'.form w

end RecursiveGroup

/-! ## Registered groups -/

/-- The process after calls of `AddRecursiveGroup` that all meet a condition, and the groups of modules that were
registered. References are to earlier types and into the group. -/
inductive Registers (meets : Engine → ModuleId → List TypeDefinition → Prop) : Engine → List RecursiveGroup → Prop
  | initial : Registers meets .initial []
  | group {w : Engine} {groups : List RecursiveGroup} (m : ModuleId) (defs : List TypeDefinition)
      (hrefs : ∀ d ∈ defs, d.RefersBelow (min kV8MaxWasmTypes ((w.modules m).types.length + defs.length)))
      (hmeets : meets w m defs) :
      Registers meets w groups →
        Registers meets (w.addRecursiveGroup m defs) (⟨m, (w.modules m).types.length, defs⟩ :: groups)
  | signature {w : Engine} {groups : List RecursiveGroup} (returns parameters : List ValueType) (isFinal : Bool) :
      Registers meets w groups → Registers meets (w.addSignature returns parameters isFinal).2 groups

/-- What a new group must keep to: the types before the group that it refers to have ids below `kV8MaxWasmTypes`, and
none of its types is above itself by the declared supertypes. -/
structure Registrable (w : Engine) (m : ModuleId) (defs : List TypeDefinition) : Prop where
  ids : ∀ d ∈ defs, ∀ t ∈ d.body.valueTypes, ∀ i, t.refIndex? = some i → i < (w.modules m).types.length →
    (w.modules m).canonicalId i < kV8MaxWasmTypes
  acyclic : ∀ k, ¬ Relation.TransGen
    (fun a b => (defs[a]?).bind (·.supertype) = some ((w.modules m).types.length + b)) k k

namespace Engine

/-- The groups of the canonicalizer have different contents and disjoint ids. -/
structure Distinct (w : Engine) : Prop where
  unique : ∀ {g first first'}, (g, first) ∈ w.canonicalGroups → (g, first') ∈ w.canonicalGroups → first = first'
  disjoint : ∀ {g first g' first'}, (g, first) ∈ w.canonicalGroups → (g', first') ∈ w.canonicalGroups →
    ∀ {k k'}, k < g.length → k' < g'.length → first + k = first' + k' → (g, first) = (g', first')

theorem Canonical.add_le (h : Canonical w) {g : List CanonicalType} {first k : Nat}
    (hg : (g, first) ∈ w.canonicalGroups) (hk : k < g.length) : first + k < w.canonicalSupertypes.length :=
  h.lt_length hg (List.getElem?_eq_getElem hk)

theorem canonicalize_distinct (hw : Canonical w) (h : Distinct w) (group : List CanonicalType) :
    Distinct (w.canonicalize group).2 := by
  simp only [canonicalize, findCanonicalGroup]
  cases hfind : w.canonicalGroups.find? (·.1 = group) with
  | some e => exact h
  | none =>
    have hnew : ∀ {g first}, (g, first) ∈ w.canonicalGroups → g ≠ group := by
      intro g first hg heq
      simpa [heq] using List.find?_eq_none.1 hfind _ hg
    constructor
    · intro g first first' hg hg'
      rcases List.mem_cons.1 hg with he | hold <;> rcases List.mem_cons.1 hg' with he' | hold'
      · rw [(Prod.mk.inj he).2, (Prod.mk.inj he').2]
      · exact (hnew hold' (Prod.mk.inj he).1).elim
      · exact (hnew hold (Prod.mk.inj he').1).elim
      · exact h.unique hold hold'
    · intro g first g' first' hg hg' k k' hk hk' heq
      rcases List.mem_cons.1 hg with he | hold <;> rcases List.mem_cons.1 hg' with he' | hold'
      · rw [he, he']
      · obtain ⟨rfl, rfl⟩ := Prod.mk.inj he
        have := hw.add_le hold' hk'
        omega
      · obtain ⟨rfl, rfl⟩ := Prod.mk.inj he'
        have := hw.add_le hold hk
        omega
      · exact h.disjoint hold hold' hk hk' heq

/-- A registered group: its types are in the module, and their ids are those of its encoding. -/
structure HasGroup (w : Engine) (G : RecursiveGroup) : Prop where
  types : ∀ {k d}, G.defs[k]? = some d → (w.modules G.module).types[G.start + k]? = some d
  refs : ∀ d ∈ G.defs, d.RefersBelow (min kV8MaxWasmTypes (G.start + G.defs.length))
  start : G.start ≤ (w.modules G.module).types.length
  ids : ∃ first, (G.code w, first) ∈ w.canonicalGroups ∧ ∀ k < G.defs.length, G.id w k = first + k

/-- What holds after any number of registrations. -/
structure Sound (w : Engine) (groups : List RecursiveGroup) : Prop extends WellFormed w where
  distinct : Distinct w
  hasGroup : ∀ G ∈ groups, HasGroup w G
  covers : ∀ {m i}, i < (w.modules m).types.length → ∃ G ∈ groups, G.module = m ∧ ∃ k < G.defs.length, i = G.start + k

end Engine

theorem isoTypeDef_congr {m m' : WasmModule} {start : Nat} (h : ∀ i < start, m.canonicalId i = m'.canonicalId i) :
    isoTypeDef m start = isoTypeDef m' start := by
  have hvalue : isoValueType m start = isoValueType m' start := by
    funext t
    unfold isoValueType
    cases t.refIndex? with
    | none => rfl
    | some i =>
      dsimp only
      split
      · rfl
      · rw [h i (by omega)]
  have hsuper : canonicalizeSupertype m start = canonicalizeSupertype m' start := by
    funext t
    cases t with
    | none => rfl
    | some s =>
      simp only [canonicalizeSupertype]
      split
      · rw [h s (by assumption)]
      · rfl
  funext d
  rw [isoTypeDef, isoTypeDef, hvalue, hsuper]

namespace RecursiveGroup

/-- The contents of a group depend on the ids of earlier types only. -/
theorem form_congr (G : RecursiveGroup)
    (h : ∀ i < G.start, (w.modules G.module).canonicalId i = (w'.modules G.module).canonicalId i) : G.form w = G.form w' := by
  rw [form, form, isoTypeDef_congr h]

theorem code_congr (G : RecursiveGroup)
    (h : ∀ i < G.start, (w.modules G.module).canonicalId i = (w'.modules G.module).canonicalId i) : G.code w = G.code w' := by
  rw [← encode_form, ← encode_form, G.form_congr h]

@[simp] theorem code_length (w : Engine) (G : RecursiveGroup) : (G.code w).length = G.defs.length := by
  simp [code]

end RecursiveGroup

namespace Engine

/-- Later registrations keep a group. -/
theorem HasGroup.mono (h : HasGroup w G)
    (hgroups : ∀ e ∈ w.canonicalGroups, e ∈ w'.canonicalGroups)
    (htypes : ∀ {i : Nat} {d}, (w.modules G.module).types[i]? = some d → (w'.modules G.module).types[i]? = some d)
    (hids : ∀ i < (w.modules G.module).types.length,
      (w.modules G.module).canonicalId i = (w'.modules G.module).canonicalId i) : HasGroup w' G := by
  have hstart : ∀ i < G.start, (w.modules G.module).canonicalId i = (w'.modules G.module).canonicalId i := fun i hi =>
    hids i (Nat.lt_of_lt_of_le hi h.start)
  have hlen : (w.modules G.module).types.length ≤ (w'.modules G.module).types.length := by
    by_contra hlt
    have := htypes (List.getElem?_eq_getElem (show (w'.modules G.module).types.length < _ by omega))
    simp at this
  obtain ⟨first, hfirst, hid⟩ := h.ids
  refine ⟨fun hk => htypes (h.types hk), h.refs, Nat.le_trans h.start hlen, first, ?_, fun k hk => ?_⟩
  · rw [← G.code_congr hstart]
    exact hgroups _ hfirst
  · have htype := h.types (List.getElem?_eq_getElem hk)
    rw [RecursiveGroup.id, ← hids _ (List.getElem?_eq_some_iff.1 htype).1]
    exact hid k hk

theorem Sound.initial : Sound .initial [] where
  toWellFormed := initial_wellFormed
  distinct := ⟨fun h => by simp [Engine.initial] at h, fun h => by simp [Engine.initial] at h⟩
  hasGroup := by simp
  covers := fun h => by simp [Engine.initial] at h

theorem Sound.signature (h : Sound w groups) (returns parameters : List ValueType)
    (isFinal : Bool) : Sound (w.addSignature returns parameters isFinal).2 groups := by
  obtain ⟨_, _, hsub, hmod, _⟩ := canonicalize_spec h.canonical
    [⟨.function (returns.map ValueType.bitField) (parameters.map ValueType.bitField), none, isFinal, false⟩] (by simp)
  refine ⟨addSignature_wellFormed h.toWellFormed returns parameters isFinal, canonicalize_distinct h.canonical h.distinct _,
    fun G hG => ?_, fun {m i} hi => ?_⟩
  · exact (h.hasGroup G hG).mono hsub (fun hd => by rw [addSignature, hmod]; exact hd)
      (fun i _ => by rw [addSignature, hmod])
  · rw [addSignature, hmod] at hi
    exact h.covers hi

section AddGroup
variable {w : Engine} (hw : WellFormed w) (m : ModuleId) (defs : List TypeDefinition)

theorem addRecursiveGroup_self : (w.addRecursiveGroup m defs).modules m = (w.modules m).append defs
    (w.canonicalize (defs.map (canonicalizeTypeDef (w.modules m) (w.modules m).types.length))).1 := by
  simp [addRecursiveGroup]

include hw in
theorem addRecursiveGroup_other (hne : m' ≠ m) : (w.addRecursiveGroup m defs).modules m' = w.modules m' := by
  obtain ⟨_, _, _, hmod, _⟩ := canonicalize_spec hw.canonical _ (hw.absolute_lt m defs)
  simp [addRecursiveGroup, Function.update_of_ne hne, hmod]

include hw in
/-- Types keep their ids. -/
theorem addRecursiveGroup_canonicalId (hi : i < (w.modules m').types.length) :
    ((w.addRecursiveGroup m defs).modules m').canonicalId i = (w.modules m').canonicalId i := by
  by_cases hm : m' = m
  · subst hm
    rw [addRecursiveGroup_self, WasmModule.canonicalId_append_old (hw.registered m').length hi]
  · rw [addRecursiveGroup_other hw m defs hm]
end AddGroup

theorem Sound.group (h : Sound w groups) (m : ModuleId) (defs : List TypeDefinition)
    (hrefs : ∀ d ∈ defs, d.RefersBelow (min kV8MaxWasmTypes ((w.modules m).types.length + defs.length))) :
    Sound (w.addRecursiveGroup m defs) (⟨m, (w.modules m).types.length, defs⟩ :: groups) := by
  obtain ⟨_, hg, hsub, _, _⟩ := canonicalize_spec h.canonical _ (h.absolute_lt m defs)
  have hlen := (h.registered m).length
  have hdistinct := canonicalize_distinct h.canonical h.distinct
    (defs.map (canonicalizeTypeDef (w.modules m) (w.modules m).types.length))
  have hself := addRecursiveGroup_self (w := w) m defs
  have hother {m' : ModuleId} (hne : m' ≠ m) := addRecursiveGroup_other h.toWellFormed m defs hne
  have hids (m' : ModuleId) (i : Nat) (hi : i < (w.modules m').types.length) :=
    (addRecursiveGroup_canonicalId h.toWellFormed m defs hi).symm
  refine ⟨addRecursiveGroup_wellFormed h.toWellFormed m defs, ⟨hdistinct.unique, hdistinct.disjoint⟩, fun G hG => ?_,
    fun {m' i} hi => ?_⟩
  · rcases List.mem_cons.1 hG with rfl | hold
    · refine ⟨fun {k d} hk => ?_, hrefs, ?_,
        (w.canonicalize (defs.map (canonicalizeTypeDef (w.modules m) (w.modules m).types.length))).1, ?_, fun k hk => ?_⟩
      · simp only [hself, WasmModule.append]
        rw [List.getElem?_append_right (by omega), Nat.add_sub_cancel_left, hk]
      · simp [hself, WasmModule.append]
      · rw [← RecursiveGroup.code_congr (w := w) _ fun i hi => hids m i hi]
        exact hg
      · simp only [RecursiveGroup.id, hself]
        exact WasmModule.canonicalId_append_new hlen hk
    · refine (h.hasGroup G hold).mono hsub (fun {i d} hd => ?_) (hids G.module)
      by_cases hm : G.module = m
      · rw [hm, hself]
        rw [hm] at hd
        simp only [WasmModule.append]
        rw [List.getElem?_append_left (List.getElem?_eq_some_iff.1 hd).1, hd]
      · rw [hother hm]
        exact hd
  · by_cases hm : m' = m
    · subst hm
      by_cases hold : i < (w.modules m').types.length
      · obtain ⟨G, hG, hGm⟩ := h.covers hold
        exact ⟨G, .tail _ hG, hGm⟩
      · rw [hself] at hi
        simp only [WasmModule.append, List.length_append] at hi
        refine ⟨_, .head _, rfl, i - (w.modules m').types.length, ?_, ?_⟩
        · simp only
          omega
        · simp only
          omega
    · rw [hother hm] at hi
      obtain ⟨G, hG, hGm⟩ := h.covers hi
      exact ⟨G, .tail _ hG, hGm⟩

end Engine

theorem Registers.sound {meets : Engine → ModuleId → List TypeDefinition → Prop} (h : Registers meets w groups) :
    w.Sound groups := by
  induction h with
  | initial => exact Engine.Sound.initial
  | group m defs hrefs _ _ ih => exact ih.group m defs hrefs
  | signature returns parameters isFinal _ ih => exact ih.signature returns parameters isFinal

/-! ## Identity and subtyping -/

/-- Types of registered groups, by module and index. -/
abbrev TypeId := ModuleId × Nat

/-- Types at the same position of identical groups. -/
def SameType (w : Engine) (groups : List RecursiveGroup) (x y : TypeId) : Prop :=
  ∃ G ∈ groups, ∃ G' ∈ groups, ∃ k, k < G.defs.length ∧ k < G'.defs.length ∧ x = (G.module, G.start + k) ∧
    y = (G'.module, G'.start + k) ∧ G.form w = G'.form w

/-- `y` is the declared supertype of `x`. -/
def DeclaredSupertype (w : Engine) (x y : TypeId) : Prop :=
  y.1 = x.1 ∧ (w.modules x.1).supertype x.2 = some y.2

/-- Canonical ids stand for isorecursive identity, and `IsCanonicalSubtype` answers, with the closure of the declared
supertypes. -/
structure Canonicalizes (w : Engine) (groups : List RecursiveGroup) : Prop where
  ids : ∀ G ∈ groups, ∀ G' ∈ groups, ∀ k < G.defs.length, ∀ k' < G'.defs.length,
    (G.id w k = G'.id w k' ↔ k = k' ∧ G.form w = G'.form w)
  subtypes : ∀ m i m' j, i < (w.modules m).types.length → j < (w.modules m').types.length →
    ∃ b, w.isCanonicalSubtype i j m m' = some b ∧
      (b = true ↔ Relation.ReflTransGen (fun x y => SameType w groups x y ∨ DeclaredSupertype w x y) (m, i) (m', j))

/-- The walk finds the target exactly if it is above. -/
theorem isCanonicalSubtypeLoop_true {supertypes : List (Option Nat)} {d : Nat} (hd : d < supertypes.length) {c : Nat} :
    isCanonicalSubtypeLoop supertypes d (supertypes.length + 1) (some c) = some true ↔
      Forest.Up (fun c => (supertypes[c]?).join) c d := by
  constructor
  · generalize supertypes.length + 1 = fuel
    intro h
    induction fuel generalizing c with
    | zero => simp [isCanonicalSubtypeLoop] at h
    | succ fuel ih =>
      rw [isCanonicalSubtypeLoop] at h
      split at h
      · rename_i heq
        rw [heq]
        exact Forest.Up.refl d
      · obtain ⟨p, hp, hloop⟩ := Option.bind_eq_some_iff.1 h
        cases p with
        | none => cases fuel <;> simp [isCanonicalSubtypeLoop] at hloop
        | some p => exact Forest.Up.head (by simp [hp]) (ih hloop)
  · intro h
    have hlen : ∀ {a b}, (fun c => (supertypes[c]?).join) a = some b → a < supertypes.length := by
      intro a b hab
      by_contra ha
      simp [List.getElem?_eq_none (Nat.le_of_not_lt ha)] at hab
    obtain ⟨n, hn, hanc⟩ := h.exists_ancestor_lt hlen hd
    have hfuel : n < supertypes.length + 1 := by omega
    clear hn
    generalize supertypes.length + 1 = fuel at hfuel
    clear h
    induction n generalizing c fuel with
    | zero =>
      obtain ⟨fuel, rfl⟩ : ∃ k, fuel = k + 1 := ⟨fuel - 1, by omega⟩
      cases hanc
      simp [isCanonicalSubtypeLoop]
    | succ n ih =>
      obtain ⟨fuel, rfl⟩ : ∃ k, fuel = k + 1 := ⟨fuel - 1, by omega⟩
      rw [isCanonicalSubtypeLoop]
      split
      · rfl
      · obtain ⟨p, hp, hnext⟩ := Option.bind_eq_some_iff.1 hanc
        have hp' : supertypes[c]? = some (some p) := by simpa using Option.join_eq_some_iff.1 hp
        rw [hp']
        exact ih hnext fuel (by omega)

namespace Engine

section Sound
variable {w : Engine} {groups : List RecursiveGroup} (h : Sound w groups)
include h

/-- Ids are equal exactly for the same position of equal encodings. -/
theorem Sound.id_eq_iff {G' : RecursiveGroup} (hG : G ∈ groups) (hG' : G' ∈ groups) {k k' : Nat} (hk : k < G.defs.length)
    (hk' : k' < G'.defs.length) : G.id w k = G'.id w k' ↔ k = k' ∧ G.code w = G'.code w := by
  obtain ⟨first, hfirst, hid⟩ := (h.hasGroup G hG).ids
  obtain ⟨first', hfirst', hid'⟩ := (h.hasGroup G' hG').ids
  rw [hid k hk, hid' k' hk']
  constructor
  · intro heq
    obtain ⟨hcode, rfl⟩ := Prod.mk.inj (h.distinct.disjoint hfirst hfirst' (by simpa using hk) (by simpa using hk') heq)
    exact ⟨by omega, hcode⟩
  · rintro ⟨rfl, hcode⟩
    rw [hcode] at hfirst
    rw [h.distinct.unique hfirst hfirst']

variable {m : ModuleId}

/-- The table has the id of the declared supertype. -/
theorem Sound.canonicalSupertypes_eq (hi : i < (w.modules m).types.length) :
    w.canonicalSupertypes[(w.modules m).canonicalId i]? =
      some (((w.modules m).supertype i).map (w.modules m).canonicalId) := by
  obtain ⟨G, hG, rfl, k, hk, rfl⟩ := h.covers hi
  have hgroup := h.hasGroup G hG
  obtain ⟨first, hfirst, hid⟩ := hgroup.ids
  obtain ⟨d, hd⟩ : ∃ d, G.defs[k]? = some d := ⟨_, List.getElem?_eq_getElem hk⟩
  have hsuper : (w.modules G.module).supertype (G.start + k) = d.supertype := by
    simp [WasmModule.supertype, hgroup.types hd]
  have hcode : (G.code w)[k]? = some (canonicalizeTypeDef (w.modules G.module) G.start d) := by
    simp [RecursiveGroup.code, hd]
  have hidk : (w.modules G.module).canonicalId (G.start + k) = first + k := hid k hk
  rw [hidk, h.canonical.supertypes hfirst hcode, hsuper]
  congr 1
  cases hs : d.supertype with
  | none => simp [CanonicalType.resolve, canonicalizeTypeDef, canonicalizeSupertype, hs]
  | some s =>
    have hlt := (hgroup.refs d (List.mem_of_getElem? hd)).2 s hs
    by_cases hin : s < G.start
    · simp [CanonicalType.resolve, canonicalizeTypeDef, canonicalizeSupertype, hs, hin]
    · have hpos : (w.modules G.module).canonicalId s = first + (s - G.start) := by
        have := hid (s - G.start) (by omega)
        rwa [RecursiveGroup.id, Nat.add_sub_cancel' (by omega)] at this
      simp only [CanonicalType.resolve, canonicalizeTypeDef, canonicalizeSupertype, hs, if_neg hin, if_true, Option.map_some,
        hpos, Nat.add_comm]

/-- With distinct encodings, types have the same id exactly if they are the same type. -/
theorem Sound.sameType_iff (hcollide : ∀ G ∈ groups, ∀ G' ∈ groups, ¬ G.Collides w G') {j : Nat}
    (hi : i < (w.modules m).types.length) (hj : j < (w.modules m').types.length) :
    SameType w groups (m, i) (m', j) ↔ (w.modules m).canonicalId i = (w.modules m').canonicalId j := by
  constructor
  · rintro ⟨G, hG, G', hG', k, hk, hk', hx, hy, hform⟩
    cases hx
    cases hy
    refine (h.id_eq_iff hG hG' hk hk').2 ⟨rfl, ?_⟩
    rw [← G.encode_form, hform, G'.encode_form]
  · intro heq
    obtain ⟨G, hG, rfl, k, hk, rfl⟩ := h.covers hi
    obtain ⟨G', hG', rfl, k', hk', rfl⟩ := h.covers hj
    obtain ⟨rfl, hcode⟩ := (h.id_eq_iff hG hG' hk hk').1 heq
    exact ⟨G, hG, G', hG', k, hk, hk', rfl, rfl, not_not.1 fun hne => hcollide G hG G' hG' ⟨hcode, hne⟩⟩

theorem Sound.supertype_lt {s : Nat} (hs : (w.modules m).supertype i = some s) :
    i < (w.modules m).types.length ∧ s < (w.modules m).types.length := by
  have hi : i < (w.modules m).types.length := by
    by_contra hi
    simp [WasmModule.supertype, List.getElem?_eq_none (Nat.le_of_not_lt hi)] at hs
  refine ⟨hi, ?_⟩
  obtain ⟨G, hG, rfl, k, hk, rfl⟩ := h.covers hi
  have hgroup := h.hasGroup G hG
  have hd := List.getElem?_eq_getElem hk
  have hsuper : G.defs[k].supertype = some s := by
    simpa [WasmModule.supertype, hgroup.types hd] using hs
  have hlt := (hgroup.refs _ (List.getElem_mem hk)).2 s hsuper
  have hlast := hgroup.types (List.getElem?_eq_getElem (show G.defs.length - 1 < G.defs.length by omega))
  have := (List.getElem?_eq_some_iff.1 hlast).1
  omega

/-- Climbing from the id of a type is following identity and declared supertypes. -/
theorem Sound.up_iff (hcollide : ∀ G ∈ groups, ∀ G' ∈ groups, ¬ G.Collides w G') {j : Nat}
    (hi : i < (w.modules m).types.length) (hj : j < (w.modules m').types.length) :
    Forest.Up (fun c => (w.canonicalSupertypes[c]?).join) ((w.modules m).canonicalId i) ((w.modules m').canonicalId j) ↔
      Relation.ReflTransGen (fun x y => SameType w groups x y ∨ DeclaredSupertype w x y) (m, i) (m', j) := by
  constructor
  · intro hup
    obtain ⟨n, hn⟩ := Forest.up_iff_ancestor.1 hup
    clear hup
    induction n generalizing i with
    | zero => exact .single (.inl ((h.sameType_iff hcollide hi hj).2 (Option.some.inj hn)))
    | succ n ih =>
      obtain ⟨p, hp, hnext⟩ := Option.bind_eq_some_iff.1 hn
      simp only [h.canonicalSupertypes_eq hi] at hp
      obtain ⟨s, hs, rfl⟩ := Option.map_eq_some_iff.1 hp
      exact Relation.ReflTransGen.head (b := (m, s)) (.inr ⟨rfl, hs⟩) (ih (h.supertype_lt hs).2 hnext)
  · intro hrel
    generalize hx : (m, i) = x at hrel
    induction hrel using Relation.ReflTransGen.head_induction_on generalizing m i with
    | refl =>
      cases hx
      exact Forest.Up.refl _
    | head hstep hrest ih =>
      subst hx
      rename_i y
      obtain ⟨m₁, s⟩ := y
      rcases hstep with hsame | ⟨hm, hs⟩
      · obtain ⟨G, hG, G', hG', k, hk, hk', hx, hy, hform⟩ := hsame
        cases hy
        have hs : G'.start + k < (w.modules G'.module).types.length :=
          (List.getElem?_eq_some_iff.1 ((h.hasGroup G' hG').types (List.getElem?_eq_getElem hk'))).1
        have heq := (h.sameType_iff hcollide hi hs).1 ⟨G, hG, G', hG', k, hk, hk', hx, rfl, hform⟩
        rw [heq]
        exact ih hs rfl
      · cases hm
        refine Forest.Up.head ?_ (ih (h.supertype_lt hs).2 rfl)
        simp only [h.canonicalSupertypes_eq hi]
        rw [hs]
        rfl

/-- The ids of a module's types have the chains of the types. -/
theorem Sound.embeds : Forest.Embeds (fun c => (w.canonicalSupertypes[c]?).join) (w.modules m).supertype
    (· < (w.modules m).types.length) (w.modules m).canonicalId where
  closed _ hs := (h.supertype_lt hs).2
  comm hi := by simp only [h.canonicalSupertypes_eq hi, Option.join_some]

/-- A walk from a type whose chain ends has fewer steps than there are ids. -/
theorem Sound.depth_lt {n : Nat} (hi : i < (w.modules m).types.length) (hn : Forest.HasDepth (w.modules m).supertype i n) :
    n < w.canonicalSupertypes.length := by
  obtain ⟨r, hr, -⟩ := hn.exists_root
  obtain ⟨hanc, hlt⟩ := h.embeds.ancestor hi hr
  refine (h.embeds.hasDepth hi hn).lt_length (fun {a b} hab => ?_) hanc ((h.registered m).canonicalId_lt h.canonical hlt)
  by_contra ha
  simp [List.getElem?_eq_none (Nat.le_of_not_lt ha)] at hab

/-- Where the chain of supertypes ends, so does the walk. -/
theorem Sound.loop_answers (d : Nat) {n fuel : Nat} (hi : i < (w.modules m).types.length)
    (hn : Forest.HasDepth (w.modules m).supertype i n) (hfuel : n + 1 < fuel) :
    ∃ b, isCanonicalSubtypeLoop w.canonicalSupertypes d fuel (some ((w.modules m).canonicalId i)) = some b := by
  induction hn generalizing fuel with
  | root hroot =>
    obtain ⟨fuel, rfl⟩ : ∃ k, fuel = k + 2 := ⟨fuel - 2, by omega⟩
    rw [isCanonicalSubtypeLoop, h.canonicalSupertypes_eq hi, hroot]
    split
    · exact ⟨true, rfl⟩
    · exact ⟨false, rfl⟩
  | step hs _ ih =>
    obtain ⟨fuel, rfl⟩ : ∃ k, fuel = k + 1 := ⟨fuel - 1, by omega⟩
    rw [isCanonicalSubtypeLoop, h.canonicalSupertypes_eq hi, hs]
    split
    · exact ⟨true, rfl⟩
    · exact ih (h.supertype_lt hs).2 (by omega)

/-- The references of a group fit if the ids do. -/
theorem Sound.form_fits (hG : G ∈ groups) (hids : G.IdsFit w) : ∀ d ∈ G.form w, d.Fits := by
  intro d hd x hx
  have hgroup := h.hasGroup G hG
  obtain ⟨def', hdef, rfl⟩ := List.mem_map.1 hd
  rw [isoTypeDef, TypeBody.valueTypes_map] at hx
  obtain ⟨t, ht, rfl⟩ := List.mem_map.1 hx
  have hrefs := (hgroup.refs def' hdef).1 t ht
  unfold isoValueType
  cases hi : t.refIndex? with
  | none => exact hi
  | some i =>
    have hlt := hrefs i hi
    have hkind : 8 ≤ t.kind ∧ t.kind ≤ 10 := by
      cases t with
      | primitive k => simp [ValueType.refIndex?] at hi
      | rtt i => simp [ValueType.kind]
      | ref h n => cases n <;> simp [ValueType.kind]
    dsimp only
    split
    · have hfield : kV8MaxWasmTypes < 2 ^ ValueType.kHeapTypeBits := by decide
      exact ⟨hkind.1, hkind.2, by omega⟩
    · exact ⟨hkind.1, hkind.2, hids def' hdef t ht i hi (by omega)⟩

/-- Groups whose references fit do not collide. -/
theorem Sound.not_collides {G' : RecursiveGroup} (hG : G ∈ groups) (hG' : G' ∈ groups) (hids : G.IdsFit w)
    (hids' : G'.IdsFit w) : ¬ G.Collides w G' := by
  rintro ⟨hcode, hform⟩
  apply hform
  rw [← G.encode_form, ← G'.encode_form] at hcode
  exact list_eq_of_map_eq
    (fun d hd e he => IsoDefinition.encode_injective (h.form_fits hG hids d hd) (h.form_fits hG' hids' e he)) hcode
end Sound

/-- What holds after any number of registrations that meet the condition. -/
structure Faithful (w : Engine) (groups : List RecursiveGroup) : Prop extends Sound w groups where
  ids : ∀ G ∈ groups, G.IdsFit w
  depth : ∀ m, ∀ i < (w.modules m).types.length, ∃ n, Forest.HasDepth (w.modules m).supertype i n

/-- The supertype of a type of a group, as far as it is inside of the group. -/
def supertypeInside (defs : List TypeDefinition) (start a : Nat) : Option Nat :=
  ((defs[a]?).bind (·.supertype)).bind fun s => if start ≤ s then some (s - start) else none

theorem supertypeInside_eq_some {defs : List TypeDefinition} {start a b : Nat} :
    supertypeInside defs start a = some b ↔ (defs[a]?).bind (·.supertype) = some (start + b) := by
  rw [supertypeInside]
  cases (defs[a]?).bind (·.supertype) with
  | none => simp
  | some s =>
    simp only [Option.bind_some, Option.ite_none_right_eq_some, Option.some.injEq]
    omega

section Faithful
variable {w : Engine} {groups : List RecursiveGroup}

theorem Faithful.initial : Faithful .initial [] := ⟨.initial, by simp, fun m i hi => by simp [Engine.initial] at hi⟩

theorem Faithful.signature (h : Faithful w groups) (returns parameters : List ValueType) (isFinal : Bool) :
    Faithful (w.addSignature returns parameters isFinal).2 groups := by
  obtain ⟨_, _, _, hmod, _⟩ := canonicalize_spec h.canonical
    [⟨.function (returns.map ValueType.bitField) (parameters.map ValueType.bitField), none, isFinal, false⟩] (by simp)
  have hmodules : (w.addSignature returns parameters isFinal).2.modules = w.modules := hmod
  refine ⟨h.toSound.signature returns parameters isFinal, fun G hG => ?_, fun m => ?_⟩
  · rw [RecursiveGroup.IdsFit, hmodules]
    exact h.ids G hG
  · rw [hmodules]
    exact h.depth m

/-- Types keep their supertypes. -/
theorem Sound.addRecursiveGroup_supertype (h : Sound w groups) (m : ModuleId) (defs : List TypeDefinition)
    (hi : i < (w.modules m').types.length) :
    ((w.addRecursiveGroup m defs).modules m').supertype i = (w.modules m').supertype i := by
  by_cases hm : m' = m
  · subst hm
    rw [addRecursiveGroup_self, WasmModule.supertype, WasmModule.append, List.getElem?_append_left hi, WasmModule.supertype]
  · rw [addRecursiveGroup_other h.toWellFormed m defs hm]

theorem Sound.addRecursiveGroup_depth (h : Sound w groups) (m : ModuleId) (defs : List TypeDefinition) {n : Nat}
    (hi : i < (w.modules m').types.length) (hn : Forest.HasDepth (w.modules m').supertype i n) :
    Forest.HasDepth ((w.addRecursiveGroup m defs).modules m').supertype i n := by
  have hembeds : Forest.Embeds ((w.addRecursiveGroup m defs).modules m').supertype (w.modules m').supertype
      (· < (w.modules m').types.length) id :=
    ⟨fun _ hs => (h.supertype_lt hs).2, fun hi => by rw [id, h.addRecursiveGroup_supertype m defs hi, Option.map_id, id]⟩
  exact hembeds.hasDepth hi hn

/-- The chain of a type of a new group stays in the group for a while, and then ends or goes on in the module. -/
theorem Faithful.depth_new (h : Faithful w groups) (m : ModuleId) (defs : List TypeDefinition)
    (hacyclic : ∀ k, ¬ Relation.TransGen
      (fun a b => (defs[a]?).bind (·.supertype) = some ((w.modules m).types.length + b)) k k) (k : Nat) :
    ∃ n, Forest.HasDepth ((w.addRecursiveGroup m defs).modules m).supertype ((w.modules m).types.length + k) n := by
  have hnew (k : Nat) : ((w.addRecursiveGroup m defs).modules m).supertype ((w.modules m).types.length + k) =
      (defs[k]?).bind (·.supertype) := by
    rw [addRecursiveGroup_self, WasmModule.supertype, WasmModule.append, List.getElem?_append_right (by omega),
      Nat.add_sub_cancel_left]
  have hlen {a b : Nat} (hab : supertypeInside defs (w.modules m).types.length a = some b) : a < defs.length := by
    by_contra ha
    simp [supertypeInside, List.getElem?_eq_none (Nat.le_of_not_lt ha)] at hab
  obtain ⟨n, hn⟩ := Forest.exists_hasDepth hlen (by simpa only [supertypeInside_eq_some] using hacyclic) k
  induction hn with
  | @root a hroot =>
    cases hs : (defs[a]?).bind (·.supertype) with
    | none => exact ⟨0, .root ((hnew a).trans hs)⟩
    | some s =>
      have hlt : s < (w.modules m).types.length := by
        by_contra hge
        simp [supertypeInside, hs, Nat.le_of_not_lt hge] at hroot
      obtain ⟨n, hn⟩ := h.depth m s hlt
      exact ⟨n + 1, .step ((hnew a).trans hs) (h.toSound.addRecursiveGroup_depth m defs hlt hn)⟩
  | @step a b n hs _ ih =>
    obtain ⟨n, hn⟩ := ih
    exact ⟨n + 1, .step ((hnew a).trans (supertypeInside_eq_some.1 hs)) hn⟩

theorem Faithful.group (h : Faithful w groups) (m : ModuleId) (defs : List TypeDefinition)
    (hrefs : ∀ d ∈ defs, d.RefersBelow (min kV8MaxWasmTypes ((w.modules m).types.length + defs.length)))
    (hmeets : Registrable w m defs) :
    Faithful (w.addRecursiveGroup m defs) (⟨m, (w.modules m).types.length, defs⟩ :: groups) := by
  refine ⟨h.toSound.group m defs hrefs, fun G hG d hd t ht i hi hlt => ?_, fun m' i hi => ?_⟩
  · rcases List.mem_cons.1 hG with rfl | hold
    · rw [addRecursiveGroup_canonicalId h.toWellFormed m defs hlt]
      exact hmeets.ids d hd t ht i hi hlt
    · rw [addRecursiveGroup_canonicalId h.toWellFormed m defs (Nat.lt_of_lt_of_le hlt (h.hasGroup G hold).start)]
      exact h.ids G hold d hd t ht i hi hlt
  · by_cases hold : i < (w.modules m').types.length
    · obtain ⟨n, hn⟩ := h.depth m' i hold
      exact ⟨n, h.toSound.addRecursiveGroup_depth m defs hold hn⟩
    · obtain rfl : m' = m := by
        by_contra hm
        rw [addRecursiveGroup_other h.toWellFormed m defs hm] at hi
        exact hold hi
      rw [addRecursiveGroup_self, WasmModule.append, List.length_append] at hi
      obtain ⟨k, rfl⟩ : ∃ k, i = (w.modules m').types.length + k := ⟨i - (w.modules m').types.length, by omega⟩
      exact h.depth_new m' defs hmeets.acyclic k
end Faithful

end Engine

theorem Registers.faithful (h : Registers Registrable w groups) : w.Faithful groups := by
  induction h with
  | initial => exact Engine.Faithful.initial
  | group m defs hrefs hmeets _ ih => exact ih.group m defs hrefs hmeets
  | signature returns parameters isFinal _ ih => exact ih.signature returns parameters isFinal

/-- In every run whose groups all are registrable, canonical ids are isorecursive identity and `IsCanonicalSubtype`
is the closure of the declared supertypes. -/
theorem canonicalizes_of_registrable {w : Engine} {groups : List RecursiveGroup} (hw : Registers Registrable w groups) :
    Canonicalizes w groups := by
  have h := hw.faithful
  have hcollide : ∀ G ∈ groups, ∀ G' ∈ groups, ¬ G.Collides w G' := fun G hG G' hG' =>
    h.toSound.not_collides hG hG' (h.ids G hG) (h.ids G' hG')
  refine ⟨fun G hG G' hG' k hk k' hk' => ?_, fun m i m' j hi hj => ?_⟩
  · rw [h.toSound.id_eq_iff hG hG' hk hk']
    refine and_congr_right fun _ => ⟨fun hcode => not_not.1 fun hne => hcollide G hG G' hG' ⟨hcode, hne⟩, fun hform => ?_⟩
    rw [← G.encode_form, hform, G'.encode_form]
  · obtain ⟨n, hn⟩ := h.depth m i hi
    have hlt := h.toSound.depth_lt hi hn
    obtain ⟨b, hb⟩ := h.toSound.loop_answers ((w.modules m').canonicalId j) hi hn
      (show n + 1 < w.canonicalSupertypes.length + 1 by omega)
    refine ⟨b, hb, ?_⟩
    rw [← h.toSound.up_iff hcollide hi hj,
      ← isCanonicalSubtypeLoop_true ((h.registered m').canonicalId_lt h.canonical hj), hb, Option.some.injEq]

/-- Two modules with one recursive struct type each. -/
theorem canonicalizes_of_registrable_two_modules :
    let defs : List TypeDefinition := [⟨.struct [(.ref (.index 0) .kNullable, true)], none, false⟩]
    Canonicalizes ((Engine.initial.addRecursiveGroup 0 defs).addRecursiveGroup 1 defs) [⟨1, 0, defs⟩, ⟨0, 0, defs⟩] := by
  intro defs
  have hrefs : ∀ d ∈ defs, d.RefersBelow (min kV8MaxWasmTypes (0 + defs.length)) :=
    refersBelow_singleton rfl rfl (by rintro _ ⟨⟩; decide)
  have hmeets (w : Engine) (m : ModuleId) (hm : w.modules m = ⟨[], []⟩) : Registrable w m defs := by
    refine ⟨fun d hd t ht i hi hlt => by simp [hm] at hlt, fun k hk => ?_⟩
    obtain ⟨c, hc, -⟩ := Relation.TransGen.head'_iff.1 hk
    cases k <;> simp [defs] at hc
  exact canonicalizes_of_registrable (.group 1 defs hrefs (hmeets _ 1 rfl) (.group 0 defs hrefs (hmeets _ 0 rfl) .initial))

/-- A type that is its own supertype: the walk to another type does not end. -/
example : ((Engine.initial.addRecursiveGroup 0 [⟨.struct [], some 0, false⟩]).addRecursiveGroup 0
    [⟨.array (.primitive .kI32) true, none, false⟩]).isCanonicalSubtype 0 1 0 0 = none := by
  decide

/-! ## A collision -/

/-- After the types `big` of module 0, one type of module 1. -/
def fullEngine (big : List TypeDefinition) : Engine :=
  (Engine.initial.addRecursiveGroup 0 big).addRecursiveGroup 1 [⟨.array (.primitive .kI32) true, none, false⟩]

theorem fullEngine_canonicalId {big : List TypeDefinition} {n : Nat} (hn : n ≠ 1) (hbig : big.length = n) :
    ((fullEngine big).modules 1).canonicalId 0 = n ∧ ((fullEngine big).modules 1).types.length = 1 := by
  have hfind : ∀ x : CanonicalType, big.map (canonicalizeTypeDef ⟨[], []⟩ 0) ≠ [x] := by
    intro x heq
    have := congrArg List.length heq
    rw [List.length_map, hbig] at this
    exact hn this
  simp [fullEngine, Engine.addRecursiveGroup, Engine.canonicalize, Engine.findCanonicalGroup, Engine.newCanonicalGroup,
    Engine.initial, WasmModule.append, WasmModule.canonicalId, hfind, hbig]

/-- A struct with a reference to type 0 of its module. -/
def structOfIndex : TypeDefinition := ⟨.struct [(.ref (.index 0) .kNonNullable, false)], none, false⟩

/-- A struct with a reference to any function. -/
def structOfFunc : TypeDefinition := ⟨.struct [(.ref (.generic .kFunc) .kNonNullable, false)], none, false⟩

/-- If type 0 has the id `kV8MaxWasmTypes`, both are canonicalized to the same bits. -/
theorem canonicalizeTypeDef_collision {m : WasmModule} (h : m.canonicalId 0 = kV8MaxWasmTypes) :
    canonicalizeTypeDef m 1 structOfIndex = canonicalizeTypeDef m 2 structOfFunc := by
  simp [canonicalizeTypeDef, structOfIndex, structOfFunc, TypeBody.map, canonicalizeValueType, ValueType.refIndex?, h,
    ValueType.kind, ValueType.bitField, HeapType.representation, GenericHeapType.sentinel, canonicalizeSupertype]

theorem registers_collision (big : List TypeDefinition) (hbig : big.length = kV8MaxWasmTypes)
    (hrefs : ∀ d ∈ big, d.RefersBelow (min kV8MaxWasmTypes (0 + big.length))) :
    ∃ w : Engine, Registers (fun _ _ _ => True) w [⟨1, 2, [structOfFunc]⟩, ⟨1, 1, [structOfIndex]⟩,
        ⟨1, 0, [⟨.array (.primitive .kI32) true, none, false⟩]⟩, ⟨0, 0, big⟩] ∧ (w.modules 1).canonicalId 0 = kV8MaxWasmTypes := by
  obtain ⟨hid, hlen⟩ := fullEngine_canonicalId (by decide) hbig
  have hfull : Registers (fun _ _ _ => True) (fullEngine big) [⟨1, 0, [⟨.array (.primitive .kI32) true, none, false⟩]⟩, ⟨0, 0, big⟩] :=
    .group 1 _ (refersBelow_singleton rfl rfl (by rintro _ ⟨⟩)) trivial (.group 0 big hrefs trivial .initial)
  have hstruct : Registers _ _ _ := .group 1 [structOfIndex]
    (refersBelow_singleton rfl rfl (by rintro _ ⟨⟩; rw [hlen]; decide)) trivial hfull
  have hlen' : (((fullEngine big).addRecursiveGroup 1 [structOfIndex]).modules 1).types.length = 2 := by
    rw [Engine.addRecursiveGroup_self, WasmModule.append, hlen]
    rfl
  have hall : Registers _ _ _ := .group 1 [structOfFunc] (refersBelow_singleton rfl rfl (by rintro _ ⟨⟩)) trivial hstruct
  refine ⟨_, hall, ?_⟩
  rw [Engine.addRecursiveGroup_canonicalId hstruct.sound.toWellFormed _ _ (by omega),
    Engine.addRecursiveGroup_canonicalId hfull.sound.toWellFormed _ _ (by omega), hid]

/-- The groups of a run with a collision: `kV8MaxWasmTypes` types of module 0, and three types of module 1. -/
def collidingGroups : List RecursiveGroup :=
  [⟨1, 2, [structOfFunc]⟩, ⟨1, 1, [structOfIndex]⟩, ⟨1, 0, [⟨.array (.primitive .kI32) true, none, false⟩]⟩,
    ⟨0, 0, List.replicate kV8MaxWasmTypes ⟨.struct [], none, false⟩⟩]

/-- A reference to the type with id `kV8MaxWasmTypes` is taken for one to any function: two different
struct types get the same id. -/
theorem canonicalization_collision : ∃ w : Engine, Registers (fun _ _ _ => True) w collidingGroups ∧
    RecursiveGroup.id w ⟨1, 1, [structOfIndex]⟩ 0 = RecursiveGroup.id w ⟨1, 2, [structOfFunc]⟩ 0 ∧
    RecursiveGroup.form w ⟨1, 1, [structOfIndex]⟩ ≠ RecursiveGroup.form w ⟨1, 2, [structOfFunc]⟩ := by
  obtain ⟨w, hw, hid⟩ := registers_collision (List.replicate kV8MaxWasmTypes ⟨.struct [], none, false⟩)
    List.length_replicate (by
      intro d hd
      cases List.eq_of_mem_replicate hd
      exact ⟨fun t ht => (List.not_mem_nil ht).elim, fun s hs => (Option.some_ne_none s hs.symm).elim⟩)
  refine ⟨w, hw, ?_, fun hform => ?_⟩
  · refine (hw.sound.id_eq_iff (.tail _ (.head _)) (.head _) (Nat.zero_lt_one) (Nat.zero_lt_one)).2 ⟨rfl, ?_⟩
    exact congrArg (fun t => [t]) (canonicalizeTypeDef_collision hid)
  · simp [RecursiveGroup.form, isoTypeDef, structOfIndex, structOfFunc, TypeBody.map, isoValueType, ValueType.refIndex?] at hform

end V8Core.Wasm
