import V8Core.Wasm.Subtyping

/-!
# The hierarchy of heap types

The subtype order that `wasm-subtyping.h` describes, over canonical ids instead of
the indices of modules: the generic types in their three hierarchies with the
string views beside them, below them the types of each kind under their declared
supertypes, and the null types at the bottom.

`IsJoin a b r` says that `r` is the least common supertype of `a` and `b`, or
bottom if they have none.
-/

namespace V8Core.Wasm

variable {a b : HeapType} {c : Nat}

/-- The proper supertypes of a generic heap type. -/
def GenericHeapType.supers : GenericHeapType → List GenericHeapType
  | .kEq | .kString => [.kAny]
  | .kI31 | .kStruct | .kArray => [.kEq, .kAny]
  | .kNone =>
    [.kEq, .kI31, .kStruct, .kArray, .kAny, .kString, .kStringViewWtf8, .kStringViewWtf16, .kStringViewIter]
  | .kNoFunc => [.kFunc]
  | .kNoExtern => [.kExtern]
  | .kFunc | .kAny | .kExtern | .kStringViewWtf8 | .kStringViewWtf16 | .kStringViewIter => []

/-- The order of the generic heap types. -/
def GenericHeapType.le (g h : GenericHeapType) : Prop := g = h ∨ h ∈ g.supers

instance : DecidableRel GenericHeapType.le := fun _ _ => inferInstanceAs (Decidable (_ ∨ _))

/-- The generic type above all types of a kind. -/
def TypeKind.generic : TypeKind → GenericHeapType
  | .kFunction => .kFunc
  | .kStruct => .kStruct
  | .kArray => .kArray

/-- The null type below all types of a kind. -/
def TypeKind.null : TypeKind → GenericHeapType
  | .kFunction => .kNoFunc
  | .kStruct | .kArray => .kNone

theorem GenericHeapType.le_trans : ∀ {a b c : GenericHeapType}, a.le b → b.le c → a.le c := by
  decide +kernel

/-- Canonical types: a forest in which a type and its supertype have one kind. -/
structure Hierarchy where
  ok : Nat → Prop
  parent : Nat → Option Nat
  kind : Nat → TypeKind
  ok_parent : ∀ {c p}, ok c → parent c = some p → ok p
  kind_parent : ∀ {c p}, ok c → parent c = some p → kind p = kind c

namespace Hierarchy

variable (H : Hierarchy)

/-- The subtype order on heap types over canonical ids. -/
def le : HeapType → HeapType → Prop
  | .index c, .index d => Forest.Up H.parent c d
  | .index c, .generic g => (H.kind c).generic.le g
  | .generic g, .index c => g = (H.kind c).null
  | .generic g, .generic h => g.le h
  | _, _ => False

/-- Heap types whose index is the id of a type. -/
def Valid : HeapType → Prop
  | .index c => H.ok c
  | .generic _ => True
  | .kBottom => False

variable {H}

theorem up_ok {d : Nat} (hc : H.ok c) (h : Forest.Up H.parent c d) : H.ok d ∧ H.kind d = H.kind c := by
  induction h with
  | refl => exact ⟨hc, rfl⟩
  | tail _ hd ih => exact ⟨H.ok_parent ih.1 hd, (H.kind_parent ih.1 hd).trans ih.2⟩

theorem le_refl (ha : H.Valid a) : H.le a a := by
  cases a with
  | index c => exact .refl c
  | generic g => exact .inl rfl
  | kBottom => exact ha.elim

theorem null_le_generic : ∀ {k : TypeKind} {g : GenericHeapType}, k.generic.le g → k.null.le g := by
  intro k g
  cases k <;> revert g <;> decide

theorem not_generic_le_null : ∀ k l : TypeKind, ¬ k.generic.le l.null := by
  intro k l
  cases k <;> cases l <;> decide

theorem generic_le_null : ∀ {g : GenericHeapType} {k : TypeKind}, g.le k.null → g = k.null := by
  intro g k
  cases k <;> revert g <;> decide

theorem le_trans {c : HeapType} (ha : H.Valid a) (hb : H.Valid b) (h : H.le a b) (h' : H.le b c) : H.le a c := by
  cases a with
  | kBottom => exact ha.elim
  | index i =>
    cases b with
    | kBottom => exact hb.elim
    | index j =>
      cases c with
      | kBottom => exact h'.elim
      | index k => exact Forest.Up.trans h h'
      | generic g => rwa [le, (up_ok ha h).2] at h'
    | generic f =>
      cases c with
      | kBottom => exact h'.elim
      | index k =>
        -- nothing of a kind is a subtype of a null type
        subst h'
        exact (not_generic_le_null _ _ h).elim
      | generic g => exact GenericHeapType.le_trans h h'
  | generic e =>
    cases b with
    | kBottom => exact hb.elim
    | index j =>
      subst h
      cases c with
      | kBottom => exact h'.elim
      | index k => exact congrArg TypeKind.null (up_ok hb h').2.symm
      | generic g => exact null_le_generic h'
    | generic f =>
      cases c with
      | kBottom => exact h'.elim
      | index k =>
        subst h'
        exact generic_le_null h
      | generic g => exact GenericHeapType.le_trans h h'

/-! ## Joins -/

/-- `r` is the least common supertype of `a` and `b`, or bottom when there is none. -/
def IsJoin (H : Hierarchy) (a b r : HeapType) : Prop :=
  (r = .kBottom ∧ ∀ c, H.le a c → H.le b c → False) ∨
    (H.Valid r ∧ H.le a r ∧ H.le b r ∧ ∀ c, H.le a c → H.le b c → H.le r c)

theorem IsJoin.symm {r : HeapType} (h : H.IsJoin a b r) : H.IsJoin b a r := by
  rcases h with ⟨hr, h⟩ | ⟨hr, h1, h2, h⟩
  · exact .inl ⟨hr, fun c hb ha => h c ha hb⟩
  · exact .inr ⟨hr, h2, h1, fun c hb ha => h c ha hb⟩

theorem isJoin_of_le (hb : H.Valid b) (h : H.le a b) : H.IsJoin a b b :=
  .inr ⟨hb, h, le_refl hb, fun _ _ h => h⟩

end Hierarchy

/-- The null type together with a string view, in either order. -/
def NoneWithStringView (g h : GenericHeapType) : Prop :=
  (g = .kNone ∧ h.isStringView = true) ∨ (h = .kNone ∧ g.isStringView = true)

instance : DecidableRel NoneWithStringView := fun _ _ => inferInstanceAs (Decidable (_ ∨ _))

/-- `r` is the least common supertype of two generic types among the generic types. -/
def IsGenericJoin (g h : GenericHeapType) : HeapType → Prop
  | .kBottom => ∀ c : GenericHeapType, ¬ (g.le c ∧ h.le c)
  | .generic r => g.le r ∧ h.le r ∧ ∀ c : GenericHeapType, g.le c → h.le c → r.le c
  | .index _ => False

instance (g h : GenericHeapType) (r : HeapType) : Decidable (IsGenericJoin g h r) :=
  match r with
  | .kBottom => inferInstanceAs (Decidable (∀ c : GenericHeapType, ¬ (g.le c ∧ h.le c)))
  | .generic r => inferInstanceAs (Decidable (g.le r ∧ h.le r ∧ ∀ c : GenericHeapType, g.le c → h.le c → r.le c))
  | .index _ => inferInstanceAs (Decidable False)

/-! ## The table of common ancestors -/

variable {g h : GenericHeapType}

/-- On generic types the table does not look at the module. -/
theorem commonAncestorWithGeneric_generic (g h : GenericHeapType) (m m' : WasmModule) :
    commonAncestorWithGeneric g (.generic h) m = commonAncestorWithGeneric g (.generic h) m' := by
  cases g <;> cases h <;> rfl

theorem commonAncestorWithGeneric_self (g : GenericHeapType) (m : WasmModule) :
    commonAncestorWithGeneric g (.generic g) m = .generic g := by
  cases g <;> rfl

/-- The table has the least common supertype of two generic types, except for the null type and a
string view. -/
theorem commonAncestorWithGeneric_join (hgh : ¬ NoneWithStringView g h) (m : WasmModule) :
    IsGenericJoin g h (commonAncestorWithGeneric g (.generic h) m) := by
  rw [commonAncestorWithGeneric_generic g h m ⟨[], []⟩]
  revert g h
  decide +kernel

/-- For the null type and a string view the table says bottom. -/
theorem commonAncestorWithGeneric_noneWithStringView (hgh : NoneWithStringView g h) (m : WasmModule) :
    commonAncestorWithGeneric g (.generic h) m = .kBottom := by
  rw [commonAncestorWithGeneric_generic g h m ⟨[], []⟩]
  revert g h
  decide +kernel

/-- The null type and a string view do have a common supertype. -/
theorem noneWithStringView_le (hgh : NoneWithStringView g h) : ∃ s : GenericHeapType, g.le s ∧ h.le s := by
  revert g h
  decide +kernel

/-- An indexed type stands for the generic type of its kind, unless it meets the null type below it. -/
theorem commonAncestorWithGeneric_index {m : WasmModule} {i : Nat} {k : TypeKind} (hk : m.kindOf i = some k) :
    commonAncestorWithGeneric g (.index i) m =
      if g = k.null then .index i else commonAncestorWithGeneric g (.generic k.generic) m := by
  cases g <;> cases k <;>
    simp [commonAncestorWithGeneric, WasmModule.hasSignature, WasmModule.hasStruct, WasmModule.hasArray, hk,
      TypeKind.null, TypeKind.generic]

/-- The switch over kinds agrees with the table. -/
theorem commonKind_eq (k l : TypeKind) (m : WasmModule) :
    Engine.commonKind k l = commonAncestorWithGeneric k.generic (.generic l.generic) m := by
  cases k <;> cases l <;> rfl

theorem not_noneWithStringView_kind (g : GenericHeapType) (k : TypeKind) : ¬ NoneWithStringView g k.generic := by
  cases k <;> revert g <;> decide

namespace Hierarchy

variable {H : Hierarchy}

/-- A join among the generic types is a join, when no indexed type is above both. -/
theorem IsJoin.of_generic {r : HeapType} (hr : IsGenericJoin g h r) (ha : ∀ c, H.le a (.generic c) ↔ g.le c)
    (hb : ∀ c, H.le b (.generic c) ↔ h.le c) (hindex : ∀ d, H.le a (.index d) → H.le b (.index d) → False) :
    H.IsJoin a b r := by
  cases r with
  | index d => exact hr.elim
  | kBottom =>
    refine .inl ⟨rfl, fun c hac hbc => ?_⟩
    cases c with
    | kBottom => cases a <;> exact hac.elim
    | index d => exact hindex d hac hbc
    | generic c => exact hr c ⟨(ha c).1 hac, (hb c).1 hbc⟩
  | generic r =>
    refine .inr ⟨trivial, (ha r).2 hr.1, (hb r).2 hr.2.1, fun c hac hbc => ?_⟩
    cases c with
    | kBottom => cases a <;> exact hac.elim
    | index d => exact (hindex d hac hbc).elim
    | generic c => exact hr.2.2 c ((ha c).1 hac) ((hb c).1 hbc)

theorem isJoin_generic (hgh : ¬ NoneWithStringView g h) (m : WasmModule) :
    H.IsJoin (.generic g) (.generic h) (commonAncestorWithGeneric g (.generic h) m) := by
  by_cases heq : g = h
  · subst heq
    rw [commonAncestorWithGeneric_self]
    exact isJoin_of_le trivial (.inl rfl)
  · apply IsJoin.of_generic (commonAncestorWithGeneric_join hgh m) (fun _ => Iff.rfl) (fun _ => Iff.rfl)
    intro d hg hh
    exact heq (Eq.trans hg hh.symm)

/-- A generic type and an indexed type that is not above it. -/
theorem isJoin_generic_index (hc : H.ok c) (hg : g ≠ (H.kind c).null) (m : WasmModule) :
    H.IsJoin (.generic g) (.index c) (commonAncestorWithGeneric g (.generic (H.kind c).generic) m) := by
  apply IsJoin.of_generic (commonAncestorWithGeneric_join (not_noneWithStringView_kind g _) m) (fun _ => Iff.rfl)
    (fun _ => Iff.rfl)
  intro d hgd hup
  apply hg
  rw [← (up_ok hc hup).2]
  exact hgd

/-- Two indexed types: their least common declared supertype, or what their kinds have in common. -/
theorem isJoin_index {d : Nat} (hc : H.ok c) {r : Option Nat} (hr : Forest.IsLeast H.parent c d r) :
    H.IsJoin (.index c) (.index d) ((r.map HeapType.index).getD (Engine.commonKind (H.kind c) (H.kind d))) := by
  cases r with
  | none =>
    simp only [commonKind_eq _ _ ⟨[], []⟩]
    exact IsJoin.of_generic (commonAncestorWithGeneric_join (not_noneWithStringView_kind _ _) _) (fun _ => Iff.rfl)
      (fun _ => Iff.rfl) (fun x hx hx' => hr x hx hx')
  | some x =>
    obtain ⟨hok, hkind⟩ := up_ok hc hr.1
    refine .inr ⟨hok, hr.1, hr.2.1, fun y hy hy' => ?_⟩
    cases y with
    | kBottom => exact hy.elim
    | index y => exact hr.2.2 y hy hy'
    | generic g =>
      simp only [Option.map_some, Option.getD_some, le, hkind]
      exact hy

end Hierarchy

end V8Core.Wasm
