import V8Core.Wasm.Union

/-!
# Intersections of value types

`Intersection` and `ToNullSentinel` of `wasm/wasm-subtyping.cc`. Each of the three
hierarchies has a null type below all its types. Heap types that are not related have
at most the null type in common, so the intersection of two nullable references is
then a reference to it, if there is one.

A reference to a null type that may not be null has no values. It and bottom count as
empty types.
-/

namespace V8Core.Wasm

/-- The nullability of an intersection. -/
def bothNullable (nullability1 nullability2 : Nullability) : Nullability :=
  if nullability1 = .kNullable ∧ nullability2 = .kNullable then .kNullable else .kNonNullable

theorem bothNullable_iff {n n' : Nullability} : bothNullable n n' = .kNullable ↔ n = .kNullable ∧ n' = .kNullable := by
  cases n <;> cases n' <;> decide

theorem bothNullable_comm (n n' : Nullability) : bothNullable n n' = bothNullable n' n := by
  cases n <;> cases n' <;> rfl

/-- `IsNullSentinel`. -/
def isNullSentinel : HeapType → Bool
  | .generic .kNone | .generic .kNoExtern | .generic .kNoFunc => true
  | _ => false

/-- `NullSentinelImpl`. -/
def nullSentinelImpl (type : HeapType) (module : WasmModule) : GenericHeapType :=
  match type with
  | .generic .kI31 | .generic .kNone | .generic .kEq | .generic .kStruct | .generic .kArray | .generic .kAny
  | .generic .kString | .generic .kStringViewWtf8 | .generic .kStringViewWtf16 | .generic .kStringViewIter => .kNone
  | .generic .kExtern | .generic .kNoExtern => .kNoExtern
  | .generic .kFunc | .generic .kNoFunc => .kNoFunc
  | .index i => if module.hasSignature i then .kNoFunc else .kNone
  -- bottom has no index of a signature
  | .kBottom => .kNone

namespace Engine

variable (w : Engine)

/-- `IsHeapSubtypeOf`. -/
def isHeapSubtypeOf (subtype supertype : HeapType) (subModule superModule : ModuleId) : Option Bool :=
  if subtype = supertype ∧ subModule = superModule then some true
  else w.isHeapSubtypeOfImpl subtype supertype subModule superModule

/-- `HeapTypesUnrelated`. -/
def heapTypesUnrelated (heap1 heap2 : HeapType) (module1 module2 : ModuleId) : Option Bool := do
  let sub ← w.isHeapSubtypeOf heap1 heap2 module1 module2
  if sub then some false else (w.isHeapSubtypeOf heap2 heap1 module2 module1).map (!·)

/-- `ToNullSentinel` of a reference to `heap`. -/
def toNullSentinel (heap : HeapType) (module : ModuleId) : ValueType :=
  .ref (.generic (nullSentinelImpl heap (w.modules module))) .kNullable

/-- `Intersection`. -/
def intersection (type1 type2 : ValueType) (module1 module2 : ModuleId) : Option TypeInModule :=
  match type1, type2 with
  | .ref heap1 nullability1, .ref heap2 nullability2 => do
    let nullability := bothNullable nullability1 nullability2
    -- a null type that may not be null is no valid type
    if nullability = .kNonNullable ∧ (isNullSentinel heap1 ∨ isNullSentinel heap2) then some ⟨.kWasmBottom, module1⟩
    else
      let sub ← w.isHeapSubtypeOf heap1 heap2 module1 module2
      if sub then some ⟨.refMaybeNull heap1 nullability, module1⟩
      else
        let super ← w.isHeapSubtypeOf heap2 heap1 module2 module1
        if super then some ⟨.refMaybeNull heap2 nullability, module2⟩
        else if nullability = .kNonNullable then some ⟨.kWasmBottom, module1⟩
        else if w.toNullSentinel heap1 module1 = w.toNullSentinel heap2 module2 then
          some ⟨w.toNullSentinel heap1 module1, module1⟩
        else some ⟨.kWasmBottom, module1⟩
  | _, _ => some ⟨if w.equivalentTypes type1 type2 module1 module2 then type1 else .kWasmBottom, module1⟩

end Engine

/-! ## Null types of the hierarchy -/

/-- The null type below a generic heap type. -/
def GenericHeapType.null : GenericHeapType → GenericHeapType
  | .kFunc | .kNoFunc => .kNoFunc
  | .kExtern | .kNoExtern => .kNoExtern
  | _ => .kNone

/-- The common subtypes of two generic types that are not related are null types. -/
theorem GenericHeapType.null_of_unrelated : ∀ {x g h : GenericHeapType}, x.le g → x.le h → ¬ g.le h → ¬ h.le g → x = g.null := by
  decide +kernel

theorem GenericHeapType.null_le (g : GenericHeapType) : g.null.le g := by
  revert g
  decide

theorem GenericHeapType.null_eq_of_le : ∀ {g h : GenericHeapType}, g.le h → g.null = h.null := by
  decide +kernel

theorem GenericHeapType.eq_null_of_le : ∀ {g h : GenericHeapType}, h.null = h → g.le h → g = h := by
  decide +kernel

variable {h : HeapType} {g : GenericHeapType}

theorem isNullSentinel_iff : isNullSentinel h = true ↔ ∃ g, h = .generic g ∧ g.null = g := by
  cases h with
  | index i => simp [isNullSentinel]
  | kBottom => simp [isNullSentinel]
  | generic g => cases g <;> simp [isNullSentinel, GenericHeapType.null]

theorem TypeKind.generic_null (k : TypeKind) : k.generic.null = k.null := by
  cases k <;> rfl

theorem TypeKind.not_le_null {k : TypeKind} (hg : g.null = g) : ¬ k.generic.le g := by
  revert g
  cases k <;> decide

/-- The generic types above a kind are related. -/
theorem TypeKind.chain {k : TypeKind} {h : GenericHeapType} (hg : k.generic.le g) (hh : k.generic.le h) : g.le h ∨ h.le g := by
  revert g h
  cases k <;> decide +kernel

namespace Hierarchy

variable (H : Hierarchy)

/-- The null type below a heap type. -/
def null : HeapType → GenericHeapType
  | .index c => (H.kind c).null
  | .generic g => g.null
  | .kBottom => .kNone

variable {H}

variable {a b : HeapType}

theorem null_le (ha : H.Valid a) : H.le (.generic (H.null a)) a := by
  cases a with
  | index c => rfl
  | generic g => exact g.null_le
  | kBottom => exact ha.elim

theorem null_null (a : HeapType) : (H.null a).null = H.null a := by
  cases a with
  | index c => simp only [null]; cases H.kind c <;> rfl
  | generic g => cases g <;> rfl
  | kBottom => rfl

/-- Subtypes are in the hierarchy of their supertypes. -/
theorem null_eq_of_le (ha : H.Valid a) (h : H.le a b) : H.null a = H.null b := by
  cases a with
  | kBottom => exact ha.elim
  | index c =>
    cases b with
    | kBottom => exact h.elim
    | index d => exact congrArg TypeKind.null (up_ok ha h).2.symm
    | generic g => rw [null, null, ← TypeKind.generic_null, GenericHeapType.null_eq_of_le h]
  | generic g =>
    cases b with
    | kBottom => exact h.elim
    | index d =>
      obtain rfl : g = (H.kind d).null := h
      exact null_null (.index d)
    | generic g' => exact GenericHeapType.null_eq_of_le h

/-- The supertypes of an indexed type are a chain. -/
theorem index_chain {c : Nat} (hc : H.ok c) (ha : H.le (.index c) a) (hb : H.le (.index c) b) :
    H.le a b ∨ H.le b a := by
  cases a with
  | kBottom => exact ha.elim
  | index d =>
    cases b with
    | kBottom => exact hb.elim
    | index e => exact Forest.Up.total ha hb
    | generic g =>
      left
      rwa [le, (up_ok hc ha).2]
  | generic g =>
    cases b with
    | kBottom => exact hb.elim
    | index e =>
      right
      rwa [le, (up_ok hc hb).2]
    | generic g' => exact TypeKind.chain ha hb

/-- Types that are not related have at most the null type in common. -/
theorem null_of_unrelated {x : HeapType} (hx : H.Valid x) (hxa : H.le x a) (hxb : H.le x b) (hab : ¬ H.le a b)
    (hba : ¬ H.le b a) : x = .generic (H.null a) := by
  cases x with
  | kBottom => exact hx.elim
  | index c => exact ((index_chain hx hxa hxb).elim hab hba).elim
  | generic g =>
    cases a with
    | kBottom => exact hxa.elim
    | index c =>
      obtain rfl : g = (H.kind c).null := hxa
      rfl
    | generic g' =>
      cases b with
      | kBottom => exact hxb.elim
      | index d =>
        obtain rfl : g = (H.kind d).null := hxb
        exact congrArg HeapType.generic ((null_null (.index d)).symm.trans (GenericHeapType.null_eq_of_le hxa))
      | generic g'' => exact congrArg HeapType.generic (GenericHeapType.null_of_unrelated hxa hxb hab hba)

/-- A null type has no other subtypes. -/
theorem eq_null_of_le {x : HeapType} (hx : H.Valid x) (hg : g.null = g) (h : H.le x (.generic g)) :
    x = .generic g := by
  cases x with
  | kBottom => exact hx.elim
  | index c => exact (TypeKind.not_le_null hg h).elim
  | generic g' => exact congrArg HeapType.generic (GenericHeapType.eq_null_of_le hg h)

end Hierarchy

/-! ## Intersections -/

namespace Engine

section Null
variable {w : Engine} (hw : Inv w)
include hw

theorem Inv.isHeapSubtypeOf_spec {m m' : ModuleId} (hm : w.decoded m = true) {h' : HeapType}
    (hv : h.ValidIn (w.modules m)) (hv' : h'.ValidIn (w.modules m')) :
    ∃ b, w.isHeapSubtypeOf h h' m m' = some b ∧
      (b = true ↔ (w.hierarchy hw).le (h.canon (w.modules m)) (h'.canon (w.modules m'))) := by
  by_cases heq : h = h' ∧ m = m'
  · refine ⟨true, by simp [isHeapSubtypeOf, heq], ?_⟩
    obtain ⟨rfl, rfl⟩ := heq
    exact ⟨fun _ => Hierarchy.le_refl (hw.valid_canon hm hv), fun _ => rfl⟩
  · rw [isHeapSubtypeOf, if_neg heq]
    exact hw.isHeapSubtypeOfImpl_spec hm hv hv'

/-- `NullSentinelImpl` finds the null type of the hierarchy. -/
theorem Inv.nullSentinelImpl_eq {m : ModuleId} (hv : h.ValidIn (w.modules m)) :
    nullSentinelImpl h (w.modules m) = (w.hierarchy hw).null (h.canon (w.modules m)) := by
  cases h with
  | kBottom => exact hv.elim
  | generic g => cases g <;> rfl
  | index i =>
    have hk := hw.kind_canonicalId hv.2
    simp only [HeapType.canon, Hierarchy.null]
    generalize (w.hierarchy hw).kind ((w.modules m).canonicalId i) = k at hk
    cases k <;> simp [nullSentinelImpl, WasmModule.hasSignature, hk, TypeKind.null]
end Null

namespace DecodedType

variable {w : Engine}

/-- A reference to a null type that may not be null: it has no values. -/
def Empty (t : w.DecodedType) : Prop := ∃ h, t.type = .ref h .kNonNullable ∧ isNullSentinel h = true

/-- `r` is the intersection of `t` and `u`: their greatest common subtype, or bottom if only empty
types are subtypes of both. -/
def IsIntersection (t u : w.DecodedType) (r : TypeInModule) : Prop :=
  (r.type = .kWasmBottom ∧ ∀ v : w.DecodedType, v.Sub t → v.Sub u → v.Empty) ∨
    ∃ v : w.DecodedType, r = ⟨v.type, v.module⟩ ∧ v.Sub t ∧ v.Sub u ∧ ∀ x : w.DecodedType, x.Sub t → x.Sub u → x.Sub v

/-- The nullable reference to a generic type, in the module of `t`. -/
def genericRef (t : w.DecodedType) (g : GenericHeapType) : w.DecodedType :=
  ⟨.ref (.generic g) .kNullable, t.module, t.decoded, trivial⟩

variable {t v : w.DecodedType}

/-- A subtype of a reference is a reference that may be null only if the supertype may. -/
theorem sub_of_ref (hw : Inv w) {n : Nullability} (ht : t.type = .ref h n) :
    v.Sub t ↔ ∃ h' n', v.type = .ref h' n' ∧ (n' = .kNullable → n = .kNullable) ∧
      (w.hierarchy hw).le (h'.canon (w.modules v.module)) (h.canon (w.modules t.module)) := by
  rw [sub_iff hw, canon, canon, ht]
  cases hv : v.type with
  | primitive kind => simp [ValueType.canon, Hierarchy.valueLe]
  | rtt i => simp [ValueType.canon, Hierarchy.valueLe]
  | ref h' n' => simp [ValueType.canon, Hierarchy.valueLe]

/-- Types that are not both references. -/
theorem intersection_not_ref (hw : Inv w) (t u : w.DecodedType)
    (href : t.type.isObjectReference = false ∨ u.type.isObjectReference = false) :
    ∃ r, w.intersection t.type u.type t.module u.module = some r ∧ t.IsIntersection u r := by
  have hres : w.intersection t.type u.type t.module u.module =
      some ⟨if w.equivalentTypes t.type u.type t.module u.module then t.type else .kWasmBottom, t.module⟩ := by
    unfold intersection
    split
    · simp_all [ValueType.isObjectReference]
    · rfl
  have hequiv := equivalentTypes_iff w t.module u.module href
  refine ⟨_, hres, ?_⟩
  by_cases heq : t.type.canon (w.modules t.module) = u.type.canon (w.modules u.module)
  · have hle := hw.valueLe_refl t.decoded t.valid
    refine .inr ⟨t, by simp [hequiv.2 heq], (sub_iff hw t t).2 hle, (sub_iff hw t u).2 ?_, fun x hx _ => hx⟩
    rw [canon, canon, ← heq]
    exact hle
  · refine .inl ⟨by simp [mt hequiv.1 heq], fun v hvt hvu => (heq ?_).elim⟩
    rw [sub_iff hw] at hvt hvu
    exact Hierarchy.eq_of_comparable (by simpa using href) (.inr hvt) (.inr hvu)

theorem IsIntersection.symm {u : w.DecodedType} {r : TypeInModule} (h : t.IsIntersection u r) : u.IsIntersection t r := by
  rcases h with ⟨hr, hv⟩ | ⟨v, hr, hvt, hvu, hgreatest⟩
  · exact .inl ⟨hr, fun v hvu hvt => hv v hvt hvu⟩
  · exact .inr ⟨v, hr, hvu, hvt, fun x hxu hxt => hgreatest x hxt hxu⟩

section Refs
variable (hw : Inv w) {t u : w.DecodedType} {h h' : HeapType} {n n' : Nullability} (ht : t.type = .ref h n)
  (hu : u.type = .ref h' n')
include ht hu

/-- The nullability of the intersection. -/
theorem common_nullability (hvt : v.Sub t) (hvu : v.Sub u) : ∃ x k, v.type = .ref x k ∧
    (k = .kNullable → bothNullable n n' = .kNullable) ∧
    (w.hierarchy hw).le (x.canon (w.modules v.module)) (h.canon (w.modules t.module)) ∧
    (w.hierarchy hw).le (x.canon (w.modules v.module)) (h'.canon (w.modules u.module)) := by
  obtain ⟨x, k, hv, hk, hle⟩ := (sub_of_ref hw ht).1 hvt
  obtain ⟨x', k', hv', hk', hle'⟩ := (sub_of_ref hw hu).1 hvu
  cases hv.symm.trans hv'
  exact ⟨x, k, hv, fun hnull => bothNullable_iff.2 ⟨hk hnull, hk' hnull⟩, hle, hle'⟩

/-- Of two related heap types the intersection has the lower one. -/
theorem isIntersection_of_le (hle : (w.hierarchy hw).le (h.canon (w.modules t.module)) (h'.canon (w.modules u.module))) :
    t.IsIntersection u ⟨.refMaybeNull h (bothNullable n n'), t.module⟩ := by
  have hvt := heap_valid ht
  let v : w.DecodedType :=
    ⟨.ref h (bothNullable n n'), t.module, t.decoded, hvt⟩
  have hself := Hierarchy.le_refl (hw.valid_canon t.decoded hvt)
  refine .inr ⟨v, rfl, (sub_of_ref hw ht).2 ⟨h, _, rfl, fun hnull => (bothNullable_iff.1 hnull).1, hself⟩,
    (sub_of_ref hw hu).2 ⟨h, _, rfl, fun hnull => (bothNullable_iff.1 hnull).2, hle⟩, fun x hxt hxu => ?_⟩
  obtain ⟨y, k, hx, hk, hle1, _⟩ := common_nullability hw ht hu hxt hxu
  exact (sub_of_ref hw (t := v) rfl).2 ⟨y, k, hx, hk, hle1⟩

include hw in
/-- A reference that may not be null and a null type have only empty types in common. -/
theorem empty_of_null (hnull : bothNullable n n' = .kNonNullable) (hs : isNullSentinel h = true)
    (hvt : v.Sub t) (hvu : v.Sub u) : v.Empty := by
  obtain ⟨x, k, hv, hk, hle, _⟩ := common_nullability hw ht hu hvt hvu
  obtain ⟨g, rfl, hg⟩ := isNullSentinel_iff.1 hs
  have hvalid : x.ValidIn (w.modules v.module) := by simpa [hv, ValueType.ValidIn] using v.valid
  have hx := Hierarchy.eq_null_of_le (hw.valid_canon v.decoded hvalid) hg hle
  obtain rfl : x = .generic g := by cases x <;> simp_all [HeapType.canon]
  cases k with
  | kNullable => simp [hnull] at hk
  | kNonNullable => exact ⟨_, hv, hs⟩

/-- Unrelated heap types have at most a null type in common. -/
theorem common_of_unrelated (hle : ¬ (w.hierarchy hw).le (h.canon (w.modules t.module)) (h'.canon (w.modules u.module)))
    (hge : ¬ (w.hierarchy hw).le (h'.canon (w.modules u.module)) (h.canon (w.modules t.module)))
    (hvt : v.Sub t) (hvu : v.Sub u) : ∃ k, v.type = .ref (.generic (nullSentinelImpl h (w.modules t.module))) k ∧
      (k = .kNullable → bothNullable n n' = .kNullable) ∧
      nullSentinelImpl h (w.modules t.module) = nullSentinelImpl h' (w.modules u.module) := by
  obtain ⟨x, k, hv, hk, hx, hx'⟩ := common_nullability hw ht hu hvt hvu
  have hvt := heap_valid ht
  have hvu := heap_valid hu
  have hvv := heap_valid hv
  have hvalid := hw.valid_canon v.decoded hvv
  have hnull := Hierarchy.null_of_unrelated hvalid hx hx' hle hge
  refine ⟨k, ?_, hk, ?_⟩
  · rw [hw.nullSentinelImpl_eq hvt, hv]
    cases x <;> simp_all [HeapType.canon]
  · rw [hw.nullSentinelImpl_eq hvt, hw.nullSentinelImpl_eq hvu, ← Hierarchy.null_eq_of_le hvalid hx,
      Hierarchy.null_eq_of_le hvalid hx']

/-- The intersection of references. -/
theorem intersection_ref (hw : Inv w) :
    ∃ r, w.intersection t.type u.type t.module u.module = some r ∧ t.IsIntersection u r := by
  have hvt := heap_valid ht
  have hvu := heap_valid hu
  obtain ⟨b, hb, hbiff⟩ := hw.isHeapSubtypeOf_spec t.decoded hvt hvu
  obtain ⟨b', hb', hbiff'⟩ := hw.isHeapSubtypeOf_spec u.decoded hvu hvt
  simp only [intersection, ht, hu, hb, hb', Option.bind_eq_bind, Option.bind_some]
  split
  · -- one is a null type, and the result may not be null
    rename_i hnull
    refine ⟨_, rfl, .inl ⟨rfl, fun v hvt hvu => ?_⟩⟩
    rcases hnull.2 with hs | hs
    · exact empty_of_null hw ht hu hnull.1 hs hvt hvu
    · exact empty_of_null hw hu ht (bothNullable_comm n n' ▸ hnull.1) hs hvu hvt
  · split
    · rename_i hsub
      exact ⟨_, rfl, isIntersection_of_le hw ht hu (hbiff.1 hsub)⟩
    · rename_i hsub
      split
      · rename_i hsuper
        have := isIntersection_of_le hw hu ht (hbiff'.1 hsuper)
        rw [bothNullable_comm] at this
        exact ⟨_, rfl, this.symm⟩
      · rename_i hsuper
        have hcommon := fun v => common_of_unrelated hw ht hu (v := v) (mt hbiff.2 hsub) (mt hbiff'.2 hsuper)
        split
        · rename_i hnon
          refine ⟨_, rfl, .inl ⟨rfl, fun v hvt hvu => ?_⟩⟩
          obtain ⟨k, hv, hk, _⟩ := hcommon v hvt hvu
          rw [hnon] at hk
          cases k with
          | kNullable => simp at hk
          | kNonNullable =>
            refine ⟨_, hv, isNullSentinel_iff.2 ⟨_, rfl, ?_⟩⟩
            rw [hw.nullSentinelImpl_eq ‹_›]
            exact Hierarchy.null_null _
        · split
          · -- both may be null, and the null type is below both
            rename_i hnon hsame
            obtain ⟨hn, hn'⟩ := bothNullable_iff.1 (show bothNullable n n' = .kNullable by
              cases hb : bothNullable n n' <;> simp_all)
            simp only [toNullSentinel, ValueType.ref.injEq, and_true] at hsame
            refine ⟨_, rfl, .inr ⟨t.genericRef (nullSentinelImpl h (w.modules t.module)), rfl,
              (sub_of_ref hw ht).2 ⟨_, _, rfl, fun _ => hn, ?_⟩, (sub_of_ref hw hu).2 ⟨_, _, rfl, fun _ => hn', ?_⟩,
              fun x hxt hxu => ?_⟩⟩
            · rw [hw.nullSentinelImpl_eq hvt]
              exact Hierarchy.null_le (hw.valid_canon t.decoded hvt)
            · rw [hsame, hw.nullSentinelImpl_eq hvu]
              exact Hierarchy.null_le (hw.valid_canon u.decoded hvu)
            · obtain ⟨k, hx, _, _⟩ := hcommon x hxt hxu
              exact (sub_of_ref hw (t := t.genericRef _) rfl).2 ⟨_, k, hx, fun _ => rfl, .inl rfl⟩
          · rename_i hdiff
            refine ⟨_, rfl, .inl ⟨rfl, fun v hvt hvu => (hdiff ?_).elim⟩⟩
            obtain ⟨_, _, _, heq⟩ := hcommon v hvt hvu
            rw [toNullSentinel, toNullSentinel, heq]
end Refs

/-- The null type of a reference's hierarchy is the one below it. -/
theorem genericRef_sub (hw : Inv w) (x : w.DecodedType) (ht : t.type = .ref h .kNullable)
    (hg : isNullSentinel (.generic g) = true) :
    (x.genericRef g).Sub t ↔ g = nullSentinelImpl h (w.modules t.module) := by
  have hvt := heap_valid ht
  have hvalid := hw.valid_canon t.decoded hvt
  rw [hw.nullSentinelImpl_eq hvt, sub_of_ref hw ht]
  constructor
  · rintro ⟨h', n', hx, _, hle⟩
    cases hx
    obtain ⟨g', hg', hnull⟩ := isNullSentinel_iff.1 hg
    cases hg'
    have := Hierarchy.null_eq_of_le (H := w.hierarchy hw) (a := .generic g) trivial hle
    rw [← this]
    exact hnull.symm
  · rintro rfl
    exact ⟨_, _, rfl, fun _ => rfl, Hierarchy.null_le hvalid⟩

/-- Nullable references with unrelated heap types. -/
theorem intersection_unrelated {u : w.DecodedType} {h' : HeapType} (ht : t.type = .ref h .kNullable)
    (hu : u.type = .ref h' .kNullable) (hun : w.heapTypesUnrelated h h' t.module u.module = some true) :
    w.intersection t.type u.type t.module u.module =
      some ⟨if nullSentinelImpl h (w.modules t.module) = nullSentinelImpl h' (w.modules u.module) then
        (t.genericRef (nullSentinelImpl h (w.modules t.module))).type else .kWasmBottom, t.module⟩ := by
  obtain ⟨hsub, hsuper⟩ : w.isHeapSubtypeOf h h' t.module u.module = some false ∧
      w.isHeapSubtypeOf h' h u.module t.module = some false := by
    unfold heapTypesUnrelated at hun
    cases h1 : w.isHeapSubtypeOf h h' t.module u.module with
    | none => simp [h1] at hun
    | some b => cases b <;> simp_all
  have hnull : bothNullable .kNullable .kNullable = .kNullable := rfl
  simp only [intersection, ht, hu, hsub, hsuper, hnull, toNullSentinel, genericRef]
  by_cases hsame : nullSentinelImpl h (w.modules t.module) = nullSentinelImpl h' (w.modules u.module)
  · simp [hsame]
  · simp [hsame]

end DecodedType

/-- In every state of the process, for all types of its decoded modules: `Intersection` returns their
greatest common subtype, and bottom only if no type that has values is a subtype of both. Nullable
references with unrelated heap types intersect in a null type exactly if it is below both. -/
theorem intersection_greatest {w : Engine} (hw : Reachable w) (t u : w.DecodedType) :
    (∃ r, w.intersection t.type u.type t.module u.module = some r ∧ t.IsIntersection u r) ∧
    ∀ h h', t.type = .ref h .kNullable → u.type = .ref h' .kNullable →
      w.heapTypesUnrelated h h' t.module u.module = some true → ∀ g, isNullSentinel (.generic g) = true →
        (w.intersection t.type u.type t.module u.module = some ⟨.ref (.generic g) .kNullable, t.module⟩ ↔
          (t.genericRef g).Sub t ∧ (t.genericRef g).Sub u) := by
  have hinv := hw.inv
  constructor
  · by_cases href : t.type.isObjectReference = false ∨ u.type.isObjectReference = false
    · exact DecodedType.intersection_not_ref hinv t u href
    · obtain ⟨⟨h, n, ht⟩, ⟨h', n', hu⟩⟩ : (∃ h n, t.type = .ref h n) ∧ ∃ h n, u.type = .ref h n := by
        rcases not_or.1 href with ⟨ht, hu⟩
        constructor
        · cases hcase : t.type <;> simp_all [ValueType.isObjectReference]
        · cases hcase : u.type <;> simp_all [ValueType.isObjectReference]
      exact DecodedType.intersection_ref ht hu hinv
  · intro h h' ht hu hun g hg
    rw [DecodedType.intersection_unrelated ht hu hun, DecodedType.genericRef_sub hinv t ht hg,
      DecodedType.genericRef_sub hinv t hu hg]
    split
    · rename_i hsame
      simp only [DecodedType.genericRef, Option.some.injEq, TypeInModule.mk.injEq, ValueType.ref.injEq,
        HeapType.generic.injEq, and_true]
      rw [hsame]
      exact ⟨fun h => ⟨h.symm, h.symm⟩, fun h => h.1.symm⟩
    · rename_i hdiff
      simp only [ValueType.kWasmBottom, Option.some.injEq, TypeInModule.mk.injEq, reduceCtorEq, false_and, false_iff]
      rintro ⟨rfl, heq⟩
      exact hdiff heq

/-- A struct type and the array type have only the null reference in common. -/
theorem intersection_greatest_struct_array :
    twoStructs.intersection (.ref (.index 0) .kNullable) (.ref (.generic .kArray) .kNullable) 0 0 =
      some ⟨.ref (.generic .kNone) .kNullable, 0⟩ := by
  let t : twoStructs.DecodedType := twoStructs.ref 0 .kNullable ⟨by decide, by decide⟩
  have hunrelated : twoStructs.heapTypesUnrelated (.index 0) (.generic .kArray) 0 0 = some true := by decide
  have hstruct : twoStructs.isSubtypeOf (.ref (.generic .kNone) .kNullable) (.ref (.index 0) .kNullable) 0 0 = some true := by
    decide
  have harray : twoStructs.isSubtypeOf (.ref (.generic .kNone) .kNullable) (.ref (.generic .kArray) .kNullable) 0 0 = some true := by
    decide
  exact ((intersection_greatest (.step _ (.step _ .initial)) t (t.genericRef .kArray)).2 _ _ rfl rfl hunrelated .kNone rfl).2
    ⟨hstruct, harray⟩

end Engine

end V8Core.Wasm
