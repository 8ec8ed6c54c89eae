import V8Core.Wasm.Modules
import V8Core.Wasm.Hierarchy

/-!
# Subtyping of decoded modules

In every state of the process the types of the decoded modules, taken to their
canonical ids, form a hierarchy. `IsSubtypeOf` decides its order and `Union`
computes its joins, except for the null type and a string view.
-/

namespace V8Core.Wasm

variable {n : Nullability} {m' : ModuleId} {i : Nat}

/-- The indices that value types of a module may have. -/
def WasmModule.HasIndex (m : WasmModule) (i : Nat) : Prop := i < kV8MaxWasmTypes ∧ i < m.types.length

variable {m : ModuleId}

namespace Engine

/-- The kind of the types with a canonical id. -/
def canonicalKind (w : Engine) (c : Nat) : Option TypeKind :=
  w.canonicalGroups.findSome? fun e => if e.2 ≤ c then (e.1[c - e.2]?).map (·.body.kind) else none

/-- The supertype of a canonical id. -/
def canonicalParent (w : Engine) (c : Nat) : Option Nat := (w.canonicalSupertypes[c]?).join

theorem Canonical.canonicalKind_eq {w : Engine} (hw : Canonical w) {g : List CanonicalType} {first k : Nat}
    {t : CanonicalType} (hg : (g, first) ∈ w.canonicalGroups) (hk : g[k]? = some t) :
    w.canonicalKind (first + k) = some t.body.kind := by
  cases h : w.canonicalKind (first + k) with
  | none =>
    have := List.findSome?_eq_none_iff.1 h _ hg
    simp [hk] at this
  | some kind =>
    obtain ⟨⟨g', first'⟩, hg', he⟩ := List.exists_of_findSome?_eq_some h
    split at he
    · rename_i hle
      obtain ⟨t', ht', rfl⟩ := Option.map_eq_some_iff.1 he
      rw [hw.kinds hg' hg ht' hk (by omega)]
    · simp at he

section Decoded
variable {w : Engine} (hw : Inv w)
include hw

theorem Inv.canonicalKind_canonicalId (hi : i < (w.modules m).types.length) :
    w.canonicalKind ((w.modules m).canonicalId i) = (w.modules m).kindOf i := by
  obtain ⟨g, first, k, t, hg, hk, hid, hkind, _⟩ := (hw.registered m).types (List.getElem?_eq_getElem hi)
  rw [hid, hw.canonical.canonicalKind_eq hg hk, hkind]
  simp [WasmModule.kindOf, List.getElem?_eq_getElem hi]

theorem Inv.canonicalSupertypes_canonicalId (hm : w.decoded m = true)
    (hi : i < (w.modules m).types.length) :
    w.canonicalSupertypes[(w.modules m).canonicalId i]? =
      some (((w.modules m).supertype i).map (w.modules m).canonicalId) := by
  obtain ⟨g, first, k, t, hg, hk, hid, _, hnone, hsome⟩ := (hw.registered m).types (List.getElem?_eq_getElem hi)
  rw [hid, hw.canonical.supertypes hg hk]
  cases hs : (w.modules m).supertype i with
  | none =>
    rw [hnone (by simpa [WasmModule.supertype, List.getElem?_eq_getElem hi] using hs)]
    rfl
  | some s =>
    have hlt := (hw.accepted hm).supertype_lt hs
    rw [(hsome s (by simpa [WasmModule.supertype, List.getElem?_eq_getElem hi] using hs) hlt).1]
    rfl

theorem Inv.canonicalId_supertype_lt (hm : w.decoded m = true) {s : Nat}
    (hs : (w.modules m).supertype i = some s) : (w.modules m).canonicalId s < (w.modules m).canonicalId i := by
  have hi := WasmModule.lt_of_supertype hs
  obtain ⟨_, _, _, _, _, _, _, _, _, hsome⟩ := (hw.registered m).types (List.getElem?_eq_getElem hi)
  refine (hsome s ?_ ((hw.accepted hm).supertype_lt hs)).2
  simpa [WasmModule.supertype, List.getElem?_eq_getElem hi] using hs

theorem Inv.canonicalParent_canonicalId (hm : w.decoded m = true) (hi : i < (w.modules m).types.length) :
    w.canonicalParent ((w.modules m).canonicalId i) = ((w.modules m).supertype i).map (w.modules m).canonicalId := by
  rw [canonicalParent, hw.canonicalSupertypes_canonicalId hm hi]
  rfl
end Decoded

/-- Ids of types of decoded modules. -/
def IsDecodedId (w : Engine) (c : Nat) : Prop :=
  ∃ m i, w.decoded m = true ∧ i < (w.modules m).types.length ∧ (w.modules m).canonicalId i = c

/-- The hierarchy of the types of the decoded modules. -/
def hierarchy (w : Engine) (hw : Inv w) : Hierarchy where
  ok := w.IsDecodedId
  parent := w.canonicalParent
  kind c := (w.canonicalKind c).getD .kFunction
  ok_parent := by
    rintro _ p ⟨m, i, hm, hi, rfl⟩ hp
    rw [hw.canonicalParent_canonicalId hm hi] at hp
    obtain ⟨s, hs, rfl⟩ := Option.map_eq_some_iff.1 hp
    exact ⟨m, s, hm, ((hw.accepted hm).supertype_lt hs).trans hi, rfl⟩
  kind_parent := by
    rintro _ p ⟨m, i, hm, hi, rfl⟩ hp
    rw [hw.canonicalParent_canonicalId hm hi] at hp
    obtain ⟨s, hs, rfl⟩ := Option.map_eq_some_iff.1 hp
    rw [hw.canonicalKind_canonicalId (((hw.accepted hm).supertype_lt hs).trans hi), hw.canonicalKind_canonicalId hi,
      (hw.accepted hm).kindOf_supertype hs]

section Refinement
variable {w : Engine} (hw : Inv w)
include hw

theorem Inv.kind_canonicalId (hi : i < (w.modules m).types.length) :
    (w.modules m).kindOf i = some ((w.hierarchy hw).kind ((w.modules m).canonicalId i)) := by
  simp only [hierarchy, hw.canonicalKind_canonicalId hi]
  simp [WasmModule.kindOf, List.getElem?_eq_getElem hi]

/-- The supertypes of a decoded module are part of the hierarchy. -/
theorem Inv.embeds (hm : w.decoded m = true) :
    Forest.Embeds w.canonicalParent (w.modules m).supertype (w.modules m).HasIndex (w.modules m).canonicalId where
  closed hi hs := ⟨((hw.accepted hm).supertype_lt hs).trans hi.1, ((hw.accepted hm).supertype_lt hs).trans hi.2⟩
  comm hi := hw.canonicalParent_canonicalId hm hi.2

theorem Inv.canonicalParent_lt {c p : Nat} (hc : w.IsDecodedId c) (hp : w.canonicalParent c = some p) : p < c := by
  obtain ⟨m, i, hm, hi, rfl⟩ := hc
  rw [hw.canonicalParent_canonicalId hm hi] at hp
  obtain ⟨s, hs, rfl⟩ := Option.map_eq_some_iff.1 hp
  exact hw.canonicalId_supertype_lt hm hs

/-- The walk of `IsCanonicalSubtype` ends and finds the target exactly when it is above. -/
theorem Inv.isCanonicalSubtypeLoop_spec (d : Nat) {c n : Nat} (hd : Forest.HasDepth w.canonicalParent c n)
    (hc : w.IsDecodedId c) {fuel : Nat} (hfuel : n + 2 ≤ fuel) :
    ∃ b, isCanonicalSubtypeLoop w.canonicalSupertypes d fuel (some c) = some b ∧
      (b = true ↔ Forest.Up w.canonicalParent c d) := by
  induction hd generalizing fuel with
  | @root c hroot =>
    obtain ⟨fuel, rfl⟩ : ∃ k, fuel = k + 2 := ⟨fuel - 2, by omega⟩
    by_cases hcd : c = d
    · exact ⟨true, by simp [isCanonicalSubtypeLoop, hcd], by simpa [hcd] using Forest.Up.refl d⟩
    · obtain ⟨m, i, hm, hi, rfl⟩ := hc
      have hsup := hw.canonicalSupertypes_canonicalId hm hi
      rw [← hw.canonicalParent_canonicalId hm hi, hroot] at hsup
      refine ⟨false, by simp [isCanonicalSubtypeLoop, hcd, hsup], ?_⟩
      simp only [Bool.false_eq_true, false_iff]
      intro hup
      rcases hup.cases with h | ⟨b, hb, _⟩
      · exact hcd h
      · rw [hroot] at hb; cases hb
  | @step c p n hp _ ih =>
    obtain ⟨fuel, rfl⟩ : ∃ k, fuel = k + 1 := ⟨fuel - 1, by omega⟩
    by_cases hcd : c = d
    · exact ⟨true, by simp [isCanonicalSubtypeLoop, hcd], by simpa [hcd] using Forest.Up.refl d⟩
    · obtain ⟨b, hb, hiff⟩ := ih ((w.hierarchy hw).ok_parent hc hp) (show n + 2 ≤ fuel by omega)
      obtain ⟨m, i, hm, hi, rfl⟩ := hc
      have hsup := hw.canonicalSupertypes_canonicalId hm hi
      rw [← hw.canonicalParent_canonicalId hm hi, hp] at hsup
      refine ⟨b, by simpa [isCanonicalSubtypeLoop, hcd, hsup] using hb, hiff.trans ⟨Forest.Up.head hp, ?_⟩⟩
      intro hup
      rcases hup.cases with h | ⟨p', hp', h⟩
      · exact absurd h hcd
      · rw [hp] at hp'
        cases hp'
        exact h

end Refinement

end Engine

/-! ## Types of decoded modules -/

/-- A heap type with its index replaced by the canonical id. -/
def HeapType.canon (m : WasmModule) : HeapType → HeapType
  | .index i => .index (m.canonicalId i)
  | .generic g => .generic g
  | .kBottom => .kBottom

/-- The heap types that may occur in a module. -/
def HeapType.ValidIn (m : WasmModule) : HeapType → Prop
  | .index i => m.HasIndex i
  | .generic _ => True
  | .kBottom => False

def ValueType.canon (m : WasmModule) : ValueType → ValueType
  | .primitive kind => .primitive kind
  | .rtt i => .rtt (m.canonicalId i)
  | .ref h n => .ref (h.canon m) n

/-- The value types that may occur in a module: not bottom, and no index without a type. -/
def ValueType.ValidIn (m : WasmModule) : ValueType → Prop
  | .primitive kind => kind ≠ .kBottom
  | .rtt i => m.HasIndex i
  | .ref h _ => h.ValidIn m

/-- The subtype order on value types over canonical ids. -/
def Hierarchy.valueLe (H : Hierarchy) : ValueType → ValueType → Prop
  | .primitive kind, .primitive kind' => kind = kind'
  | .rtt c, .rtt d => c = d
  | .ref a n, .ref b n' => (n = .kNullable → n' = .kNullable) ∧ H.le a b
  | _, _ => False

variable {h h' : HeapType}

namespace Engine

section Subtypes
variable {w : Engine} (hw : Inv w)
include hw

section
variable (hm : w.decoded m = true)
include hm

theorem Inv.valid_canon (hv : h.ValidIn (w.modules m)) :
    (w.hierarchy hw).Valid (h.canon (w.modules m)) := by
  cases h with
  | index i => exact ⟨m, i, hm, hv.2, rfl⟩
  | generic g => trivial
  | kBottom => exact hv.elim

/-- The index walk decides the declared order. -/
theorem Inv.isCanonicalSubtype_spec (hi : (w.modules m).HasIndex i) (j : Nat)
    (m' : ModuleId) :
    ∃ b, w.isCanonicalSubtype i j m m' = some b ∧
      (b = true ↔ Forest.Up w.canonicalParent ((w.modules m).canonicalId i) ((w.modules m').canonicalId j)) := by
  have hc : w.IsDecodedId ((w.modules m).canonicalId i) := ⟨m, i, hm, hi.2, rfl⟩
  obtain ⟨n, _, hd, _⟩ := (hw.accepted hm).hasDepth i
  have hd' := (hw.embeds hm).hasDepth hi hd
  have hle := hd'.le_node (w.hierarchy hw).ok_parent (hw.canonicalParent_lt) hc
  have hlen := (hw.registered m).canonicalId_lt hw.canonical hi.2
  exact hw.isCanonicalSubtypeLoop_spec _ hd' hc (by omega)

/-- `IsHeapSubtypeOfImpl` decides the order of the hierarchy. -/
theorem Inv.isHeapSubtypeOfImpl_spec (hv : h.ValidIn (w.modules m))
    (hv' : h'.ValidIn (w.modules m')) :
    ∃ b, w.isHeapSubtypeOfImpl h h' m m' = some b ∧
      (b = true ↔ (w.hierarchy hw).le (h.canon (w.modules m)) (h'.canon (w.modules m'))) := by
  cases h with
  | kBottom => exact hv.elim
  | generic g =>
    cases h' with
    | kBottom => exact hv'.elim
    | generic g' =>
      refine ⟨decide (g.le g'), ?_, decide_eq_true_iff⟩
      cases g <;> cases g' <;> rfl
    | index j =>
      have hk := hw.kind_canonicalId hv'.2
      refine ⟨decide (g = ((w.hierarchy hw).kind ((w.modules m').canonicalId j)).null), ?_, decide_eq_true_iff⟩
      generalize (w.hierarchy hw).kind ((w.modules m').canonicalId j) = k at hk
      cases g <;> cases k <;> simp [isHeapSubtypeOfImpl, WasmModule.hasSignature, hk, TypeKind.null]
  | index i =>
    cases h' with
    | kBottom => exact hv'.elim
    | generic g =>
      have hk := hw.kind_canonicalId hv.2
      refine ⟨decide (((w.hierarchy hw).kind ((w.modules m).canonicalId i)).generic.le g), ?_, decide_eq_true_iff⟩
      generalize (w.hierarchy hw).kind ((w.modules m).canonicalId i) = k at hk
      cases g <;> cases k <;>
        simp [isHeapSubtypeOfImpl, isIndexSubtypeOfImpl, WasmModule.hasSignature, WasmModule.hasStruct,
          WasmModule.hasArray, hk, TypeKind.generic, GenericHeapType.le, GenericHeapType.supers]
    | index j =>
      by_cases heq : m = m' ∧ i = j
      · refine ⟨true, by simp [isHeapSubtypeOfImpl, isIndexSubtypeOfImpl, heq], ?_⟩
        obtain ⟨rfl, rfl⟩ := heq
        exact ⟨fun _ => Forest.Up.refl _, fun _ => rfl⟩
      · obtain ⟨b, hb, hiff⟩ := hw.isCanonicalSubtype_spec hm hv j m'
        exact ⟨b, by simpa [isHeapSubtypeOfImpl, isIndexSubtypeOfImpl, heq] using hb, hiff⟩

theorem Inv.valueLe_refl {t : ValueType} (hv : t.ValidIn (w.modules m)) :
    (w.hierarchy hw).valueLe (t.canon (w.modules m)) (t.canon (w.modules m)) := by
  cases t with
  | primitive kind => rfl
  | rtt i => rfl
  | ref h n => exact ⟨id, Hierarchy.le_refl (hw.valid_canon hm hv)⟩

/-- `IsSubtypeOf` decides the order of the hierarchy. -/
theorem Inv.isSubtypeOf_spec {t t' : ValueType}
    (hv : t.ValidIn (w.modules m)) (hv' : t'.ValidIn (w.modules m')) :
    ∃ b, w.isSubtypeOf t t' m m' = some b ∧
      (b = true ↔ (w.hierarchy hw).valueLe (t.canon (w.modules m)) (t'.canon (w.modules m'))) := by
  by_cases heq : t = t' ∧ m = m'
  · refine ⟨true, by simp [isSubtypeOf, heq], ?_⟩
    obtain ⟨rfl, rfl⟩ := heq
    exact ⟨fun _ => hw.valueLe_refl hm hv, fun _ => rfl⟩
  simp only [isSubtypeOf, if_neg heq]
  cases t with
  | primitive kind =>
    cases t' with
    | primitive kind' =>
      refine ⟨decide (kind = kind'), by simp [isSubtypeOfImpl], decide_eq_true_iff⟩
    | rtt j => exact ⟨false, by simp [isSubtypeOfImpl], by simp [ValueType.canon, Hierarchy.valueLe]⟩
    | ref h n => exact ⟨false, by simp [isSubtypeOfImpl], by simp [ValueType.canon, Hierarchy.valueLe]⟩
  | rtt i =>
    cases t' with
    | primitive kind => exact ⟨false, rfl, by simp [ValueType.canon, Hierarchy.valueLe]⟩
    | rtt j => exact ⟨_, rfl, decide_eq_true_iff⟩
    | ref h n => exact ⟨false, rfl, by simp [ValueType.canon, Hierarchy.valueLe]⟩
  | ref h n =>
    cases t' with
    | primitive kind => exact ⟨false, rfl, by simp [ValueType.canon, Hierarchy.valueLe]⟩
    | rtt j => exact ⟨false, rfl, by simp [ValueType.canon, Hierarchy.valueLe]⟩
    | ref h' n' =>
      by_cases hn : n = .kNullable → n' = .kNullable
      · have hheap : h.ValidIn (w.modules m) ∧ h'.ValidIn (w.modules m') := ⟨hv, hv'⟩
        obtain ⟨b, hb, hiff⟩ := hw.isHeapSubtypeOfImpl_spec hm hheap.1 hheap.2
        refine ⟨b, ?_, hiff.trans ⟨fun hle => ⟨hn, hle⟩, fun hle => hle.2⟩⟩
        cases n <;> cases n' <;> simp_all [isSubtypeOfImpl, ValueType.isNullable]
      · refine ⟨false, ?_, by simp only [Bool.false_eq_true, false_iff]; exact fun hle => hn hle.1⟩
        cases n <;> cases n' <;> simp_all [isSubtypeOfImpl, ValueType.isNullable]
end

end Subtypes

end Engine

theorem Hierarchy.valueLe_trans {H : Hierarchy} {a b c : ValueType} (ha : ∀ h n, a = .ref h n → H.Valid h)
    (hb : ∀ h n, b = .ref h n → H.Valid h) (hab : H.valueLe a b) (hbc : H.valueLe b c) : H.valueLe a c := by
  cases a <;> cases b <;> simp only [valueLe] at hab <;> cases c <;> simp only [valueLe] at hbc ⊢
  · exact hab.trans hbc
  · exact hab.trans hbc
  · exact ⟨fun h => hbc.1 (hab.1 h), le_trans (ha _ _ rfl) (hb _ _ rfl) hab.2 hbc.2⟩

/-! ## Unions -/

/-- The two heap types for which the table of common ancestors has no entry. -/
def HeapType.NoneWithStringView (h h' : HeapType) : Prop :=
  ∃ g g', h = .generic g ∧ h' = .generic g' ∧ Wasm.NoneWithStringView g g'

theorem HeapType.canon_eq_self {m : WasmModule} (hh : ∀ i, h ≠ .index i) : h.canon m = h := by
  cases h with
  | index i => exact absurd rfl (hh i)
  | generic g => rfl
  | kBottom => rfl

theorem HeapType.validIn_of_ne_index {m : WasmModule} (hh : ∀ i, h ≠ .index i) : h = .kBottom ∨ h.ValidIn m := by
  cases h with
  | index i => exact absurd rfl (hh i)
  | generic g => exact .inr trivial
  | kBottom => exact .inl rfl

theorem commonAncestorWithGeneric_ne_index (g h : GenericHeapType) (m : WasmModule) (i : Nat) :
    commonAncestorWithGeneric g (.generic h) m ≠ .index i := by
  cases g <;> cases h <;> simp [commonAncestorWithGeneric]

namespace Engine

section Unions
variable {w : Engine} (hw : Inv w)
include hw

/-- `CommonAncestor` ends and is the join of two indexed types. -/
theorem Inv.commonAncestor_spec (hm : w.decoded m = true) (hm' : w.decoded m' = true) {j : Nat}
    (hi : (w.modules m).HasIndex i) (hj : (w.modules m').HasIndex j) :
    ∃ r, w.commonAncestor i j m m' = some r ∧ (r = .kBottom ∨ r.ValidIn (w.modules m)) ∧
      (w.hierarchy hw).IsJoin (.index ((w.modules m).canonicalId i)) (.index ((w.modules m').canonicalId j))
        (r.canon (w.modules m)) := by
  obtain ⟨n, hn, hd, hdepth⟩ := (hw.accepted hm).hasDepth i
  obtain ⟨n', _, hd', hdepth'⟩ := (hw.accepted hm').hasDepth j
  have hsame : ∀ {i j}, (w.modules m).HasIndex i → (w.modules m').HasIndex j →
      (((i = j && m = m') || w.equivalentIndices i j m m') = true ↔
        (w.modules m).canonicalId i = (w.modules m').canonicalId j) := by
    intro i j _ _
    simp only [equivalentIndices, Bool.or_eq_true, Bool.and_eq_true, decide_eq_true_eq]
    refine ⟨?_, .inr⟩
    rintro (⟨rfl, rfl⟩ | h)
    · rfl
    · exact h
  have hlen := hi.2
  have hfuel : min n n' + 2 ≤ (w.modules m).types.length + 1 := by omega
  obtain ⟨r, hr, hleast, hV⟩ := Forest.meetUp_spec (hw.embeds hm) (hw.embeds hm') hsame hfuel hi hj
    ((hw.embeds hm).hasDepth hi hd) ((hw.embeds hm').hasDepth hj hd')
  have hk := hw.kind_canonicalId hi.2
  have hk' := hw.kind_canonicalId hj.2
  have hjoin := Hierarchy.isJoin_index (H := w.hierarchy hw) ⟨m, i, hm, hi.2, rfl⟩ hleast
  have hcomm : w.commonAncestor i j m m' = some ((r.map HeapType.index).getD
      (commonKind ((w.hierarchy hw).kind ((w.modules m).canonicalId i))
        ((w.hierarchy hw).kind ((w.modules m').canonicalId j)))) := by
    have hcast : ((n : Int) - n').toNat = n - n' ∧ ((n' : Int) - n).toNat = n' - n := by omega
    simp only [commonAncestor, hk, hk', hdepth, hdepth', hcast, hr]
    cases r <;> rfl
  refine ⟨_, hcomm, ?_, ?_⟩
  · cases r with
    | none =>
      apply HeapType.validIn_of_ne_index
      intro x
      simp only [commonKind_eq _ _ ⟨[], []⟩]
      exact commonAncestorWithGeneric_ne_index _ _ _ x
    | some x => exact .inr (hV x rfl)
  · cases r with
    | none =>
      rw [HeapType.canon_eq_self]
      · exact hjoin
      · intro x
        simp only [commonKind_eq _ _ ⟨[], []⟩]
        exact commonAncestorWithGeneric_ne_index _ _ _ x
    | some x => exact hjoin

/-- The table entry for a generic and an indexed type is their join. -/
theorem Inv.commonAncestorWithGeneric_spec (hm : w.decoded m = true) {g : GenericHeapType}
    (hi : (w.modules m).HasIndex i) :
    (commonAncestorWithGeneric g (.index i) (w.modules m) = .kBottom ∨
        (commonAncestorWithGeneric g (.index i) (w.modules m)).ValidIn (w.modules m)) ∧
      (w.hierarchy hw).IsJoin (.generic g) (.index ((w.modules m).canonicalId i))
        ((commonAncestorWithGeneric g (.index i) (w.modules m)).canon (w.modules m)) := by
  have hok : (w.hierarchy hw).ok ((w.modules m).canonicalId i) := ⟨m, i, hm, hi.2, rfl⟩
  rw [commonAncestorWithGeneric_index (hw.kind_canonicalId hi.2)]
  split
  · rename_i hg
    exact ⟨.inr hi, Hierarchy.isJoin_of_le hok hg⟩
  · rename_i hg
    have hne := commonAncestorWithGeneric_ne_index g
      ((w.hierarchy hw).kind ((w.modules m).canonicalId i)).generic (w.modules m)
    refine ⟨HeapType.validIn_of_ne_index hne, ?_⟩
    rw [HeapType.canon_eq_self hne]
    exact Hierarchy.isJoin_generic_index hok hg _

/-- The heap type of a union is the join, except for the missing entries. -/
theorem Inv.unionHeap_spec (hm : w.decoded m = true) (hm' : w.decoded m' = true)
    (hv : h.ValidIn (w.modules m)) (hv' : h'.ValidIn (w.modules m')) :
    ∃ r n, w.unionHeap h h' m m' = some (r, n) ∧ w.decoded n = true ∧ (r = .kBottom ∨ r.ValidIn (w.modules n)) ∧
      (h.NoneWithStringView h' → r = .kBottom) ∧
      (¬ h.NoneWithStringView h' → (w.hierarchy hw).IsJoin (h.canon (w.modules m)) (h'.canon (w.modules m'))
        (r.canon (w.modules n))) := by
  by_cases heq : h = h' ∧ m = m'
  · obtain ⟨rfl, rfl⟩ := heq
    refine ⟨h, m, by simp [unionHeap], hm, .inr hv, ?_, fun _ => ?_⟩
    · rintro ⟨g, g', rfl, hg', hnone⟩
      cases hg'
      revert hnone
      cases g <;> decide
    · have hvalid := hw.valid_canon hm hv
      exact Hierarchy.isJoin_of_le hvalid (Hierarchy.le_refl hvalid)
  cases h with
  | kBottom => exact hv.elim
  | generic g =>
    cases h' with
    | kBottom => exact hv'.elim
    | generic g' =>
      have hne := commonAncestorWithGeneric_ne_index g g' (w.modules m')
      refine ⟨_, m', by simp only [unionHeap, if_neg heq], hm', HeapType.validIn_of_ne_index hne, ?_, fun hnot => ?_⟩
      · rintro ⟨_, _, hg, hg', hnone⟩
        cases hg; cases hg'
        exact commonAncestorWithGeneric_noneWithStringView hnone _
      · rw [HeapType.canon_eq_self hne]
        exact Hierarchy.isJoin_generic (fun hnone => hnot ⟨g, g', rfl, rfl, hnone⟩) _
    | index j =>
      have hspec := hw.commonAncestorWithGeneric_spec (g := g) hm' hv'
      refine ⟨_, m', by simp only [unionHeap, if_neg heq], hm', hspec.1, ?_, fun _ => hspec.2⟩
      rintro ⟨_, _, _, hg', _⟩
      cases hg'
  | index i =>
    cases h' with
    | kBottom => exact hv'.elim
    | generic g =>
      have hspec := hw.commonAncestorWithGeneric_spec (g := g) hm hv
      refine ⟨_, m, by simp only [unionHeap, if_neg heq], hm, hspec.1, ?_, fun _ => hspec.2.symm⟩
      rintro ⟨_, _, hg, _⟩
      cases hg
    | index j =>
      obtain ⟨r, hr, hvr, hjoin⟩ := hw.commonAncestor_spec hm hm' hv hv'
      refine ⟨r, m, by simp only [unionHeap, if_neg heq, hr, Option.map_some], hm, hvr, ?_, fun _ => hjoin⟩
      rintro ⟨_, _, hg, _⟩
      cases hg
end Unions

/-- Types that are no references are equivalent when they are the same type. -/
theorem equivalentTypes_iff (w : Engine) (m m' : ModuleId) {t t' : ValueType}
    (href : t.isObjectReference = false ∨ t'.isObjectReference = false) :
    w.equivalentTypes t t' m m' = true ↔ t.canon (w.modules m) = t'.canon (w.modules m') := by
  by_cases heq : t = t' ∧ m = m'
  · obtain ⟨rfl, rfl⟩ := heq
    simp [equivalentTypes]
  · simp only [equivalentTypes, if_neg heq]
    cases t with
    | primitive kind => cases t' <;> simp [ValueType.refIndex?, ValueType.canon]
    | rtt i =>
      cases t' with
      | primitive kind => simp [ValueType.refIndex?, ValueType.canon]
      | rtt j => simp [ValueType.refIndex?, ValueType.canon, ValueType.kind, equivalentIndices]
      | ref h n => cases h <;> cases n <;> simp [ValueType.refIndex?, ValueType.canon, ValueType.kind]
    | ref h n =>
      cases t' with
      | primitive kind => cases h <;> simp [ValueType.refIndex?, ValueType.canon]
      | rtt j => cases h <;> cases n <;> simp [ValueType.refIndex?, ValueType.canon, ValueType.kind]
      | ref h' n' => simp [ValueType.isObjectReference] at href
end Engine

@[simp] theorem ValueType.isObjectReference_canon (m : WasmModule) (t : ValueType) :
    (t.canon m).isObjectReference = t.isObjectReference := by
  cases t <;> rfl

/-- A type that is no reference has no other subtypes or supertypes. -/
theorem Hierarchy.valueLe_eq {H : Hierarchy} {a c : ValueType}
    (hac : a.isObjectReference = false ∨ c.isObjectReference = false) (h : H.valueLe a c) : a = c := by
  cases a <;> cases c <;> simp_all [valueLe, ValueType.isObjectReference]

/-- Of two types that are not both references, each comparable to a third, the one that is none fixes the others. -/
theorem Hierarchy.eq_of_comparable {H : Hierarchy} {a b v : ValueType}
    (href : a.isObjectReference = false ∨ b.isObjectReference = false) (ha : H.valueLe a v ∨ H.valueLe v a)
    (hb : H.valueLe b v ∨ H.valueLe v b) : a = b := by
  have heq {a : ValueType} (h : a.isObjectReference = false ∨ v.isObjectReference = false)
      (ha : H.valueLe a v ∨ H.valueLe v a) : a = v :=
    ha.elim (valueLe_eq h) fun hva => (valueLe_eq h.symm hva).symm
  rcases href with h | h
  · obtain rfl := heq (.inl h) ha
    exact (heq (.inr h) hb).symm
  · obtain rfl := heq (.inl h) hb
    exact heq (.inr h) ha

/-- A type of a decoded module. -/
structure Engine.DecodedType (w : Engine) where
  type : ValueType
  module : ModuleId
  decoded : w.decoded module = true
  valid : type.ValidIn (w.modules module)

namespace Engine.DecodedType

variable {w : Engine}

/-- `t` is a subtype of `u`, as the code answers. -/
def Sub (t u : w.DecodedType) : Prop := w.isSubtypeOf t.type u.type t.module u.module = some true

/-- The type with canonical ids. -/
def canon (t : w.DecodedType) : ValueType := t.type.canon (w.modules t.module)

theorem sub_iff (hw : Inv w) (t u : w.DecodedType) : t.Sub u ↔ (w.hierarchy hw).valueLe t.canon u.canon := by
  obtain ⟨b, hb, hiff⟩ := hw.isSubtypeOf_spec t.decoded t.valid u.valid
  rw [Sub, hb, Option.some_inj]
  exact hiff

variable {t u : w.DecodedType}

theorem heap_valid {h : HeapType} {n : Nullability} (ht : t.type = .ref h n) : h.ValidIn (w.modules t.module) := by
  simpa [ht, ValueType.ValidIn] using t.valid

theorem Sub.trans (hw : Inv w) {v : w.DecodedType} (h : t.Sub u) (h' : u.Sub v) : t.Sub v := by
  rw [sub_iff hw] at h h' ⊢
  have hvalid : ∀ (t : w.DecodedType) h n, t.canon = .ref h n → (w.hierarchy hw).Valid h := by
    rintro ⟨type, module, hdec, hval⟩ h n heq
    cases type with
    | primitive kind => cases heq
    | rtt i => cases heq
    | ref h' n' =>
      cases heq
      exact hw.valid_canon hdec hval
  exact Hierarchy.valueLe_trans (hvalid t) (hvalid u) h h'

/-- `r` is the union of `t` and `u`: their least common supertype, or bottom if they have none. -/
def IsUnion (t u : w.DecodedType) (r : TypeInModule) : Prop :=
  (r.type = .kWasmBottom ∧ ∀ v : w.DecodedType, t.Sub v → u.Sub v → False) ∨
    ∃ v : w.DecodedType, r = ⟨v.type, v.module⟩ ∧ t.Sub v ∧ u.Sub v ∧ ∀ x : w.DecodedType, t.Sub x → u.Sub x → v.Sub x

/-- References to the null type and to a string view. -/
def NoneWithStringView (t u : w.DecodedType) : Prop :=
  ∃ h n h' n', t.type = .ref h n ∧ u.type = .ref h' n' ∧ h.NoneWithStringView h'

/-- Types that are not both references. -/
theorem union_not_ref (hw : Inv w) (t u : w.DecodedType)
    (href : t.type.isObjectReference = false ∨ u.type.isObjectReference = false) :
    ∃ r, w.union t.type u.type t.module u.module = some r ∧ t.IsUnion u r := by
  have hunion : w.union t.type u.type t.module u.module =
      some ⟨if w.equivalentTypes t.type u.type t.module u.module then t.type else .kWasmBottom, t.module⟩ := by
    unfold union
    split
    · simp_all [ValueType.isObjectReference]
    · rfl
  have hequiv := equivalentTypes_iff w t.module u.module href
  refine ⟨_, hunion, ?_⟩
  by_cases heq : t.type.canon (w.modules t.module) = u.type.canon (w.modules u.module)
  · have hle := hw.valueLe_refl t.decoded t.valid
    refine .inr ⟨t, by simp [hequiv.2 heq], (sub_iff hw t t).2 hle, (sub_iff hw u t).2 ?_, fun x hx _ => hx⟩
    rw [canon, ← heq]
    exact hle
  · refine .inl ⟨by simp [mt hequiv.1 heq], fun v htv huv => heq ?_⟩
    rw [sub_iff hw] at htv huv
    exact Hierarchy.eq_of_comparable (by simpa using href) (.inl htv) (.inl huv)

/-- A supertype of a reference is a reference that may be null if the subtype may. -/
theorem sub_ref (hw : Inv w) {v : w.DecodedType} (ht : t.type = .ref h n) :
    t.Sub v ↔ ∃ h' n', v.type = .ref h' n' ∧ (n = .kNullable → n' = .kNullable) ∧
      (w.hierarchy hw).le (h.canon (w.modules t.module)) (h'.canon (w.modules v.module)) := by
  rw [sub_iff hw, canon, canon, ht]
  cases hv : v.type with
  | primitive kind => simp [ValueType.canon, Hierarchy.valueLe]
  | rtt i => simp [ValueType.canon, Hierarchy.valueLe]
  | ref h' n' => simp [ValueType.canon, Hierarchy.valueLe]

/-- References whose heap types have a join. -/
theorem isUnion_of_isJoin (hw : Inv w) {r : HeapType} {n' : Nullability}
    (ht : t.type = .ref h n) (hu : u.type = .ref h' n') (hm : w.decoded m = true)
    (hr : r = .kBottom ∨ r.ValidIn (w.modules m))
    (hjoin : (w.hierarchy hw).IsJoin (h.canon (w.modules t.module)) (h'.canon (w.modules u.module)) (r.canon (w.modules m))) :
    t.IsUnion u ⟨if r = .kBottom then .kWasmBottom else
      .refMaybeNull r (if n = .kNullable ∨ n' = .kNullable then .kNullable else .kNonNullable), m⟩ := by
  rcases hjoin with ⟨hbot, hnone⟩ | ⟨hvalid, hle, hle', hleast⟩
  · have hrbot : r = .kBottom := by cases r <;> simp_all [HeapType.canon]
    refine .inl ⟨if_pos hrbot, fun v htv huv => ?_⟩
    obtain ⟨h1, _, hv1, _, hle1⟩ := (sub_ref hw ht).1 htv
    obtain ⟨h2, _, hv2, _, hle2⟩ := (sub_ref hw hu).1 huv
    cases hv1.symm.trans hv2
    exact hnone _ hle1 hle2
  · have hrne : r ≠ .kBottom := by
      rintro rfl
      exact hvalid
    have hrvalid := hr.resolve_left hrne
    let v : w.DecodedType :=
      ⟨.ref r (if n = .kNullable ∨ n' = .kNullable then .kNullable else .kNonNullable), m, hm, hrvalid⟩
    refine .inr ⟨v, by simp [hrne, v, ValueType.refMaybeNull], (sub_ref hw ht).2 ⟨r, _, rfl, ?_, hle⟩,
      (sub_ref hw hu).2 ⟨r, _, rfl, ?_, hle'⟩, fun x htx hux => ?_⟩
    · intro hn
      simp [hn]
    · intro hn
      simp [hn]
    · obtain ⟨h1, n1, hx1, hn1, hle1⟩ := (sub_ref hw ht).1 htx
      obtain ⟨h2, n2, hx2, hn2, hle2⟩ := (sub_ref hw hu).1 hux
      cases hx1.symm.trans hx2
      refine (sub_ref hw (t := v) rfl).2 ⟨h1, n1, hx1, fun hn => ?_, hleast _ hle1 hle2⟩
      by_cases hnull : n = .kNullable ∨ n' = .kNullable
      · exact hnull.elim hn1 hn2
      · simp [hnull] at hn

theorem union_ref (hw : Inv w) {n' : Nullability} (ht : t.type = .ref h n)
    (hu : u.type = .ref h' n') :
    (∃ r, w.union t.type u.type t.module u.module = some r ∧ t.IsUnion u r) ↔ ¬ h.NoneWithStringView h' := by
  have hvt := heap_valid ht
  have hvu := heap_valid hu
  obtain ⟨r, m, hr, hm, hvalid, hbot, hjoin⟩ := hw.unionHeap_spec t.decoded u.decoded hvt hvu
  have hunion : w.union t.type u.type t.module u.module = some ⟨if r = .kBottom then .kWasmBottom else
      .refMaybeNull r (if n = .kNullable ∨ n' = .kNullable then .kNullable else .kNonNullable), m⟩ := by
    simp [union, ht, hu, hr]
  constructor
  · rintro ⟨_, hr', hisUnion⟩ hnone
    cases hunion.symm.trans hr'
    rw [if_pos (hbot hnone)] at hisUnion
    obtain ⟨g, g', rfl, rfl, hgg'⟩ := hnone
    obtain ⟨s, hs, hs'⟩ := noneWithStringView_le hgg'
    rcases hisUnion with ⟨_, hno⟩ | ⟨v, hv, _⟩
    · -- the nullable reference to the string view is above both
      let v : w.DecodedType := ⟨.ref (.generic s) .kNullable, t.module, t.decoded, trivial⟩
      exact hno v ((sub_ref hw ht).2 ⟨.generic s, .kNullable, rfl, fun _ => rfl, hs⟩)
        ((sub_ref hw hu).2 ⟨.generic s, .kNullable, rfl, fun _ => rfl, hs'⟩)
    · have hval := v.valid
      rw [← (TypeInModule.mk.inj hv).1] at hval
      exact hval rfl
  · intro hnot
    exact ⟨_, hunion, isUnion_of_isJoin hw ht hu hm hvalid (hjoin hnot)⟩

end Engine.DecodedType

open Engine in
/-- In every state of the process, on the types of its decoded modules: `IsSubtypeOf` answers, is
reflexive and transitive, and `Union` is the least common supertype, bottom only if there is none,
exactly when its arguments are not the null type and a string view. -/
theorem subtyping_union_iff {w : Engine} (hw : Reachable w) :
    (∀ t u : w.DecodedType, ∃ b, w.isSubtypeOf t.type u.type t.module u.module = some b) ∧
    (∀ t : w.DecodedType, t.Sub t) ∧ (∀ t u v : w.DecodedType, t.Sub u → u.Sub v → t.Sub v) ∧
    ∀ t u : w.DecodedType,
      (∃ r, w.union t.type u.type t.module u.module = some r ∧ t.IsUnion u r) ↔ ¬ t.NoneWithStringView u := by
  have hinv := hw.inv
  refine ⟨fun t u => ?_, fun t => ?_, fun t u v => DecodedType.Sub.trans hinv, fun t u => ?_⟩
  · obtain ⟨b, hb, _⟩ := hinv.isSubtypeOf_spec t.decoded t.valid u.valid
    exact ⟨b, hb⟩
  · exact (DecodedType.sub_iff hinv t t).2 (hinv.valueLe_refl t.decoded t.valid)
  · by_cases href : t.type.isObjectReference = false ∨ u.type.isObjectReference = false
    · refine iff_of_true (DecodedType.union_not_ref hinv t u href) ?_
      rintro ⟨h, n, h', n', ht, hu, _⟩
      simp [ht, hu, ValueType.isObjectReference] at href
    · obtain ⟨⟨h, n, ht⟩, ⟨h', n', hu⟩⟩ : (∃ h n, t.type = .ref h n) ∧ ∃ h n, u.type = .ref h n := by
        rcases not_or.1 href with ⟨ht, hu⟩
        constructor
        · cases hcase : t.type <;> simp_all [ValueType.isObjectReference]
        · cases hcase : u.type <;> simp_all [ValueType.isObjectReference]
      rw [DecodedType.union_ref hinv ht hu]
      refine not_congr ⟨fun hnone => ⟨h, n, h', n', ht, hu, hnone⟩, ?_⟩
      rintro ⟨_, _, _, _, ht', hu', hnone⟩
      cases ht.symm.trans ht'
      cases hu.symm.trans hu'
      exact hnone

/-- A process with one decoded module: a struct type and a declared subtype of it. -/
def twoStructs : Engine :=
  (Engine.initial.step (.recGroup 0 [⟨.struct [], none, false⟩, ⟨.struct [(.primitive .kI32, true)], some 0, false⟩])).step
    (.finish 0)

/-- A reference to one of the two structs. -/
def twoStructs.ref (i : Nat) (n : Nullability) (hi : (twoStructs.modules 0).HasIndex i) : twoStructs.DecodedType :=
  ⟨.ref (.index i) n, 0, by decide, hi⟩

theorem subtyping_union_iff_two_structs :
    ∃ r, twoStructs.union (.ref (.index 1) .kNonNullable) (.ref (.index 0) .kNullable) 0 0 = some r ∧
      (twoStructs.ref 1 .kNonNullable ⟨by decide, by decide⟩).IsUnion
        (twoStructs.ref 0 .kNullable ⟨by decide, by decide⟩) r := by
  refine ((subtyping_union_iff (.step _ (.step _ .initial))).2.2.2 (twoStructs.ref 1 .kNonNullable _)
    (twoStructs.ref 0 .kNullable _)).2 ?_
  rintro ⟨h, n, h', n', ht, _, g, g', hg, _⟩
  cases ht
  cases hg

open Engine in
/-- The union of `nullref` and a string view is bottom although the null type is a subtype of the view. -/
theorem union_nullref_stringView :
    Reachable (initial.step (.finish 0)) ∧ (initial.step (.finish 0)).decoded 0 = true ∧
    (initial.step (.finish 0)).union (.ref (.generic .kNone) .kNullable) (.ref (.generic .kStringViewWtf8) .kNullable) 0 0 =
      some ⟨.kWasmBottom, 0⟩ ∧
    (initial.step (.finish 0)).isSubtypeOf (.ref (.generic .kNone) .kNullable) (.ref (.generic .kStringViewWtf8) .kNullable)
      0 0 = some true ∧
    (initial.step (.finish 0)).isSubtypeOf (.ref (.generic .kStringViewWtf8) .kNullable)
      (.ref (.generic .kStringViewWtf8) .kNullable) 0 0 = some true :=
  ⟨.step _ .initial, by decide, by decide, by decide, by decide⟩

end V8Core.Wasm
