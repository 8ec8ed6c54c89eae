import V8Core.Wasm.Subtyping

/-!
# Modules of the process

The type section of a module (`DecodeTypeSection` of `wasm/module-decoder-impl.h`)
registers its groups one after the other and then checks all declared supertypes.
A state of the process is reached by any interleaving of the groups of any modules,
of signatures that the embedder registers, and of the final checks; a module that
passes its check is decoded and does not change any more.

Without the gc proposal all types are functions without supertypes, registered as
groups of one type.
-/

namespace V8Core.Wasm

namespace Engine

/-- The check of one declared supertype. -/
def checkSupertype (w : Engine) (m : ModuleId) (i : Nat) : Option Bool :=
  match (w.modules m).supertype i with
  | none => some true
  | some explicitSuper =>
    match (w.modules m).types[i]?, (w.modules m).types[explicitSuper]? with
    | some subtype, some supertype =>
      if explicitSuper ≥ i then some false
      else if getSubtypingDepth (w.modules m) i > kV8MaxRttSubtypingDepth then some false
      else w.validSubtypeDefinition subtype supertype m
    | _, _ => some false

/-- The checks of all declared supertypes, up to the first error. -/
def checkSupertypes (w : Engine) (m : ModuleId) : Option Bool :=
  (List.range (w.modules m).types.length).allM (w.checkSupertype m)

end Engine

/-- What can happen in the process: a group or a single type of a module, a signature, the end of
a type section. -/
inductive Event
  | recGroup (m : ModuleId) (defs : List TypeDefinition)
  | singleType (m : ModuleId) (type : TypeDefinition)
  | signature (returns parameters : List ValueType) (isFinal : Bool)
  | finish (m : ModuleId)

namespace Engine

def step (w : Engine) : Event → Engine
  | .recGroup m defs =>
    if w.decoded m ∨ (w.modules m).types.length + defs.length > kV8MaxWasmTypes then w
    else w.addRecursiveGroup m defs
  | .singleType m type => if w.decoded m then w else w.addRecursiveGroup m [type]
  | .signature returns parameters isFinal => (w.addSignature returns parameters isFinal).2
  | .finish m =>
    if w.checkSupertypes m = some true then { w with decoded := Function.update w.decoded m true } else w

/-- The states of the process. -/
inductive Reachable : Engine → Prop
  | initial : Reachable initial
  | step {w : Engine} (e : Event) : Reachable w → Reachable (w.step e)

end Engine

/-! ## Modules that passed the check -/

/-- The declared supertypes of a module that passed its check. -/
structure WasmModule.Accepted (m : WasmModule) : Prop where
  supertype_lt : ∀ {i s}, m.supertype i = some s → s < i
  kindOf_supertype : ∀ {i s}, m.supertype i = some s → m.kindOf s = m.kindOf i
  depth_le : ∀ i, getSubtypingDepth m i ≤ kV8MaxRttSubtypingDepth

namespace WasmModule

variable {m : WasmModule}

theorem lt_of_supertype {i s : Nat} (h : m.supertype i = some s) : i < m.types.length := by
  by_contra hi
  simp [supertype, List.getElem?_eq_none (Nat.le_of_not_lt hi)] at h

section
variable (h : ∀ {i s}, m.supertype i = some s → s < i)
include h

/-- With supertypes before their subtypes, every chain ends. -/
theorem hasDepth_of_lt (i : Nat) :
    ∃ n, n ≤ i ∧ Forest.HasDepth m.supertype i n := by
  induction i using Nat.strong_induction_on with
  | _ i ih =>
    cases hs : m.supertype i with
    | none => exact ⟨0, Nat.zero_le _, .root hs⟩
    | some s =>
      obtain ⟨n, hn, hd⟩ := ih s (h hs)
      exact ⟨n + 1, Nat.lt_of_le_of_lt hn (h hs), .step hs hd⟩

theorem getSubtypingDepthLoop_eq {start i n : Nat}
    (hd : Forest.HasDepth m.supertype i n) (hi : i ≤ start) (left : Nat) (depth : Int) :
    getSubtypingDepthLoop m start left i depth = depth + min n left := by
  induction hd generalizing left depth with
  | root hs => cases left <;> simp [getSubtypingDepthLoop, hs]
  | @step a b n hs hd ih =>
    cases left with
    | zero => simp [getSubtypingDepthLoop]
    | succ left =>
      have hlt := h hs
      simp only [getSubtypingDepthLoop, hs, if_neg (show b ≠ start by omega)]
      rw [ih (by omega)]
      omega

/-- The computed depth is the length of the chain, up to the limit. -/
theorem getSubtypingDepth_eq {i n : Nat}
    (hd : Forest.HasDepth m.supertype i n) : getSubtypingDepth m i = min n (kV8MaxRttSubtypingDepth + 1) := by
  rw [getSubtypingDepth, getSubtypingDepthLoop_eq h hd (Nat.le_refl i)]
  simp

end

/-- In an accepted module the computed depths are exact. -/
theorem Accepted.hasDepth (h : m.Accepted) (i : Nat) :
    ∃ n : Nat, n ≤ i ∧ Forest.HasDepth m.supertype i n ∧ getSubtypingDepth m i = n := by
  obtain ⟨n, hn, hd⟩ := hasDepth_of_lt h.supertype_lt i
  have hdepth := getSubtypingDepth_eq h.supertype_lt hd
  have hle := h.depth_le i
  refine ⟨n, hn, hd, ?_⟩
  omega

end WasmModule

theorem allM_eq_some_true {α : Type} {p : α → Option Bool} {l : List α} (h : l.allM p = some true) :
    ∀ x ∈ l, p x = some true := by
  induction l with
  | nil => simp
  | cons a l ih =>
    intro x hx
    cases hp : p a with
    | none => simp [hp] at h
    | some b =>
      cases b with
      | false => simp [hp] at h
      | true =>
        rcases List.mem_cons.1 hx with rfl | hx
        · exact hp
        · exact ih (by simpa [hp] using h) x hx

namespace Engine

variable {w : Engine} {m : ModuleId}

theorem validSubtypeDefinition_kind {subtype supertype : TypeDefinition}
    (h : w.validSubtypeDefinition subtype supertype m = some true) : supertype.body.kind = subtype.body.kind := by
  unfold validSubtypeDefinition at h
  split at h
  · simp at h
  · split at h
    · simp_all [TypeBody.kind]
    · simp_all [TypeBody.kind]
    · simp_all [TypeBody.kind]
    · simp at h

/-- What the check of one type has established. -/
theorem checkSupertype_spec {i s : Nat} (h : w.checkSupertype m i = some true)
    (hs : (w.modules m).supertype i = some s) :
    s < i ∧ (w.modules m).kindOf s = (w.modules m).kindOf i ∧
      getSubtypingDepth (w.modules m) i ≤ kV8MaxRttSubtypingDepth := by
  unfold checkSupertype at h
  simp only [hs] at h
  split at h
  · rename_i subtype supertype hsub hsuper
    split at h
    · simp at h
    · rename_i hlt
      split at h
      · simp at h
      · rename_i hdepth
        refine ⟨Nat.lt_of_not_ge hlt, ?_, Int.not_lt.1 hdepth⟩
        simp [WasmModule.kindOf, hsub, hsuper, validSubtypeDefinition_kind h]
  · simp at h

theorem checkSupertypes_accepted (h : w.checkSupertypes m = some true) :
    (w.modules m).Accepted := by
  have hcheck : ∀ {i s}, (w.modules m).supertype i = some s → w.checkSupertype m i = some true := by
    intro i s hs
    exact allM_eq_some_true h i (List.mem_range.2 (WasmModule.lt_of_supertype hs))
  refine ⟨fun hs => (checkSupertype_spec (hcheck hs) hs).1, fun hs => (checkSupertype_spec (hcheck hs) hs).2.1, ?_⟩
  intro i
  cases hs : (w.modules m).supertype i with
  | none => simp [getSubtypingDepth, getSubtypingDepthLoop, hs, kV8MaxRttSubtypingDepth]
  | some s => exact (checkSupertype_spec (hcheck hs) hs).2.2

/-! ## Invariant of the process -/

/-- Every module is registered, and the decoded ones are accepted. -/
structure Inv (w : Engine) : Prop extends WellFormed w where
  accepted : ∀ {m}, w.decoded m = true → (w.modules m).Accepted

theorem addRecursiveGroup_inv (hw : Inv w) (hm : w.decoded m = false)
    (defs : List TypeDefinition) : Inv (w.addRecursiveGroup m defs) := by
  obtain ⟨_, _, _, hmod, hdec⟩ := canonicalize_spec hw.canonical _ (hw.absolute_lt m defs)
  refine ⟨addRecursiveGroup_wellFormed hw.toWellFormed m defs, fun {m'} hm' => ?_⟩
  have hm'' : w.decoded m' = true := by
    rw [← hdec]
    exact hm'
  have hne : m' ≠ m := by
    rintro rfl
    rw [hm] at hm''
    cases hm''
  simp only [addRecursiveGroup, Function.update_of_ne hne, hmod]
  exact hw.accepted hm''

theorem step_inv (hw : Inv w) (e : Event) : Inv (w.step e) := by
  cases e with
  | recGroup m defs =>
    simp only [step]
    split
    · exact hw
    · rename_i h
      exact addRecursiveGroup_inv hw (by simpa using (not_or.1 h).1) defs
  | singleType m type =>
    simp only [step]
    split
    · exact hw
    · rename_i h
      exact addRecursiveGroup_inv hw (by simpa using h) [type]
  | signature returns parameters isFinal =>
    obtain ⟨_, _, _, hmod, hdec⟩ := canonicalize_spec hw.canonical
      [⟨.function (returns.map ValueType.bitField) (parameters.map ValueType.bitField), none, isFinal, false⟩]
      (by simp)
    refine ⟨addSignature_wellFormed hw.toWellFormed returns parameters isFinal, fun {m} hm => ?_⟩
    simp only [step, addSignature] at hm ⊢
    rw [hmod]
    rw [hdec] at hm
    exact hw.accepted hm
  | finish m =>
    simp only [step]
    split
    · rename_i h
      refine ⟨⟨⟨hw.canonical.supertypes, hw.canonical.absolute, hw.canonical.kinds⟩, fun m' => ?_⟩, fun {m'} hm' => ?_⟩
      · exact (hw.registered m').mono (fun _ he => he)
      · by_cases heq : m' = m
        · subst heq
          exact checkSupertypes_accepted h
        · simp only [Function.update_of_ne heq] at hm'
          exact hw.accepted hm'
    · exact hw

theorem Reachable.inv (hw : Reachable w) : Inv w := by
  induction hw with
  | initial => exact ⟨initial_wellFormed, fun h => by simp [Engine.initial] at h⟩
  | step e _ ih => exact step_inv ih e

end Engine

end V8Core.Wasm
