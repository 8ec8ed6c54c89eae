import Mathlib.Logic.Relation
import Mathlib.Data.Finset.Card
import Mathlib.Data.Nat.Find
import Mathlib.Data.Option.Basic
import Mathlib.Tactic.Common

/-!
# Forests given by a parent function

A forest is a function `parent : α → Option α`. `Up parent a b` says that `b` is
`a` or one of its ancestors, `HasDepth parent a n` that the chain from `a` ends
after `n` steps.

The least common ancestor of two nodes is found by climbing from the deeper one
to the depth of the other and then from both at once (`climb`, `walk`). The two
nodes may come from two other forests that are mapped into the first one
(`Embeds`); `meetUp_spec` is the correctness of the whole walk.
-/

namespace Forest

variable {α β γ : Type}
variable {b : β} {c : α} {fuel : Nat} {a : α} {n : Nat}

/-- `b` is `a` or an ancestor of `a`. -/
def Up (parent : α → Option α) : α → α → Prop :=
  Relation.ReflTransGen (fun x y => parent x = some y)

/-- The chain of parents of `a` ends after `n` steps. -/
inductive HasDepth (parent : α → Option α) : α → Nat → Prop
  | root {a : α} : parent a = none → HasDepth parent a 0
  | step {a b : α} {n : Nat} : parent a = some b → HasDepth parent b n → HasDepth parent a (n + 1)

variable {m : Nat} {same : β → γ → Bool}

section Chains
variable {parent : α → Option α}

theorem Up.refl (a : α) : Up parent a a := Relation.ReflTransGen.refl

theorem Up.trans {b : α} (h : Up parent a b) (h' : Up parent b c) : Up parent a c :=
  Relation.ReflTransGen.trans h h'

theorem Up.head {b : α} (h : parent a = some b) (hup : Up parent b c) : Up parent a c :=
  Relation.ReflTransGen.head h hup

/-- An ancestor of `a` is `a` itself or an ancestor of its parent. -/
theorem Up.cases (h : Up parent a c) : a = c ∨ ∃ b, parent a = some b ∧ Up parent b c :=
  Relation.ReflTransGen.cases_head h

/-- Two ancestors of a node are on one chain. -/
theorem Up.total {b : α} (h : Up parent a b) (h' : Up parent a c) : Up parent b c ∨ Up parent c b :=
  Relation.ReflTransGen.total_of_right_unique (fun _ _ _ hb hc => Option.some.inj (hb.symm.trans hc)) h h'

theorem HasDepth.unique (hn : HasDepth parent a n) (hm : HasDepth parent a m) : n = m := by
  induction hn generalizing m with
  | root h =>
    cases hm with
    | root _ => rfl
    | step h' _ => rw [h] at h'; cases h'
  | step h _ ih =>
    cases hm with
    | root h' => rw [h] at h'; cases h'
    | step h' hm =>
      rw [h] at h'
      cases h'
      rw [ih hm]

/-- The node `n` steps up. -/
def ancestor (parent : α → Option α) : Nat → α → Option α
  | 0, a => some a
  | n + 1, a => (parent a).bind (ancestor parent n)

theorem ancestor_add (m n : Nat) (a : α) : ancestor parent (m + n) a = (ancestor parent m a).bind (ancestor parent n) := by
  induction m generalizing a with
  | zero => simp [ancestor]
  | succ m ih =>
    rw [Nat.succ_add, ancestor, ancestor, Option.bind_assoc]
    congr 1
    funext b
    exact ih b

theorem up_iff_ancestor {b : α} : Up parent a b ↔ ∃ n, ancestor parent n a = some b := by
  constructor
  · intro h
    induction h using Relation.ReflTransGen.head_induction_on with
    | refl => exact ⟨0, rfl⟩
    | head hab _ ih =>
      obtain ⟨n, hn⟩ := ih
      exact ⟨n + 1, by rw [ancestor, hab]; exact hn⟩
  · rintro ⟨n, hn⟩
    induction n generalizing a with
    | zero =>
      cases hn
      exact Up.refl b
    | succ n ih =>
      obtain ⟨c, hc, hcb⟩ := Option.bind_eq_some_iff.1 hn
      exact Up.head hc (ih hcb)

/-- In a table of `len` nodes an ancestor is less than `len` steps away, also if there are circles. -/
theorem Up.exists_ancestor_lt {parent : Nat → Option Nat} {len : Nat} (hlen : ∀ {a b}, parent a = some b → a < len) {a b : Nat}
    (hb : b < len) (h : Up parent a b) : ∃ n < len, ancestor parent n a = some b := by
  classical
  have hex := up_iff_ancestor.1 h
  obtain ⟨hn, hmin⟩ : ancestor parent (Nat.find hex) a = some b ∧ ∀ m < Nat.find hex, ancestor parent m a ≠ some b :=
    ⟨Nat.find_spec hex, fun m hm => Nat.find_min hex hm⟩
  generalize Nat.find hex = n at hn hmin
  refine ⟨n, ?_, hn⟩
  -- the nodes on the shortest way are different
  have hstep : ∀ i ≤ n, ∃ c < len, ancestor parent i a = some c := by
    intro i hi
    obtain ⟨j, rfl⟩ := Nat.exists_eq_add_of_le hi
    rw [ancestor_add] at hn
    obtain ⟨c, hc, hcb⟩ := Option.bind_eq_some_iff.1 hn
    refine ⟨c, ?_, hc⟩
    cases j with
    | zero =>
      cases hcb
      exact hb
    | succ j =>
      obtain ⟨d, hd, _⟩ := Option.bind_eq_some_iff.1 hcb
      exact hlen hd
  have hne : ∀ i j, i < j → j ≤ n → ancestor parent i a ≠ ancestor parent j a := by
    intro i j hij hj heq
    apply hmin (i + (n - j)) (by omega)
    rw [ancestor_add, heq, ← ancestor_add, Nat.add_sub_cancel' hj]
    exact hn
  choose! f hf using hstep
  have hcard := Finset.card_le_card_of_injOn (s := Finset.range (n + 1)) (t := Finset.range len) f
    (fun i hi => by simpa using (hf i (by simpa [Nat.lt_succ_iff] using hi)).1) (by
      intro i hi j hj hfij
      have hi' : i ≤ n := by simpa [Nat.lt_succ_iff] using hi
      have hj' : j ≤ n := by simpa [Nat.lt_succ_iff] using hj
      have heq : ancestor parent i a = ancestor parent j a := by rw [(hf i hi').2, (hf j hj').2, hfij]
      rcases Nat.lt_trichotomy i j with hlt | heq' | hlt
      · exact (hne i j hlt hj' heq).elim
      · exact heq'
      · exact (hne j i hlt hi' heq.symm).elim)
  simpa [Nat.succ_le_iff] using hcard

theorem hasDepth_of_ancestor_eq_none (h : ancestor parent n a = none) : ∃ m, HasDepth parent a m := by
  induction n generalizing a with
  | zero => cases h
  | succ n ih =>
    cases hp : parent a with
    | none => exact ⟨0, .root hp⟩
    | some b =>
      rw [ancestor, hp] at h
      obtain ⟨m, hm⟩ := ih h
      exact ⟨m + 1, .step hp hm⟩

theorem HasDepth.exists_root (h : HasDepth parent a n) : ∃ r, ancestor parent n a = some r ∧ parent r = none := by
  induction h with
  | root h => exact ⟨_, rfl, h⟩
  | step h _ ih =>
    obtain ⟨r, hr, hroot⟩ := ih
    exact ⟨r, by rw [ancestor, h]; exact hr, hroot⟩

theorem hasDepth_of_ancestor_root {r : α} (h : ancestor parent n a = some r) (hroot : parent r = none) :
    HasDepth parent a n := by
  induction n generalizing a with
  | zero =>
    cases h
    exact .root hroot
  | succ n ih =>
    obtain ⟨b, hb, hr⟩ := Option.bind_eq_some_iff.1 h
    exact .step hb (ih hr)

theorem transGen_of_ancestor {b : α} (h : ancestor parent (n + 1) a = some b) :
    Relation.TransGen (fun x y => parent x = some y) a b := by
  obtain ⟨c, hc, hcb⟩ := Option.bind_eq_some_iff.1 h
  exact Relation.TransGen.head' hc (up_iff_ancestor.2 ⟨n, hcb⟩)

/-- In a table without circles every chain ends. -/
theorem exists_hasDepth {parent : Nat → Option Nat} {len : Nat} (hlen : ∀ {a b}, parent a = some b → a < len)
    (hacyclic : ∀ a, ¬ Relation.TransGen (fun x y => parent x = some y) a a) (a : Nat) : ∃ n, HasDepth parent a n := by
  by_contra hno
  have hsome (n : Nat) : ∃ b, ancestor parent n a = some b :=
    Option.ne_none_iff_exists'.1 fun h => hno (hasDepth_of_ancestor_eq_none h)
  obtain ⟨b, hb⟩ := hsome len
  obtain ⟨c, hc⟩ := hsome (len + 1)
  have hlt : b < len := by
    rw [ancestor_add, hb, Option.bind_some, ancestor] at hc
    obtain ⟨d, hd, _⟩ := Option.bind_eq_some_iff.1 hc
    exact hlen hd
  obtain ⟨n, hn, hanc⟩ := Up.exists_ancestor_lt hlen hlt (up_iff_ancestor.2 ⟨len, hb⟩)
  -- the same node is reached twice
  obtain ⟨k, rfl⟩ : ∃ k, len = n + (k + 1) := ⟨len - n - 1, by omega⟩
  rw [ancestor_add, hanc, Option.bind_some] at hb
  exact hacyclic b (transGen_of_ancestor hb)

/-- The depth of a node in a table that has its root. -/
theorem HasDepth.lt_length {parent : Nat → Option Nat} {len : Nat} (hlen : ∀ {a b}, parent a = some b → a < len)
    {a r : Nat} (h : HasDepth parent a n) (hr : ancestor parent n a = some r) (hlt : r < len) : n < len := by
  obtain ⟨root, hr', hroot⟩ := h.exists_root
  obtain rfl : r = root := Option.some.inj (hr.symm.trans hr')
  obtain ⟨m, hm, hanc⟩ := Up.exists_ancestor_lt hlen hlt (up_iff_ancestor.2 ⟨n, hr⟩)
  rwa [h.unique (hasDepth_of_ancestor_root hanc hroot)]

/-- In a forest of numbers whose parents are smaller, a node is at least as large as its depth. -/
theorem HasDepth.le_node {parent : Nat → Option Nat} {ok : Nat → Prop}
    (hok : ∀ {a b}, ok a → parent a = some b → ok b) (hlt : ∀ {a b}, ok a → parent a = some b → b < a) {a : Nat}
    (ha : ok a) (hn : HasDepth parent a n) : n ≤ a := by
  induction hn with
  | root _ => exact Nat.zero_le _
  | step h _ ih => exact Nat.lt_of_le_of_lt (ih (hok ha h)) (hlt ha h)

/-- Ancestors are no deeper, and at the same depth there is only the node itself. -/
theorem HasDepth.of_up (hn : HasDepth parent a n) (h : Up parent a c) :
    ∃ m, HasDepth parent c m ∧ m ≤ n ∧ (m = n → a = c) := by
  induction hn with
  | root ha =>
    rcases h.cases with rfl | ⟨b, hb, _⟩
    · exact ⟨0, .root ha, Nat.le_refl _, fun _ => rfl⟩
    · rw [ha] at hb; cases hb
  | @step a b n hab hb ih =>
    rcases h.cases with rfl | ⟨b', hb', hup⟩
    · exact ⟨n + 1, .step hab hb, Nat.le_refl _, fun _ => rfl⟩
    · rw [hab] at hb'
      cases hb'
      obtain ⟨m, hm, hle, _⟩ := ih hup
      exact ⟨m, hm, by omega, fun h => by omega⟩

/-- A common ancestor of `a` and a shallower node lies above the parent of `a`. -/
theorem HasDepth.up_parent {b y : α} (ha : HasDepth parent a (n + 1)) (hc : HasDepth parent c m)
    (hlt : m < n + 1) (hab : parent a = some b) (hay : Up parent a y) (hcy : Up parent c y) : Up parent b y := by
  rcases hay.cases with rfl | ⟨b', hb', hup⟩
  · obtain ⟨k, hk, hle, _⟩ := hc.of_up hcy
    have := ha.unique hk
    omega
  · rw [hab] at hb'
    cases hb'
    exact hup

/-- Two different nodes of one depth have only ancestors of their parents in common. -/
theorem HasDepth.up_both {y : α} (ha : HasDepth parent a n) (hc : HasDepth parent c n) (hne : a ≠ c)
    (hay : Up parent a y) (hcy : Up parent c y) :
    ∃ a' c', parent a = some a' ∧ parent c = some c' ∧ Up parent a' y ∧ Up parent c' y := by
  obtain ⟨k, hk, _, hk'⟩ := ha.of_up hay
  obtain ⟨l, hl, _, hl'⟩ := hc.of_up hcy
  have hkl := hk.unique hl
  rcases hay.cases with rfl | ⟨a', ha', hup⟩
  · have := ha.unique hk
    exact absurd (hl' (by omega)).symm hne
  rcases hcy.cases with rfl | ⟨c', hc', hup'⟩
  · have := hc.unique hl
    exact absurd (hk' (by omega)) hne
  exact ⟨a', c', ha', hc', hup, hup'⟩
end Chains

/-! ## The walk to a common ancestor -/

/-- `n` steps up from `b`. -/
def climb (parent : β → Option β) : Nat → β → Option β
  | 0, b => some b
  | n + 1, b => (parent b).bind (climb parent n)

/-- Both nodes go up together until `same` holds or the first one has no parent. -/
def walk (p : β → Option β) (q : γ → Option γ) (same : β → γ → Bool) :
    Nat → Option β → Option γ → Option (Option β)
  | 0, _, _ => none
  | _ + 1, none, _ => some none
  | _ + 1, some _, none => none
  | fuel + 1, some b, some c =>
    if same b c then some (some b) else walk p q same fuel (p b) (q c)

/-- The nodes of a second forest that satisfy `V`, mapped into the first one. -/
structure Embeds (parent : α → Option α) (p : β → Option β) (V : β → Prop) (f : β → α) : Prop where
  closed : ∀ {b b'}, V b → p b = some b' → V b'
  comm : ∀ {b}, V b → parent (f b) = (p b).map f

/-- `x` is the least common ancestor of `a` and `c`; `none` when there is no common ancestor. -/
def IsLeast (parent : α → Option α) (a c : α) : Option α → Prop
  | none => ∀ y, Up parent a y → Up parent c y → False
  | some x => Up parent a x ∧ Up parent c x ∧ ∀ y, Up parent a y → Up parent c y → Up parent x y

section Walk
variable {parent : α → Option α} {p : β → Option β} {q : γ → Option γ} {V : β → Prop} {W : γ → Prop}
  {f : β → α} {g : γ → α}

theorem IsLeast.left {b : α} {r : Option α} (hab : parent a = some b)
    (hup : ∀ y, Up parent a y → Up parent c y → Up parent b y) (h : IsLeast parent b c r) : IsLeast parent a c r := by
  cases r with
  | none => exact fun y hy hy' => h y (hup y hy hy') hy'
  | some x => exact ⟨Up.head hab h.1, h.2.1, fun y hy hy' => h.2.2 y (hup y hy hy') hy'⟩

theorem IsLeast.symm {r : Option α} (h : IsLeast parent a c r) : IsLeast parent c a r := by
  cases r with
  | none => exact fun y hy hy' => h y hy' hy
  | some x => exact ⟨h.2.1, h.1, fun y hy hy' => h.2.2 y hy' hy⟩

theorem Embeds.of_none (hp : Embeds parent p V f) (hb : V b) (h : p b = none) : parent (f b) = none := by
  rw [hp.comm hb, h]; rfl

theorem Embeds.of_some (hp : Embeds parent p V f) {b' : β} (hb : V b) (h : p b = some b') :
    parent (f b) = some (f b') := by
  rw [hp.comm hb, h]; rfl

theorem Embeds.hasDepth (hp : Embeds parent p V f) (hb : V b) (h : HasDepth p b n) : HasDepth parent (f b) n := by
  induction h with
  | root h => exact .root (hp.of_none hb h)
  | step h _ ih => exact .step (hp.of_some hb h) (ih (hp.closed hb h))

theorem Embeds.ancestor (hp : Embeds parent p V f) (hb : V b) {b' : β} (h : ancestor p n b = some b') :
    Forest.ancestor parent n (f b) = some (f b') ∧ V b' := by
  induction n generalizing b with
  | zero =>
    cases h
    exact ⟨rfl, hb⟩
  | succ n ih =>
    obtain ⟨c, hc, hcb⟩ := Option.bind_eq_some_iff.1 h
    obtain ⟨hanc, hV⟩ := ih (hp.closed hb hc) hcb
    exact ⟨by rw [Forest.ancestor, hp.of_some hb hc]; exact hanc, hV⟩

/-- The joint walk stops at once when both nodes are the same. -/
theorem walk_same (hsame : ∀ {b c}, V b → W c → (same b c = true ↔ f b = g c)) {c : γ}
    (hb : V b) (hc : W c) (h : f b = g c) :
    ∃ r, walk p q same (fuel + 1) (some b) (some c) = some r ∧ IsLeast parent (f b) (g c) (r.map f) ∧
      ∀ x ∈ r, V x := by
  refine ⟨some b, by simp [walk, (hsame hb hc).2 h], ⟨.refl _, ?_, fun y hy _ => hy⟩, ?_⟩
  · rw [h]
    exact .refl _
  · intro x hx
    cases hx
    exact hb

/-- The joint walk from two nodes of one depth. -/
theorem walk_spec (hp : Embeds parent p V f) (hq : Embeds parent q W g)
    (hsame : ∀ {b c}, V b → W c → (same b c = true ↔ f b = g c)) (hfuel : n + 2 ≤ fuel) {c : γ} (hb : V b) (hc : W c)
    (hdb : HasDepth parent (f b) n) (hdc : HasDepth parent (g c) n) :
    ∃ r, walk p q same fuel (some b) (some c) = some r ∧ IsLeast parent (f b) (g c) (r.map f) ∧ ∀ x ∈ r, V x := by
  induction n generalizing fuel b c with
  | zero =>
    obtain ⟨fuel, rfl⟩ : ∃ k, fuel = k + 2 := ⟨fuel - 2, by omega⟩
    by_cases h : f b = g c
    · exact walk_same (W := W) hsame hb hc h
    · cases hdb with
      | root hroot =>
        have hpb : p b = none := by simpa [hp.comm hb] using hroot
        refine ⟨none, ?_, ?_, by simp⟩
        · simp [walk, hpb, mt (hsame hb hc).1 h]
        · intro y hy hy'
          obtain ⟨a', _, ha', _⟩ := (HasDepth.root hroot).up_both hdc h hy hy'
          rw [hroot] at ha'; cases ha'
  | succ n ih =>
    obtain ⟨fuel, rfl⟩ : ∃ k, fuel = k + 1 := ⟨fuel - 1, by omega⟩
    by_cases h : f b = g c
    · exact walk_same (W := W) hsame hb hc h
    · have hdb' := hdb
      have hdc' := hdc
      cases hdb with
      | step hpa hdb =>
      cases hdc with
      | step hpc hdc =>
        rw [hp.comm hb] at hpa
        rw [hq.comm hc] at hpc
        obtain ⟨b', hb', rfl⟩ := Option.map_eq_some_iff.1 hpa
        obtain ⟨c', hc', rfl⟩ := Option.map_eq_some_iff.1 hpc
        obtain ⟨r, hr, hleast, hV⟩ := ih (show n + 2 ≤ fuel by omega) (hp.closed hb hb') (hq.closed hc hc') hdb hdc
        refine ⟨r, ?_, ?_, hV⟩
        · simpa [walk, hb', hc', mt (hsame hb hc).1 h] using hr
        · have hpa := hp.of_some hb hb'
          have hpc := hq.of_some hc hc'
          -- both steps at once: what is above both nodes is above both parents
          have hup : ∀ y, Up parent (f b) y → Up parent (g c) y → Up parent (f b') y ∧ Up parent (g c') y := by
            intro y hy hy'
            obtain ⟨a', d', ha', hd', h1, h2⟩ := hdb'.up_both hdc' h hy hy'
            rw [hpa] at ha'
            rw [hpc] at hd'
            cases ha'; cases hd'
            exact ⟨h1, h2⟩
          cases r with
          | none => exact fun y hy hy' => hleast y (hup y hy hy').1 (hup y hy hy').2
          | some x =>
            exact ⟨Up.head hpa hleast.1, Up.head hpc hleast.2.1,
              fun y hy hy' => hleast.2.2 y (hup y hy hy').1 (hup y hy hy').2⟩

/-- Climbing from the deeper node loses no common ancestor. -/
theorem climb_spec (hp : Embeds parent p V f) {k : Nat} (hb : V b) (hdb : HasDepth parent (f b) (n + k))
    (hdc : HasDepth parent c n) :
    ∃ b', climb p k b = some b' ∧ V b' ∧ HasDepth parent (f b') n ∧
      ∀ r, IsLeast parent (f b') c r → IsLeast parent (f b) c r := by
  induction k generalizing b with
  | zero => exact ⟨b, rfl, hb, hdb, fun _ h => h⟩
  | succ k ih =>
    have hdb' := hdb
    cases hdb with
    | step hpa hdb =>
      rw [hp.comm hb] at hpa
      obtain ⟨b', hb', rfl⟩ := Option.map_eq_some_iff.1 hpa
      obtain ⟨b'', hclimb, hV, hd, hleast⟩ := ih (hp.closed hb hb') hdb
      refine ⟨b'', by simpa [climb, hb'] using hclimb, hV, hd, fun r hr => ?_⟩
      exact (hleast r hr).left (hp.of_some hb hb')
        (fun y hy hy' => hdb'.up_parent hdc (Nat.lt_succ_of_le (Nat.le_add_right n k)) (hp.of_some hb hb') hy hy')
end Walk

/-- The depth-aligned walk: one node climbs `k` steps or the other `l` steps, then both go up together. -/
def meetUp (p : β → Option β) (q : γ → Option γ) (same : β → γ → Bool) (fuel k l : Nat) (b : β) (c : γ) :
    Option (Option β) :=
  match climb p k b, climb q l c with
  | some b, some c => walk p q same fuel (some b) (some c)
  | _, _ => none

/-- The aligned walk ends, with the least common ancestor. -/
theorem meetUp_spec {parent : α → Option α} {p : β → Option β} {q : γ → Option γ} {V : β → Prop} {W : γ → Prop}
    {f : β → α} {g : γ → α} (hp : Embeds parent p V f) (hq : Embeds parent q W g)
    (hsame : ∀ {b c}, V b → W c → (same b c = true ↔ f b = g c)) (hfuel : min n m + 2 ≤ fuel) {c : γ}
    (hb : V b) (hc : W c) (hdb : HasDepth parent (f b) n) (hdc : HasDepth parent (g c) m) :
    ∃ r, meetUp p q same fuel (n - m) (m - n) b c = some r ∧ IsLeast parent (f b) (g c) (r.map f) ∧ ∀ x ∈ r, V x := by
  rcases Nat.le_total m n with hmn | hnm
  · obtain ⟨b', hb', hVb, hd, hleast⟩ :=
      climb_spec hp (k := n - m) (n := m) hb (by rwa [Nat.add_sub_cancel' hmn]) hdc
    obtain ⟨r, hr, hl, hV⟩ := walk_spec hp hq hsame (show m + 2 ≤ fuel by omega) hVb hc hd hdc
    refine ⟨r, ?_, hleast _ hl, hV⟩
    simpa [meetUp, hb', Nat.sub_eq_zero_of_le hmn, climb] using hr
  · obtain ⟨c', hc', hWc, hd, hleast⟩ :=
      climb_spec hq (k := m - n) (n := n) hc (by rwa [Nat.add_sub_cancel' hnm]) hdb
    obtain ⟨r, hr, hl, hV⟩ := walk_spec hp hq hsame (show n + 2 ≤ fuel by omega) hb hWc hdb hd
    refine ⟨r, ?_, (hleast _ hl.symm).symm, hV⟩
    simpa [meetUp, hc', Nat.sub_eq_zero_of_le hnm, climb] using hr

end Forest
