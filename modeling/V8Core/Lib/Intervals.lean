import Mathlib.Data.List.Pairwise
import Mathlib.Order.Basic
import Mathlib.Tactic.Common

/-!
# Lists of intervals

Closed intervals of natural numbers, and lists of them as sets. A list is canonical when its
intervals are not empty, increase, and have a gap between any two; a set has one such list.
-/

namespace Intervals

/-- The numbers from `lo` to `hi`, both included. -/
structure Interval where
  lo : Nat
  hi : Nat
  deriving DecidableEq, Repr

@[grind] def Interval.Contains (r : Interval) (c : Nat) : Prop := r.lo ≤ c ∧ c ≤ r.hi

instance (r : Interval) (c : Nat) : Decidable (r.Contains c) := inferInstanceAs (Decidable (_ ∧ _))

/-- The number is in one of the intervals. -/
def Mem (c : Nat) (l : List Interval) : Prop := ∃ r ∈ l, r.Contains c

instance (c : Nat) (l : List Interval) : Decidable (Mem c l) := inferInstanceAs (Decidable (∃ r ∈ l, _))

variable {c bound : Nat} {r s : Interval} {l l' : List Interval}

@[simp, grind .] theorem not_mem_nil : ¬ Mem c [] := by simp [Mem]

@[simp, grind =] theorem mem_cons : Mem c (r :: l) ↔ r.Contains c ∨ Mem c l := by simp [Mem]

@[simp] theorem mem_append : Mem c (l ++ l') ↔ Mem c l ∨ Mem c l' := by
  simp only [Mem, List.mem_append, or_and_right, exists_or]

/-- Sorted, not empty, neither overlapping nor adjacent, and none above the bound. -/
structure Canonical (bound : Nat) (l : List Interval) : Prop where
  valid : ∀ r ∈ l, r.lo ≤ r.hi ∧ r.hi ≤ bound
  gaps : l.Pairwise fun r s => r.hi + 1 < s.lo

namespace Canonical

theorem nil : Canonical bound [] := ⟨by simp, .nil⟩

theorem cons_iff : Canonical bound (r :: l) ↔
    (r.lo ≤ r.hi ∧ r.hi ≤ bound) ∧ (∀ s ∈ l, r.hi + 1 < s.lo) ∧ Canonical bound l := by
  constructor
  · intro h
    obtain ⟨hr, hl⟩ := List.forall_mem_cons.1 h.valid
    obtain ⟨hgap, hgaps⟩ := List.pairwise_cons.1 h.gaps
    exact ⟨hr, hgap, hl, hgaps⟩
  · rintro ⟨hr, hgap, h⟩
    exact ⟨List.forall_mem_cons.2 ⟨hr, h.valid⟩, List.pairwise_cons.2 ⟨hgap, h.gaps⟩⟩

theorem tail (h : Canonical bound (r :: l)) : Canonical bound l := (cons_iff.1 h).2.2

/-- Everything behind the first interval is above it, with a gap. -/
theorem lt_of_mem (h : Canonical bound (r :: l)) (hc : Mem c l) : r.hi + 1 < c := by
  obtain ⟨s, hs, hcs⟩ := hc
  have := (cons_iff.1 h).2.1 s hs
  exact Nat.lt_of_lt_of_le this hcs.1

theorem cons (hr : r.lo ≤ r.hi ∧ r.hi ≤ bound) (h : Canonical bound l) (hgap : ∀ c, Mem c l → r.hi + 1 < c) :
    Canonical bound (r :: l) :=
  cons_iff.2 ⟨hr, fun s hs => hgap s.lo ⟨s, hs, Nat.le_refl _, (h.valid s hs).1⟩, h⟩

/-- The first interval may start later and end earlier. -/
theorem shrink (h : Canonical bound (r :: l)) (hs : s.lo ≤ s.hi) (hle : s.hi ≤ r.hi) : Canonical bound (s :: l) := by
  obtain ⟨hr, hgap, hl⟩ := cons_iff.1 h
  refine cons_iff.2 ⟨⟨hs, by omega⟩, fun t ht => ?_, hl⟩
  have := hgap t ht
  omega

theorem le_of_mem (h : Canonical bound l) (hc : Mem c l) : c ≤ bound := by
  obtain ⟨s, hs, hcs⟩ := hc
  exact Nat.le_trans hcs.2 (h.valid s hs).2

theorem head_le (h : Canonical bound (r :: l)) (hc : Mem c (r :: l)) : r.lo ≤ c := by
  have hr := (cons_iff.1 h).1.1
  rcases mem_cons.1 hc with hc | hc
  · exact hc.1
  · have := h.lt_of_mem hc
    omega

theorem contains_head (h : Canonical bound (r :: l)) (hc : Mem c (r :: l)) (hle : c ≤ r.hi + 1) : c ≤ r.hi := by
  rcases mem_cons.1 hc with hc | hc
  · exact hc.2
  · have := h.lt_of_mem hc
    omega

/-- Two canonical lists with the same elements start with the same interval. -/
theorem hi_le (h : Canonical bound (r :: l)) (h' : Canonical bound (s :: l'))
    (hsame : ∀ c, Mem c (r :: l) → Mem c (s :: l')) (hlo : r.lo = s.lo) : r.hi ≤ s.hi := by
  have hr := (cons_iff.1 h).1.1
  have hs := (cons_iff.1 h').1.1
  by_contra hlt
  have := h'.contains_head (hsame (s.hi + 1) (mem_cons.2 (.inl ⟨by omega, by omega⟩))) (Nat.le_refl _)
  omega

theorem ext (h : Canonical bound l) (h' : Canonical bound l') (hsame : ∀ c, Mem c l ↔ Mem c l') : l = l' := by
  induction l generalizing l' with
  | nil =>
    cases l' with
    | nil => rfl
    | cons s l' => exact absurd ((hsame s.lo).2 (mem_cons.2 (.inl ⟨Nat.le_refl _, (cons_iff.1 h').1.1⟩))) not_mem_nil
  | cons r l ih =>
    have hr := (cons_iff.1 h).1.1
    cases l' with
    | nil => exact absurd ((hsame r.lo).1 (mem_cons.2 (.inl ⟨Nat.le_refl _, hr⟩))) not_mem_nil
    | cons s l' =>
      have hs := (cons_iff.1 h').1.1
      have hlo : r.lo = s.lo := Nat.le_antisymm
        (h.head_le ((hsame s.lo).2 (mem_cons.2 (.inl ⟨Nat.le_refl _, hs⟩))))
        (h'.head_le ((hsame r.lo).1 (mem_cons.2 (.inl ⟨Nat.le_refl _, hr⟩))))
      have hhi : r.hi = s.hi := Nat.le_antisymm (h.hi_le h' (fun c => (hsame c).1) hlo)
        (h'.hi_le h (fun c => (hsame c).2) hlo.symm)
      have htail : l = l' := by
        refine ih h.tail h'.tail fun c => ⟨fun hc => ?_, fun hc => ?_⟩
        · have hlt := h.lt_of_mem hc
          refine (mem_cons.1 ((hsame c).1 (mem_cons.2 (.inr hc)))).resolve_left fun hc' => ?_
          have := hc'.2
          omega
        · have hlt := h'.lt_of_mem hc
          refine (mem_cons.1 ((hsame c).2 (mem_cons.2 (.inr hc)))).resolve_left fun hc' => ?_
          have := hc'.2
          omega
      rw [htail, show r = s by cases r; cases s; simp_all]

end Canonical

/-- The list is canonical, and its elements are those of `P`. -/
structure Denotes (bound : Nat) (l : List Interval) (P : Nat → Prop) : Prop where
  canonical : Canonical bound l
  mem : ∀ c, Mem c l ↔ P c

namespace Denotes

variable {P Q : Nat → Prop}

theorem nil (h : ∀ c, ¬ P c) : Denotes bound [] P := ⟨.nil, fun c => by simp [h]⟩

theorem congr (h : Denotes bound l P) (hPQ : ∀ c, P c ↔ Q c) : Denotes bound l Q :=
  ⟨h.canonical, fun c => (h.mem c).trans (hPQ c)⟩

/-- An interval in front of a list for what lies behind it. -/
theorem cons (h : Denotes bound l Q) (hr : r.lo ≤ r.hi ∧ r.hi ≤ bound)
    (hP : ∀ c, P c ↔ r.Contains c ∨ r.hi + 1 < c ∧ Q c) (hQ : ∀ c, Q c → r.hi + 1 < c) : Denotes bound (r :: l) P :=
  ⟨h.canonical.cons hr fun c hc => hQ c ((h.mem c).1 hc), fun c => by have := h.mem c; grind⟩

/-- An interval `x` is put between those below and those above it, merged with those in between to `m`. -/
theorem merge {x m : Interval} {below between above : List Interval}
    (h : Canonical bound (below ++ (between ++ above))) (hm : m.lo ≤ m.hi ∧ m.hi ≤ bound)
    (hbelow : ∀ r ∈ below, r.hi + 1 < x.lo) (habove : ∀ r ∈ above, x.hi + 1 < r.lo)
    (hlo : m.lo = x.lo ∨ ∃ r ∈ between, m.lo = r.lo) (hhi : m.hi = x.hi ∨ ∃ r ∈ between, m.hi = r.hi)
    (hmem : ∀ c, m.Contains c ↔ x.Contains c ∨ Mem c between) :
    Denotes bound (below ++ m :: above) fun c => x.Contains c ∨ Mem c (below ++ (between ++ above)) := by
  obtain ⟨hgaps, hrest, hcross⟩ := List.pairwise_append.1 h.gaps
  obtain ⟨-, hgapsAbove, hcrossAbove⟩ := List.pairwise_append.1 hrest
  refine ⟨⟨fun r hr => ?_, List.pairwise_append.2 ⟨hgaps, List.pairwise_cons.2 ⟨fun r hr => ?_, hgapsAbove⟩,
    fun r hr s hs => ?_⟩⟩, fun c => ?_⟩
  · have := h.valid r
    simp only [List.mem_append, List.mem_cons] at hr this
    grind
  · have := habove r hr
    obtain hhi | ⟨s, hs, hhi⟩ := hhi
    · omega
    · have := hcrossAbove s hs r hr
      omega
  · obtain rfl | hs := List.mem_cons.1 hs
    · have := hbelow r hr
      obtain hlo | ⟨t, ht, hlo⟩ := hlo
      · omega
      · have := hcross r hr t (List.mem_append_left _ ht)
        omega
    · exact hcross r hr s (List.mem_append_right _ hs)
  · simp only [mem_append, mem_cons, hmem]
    grind

end Denotes

end Intervals
