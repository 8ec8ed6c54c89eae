import Mathlib.Order.Basic
import Mathlib.Order.Lattice
import Mathlib.Data.List.Pairwise
import Mathlib.Data.List.Perm.Basic
import Mathlib.Tactic.Common

/-!
# Ordered sets of handles

A set of handles that is ordered by a key which is looked up through the handle, as
a list. `insert`, `lowerBound`, `upperBound` and `find` go by the keys as they are at
the time of the call; they do what the set promises while the list is sorted.
-/

namespace OrderedSet

variable {α κ : Type} [LinearOrder κ] (key : α → κ)
variable {l post pre : List α} {y x : α}

/-- Inserts before the first element with a larger key; an equal key is kept. -/
def insert (x : α) : List α → List α
  | [] => [x]
  | y :: ys =>
    if key y < key x then y :: insert x ys
    else if key x < key y then x :: y :: ys
    else y :: ys

/-- The first element whose key is not below `k`. -/
def lowerBound (k : κ) (l : List α) : Option α := l.find? fun y => ¬ key y < k

/-- The first element whose key is above `k`. -/
def upperBound (k : κ) (l : List α) : Option α := l.find? fun y => k < key y

/-- The element with key `k`. -/
def find (k : κ) (l : List α) : Option α := (lowerBound key k l).filter fun y => ¬ k < key y

/-- The keys increase strictly. -/
def Sorted (l : List α) : Prop := l.Pairwise fun x y => key x < key y

/-- The element after `x`. -/
def nextOf [DecidableEq α] (x : α) : List α → Option α
  | [] => none
  | y :: ys => if y = x then ys.head? else nextOf x ys

/-- The element before `x`. -/
def prevOf [DecidableEq α] (x : α) (l : List α) : Option α := (l.takeWhile (· ≠ x)).getLast?

variable {key}

theorem insert_perm (hx : ∀ y ∈ l, key y ≠ key x) : (insert key x l).Perm (x :: l) := by
  induction l with
  | nil => exact .refl _
  | cons y ys ih =>
    have hys : ∀ z ∈ ys, key z ≠ key x := fun z hz => hx z (by simp [hz])
    rw [insert]
    split
    · exact ((ih hys).cons y).trans (.swap x y ys)
    · rename_i hyx
      have hlt := lt_of_le_of_ne (not_lt.1 hyx) (Ne.symm (hx y (by simp)))
      rw [if_pos hlt]

/-- An element goes between those with smaller and those with larger keys. -/
theorem insert_between (hpre : ∀ y ∈ pre, key y < key x) (hpost : ∀ y ∈ post, key x < key y) :
    insert key x (pre ++ post) = pre ++ x :: post := by
  induction pre with
  | nil =>
    cases post with
    | nil => rfl
    | cons y ys =>
      have hlt := hpost y (by simp)
      simp [insert, not_lt_of_gt hlt, hlt]
  | cons y ys ih =>
    have hlt := hpre y (by simp)
    simp [insert, hlt, ih (fun z hz => hpre z (by simp [hz]))]

theorem Sorted.insert (hl : Sorted key l) (hx : ∀ y ∈ l, key y ≠ key x) : Sorted key (insert key x l) := by
  induction l with
  | nil => simp [OrderedSet.insert, Sorted]
  | cons y ys ih =>
    have hys : ∀ z ∈ ys, key z ≠ key x := fun z hz => hx z (by simp [hz])
    obtain ⟨hy, htail⟩ := List.pairwise_cons.1 hl
    rw [OrderedSet.insert]
    split
    · rename_i hyx
      refine List.pairwise_cons.2 ⟨fun z hz => ?_, ih htail hys⟩
      rcases List.mem_cons.1 ((insert_perm hys).subset hz) with rfl | hz
      · exact hyx
      · exact hy z hz
    · rename_i hyx
      have hlt := lt_of_le_of_ne (not_lt.1 hyx) (Ne.symm (hx y (by simp)))
      rw [if_pos hlt]
      refine List.pairwise_cons.2 ⟨fun z hz => ?_, hl⟩
      rcases List.mem_cons.1 hz with rfl | hz
      · exact hlt
      · exact hlt.trans (hy z hz)

theorem Sorted.nodup (hl : Sorted key l) : l.Nodup := by
  refine List.Pairwise.imp ?_ hl
  rintro x _ h rfl
  exact lt_irrefl _ h

theorem Sorted.erase [DecidableEq α] (hl : Sorted key l) (x : α) : Sorted key (l.erase x) :=
  List.Pairwise.sublist List.erase_sublist hl

/-- Sortedness only depends on the keys of the elements. -/
theorem Sorted.congr {key' : α → κ} (hl : Sorted key l) (h : ∀ x ∈ l, key' x = key x) : Sorted key' l := by
  refine List.Pairwise.imp_of_mem ?_ hl
  intro x y hx hy hxy
  rwa [h x hx, h y hy]

theorem lowerBound_some {k : κ} (h : lowerBound key k l = some y) : y ∈ l ∧ k ≤ key y :=
  ⟨List.mem_of_find?_eq_some h, not_lt.1 (by simpa using List.find?_some h)⟩

/-- In a sorted set a member is found by its key. -/
theorem Sorted.find_key (hl : Sorted key l) (hx : x ∈ l) : find key (key x) l = some x := by
  have hsome : ∃ y, lowerBound key (key x) l = some y := by
    cases h : lowerBound key (key x) l with
    | some y => exact ⟨y, rfl⟩
    | none =>
      have := List.find?_eq_none.1 h x hx
      simp at this
  obtain ⟨y, hy⟩ := hsome
  obtain ⟨hmem, hle⟩ := lowerBound_some hy
  have hyx : y = x := by
    -- the first element that is not below `x` cannot be above it either
    obtain ⟨_, pre, post, rfl, hpre⟩ := List.find?_eq_some_iff_append.1 hy
    rcases List.mem_append.1 hx with hx | hx
    · simpa using hpre x hx
    · rcases List.mem_cons.1 hx with rfl | hx
      · rfl
      · have := (List.pairwise_cons.1 (List.pairwise_append.1 hl).2.1).1 x hx
        exact absurd this (not_lt.2 hle)
  subst hyx
  simp [find, hy]

theorem upperBound_append {k : κ} (hpre : ∀ y ∈ pre, key y ≤ k) (hx : k < key x) :
    upperBound key k (pre ++ x :: post) = some x := by
  rw [upperBound, List.find?_append]
  have : pre.find? (fun y => decide (k < key y)) = none := by
    rw [List.find?_eq_none]
    intro y hy
    simpa using hpre y hy
  simp [this, hx]

theorem nextOf_append [DecidableEq α] (hx : x ∉ pre) : nextOf x (pre ++ x :: y :: post) = some y := by
  induction pre with
  | nil => simp [nextOf]
  | cons z zs ih =>
    have hne : z ≠ x := fun h => hx (by simp [h])
    simp [nextOf, hne, ih (fun h => hx (by simp [h]))]

theorem prevOf_append [DecidableEq α] (hx : x ∉ pre) (hxy : y ≠ x) : prevOf x (pre ++ y :: x :: post) = some y := by
  have h : (pre ++ y :: x :: post).takeWhile (fun z => decide (z ≠ x)) = pre ++ [y] := by
    rw [List.takeWhile_append_of_pos]
    · simp [hxy]
    · intro z hz
      simp only [decide_eq_true_eq]
      rintro rfl
      exact hx hz
  rw [prevOf, h]
  simp

end OrderedSet
