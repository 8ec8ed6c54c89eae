import Mathlib.Data.Int.Order.Basic

/-!
# Arrays that are indexed by integers

Reading a list at an integer, and tables of a fixed size. An access outside of the bounds
has no result. In proofs the contents are the total function `val`, and an access is a
rewrite once its index is known to be in range.
-/

namespace V8Core

section Read
variable {α : Type*}

/-- The element at `i`. -/
def readAt (xs : List α) (i : ℤ) : Option α := if 0 ≤ i then xs[i.toNat]? else none

variable [Inhabited α]

/-- The element at `i`, or some value outside of the bounds. -/
def valueAt (xs : List α) (i : ℤ) : α := (readAt xs i).getD default

theorem readAt_eq {xs : List α} {i : ℤ} (h0 : 0 ≤ i) (h : i < xs.length) : readAt xs i = some (valueAt xs i) := by
  have hi : i.toNat < xs.length := by omega
  simp [valueAt, readAt, h0, List.getElem?_eq_getElem hi]

theorem valueAt_mem {xs : List α} {i : ℤ} (h0 : 0 ≤ i) (h : i < xs.length) : valueAt xs i ∈ xs := by
  have hi : i.toNat < xs.length := by omega
  simp [valueAt, readAt, h0, List.getElem?_eq_getElem hi]

end Read

/-! ## Lists of equal parts -/

section Parts
variable {α β : Type*} {f : α → List β} {size : Nat}

theorem drop_flatMap (hf : ∀ x, (f x).length = size) (xs : List α) (n : Nat) :
    (xs.flatMap f).drop (n * size) = (xs.drop n).flatMap f := by
  induction n generalizing xs with
  | zero => simp
  | succ n ih =>
    cases xs with
    | nil => simp
    | cons x xs =>
      rw [List.flatMap_cons, List.drop_succ_cons, ← ih xs, Nat.succ_mul, List.drop_append, hf x, Nat.add_sub_cancel,
        List.drop_of_length_le (by rw [hf x]; omega), List.nil_append]

theorem take_flatMap (hf : ∀ x, (f x).length = size) (xs : List α) (n : Nat) :
    (xs.flatMap f).take (n * size) = (xs.take n).flatMap f := by
  induction n generalizing xs with
  | zero => simp
  | succ n ih =>
    cases xs with
    | nil => simp
    | cons x xs =>
      rw [List.flatMap_cons, List.take_succ_cons, List.flatMap_cons, ← ih xs, Nat.succ_mul, List.take_append, hf x,
        Nat.add_sub_cancel, List.take_of_length_le (by rw [hf x]; omega)]

/-- The part in which the first element with the property is. -/
theorem findIdx?_flatMap_div (hf : ∀ x, (f x).length = size) (P : β → Bool) (xs : List α) :
    ((xs.flatMap f).findIdx? P).map (· / size) = xs.findIdx? fun x => (f x).any P := by
  induction xs with
  | nil => rfl
  | cons x xs ih =>
    rw [List.flatMap_cons, List.findIdx?_append, List.findIdx?_cons, ← ih, hf x]
    cases hx : (f x).findIdx? P with
    | none =>
      have hany : (f x).any P = false := by rw [← List.findIdx?_isSome, hx, Option.isSome_none]
      rw [hany, if_neg Bool.false_ne_true, Option.none_or, Option.map_map, Option.map_map]
      cases hrest : (xs.flatMap f).findIdx? P with
      | none => rfl
      | some k =>
        obtain ⟨hk, _⟩ := List.findIdx?_eq_some_iff_getElem.1 hrest
        have hpos : 0 < size := by
          by_contra hzero
          have hnil : xs.flatMap f = [] := by
            rw [List.flatMap_eq_nil_iff]
            exact fun y _ => List.length_eq_zero_iff.1 (by rw [hf y]; omega)
          simp [hnil] at hk
        simp [Nat.add_div_right _ hpos]
    | some k =>
      obtain ⟨hk, hP, _⟩ := List.findIdx?_eq_some_iff_getElem.1 hx
      have hany : (f x).any P = true := by rw [← List.findIdx?_isSome, hx, Option.isSome_some]
      rw [hany, if_pos rfl]
      rw [hf x] at hk
      simp [Nat.div_eq_of_lt hk]

end Parts

/-! ## Tables -/

/-- An array of `n` elements. -/
structure Table (α : Type*) (n : Nat) where
  values : List α
  length_eq : values.length = n

namespace Table
variable {α : Type*} {n : Nat}

def get (t : Table α n) (i : ℤ) : Option α := readAt t.values i

def set (t : Table α n) (i : ℤ) (x : α) : Option (Table α n) :=
  if 0 ≤ i ∧ i < n then some ⟨t.values.set i.toNat x, by rw [List.length_set, t.length_eq]⟩ else none

variable [Inhabited α]

def val (t : Table α n) (i : ℤ) : α := valueAt t.values i

theorem get_eq (t : Table α n) {i : ℤ} (h0 : 0 ≤ i) (h : i < n) : t.get i = some (t.val i) :=
  readAt_eq h0 (by rw [t.length_eq]; exact h)

theorem set_eq (t : Table α n) {i : ℤ} (x : α) (h0 : 0 ≤ i) (h : i < n) :
    ∃ t', t.set i x = some t' ∧ ∀ j, t'.val j = if j = i then x else t.val j := by
  have hi : i.toNat < t.values.length := by
    rw [t.length_eq]
    omega
  refine ⟨_, if_pos ⟨h0, h⟩, fun j => ?_⟩
  by_cases hji : j = i
  · subst hji
    simp [val, valueAt, readAt, h0, hi]
  · rw [if_neg hji]
    simp only [val, valueAt, readAt]
    split
    · rw [List.getElem?_set_ne (by omega)]
    · rfl

end Table

end V8Core
