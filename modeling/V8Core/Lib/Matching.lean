import Mathlib.Data.Int.Order.Basic

/-!
# Searching for a pattern

The first place from an index on, occurrences of a pattern in a text, and what a
comparison that failed says about the next places: the rule of the bad character and the
rule of the good suffix. Borders of the suffixes of the pattern are what the table of the
good suffix rule is computed from. Patterns and texts are functions on the integers with
a length.
-/

namespace V8Core.Matching

/-! ## The first place -/

/-- There is no place from `i` on before `j`. -/
def NoneIn (occ : ℤ → Prop) (i j : ℤ) : Prop := ∀ k, i ≤ k → k < j → ¬ occ k

namespace NoneIn
variable {occ : ℤ → Prop} {i j l : ℤ}

theorem all (h : NoneIn occ i j) (h' : ∀ k, j ≤ k → ¬ occ k) (k : ℤ) (hk : i ≤ k) : ¬ occ k := by
  rcases Int.lt_or_le k j with hlt | hge
  · exact h k hk hlt
  · exact h' k hge

theorem trans (h : NoneIn occ i j) (h' : NoneIn occ j l) : NoneIn occ i l := by
  intro k hk hkl
  rcases Int.lt_or_le k j with hlt | hge
  · exact h k hk hlt
  · exact h' k hge hkl

theorem succ (h : NoneIn occ i j) (hj : ¬ occ j) : NoneIn occ i (j + 1) :=
  h.trans fun k hk hk' => by rwa [show k = j by omega]

end NoneIn

/-- The result `r` is the first place from `i` on, or `-1` if there is none. -/
def FirstFrom (occ : ℤ → Prop) (i r : ℤ) : Prop :=
  (r = -1 ∧ ∀ k, i ≤ k → ¬ occ k) ∨ (i ≤ r ∧ occ r ∧ ∀ k, i ≤ k → k < r → ¬ occ k)

namespace FirstFrom
variable {occ occ' : ℤ → Prop} {i i' r : ℤ}

theorem none (h : ∀ k, i ≤ k → ¬ occ k) : FirstFrom occ i (-1) := .inl ⟨rfl, h⟩

theorem here (h : occ i) : FirstFrom occ i i := .inr ⟨Int.le_refl _, h, fun k hk hk' => by omega⟩

/-- Places that are ruled out may be skipped. -/
theorem skip (hle : i ≤ i') (hskip : NoneIn occ i i') (h : FirstFrom occ i' r) : FirstFrom occ i r := by
  rcases h with ⟨hr, hnone⟩ | ⟨hr, hocc, hfirst⟩
  · exact .inl ⟨hr, hskip.all hnone⟩
  · exact .inr ⟨by omega, hocc, hskip.trans hfirst⟩

/-- Only the places from the index on count. -/
theorem congr (h : FirstFrom occ i r) (hiff : ∀ k, i ≤ k → (occ k ↔ occ' k)) : FirstFrom occ' i r := by
  rcases h with ⟨hr, hnone⟩ | ⟨hr, hocc, hfirst⟩
  · exact .inl ⟨hr, fun k hk h => hnone k hk ((hiff k hk).2 h)⟩
  · exact .inr ⟨hr, (hiff r hr).1 hocc, fun k hk hkr h => hfirst k hk hkr ((hiff k hk).2 h)⟩

end FirstFrom

/-- All elements from `i` on have a property if `i` and those behind it have it. -/
theorem forall_succ_iff {P : ℤ → Prop} {i m : ℤ} (hi : P i) :
    (∀ j, i + 1 ≤ j → j < m → P j) ↔ ∀ j, i ≤ j → j < m → P j := by
  refine ⟨fun h j hj hjm => ?_, fun h j hj hjm => h j (by omega) hjm⟩
  rcases Int.lt_or_eq_of_le hj with hlt | rfl
  · exact h j hlt hjm
  · exact hi

/-! ## Occurrences -/

variable {α : Type*}

/-- The pattern of length `m` occurs in the text of length `n` at `i`. -/
structure OccursAt (p : ℤ → α) (m : ℤ) (t : ℤ → α) (n i : ℤ) : Prop where
  nonneg : 0 ≤ i
  fits : i + m ≤ n
  eq : ∀ j, 0 ≤ j → j < m → t (i + j) = p j

section Shift
variable {p t : ℤ → α} {m n i j s : ℤ}

/-- The bad character rule: between `occ` and `j` the pattern does not have the element read at `j`. -/
theorem not_occursAt_of_badChar {occ : ℤ} (hocc : -1 ≤ occ) (hj : j < m)
    (hbad : ∀ j', occ < j' → j' < j → p j' ≠ t (i + j)) (hs : 0 < s) (hs' : s < j - occ) :
    ¬ OccursAt p m t n (i + s) := by
  intro h
  refine hbad (j - s) (by omega) (by omega) ?_
  rw [← h.eq (j - s) (by omega) (by omega), show i + s + (j - s) = i + j by omega]

/-- A shift that agrees with the suffix from `i` on, where the element before differs. Only the elements of the
pattern from `lo` on are looked at. -/
structure Agrees (p : ℤ → α) (lo m i s : ℤ) : Prop where
  pos : 0 < s
  suffix : ∀ k, i ≤ k → k < m → lo ≤ k - s → p (k - s) = p k
  before : lo ≤ i - 1 - s → p (i - 1 - s) ≠ p (i - 1)

/-- The good suffix rule: after a mismatch at `j` only a shift that agrees with what matched can be an occurrence. -/
theorem agrees_of_occursAt {lo : ℤ} (hlo : 0 ≤ lo) (hj : j < m) (hmatch : ∀ k, j < k → k < m → t (i + k) = p k)
    (hmis : t (i + j) ≠ p j) (hs : 0 < s) (h : OccursAt p m t n (i + s)) : Agrees p lo m (j + 1) s := by
  refine ⟨hs, fun k hk hkm hlok => ?_, fun hlok heq => hmis ?_⟩
  · rw [← h.eq (k - s) (by omega) (by omega), show i + s + (k - s) = i + k by omega]
    exact hmatch k (by omega) hkm
  · rw [show j + 1 - 1 - s = j - s by omega, show j + 1 - 1 = j by omega] at heq
    rw [← heq, ← h.eq (j - s) (by omega) (by omega), show i + s + (j - s) = i + j by omega]

end Shift

/-! ## Borders -/

section Border
variable (p : ℤ → α) (m : ℤ)

/-- The suffix from `i` on starts with the shorter suffix from `b` on. -/
structure Border (i b : ℤ) : Prop where
  lt : i < b
  le : b ≤ m
  eq : ∀ k, b ≤ k → k < m → p (k - (b - i)) = p k

/-- The longest border. The empty suffix has none; `m + 1` stands for it. -/
structure Longest (i b : ℤ) : Prop where
  lt : i < b
  border : b ≤ m → Border p m i b
  past : m < b → i = m ∧ b = m + 1
  least : ∀ b', Border p m i b' → b ≤ b'

variable {p m} {i b b' : ℤ}

theorem Longest.le (h : Longest p m i b) : b ≤ m + 1 := by
  by_contra hgt
  have := h.past (by omega)
  omega

theorem Border.empty (h : i < m) : Border p m i m := ⟨h, Int.le_refl _, fun k hk hk' => by omega⟩

/-- A border of a border is one. -/
theorem Border.trans (h : Border p m i b) (h' : Border p m b b') : Border p m i b' := by
  have hlt := h.lt
  have hlt' := h'.lt
  refine ⟨by omega, h'.le, fun k hk hkm => ?_⟩
  rw [← h'.eq k hk hkm, ← h.eq (k - (b' - b)) (by omega) (by omega)]
  congr 1
  omega

/-- The shorter of two borders is a border of the longer one. -/
theorem Border.of_lt (h : Border p m i b) (h' : Border p m i b') (hlt : b < b') : Border p m b b' := by
  refine ⟨hlt, h'.le, fun k hk hkm => ?_⟩
  rw [← h'.eq k hk hkm, ← h.eq (k - (b' - b)) (by omega) (by omega)]
  congr 1
  omega

theorem Border.extend (h : Border p m i b) (heq : p (i - 1) = p (b - 1)) : Border p m (i - 1) (b - 1) := by
  have hlt := h.lt
  have hle := h.le
  refine ⟨by omega, by omega, fun k hk hkm => ?_⟩
  rw [show k - (b - 1 - (i - 1)) = k - (b - i) by omega]
  rcases Int.lt_or_le k b with hkb | hkb
  · rw [show k = b - 1 by omega, show b - 1 - (b - i) = i - 1 by omega, heq]
  · exact h.eq k hkb hkm

theorem Border.shorten (h : Border p m (i - 1) (b - 1)) (hb : b ≤ m) : Border p m i b ∧ p (i - 1) = p (b - 1) := by
  have hlt := h.lt
  refine ⟨⟨by omega, hb, fun k hk hkm => ?_⟩, ?_⟩
  · rw [← h.eq k (by omega) hkm]
    congr 1
    omega
  · rw [← h.eq (b - 1) (by omega) (by omega)]
    congr 1
    omega

/-- The longest border, from the borders of the next suffix. The border `b` is the longest one that is preceded by the
same element, or `m + 1` if there is none. -/
theorem Longest.pred (hi : i ≤ m) (hb : i < b) (hbm : b ≤ m + 1) (hborder : b ≤ m → Border p m i b ∧ p (i - 1) = p (b - 1))
    (hdiff : ∀ b', Border p m i b' → b' < b → p (i - 1) ≠ p (b' - 1)) : Longest p m (i - 1) (b - 1) := by
  refine ⟨by omega, fun hle => ?_, fun hlt => by omega, fun b' hb' => ?_⟩
  · rcases Int.lt_or_le m b with hlt | hle'
    · rw [show b - 1 = m by omega]
      exact .empty (by omega)
    · exact (hborder hle').1.extend (hborder hle').2
  · by_contra hlt
    have hb'' : Border p m (i - 1) (b' + 1 - 1) := by rwa [show b' + 1 - 1 = b' by omega]
    obtain ⟨h, heq⟩ := hb''.shorten (by omega)
    exact hdiff (b' + 1) h (by omega) heq

end Border

end V8Core.Matching
