import Mathlib

/-!
# Lists as polynomials

A list of coefficients, the constant one first, as a polynomial. Products of lists of
digits are products of polynomials: their coefficients are the column sums of the
schoolbook method, and their values at the base are products of numbers.
-/

open Polynomial

namespace Coefficients

variable {R : Type} [CommRing R]

/-- The polynomial with these coefficients. -/
noncomputable def poly : List R → R[X]
  | [] => 0
  | a :: as => C a + X * poly as

@[simp] theorem poly_nil : poly ([] : List R) = 0 := rfl

@[simp] theorem poly_cons (a : R) (as : List R) : poly (a :: as) = C a + X * poly as := rfl

theorem coeff_poly (as : List R) (i : Nat) : (poly as).coeff i = as.getD i 0 := by
  induction as generalizing i with
  | nil => simp
  | cons a as ih =>
    cases i with
    | zero => simp
    | succ i => simp [ih]

/-- The column sums of a product are its coefficients. -/
theorem coeff_mul_range (p q : R[X]) (i : Nat) :
    (p * q).coeff i = ∑ j ∈ Finset.range (i + 1), p.coeff j * q.coeff (i - j) := by
  rw [coeff_mul, Finset.Nat.sum_antidiagonal_eq_sum_range_succ fun j k => p.coeff j * q.coeff k]

/-- A polynomial of small degree is the list of its first coefficients. -/
theorem poly_range_coeff {p : R[X]} {n : Nat} (h : p.degree < n) : poly ((List.range n).map p.coeff) = p := by
  ext i
  rw [coeff_poly]
  rcases Nat.lt_or_ge i n with hi | hi
  · simp [hi]
  · rw [List.getD_eq_default _ _ (by simpa using hi), (degree_lt_iff_coeff_zero _ _).1 h i hi]

theorem degree_mul_poly_lt (as bs : List R) : (poly as * poly bs).degree < ((as.length + bs.length - 1 : Nat) : WithBot Nat) := by
  rw [degree_lt_iff_coeff_zero]
  intro i hi
  rw [coeff_mul_range]
  apply Finset.sum_eq_zero
  intro j hj
  rw [coeff_poly, coeff_poly]
  rcases Nat.lt_or_ge j as.length with hja | hja
  · rw [List.getD_eq_default bs _ (by have := Finset.mem_range.1 hj; omega), mul_zero]
  · rw [List.getD_eq_default as _ hja, zero_mul]

end Coefficients
