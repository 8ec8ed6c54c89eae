import V8Core.Bigint.Vector
import V8Core.Lib.Coefficients

/-!
# Schoolbook multiplication

`mul-schoolbook.cc`. `MultiplySchoolbook` goes over the digits of the result: each is
the low end of a column sum of digit products. What a column does not keep is carried
in three digits, whose weights are those of the next two columns.
-/

open Radix

namespace V8Core.Bigint

variable {w : Nat}
variable (X Y : List (BitVec w)) (i : Nat)

/-! ## One digit -/

/-- One step of `MultiplySingle`, with the state `high` and `carry`. -/
def multiplySingleStep (y x : BitVec w) (s : BitVec w × BitVec w) : BitVec w × (BitVec w × BitVec w) :=
  let p := digitMul x y
  let r := digitAdd3 p.1 s.1 s.2
  (r.1, (p.2, r.2))

/-- `MultiplySingle(Z, X, y)`. -/
def multiplySingle (zlen : Nat) (X : List (BitVec w)) (y : BitVec w) : List (BitVec w) :=
  let r := chain (multiplySingleStep y) X (0#w, 0#w)
  padTo zlen (r.1 ++ [r.2.2 + r.2.1])

theorem multiplySingle_spec (zlen : Nat) (X : List (BitVec w)) (y : BitVec w) :
    value (multiplySingle zlen X y) = value X * y.toNat ∧ (multiplySingle zlen X y).length = max zlen (X.length + 1) := by
  obtain ⟨_, h⟩ := chain_list_value (multiplySingleStep y) y.toNat (fun s => (s.1.toNat + s.2.toNat : ℤ)) (fun _ => True)
    (fun x s _ => ⟨trivial, by
      have h1 := digitMul_spec x y
      have h2 := digitAdd3_spec (digitMul x y).1 s.1 s.2
      simp only [multiplySingleStep]
      zify at h1 h2
      linear_combination h1 + h2⟩) X (0#w, 0#w) trivial
  have hlen : (chain (multiplySingleStep y) X (0#w, 0#w)).1.length = X.length := chain_length ..
  simp only [multiplySingle, value_padTo, length_padTo, List.length_append, List.length_singleton, value_concat]
  generalize chain (multiplySingleStep y) X (0#w, 0#w) = r at *
  refine ⟨?_, by rw [hlen]⟩
  -- the two parts of the carry fit in one digit, since the product fits in one digit more than `X`
  have heq : value r.1 + 2 ^ (w * X.length) * (r.2.1.toNat + r.2.2.toNat) = value X * y.toNat := by
    zify
    simpa [mul_comm] using h
  have hlt : r.2.1.toNat + r.2.2.toNat < 2 ^ w := by
    have hprod : value X * y.toNat < 2 ^ (w * X.length) * 2 ^ w := Nat.mul_lt_mul'' (value_lt X) y.isLt
    rw [← heq] at hprod
    exact Nat.lt_of_mul_lt_mul_left (Nat.lt_of_le_of_lt (Nat.le_add_left _ _) hprod)
  rw [hlen, ← heq, BitVec.toNat_add, Nat.add_comm r.2.2.toNat, Nat.mod_eq_of_lt hlt]

/-! ## Columns -/

/-- What is carried from column to column. -/
structure ColumnState (w : Nat) where
  next : BitVec w
  nextCarry : BitVec w
  carry : BitVec w

/-- The weight of the carried digits, at the column that comes next. -/
def ColumnState.weight (s : ColumnState w) : ℤ := s.next.toNat + s.carry.toNat + 2 ^ w * s.nextCarry.toNat

/-- `BODY`: adds digit products to the digit `zi` and to the carried digits. -/
def body : List (BitVec w × BitVec w) → BitVec w → ColumnState w → BitVec w × ColumnState w
  | [], zi, s => (zi, s)
  | (x, y) :: rest, zi, s =>
    let p := digitMul x y
    let lo := digitAdd2 zi p.1
    let hi := digitAdd2 s.next p.2
    body rest lo.1 ⟨hi.1, s.nextCarry + hi.2, s.carry + lo.2⟩

/-- The factors of column `i`: the bounds of `j` are `min_x_index` and `max_x_index`, which are `0`
and `i` while `i` is below both lengths. -/
def columnFactors (X Y : List (BitVec w)) (i : Nat) : List (BitVec w × BitVec w) :=
  let maxXIndex := min i (X.length - 1)
  let minXIndex := i - (Y.length - 1)
  (List.range' minXIndex (maxXIndex + 1 - minXIndex)).map fun j => (digit X j, digit Y (i - j))

/-- One column: the digit of the result and what is carried on. -/
def column (X Y : List (BitVec w)) (i : Nat) (s : ColumnState w) : BitVec w × ColumnState w :=
  let r := digitAdd2 s.next s.carry
  body (columnFactors X Y i) r.1 ⟨s.nextCarry + r.2, 0#w, 0#w⟩

/-- `MultiplySchoolbook(Z, X, Y)`. The first column is a single product; the second, unrolled in the
source, is a column that starts without carries. -/
def multiplySchoolbook (zlen : Nat) (X Y : List (BitVec w)) : List (BitVec w) :=
  if X.length = 0 ∨ Y.length = 0 then padTo zlen []
  else
    let p := digitMul (digit X 0) (digit Y 0)
    let r := chain (column X Y) (List.range' 1 (X.length + Y.length - 2)) ⟨p.2, 0#w, 0#w⟩
    padTo zlen (p.1 :: r.1 ++ [(digitAdd2 r.2.next r.2.carry).1])

/-- The sum of the products. -/
def productSum (l : List (BitVec w × BitVec w)) : ℤ := (l.map fun p => (p.1.toNat * p.2.toNat : ℤ)).sum

theorem toNat_add_bit {c b : BitVec w} {n : Nat} (hc : c.toNat ≤ n) (hb : b.toNat ≤ 1) (hn : n + 1 < 2 ^ w) :
    (c + b).toNat = c.toNat + b.toNat := by
  rw [BitVec.toNat_add, Nat.mod_eq_of_lt (by omega)]

/-- The body keeps the sum of what it has and what it adds; its counters grow by one at most per product. -/
theorem body_spec (l : List (BitVec w × BitVec w)) (zi : BitVec w) (s : ColumnState w) {n : Nat}
    (hc : s.carry.toNat ≤ n) (hn : s.nextCarry.toNat ≤ n) (hlt : n + l.length < 2 ^ w) :
    (body l zi s).1.toNat + 2 ^ w * (body l zi s).2.weight = zi.toNat + 2 ^ w * s.weight + productSum l ∧
      (body l zi s).2.nextCarry.toNat ≤ n + l.length := by
  induction l generalizing zi s n with
  | nil => simp [body, productSum, hn]
  | cons p rest ih =>
    obtain ⟨x, y⟩ := p
    simp only [List.length_cons] at hlt
    have hmul := digitMul_spec x y
    have hlo := digitAdd2_spec zi (digitMul x y).1
    have hhi := digitAdd2_spec s.next (digitMul x y).2
    have hlo1 := digitAdd2_carry zi (digitMul x y).1
    have hhi1 := digitAdd2_carry s.next (digitMul x y).2
    have hc' := toNat_add_bit hc hlo1 (by omega)
    have hn' := toNat_add_bit hn hhi1 (by omega)
    obtain ⟨hrec, hbound⟩ := ih (digitAdd2 zi (digitMul x y).1).1 ⟨(digitAdd2 s.next (digitMul x y).2).1,
      s.nextCarry + (digitAdd2 s.next (digitMul x y).2).2, s.carry + (digitAdd2 zi (digitMul x y).1).2⟩
      (n := n + 1) (by simp only; omega) (by simp only; omega) (by omega)
    refine ⟨?_, by simp only [body, List.length_cons]; omega⟩
    simp only [body]
    rw [hrec]
    simp only [ColumnState.weight, hc', hn', productSum, List.map_cons, List.sum_cons]
    zify at hmul hlo hhi
    push_cast
    linear_combination hmul + hlo + 2 ^ w * hhi

theorem columnFactors_length : (columnFactors X Y i).length ≤ max 1 Y.length := by
  simp only [columnFactors, List.length_map, List.length_range']
  omega

theorem column_spec (s : ColumnState w) (hs : s.nextCarry.toNat + 1 < 2 ^ w) (hlen : max 1 Y.length < 2 ^ w) :
    (column X Y i s).1.toNat + 2 ^ w * (column X Y i s).2.weight =
        productSum (columnFactors X Y i) + s.weight ∧
      (column X Y i s).2.nextCarry.toNat ≤ (columnFactors X Y i).length := by
  have hadd := digitAdd2_spec s.next s.carry
  have hbit := digitAdd2_carry s.next s.carry
  have hnext := toNat_add_bit (Nat.le_refl s.nextCarry.toNat) hbit hs
  have hfac := columnFactors_length X Y i
  obtain ⟨h1, h2⟩ := body_spec (columnFactors X Y i) (digitAdd2 s.next s.carry).1
    ⟨s.nextCarry + (digitAdd2 s.next s.carry).2, 0#w, 0#w⟩ (n := 0) (by simp) (by simp) (by omega)
  refine ⟨?_, by simpa [column] using h2⟩
  simp only [column]
  rw [h1]
  simp only [ColumnState.weight, hnext]
  zify at hadd
  push_cast
  simp only [BitVec.toNat_ofNat, Nat.zero_mod]
  linear_combination hadd

/-! ## Columns are coefficients -/

/-- The digits as integers. -/
def ints (X : List (BitVec w)) : List ℤ := X.map fun d => (d.toNat : ℤ)

@[simp] theorem ints_length : (ints X).length = X.length := by simp [ints]

theorem getD_ints : (ints X).getD i 0 = (digit X i).toNat := by
  have h := List.getD_map (l := X) (d := 0#w) (n := i) fun d : BitVec w => (d.toNat : ℤ)
  simpa [ints, digit] using h

theorem horner_eq_eval (as : List ℤ) : horner w as = (Coefficients.poly as).eval (2 ^ w) := by
  induction as with
  | nil => simp
  | cons a as ih => simp [ih]

theorem eval_poly_ints : (Coefficients.poly (ints X)).eval (2 ^ w) = (value X : ℤ) := by
  rw [← horner_eq_eval]
  simpa [ints] using horner_toNat 1 X

theorem productSum_columnFactors {i : Nat} :
    productSum (columnFactors X Y i) = (Coefficients.poly (ints X) * Coefficients.poly (ints Y)).coeff i := by
  rw [Coefficients.coeff_mul_range]
  simp only [Coefficients.coeff_poly, getD_ints]
  have hsub : Finset.Ico (i - (Y.length - 1)) (min i (X.length - 1) + 1) ⊆ Finset.range (i + 1) := by
    intro j hj
    simp only [Finset.mem_Ico, Finset.mem_range] at hj ⊢
    omega
  rw [← Finset.sum_subset hsub]
  · rw [Nat.Ico_eq_range']
    simp only [productSum, columnFactors, List.map_map]
    rfl
  · -- outside the bounds one of the factors is past the end of its list
    intro j hj hout
    simp only [Finset.mem_Ico, Finset.mem_range] at hj hout
    rcases Nat.lt_or_ge j X.length with hjX | hjX
    · rw [digit, digit, List.getD_eq_default Y _ (by omega)]
      simp
    · rw [digit, List.getD_eq_default X _ hjX]
      simp

/-- All columns together make up the product. -/
theorem horner_columns (hX : X ≠ []) (hY : Y ≠ []) :
    ((digit X 0).toNat * (digit Y 0).toNat : ℤ) + 2 ^ w *
      horner w ((List.range' 1 (X.length + Y.length - 2)).map fun i => productSum (columnFactors X Y i)) =
        value X * value Y := by
  have hXpos := List.length_pos_iff.2 hX
  have hYpos := List.length_pos_iff.2 hY
  have hdeg := Coefficients.degree_mul_poly_lt (ints X) (ints Y)
  rw [← eval_poly_ints X, ← eval_poly_ints Y, ← Polynomial.eval_mul, ← Coefficients.poly_range_coeff hdeg, ← horner_eq_eval]
  have hrange : List.range ((ints X).length + (ints Y).length - 1) = 0 :: List.range' 1 (X.length + Y.length - 2) := by
    rw [ints_length, ints_length, show X.length + Y.length - 1 = X.length + Y.length - 2 + 1 by omega, List.range_eq_range',
      List.range'_succ]
  rw [hrange, List.map_cons, horner_cons, Polynomial.mul_coeff_zero, Coefficients.coeff_poly, Coefficients.coeff_poly,
    getD_ints, getD_ints]
  simp only [productSum_columnFactors X Y]

theorem multiplySchoolbook_spec (zlen : Nat) (X Y : List (BitVec w)) (hlen : Y.length + 1 < 2 ^ w) :
    value (multiplySchoolbook zlen X Y) = value X * value Y ∧
      (multiplySchoolbook zlen X Y).length = max zlen (if X.length = 0 ∨ Y.length = 0 then 0 else X.length + Y.length) := by
  unfold multiplySchoolbook
  by_cases hempty : X.length = 0 ∨ Y.length = 0
  · rw [if_pos hempty]
    rcases hempty with h | h <;> simp [List.length_eq_zero_iff.1 h]
  · rw [if_neg hempty, if_neg hempty]
    have hX : X ≠ [] := fun h => hempty (.inl (by simp [h]))
    have hY : Y ≠ [] := fun h => hempty (.inr (by simp [h]))
    have hmul := digitMul_spec (digit X 0) (digit Y 0)
    have hchain := chain_value (column X Y) (fun i => productSum (columnFactors X Y i)) ColumnState.weight
      (fun s => s.nextCarry.toNat ≤ Y.length)
      (fun i s hs => by
        obtain ⟨h1, h2⟩ := column_spec X Y i s (by omega) (by omega)
        have := columnFactors_length X Y i
        exact ⟨by omega, h1⟩)
      (List.range' 1 (X.length + Y.length - 2)) ⟨(digitMul (digit X 0) (digit Y 0)).2, 0#w, 0#w⟩ (by simp)
    have hrlen : (chain (column X Y) (List.range' 1 (X.length + Y.length - 2))
        ⟨(digitMul (digit X 0) (digit Y 0)).2, 0#w, 0#w⟩).1.length = X.length + Y.length - 2 := by simp
    dsimp only
    generalize chain (column X Y) _ _ = r at *
    obtain ⟨hinv, hvalue⟩ := hchain
    have hcols := horner_columns X Y hX hY
    generalize digitMul (digit X 0) (digit Y 0) = p at *
    have htotal : (value (p.1 :: r.1) : ℤ) + 2 ^ (w * (X.length + Y.length - 1)) * r.2.weight = value X * value Y := by
      have hp : (2 : ℤ) ^ (w * (X.length + Y.length - 1)) = 2 ^ w * 2 ^ (w * (X.length + Y.length - 2)) := by
        rw [show X.length + Y.length - 1 = X.length + Y.length - 2 + 1 by omega]
        exact_mod_cast pow_succ_len w _
      simp only [List.length_range', ColumnState.weight, BitVec.toNat_ofNat, Nat.zero_mod] at hvalue
      rw [← hcols, hp, value_cons]
      zify at hmul
      push_cast
      simp only [ColumnState.weight]
      linear_combination hmul + 2 ^ w * hvalue
    have hweight : r.2.next.toNat + r.2.carry.toNat + 2 ^ w * r.2.nextCarry.toNat < 2 ^ w := by
      have hlt : value X * value Y < 2 ^ (w * (X.length + Y.length - 1)) * 2 ^ w := by
        rw [← Nat.pow_add, ← Nat.mul_add_one, show X.length + Y.length - 1 + 1 = X.length + Y.length by omega, Nat.mul_add,
          Nat.pow_add]
        exact Nat.mul_lt_mul'' (value_lt X) (value_lt Y)
      apply Nat.lt_of_mul_lt_mul_left (a := 2 ^ (w * (X.length + Y.length - 1)))
      zify at hlt ⊢
      simp only [ColumnState.weight] at htotal
      linarith [Int.natCast_nonneg (value (p.1 :: r.1))]
    -- so nothing is left to carry past the last digit
    have hzero : r.2.nextCarry.toNat = 0 := by
      by_contra hne
      have : 2 ^ w * 1 ≤ 2 ^ w * r.2.nextCarry.toNat := Nat.mul_le_mul_left _ (by omega)
      omega
    have hlast : (digitAdd2 r.2.next r.2.carry).1.toNat = r.2.next.toNat + r.2.carry.toNat := by
      have hadd := digitAdd2_spec r.2.next r.2.carry
      have hcarry : (digitAdd2 r.2.next r.2.carry).2.toNat = 0 := by
        by_contra hne
        have : 2 ^ w * 1 ≤ 2 ^ w * (digitAdd2 r.2.next r.2.carry).2.toNat := Nat.mul_le_mul_left _ (by omega)
        omega
      rw [hcarry] at hadd
      omega
    have hplen : (p.1 :: r.1).length = X.length + Y.length - 1 := by
      simp only [List.length_cons, hrlen]
      omega
    rw [value_padTo, length_padTo, List.cons_append, ← List.cons_append, value_concat, List.length_append, hplen, hlast,
      List.length_singleton]
    refine ⟨?_, by congr 1; omega⟩
    zify
    simp only [ColumnState.weight, hzero] at htotal
    linear_combination htotal

end V8Core.Bigint
