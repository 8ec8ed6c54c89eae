import V8Core.Bigint.Digits
/-!
# Vector arithmetic

`vector-arithmetic.h` and `vector-arithmetic.cc`: addition and subtraction of
digit vectors. Every routine is a carry loop over the common digits followed by
one over the rest, so the four loops come first, each with its equation.
-/

open Radix

namespace V8Core.Bigint

variable {w : Nat}
variable (Z : List (BitVec w)) (zlen : Nat) (X : List (BitVec w)) (y c : BitVec w) (Y : List (BitVec w))

/-! ## The carry loops -/

theorem digitAdd3_carry (a b c : BitVec w) (hc : c.toNat ≤ 1) : (digitAdd3 a b c).2.toNat ≤ 1 := by
  have h := digitAdd3_spec a b c
  by_contra hlt
  have : 2 ^ w * 2 ≤ 2 ^ w * (digitAdd3 a b c).2.toNat := Nat.mul_le_mul_left _ (by omega)
  omega

theorem digitAdd2_carry (a b : BitVec w) : (digitAdd2 a b).2.toNat ≤ 1 := by
  rw [digitAdd2_eq]; exact digitAdd3_carry a b 0#w (by simp)

/-- What a loop leaves that ends with a carry (`ε = 1`) or a borrow (`ε = -1`): `n` digits, which stand for `total`
together with the carry. -/
structure Leaves (ε : ℤ) (n : Nat) (total : ℤ) (r : List (BitVec w) × BitVec w) : Prop where
  length : r.1.length = n
  carry : r.2.toNat ≤ 1
  total_eq : (value r.1 : ℤ) + 2 ^ (w * n) * (ε * r.2.toNat) = total

section Leaves
variable {ε : ℤ} {n a b : Nat} {r lo hi : List (BitVec w) × BitVec w} {X Y}

theorem Leaves.add_eq (h : Leaves 1 n (a + 1 * b) r) : value r.1 + 2 ^ (w * n) * r.2.toNat = a + b := by
  have := h.total_eq
  zify
  linear_combination this

theorem Leaves.sub_eq (h : Leaves (-1) n (a + -1 * b) r) : value r.1 + b = a + 2 ^ (w * n) * r.2.toNat := by
  have := h.total_eq
  zify
  linear_combination this

/-- A loop over the digits of `Y` and one over the rest of `X`. -/
theorem Leaves.loops (hl : Y.length ≤ X.length)
    (hlo : Leaves ε Y.length (value (X.take Y.length) + ε * value Y + ε * (0#w).toNat) lo)
    (hhi : Leaves ε (X.drop Y.length).length (value (X.drop Y.length) + ε * lo.2.toNat) hi) :
    Leaves ε X.length (value X + ε * value Y) (lo.1 ++ hi.1, hi.2) := by
  refine ⟨by simp [hlo.length, hhi.length, hl], hhi.carry, ?_⟩
  have h1 := hlo.total_eq
  have h2 := hhi.total_eq
  have hpow : (2 : ℤ) ^ (w * X.length) = 2 ^ (w * Y.length) * 2 ^ (w * (X.length - Y.length)) := mod_cast pow_len_split w hl
  rw [List.length_drop] at h2
  rw [value_append, hlo.length, value_split_at X Y.length, hpow]
  simp only [BitVec.toNat_ofNat, Nat.zero_mod] at h1
  push_cast at h1 h2 ⊢
  linear_combination h1 + 2 ^ (w * Y.length) * h2

/-- The one-digit steps with a carry or a borrow, as the chain rules take them. -/
theorem digitAdd2_step (x s : BitVec w) : (digitAdd2 x s).2.toNat ≤ 1 ∧
    ((digitAdd2 x s).1.toNat : ℤ) + 2 ^ w * (1 * (digitAdd2 x s).2.toNat) = x.toNat + 1 * s.toNat := by
  rw [one_mul, one_mul]
  exact ⟨digitAdd2_carry x s, mod_cast digitAdd2_spec x s⟩

theorem digitSub_step (x s : BitVec w) : (digitSub x s).2.toNat ≤ 1 ∧
    ((digitSub x s).1.toNat : ℤ) + 2 ^ w * (-1 * (digitSub x s).2.toNat) = x.toNat + -1 * s.toNat := by
  obtain ⟨h, hb⟩ := digitSub_spec x s
  refine ⟨hb, ?_⟩
  zify at h
  linear_combination h

theorem zip_leaves {f : BitVec w × BitVec w → BitVec w → BitVec w × BitVec w}
    (hf : ∀ x y s : BitVec w, s.toNat ≤ 1 → (f (x, y) s).2.toNat ≤ 1 ∧
      ((f (x, y) s).1.toNat : ℤ) + 2 ^ w * (ε * (f (x, y) s).2.toNat) = 1 * x.toNat + ε * y.toNat + ε * s.toNat)
    (hl : Y.length ≤ X.length) (hc : c.toNat ≤ 1) :
    Leaves ε Y.length (value (X.take Y.length) + ε * value Y + ε * c.toNat) (chain f (X.zip Y) c) := by
  have h := chain_zip_value f 1 ε (fun c => ε * c.toNat) (fun c => c.toNat ≤ 1) hf X Y hl c hc
  rw [one_mul] at h
  exact ⟨by simp [hl], h.1, h.2⟩

theorem list_leaves {f : BitVec w → BitVec w → BitVec w × BitVec w}
    (hf : ∀ x s : BitVec w, (f x s).2.toNat ≤ 1 ∧
      ((f x s).1.toNat : ℤ) + 2 ^ w * (ε * (f x s).2.toNat) = x.toNat + ε * s.toNat) (hc : c.toNat ≤ 1) :
    Leaves ε X.length (value X + ε * c.toNat) (chain f X c) ∧
      Leaves ε X.length (value X + ε * c.toNat) (chainWhile (· == 0#w) f X c) := by
  have h := chain_list_value f 1 (fun c => ε * c.toNat) (fun c => c.toNat ≤ 1) (fun x s _ => by rw [one_mul]; exact hf x s) X c hc
  have h' := chainWhile_value (· == 0#w) f (fun c => ε * c.toNat) (fun c => c.toNat ≤ 1)
    (fun s hs => by simp [beq_iff_eq.1 hs]) (fun x s _ => hf x s) X c hc
  rw [one_mul] at h
  exact ⟨⟨by simp, h.1, h.2⟩, by simp, h'.1, h'.2⟩

end Leaves

/-- `Z[i] = digit_add3(X[i], Y[i], carry, &carry)` over the digits of `Y`. -/
def addDigits (X Y : List (BitVec w)) (carry : BitVec w) : List (BitVec w) × BitVec w :=
  chain (fun p c => digitAdd3 p.1 p.2 c) (X.zip Y) carry

/-- `Z[i] = digit_add2(X[i], carry, &carry)` over the digits of `X`. -/
def carryDigits (X : List (BitVec w)) (carry : BitVec w) : List (BitVec w) × BitVec w :=
  chain (fun x c => digitAdd2 x c) X carry

/-- `Z[i] = digit_sub2(X[i], Y[i], borrow, &borrow)` over the digits of `Y`. -/
def subDigits (X Y : List (BitVec w)) (borrow : BitVec w) : List (BitVec w) × BitVec w :=
  chain (fun p c => digitSub2 p.1 p.2 c) (X.zip Y) borrow

/-- `Z[i] = digit_sub(X[i], borrow, &borrow)` over the digits of `X`. -/
def borrowDigits (X : List (BitVec w)) (borrow : BitVec w) : List (BitVec w) × BitVec w :=
  chain (fun x c => digitSub x c) X borrow

theorem addDigits_leaves (hl : Y.length ≤ X.length) (hc : c.toNat ≤ 1) :
    Leaves 1 Y.length (value (X.take Y.length) + 1 * value Y + 1 * c.toNat) (addDigits X Y c) :=
  zip_leaves c (fun x y s hs => ⟨digitAdd3_carry x y s hs, by
    have h := digitAdd3_spec x y s
    zify at h
    linear_combination h⟩) hl hc

theorem subDigits_leaves (hl : Y.length ≤ X.length) (hc : c.toNat ≤ 1) :
    Leaves (-1) Y.length (value (X.take Y.length) + -1 * value Y + -1 * c.toNat) (subDigits X Y c) :=
  zip_leaves c (fun x y s hs => ⟨(digitSub2_spec x y s hs).2, by
    have h := (digitSub2_spec x y s hs).1
    zify at h
    linear_combination h⟩) hl hc

theorem borrowDigits_leaves (hc : c.toNat ≤ 1) : Leaves (-1) X.length (value X + -1 * c.toNat) (borrowDigits X c) :=
  (list_leaves c digitSub_step hc).1

/-! ## In-place addition and subtraction -/

/-- `Z[i] = digit_add2(Z[i], carry, &carry)` while there is a carry. -/
def propagateCarry (Z : List (BitVec w)) (carry : BitVec w) : List (BitVec w) × BitVec w :=
  chainWhile (fun c => c == 0#w) (fun z c => digitAdd2 z c) Z carry

/-- `Z[i] = digit_sub(Z[i], borrow, &borrow)` while there is a borrow. -/
def propagateBorrow (Z : List (BitVec w)) (borrow : BitVec w) : List (BitVec w) × BitVec w :=
  chainWhile (fun c => c == 0#w) (fun z c => digitSub z c) Z borrow

theorem propagateCarry_leaves (hc : c.toNat ≤ 1) : Leaves 1 Z.length (value Z + 1 * c.toNat) (propagateCarry Z c) :=
  (list_leaves c digitAdd2_step hc).2

/-- `AddAndReturnOverflow(Z, X)`: `Z += X`, with the carry out of `Z`. -/
def addAndReturnOverflow (Z X : List (BitVec w)) : List (BitVec w) × BitVec w :=
  let X := normalize X
  if X.length = 0 then (Z, 0#w)
  else
    let lo := addDigits Z X 0#w
    let hi := propagateCarry (Z.drop X.length) lo.2
    (lo.1 ++ hi.1, hi.2)

/-- `SubAndReturnBorrow(Z, X)`: `Z -= X`, with the borrow out of `Z`. -/
def subAndReturnBorrow (Z X : List (BitVec w)) : List (BitVec w) × BitVec w :=
  let X := normalize X
  if X.length = 0 then (Z, 0#w)
  else
    let lo := subDigits Z X 0#w
    let hi := propagateBorrow (Z.drop X.length) lo.2
    (lo.1 ++ hi.1, hi.2)

theorem addAndReturnOverflow_leaves (h : (normalize X).length ≤ Z.length) :
    Leaves 1 Z.length (value Z + 1 * value X) (addAndReturnOverflow Z X) := by
  simp only [addAndReturnOverflow]
  split
  · rename_i h0
    have := (normalize_eq_nil_iff X).1 (List.length_eq_zero_iff.1 h0)
    exact ⟨rfl, by simp, by simp [this]⟩
  · have hlo := addDigits_leaves Z 0#w (normalize X) h (by simp)
    have hloops := hlo.loops h (propagateCarry_leaves _ _ hlo.carry)
    rwa [value_normalize] at hloops

theorem subAndReturnBorrow_leaves (h : (normalize X).length ≤ Z.length) :
    Leaves (-1) Z.length (value Z + -1 * value X) (subAndReturnBorrow Z X) := by
  simp only [subAndReturnBorrow]
  split
  · rename_i h0
    have := (normalize_eq_nil_iff X).1 (List.length_eq_zero_iff.1 h0)
    exact ⟨rfl, by simp, by simp [this]⟩
  · have hlo := subDigits_leaves Z 0#w (normalize X) h (by simp)
    have hloops := hlo.loops h (list_leaves _ digitSub_step hlo.carry).2
    rwa [value_normalize] at hloops

/-! ## Adding and subtracting a digit -/

/-- `Add(X, y)`: `X += y`. The loop has no bound; the digit it would store
behind the end of `X` stays visible at the end of the result. -/
def addDigit : List (BitVec w) → BitVec w → List (BitVec w)
  | [], carry => [carry]
  | x :: X, carry =>
    let r := digitAdd2 x carry
    r.1 :: if r.2 = 0#w then X else addDigit X r.2

/-- `Subtract(X, y)`: `X -= y`. -/
def subDigit : List (BitVec w) → BitVec w → List (BitVec w)
  | [], borrow => [borrow]
  | x :: X, borrow =>
    let r := digitSub x borrow
    r.1 :: if r.2 = 0#w then X else subDigit X r.2

theorem addDigit_value : value (addDigit X y) = value X + y.toNat := by
  induction X generalizing y with
  | nil => simp [addDigit]
  | cons x X ih =>
    have h := digitAdd2_spec x y
    simp only [addDigit, value_cons]
    split
    · rename_i h0
      rw [h0] at h
      simp at h
      omega
    · rw [ih]
      zify at h ⊢
      linear_combination h

theorem addDigit_length (hX : X ≠ []) (h : value X + y.toNat < 2 ^ (w * X.length)) :
    (addDigit X y).length = X.length := by
  induction X generalizing y with
  | nil => exact absurd rfl hX
  | cons x X ih =>
    have hs := digitAdd2_spec x y
    simp only [addDigit, List.length_cons, Nat.add_right_cancel_iff]
    split
    · rfl
    · rename_i h0
      have hlt : value X + (digitAdd2 x y).2.toNat < 2 ^ (w * X.length) := by
        rw [value_cons, List.length_cons, pow_succ_len] at h
        by_contra hge
        have : 2 ^ w * 2 ^ (w * X.length) ≤ 2 ^ w * (value X + (digitAdd2 x y).2.toNat) :=
          Nat.mul_le_mul_left _ (by omega)
        rw [Nat.mul_add] at this
        omega
      refine ih _ ?_ hlt
      rintro rfl
      simp only [List.length_nil, Nat.mul_zero] at hlt
      exact h0 (BitVec.toNat_inj.1 (by simp; omega))

theorem subDigit_spec (hX : X ≠ []) (h : y.toNat ≤ value X) :
    value (subDigit X y) + y.toNat = value X ∧ (subDigit X y).length = X.length := by
  induction X generalizing y with
  | nil => exact absurd rfl hX
  | cons x X ih =>
    obtain ⟨h1, h2⟩ := digitSub_spec x y
    simp only [subDigit, value_cons, List.length_cons, Nat.add_right_cancel_iff]
    split
    · rename_i h0
      rw [h0] at h1
      simp only [BitVec.toNat_ofNat, Nat.zero_mod] at h1
      exact ⟨by omega, rfl⟩
    · rename_i h0
      have hb : (digitSub x y).2.toNat ≠ 0 := fun hz => h0 (BitVec.toNat_inj.1 (by simpa using hz))
      have hb1 : (digitSub x y).2.toNat = 1 := by omega
      rw [hb1] at h1
      have hpos : 0 < value X := by
        rcases Nat.eq_zero_or_pos (value X) with hz | hz
        · rw [value_cons, hz] at h; omega
        · exact hz
      obtain ⟨h3, h4⟩ := ih (digitSub x y).2 (by rintro rfl; simp at hpos) (by omega)
      refine ⟨?_, h4⟩
      rw [hb1] at h3
      rw [← h3, Nat.mul_add]
      omega

/-! ## Addition and subtraction of vectors -/

/-- `for (; i < Z.len(); i++) { Z[i] = carry; carry = 0; }` over `n` digits. -/
def storeCarry : Nat → BitVec w → List (BitVec w)
  | 0, _ => []
  | n + 1, carry => carry :: List.replicate n 0#w

@[simp] theorem storeCarry_length (n : Nat) (c : BitVec w) : (storeCarry n c).length = n := by
  cases n <;> simp [storeCarry]

theorem storeCarry_value (n : Nat) (c : BitVec w) : value (storeCarry n c) = if n = 0 then 0 else c.toNat := by
  cases n <;> simp [storeCarry]

/-- The two loops of an addition, `X` being the longer operand. -/
def addLoops (X Y : List (BitVec w)) : List (BitVec w) × BitVec w :=
  let lo := addDigits X Y 0#w
  let hi := carryDigits (X.drop Y.length) lo.2
  (lo.1 ++ hi.1, hi.2)

/-- The two loops of a subtraction, `X` being the longer operand. -/
def subLoops (X Y : List (BitVec w)) : List (BitVec w) × BitVec w :=
  let lo := subDigits X Y 0#w
  let hi := borrowDigits (X.drop Y.length) lo.2
  (lo.1 ++ hi.1, hi.2)

theorem addLoops_leaves (hl : Y.length ≤ X.length) : Leaves 1 X.length (value X + 1 * value Y) (addLoops X Y) := by
  have hlo := addDigits_leaves X 0#w Y hl (by simp)
  exact hlo.loops hl (list_leaves _ digitAdd2_step hlo.carry).1

theorem subLoops_leaves (hl : Y.length ≤ X.length) : Leaves (-1) X.length (value X + -1 * value Y) (subLoops X Y) := by
  have hlo := subDigits_leaves X 0#w Y hl (by simp)
  exact hlo.loops hl (borrowDigits_leaves _ _ hlo.carry)

/-- Subtracting a smaller number leaves no borrow. -/
theorem subLoops_exact (hl : Y.length ≤ X.length) (h : value Y ≤ value X) :
    value (subLoops X Y).1 + value Y = value X := by
  obtain ⟨hlen, h2, -⟩ := subLoops_leaves X Y hl
  have h1 := (subLoops_leaves X Y hl).sub_eq
  have h3 := value_lt (subLoops X Y).1
  rw [hlen] at h3
  have h4 : (subLoops X Y).2.toNat = 0 := by
    by_contra h0
    rw [show (subLoops X Y).2.toNat = 1 by omega] at h1
    omega
  rw [h4] at h1
  simpa using h1

/-- The body of `Add(Z, X, Y)` once `X` is the longer operand. -/
def addLonger (zlen : Nat) (X Y : List (BitVec w)) : List (BitVec w) :=
  let r := addLoops X Y
  r.1 ++ storeCarry (zlen - X.length) r.2

/-- `Add(Z, X, Y)`. -/
def add (zlen : Nat) (X Y : List (BitVec w)) : List (BitVec w) :=
  if X.length < Y.length then addLonger zlen Y X else addLonger zlen X Y

theorem addLonger_spec (hl : Y.length ≤ X.length) (hz : X.length ≤ zlen) :
    value (addLonger zlen X Y) = (value X + value Y) % 2 ^ (w * zlen) ∧ (addLonger zlen X Y).length = zlen := by
  have hloops := addLoops_leaves X Y hl
  have hlen : (addLonger zlen X Y).length = zlen := by
    simp [addLonger, hloops.length]; omega
  refine ⟨?_, hlen⟩
  have hlt := value_lt (addLonger zlen X Y)
  rw [hlen] at hlt
  simp only [addLonger] at hlt ⊢
  rw [value_append, storeCarry_value, hloops.length] at hlt ⊢
  rw [← hloops.add_eq]
  by_cases h0 : zlen - X.length = 0
  · rw [if_pos h0, Nat.mul_zero, Nat.add_zero] at hlt ⊢
    rw [show zlen = X.length by omega, Nat.add_mul_mod_self_left, Nat.mod_eq_of_lt]
    rwa [show zlen = X.length by omega] at hlt
  · rw [if_neg h0] at hlt ⊢
    exact (Nat.mod_eq_of_lt hlt).symm

theorem add_spec (hX : X.length ≤ zlen) (hY : Y.length ≤ zlen) :
    value (add zlen X Y) = (value X + value Y) % 2 ^ (w * zlen) ∧ (add zlen X Y).length = zlen := by
  unfold add
  split
  · rw [Nat.add_comm (value X)]; exact addLonger_spec zlen Y X (by omega) hY
  · exact addLonger_spec zlen X Y (by omega) hX

/-- `Subtract(Z, X, Y)`, for `X >= Y`. -/
def subtract (zlen : Nat) (X Y : List (BitVec w)) : List (BitVec w) :=
  padTo zlen (subLoops (normalize X) (normalize Y)).1

theorem length_normalize_le_of_le {X Y : List (BitVec w)} (h : value Y ≤ value X) :
    (normalize Y).length ≤ (normalize X).length := by
  by_contra hlt
  have := value_lt_of_length_lt (X := normalize X) (isDigitNormalized_normalize Y) (by omega)
  simp at this
  omega

theorem subtract_spec (h : value Y ≤ value X) (hz : (normalize X).length ≤ zlen) :
    value (subtract zlen X Y) + value Y = value X ∧ (subtract zlen X Y).length = zlen := by
  have hl := length_normalize_le_of_le h
  have h1 := subLoops_exact (normalize X) (normalize Y) hl (by simpa using h)
  refine ⟨by simpa [subtract] using h1, ?_⟩
  rw [subtract, length_padTo, (subLoops_leaves _ _ hl).length]
  omega

/-- `AddAndReturnCarry(Z, X, Y)`: adds exactly the digits of `Y`. -/
def addAndReturnCarry (Z X Y : List (BitVec w)) : List (BitVec w) × BitVec w :=
  let r := addDigits X Y 0#w
  (r.1 ++ Z.drop Y.length, r.2)

/-- `SubtractAndReturnBorrow(Z, X, Y)`: subtracts exactly the digits of `Y`. -/
def subtractAndReturnBorrow (Z X Y : List (BitVec w)) : List (BitVec w) × BitVec w :=
  let r := subDigits X Y 0#w
  (r.1 ++ Z.drop Y.length, r.2)

/-- A loop over the digits of `Y` alone: those above are left as they were. -/
theorem Leaves.partly {ε : ℤ} {lo : List (BitVec w) × BitVec w} {X Y : List (BitVec w)} (hl : Y.length ≤ X.length)
    (hlo : Leaves ε Y.length (value (X.take Y.length) + ε * value Y + ε * (0#w).toNat) lo) :
    (value (lo.1 ++ X.drop Y.length) : ℤ) + 2 ^ (w * Y.length) * (ε * lo.2.toNat) = value X + ε * value Y ∧
      (lo.1 ++ X.drop Y.length).length = X.length ∧
      ∀ k, Y.length ≤ k → (lo.1 ++ X.drop Y.length).drop k = X.drop k := by
  refine ⟨?_, by simp [hlo.length, hl], fun k hk => ?_⟩
  · have h := hlo.total_eq
    rw [value_append, hlo.length, value_split_at X Y.length]
    simp only [BitVec.toNat_ofNat, Nat.zero_mod] at h
    push_cast at h ⊢
    linear_combination h
  · rw [List.drop_append, hlo.length, List.drop_eq_nil_of_le (by rw [hlo.length]; exact hk), List.nil_append, List.drop_drop,
      Nat.add_sub_cancel' hk]

theorem addAndReturnCarry_spec (hl : Y.length ≤ X.length) :
    value (addAndReturnCarry X X Y).1 + 2 ^ (w * Y.length) * (addAndReturnCarry X X Y).2.toNat = value X + value Y ∧
      (addAndReturnCarry X X Y).1.length = X.length ∧
      ∀ k, Y.length ≤ k → (addAndReturnCarry X X Y).1.drop k = X.drop k := by
  obtain ⟨h, hrest⟩ := (addDigits_leaves X 0#w Y hl (by simp)).partly hl
  refine ⟨?_, hrest⟩
  rw [one_mul, one_mul] at h
  exact_mod_cast h

theorem subtractAndReturnBorrow_spec (hl : Y.length ≤ X.length) :
    value (subtractAndReturnBorrow X X Y).1 + value Y =
        value X + 2 ^ (w * Y.length) * (subtractAndReturnBorrow X X Y).2.toNat ∧
      (subtractAndReturnBorrow X X Y).2.toNat ≤ 1 ∧
      (subtractAndReturnBorrow X X Y).1.length = X.length ∧
      ∀ k, Y.length ≤ k → (subtractAndReturnBorrow X X Y).1.drop k = X.drop k := by
  have hlo := subDigits_leaves X 0#w Y hl (by simp)
  obtain ⟨h, hrest⟩ := hlo.partly hl
  refine ⟨?_, hlo.carry, hrest⟩
  unfold subtractAndReturnBorrow
  zify
  linear_combination h

/-! ## Signed addition and subtraction -/

/-- `AddSigned(Z, X, x_negative, Y, y_negative)`: the magnitude and the sign. -/
def addSigned (zlen : Nat) (X : List (BitVec w)) (xNegative : Bool) (Y : List (BitVec w)) (yNegative : Bool) :
    List (BitVec w) × Bool :=
  if xNegative = yNegative then (add zlen X Y, xNegative)
  else if greaterThanOrEqual X Y then (subtract zlen X Y, xNegative)
  else (subtract zlen Y X, !xNegative)

/-- `SubtractSigned(Z, X, x_negative, Y, y_negative)`. -/
def subtractSigned (zlen : Nat) (X : List (BitVec w)) (xNegative : Bool) (Y : List (BitVec w))
    (yNegative : Bool) : List (BitVec w) × Bool :=
  if xNegative ≠ yNegative then (add zlen X Y, xNegative)
  else if greaterThanOrEqual X Y then (subtract zlen X Y, xNegative)
  else (subtract zlen Y X, !xNegative)

/-- The number a sign and a magnitude stand for. -/
def signedValue (negative : Bool) (X : List (BitVec w)) : ℤ := if negative then -(value X : ℤ) else value X

theorem subtractSigned_eq (xNegative : Bool) (Y : List (BitVec w)) (yNegative : Bool) :
    subtractSigned zlen X xNegative Y yNegative = addSigned zlen X xNegative Y (!yNegative) := by
  cases xNegative <;> cases yNegative <;> rfl

/-- When the result fits, signed addition is exact. -/
theorem addSigned_spec (xNegative : Bool) (Y : List (BitVec w)) (yNegative : Bool) (hX : X.length ≤ zlen)
    (hY : Y.length ≤ zlen) (hfit : xNegative = yNegative → value X + value Y < 2 ^ (w * zlen)) :
    signedValue (addSigned zlen X xNegative Y yNegative).2 (addSigned zlen X xNegative Y yNegative).1 =
        signedValue xNegative X + signedValue yNegative Y ∧
      (addSigned zlen X xNegative Y yNegative).1.length = zlen := by
  unfold addSigned
  split
  · rename_i hs
    obtain ⟨h1, h2⟩ := add_spec zlen X Y hX hY
    rw [Nat.mod_eq_of_lt (hfit hs)] at h1
    refine ⟨?_, h2⟩
    subst hs
    cases xNegative
    · simp [signedValue, h1]
    · simp [signedValue, h1]
      ring
  · rename_i hs
    have hy : yNegative = !xNegative := by cases xNegative <;> cases yNegative <;> simp_all
    subst hy
    split
    · rename_i hge
      have hle := (greaterThanOrEqual_iff X Y).1 hge
      obtain ⟨h1, h2⟩ := subtract_spec zlen X Y hle (le_trans (length_normalize_le X) hX)
      refine ⟨?_, h2⟩
      zify at h1
      cases xNegative <;> simp [signedValue] <;> linarith
    · rename_i hge
      have hle : value X ≤ value Y := by
        have := (greaterThanOrEqual_iff X Y).not.1 hge; omega
      obtain ⟨h1, h2⟩ := subtract_spec zlen Y X hle (le_trans (length_normalize_le Y) hY)
      refine ⟨?_, h2⟩
      zify at h1
      cases xNegative <;> simp [signedValue] <;> linarith

/-! ## Adding and subtracting one -/

/-- `AddOne(Z, X)`. The carry past the last digit of `X` takes a new digit. -/
def addOne (zlen : Nat) (X : List (BitVec w)) : List (BitVec w) :=
  let r := propagateCarry X 1#w
  padTo zlen (if r.2 = 0#w then r.1 else r.1 ++ [r.2])

/-- `SubtractOne(Z, X)`. Like `Subtract(X, y)`, the loop has no bound. -/
def subtractOne (zlen : Nat) (X : List (BitVec w)) : List (BitVec w) := padTo zlen (subDigit X 1#w)

theorem toNat_one (hw : 0 < w) : (1#w).toNat = 1 := by
  rw [BitVec.toNat_ofNat, Nat.mod_eq_of_lt (Nat.one_lt_two_pow (by omega))]

theorem addOne_spec (hw : 0 < w) (zlen : Nat) (X : List (BitVec w)) (hX : X.length ≤ zlen)
    (h : value X + 1 < 2 ^ (w * zlen)) :
    value (addOne zlen X) = value X + 1 ∧ (addOne zlen X).length = zlen := by
  have hcarry := propagateCarry_leaves X 1#w (by rw [toNat_one hw])
  have h1 := hcarry.add_eq
  have h2 := hcarry.carry
  rw [toNat_one hw] at h1
  simp only [addOne, value_padTo]
  split
  · rename_i h0
    rw [h0] at h1
    exact ⟨by simpa using h1, by simp [hcarry.length, hX]⟩
  · rename_i h0
    have hc : (propagateCarry X 1#w).2.toNat ≠ 0 := fun hz => h0 (BitVec.toNat_inj.1 (by simpa using hz))
    rw [value_concat, hcarry.length]
    refine ⟨h1, ?_⟩
    have hlt : 2 ^ (w * X.length) < 2 ^ (w * zlen) := by
      rw [show (propagateCarry X 1#w).2.toNat = 1 by omega] at h1; omega
    have := Nat.lt_of_mul_lt_mul_left ((Nat.pow_lt_pow_iff_right (by norm_num)).1 hlt)
    simp [hcarry.length]; omega

theorem subtractOne_spec (hw : 0 < w) (zlen : Nat) (X : List (BitVec w)) (hX : X.length ≤ zlen)
    (h : 0 < value X) : value (subtractOne zlen X) + 1 = value X ∧ (subtractOne zlen X).length = zlen := by
  obtain ⟨h1, h2⟩ := subDigit_spec X 1#w (by rintro rfl; simp at h) (by rw [toNat_one hw]; omega)
  rw [toNat_one hw] at h1
  simp [subtractOne, h1, h2, hX]

end V8Core.Bigint
