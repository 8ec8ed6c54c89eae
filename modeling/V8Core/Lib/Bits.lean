import V8Core.Lib.Radix
/-!
# Bitwise operations on digit lists

A bitwise operation on numbers is done digit by digit. Past the end of the
shorter list the operation sees zeros, which either keep the digits of the
longer list or clear them; `zipBits` says which, and `value_zipBits` is the one
equation for every operation. The loops that feed it run two carry chains side
by side (`chain_both`) or one (`chain_right`).
-/

namespace Radix

variable {w : Nat} {α β σ τ : Type}

/-- The digit operation `op` computes the Boolean function `f` on each bit. -/
structure ActsAs (op : BitVec w → BitVec w → BitVec w) (f : Bool → Bool → Bool) : Prop where
  zero : f false false = false
  toNat : ∀ a b, (op a b).toNat = Nat.bitwise f a.toNat b.toNat

/-- `op` on the common digits, then the digits of `A` or `B` that are left. -/
def zipBits (op : BitVec w → BitVec w → BitVec w) (keepA keepB : Bool) (A B : List (BitVec w)) :
    List (BitVec w) :=
  A.zipWith op B ++ (if keepA then A.drop B.length else []) ++ (if keepB then B.drop A.length else [])

theorem bitwise_zero_left (f : Bool → Bool → Bool) (n : Nat) :
    Nat.bitwise f 0 n = if f false true then n else 0 := by
  rw [Nat.bitwise]; simp

theorem bitwise_zero_right (f : Bool → Bool → Bool) (n : Nat) :
    Nat.bitwise f n 0 = if f true false then n else 0 := by
  rw [Nat.bitwise]; split <;> simp_all

/-- A bitwise operation splits at any digit boundary. -/
theorem bitwise_digit {f : Bool → Bool → Bool} (hf : f false false = false) {a b : Nat} (m n : Nat)
    (ha : a < 2 ^ w) (hb : b < 2 ^ w) :
    Nat.bitwise f (a + 2 ^ w * m) (b + 2 ^ w * n) = Nat.bitwise f a b + 2 ^ w * Nat.bitwise f m n := by
  have hr : Nat.bitwise f a b < 2 ^ w := Nat.bitwise_lt_two_pow ha hb
  refine Nat.eq_of_testBit_eq fun i => ?_
  rw [Nat.testBit_bitwise hf, Nat.add_comm a, Nat.add_comm b, Nat.add_comm (Nat.bitwise f a b),
    Nat.testBit_two_pow_mul_add _ ha, Nat.testBit_two_pow_mul_add _ hb, Nat.testBit_two_pow_mul_add _ hr,
    Nat.testBit_bitwise hf, Nat.testBit_bitwise hf]
  split <;> rfl

theorem value_zipBits {op : BitVec w → BitVec w → BitVec w} {f : Bool → Bool → Bool} (h : ActsAs op f)
    (A B : List (BitVec w)) :
    value (zipBits op (f true false) (f false true) A B) = Nat.bitwise f (value A) (value B) := by
  induction A generalizing B with
  | nil =>
    rw [value_nil, bitwise_zero_left]
    simp only [zipBits, List.drop_nil, ite_self]
    split <;> rfl
  | cons a A ih =>
    cases B with
    | nil =>
      rw [value_nil, bitwise_zero_right]
      simp only [zipBits, List.drop_nil, ite_self, List.append_nil]
      split <;> rfl
    | cons b B =>
      have hc : zipBits op (f true false) (f false true) (a :: A) (b :: B) =
          op a b :: zipBits op (f true false) (f false true) A B := by
        simp [zipBits]
      rw [hc, value_cons, ih, value_cons, value_cons, bitwise_digit h.zero _ _ a.isLt b.isLt, h.toNat]

/-- Two loops run in lockstep, their digits joined by `op`. -/
theorem chain_both (op : BitVec w → BitVec w → BitVec w) (f : α → σ → BitVec w × σ) (g : β → τ → BitVec w × τ)
    (X : List α) (Y : List β) (s : σ) (t : τ) :
    chain (fun p (b : σ × τ) => (op (f p.1 b.1).1 (g p.2 b.2).1, ((f p.1 b.1).2, (g p.2 b.2).2))) (X.zip Y) (s, t) =
      ((chain f X s).1.zipWith op (chain g Y t).1,
        ((chain f (X.take Y.length) s).2, (chain g (Y.take X.length) t).2)) := by
  induction X generalizing Y s t with
  | nil => simp
  | cons x X ih =>
    cases Y with
    | nil => simp
    | cons y Y => simp [ih]

/-- A loop over two lists that carries a state along the second one only. -/
theorem chain_right (op : α → BitVec w → BitVec w) (g : β → τ → BitVec w × τ) (X : List α) (Y : List β) (t : τ) :
    chain (fun p b => (op p.1 (g p.2 b).1, (g p.2 b).2)) (X.zip Y) t =
      (X.zipWith op (chain g Y t).1, (chain g (Y.take X.length) t).2) := by
  induction X generalizing Y t with
  | nil => simp
  | cons x X ih =>
    cases Y with
    | nil => simp
    | cons y Y => simp [ih]

/-- The rest of a loop starts in the state its first part ended in. -/
theorem chain_drop (f : α → σ → BitVec w × σ) (X : List α) (n : Nat) (s : σ) :
    (chain f (X.drop n) (chain f (X.take n) s).2).1 = (chain f X s).1.drop n := by
  rcases Nat.le_total n X.length with h | h
  · have hl : (chain f (X.take n) s).1.length = n := by simp [h]
    conv_rhs => rw [← List.take_append_drop n X, chain_append]
    exact (List.drop_left' hl).symm
  · rw [List.drop_eq_nil_of_le h, List.drop_eq_nil_of_le (by simpa using h)]; rfl

theorem actsAs_and : ActsAs (w := w) (· &&& ·) and := ⟨rfl, fun a b => BitVec.toNat_and a b⟩

theorem actsAs_or : ActsAs (w := w) (· ||| ·) or := ⟨rfl, fun a b => BitVec.toNat_or a b⟩

theorem actsAs_xor : ActsAs (w := w) (· ^^^ ·) bne := ⟨rfl, fun a b => BitVec.toNat_xor a b⟩

theorem actsAs_andNot : ActsAs (w := w) (fun a b => a &&& ~~~b) (fun p q => p && !q) := by
  refine ⟨rfl, fun a b => Nat.eq_of_testBit_eq fun i => ?_⟩
  rw [Nat.testBit_bitwise rfl]
  rw [BitVec.testBit_toNat, BitVec.testBit_toNat, BitVec.testBit_toNat, BitVec.getLsbD_and]
  by_cases hi : i < w
  · simp [hi]
  · simp [BitVec.getLsbD_of_ge a i (by omega)]

/-! ## Bitwise operations on integers -/

theorem int_land_comm (a b : ℤ) : Int.land a b = Int.land b a := by
  cases a <;> cases b <;> simp [Int.land, Nat.land_comm, Nat.lor_comm]

theorem int_lor_comm (a b : ℤ) : Int.lor a b = Int.lor b a := by
  cases a <;> cases b <;> simp [Int.lor, Nat.land_comm, Nat.lor_comm]

theorem int_xor_comm (a b : ℤ) : Int.xor a b = Int.xor b a := by
  cases a <;> cases b <;> simp [Int.xor, Nat.xor_comm]

theorem int_land_self (a : ℤ) : Int.land a a = a := by
  cases a <;> simp [Int.land]

end Radix
