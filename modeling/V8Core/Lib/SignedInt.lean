import Mathlib.Algebra.Order.Ring.Nat

/-!
# Signed machine integers

Values of `int` and `int64_t`, as integers that are checked: overflow of a signed type is undefined, here
`none`.
-/

namespace SignedInt

/-- The largest `int`. -/
def kMaxInt : Nat := 2 ^ 31 - 1

/-- A value of type `int`. -/
def int (x : Int) : Option Int := if -2147483648 ≤ x ∧ x ≤ 2147483647 then some x else none

/-- A value of type `int64_t`. -/
def int64 (x : Int) : Option Int :=
  if -9223372036854775808 ≤ x ∧ x ≤ 9223372036854775807 then some x else none

/-- A value of type `int` that cannot be negative. -/
def natInt (n : Nat) : Option Nat := if n ≤ kMaxInt then some n else none

/-- A value of type `int64_t` that cannot be negative. -/
def natInt64 (n : Nat) : Option Nat := if n < 2 ^ 63 then some n else none

variable {x : Int} {n : Nat}

theorem kMaxInt_eq : kMaxInt = 2147483647 := by decide

theorem int_eq (h : -2147483648 ≤ x ∧ x ≤ 2147483647) : int x = some x := if_pos h

theorem int64_eq (h : -9223372036854775808 ≤ x ∧ x ≤ 9223372036854775807) : int64 x = some x := if_pos h

theorem int_of_bounds (hlow : -(kMaxInt : Int) ≤ x) (hhigh : x ≤ kMaxInt) : int x = some x := by
  rw [kMaxInt_eq] at hlow hhigh
  exact int_eq (by omega)

theorem natInt_of_le (h : n ≤ kMaxInt) : natInt n = some n := if_pos h

theorem natInt_of_gt (h : kMaxInt < n) : natInt n = none := if_neg (Nat.not_le.2 h)

end SignedInt
