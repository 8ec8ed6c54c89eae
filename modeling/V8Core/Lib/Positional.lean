import Mathlib.Algebra.Order.Ring.Nat
import Mathlib.Tactic.Positivity
import Mathlib.Tactic.Ring
/-!
# Numerals in a base

A list of digits with the most significant digit first, in any base, and the
number it stands for.
-/

namespace Positional

variable {base : Nat}

/-- The number that comes from appending digits to a number. -/
def valueFrom (base n : Nat) : List Nat → Nat
  | [] => n
  | d :: ds => valueFrom base (n * base + d) ds

/-- The number a list of digits stands for. -/
def value (base : Nat) (ds : List Nat) : Nat := valueFrom base 0 ds

theorem valueFrom_eq (n : Nat) (ds : List Nat) : valueFrom base n ds = n * base ^ ds.length + value base ds := by
  induction ds generalizing n with
  | nil => simp [valueFrom, value]
  | cons d ds ih =>
    have hcons : value base (d :: ds) = valueFrom base (0 * base + d) ds := rfl
    rw [valueFrom, ih, hcons, ih, List.length_cons]
    ring

theorem value_cons (d : Nat) (ds : List Nat) : value base (d :: ds) = d * base ^ ds.length + value base ds := by
  rw [value, valueFrom, valueFrom_eq, zero_mul, zero_add]

theorem valueFrom_append (n : Nat) (as bs : List Nat) :
    valueFrom base n (as ++ bs) = valueFrom base (valueFrom base n as) bs := by
  induction as generalizing n with
  | nil => rfl
  | cons a as ih => exact ih (n * base + a)

theorem value_append (as bs : List Nat) :
    value base (as ++ bs) = value base as * base ^ bs.length + value base bs := by
  rw [value, valueFrom_append, valueFrom_eq]
  rfl

theorem value_lt {ds : List Nat} (h : ∀ d ∈ ds, d < base) : value base ds < base ^ ds.length := by
  induction ds with
  | nil => simp [value, valueFrom]
  | cons d ds ih =>
    have hd : d < base := h d List.mem_cons_self
    have hds := ih fun e he => h e (List.mem_cons_of_mem d he)
    have hmul : (d + 1) * base ^ ds.length ≤ base * base ^ ds.length := Nat.mul_le_mul_right _ (by omega)
    rw [value_cons, List.length_cons, pow_succ, mul_comm (base ^ ds.length)]
    rw [add_mul] at hmul
    omega

theorem value_eq_zero_iff (hbase : 0 < base) (ds : List Nat) : value base ds = 0 ↔ ∀ d ∈ ds, d = 0 := by
  induction ds with
  | nil => simp [value, valueFrom]
  | cons d ds ih =>
    have hpow : base ^ ds.length ≠ 0 := (Nat.pow_pos hbase).ne'
    rw [value_cons, Nat.add_eq_zero_iff, mul_eq_zero, or_iff_left hpow, ih, List.forall_mem_cons]

end Positional
