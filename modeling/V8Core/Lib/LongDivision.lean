import Mathlib.Data.Nat.Init
import Mathlib.Algebra.Order.Ring.Nat
import Mathlib.Tactic.Ring
/-!
# Estimating a quotient from leading parts

Long division guesses each quotient digit from the leading digits of the dividend
and of the divisor. The leading part of a number is the number divided by some `P`.
Dividing leading parts never gives too little (`div_le_div_leading`), and at most
one too much once the leading part of the divisor is longer than the guess
(`div_leading_le_succ`). Where the leading parts agree the largest digit is a good
guess for a divisor whose leading part is at least half the base
(`max_digit_le_succ`).
-/

namespace LongDivision

variable {W V P : Nat}

/-- The quotient of the leading parts is not too small. -/
theorem div_le_div_leading (hv : 0 < V / P) : W / V ≤ W / P / (V / P) := by
  rw [Nat.le_div_iff_mul_le hv]
  have hP : 0 < P := Nat.pos_of_ne_zero (by rintro rfl; simp at hv)
  rw [Nat.le_div_iff_mul_le hP]
  calc W / V * (V / P) * P = W / V * (V / P * P) := Nat.mul_assoc ..
    _ ≤ W / V * V := Nat.mul_le_mul_left _ (Nat.div_mul_le_self V P)
    _ ≤ W := Nat.div_mul_le_self W V

/-- A multiple `q` of the divisor that its leading part allows exceeds the
dividend by less than the divisor, while `q` itself is no longer than that part. -/
theorem le_succ_of_leading_mul_le {q : Nat} (hP : 0 < P) (hV : 0 < V) (hq : q * (V / P) ≤ W / P)
    (hlong : q * P ≤ V) : q ≤ W / V + 1 := by
  rcases Nat.eq_zero_or_pos q with rfl | hpos
  · exact Nat.zero_le _
  have hVlt : V < V / P * P + P := by
    have := Nat.lt_div_mul_add (a := V) hP
    omega
  have hmul : q * V ≤ W + V := by
    calc q * V ≤ q * (V / P * P + P) := Nat.mul_le_mul_left q hVlt.le
      _ = q * (V / P) * P + q * P := by ring
      _ ≤ W / P * P + V := Nat.add_le_add (Nat.mul_le_mul_right P hq) hlong
      _ ≤ W + V := Nat.add_le_add_right (Nat.div_mul_le_self W P) V
  have hpred : (q - 1) * V ≤ W := by
    have : q * V = (q - 1) * V + V := by
      conv_lhs => rw [show q = q - 1 + 1 by omega, Nat.succ_mul]
    omega
  have := (Nat.le_div_iff_mul_le hV).2 hpred
  omega

/-- The quotient of the leading parts is at most one too large. -/
theorem div_leading_le_succ (hP : 0 < P) (hV : 0 < V) (hlong : W / P / (V / P) * P ≤ V) :
    W / P / (V / P) ≤ W / V + 1 :=
  le_succ_of_leading_mul_le hP hV (Nat.div_mul_le_self _ _) hlong

/-- Where the dividend leads with the digit the divisor leads with, the largest
digit is at most one too large. -/
theorem max_digit_le_succ {b : Nat} (hP : 0 < P) (hV : 0 < V) (hb : b ≤ 2 * (V / P) + 2)
    (htop : b * (V / P) ≤ W / P) : b - 1 ≤ W / V + 1 := by
  have hVle : V ≤ V / P * P + P := (Nat.lt_div_mul_add hP).le
  have hmul : (b - 2) * (V / P + 1) ≤ b * (V / P) := by
    have hsplit : (b - 2) * (V / P + 1) = (b - 2) * (V / P) + (b - 2) := Nat.mul_succ _ _
    rcases Nat.lt_or_ge b 2 with hlt | hge
    · rw [show b - 2 = 0 by omega]; omega
    · have : b * (V / P) = (b - 2) * (V / P) + 2 * (V / P) := by
        rw [← Nat.add_mul, Nat.sub_add_cancel hge]
      omega
  have hle : (b - 2) * V ≤ W := by
    calc (b - 2) * V ≤ (b - 2) * (V / P * P + P) := Nat.mul_le_mul_left _ hVle
      _ = (b - 2) * (V / P + 1) * P := by ring
      _ ≤ W / P * P := Nat.mul_le_mul_right P (le_trans hmul htop)
      _ ≤ W := Nat.div_mul_le_self W P
  have := (Nat.le_div_iff_mul_le hV).2 hle
  omega

section Correction
variable {b v1 v0 q r u : Nat}

/-- The test of a correction loop compares the estimate `q`, with `r` left over, with the quotient by two digits. -/
theorem div_lt_iff (hv : 0 < b * v1 + v0) : (b * (v1 * q + r) + u) / (b * v1 + v0) < q ↔ b * r + u < q * v0 := by
  have hl : b * (v1 * q + r) + u = b * v1 * q + (b * r + u) := by ring
  have hr : q * (b * v1 + v0) = b * v1 * q + q * v0 := by ring
  rw [Nat.div_lt_iff_lt_mul hv, hl, hr]
  omega

/-- One less is not too large once more than a digit is left over: that is more than any product of two digits. -/
theorem le_div_of_long (hv : 0 < b * v1 + v0) (hq : q ≤ b) (h0 : v0 ≤ b) (hr : b ≤ r + v1) :
    q ≤ (b * (v1 * (q + 1) + r) + u) / (b * v1 + v0) := by
  rw [Nat.le_div_iff_mul_le hv]
  calc q * (b * v1 + v0) = b * (v1 * q) + q * v0 := by ring
    _ ≤ b * (v1 * q) + b * (r + v1) := Nat.add_le_add_left (Nat.mul_le_mul hq (h0.trans hr)) _
    _ = b * (v1 * (q + 1) + r) := by ring
    _ ≤ _ := Nat.le_add_right _ _

end Correction

end LongDivision
