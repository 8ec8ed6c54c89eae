import Mathlib.Data.Nat.Init
import Mathlib.Algebra.Order.Ring.Nat
import Mathlib.Algebra.Order.Ring.Int
import Mathlib.Tactic.Ring
import Mathlib.Tactic.Linarith
/-!
# Division by multiplication

To divide by `d`, multiply by `m` and drop the low `p` bits, where `m * d` is a little
more than `2 ^ p`. The error `delta = m * d - 2 ^ p` is small enough for a dividend `n`
when `n * delta < (d - n % d) * 2 ^ p`. One bound on `delta` gives that for all
dividends up to some `n`: it has to hold for the largest multiple of `d` (or one below
it) only.

A multiplier is searched by doubling: quotient and remainder of `2 ^ p` follow from those
of `2 ^ (p - 1)`.
-/

namespace MagicDivision

/-! ## Doubling -/

/-- Quotient and remainder of a number twice as large, or one more. -/
theorem div_mod_double (n c : Nat) (hc : 0 < c) {b : Nat} (hb : b ≤ 1) :
    (2 * n + b) / c = (if c ≤ 2 * (n % c) + b then 2 * (n / c) + 1 else 2 * (n / c)) ∧
      (2 * n + b) % c = if c ≤ 2 * (n % c) + b then 2 * (n % c) + b - c else 2 * (n % c) + b := by
  have hn := Nat.div_add_mod n c
  have hr := Nat.mod_lt n hc
  have hsplit : 2 * n + b = 2 * (n % c) + b + c * (2 * (n / c)) := by
    conv_lhs => rw [← hn]
    ring
  split
  · rename_i h
    refine (Nat.div_mod_unique hc).2 ⟨?_, by omega⟩
    rw [hsplit, Nat.mul_add]
    omega
  · refine (Nat.div_mod_unique hc).2 ⟨?_, by omega⟩
    omega

/-! ## The error of a multiplier -/

variable {d p m delta : Nat}

theorem product_eq (hm : m * d = 2 ^ p + delta) (n : Nat) :
    n * m * d = n / d * 2 ^ p * d + (2 ^ p * (n % d) + n * delta) := by
  calc n * m * d = (n % d + d * (n / d)) * 2 ^ p + n * delta := by rw [Nat.mod_add_div, Nat.mul_assoc, hm, Nat.mul_add]
    _ = _ := by ring

/-- With an error small enough for `n`, multiplying and shifting divides. -/
theorem mul_div_eq (hd : 0 < d) (hm : m * d = 2 ^ p + delta) {n : Nat} (h : n * delta < (d - n % d) * 2 ^ p) :
    n * m / 2 ^ p = n / d := by
  have hr := Nat.mul_le_mul_left (2 ^ p) (Nat.mod_lt n hd).le
  have hprod := product_eq hm n
  rw [Nat.mul_comm (d - n % d), Nat.mul_sub] at h
  refine (Nat.div_eq_iff (Nat.two_pow_pos p)).2 ⟨Nat.le_of_mul_le_mul_right (by omega) hd, ?_⟩
  have hlt : n * m < (n / d + 1) * 2 ^ p := by
    refine Nat.lt_of_mul_lt_mul_right (a := d) ?_
    rw [Nat.succ_mul, Nat.add_mul]
    omega
  rw [Nat.add_mul] at hlt
  omega

/-- The same for a negative dividend, where rounding down goes one too far. -/
theorem neg_mul_div_eq (hd : 0 < d) (hdelta : 0 < delta) (hm : m * d = 2 ^ p + delta) {n : Nat} (hpos : 0 < n)
    (h : n * delta ≤ (d - n % d) * 2 ^ p) : -((n * m : ℕ) : ℤ) / 2 ^ p = -((n / d : ℕ) : ℤ) - 1 := by
  have hr := Nat.mul_le_mul_left (2 ^ p) (Nat.mod_lt n hd).le
  have hprod := product_eq hm n
  have hnd : 0 < n * delta := Nat.mul_pos hpos hdelta
  rw [Nat.mul_comm (d - n % d), Nat.mul_sub] at h
  have hlow : n / d * 2 ^ p < n * m := Nat.lt_of_mul_lt_mul_right (a := d) (by omega)
  have hhigh : n * m ≤ (n / d + 1) * 2 ^ p := by
    refine Nat.le_of_mul_le_mul_right ?_ hd
    rw [Nat.succ_mul, Nat.add_mul]
    omega
  have hpow : ((2 ^ p : ℕ) : ℤ) = 2 ^ p := by norm_cast
  have hp : (0 : ℤ) < 2 ^ p := by positivity
  have hlow' : ((n / d : ℕ) : ℤ) * 2 ^ p < ((n * m : ℕ) : ℤ) := by rw [← hpow]; exact_mod_cast hlow
  have hhigh' : ((n * m : ℕ) : ℤ) ≤ (((n / d : ℕ) : ℤ) + 1) * 2 ^ p := by rw [← hpow]; exact_mod_cast hhigh
  refine Int.le_antisymm (Int.lt_add_one_iff.1 (Int.ediv_lt_of_lt_mul hp ?_)) ((Int.le_ediv_iff_mul_le hp).2 ?_)
  · linarith
  · linarith

/-- An error that is small enough for `c` is small enough up to `c`, and up to `2 * c` for
dividends that do not have the largest remainder. -/
theorem error_bound {c n : Nat} (hd : 0 < d) (h : c * delta < 2 ^ p) (hn : n ≤ c ∨ n ≤ 2 * c ∧ n % d + 2 ≤ d) :
    n * delta < (d - n % d) * 2 ^ p := by
  have hr := Nat.mod_lt n hd
  rcases hn with hn | ⟨hn, hlast⟩
  · calc n * delta ≤ c * delta := Nat.mul_le_mul_right _ hn
      _ < 1 * 2 ^ p := by omega
      _ ≤ (d - n % d) * 2 ^ p := Nat.mul_le_mul_right _ (by omega)
  · calc n * delta ≤ 2 * c * delta := Nat.mul_le_mul_right _ hn
      _ = 2 * (c * delta) := by ring
      _ < 2 * 2 ^ p := by omega
      _ ≤ (d - n % d) * 2 ^ p := Nat.mul_le_mul_right _ (by omega)

/-- Below `H`, with the last number that leaves the remainder `d - 1`. -/
theorem signed_range {H n : Nat} (hd : 0 < d) (hdH : d ≤ H) (hn : n < H) :
    n ≤ H / d * d - 1 ∨ n ≤ 2 * (H / d * d - 1) ∧ n % d + 2 ≤ d := by
  have hH := Nat.div_add_mod' H d
  have hnd := Nat.div_add_mod' n d
  have hr := Nat.mod_lt H hd
  rcases Nat.lt_or_ge n (H / d * d) with hlt | hge
  · exact .inl (by omega)
  · have hq : n / d = H / d := Nat.le_antisymm (Nat.div_le_div_right hn.le) ((Nat.le_div_iff_mul_le hd).2 hge)
    have hone : d ≤ H / d * d := Nat.le_mul_of_pos_left d (Nat.div_pos hdH hd)
    rw [hq] at hnd
    exact .inr ⟨by omega, by omega⟩

/-- Up to `N`, with the last multiple of `d`, where `N` itself does not have the largest remainder. -/
theorem unsigned_range {N n : Nat} (hd : 0 < d) (hdN : d ≤ N) (hN : N % d + 2 ≤ d) (hn : n ≤ N) :
    n ≤ N - N % d ∨ n ≤ 2 * (N - N % d) ∧ n % d + 2 ≤ d := by
  have hN' := Nat.div_add_mod' N d
  have hnd := Nat.div_add_mod' n d
  rcases Nat.lt_or_ge n (N / d * d) with hlt | hge
  · exact .inl (by omega)
  · have hq : n / d = N / d := Nat.le_antisymm (Nat.div_le_div_right hn) ((Nat.le_div_iff_mul_le hd).2 hge)
    have hone : d ≤ N / d * d := Nat.le_mul_of_pos_left d (Nat.div_pos hdN hd)
    rw [hq] at hnd
    exact .inr ⟨by omega, by omega⟩

/-- The test of the search, on quotient and remainder. -/
theorem le_mul_iff {c n x : Nat} (hc : 0 < c) : n ≤ c * x ↔ n / c < x ∨ n / c = x ∧ n % c = 0 := by
  have hn := Nat.div_add_mod n c
  have hr := Nat.mod_lt n hc
  rcases Nat.lt_trichotomy (n / c) x with hlt | rfl | hgt
  · refine iff_of_true ?_ (.inl hlt)
    calc n ≤ c * (n / c + 1) := by rw [Nat.mul_add]; omega
      _ ≤ c * x := Nat.mul_le_mul_left c hlt
  · omega
  · refine iff_of_false ?_ (by omega)
    have : c * (x + 1) ≤ c * (n / c) := Nat.mul_le_mul_left c hgt
    rw [Nat.mul_add] at this
    omega

end MagicDivision
