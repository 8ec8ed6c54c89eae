import V8Core.Lib.Decimal
import V8Core.Lib.Double
import Mathlib.Algebra.Order.Field.Power
/-!
# Rounding decimal numbers to doubles

A point half way between two doubles has at most 768 significant decimal
digits. So a decimal number may be cut behind the first 772 of its digits, if
what is put in place of the others is neither nothing nor a whole unit of the
last digit that is kept. Numbers that are large or small enough are infinity
and zero.
-/

namespace Binary64

/-- Rounding depends on the comparisons with the points half way only. -/
theorem Rounds.congr {r r' : ℚ} {b : Nat} (h : Rounds r b)
    (hlt : ∀ c < infinity, twiceMid c < 2 * r ∧ twiceMid c < 2 * r' ∨ 2 * r < twiceMid c ∧ 2 * r' < twiceMid c) :
    Rounds r' b := by
  refine ⟨h.le_infinity, ?_, ?_⟩
  · rintro c rfl
    have hc : twiceMid c ≤ 2 * r := h.lower_le (Nat.lt_succ_self c)
    rcases hlt c (Nat.lt_of_succ_le h.le_infinity) with ⟨-, hlow⟩ | ⟨hhigh, -⟩
    · exact Or.inl hlow
    · exact absurd hhigh (not_lt.mpr hc)
  · intro hb
    have hc : 2 * r ≤ twiceMid b := h.upper_le hb
    rcases hlt b hb with ⟨hlow, -⟩ | ⟨-, hhigh⟩
    · exact absurd hlow (not_lt.mpr hc)
    · exact Or.inl hhigh

theorem twiceMid_eq (c : Nat) :
    twiceMid c = (((2 * significand c + 1) * 2 ^ (scale c - 1) : Nat) : ℚ) / 2 ^ unitBits := by
  rw [twiceMid, value, value, units_succ, units]
  push_cast
  ring

theorem scale_le {c : Nat} (h : c < infinity) : scale c - 1 ≤ 2045 := by
  unfold scale
  unfold infinity at h
  omega

theorem pow_bound : 2 ^ 54 * 10 ^ 1074 ≤ 10 ^ 771 * 2 ^ 1075 := by decide +kernel

theorem two_pow_succ : 2 ^ 1075 = 2 * 2 ^ unitBits := by decide +kernel

theorem no_midpoint_nat {a s P j : Nat} (ha : a < 2 ^ 54) (hP : 10 ^ 771 ≤ P)
    (hlow : P * 2 ^ 1075 < a * 2 ^ s * 10 ^ j) (hhigh : a * 2 ^ s * 10 ^ j < (P + 1) * 2 ^ 1075) : False := by
  rcases Nat.lt_or_ge (s + j) 1075 with hlt | hge
  · have hle : ∀ m, s + j ≤ m → a * 2 ^ s * 10 ^ j ≤ 2 ^ 54 * 10 ^ m := by
      intro m hm
      calc a * 2 ^ s * 10 ^ j ≤ 2 ^ 54 * 10 ^ s * 10 ^ j :=
            Nat.mul_le_mul_right _ (Nat.mul_le_mul ha.le (Nat.pow_le_pow_left (by norm_num) s))
        _ = 2 ^ 54 * 10 ^ (s + j) := by rw [mul_assoc, ← pow_add]
        _ ≤ 2 ^ 54 * 10 ^ m := Nat.mul_le_mul_left _ (Nat.pow_le_pow_right (by norm_num) hm)
    have hPle : 10 ^ 771 * 2 ^ 1075 ≤ P * 2 ^ 1075 := Nat.mul_le_mul_right _ hP
    exact absurd (lt_of_lt_of_le hlow (hle 1074 (by omega))) (not_lt.mpr (le_trans pow_bound hPle))
  · obtain ⟨i, hi⟩ := Nat.exists_eq_add_of_le hge
    have hpow : 2 ^ (s + j) = 2 ^ 1075 * 2 ^ i := by rw [hi, pow_add]
    have hten : 10 ^ j = 2 ^ j * 5 ^ j := mul_pow 2 5 j
    rw [hten] at hlow hhigh
    generalize 2 ^ 1075 = K at *
    have heq : a * 2 ^ s * (2 ^ j * 5 ^ j) = a * 5 ^ j * 2 ^ i * K := by
      calc a * 2 ^ s * (2 ^ j * 5 ^ j) = a * 5 ^ j * 2 ^ (s + j) := by ring
        _ = a * 5 ^ j * 2 ^ i * K := by rw [hpow]; ring
    rw [heq] at hlow hhigh
    have hl := Nat.lt_of_mul_lt_mul_right hlow
    have hh := Nat.lt_of_mul_lt_mul_right hhigh
    omega

/-- No point half way between doubles lies strictly between neighbours among the decimals with 772 digits. -/
theorem no_midpoint {c P : Nat} {e : Int} (hc : c < infinity) (hP : 10 ^ 771 ≤ P)
    (hlow : 2 * (P * 10 ^ e) < twiceMid c) (hhigh : twiceMid c < 2 * ((P + 1) * 10 ^ e)) : False := by
  have ha : 2 * significand c + 1 < 2 ^ 54 := by
    have := significand_lt c
    omega
  have hs := scale_le hc
  rw [twiceMid_eq] at hlow hhigh
  generalize 2 * significand c + 1 = a at *
  generalize scale c - 1 = s at *
  rcases Int.le_total 0 e with he | he
  · obtain ⟨n, rfl⟩ := Int.eq_ofNat_of_zero_le he
    rw [lt_div_iff₀ (by positivity)] at hlow
    have hnat : 2 * (P * 10 ^ n) * 2 ^ unitBits < a * 2 ^ s := by exact_mod_cast hlow
    have hbig : 2 ^ (54 + 2045) ≤ P * 10 ^ n :=
      calc 2 ^ (54 + 2045) ≤ 10 ^ 771 := by decide +kernel
        _ ≤ P := hP
        _ ≤ P * 10 ^ n := Nat.le_mul_of_pos_right _ (by positivity)
    have hsmall : a * 2 ^ s ≤ 2 ^ (54 + 2045) := by
      rw [pow_add]
      exact Nat.mul_le_mul ha.le (pow_right_mono₀ one_le_two hs)
    have hmul : P * 10 ^ n ≤ 2 * (P * 10 ^ n) * 2 ^ unitBits :=
      le_trans (Nat.le_mul_of_pos_left _ (by norm_num)) (Nat.le_mul_of_pos_right _ (by positivity))
    exact absurd (lt_of_le_of_lt (le_trans hbig hmul) hnat) (not_lt.mpr hsmall)
  · obtain ⟨j, hj⟩ := Int.eq_ofNat_of_zero_le (show 0 ≤ -e by omega)
    obtain rfl : e = -(j : Int) := by omega
    rw [zpow_neg, ← div_eq_mul_inv, ← mul_div_assoc] at hlow hhigh
    rw [div_lt_div_iff₀ (by positivity) (by positivity)] at hlow hhigh
    refine no_midpoint_nat (s := s) (j := j) ha hP ?_ ?_
    · have hnat : 2 * P * 2 ^ unitBits < a * 2 ^ s * 10 ^ j := by exact_mod_cast hlow
      rwa [two_pow_succ, mul_left_comm, ← mul_assoc]
    · have hnat : a * 2 ^ s * 10 ^ j < 2 * (P + 1) * 2 ^ unitBits := by exact_mod_cast hhigh
      rwa [two_pow_succ, mul_left_comm, ← mul_assoc]

end Binary64

namespace Double

open Binary64

/-- The bits of the nearest double. -/
theorem rounds_num_den {r : ℚ} (h0 : 0 ≤ r) : Rounds r (Binary64.round r.num.natAbs r.den) := by
  have hfrac : (r.num.natAbs : ℚ) / r.den = r := by
    conv_rhs => rw [← Rat.num_div_den r]
    rw [Nat.cast_natAbs, abs_of_nonneg (by exact_mod_cast Rat.num_nonneg.mpr h0)]
  have h := rounds_round r.num.natAbs r.pos
  rwa [hfrac] at h

theorem ofRat_of_rounds {r : ℚ} (h0 : 0 ≤ r) {b : Nat} (h : Rounds r b) : ofRat r = number false b h.le_infinity := by
  have hneg : decide (r < 0) = false := decide_eq_false (not_lt.mpr h0)
  simp only [ofRat, hneg, (rounds_num_den h0).unique h]

/-- Numbers strictly between the same two decimals with 772 digits have the same nearest double. -/
theorem ofRat_eq_of_between {P : Nat} {e : Int} {r r' : ℚ} (hP : 10 ^ 771 ≤ P)
    (hr : P * 10 ^ e < r ∧ r < (P + 1) * 10 ^ e) (hr' : P * 10 ^ e < r' ∧ r' < (P + 1) * 10 ^ e) :
    ofRat r = ofRat r' := by
  have hpos : (0 : ℚ) ≤ P * 10 ^ e := by positivity
  have hb := rounds_num_den (hpos.trans hr.1.le)
  have hb' : Rounds r' (Binary64.round r.num.natAbs r.den) := hb.congr fun c hc => by
    rcases le_or_gt (twiceMid c) (2 * (P * 10 ^ e)) with hle | hgt
    · exact Or.inl ⟨by linarith, by linarith⟩
    · refine Or.inr ?_
      have hge : 2 * ((P + 1) * 10 ^ e) ≤ twiceMid c := not_lt.mp fun hlt => no_midpoint hc hP hgt hlt
      exact ⟨by linarith, by linarith⟩
  rw [ofRat_of_rounds (hpos.trans hr.1.le) hb, ofRat_of_rounds (hpos.trans hr'.1.le) hb']

theorem ofRat_infinity {r : ℚ} (h : 2 ^ 1024 ≤ r) : ofRat r = Double.infinity :=
  ofRat_of_rounds (le_trans (by positivity) h) (rounds_infinity (value_infinity ▸ h))

/-- Half of the smallest double is still zero. -/
theorem ofRat_underflow {r : ℚ} (h0 : 0 ≤ r) (h : 2 * r * 2 ^ unitBits ≤ 1) : ofRat r = zero false := by
  have hunits : (2 * significand 0 + 1) * 2 ^ (scale 0 - 1) = 1 := by decide
  have hle : 2 * r ≤ twiceMid 0 := by
    rw [twiceMid_eq, hunits, le_div_iff₀ (by positivity)]
    exact h
  have hrounds : Rounds r 0 := by
    refine ⟨Nat.zero_le _, nofun, fun _ => ?_⟩
    rcases lt_or_eq_of_le hle with hlt | heq
    · exact Or.inl hlt
    · exact Or.inr ⟨heq, ⟨0, rfl⟩⟩
  exact ofRat_of_rounds h0 hrounds

theorem ofRat_large {D : Nat} (hD : 0 < D) {e : Int} (he : 309 ≤ e) : ofRat (D * 10 ^ e) = Double.infinity := by
  have hpow : (2 : ℚ) ^ 1024 ≤ 10 ^ 309 := by exact_mod_cast (show 2 ^ 1024 ≤ 10 ^ 309 by decide +kernel)
  refine ofRat_infinity ?_
  calc (2 : ℚ) ^ 1024 ≤ 10 ^ 309 := hpow
    _ = 10 ^ (309 : Int) := (zpow_natCast 10 309).symm
    _ ≤ 10 ^ e := zpow_le_zpow_right₀ (by norm_num) he
    _ ≤ D * 10 ^ e := le_mul_of_one_le_left (by positivity) (by exact_mod_cast hD)

theorem two_pow_le_ten_pow : 2 * 2 ^ unitBits ≤ 10 ^ 324 := by decide +kernel

theorem ofRat_small {D n : Nat} (hD : D < 10 ^ n) {e : Int} (he : n + e ≤ -324) : ofRat (D * 10 ^ e) = zero false := by
  have hpow : (2 : ℚ) * 2 ^ unitBits ≤ 10 ^ 324 := by exact_mod_cast two_pow_le_ten_pow
  have hle : (D : ℚ) * 10 ^ e ≤ 10 ^ (-324 : Int) :=
    calc (D : ℚ) * 10 ^ e ≤ 10 ^ n * 10 ^ e := mul_le_mul_of_nonneg_right (by exact_mod_cast hD.le) (by positivity)
      _ = 10 ^ (n + e) := by rw [zpow_add₀ (by norm_num), zpow_natCast]
      _ ≤ 10 ^ (-324 : Int) := zpow_le_zpow_right₀ (by norm_num) he
  refine ofRat_underflow (by positivity) ?_
  calc 2 * ((D : ℚ) * 10 ^ e) * 2 ^ unitBits = D * 10 ^ e * (2 * 2 ^ unitBits) := by ring
    _ ≤ 10 ^ (-324 : Int) * 10 ^ 324 := mul_le_mul hle hpow (by positivity) (by positivity)
    _ = 1 := by
      rw [← zpow_natCast (10 : ℚ) 324]
      norm_num

/-! ## Cutting digits -/

open Decimal

/-- A one in place of digits that are not all zero. -/
theorem ofRat_sticky {ds : List Nat} (hds : IsDigits ds) (hlead : ds.head? ≠ some 0) {n : Nat} (hn : 772 ≤ n)
    (hdrop : (ds.drop n).any (· != 0) = true) (e : Int) :
    ofRat (Decimal.value (ds.take n ++ [1]) * 10 ^ (e + (ds.length - n : Nat) - 1)) =
      ofRat (Decimal.value ds * 10 ^ e) := by
  have hlen : n < ds.length := by
    by_contra h
    rw [List.drop_eq_nil_of_le (not_lt.mp h)] at hdrop
    exact Bool.false_ne_true hdrop
  have htake : (ds.take n).length = n := by rw [List.length_take]; omega
  obtain ⟨P, hP⟩ : ∃ P, P = Decimal.value (ds.take n) := ⟨_, rfl⟩
  have hle : 10 ^ 771 ≤ P := by
    have hhead : (ds.take n).head? ≠ some 0 := by
      rwa [List.head?_take, if_neg (by omega)]
    have hpow := pow_le_value hhead (by rintro h; rw [h] at htake; simp at htake; omega)
    rw [htake, ← hP] at hpow
    exact le_trans (pow_le_pow_right₀ (by norm_num) (Nat.le_sub_one_of_lt hn)) hpow
  have hpos := value_pos_iff.mpr hdrop
  have hlt := value_lt (hds.drop n)
  rw [List.length_drop] at hlt
  have hten : (0 : ℚ) < 10 ^ e := by positivity
  have hscale : (10 : ℚ) ^ (e + (ds.length - n : Nat)) = 10 ^ (ds.length - n) * 10 ^ e := by
    rw [zpow_add₀ (by norm_num), zpow_natCast, mul_comm]
  have hvalue : Decimal.value ds = P * 10 ^ (ds.length - n) + Decimal.value (ds.drop n) := by
    rw [hP]
    exact value_take_drop ds n
  have hone : Decimal.value (ds.take n ++ [1]) = P * 10 + 1 := by
    rw [value_append, ← hP]
    rfl
  have hunit : (10 : ℚ) ^ (e + (ds.length - n : Nat)) = 10 * 10 ^ (e + (ds.length - n : Nat) - 1) := by
    rw [zpow_sub_one₀ (by norm_num)]
    ring
  have hten' : (0 : ℚ) < 10 ^ (e + (ds.length - n : Nat) - 1) := by positivity
  refine ofRat_eq_of_between (P := P) (e := e + (ds.length - n : Nat)) hle ⟨?_, ?_⟩ ⟨?_, ?_⟩
  · rw [hone, hunit, ← mul_assoc]
    refine mul_lt_mul_of_pos_right ?_ hten'
    push_cast
    linarith
  · rw [hone, hunit, ← mul_assoc]
    refine mul_lt_mul_of_pos_right ?_ hten'
    push_cast
    linarith
  · rw [hscale, ← mul_assoc]
    refine mul_lt_mul_of_pos_right ?_ hten
    exact_mod_cast (show P * 10 ^ (ds.length - n) < Decimal.value ds by omega)
  · rw [hscale, ← mul_assoc]
    refine mul_lt_mul_of_pos_right ?_ hten
    exact_mod_cast (show Decimal.value ds < (P + 1) * 10 ^ (ds.length - n) by rw [add_mul]; omega)

end Double
