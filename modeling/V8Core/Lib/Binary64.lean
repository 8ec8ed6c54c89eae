import Mathlib.Algebra.Order.Field.Rat
import Mathlib.Data.Nat.Cast.Order.Field
import Mathlib.Data.Rat.Cast.Order
import Mathlib.Tactic.FieldSimp
import Mathlib.Tactic.Linarith
import Mathlib.Tactic.Positivity
import Mathlib.Tactic.Ring
/-!
# Doubles and rounding to the nearest one

A non-negative double is the number its bits spell: doubles are ordered as
their bits are, and the next double is the next number. Every finite double
is a multiple of the smallest one, so its size is counted in units of
`2 ^ -1074`. Infinity stands where the next power of two would be, which makes
rounding to it a case like the others.
-/

namespace Binary64

variable (b : Nat) {c : Nat} (n : Nat) {r : ℚ} (d : Nat)

/-! ## The bits of a double -/

/-- The exponent field, with that of the subnormal numbers taken as one. -/
def scale (b : Nat) : Nat := max (b / 2 ^ 52) 1

/-- The significand with its hidden bit. -/
def significand (b : Nat) : Nat := if b / 2 ^ 52 = 0 then b % 2 ^ 52 else b % 2 ^ 52 + 2 ^ 52

/-- The exponent of the significand's last bit. -/
def exponent (b : Nat) : Int := scale b - 1075

/-- The smallest double is two to minus this. -/
def unitBits : Nat := 1074

/-- The value in units of `2 ^ -1074`. -/
def units (b : Nat) : Nat := significand b * 2 ^ (scale b - 1)

def value (b : Nat) : ℚ := units b / 2 ^ unitBits

/-- The bits of infinity. -/
def infinity : Nat := 2047 * 2 ^ 52

theorem significand_lt : significand b < 2 ^ 53 := by
  unfold significand
  split <;> omega

/-- The bits made of a significand and a scale. -/
theorem units_add {s m : Nat} (hm : m ≤ 2 ^ 53) (hs : s = 0 ∨ 2 ^ 52 ≤ m) : units (s * 2 ^ 52 + m) = m * 2 ^ s := by
  unfold units significand scale
  rcases Nat.lt_or_ge m (2 ^ 53) with hlt | hge
  · rcases Nat.lt_or_ge m (2 ^ 52) with hsub | hnorm
    · obtain rfl : s = 0 := by omega
      have hq : (0 * 2 ^ 52 + m) / 2 ^ 52 = 0 := by omega
      have hr : (0 * 2 ^ 52 + m) % 2 ^ 52 = m := by omega
      rw [hq, hr]
      simp
    · have hq : (s * 2 ^ 52 + m) / 2 ^ 52 = s + 1 := by omega
      have hr : (s * 2 ^ 52 + m) % 2 ^ 52 + 2 ^ 52 = m := by omega
      rw [hq, if_neg (by omega), hr, show max (s + 1) 1 - 1 = s by omega]
  · obtain rfl : m = 2 ^ 53 := by omega
    have hq : (s * 2 ^ 52 + 2 ^ 53) / 2 ^ 52 = s + 2 := by omega
    have hr : (s * 2 ^ 52 + 2 ^ 53) % 2 ^ 52 + 2 ^ 52 = 2 ^ 52 := by omega
    rw [hq, if_neg (by omega), hr, show max (s + 2) 1 - 1 = s + 1 by omega]
    ring

theorem eq_scale_significand : b = (scale b - 1) * 2 ^ 52 + significand b := by
  unfold significand scale
  split <;> omega

theorem scale_eq_one_or : scale b - 1 = 0 ∨ 2 ^ 52 ≤ significand b := by
  unfold significand scale
  split <;> omega

/-- Neighbours differ by one in the last place. -/
theorem units_succ : units (b + 1) = units b + 2 ^ (scale b - 1) := by
  have hlt := significand_lt b
  have heq := eq_scale_significand b
  have hnorm := scale_eq_one_or b
  have hsucc := units_add (s := scale b - 1) (m := significand b + 1) (by omega) (by omega)
  rw [← add_assoc, ← heq] at hsucc
  rw [hsucc, units]
  ring

theorem units_strictMono : StrictMono units :=
  strictMono_nat_of_lt_succ fun b => by
    rw [units_succ]
    exact Nat.lt_add_of_pos_right (by positivity)

theorem value_zero : value 0 = 0 := by simp [value, units, significand]

theorem value_strictMono : StrictMono value := by
  intro a b h
  have hlt : (units a : ℚ) < units b := by exact_mod_cast units_strictMono h
  exact div_lt_div_of_pos_right hlt (by positivity)

/-! ## The nearest double -/

/-- No double is closer, and if another is as close then this one is even. -/
structure IsNearest (r : ℚ) (b : Nat) : Prop where
  le_infinity : b ≤ infinity
  nearest : ∀ b' ≤ infinity, |r - value b| ≤ |r - value b'|
  even : ∀ b' ≤ infinity, b' ≠ b → |r - value b| = |r - value b'| → Even b

/-- Twice the point half way to the next double. -/
def twiceMid (b : Nat) : ℚ := value b + value (b + 1)

theorem twiceMid_strictMono : StrictMono twiceMid := fun _ _ h =>
  add_lt_add (value_strictMono h) (value_strictMono (Nat.succ_lt_succ h))

/-- The number lies between the points half way to the neighbours, and on one only if the double is even. -/
structure Rounds (r : ℚ) (b : Nat) : Prop where
  le_infinity : b ≤ infinity
  lower : ∀ c, b = c + 1 → twiceMid c < 2 * r ∨ twiceMid c = 2 * r ∧ Even b
  upper : b < infinity → 2 * r < twiceMid b ∨ 2 * r = twiceMid b ∧ Even b

theorem Rounds.lower_le {b : Nat} (h : Rounds r b) (hc : c < b) : twiceMid c ≤ 2 * r := by
  obtain ⟨d, rfl⟩ : ∃ d, b = d + 1 := ⟨b - 1, by omega⟩
  have hmono : twiceMid c ≤ twiceMid d := twiceMid_strictMono.monotone (by omega)
  rcases h.lower d rfl with hlt | ⟨heq, -⟩ <;> linarith

theorem Rounds.upper_le {b : Nat} (h : Rounds r b) (hb : b < infinity) : 2 * r ≤ twiceMid b := by
  rcases h.upper hb with hlt | ⟨heq, -⟩ <;> linarith

/-- A number has one rounding. -/
theorem Rounds.unique {a b : Nat} (ha : Rounds r a) (hb : Rounds r b) : a = b := by
  have hle : ∀ {a b : Nat}, Rounds r a → Rounds r b → ¬a < b := by
    intro a b ha hb hlt
    obtain ⟨c, rfl⟩ : ∃ c, b = c + 1 := ⟨b - 1, by omega⟩
    have hinf : a < infinity := lt_of_lt_of_le hlt hb.le_infinity
    have hmono : twiceMid a ≤ twiceMid c := twiceMid_strictMono.monotone (by omega)
    have hup := ha.upper_le hinf
    rcases hb.lower c rfl with hlow | ⟨hlow, heven⟩
    · linarith
    · obtain rfl : a = c := twiceMid_strictMono.injective (by linarith)
      rcases ha.upper hinf with hup | ⟨-, heven'⟩
      · linarith
      · rw [Nat.even_add_one] at heven
        exact heven heven'
  rcases lt_trichotomy a b with h | h | h
  · exact absurd h (hle ha hb)
  · exact h
  · exact absurd h (hle hb ha)

theorem Rounds.isNearest {b : Nat} (h : Rounds r b) : IsNearest r b := by
  -- the squares of two distances differ by a product of two factors
  have hfactors : ∀ c ≤ infinity, c ≠ b → 0 ≤ (value c - value b) * (value c + value b - 2 * r) ∧
      (value c + value b - 2 * r = 0 → Even b) := by
    intro c hinf hne
    rcases lt_or_gt_of_ne hne with hc | hc
    · obtain ⟨d, rfl⟩ : ∃ d, b = d + 1 := ⟨b - 1, by omega⟩
      have hle : value c + value (d + 1) ≤ twiceMid d :=
        add_le_add_left (value_strictMono.monotone (Nat.lt_succ_iff.1 hc)) _
      have hmid := h.lower_le (Nat.lt_succ_self d)
      refine ⟨mul_nonneg_of_nonpos_of_nonpos (by linarith [value_strictMono hc]) (by linarith), fun heq => ?_⟩
      exact ((h.lower d rfl).resolve_left (by linarith)).2
    · have hle : twiceMid b ≤ value c + value b := by
        rw [add_comm]
        exact add_le_add_right (value_strictMono.monotone hc) _
      have hmid := h.upper_le (by omega)
      refine ⟨mul_nonneg (by linarith [value_strictMono hc]) (by linarith), fun heq => ?_⟩
      exact ((h.upper (by omega)).resolve_left (by linarith)).2
  refine ⟨h.le_infinity, fun c hinf => ?_, fun c hinf hne heq => ?_⟩
  · by_cases hne : c = b
    · rw [hne]
    · exact sq_le_sq.1 (by linarith [(hfactors c hinf hne).1])
  · rw [← sq_eq_sq_iff_abs_eq_abs] at heq
    have hzero : (value c - value b) * (value c + value b - 2 * r) = 0 := by linarith
    exact (hfactors c hinf hne).2 ((mul_eq_zero.1 hzero).resolve_left (sub_ne_zero.2 (value_strictMono.injective.ne hne)))

/-! ## Rounding -/

/-- The quotient rounded to the nearest integer, half way to the even one. -/
def roundQuot (n d : Nat) : Nat :=
  if 2 * (n % d) < d then n / d
  else if d < 2 * (n % d) then n / d + 1
  else n / d + n / d % 2

theorem div_le_roundQuot : n / d ≤ roundQuot n d := by
  unfold roundQuot
  split
  · omega
  · split <;> omega

theorem roundQuot_le_succ : roundQuot n d ≤ n / d + 1 := by
  unfold roundQuot
  split
  · omega
  · split <;> omega

/-- The bits of the double nearest to `n / d`. -/
def round (n d : Nat) : Nat :=
  let s := (n * 2 ^ unitBits / d).log2 + 1 - 53
  min infinity (s * 2 ^ 52 + roundQuot (n * 2 ^ unitBits) (d * 2 ^ s))

/-- A rounding from the largest double that is not above the number. -/
theorem rounds_of_floor {b : Nat} (hle : value b ≤ r) (hlt : r < value (b + 1)) (hinf : b < infinity)
    (h : 2 * r < twiceMid b ∧ c = b ∨ twiceMid b < 2 * r ∧ c = b + 1 ∨ 2 * r = twiceMid b ∧ (c = b ∧ Even b ∨ c = b + 1 ∧ ¬Even b)) :
    Rounds r c := by
  have hbelow : ∀ d, b = d + 1 → twiceMid d < 2 * r := by
    rintro d rfl
    have := value_strictMono (Nat.lt_succ_self d)
    unfold twiceMid
    linarith
  have habove : 2 * r < twiceMid (b + 1) := by
    have := value_strictMono (Nat.lt_succ_self (b + 1))
    unfold twiceMid
    linarith
  have hdown : 2 * r < twiceMid b ∨ 2 * r = twiceMid b ∧ Even b → Rounds r b := fun hup =>
    ⟨le_of_lt hinf, fun d hd => Or.inl (hbelow d hd), fun _ => hup⟩
  have hup : twiceMid b < 2 * r ∨ twiceMid b = 2 * r ∧ Even (b + 1) → Rounds r (b + 1) := by
    refine fun hlow => ⟨hinf, fun d hd => ?_, fun _ => Or.inl habove⟩
    obtain rfl : b = d := by omega
    exact hlow
  rcases h with ⟨h, rfl⟩ | ⟨h, rfl⟩ | ⟨h, ⟨rfl, heven⟩ | ⟨rfl, hodd⟩⟩
  · exact hdown (Or.inl h)
  · exact hup (Or.inl h)
  · exact hdown (Or.inr ⟨h, heven⟩)
  · exact hup (Or.inr ⟨h.symm, Nat.even_add_one.mpr hodd⟩)

theorem rounds_infinity (h : value infinity ≤ r) : Rounds r infinity := by
  refine ⟨le_refl _, fun c hc => Or.inl ?_, fun hlt => absurd hlt (lt_irrefl _)⟩
  have hlt := value_strictMono (Nat.lt_succ_self c)
  unfold twiceMid
  rw [hc] at h
  linarith

theorem roundQuot_cases {n d : Nat} :
    2 * n < (2 * (n / d) + 1) * d ∧ roundQuot n d = n / d ∨
      (2 * (n / d) + 1) * d < 2 * n ∧ roundQuot n d = n / d + 1 ∨
      2 * n = (2 * (n / d) + 1) * d ∧ (roundQuot n d = n / d ∧ Even (n / d) ∨
        roundQuot n d = n / d + 1 ∧ ¬Even (n / d)) := by
  have hsplit := Nat.div_add_mod n d
  have hexpand : (2 * (n / d) + 1) * d = 2 * (d * (n / d)) + d := by ring
  unfold roundQuot
  rw [hexpand]
  split
  · exact Or.inl ⟨by omega, rfl⟩
  · split
    · exact Or.inr (Or.inl ⟨by omega, rfl⟩)
    · refine Or.inr (Or.inr ⟨by omega, ?_⟩)
      rcases Nat.even_or_odd (n / d) with h | h
      · exact Or.inl ⟨by rw [Nat.even_iff.mp h, add_zero], h⟩
      · exact Or.inr ⟨by rw [Nat.odd_iff.mp h], Nat.not_even_iff_odd.mpr h⟩

/-- The largest double that is not above a quotient. -/
theorem floor_bits {N d s : Nat} (hs : s = (N / d).log2 + 1 - 53) :
    N / (d * 2 ^ s) < 2 ^ 53 ∧ (s = 0 ∨ 2 ^ 52 ≤ N / (d * 2 ^ s)) := by
  rw [← Nat.div_div_eq_div_mul]
  have hupper : N / d < 2 ^ (53 + s) :=
    lt_of_lt_of_le Nat.lt_log2_self (Nat.pow_le_pow_right (by omega) (by omega))
  refine ⟨by rwa [Nat.div_lt_iff_lt_mul (by positivity), ← pow_add], ?_⟩
  rcases Nat.eq_zero_or_pos s with h0 | hpos
  · exact Or.inl h0
  · refine Or.inr ?_
    have hne : N / d ≠ 0 := by
      intro h0
      rw [h0, Nat.log2_zero] at hs
      omega
    rw [Nat.le_div_iff_mul_le (by positivity), ← pow_add]
    exact le_trans (Nat.pow_le_pow_right (by omega) (by omega)) (Nat.log2_self_le hne)

theorem rounds_round {d : Nat} (hd : 0 < d) : Rounds ((n : ℚ) / d) (round n d) := by
  obtain ⟨s, hs⟩ : ∃ s, s = (n * 2 ^ unitBits / d).log2 + 1 - 53 := ⟨_, rfl⟩
  obtain ⟨hlt, hnorm⟩ := floor_bits hs
  have hround : round n d = min infinity (s * 2 ^ 52 + roundQuot (n * 2 ^ unitBits) (d * 2 ^ s)) := by rw [round, hs]
  obtain ⟨N, hN⟩ : ∃ N, N = n * 2 ^ unitBits := ⟨_, rfl⟩
  obtain ⟨D, hD⟩ : ∃ D, D = d * 2 ^ s := ⟨_, rfl⟩
  have hDpos : 0 < D := by rw [hD]; positivity
  rw [← hN, ← hD] at hround hlt hnorm
  -- everything in terms of the unit `2 ^ s` of the last place
  obtain ⟨κ, hκ⟩ : ∃ κ : ℚ, κ = 2 ^ s / 2 ^ unitBits := ⟨_, rfl⟩
  have hκpos : 0 < κ := by rw [hκ]; positivity
  have hval : value (s * 2 ^ 52 + N / D) = (N / D : Nat) * κ := by
    rw [value, units_add (by omega) hnorm, hκ]
    push_cast
    ring
  have hnext : value (s * 2 ^ 52 + N / D + 1) = ((N / D : Nat) + 1) * κ := by
    rw [value, add_assoc, units_add (by omega) (by omega), hκ]
    push_cast
    ring
  have hr : (n : ℚ) / d = (N : ℚ) / D * κ := by
    have hd0 : (d : ℚ) ≠ 0 := by exact_mod_cast hd.ne'
    rw [hκ, hN, hD]
    push_cast
    field_simp
  have hDq : (0 : ℚ) < D := by exact_mod_cast hDpos
  have hle : ((N / D : Nat) : ℚ) ≤ (N : ℚ) / D := Nat.cast_div_le
  have hgt : (N : ℚ) / D < (N / D : Nat) + 1 := by
    rw [div_lt_iff₀ hDq]
    exact_mod_cast (show N < (N / D + 1) * D from by
      have := Nat.lt_div_mul_add hDpos (a := N)
      rw [add_mul, one_mul]
      exact this)
  have hmid : twiceMid (s * 2 ^ 52 + N / D) = (2 * (N / D : Nat) + 1) * κ := by
    rw [twiceMid, hval, hnext]
    ring
  have htwice : 2 * ((n : ℚ) / d) = 2 * (N : ℚ) / D * κ := by rw [hr]; ring
  have hlow : value (s * 2 ^ 52 + N / D) ≤ (n : ℚ) / d := by
    rw [hval, hr]
    exact mul_le_mul_of_nonneg_right hle hκpos.le
  rcases Nat.lt_or_ge (s * 2 ^ 52 + N / D) infinity with hinf | hinf
  · have hle1 := roundQuot_le_succ N D
    rw [hround, min_eq_right (by omega)]
    refine rounds_of_floor hlow ?_ hinf ?_
    · rw [hnext, hr]
      exact mul_lt_mul_of_pos_right hgt hκpos
    · have heven : Even (s * 2 ^ 52 + N / D) ↔ Even (N / D) := by
        rw [Nat.even_add]
        exact iff_true_left (Even.mul_left (by decide) s)
      rw [htwice, hmid, heven]
      rcases roundQuot_cases (n := N) (d := D) with ⟨h, heq⟩ | ⟨h, heq⟩ | ⟨h, hcase⟩
      · refine Or.inl ⟨mul_lt_mul_of_pos_right ?_ hκpos, by rw [heq]⟩
        rw [div_lt_iff₀ hDq]
        exact_mod_cast h
      · refine Or.inr (Or.inl ⟨mul_lt_mul_of_pos_right ?_ hκpos, by rw [heq, add_assoc]⟩)
        rw [lt_div_iff₀ hDq]
        exact_mod_cast h
      · refine Or.inr (Or.inr ⟨?_, ?_⟩)
        · congr 1
          rw [div_eq_iff hDq.ne']
          exact_mod_cast h
        · rcases hcase with ⟨heq, he⟩ | ⟨heq, ho⟩
          · exact Or.inl ⟨by rw [heq], he⟩
          · exact Or.inr ⟨by rw [heq, add_assoc], ho⟩
  · have hge := div_le_roundQuot N D
    rw [hround, min_eq_left (by omega)]
    exact rounds_infinity (le_trans (value_strictMono.monotone hinf) hlow)

/-- A number that is a double is its own rounding. -/
theorem rounds_value {b : Nat} (h : b ≤ infinity) : Rounds (value b) b := by
  refine ⟨h, ?_, ?_⟩
  · rintro c rfl
    have := value_strictMono (Nat.lt_succ_self c)
    unfold twiceMid
    exact Or.inl (by linarith)
  · intro _
    have := value_strictMono (Nat.lt_succ_self b)
    unfold twiceMid
    exact Or.inl (by linarith)

theorem roundQuot_mul_right {k : Nat} (hk : 0 < k) : roundQuot (n * k) (d * k) = roundQuot n d := by
  unfold roundQuot
  rw [Nat.mul_div_mul_right _ _ hk, Nat.mul_mod_mul_right, ← mul_assoc]
  simp only [Nat.mul_lt_mul_right hk]

/-- Any bits stand for their value, those beyond infinity for infinity. -/
theorem rounds_min_value : Rounds (value b) (min infinity b) := by
  rcases Nat.le_total b infinity with h | h
  · rw [min_eq_right h]
    exact rounds_value h
  · rw [min_eq_left h]
    exact rounds_infinity (value_strictMono.monotone h)

/-- Of a number with at least 53 bits the first 53 are kept, rounded. -/
theorem round_of_bits {n e : Nat} (hlow : 2 ^ 52 ≤ n / 2 ^ e) (hhigh : n / 2 ^ e < 2 ^ 53) :
    round n 1 = min infinity ((unitBits + e) * 2 ^ 52 + roundQuot n (2 ^ e)) := by
  have hle : 2 ^ (52 + e) ≤ n := by
    rw [pow_add]
    exact (Nat.le_div_iff_mul_le (by positivity)).mp hlow
  have hlt : n < 2 ^ (53 + e) := by
    rw [pow_add]
    exact (Nat.div_lt_iff_lt_mul (by positivity)).mp hhigh
  have hlog : (n * 2 ^ unitBits / 1).log2 = 52 + e + unitBits := by
    rw [Nat.div_one, Nat.log2_eq_iff (Nat.mul_pos (lt_of_lt_of_le (by positivity) hle) (by positivity)).ne']
    refine ⟨?_, ?_⟩
    · rw [pow_add]
      exact Nat.mul_le_mul_right _ hle
    · rw [show 52 + e + unitBits + 1 = 53 + e + unitBits by omega, pow_add]
      exact Nat.mul_lt_mul_of_pos_right hlt (by positivity)
  have hscale : 52 + e + unitBits + 1 - 53 = unitBits + e := by omega
  simp only [round, hlog, hscale]
  rw [one_mul, pow_add, mul_comm (2 ^ unitBits), roundQuot_mul_right _ _ (by positivity)]

theorem log2_append {n p t : Nat} (hn : n ≠ 0) (ht : t < 2 ^ p) : (n * 2 ^ p + t).log2 = n.log2 + p := by
  have hpos : 0 < n * 2 ^ p := by positivity
  rw [Nat.log2_eq_iff (by omega)]
  constructor
  · calc 2 ^ (n.log2 + p) = 2 ^ n.log2 * 2 ^ p := pow_add _ _ _
      _ ≤ n * 2 ^ p := Nat.mul_le_mul_right _ (Nat.log2_self_le hn)
      _ ≤ n * 2 ^ p + t := Nat.le_add_right _ _
  · calc n * 2 ^ p + t < (n + 1) * 2 ^ p := by rw [add_mul]; omega
      _ ≤ 2 ^ (n.log2 + 1) * 2 ^ p := Nat.mul_le_mul_right _ Nat.lt_log2_self
      _ = 2 ^ (n.log2 + p + 1) := by rw [← pow_add]; congr 1; omega

/-- Rounding off bits behind the first ones of which only `n` is at hand: `t` matters if it decides a tie. -/
theorem roundQuot_append {n p t : Nat} (hc : 0 < c) (ht : t < 2 ^ p) :
    roundQuot (n * 2 ^ p + t) (2 ^ (c + p)) =
      if 2 ^ (c - 1) < n % 2 ^ c then n / 2 ^ c + 1
      else if n % 2 ^ c = 2 ^ (c - 1) then
        if n / 2 ^ c % 2 ≠ 0 ∨ t ≠ 0 then n / 2 ^ c + 1 else n / 2 ^ c
      else n / 2 ^ c := by
  have hp : 0 < 2 ^ p := by positivity
  have hmid : 2 ^ (c + p) = 2 * (2 ^ (c - 1) * 2 ^ p) := by
    rw [← pow_add, ← pow_succ']
    congr 1
    omega
  have hdiv : (n * 2 ^ p + t) / 2 ^ (c + p) = n / 2 ^ c := by
    rw [add_comm c, pow_add, ← Nat.div_div_eq_div_mul, mul_comm n, Nat.mul_add_div hp, Nat.div_eq_of_lt ht, add_zero]
  have hmod : (n * 2 ^ p + t) % 2 ^ (c + p) = n % 2 ^ c * 2 ^ p + t := by
    rw [add_comm c, pow_add, Nat.mod_mul, mul_comm n, Nat.mul_add_mod, Nat.mod_eq_of_lt ht, Nat.mul_add_div hp,
      Nat.div_eq_of_lt ht, add_zero, add_comm, mul_comm]
  rw [roundQuot, hdiv, hmod, hmid]
  generalize n % 2 ^ c = r
  generalize 2 ^ (c - 1) = m
  rcases lt_trichotomy r m with h | rfl | h
  · have hmul : (r + 1) * 2 ^ p ≤ m * 2 ^ p := Nat.mul_le_mul_right _ h
    rw [add_mul] at hmul
    rw [if_pos (by omega), if_neg (by omega), if_neg (by omega)]
  · rw [if_neg (by omega), if_neg (lt_irrefl _), if_pos rfl]
    rcases Nat.eq_zero_or_pos t with rfl | hpos
    · rw [if_neg (by omega)]
      split <;> omega
    · rw [if_pos (by omega), if_pos (Or.inr hpos.ne')]
  · have hmul : (m + 1) * 2 ^ p ≤ r * 2 ^ p := Nat.mul_le_mul_right _ h
    rw [add_mul] at hmul
    rw [if_neg (by omega), if_pos (by omega), if_pos h]

end Binary64
