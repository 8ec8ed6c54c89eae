import V8Core.Lib.Binary64
/-!
# Signed doubles and their arithmetic

Doubles with sign, infinities and a single NaN. Addition, subtraction and
multiplication round the exact result once, as IEEE 754 asks for. Integers up
to `2 ^ 53` are doubles, and arithmetic that stays among them is exact.
-/

/-- A double; the bits leave out the sign. -/
inductive Double where
  | nan
  | number (negative : Bool) (bits : Nat) (h : bits ≤ Binary64.infinity)
deriving DecidableEq

namespace Double

open Binary64

variable {T : Int} {b : Nat} {n : Int} {x y : Double}

def isFinite : Double → Bool
  | nan => false
  | number _ bits _ => bits != infinity

def isNaN : Double → Bool
  | nan => true
  | number _ _ _ => false

/-- The sign bit. -/
def negative : Double → Bool
  | nan => false
  | number negative _ _ => negative

/-- The value of a finite double. -/
def toRat : Double → ℚ
  | nan => 0
  | number negative bits _ => if negative then -value bits else value bits

/-- The double with the given bits; all NaNs are one. -/
def ofBits (bits : BitVec 64) : Double :=
  if h : bits.toNat % 2 ^ 63 ≤ Binary64.infinity then number bits.msb (bits.toNat % 2 ^ 63) h else nan

theorem round_le_infinity (n d : Nat) : Binary64.round n d ≤ infinity := min_le_left _ _

/-- The nearest double. -/
def ofRat (r : ℚ) : Double := number (r < 0) (Binary64.round r.num.natAbs r.den) (round_le_infinity _ _)

def zero (negative : Bool) : Double := number negative 0 (Nat.zero_le _)

/-- Positive infinity. -/
protected def infinity : Double := number false Binary64.infinity (le_refl _)

def neg : Double → Double
  | nan => nan
  | number negative bits h => number (!negative) bits h

def withSign (negative : Bool) (x : Double) : Double := if negative then x.neg else x

def add (x y : Double) : Double :=
  if x.isNaN || y.isNaN then nan
  else if !x.isFinite then
    if !y.isFinite && x.negative != y.negative then nan else x
  else if !y.isFinite then y
  else if x.toRat + y.toRat = 0 then zero (x.negative && y.negative)
  else ofRat (x.toRat + y.toRat)

def sub (x y : Double) : Double := x.add y.neg

def mul (x y : Double) : Double :=
  if x.isNaN || y.isNaN then nan
  else if !x.isFinite || !y.isFinite then
    if x.toRat = 0 || y.toRat = 0 then nan
    else number (x.negative != y.negative) infinity (le_refl _)
  else if x.toRat * y.toRat = 0 then zero (x.negative != y.negative)
  else ofRat (x.toRat * y.toRat)

/-- The product with a power of two. -/
def ldexp (x : Double) (exponent : Nat) : Double :=
  if x.isFinite && x.toRat != 0 then ofRat (x.toRat * 2 ^ exponent) else x

/-- The order of the values, with the infinities at its ends; nothing is above or below NaN. -/
def le (x y : Double) : Bool := !x.isNaN && !y.isNaN && decide (x.toRat ≤ y.toRat)

/-- The integer next to the value in the direction of zero. -/
def trunc (x : Double) : Int := x.toRat.num.tdiv x.toRat.den

/-! ## Integers -/

/-- The double is the given integer. -/
def IsInt (x : Double) (n : Int) : Prop := x.isFinite = true ∧ x.toRat = n

theorem exists_units {m : Nat} (hm : m ≤ 2 ^ 53) (k : Nat) : ∃ b, units b = m * 2 ^ k := by
  induction k generalizing m with
  | zero => exact ⟨m, by simpa using units_add (s := 0) hm (Or.inl rfl)⟩
  | succ k ih =>
    rcases Nat.lt_or_ge m (2 ^ 52) with hlt | hge
    · obtain ⟨b, hb⟩ := ih (m := 2 * m) (by omega)
      exact ⟨b, by rw [hb]; ring⟩
    · exact ⟨(k + 1) * 2 ^ 52 + m, units_add hm (Or.inr hge)⟩

/-- A natural number with at most 53 significant bits is the value of some bits. -/
theorem exists_value {m : Nat} (hm : m ≤ 2 ^ 53) (k : Nat) : ∃ b, value b = (m * 2 ^ k : Nat) := by
  obtain ⟨b, hb⟩ := exists_units hm (unitBits + k)
  refine ⟨b, ?_⟩
  rw [value, hb, div_eq_iff (by positivity)]
  push_cast
  ring

theorem value_infinity : value infinity = 2 ^ 1024 := by
  have hbits : infinity = 2046 * 2 ^ 52 + 2 ^ 52 := by
    unfold infinity
    omega
  have hpow : unitBits + 1024 = 52 + 2046 := rfl
  rw [value, hbits, units_add (by omega) (Or.inr (le_refl _)), div_eq_iff (by positivity), ← pow_add, mul_comm,
    ← pow_add, hpow]
  simp only [Nat.cast_pow, Nat.cast_ofNat]

theorem bits_lt_infinity (h : value b < 2 ^ 1024) : b < infinity := by
  rw [← value_infinity] at h
  exact value_strictMono.lt_iff_lt.mp h

/-- Rounding keeps the numbers that are doubles. -/
theorem ofRat_value {r : ℚ} (hb : b < infinity) (hr : |r| = value b) :
    (ofRat r).isFinite = true ∧ (ofRat r).toRat = r := by
  have habs : |r| = (r.num.natAbs : ℚ) / r.den := by
    conv_lhs => rw [← Rat.num_div_den r]
    rw [abs_div, Nat.abs_cast, Nat.cast_natAbs, Int.cast_abs]
  have hround : Binary64.round r.num.natAbs r.den = b := by
    have h := rounds_round r.num.natAbs r.pos
    rw [← habs, hr] at h
    exact h.unique (rounds_value hb.le)
  unfold ofRat isFinite toRat
  simp only [hround]
  refine ⟨by simpa using hb.ne, ?_⟩
  by_cases hneg : r < 0
  · simp only [hneg, decide_true, if_true]
    rw [← hr, abs_of_neg hneg, neg_neg]
  · simp only [hneg, decide_false, Bool.false_eq_true, if_false]
    rw [← hr, abs_of_nonneg (not_lt.mp hneg)]

theorem isInt_ofRat (h : n.natAbs ≤ 2 ^ 53) : (ofRat n).IsInt n := by
  obtain ⟨b, hb⟩ := exists_value h 0
  have hval : |(n : ℚ)| = value b := by
    rw [hb, pow_zero, mul_one, ← Int.cast_abs, Int.abs_eq_natAbs]
    rfl
  have hlt : b < infinity := by
    refine bits_lt_infinity ?_
    rw [hb, pow_zero, mul_one]
    have hle : ((n.natAbs : Nat) : ℚ) ≤ 2 ^ 53 := by exact_mod_cast h
    exact lt_of_le_of_lt hle (pow_lt_pow_right₀ (by norm_num) (by norm_num))
  exact ofRat_value hlt hval

theorem isNaN_of_isFinite (h : x.isFinite = true) : x.isNaN = false := by
  cases x with
  | nan => cases h
  | number negative bits hb => rfl

theorem isInt_zero (negative : Bool) : (zero negative).IsInt 0 := by
  refine ⟨by simp [zero, isFinite, infinity], ?_⟩
  cases negative <;> simp [zero, toRat, value_zero]

variable {m : Int}

theorem IsInt.unique (hm : x.IsInt m) (hn : x.IsInt n) : m = n := by
  exact_mod_cast hm.2.symm.trans hn.2

theorem IsInt.iff_eq (hm : x.IsInt m) : x.IsInt n ↔ m = n :=
  ⟨hm.unique, fun h => h ▸ hm⟩

/-- A sum of integers is the rounded exact sum. -/
theorem add_isInt_iff (hx : x.IsInt m) (hy : y.IsInt n) :
    (x.add y).IsInt T ↔ (ofRat (m + n : Int)).IsInt T := by
  have hsum : x.toRat + y.toRat = ((m + n : Int) : ℚ) := by rw [hx.2, hy.2, Int.cast_add]
  unfold add
  rw [isNaN_of_isFinite hx.1, isNaN_of_isFinite hy.1, hx.1, hy.1, hsum]
  simp only [Bool.or_self, Bool.not_true, Bool.false_eq_true, if_false, Int.cast_eq_zero]
  split
  case isTrue h0 => rw [(isInt_zero _).iff_eq, h0, (isInt_ofRat (n := 0) (by omega)).iff_eq]
  case isFalse => exact Iff.rfl

theorem isInt_add (hx : x.IsInt m) (hy : y.IsInt n) (h : (m + n).natAbs ≤ 2 ^ 53) : (x.add y).IsInt (m + n) :=
  (add_isInt_iff hx hy).mpr (isInt_ofRat h)

theorem isInt_neg (hx : x.IsInt n) : x.neg.IsInt (-n) := by
  cases x with
  | nan => cases hx.1
  | number negative bits hb =>
    refine ⟨hx.1, ?_⟩
    have hval := hx.2
    rw [Int.cast_neg, ← hval]
    cases negative <;> simp [neg, toRat]

theorem isInt_sub (hx : x.IsInt m) (hy : y.IsInt n) (h : (m - n).natAbs ≤ 2 ^ 53) :
    (x.sub y).IsInt (m - n) := by
  exact isInt_add hx (isInt_neg hy) h

theorem isInt_mul (hx : x.IsInt m) (hy : y.IsInt n) (h : (m * n).natAbs ≤ 2 ^ 53) :
    (x.mul y).IsInt (m * n) := by
  have hprod : x.toRat * y.toRat = ((m * n : Int) : ℚ) := by rw [hx.2, hy.2, Int.cast_mul]
  unfold mul
  rw [isNaN_of_isFinite hx.1, isNaN_of_isFinite hy.1, hx.1, hy.1, hprod]
  simp only [Bool.or_self, Bool.not_true, Bool.false_eq_true, if_false, Int.cast_eq_zero]
  split
  case isTrue h0 => rw [h0]; exact isInt_zero _
  case isFalse => exact isInt_ofRat h

theorem trunc_isInt (h : x.IsInt n) : x.trunc = n := by
  rw [trunc, h.2]
  simp

theorem le_isInt (hx : x.IsInt m) (hy : y.IsInt n) : x.le y = decide (m ≤ n) := by
  unfold le
  rw [isNaN_of_isFinite hx.1, isNaN_of_isFinite hy.1, hx.2, hy.2]
  simp

/-! ## Adding one to a large integer -/

theorem value_of_isInt {negative : Bool} {bits : Nat} {hb : bits ≤ infinity} (h : (number negative bits hb).IsInt n) :
    bits < infinity ∧ value bits = n.natAbs := by
  refine ⟨lt_of_le_of_ne hb (by simpa [isFinite] using h.1), ?_⟩
  have hval := h.2
  have hnonneg : 0 ≤ value bits := by unfold value; positivity
  rw [← Int.cast_natCast (R := ℚ), ← Int.abs_eq_natAbs, Int.cast_abs, ← hval]
  cases negative <;> simp [toRat, abs_of_nonneg hnonneg]

theorem isInt_number (hb : b < infinity) (h : value b = n.natAbs) : (number (n < 0) b hb.le).IsInt n := by
  refine ⟨by simpa [isFinite] using hb.ne, ?_⟩
  have habs : (n.natAbs : ℚ) = |(n : ℚ)| := by rw [Nat.cast_natAbs, Int.cast_abs]
  rw [toRat, h, habs]
  by_cases hn : n < 0
  · have hq : (n : ℚ) < 0 := by exact_mod_cast hn
    simp [hn, abs_of_neg hq]
  · have hq : 0 ≤ (n : ℚ) := by exact_mod_cast not_lt.mp hn
    simp [hn, abs_of_nonneg hq]

/-- From `2 ^ 53` on the last place of a double is two or more. -/
theorem exists_ulp (hb : 2 ^ 53 ≤ value b) :
    ∃ j, value b = (significand b * 2 ^ (j + 1) : Nat) ∧ value (b + 1) = ((significand b + 1) * 2 ^ (j + 1) : Nat) := by
  have hunits : 2 ^ 53 * 2 ^ unitBits ≤ units b := by
    rw [value, le_div_iff₀ (by positivity)] at hb
    exact_mod_cast hb
  have hscale : unitBits < scale b - 1 := by
    by_contra hle
    have hpow : 2 ^ (scale b - 1) ≤ 2 ^ unitBits := Nat.pow_le_pow_right (by omega) (by omega)
    have hlt : units b < 2 ^ 53 * 2 ^ unitBits :=
      lt_of_lt_of_le (Nat.mul_lt_mul_of_pos_right (significand_lt b) (by positivity)) (Nat.mul_le_mul_left _ hpow)
    exact absurd hlt (not_lt.mpr hunits)
  obtain ⟨j, hj⟩ : ∃ j, scale b - 1 = j + 1 + unitBits := ⟨scale b - 1 - 1 - unitBits, by omega⟩
  refine ⟨j, ?_, ?_⟩
  · rw [value, units, hj, div_eq_iff (by positivity)]
    push_cast
    ring
  · rw [value, units_succ, units, hj, div_eq_iff (by positivity)]
    push_cast
    ring

theorem even_bits_iff (b : Nat) : Even b ↔ Even (significand b) := by
  conv_lhs => rw [eq_scale_significand b]
  rw [Nat.even_add]
  exact iff_true_left (Even.mul_left (by decide) _)

theorem four_dvd_iff {m j : Nat} : 4 ∣ m * 2 ^ (j + 1) ↔ 0 < j ∨ Even m := by
  cases j with
  | zero => rw [Nat.even_iff]; omega
  | succ j =>
    have hdvd : 4 ∣ m * 2 ^ (j + 1 + 1) := by
      rw [pow_succ]
      exact ⟨m * 2 ^ j, by ring⟩
    simp [hdvd]

/-- A half of the last place is more than one, or it is one and the tie decides. -/
theorem tie_iff {j : Nat} {tie : Prop} : (2 : ℚ) < 2 ^ (j + 1) ∨ (2 : ℚ) = 2 ^ (j + 1) ∧ tie ↔ 0 < j ∨ tie := by
  cases j with
  | zero => simp
  | succ j =>
    have hpow : (1 : ℚ) ≤ 2 ^ j := one_le_pow₀ (by norm_num)
    have hlt : (2 : ℚ) < 2 ^ (j + 1 + 1) := by
      rw [pow_succ, pow_succ]
      linarith
    simp [hlt]

/-- One more than a large double is rounded back to it if the last place is more than two, or by the tie. -/
theorem rounds_succ_iff {n : Nat} (hn : 2 ^ 53 ≤ n) (hb : b < infinity) (h : value b = n) :
    Rounds ((n : ℚ) + 1) b ↔ 4 ∣ n := by
  obtain ⟨j, hval, hnext⟩ := exists_ulp (b := b) (by rw [h]; exact_mod_cast hn)
  have heq : n = significand b * 2 ^ (j + 1) := by exact_mod_cast h.symm.trans hval
  have hmid : twiceMid b = 2 * n + 2 ^ (j + 1) := by
    rw [twiceMid, hnext, h, heq]
    push_cast
    ring
  have hdvd : 4 ∣ n ↔ 0 < j ∨ Even b := by
    rw [even_bits_iff b, heq]
    exact four_dvd_iff
  rw [hdvd, ← tie_iff]
  constructor
  · intro hr
    have hupper := hr.upper hb
    rw [hmid] at hupper
    exact hupper.imp (fun hlt => by linarith) (And.imp_left fun heq => by linarith)
  · intro hor
    refine ⟨hb.le, ?_, fun _ => ?_⟩
    · rintro c rfl
      have := value_strictMono (Nat.lt_succ_self c)
      rw [twiceMid, h]
      exact Or.inl (by linarith)
    · rw [hmid]
      exact hor.imp (fun hlt => by linarith) (And.imp_left fun heq => by linarith)

/-- One less than a large double is rounded back to it if the last place below is more than two, or by the tie. -/
theorem rounds_pred_iff {n : Nat} (hn : 2 ^ 53 < n) (hb : b < infinity) (h : value b = n) :
    Rounds ((n : ℚ) - 1) b ↔ 4 ∣ n := by
  obtain ⟨p, hp⟩ := exists_value (le_refl (2 ^ 53)) 0
  have hlt : p < b := by
    rw [← value_strictMono.lt_iff_lt, hp, h, pow_zero]
    exact_mod_cast hn
  obtain ⟨c, rfl⟩ : ∃ c, b = c + 1 := ⟨b - 1, by omega⟩
  have hc : 2 ^ 53 ≤ value c := by
    have hmono : value p ≤ value c := value_strictMono.monotone (by omega)
    rw [hp, pow_zero] at hmono
    exact_mod_cast hmono
  obtain ⟨j, hval, hnext⟩ := exists_ulp hc
  have heq : n = (significand c + 1) * 2 ^ (j + 1) := by exact_mod_cast h.symm.trans hnext
  have hmid : twiceMid c = 2 * n - 2 ^ (j + 1) := by
    rw [twiceMid, hval, h, heq]
    push_cast
    ring
  have hdvd : 4 ∣ n ↔ 0 < j ∨ Even (c + 1) := by
    rw [Nat.even_add_one, even_bits_iff c, ← Nat.even_add_one, heq]
    exact four_dvd_iff
  rw [hdvd, ← tie_iff]
  constructor
  · intro hr
    have hlower := hr.lower c rfl
    rw [hmid] at hlower
    exact hlower.imp (fun hlt => by linarith) (And.imp_left fun heq => by linarith)
  · intro hor
    refine ⟨hb.le, ?_, fun _ => ?_⟩
    · intro d hd
      obtain rfl : c = d := by omega
      rw [hmid]
      exact hor.imp (fun hlt => by linarith) (And.imp_left fun heq => by linarith)
    · have := value_strictMono (Nat.lt_succ_self (c + 1))
      rw [twiceMid, h]
      exact Or.inl (by linarith)

/-- When rounding an integer gives another one of the same sign. -/
theorem ofRat_isInt_iff {S : Int} (hsign : S < 0 ↔ T < 0) :
    (ofRat S).IsInt T ↔ ∃ b < infinity, value b = T.natAbs ∧ Rounds (S.natAbs : ℚ) b := by
  have hround : Rounds (S.natAbs : ℚ) (Binary64.round (S : ℚ).num.natAbs (S : ℚ).den) := by
    have h := rounds_round (S : ℚ).num.natAbs (S : ℚ).pos
    rwa [Rat.den_intCast, Nat.cast_one, div_one] at h
  constructor
  · intro h
    obtain ⟨hlt, hval⟩ := value_of_isInt h
    exact ⟨_, hlt, hval, hround⟩
  · rintro ⟨b, hb, hval, hr⟩
    have hneg : decide ((S : ℚ) < 0) = decide (T < 0) := by
      rw [decide_eq_decide, ← hsign]
      exact_mod_cast Iff.rfl
    have heq : ofRat S = number (T < 0) b hb.le := by
      unfold ofRat
      simp only [hneg, hround.unique hr]
    rw [heq]
    exact isInt_number hb hval

/-- Whether an integer is a double. -/
def Represents (n : Int) : Prop := ∃ x : Double, x.IsInt n

theorem represents_iff : Represents n ↔ ∃ b < infinity, value b = n.natAbs := by
  constructor
  · rintro ⟨x, hx⟩
    cases x with
    | nan => cases hx.1
    | number negative bits hb => exact ⟨bits, value_of_isInt hx⟩
  · rintro ⟨b, hb, hval⟩
    exact ⟨_, isInt_number hb hval⟩

theorem ofRat_isInt_self : (ofRat T).IsInt T ↔ Represents T := by
  rw [ofRat_isInt_iff Iff.rfl, represents_iff]
  constructor
  · rintro ⟨b, hb, hval, -⟩
    exact ⟨b, hb, hval⟩
  · rintro ⟨b, hb, hval⟩
    exact ⟨b, hb, hval, hval ▸ rounds_value hb.le⟩

/-- Rounding loses an added one exactly at the large doubles that four divides. -/
theorem ofRat_succ_isInt_iff : (ofRat (T + 1 : Int)).IsInt T ↔ Represents T ∧ 4 ∣ T ∧ (2 ^ 53 ≤ T ∨ T < -2 ^ 53) := by
  by_cases hsmall : (T + 1).natAbs ≤ 2 ^ 53
  · refine iff_of_false (fun h => ?_) (fun h => by omega)
    have := h.unique (isInt_ofRat hsmall)
    omega
  have hdvd : 4 ∣ T ↔ 4 ∣ T.natAbs := by omega
  have hrange : 2 ^ 53 ≤ T ∨ T < -2 ^ 53 := by omega
  rw [ofRat_isInt_iff (by omega), represents_iff, and_iff_left hrange, hdvd]
  have hrounds (b : Nat) (hb : b < infinity) (hval : value b = T.natAbs) :
      Rounds ((T + 1).natAbs : ℚ) b ↔ 4 ∣ T.natAbs := by
    rcases hrange with hpos | hneg
    · have hcast : ((T + 1).natAbs : ℚ) = (T.natAbs : ℚ) + 1 := by
        have : (T + 1).natAbs = T.natAbs + 1 := by omega
        rw [this, Nat.cast_succ]
      rw [hcast]
      exact rounds_succ_iff (by omega) hb hval
    · have hcast : ((T + 1).natAbs : ℚ) = (T.natAbs : ℚ) - 1 := by
        have : T.natAbs = (T + 1).natAbs + 1 := by omega
        rw [this, Nat.cast_succ, add_sub_cancel_right]
      rw [hcast]
      exact rounds_pred_iff (by omega) hb hval
  constructor
  · rintro ⟨b, hb, hval, hr⟩
    exact ⟨⟨b, hb, hval⟩, (hrounds b hb hval).mp hr⟩
  · rintro ⟨⟨b, hb, hval⟩, h⟩
    exact ⟨b, hb, hval, (hrounds b hb hval).mpr h⟩

/-! ## Long integers -/

theorem ofRat_natCast (n : Nat) : ofRat n = number false (Binary64.round n 1) (round_le_infinity n 1) := by
  have hneg : decide ((n : ℚ) < 0) = false := decide_eq_false (not_lt.mpr (Nat.cast_nonneg n))
  simp only [ofRat, hneg, Rat.num_natCast, Rat.den_natCast, Int.natAbs_natCast]

/-- A number and its first 53 bits, rounded, have the same nearest double. -/
theorem ofRat_roundQuot {n e : Nat} (hlow : 2 ^ 52 ≤ n / 2 ^ e) (hhigh : n / 2 ^ e < 2 ^ 53) :
    ofRat n = ofRat ((roundQuot n (2 ^ e) * 2 ^ e : Nat) : ℚ) := by
  have hge := div_le_roundQuot n (2 ^ e)
  have hle := roundQuot_le_succ n (2 ^ e)
  have hvalue : value ((unitBits + e) * 2 ^ 52 + roundQuot n (2 ^ e)) = (roundQuot n (2 ^ e) * 2 ^ e : Nat) := by
    rw [value, units_add (by omega) (Or.inr (by omega)), div_eq_iff (by positivity)]
    push_cast
    ring
  have hrounds := rounds_round (roundQuot n (2 ^ e) * 2 ^ e) (d := 1) Nat.one_pos
  rw [Nat.cast_one, div_one, ← hvalue] at hrounds
  have hround := hrounds.unique (rounds_min_value _)
  simp only [ofRat_natCast, hround, round_of_bits hlow hhigh]

theorem ofRat_neg {r : ℚ} (h : r ≠ 0) : ofRat (-r) = (ofRat r).neg := by
  have hsign : decide (-r < 0) = !decide (r < 0) := by
    rcases lt_or_gt_of_ne h with hlt | hgt
    · simp [hlt, hlt.le]
    · simp [hgt, hgt.le]
  simp only [ofRat, neg, hsign, Rat.num_neg_eq_neg_num, Rat.den_neg_eq_den, Int.natAbs_neg]

theorem ofRat_zero : ofRat 0 = zero false := by
  have hround : Binary64.round 0 1 = 0 := by simp [Binary64.round, roundQuot]
  have h := ofRat_natCast 0
  simp only [hround] at h
  exact h

/-- Scaling an integer that is a double rounds once. -/
theorem ldexp_ofRat (h0 : n ≠ 0) (h : n.natAbs ≤ 2 ^ 53) (exponent : Nat) :
    (ofRat n).ldexp exponent = ofRat (n * 2 ^ exponent) := by
  obtain ⟨hfinite, hvalue⟩ := isInt_ofRat h
  have hne : ((ofRat n).toRat != 0) = true := by
    rw [hvalue, bne_iff_ne]
    exact_mod_cast h0
  rw [ldexp, hfinite, hne, hvalue]
  rfl

end Double
