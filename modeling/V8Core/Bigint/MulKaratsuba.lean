import V8Core.Bigint.MulSchoolbook
import V8Core.Lib.Loops

/-!
# Karatsuba multiplication

`mul-karatsuba.cc`. `KaratsubaMain` multiplies the lowest `n` digits of two numbers with
three recursive products; it updates an output whose digits above `2 * n` it may touch
but leaves as they were. `KaratsubaStart` cuts longer operands into chunks.

The scratch areas that are live at the same time do not overlap, so each is a list of
its own here, and only the length of the scratch memory is passed on. Uninitialized
digits are read as zeros. `none` stands for an assertion that fails, for an overflow that
would be lost, and for running out of fuel.
-/

open Radix

namespace V8Core.Bigint

variable {w : Nat}

/-! ## Adding into a part of the output -/

/-- `AddAndReturnOverflow(Z + offset, X)`. -/
def addAt (Z : List (BitVec w)) (offset : Nat) (X : List (BitVec w)) : List (BitVec w) × BitVec w :=
  let r := addAndReturnOverflow (Z.drop offset) X
  (Z.take offset ++ r.1, r.2)

/-- `SubAndReturnBorrow(Z + offset, X)`. -/
def subAt (Z : List (BitVec w)) (offset : Nat) (X : List (BitVec w)) : List (BitVec w) × BitVec w :=
  let r := subAndReturnBorrow (Z.drop offset) X
  (Z.take offset ++ r.1, r.2)

/-- `AddAndReturnOverflow(Z + offset, X)` where nobody looks at the overflow. -/
def addInto (Z : List (BitVec w)) (offset : Nat) (X : List (BitVec w)) : Option (List (BitVec w)) :=
  if (addAt Z offset X).2 = 0#w then some (addAt Z offset X).1 else none

variable {n : Nat}

theorem normalize_length_le_of_lt {X : List (BitVec w)} (h : value X < 2 ^ (w * n)) : (normalize X).length ≤ n :=
  length_le_of_value_lt (isDigitNormalized_normalize X) (by rwa [value_normalize])

section At
variable {Z X : List (BitVec w)} {offset : Nat} (hoff : offset ≤ Z.length) (hX : value X < 2 ^ (w * (Z.length - offset)))

include hoff hX in
theorem addAt_spec : value (addAt Z offset X).1 + 2 ^ (w * Z.length) * (addAt Z offset X).2.toNat =
      value Z + 2 ^ (w * offset) * value X ∧ (addAt Z offset X).1.length = Z.length := by
  have hfit : (normalize X).length ≤ (Z.drop offset).length := by
    rw [List.length_drop]
    exact normalize_length_le_of_lt hX
  have hadd := addAndReturnOverflow_leaves (Z.drop offset) X hfit
  have h1 := hadd.add_eq
  have htake : (Z.take offset).length = offset := List.length_take_of_le hoff
  simp only [addAt, List.length_append, htake, hadd.length, List.length_drop, value_append]
  refine ⟨?_, by omega⟩
  rw [value_split_at Z offset, pow_len_split w hoff]
  rw [List.length_drop] at h1
  zify at h1 ⊢
  linear_combination 2 ^ (w * offset) * h1

include hoff hX in
theorem subAt_spec : value (subAt Z offset X).1 + 2 ^ (w * offset) * value X =
      value Z + 2 ^ (w * Z.length) * (subAt Z offset X).2.toNat ∧ (subAt Z offset X).1.length = Z.length := by
  have hfit : (normalize X).length ≤ (Z.drop offset).length := by
    rw [List.length_drop]
    exact normalize_length_le_of_lt hX
  have hsub := subAndReturnBorrow_leaves (Z.drop offset) X hfit
  have h1 := hsub.sub_eq
  have htake : (Z.take offset).length = offset := List.length_take_of_le hoff
  simp only [subAt, List.length_append, htake, hsub.length, List.length_drop, value_append]
  refine ⟨?_, by omega⟩
  rw [value_split_at Z offset, pow_len_split w hoff]
  rw [List.length_drop] at h1
  zify at h1 ⊢
  linear_combination 2 ^ (w * offset) * h1

include hoff in
/-- A sum that fits is exact. -/
theorem addInto_spec (hfit : value Z + 2 ^ (w * offset) * value X < 2 ^ (w * Z.length)) :
    ∃ Z', addInto Z offset X = some Z' ∧ value Z' = value Z + 2 ^ (w * offset) * value X ∧ Z'.length = Z.length := by
  have hX : value X < 2 ^ (w * (Z.length - offset)) := by
    rw [pow_len_split w hoff] at hfit
    exact Nat.lt_of_mul_lt_mul_left (Nat.lt_of_le_of_lt (Nat.le_add_left _ _) hfit)
  obtain ⟨h1, h2⟩ := addAt_spec hoff hX
  have hzero : (addAt Z offset X).2.toNat = 0 := by
    by_contra hne
    have : 2 ^ (w * Z.length) * 1 ≤ 2 ^ (w * Z.length) * (addAt Z offset X).2.toNat := Nat.mul_le_mul_left _ (by omega)
    omega
  exact ⟨_, if_pos (BitVec.toNat_inj.1 hzero), by simpa [hzero] using h1, h2⟩
end At

/-! ## The main recursion -/

def kKaratsubaThreshold : Nat := 34

/-- `KaratsubaSubtractionHelper(result, X, Y, &sign)`. -/
def karatsubaSubtractionHelper (len : Nat) (X Y : List (BitVec w)) (sign : Int) : List (BitVec w) × Int :=
  if greaterThanOrEqual X Y then (subtract len X Y, sign) else (subtract len Y X, -sign)

/-- The additions at the half: one digit too large, perhaps, until the last product is in. -/
def karatsubaMiddle (Z : List (BitVec w)) (n2 : Nat) (P0 P2 P1 : List (BitVec w)) (sign : Int) : Option (List (BitVec w)) :=
  let first := addAt Z n2 P0
  let second := addAt first.1 n2 P2
  let third := if sign > 0 then addAt second.1 n2 P1 else subAt second.1 n2 P1
  let overflow := if sign > 0 then first.2 + second.2 + third.2 else first.2 + second.2 - third.2
  if overflow = 0#w then some third.1 else none

/-- `KaratsubaMain(Z, X, Y, scratch, n)`. -/
def karatsubaMain (Z X Y : List (BitVec w)) (scratchLen n : Nat) : Option (List (BitVec w)) :=
  if n < kKaratsubaThreshold then
    let X := normalize X
    let Y := normalize Y
    let zlen := min (2 * n) Z.length
    some ((if X.length ≥ Y.length then multiplySchoolbook zlen X Y else multiplySchoolbook zlen Y X) ++ Z.drop (2 * n))
  else if scratchLen ≥ 4 * n ∧ n % 2 = 0 then do
    let n2 := n / 2
    let X0 := slice X 0 n2
    let X1 := slice X n2 n2
    let Y0 := slice Y 0 n2
    let Y1 := slice Y n2 n2
    let P0 ← karatsubaMain (List.replicate n 0#w) X0 Y0 (2 * n) n2
    let Z := P0 ++ Z.drop n
    let P2 ← karatsubaMain (List.replicate n 0#w) X1 Y1 (2 * n) n2
    let stop := min (Z.length - n) P2.length
    guard (∀ d ∈ P2.drop stop, d = 0#w)
    let Z := Z.take n ++ (P2.take stop ++ (Z.drop n).drop stop)
    let Xdiff := karatsubaSubtractionHelper n2 X1 X0 1
    let Ydiff := karatsubaSubtractionHelper n2 Y0 Y1 Xdiff.2
    let P1 ← karatsubaMain (List.replicate n 0#w) Xdiff.1 Ydiff.1 (2 * n) n2
    karatsubaMiddle Z n2 P0 P2 P1 Ydiff.2
  else none
termination_by n
decreasing_by all_goals (have h : ¬ n < 34 := ‹_›; omega)

/-- Lengths that can be halved down to the base case. -/
def KaratsubaSize (n : Nat) : Prop := ∃ f i, n = f * 2 ^ i ∧ f ≤ kKaratsubaThreshold

theorem KaratsubaSize.half (h : KaratsubaSize n) (hn : kKaratsubaThreshold ≤ n) :
    n = 2 * (n / 2) ∧ KaratsubaSize (n / 2) := by
  obtain ⟨f, i, rfl, hf⟩ := h
  cases i with
  | zero =>
    obtain rfl : f = kKaratsubaThreshold := by simpa using Nat.le_antisymm hf (by simpa using hn)
    exact ⟨rfl, 17, 0, rfl, by decide⟩
  | succ i =>
    have heq : f * 2 ^ (i + 1) = 2 * (f * 2 ^ i) := by ring
    rw [heq, Nat.mul_div_cancel_left _ (by decide)]
    exact ⟨rfl, f, i, rfl, hf⟩

theorem value_slice_lt (X : List (BitVec w)) (offset len : Nat) : value (slice X offset len) < 2 ^ (w * len) :=
  value_take_lt _ _

theorem length_slice_le (X : List (BitVec w)) (offset len : Nat) : (slice X offset len).length ≤ len :=
  List.length_take_le _ _

/-- The lowest digits, cut at a digit. -/
theorem value_take_add (X : List (BitVec w)) (i n : Nat) :
    value (X.take (i + n)) = value (X.take i) + 2 ^ (w * i) * value (slice X i n) := by
  rw [value_split_at (X.take (i + n)) i, List.take_take, List.drop_take, Nat.min_eq_left (by omega), Nat.add_sub_cancel_left]
  rfl

/-- The helper returns the distance, and the sign says which way. -/
theorem karatsubaSubtractionHelper_spec {len : Nat} {X Y : List (BitVec w)} (hX : X.length ≤ len) (hY : Y.length ≤ len)
    (sign : Int) :
    (karatsubaSubtractionHelper len X Y sign).2 * value (karatsubaSubtractionHelper len X Y sign).1 =
        sign * ((value X : ℤ) - value Y) ∧
      ((karatsubaSubtractionHelper len X Y sign).2 = sign ∨ (karatsubaSubtractionHelper len X Y sign).2 = -sign) ∧
      (karatsubaSubtractionHelper len X Y sign).1.length = len := by
  unfold karatsubaSubtractionHelper
  split
  · rename_i hge
    obtain ⟨h1, h2⟩ := subtract_spec len X Y ((greaterThanOrEqual_iff X Y).1 hge) (Nat.le_trans (length_normalize_le X) hX)
    refine ⟨?_, .inl rfl, h2⟩
    zify at h1
    linear_combination sign * h1
  · rename_i hge
    have hle : value X ≤ value Y := by
      have := (greaterThanOrEqual_iff X Y).not.1 hge
      omega
    obtain ⟨h1, h2⟩ := subtract_spec len Y X hle (Nat.le_trans (length_normalize_le Y) hY)
    refine ⟨?_, .inr rfl, h2⟩
    zify at h1
    linear_combination -sign * h1

/-- The two outer products next to each other, in front of what was there above `2 * n`. The digits of the second one
that are not copied are zeros. -/
theorem karatsuba_outer {P0 P2 Z : List (BitVec w)} (hP0 : P0.length = n) (hP2 : P2.length = n)
    (hZ : n ≤ Z.length) (hfit : value P2 < 2 ^ (w * (Z.length - n))) :
    let Z' := P0 ++ Z.drop n
    let stop := min (Z'.length - n) P2.length
    value (Z'.take n ++ (P2.take stop ++ (Z'.drop n).drop stop)) =
        value P0 + 2 ^ (w * n) * value P2 + 2 ^ (w * (2 * n)) * value (Z.drop (2 * n)) ∧
      (Z'.take n ++ (P2.take stop ++ (Z'.drop n).drop stop)).length = Z.length ∧ ∀ d ∈ P2.drop stop, d = 0#w := by
  intro Z' stop
  have hlen : Z'.length = Z.length := by
    simp only [Z', List.length_append, List.length_drop]
    omega
  have htake : Z'.take n = P0 := by simp [Z', ← hP0]
  have hdrop : Z'.drop n = Z.drop n := by simp [Z', ← hP0]
  have hstop : stop = min (Z.length - n) n := by simp only [stop, hlen, hP2]
  have hlt : value P2 < 2 ^ (w * stop) := by
    rw [hstop]
    rcases Nat.le_total (Z.length - n) n with hle | hle
    · rwa [Nat.min_eq_left hle]
    · rw [Nat.min_eq_right hle, ← hP2]
      exact value_lt P2
  have hlow : value (P2.take stop) = value P2 := by rw [value_take, Nat.mod_eq_of_lt hlt]
  rw [htake, hdrop]
  have hlen2 : (P2.take stop).length = stop := by
    rw [List.length_take, hP2]
    omega
  refine ⟨?_, ?_, ?_⟩
  · rw [value_append, value_append, hlow, hP0, hlen2, List.drop_drop]
    rcases Nat.le_total (Z.length - n) n with hle | hle
    · -- nothing is left above
      rw [List.drop_eq_nil_of_le (show Z.length ≤ n + stop by omega), List.drop_eq_nil_of_le (show Z.length ≤ 2 * n by omega)]
      simp
    · rw [show stop = n by omega, show n + n = 2 * n by omega, show w * (2 * n) = w * n + w * n by ring]
      ring
  · simp only [List.length_append, List.length_drop]
    omega
  · rw [← value_eq_zero_iff, value_drop, Nat.div_eq_of_lt hlt]

/-- Numbers below a bound that agree modulo it. -/
theorem eq_of_lt_of_add_mul {a b m : Nat} {k : ℤ} (ha : a < m) (hb : b < m) (h : (a : ℤ) = b + m * k) : a = b ∧ k = 0 := by
  have hmod : (a : ℤ) % m = (b : ℤ) % m := by rw [h, Int.add_mul_emod_self_left]
  rw [Int.emod_eq_of_lt (by omega) (by omega), Int.emod_eq_of_lt (by omega) (by omega)] at hmod
  rw [hmod, left_eq_add, mul_eq_zero] at h
  exact ⟨by exact_mod_cast hmod, h.resolve_left (by omega)⟩

/-- The middle part: three additions at the half, whose sum is the cross products. -/
theorem karatsubaMiddle_spec (sign : ℤ) {Z P0 P1 P2 : List (BitVec w)} {total : Nat} (hn : n ≤ Z.length)
    (hP0 : value P0 < 2 ^ (w * (Z.length - n))) (hP1 : value P1 < 2 ^ (w * (Z.length - n)))
    (hP2 : value P2 < 2 ^ (w * (Z.length - n))) (hsign : sign = 1 ∨ sign = -1) (hlt : total < 2 ^ (w * Z.length))
    (htotal : (total : ℤ) = value Z + 2 ^ (w * n) * (value P0 + value P2 + sign * value P1)) :
    ∃ Z', karatsubaMiddle Z n P0 P2 P1 sign = some Z' ∧ value Z' = total ∧ Z'.length = Z.length := by
  obtain ⟨h1, hl1⟩ := addAt_spec hn hP0
  obtain ⟨h2, hl2⟩ := addAt_spec (Z := (addAt Z n P0).1) (show n ≤ _ by omega) (by rwa [hl1])
  unfold karatsubaMiddle
  dsimp only
  rw [hl1] at h2
  generalize (addAt Z n P0).2 = first at *
  generalize (addAt (addAt Z n P0).1 n P2).2 = second at *
  generalize (addAt (addAt Z n P0).1 n P2).1 = Z' at *
  have hlen : Z'.length = Z.length := hl2.trans hl1
  rcases hsign with rfl | rfl
  · obtain ⟨h3, hl3⟩ := addAt_spec (Z := Z') (X := P1) (show n ≤ _ by omega) (by rwa [hlen])
    have hval := value_lt (addAt Z' n P1).1
    rw [hl3, hlen] at hval
    rw [hlen] at h3
    generalize hthird : (addAt Z' n P1).2 = third at *
    obtain ⟨heq, hzero⟩ := @eq_of_lt_of_add_mul _ _ _ (-(first.toNat + second.toNat + third.toNat)) hval hlt (by
      zify at h1 h2 h3
      push_cast
      linear_combination h1 + h2 + h3 - htotal)
    simp only [show (1 : ℤ) > 0 by decide, if_true, hthird]
    refine ⟨_, if_pos (BitVec.toNat_inj.1 ?_), heq, hl3.trans hlen⟩
    rw [BitVec.toNat_add, BitVec.toNat_add, show first.toNat = 0 by omega, show second.toNat = 0 by omega,
      show third.toNat = 0 by omega]
    rfl
  · obtain ⟨h3, hl3⟩ := subAt_spec (Z := Z') (X := P1) (show n ≤ _ by omega) (by rwa [hlen])
    have hval := value_lt (subAt Z' n P1).1
    rw [hl3, hlen] at hval
    rw [hlen] at h3
    generalize hthird : (subAt Z' n P1).2 = third at *
    obtain ⟨heq, hzero⟩ := @eq_of_lt_of_add_mul _ _ _ (third.toNat - (first.toNat + second.toNat)) hval hlt (by
      zify at h1 h2 h3
      push_cast
      linear_combination h1 + h2 + h3 - htotal)
    have hsum : first + second = third := by
      rw [← BitVec.toNat_inj, BitVec.toNat_add, show first.toNat + second.toNat = third.toNat by omega,
        Nat.mod_eq_of_lt third.isLt]
    simp only [show ¬ (-1 : ℤ) > 0 by decide, if_false, hthird]
    exact ⟨_, if_pos (by rw [hsum, BitVec.sub_self]), heq, hl3.trans hlen⟩

/-- The three products make up the whole one. -/
theorem karatsuba_assemble {Z P0 P1 P2 : List (BitVec w)} {x x0 x1 y y0 y1 : Nat} {sign : ℤ} (heven : n = 2 * (n / 2))
    (hl0 : P0.length = n) (hl1 : P1.length = n) (hl2 : P2.length = n) (hv0 : value P0 = x0 * y0) (hv2 : value P2 = x1 * y1)
    (hv1 : sign * value P1 = ((x1 : ℤ) - x0) * (y0 - y1)) (hsign : sign = 1 ∨ sign = -1)
    (hx : x = x0 + 2 ^ (w * (n / 2)) * x1) (hy : y = y0 + 2 ^ (w * (n / 2)) * y1) (hxlt : x < 2 ^ (w * n)) (hylt : y < 2 ^ (w * n))
    (hroom : n + n / 2 ≤ Z.length) (hfits : 2 * n ≤ Z.length ∨ x * y < 2 ^ (w * Z.length)) :
    let Z' := P0 ++ Z.drop n
    let stop := min (Z'.length - n) P2.length
    let Z1 := Z'.take n ++ (P2.take stop ++ (Z'.drop n).drop stop)
    (∀ d ∈ P2.drop stop, d = 0#w) ∧ ∃ Z2, karatsubaMiddle Z1 (n / 2) P0 P2 P1 sign = some Z2 ∧
      value (Z2.take (2 * n)) = x * y ∧ Z2.length = Z.length := by
  intro Z' stop Z1
  have hpow : 2 ^ (w * n) = 2 ^ (w * (n / 2)) * 2 ^ (w * (n / 2)) := by
    rw [← Nat.pow_add, ← Nat.mul_add, ← Nat.two_mul, ← heven]
  have hprod : x * y < 2 ^ (w * (2 * n)) := by
    rw [show w * (2 * n) = w * n + w * n by ring, Nat.pow_add]
    exact Nat.mul_lt_mul'' hxlt hylt
  have hfit : value P2 < 2 ^ (w * (Z.length - n)) := by
    rcases hfits with hle | hlt
    · have := value_lt P2
      exact Nat.lt_of_lt_of_le this (Nat.pow_le_pow_right (by decide) (Nat.mul_le_mul_left _ (by omega)))
    · -- the upper product is a part of the whole one
      rw [pow_len_split w (show n ≤ Z.length by omega)] at hlt
      apply Nat.lt_of_mul_lt_mul_left
      refine Nat.lt_of_le_of_lt ?_ hlt
      rw [hv2, hpow, hx, hy]
      calc 2 ^ (w * (n / 2)) * 2 ^ (w * (n / 2)) * (x1 * y1) = (2 ^ (w * (n / 2)) * x1) * (2 ^ (w * (n / 2)) * y1) := by ring
        _ ≤ _ := Nat.mul_le_mul (Nat.le_add_left _ _) (Nat.le_add_left _ _)
  obtain ⟨hval, hlen, hzeros⟩ : value Z1 = _ ∧ Z1.length = Z.length ∧ _ :=
    karatsuba_outer hl0 hl2 (show n ≤ Z.length by omega) hfit
  have hbelow : ∀ P : List (BitVec w), P.length = n → value P < 2 ^ (w * (Z1.length - n / 2)) := by
    intro P hP
    have hlt := value_lt P
    exact Nat.lt_of_lt_of_le hlt (Nat.pow_le_pow_right (by decide) (Nat.mul_le_mul_left _ (by omega)))
  -- what was above `2 * n` digits stays there
  have htotal : x * y + 2 ^ (w * (2 * n)) * value (Z.drop (2 * n)) < 2 ^ (w * Z1.length) := by
    rw [hlen]
    rcases Nat.le_total (2 * n) Z.length with hle | hle
    · have hg := value_lt (Z.drop (2 * n))
      rw [List.length_drop] at hg
      rw [pow_len_split w hle]
      have := Nat.mul_le_mul_left (2 ^ (w * (2 * n))) (Nat.succ_le_of_lt hg)
      rw [Nat.mul_succ] at this
      omega
    · rw [List.drop_eq_nil_of_le hle, value_nil, Nat.mul_zero]
      rcases hfits with heq | hlt
      · rwa [show Z.length = 2 * n by omega]
      · exact hlt
  obtain ⟨Z2, hmiddle, hres, hreslen⟩ := karatsubaMiddle_spec sign (show n / 2 ≤ Z1.length by omega) (hbelow P0 hl0) (hbelow P1 hl1)
    (hbelow P2 hl2) hsign htotal (by
      rw [hval, hv0, hv2, hv1, hx, hy, show w * (2 * n) = w * n + w * n by ring, hpow]
      push_cast
      ring)
  refine ⟨hzeros, Z2, hmiddle, ?_, hreslen.trans hlen⟩
  rw [value_take, hres, Nat.add_mul_mod_self_left, Nat.mod_eq_of_lt hprod]

/-- What `KaratsubaMain` is called with. -/
structure KaratsubaFits (Z X Y : List (BitVec w)) (scratchLen n : Nat) : Prop where
  size : KaratsubaSize n
  scratch : kKaratsubaThreshold ≤ n → 4 * n ≤ scratchLen
  short : n < kKaratsubaThreshold → X.length ≤ n ∧ Y.length ≤ n
  room : n + n / 2 ≤ Z.length
  fits : 2 * n ≤ Z.length ∨ kKaratsubaThreshold ≤ n ∧ value (X.take n) * value (Y.take n) < 2 ^ (w * Z.length)

/-- The schoolbook product of numbers of at most `n` digits fills `2 * n` digits. -/
theorem schoolbook_double (hn : n + 1 < 2 ^ w) {X Y : List (BitVec w)} (hX : X.length ≤ n) (hY : Y.length ≤ n) :
    value (multiplySchoolbook (2 * n) X Y) = value X * value Y ∧ (multiplySchoolbook (2 * n) X Y).length = 2 * n := by
  obtain ⟨h1, h2⟩ := multiplySchoolbook_spec (2 * n) X Y (by omega)
  refine ⟨h1, ?_⟩
  rw [h2]
  split <;> omega

/-- What `KaratsubaMain` does: the output begins with the product of the lowest `n` digits. -/
def KaratsubaMultiplies (Z X Y : List (BitVec w)) (scratchLen n : Nat) : Prop :=
  ∃ Z', karatsubaMain Z X Y scratchLen n = some Z' ∧ value (Z'.take (2 * n)) = value (X.take n) * value (Y.take n) ∧
    Z'.length = Z.length

theorem karatsubaMain_base (hw : 6 ≤ w) {scratchLen n : Nat} {Z X Y : List (BitVec w)} (hn : n < kKaratsubaThreshold)
    (h : KaratsubaFits Z X Y scratchLen n) : KaratsubaMultiplies Z X Y scratchLen n := by
  have hZ : 2 * n ≤ Z.length := h.fits.resolve_right fun hbig => by omega
  obtain ⟨hX, hY⟩ := h.short hn
  have hpow : n + 1 < 2 ^ w := by
    have : 2 ^ 6 ≤ 2 ^ w := Nat.pow_le_pow_right (by decide) hw
    simp only [kKaratsubaThreshold] at hn
    omega
  have hXn := Nat.le_trans (length_normalize_le X) hX
  have hYn := Nat.le_trans (length_normalize_le Y) hY
  have hprod : value (if (normalize X).length ≥ (normalize Y).length then multiplySchoolbook (2 * n) (normalize X) (normalize Y)
        else multiplySchoolbook (2 * n) (normalize Y) (normalize X)) = value X * value Y ∧
      (if (normalize X).length ≥ (normalize Y).length then multiplySchoolbook (2 * n) (normalize X) (normalize Y)
        else multiplySchoolbook (2 * n) (normalize Y) (normalize X)).length = 2 * n := by
    split
    · simpa using schoolbook_double hpow hXn hYn
    · simpa [Nat.mul_comm] using schoolbook_double hpow hYn hXn
  rw [KaratsubaMultiplies, karatsubaMain, if_pos hn, Nat.min_eq_left hZ]
  dsimp only
  generalize (if (normalize X).length ≥ (normalize Y).length then multiplySchoolbook (2 * n) (normalize X) (normalize Y)
        else multiplySchoolbook (2 * n) (normalize Y) (normalize X)) = M at *
  refine ⟨_, rfl, ?_, ?_⟩
  · rw [List.take_left' hprod.2, List.take_of_length_le hX, List.take_of_length_le hY]
    exact hprod.1
  · rw [List.length_append, List.length_drop]
    omega

theorem karatsubaMain_spec (hw : 6 ≤ w) {scratchLen n : Nat} {Z X Y : List (BitVec w)}
    (h : KaratsubaFits Z X Y scratchLen n) : KaratsubaMultiplies Z X Y scratchLen n := by
  induction n using Nat.strong_induction_on generalizing Z X Y scratchLen with
  | _ n ih =>
    rcases Nat.lt_or_ge n kKaratsubaThreshold with hn | hn
    · exact karatsubaMain_base hw hn h
    · obtain ⟨heven, hhalf⟩ := h.size.half hn
      have hlt : n / 2 < n := by
        simp only [kKaratsubaThreshold] at hn
        omega
      -- the three recursive products
      have hrec : ∀ A B : List (BitVec w), A.length ≤ n / 2 → B.length ≤ n / 2 → ∃ P,
          karatsubaMain (List.replicate n 0#w) A B (2 * n) (n / 2) = some P ∧ value P = value A * value B ∧ P.length = n := by
        intro A B hA hB
        obtain ⟨P, h0, h1, h2⟩ := @ih (n / 2) hlt (2 * n) (List.replicate n 0#w) A B ⟨hhalf, fun _ => by omega,
          fun _ => ⟨hA, hB⟩, by rw [List.length_replicate]; omega, .inl (by rw [List.length_replicate]; omega)⟩
        rw [List.length_replicate] at h2
        rw [List.take_of_length_le (by omega), List.take_of_length_le hA, List.take_of_length_le hB] at h1
        exact ⟨P, h0, h1, h2⟩
      obtain ⟨P0, hP0, hv0, hl0⟩ := hrec (slice X 0 (n / 2)) (slice Y 0 (n / 2)) (length_slice_le ..) (length_slice_le ..)
      obtain ⟨P2, hP2, hv2, hl2⟩ := hrec (slice X (n / 2) (n / 2)) (slice Y (n / 2) (n / 2)) (length_slice_le ..) (length_slice_le ..)
      obtain ⟨hxd, hxs, hxl⟩ := karatsubaSubtractionHelper_spec (length_slice_le X (n / 2) (n / 2)) (length_slice_le X 0 (n / 2)) 1
      generalize hXd : karatsubaSubtractionHelper (n / 2) (slice X (n / 2) (n / 2)) (slice X 0 (n / 2)) 1 = Xd at *
      obtain ⟨hyd, hys, hyl⟩ :=
        karatsubaSubtractionHelper_spec (length_slice_le Y 0 (n / 2)) (length_slice_le Y (n / 2) (n / 2)) Xd.2
      generalize hYd : karatsubaSubtractionHelper (n / 2) (slice Y 0 (n / 2)) (slice Y (n / 2) (n / 2)) Xd.2 = Yd at *
      obtain ⟨P1, hP1, hv1, hl1⟩ := hrec Xd.1 Yd.1 (Nat.le_of_eq hxl) (Nat.le_of_eq hyl)
      have hx := value_take_add X (n / 2) (n / 2)
      have hy := value_take_add Y (n / 2) (n / 2)
      rw [← Nat.two_mul, ← heven] at hx hy
      have hsign : Yd.2 = 1 ∨ Yd.2 = -1 := by
        rcases hxs with hxs | hxs <;> rcases hys with hys | hys <;> simp [hys, hxs]
      obtain ⟨hzeros, Z', hmiddle, hval, hlen⟩ := karatsuba_assemble heven hl0 hl1 hl2 hv0 hv2 (by
        rw [hv1]
        push_cast
        linear_combination value Xd.1 * hyd + ((value (slice Y 0 (n / 2)) : ℤ) - value (slice Y (n / 2) (n / 2))) * hxd)
        hsign hx hy (value_take_lt X n) (value_take_lt Y n) h.room (h.fits.imp_right And.right)
      refine ⟨Z', ?_, hval, hlen⟩
      rw [karatsubaMain, if_neg (Nat.not_lt.2 hn), if_pos ⟨h.scratch hn, by omega⟩]
      simp only [hP0, hP2, hXd, hYd, hP1, Option.bind_eq_bind, Option.bind_some]
      rw [guard, if_pos hzeros]
      exact hmiddle

/-! ## The length of the recursion -/

/-- `RoundUp(x, y)`, that is `(x + y - 1) & -y`, for a power of two `y`. -/
def roundUp (x y : Nat) : Nat := (x + y - 1) / y * y

/-- `BitLength(n)`. -/
def bitLength (n : Nat) : Nat := n.size

/-- `RoundUpLen(len)`. -/
def roundUpLen (len : Nat) : Nat :=
  if len ≤ 36 then roundUp len 2
  else
    let shift := bitLength len - 5
    let shift := if len >>> shift ≥ 0x18 then shift + 1 else shift
    let additive := (1 <<< shift) - 1
    if shift ≥ 2 ∧ len &&& additive < 1 <<< (shift - 2) then len else ((len + additive) >>> shift) <<< shift

/-- The loop of `KaratsubaLength`, `i` halvings in. -/
def karatsubaHalve (n i : Nat) : Nat :=
  if n > kKaratsubaThreshold then karatsubaHalve (n / 2) (i + 1) else n <<< i
termination_by n
decreasing_by simp only [kKaratsubaThreshold] at *; omega

/-- `KaratsubaLength(n)`. -/
def karatsubaLength (n : Nat) : Nat := karatsubaHalve (roundUpLen n) 0

theorem karatsubaHalve_spec (n i : Nat) (hn : 17 ≤ n) :
    ∃ f j, karatsubaHalve n i = f * 2 ^ (i + j) ∧ 17 ≤ f ∧ f ≤ kKaratsubaThreshold ∧ f * 2 ^ j ≤ n ∧ n < (f + 1) * 2 ^ j := by
  induction n using Nat.strong_induction_on generalizing i with
  | _ n ih =>
    rw [karatsubaHalve]
    split
    · rename_i hbig
      simp only [kKaratsubaThreshold] at hbig
      obtain ⟨f, j, heq, hf, hf', hle, hlt⟩ := ih (n / 2) (by omega) (i + 1) (by omega)
      refine ⟨f, j + 1, by rw [heq, Nat.add_assoc, Nat.add_comm 1 j], hf, hf', ?_, ?_⟩
      · rw [Nat.pow_succ, ← Nat.mul_assoc]
        omega
      · rw [Nat.pow_succ, ← Nat.mul_assoc]
        omega
    · rename_i hsmall
      exact ⟨n, 0, by rw [Nat.shiftLeft_eq, Nat.add_zero], hn, by omega, by simp, by simp⟩

/-- The length is rounded up to a multiple of `2 ^ s`, or it is kept where it is only just above one. -/
theorem roundUpLen_cases (hn : kKaratsubaThreshold ≤ n) : ∃ s, 12 * 2 ^ s ≤ n ∧ n < 24 * 2 ^ s ∧
    (roundUpLen n = (n + (2 ^ s - 1)) / 2 ^ s * 2 ^ s ∨ roundUpLen n = n ∧ n % 2 ^ s < 2 ^ (s - 2)) := by
  simp only [kKaratsubaThreshold] at hn
  unfold roundUpLen
  split
  · exact ⟨1, by omega, by omega, .inl rfl⟩
  · have hlow : 2 ^ (bitLength n - 1) ≤ n := Nat.lt_size.1 (show bitLength n - 1 < n.size by
      have : 0 < n.size := Nat.size_pos.2 (by omega)
      simp only [bitLength]
      omega)
    have hhigh : n < 2 ^ bitLength n := Nat.lt_size_self n
    have hbits : 6 ≤ bitLength n := by
      by_contra hlt
      have : 2 ^ bitLength n ≤ 2 ^ 5 := Nat.pow_le_pow_right (by decide) (by omega)
      omega
    obtain ⟨c, hc⟩ : ∃ c, bitLength n = c + 5 := ⟨bitLength n - 5, by omega⟩
    rw [hc, show c + 5 - 1 = c + 4 by omega, Nat.pow_add] at hlow
    rw [hc, Nat.pow_add] at hhigh
    rw [hc, Nat.add_sub_cancel]
    generalize hs : (if n >>> c ≥ 0x18 then c + 1 else c) = s
    refine ⟨s, ?_, ?_, ?_⟩
    · subst hs
      split
      · rename_i htop
        rw [Nat.shiftRight_eq_div_pow, ge_iff_le, Nat.le_div_iff_mul_le (by positivity)] at htop
        rw [Nat.pow_succ]
        omega
      · omega
    · subst hs
      split
      · rw [Nat.pow_succ]
        omega
      · rename_i htop
        rw [Nat.shiftRight_eq_div_pow, ge_iff_le, Nat.le_div_iff_mul_le (by positivity)] at htop
        omega
    · dsimp only
      rw [hs]
      simp only [Nat.shiftLeft_eq, Nat.one_mul, Nat.shiftRight_eq_div_pow, Nat.and_two_pow_sub_one_eq_mod]
      split
      · rename_i hjust
        exact .inr ⟨rfl, hjust.2⟩
      · exact .inl rfl

/-- Rounding up adds at most a twelfth. -/
theorem roundUpLen_spec (hn : kKaratsubaThreshold ≤ n) : n ≤ roundUpLen n ∧ 12 * roundUpLen n ≤ 13 * n := by
  obtain ⟨s, hlow, _, heq | heq⟩ := roundUpLen_cases hn
  · have hdiv := Nat.div_add_mod' (n + (2 ^ s - 1)) (2 ^ s)
    omega
  · omega

theorem karatsubaLength_spec (hn : kKaratsubaThreshold ≤ n) :
    KaratsubaSize (karatsubaLength n) ∧ kKaratsubaThreshold ≤ karatsubaLength n ∧
      12 * karatsubaLength n ≤ 13 * n ∧ n ≤ 2 * karatsubaLength n := by
  obtain ⟨hle, hround⟩ := roundUpLen_spec hn
  simp only [kKaratsubaThreshold] at hn
  obtain ⟨f, j, heq, hf, hf', hlow, hhigh⟩ := karatsubaHalve_spec (roundUpLen n) 0 (by omega)
  rw [Nat.zero_add] at heq
  have hk : karatsubaLength n = f * 2 ^ j := heq
  rw [hk]
  rw [Nat.succ_mul] at hhigh
  have hpow : 17 * 2 ^ j ≤ f * 2 ^ j := Nat.mul_le_mul_right _ hf
  refine ⟨⟨f, j, rfl, hf'⟩, ?_, by omega, by omega⟩
  simp only [kKaratsubaThreshold]
  cases j with
  | zero => omega
  | succ j =>
    omega

theorem even_of_le_mul_two {f m p : Nat} (hle : f * p ≤ 2 * m * p + (p - 1)) (hlt : 2 * m * p < (f + 1) * p) : f % 2 = 0 := by
  have hp : 0 < p := by
    by_contra h
    obtain rfl : p = 0 := by omega
    omega
  have hup : f * p < (2 * m + 1) * p := by
    rw [Nat.add_mul]
    omega
  have := Nat.lt_of_mul_lt_mul_right hup
  have := Nat.lt_of_mul_lt_mul_right hlt
  omega

/-- The length is a multiple of what lengths of its size are rounded to. -/
theorem karatsubaLength_dvd (hn : kKaratsubaThreshold ≤ n) :
    ∃ s, 12 * 2 ^ s ≤ karatsubaLength n ∧ karatsubaLength n < 24 * 2 ^ s ∧ 2 ^ s ∣ karatsubaLength n := by
  obtain ⟨hle, _⟩ := roundUpLen_spec hn
  obtain ⟨s, hlow, hhigh, hround⟩ := roundUpLen_cases hn
  simp only [kKaratsubaThreshold] at hn
  obtain ⟨f, j, heq, hf, hf', hR, hR'⟩ := karatsubaHalve_spec (roundUpLen n) 0 (by omega)
  rw [Nat.zero_add] at heq
  rw [show karatsubaLength n = f * 2 ^ j from heq]
  simp only [kKaratsubaThreshold] at hf'
  have hpow := Nat.two_pow_pos j
  rcases Nat.lt_or_ge f 24 with hsmall | hbig
  · exact ⟨j, Nat.mul_le_mul_right _ (by omega), Nat.mul_lt_mul_of_pos_right hsmall hpow, Dvd.intro_left f rfl⟩
  · -- an odd factor would be one that the rounding has removed
    have hfR := Nat.mul_le_mul_right (2 ^ j) hbig
    have hfR' : (f + 1) * 2 ^ j ≤ 35 * 2 ^ j := Nat.mul_le_mul_right _ (by omega)
    have heven : f % 2 = 0 := by
      rcases hround with hround | ⟨hround, hmod⟩
      · have hdiv : (n + (2 ^ s - 1)) / 2 ^ s ≤ 24 := by
          rw [← Nat.lt_succ_iff, Nat.div_lt_iff_lt_mul (Nat.two_pow_pos s)]
          omega
        have hR24 := Nat.mul_le_mul_right (2 ^ s) hdiv
        rw [← hround] at hR24
        have hjs : j ≤ s := (Nat.pow_le_pow_iff_right (show 1 < 2 by decide)).1 (by omega)
        rcases Nat.eq_or_lt_of_le hjs with rfl | hlt
        · have := Nat.le_of_mul_le_mul_right (hR.trans hR24) hpow
          omega
        · obtain ⟨e, rfl⟩ := Nat.exists_eq_add_of_lt hlt
          generalize (n + (2 ^ (j + e + 1) - 1)) / 2 ^ (j + e + 1) = q at hround
          have hfactor : q * 2 ^ (j + e + 1) = 2 * (q * 2 ^ e) * 2 ^ j := by
            rw [Nat.pow_add]
            ring
          rw [hround, hfactor] at hR hR'
          exact even_of_le_mul_two (Nat.le_trans hR (Nat.le_add_right _ _)) hR'
      · have hjs : j < s := (Nat.pow_lt_pow_iff_right (show 1 < 2 by decide)).1 (by omega)
        have hsj : s < j + 2 := (Nat.pow_lt_pow_iff_right (show 1 < 2 by decide)).1 (by
          rw [Nat.pow_add]
          omega)
        obtain rfl : s = j + 1 := by omega
        have hdm := Nat.div_add_mod n (2 ^ (j + 1))
        have hless : 2 ^ (j + 1 - 2) ≤ 2 ^ j := Nat.pow_le_pow_right (by decide) (by omega)
        have hfactor : 2 ^ (j + 1) * (n / 2 ^ (j + 1)) = 2 * (n / 2 ^ (j + 1)) * 2 ^ j := by
          rw [Nat.pow_succ]
          ring
        rw [hfactor] at hdm
        generalize n % 2 ^ (j + 1) = r at hdm hmod
        generalize n / 2 ^ (j + 1) = m at hdm
        exact @even_of_le_mul_two f m (2 ^ j) (by omega) (by omega)
    obtain ⟨g, rfl⟩ : ∃ g, f = 2 * g := ⟨f / 2, by omega⟩
    refine ⟨j + 1, ?_, ?_, ⟨g, ?_⟩⟩
    · rw [Nat.pow_succ]
      omega
    · rw [Nat.pow_succ]
      omega
    · rw [Nat.pow_succ]
      ring

/-- A factor that is not longer does not need more scratch memory. -/
theorem karatsubaLength_le {m n : Nat} (hm : kKaratsubaThreshold ≤ m) (hn : kKaratsubaThreshold ≤ n)
    (h : m ≤ karatsubaLength n) : karatsubaLength m ≤ karatsubaLength n := by
  obtain ⟨s, _, hhigh, hdvd⟩ := karatsubaLength_dvd hn
  have hround : roundUpLen m ≤ karatsubaLength n := by
    obtain ⟨t, hlow, _, heq | heq⟩ := roundUpLen_cases hm
    · have hts : t < s + 1 := (Nat.pow_lt_pow_iff_right (show 1 < 2 by decide)).1 (by
        rw [Nat.pow_succ]
        omega)
      obtain ⟨c, hc⟩ := (Nat.pow_dvd_pow 2 (show t ≤ s by omega)).trans hdvd
      have hpos := Nat.two_pow_pos t
      rw [heq, hc, Nat.mul_comm (2 ^ t) c]
      refine Nat.mul_le_mul_right _ (Nat.lt_succ_iff.1 ((Nat.div_lt_iff_lt_mul hpos).2 ?_))
      rw [Nat.succ_mul, Nat.mul_comm c]
      omega
    · omega
  have hle := (roundUpLen_spec hm).1
  simp only [kKaratsubaThreshold] at hm
  obtain ⟨f, j, heq, _, _, hR, _⟩ := karatsubaHalve_spec (roundUpLen m) 0 (by omega)
  rw [Nat.zero_add] at heq
  rw [show karatsubaLength m = f * 2 ^ j from heq]
  exact hR.trans hround

/-! ## Chunks -/

/-- A multiplication routine: it gets the length of the output and the factors. `none` stands for
running out of fuel. -/
abbrev Multiplier (w : Nat) := Nat → List (BitVec w) → List (BitVec w) → Option (List (BitVec w))

/-- It multiplies factors with less than `bound` digits together, one of them with at most `short` digits, if the output
has room for them. -/
def Multiplies (mul : Multiplier w) (bound short : Nat) : Prop :=
  ∀ zlen X Y, X.length + Y.length < bound → min X.length Y.length ≤ short → X.length + Y.length ≤ zlen →
    ∃ Z, mul zlen X Y = some Z ∧ value Z = value X * value Y ∧ Z.length = zlen

/-- `i = k; i < len; i += k`. -/
def chunkOffsets (len k : Nat) : List Nat := (List.range' 1 ((len - 1) / k)).map (k * ·)

/-- `KaratsubaStart(Z, X, Y, scratch, k)`, where `chunk` is `KaratsubaChunk` with the same scratch memory. -/
def karatsubaStart (chunk : Multiplier w) (Z X Y : List (BitVec w)) (scratchLen k : Nat) : Option (List (BitVec w)) := do
  let Z ← karatsubaMain Z X Y scratchLen k
  let Z := Z.take (2 * k) ++ List.replicate (Z.length - 2 * k) 0#w
  if k < Y.length ∨ X.length ≠ Y.length then
    let X0 := slice X 0 k
    let Y1 := Y.drop (min k Y.length)
    let Z ← (if Y1.length > 0 then (chunk (2 * k) X0 Y1).bind (addInto Z k) else some Z)
    let Y0 := slice Y 0 k
    (chunkOffsets X.length k).foldlM (fun Z i => do
      let Xi := slice X i k
      let T ← chunk (2 * k) Xi Y0
      let Z ← addInto Z i T
      (if Y1.length > 0 then (chunk (2 * k) Xi Y1).bind (addInto Z (i + k)) else some Z)) Z
  else some Z

/-- How both `Multiply` and `KaratsubaChunk` start: small factors, and others in order for `large`. -/
def multiplySmall (large : Multiplier w) : Multiplier w := fun zlen X Y =>
  let X := normalize X
  let Y := normalize Y
  if X.length = 0 ∨ Y.length = 0 then some (List.replicate zlen 0#w)
  else
    let (X, Y) := if X.length < Y.length then (Y, X) else (X, Y)
    if Y.length = 1 then some (multiplySingle zlen X (digit Y 0))
    else if Y.length < kKaratsubaThreshold then some (multiplySchoolbook zlen X Y)
    else large zlen X Y

/-- `KaratsubaChunk(Z, X, Y, scratch)`, with fuel for the calls through `KaratsubaStart`. -/
def karatsubaChunk (scratchLen : Nat) : Nat → Multiplier w
  | 0 => fun _ _ _ => none
  | fuel + 1 => multiplySmall fun zlen X Y =>
    let k := karatsubaLength Y.length
    if scratchLen ≥ 4 * k then
      karatsubaStart (karatsubaChunk scratchLen fuel) (List.replicate zlen 0#w) X Y scratchLen k
    else none

/-- `MultiplyKaratsuba(Z, X, Y)`. -/
def multiplyKaratsuba (Z X Y : List (BitVec w)) : Option (List (BitVec w)) :=
  let k := karatsubaLength Y.length
  karatsubaStart (karatsubaChunk (4 * k) (X.length + Y.length)) Z X Y (4 * k) k

section Start
variable {chunk : Multiplier w} {Z X Y : List (BitVec w)} {k : Nat}

theorem slice_zero (X : List (BitVec w)) (k : Nat) : slice X 0 k = X.take k := rfl

/-- Both parts of `Y`, for any `k`. -/
theorem value_cut (Y : List (BitVec w)) (k : Nat) :
    value Y = value (slice Y 0 k) + 2 ^ (w * k) * value (Y.drop (min k Y.length)) := by
  have hdrop : Y.drop (min k Y.length) = Y.drop k := by
    rcases Nat.le_total k Y.length with h | h
    · rw [Nat.min_eq_left h]
    · rw [Nat.min_eq_right h, List.drop_eq_nil_of_le h, List.drop_eq_nil_of_le (Nat.le_refl _)]
  rw [hdrop]
  exact value_split_at Y k

/-- A partial product: the lowest `i` digits of `X` times `Y`. -/
def PartialProduct (X Y : List (BitVec w)) (zlen i : Nat) (Z : List (BitVec w)) : Prop :=
  value Z = value (X.take i) * value Y ∧ Z.length = zlen

theorem value_mul_lt (X Y : List (BitVec w)) {zlen : Nat} (h : X.length + Y.length ≤ zlen) :
    value X * value Y < 2 ^ (w * zlen) := by
  calc value X * value Y < 2 ^ (w * X.length) * 2 ^ (w * Y.length) := Nat.mul_lt_mul'' (value_lt X) (value_lt Y)
    _ = 2 ^ (w * (X.length + Y.length)) := by rw [← Nat.pow_add, ← Nat.mul_add]
    _ ≤ 2 ^ (w * zlen) := Nat.pow_le_pow_right (by decide) (Nat.mul_le_mul_left _ h)

theorem value_take_le (X : List (BitVec w)) (i : Nat) : value (X.take i) ≤ value X := by
  rw [value_take]
  exact Nat.mod_le _ _

/-- The second part of a chunk's product, which is added where there is a second part of `Y`. -/
theorem chunk_upper (hchunk : Multiplies chunk (X.length + Y.length) k) {i : Nat} {Xi : List (BitVec w)} (hXi : Xi.length ≤ k)
    (hXlen : Xi.length ≤ X.length) (hk : Y.length ≤ 2 * k) (hkpos : 0 < k) (hZi : i + Y.length ≤ Z.length)
    (hfit : value Z + 2 ^ (w * (i + k)) * (value Xi * value (Y.drop (min k Y.length))) < 2 ^ (w * Z.length)) :
    ∃ Z', (if (Y.drop (min k Y.length)).length > 0 then
          (chunk (2 * k) Xi (Y.drop (min k Y.length))).bind (addInto Z (i + k)) else some Z) = some Z' ∧
      value Z' = value Z + 2 ^ (w * (i + k)) * (value Xi * value (Y.drop (min k Y.length))) ∧ Z'.length = Z.length := by
  split
  · rename_i hpos
    rw [List.length_drop] at hpos
    obtain ⟨T, hT, hTval, _⟩ := hchunk (2 * k) Xi (Y.drop (min k Y.length)) (by rw [List.length_drop]; omega)
      (Nat.le_trans (Nat.min_le_left _ _) hXi) (by rw [List.length_drop]; omega)
    rw [← hTval] at hfit ⊢
    rw [hT]
    exact addInto_spec (by omega) hfit
  · rename_i hpos
    have hnil : Y.drop (min k Y.length) = [] := List.length_eq_zero_iff.1 (by omega)
    exact ⟨Z, rfl, by simp [hnil], rfl⟩

/-- One turn of the loop over the chunks of `X`. -/
theorem chunk_step (hchunk : Multiplies chunk (X.length + Y.length) k) (hk : Y.length ≤ 2 * k) (hkpos : 0 < k)
    (hYpos : 0 < Y.length) {zlen : Nat} (hZ : X.length + Y.length ≤ zlen) {i : Nat} (hi : i < X.length) (hipos : 0 < i)
    (hP : PartialProduct X Y zlen i Z) :
    ∃ Z', (do
        let T ← chunk (2 * k) (slice X i k) (slice Y 0 k)
        let Z ← addInto Z i T
        (if (Y.drop (min k Y.length)).length > 0 then
          (chunk (2 * k) (slice X i k) (Y.drop (min k Y.length))).bind (addInto Z (i + k)) else some Z)) = some Z' ∧
      PartialProduct X Y zlen (i + k) Z' := by
  obtain ⟨hval, hlen⟩ := hP
  have hXi : (slice X i k).length ≤ k := length_slice_le ..
  have hXi' : (slice X i k).length ≤ X.length - i := by
    rw [slice, List.length_take, List.length_drop]
    omega
  have hY0 : (slice Y 0 k).length ≤ Y.length := by
    rw [slice_zero, List.length_take]
    omega
  obtain ⟨T, hT, hTval, _⟩ := hchunk (2 * k) (slice X i k) (slice Y 0 k) (by omega) (Nat.le_trans (Nat.min_le_left _ _) hXi)
    (by have := length_slice_le Y 0 k; omega)
  -- all partial sums stay below the whole product
  have htotal := value_mul_lt X Y hZ
  have hle := Nat.mul_le_mul_right (value Y) (value_take_le X (i + k))
  have hnext := value_take_add X i k
  have hcut := value_cut Y k
  have hsum : value (X.take (i + k)) * value Y = value Z + 2 ^ (w * i) * (value (slice X i k) * value (slice Y 0 k)) +
      2 ^ (w * (i + k)) * (value (slice X i k) * value (Y.drop (min k Y.length))) := by
    rw [hval, hnext, Nat.mul_add w]
    generalize value (slice Y 0 k) = y0 at *
    generalize value (Y.drop (min k Y.length)) = y1 at *
    rw [hcut]
    ring
  rw [← hlen] at htotal
  obtain ⟨Z1, hZ1, h1, hl1⟩ := addInto_spec (show i ≤ Z.length by omega) (by rw [hTval]; omega)
  obtain ⟨Z', hZ', h2, hl2⟩ := chunk_upper (Z := Z1) hchunk hXi (by omega) hk hkpos (show i + Y.length ≤ _ by omega)
    (by rw [h1, hl1, hTval]; omega)
  refine ⟨Z', ?_, ?_, by rw [hl2, hl1, hlen]⟩
  · simp only [hT, hZ1, Option.bind_eq_bind, Option.bind_some]
    exact hZ'
  · rw [h2, h1, hTval, hsum]

/-- The loop over the chunks after the first one completes the product. -/
theorem chunk_loop {zlen : Nat} {f : List (BitVec w) → Nat → Option (List (BitVec w))} (hkpos : 0 < k)
    (hP : PartialProduct X Y zlen k Z)
    (hstep : ∀ Z i, 0 < i → i < X.length → PartialProduct X Y zlen i Z → ∃ Z', f Z i = some Z' ∧ PartialProduct X Y zlen (i + k) Z') :
    ∃ Z', (chunkOffsets X.length k).foldlM f Z = some Z' ∧ value Z' = value X * value Y ∧ Z'.length = zlen := by
  rw [chunkOffsets, List.foldlM_map]
  have hdiv := Nat.mul_div_le (X.length - 1) k
  obtain ⟨Z', hZ', hval, hlen⟩ := Loops.foldlM_range' (P := fun j => PartialProduct X Y zlen (k * j))
    (i := 1) (n := (X.length - 1) / k) (by simpa using hP) (by
      intro j Z hj hlt hPj
      have hle : k * j ≤ k * ((X.length - 1) / k) := Nat.mul_le_mul_left _ (by omega)
      have hpos : 0 < k * j := Nat.mul_pos hkpos hj
      exact hstep Z (k * j) hpos (by omega) hPj)
  refine ⟨Z', hZ', ?_, hlen⟩
  have hall : X.length ≤ k * (1 + (X.length - 1) / k) := by
    have hmod := Nat.mod_lt (X.length - 1) hkpos
    have hdm := Nat.div_add_mod (X.length - 1) k
    rw [Nat.mul_add]
    omega
  rwa [List.take_of_length_le hall] at hval

theorem karatsubaStart_spec (hw : 6 ≤ w) (hchunk : Multiplies chunk (X.length + Y.length) (karatsubaLength Y.length))
    (hYX : Y.length ≤ X.length) (hY : kKaratsubaThreshold ≤ Y.length) (hZ : X.length + Y.length ≤ Z.length) {scratchLen : Nat}
    (hscratch : 4 * karatsubaLength Y.length ≤ scratchLen) :
    ∃ Z', karatsubaStart chunk Z X Y scratchLen (karatsubaLength Y.length) = some Z' ∧ value Z' = value X * value Y ∧
      Z'.length = Z.length := by
  obtain ⟨hsize, hk34, hkle, hkge⟩ := karatsubaLength_spec hY
  generalize karatsubaLength Y.length = k at *
  have hkpos : 0 < k := Nat.lt_of_lt_of_le (by decide) hk34
  have hYpos : 0 < Y.length := Nat.lt_of_lt_of_le (by decide) hY
  have htotal := value_mul_lt X Y hZ
  obtain ⟨M, hM, hmain, hmainlen⟩ := @karatsubaMain_spec _ hw scratchLen k Z X Y
    ⟨hsize, fun _ => hscratch, fun hlt => absurd hk34 (by omega), by omega,
      .inr ⟨hk34, Nat.lt_of_le_of_lt (Nat.mul_le_mul (value_take_le X k) (value_take_le Y k)) htotal⟩⟩
  rw [karatsubaStart, hM, Option.bind_eq_bind, Option.bind_some]
  dsimp only
  generalize hZ1 : M.take (2 * k) ++ List.replicate (M.length - 2 * k) 0#w = Z1
  have hval1 : value Z1 = value (slice X 0 k) * value (slice Y 0 k) := by rw [← hZ1, value_append_zeros, hmain]; rfl
  have hlen1 : Z1.length = Z.length := by
    rw [← hZ1, List.length_append, List.length_take, List.length_replicate]
    omega
  split
  · -- the rest of `Y`, and then the rest of `X`
    have hX0 : (slice X 0 k).length ≤ X.length := by
      rw [slice_zero, List.length_take]
      omega
    have hfirst : value (slice X 0 k) * value Y =
        value Z1 + 2 ^ (w * (0 + k)) * (value (slice X 0 k) * value (Y.drop (min k Y.length))) := by
      rw [hval1]
      conv_lhs => rw [value_cut Y k]
      ring
    have hle := Nat.mul_le_mul_right (value Y) (value_take_le X k)
    obtain ⟨Z2, hZ2, hval2, hlen2⟩ := chunk_upper (Z := Z1) (i := 0) hchunk (length_slice_le X 0 k) hX0 hkge hkpos (by omega)
      (by rw [← hfirst, hlen1]; exact Nat.lt_of_le_of_lt hle htotal)
    rw [Nat.zero_add] at hZ2
    rw [hZ2]
    exact chunk_loop hkpos ⟨by rw [hval2, ← hfirst]; rfl, hlen2.trans hlen1⟩
      fun Z i hi hlt hP => chunk_step hchunk hkge hkpos hYpos hZ hlt hi hP
  · rename_i hnone
    have hXk : X.take k = X := List.take_of_length_le (by omega)
    have hYk : Y.take k = Y := List.take_of_length_le (by omega)
    refine ⟨Z1, rfl, ?_, hlen1⟩
    rw [hval1, slice_zero, slice_zero, hXk, hYk]
end Start

/-- What `multiplySmall` leaves to other routines: long factors, the longer one first. -/
def MultipliesLarge (large : Multiplier w) (bound short : Nat) : Prop :=
  ∀ zlen X Y, Y.length ≤ X.length → kKaratsubaThreshold ≤ Y.length → X.length + Y.length < bound → Y.length ≤ short →
    X.length + Y.length ≤ zlen → ∃ Z, large zlen X Y = some Z ∧ value Z = value X * value Y ∧ Z.length = zlen

theorem multiplySmall_spec (hw : 6 ≤ w) {large : Multiplier w} {bound short : Nat}
    (hlarge : MultipliesLarge large bound short) : Multiplies (multiplySmall large) bound short := by
  intro zlen X Y hlt hmin hz
  have hX := length_normalize_le X
  have hY := length_normalize_le Y
  rw [← value_normalize X, ← value_normalize Y]
  unfold multiplySmall
  generalize normalize X = X at *
  generalize normalize Y = Y at *
  dsimp only
  split
  · rename_i hempty
    refine ⟨_, rfl, ?_, List.length_replicate⟩
    rcases hempty with h | h <;> simp [List.length_eq_zero_iff.1 h]
  · rename_i hne
    -- the factors in order
    obtain ⟨A, B, hAB, hmul, hlen, hle, hpos⟩ : ∃ A B, (if X.length < Y.length then (Y, X) else (X, Y)) = (A, B) ∧
        value X * value Y = value A * value B ∧ A.length + B.length = X.length + Y.length ∧
        B.length ≤ min X.length Y.length ∧ 0 < B.length := by
      split
      · exact ⟨Y, X, rfl, Nat.mul_comm _ _, Nat.add_comm _ _, by omega, by omega⟩
      · exact ⟨X, Y, rfl, rfl, rfl, by omega, by omega⟩
    rw [hAB, hmul]
    dsimp only
    split
    · rename_i hone
      obtain ⟨b, rfl⟩ := List.length_eq_one_iff.1 hone
      obtain ⟨h1, h2⟩ := multiplySingle_spec zlen A b
      refine ⟨_, rfl, by simpa [digit] using h1, ?_⟩
      have hdigit : digit [b] 0 = b := rfl
      rw [hdigit, h2]
      omega
    · split
      · rename_i hsmall
        have hpow : 2 ^ 6 ≤ 2 ^ w := Nat.pow_le_pow_right (by decide) hw
        simp only [kKaratsubaThreshold] at hsmall
        obtain ⟨h1, h2⟩ := multiplySchoolbook_spec zlen A B (by omega)
        refine ⟨_, rfl, h1, ?_⟩
        rw [h2, if_neg (by omega)]
        omega
      · exact hlarge zlen A B (by omega) (by omega) (by omega) (by omega) (by omega)

theorem karatsubaChunk_spec (hw : 6 ≤ w) (hn : kKaratsubaThreshold ≤ n) (fuel : Nat) :
    Multiplies (karatsubaChunk (w := w) (4 * karatsubaLength n) fuel) fuel (karatsubaLength n) := by
  induction fuel with
  | zero =>
    intro zlen X Y hlt _
    omega
  | succ fuel ih =>
    apply multiplySmall_spec hw
    intro zlen X Y hYX hY hlt hshort hz
    have hk := karatsubaLength_le hY hn hshort
    have hchunk : Multiplies (karatsubaChunk (4 * karatsubaLength n) fuel) (X.length + Y.length)
        (karatsubaLength Y.length) := fun zlen X' Y' hlt' hmin => ih zlen X' Y' (by omega) (by omega)
    dsimp only
    rw [if_pos (by omega)]
    simpa using karatsubaStart_spec (Z := List.replicate zlen 0#w) hw hchunk hYX hY (by simpa using hz)
      (Nat.mul_le_mul_left 4 hk)

theorem multiplyKaratsuba_multiplies (hw : 6 ≤ w) {Z X Y : List (BitVec w)} (hYX : Y.length ≤ X.length)
    (hY : kKaratsubaThreshold ≤ Y.length) (hz : X.length + Y.length ≤ Z.length) :
    ∃ Z', multiplyKaratsuba Z X Y = some Z' ∧ value Z' = value X * value Y ∧ Z'.length = Z.length :=
  karatsubaStart_spec hw (karatsubaChunk_spec hw hY (X.length + Y.length)) hYX hY hz (Nat.le_refl _)

/-- The arguments `MultiplyKaratsuba` asserts. -/
structure KaratsubaInput (w : Nat) where
  Z : List (BitVec w)
  X : List (BitVec w)
  Y : List (BitVec w)
  bits : w = 32 ∨ w = 64
  length_le : Y.length ≤ X.length
  threshold_le : kKaratsubaThreshold ≤ Y.length
  room : X.length + Y.length ≤ Z.length

/-- `MultiplyKaratsuba` multiplies. No assertion fails in any of the recursive calls, no overflow is lost, and no chunk
needs more scratch memory than there is. -/
theorem multiplyKaratsuba_spec (d : KaratsubaInput w) :
    (∃ Z', multiplyKaratsuba d.Z d.X d.Y = some Z' ∧ value Z' = value d.X * value d.Y ∧ Z'.length = d.Z.length) ∧
      ∀ m, kKaratsubaThreshold ≤ m → m ≤ karatsubaLength d.Y.length → karatsubaLength m ≤ karatsubaLength d.Y.length := by
  have hw : 6 ≤ w := by rcases d.bits with rfl | rfl <;> decide
  constructor
  · exact multiplyKaratsuba_multiplies hw d.length_le d.threshold_le d.room
  · exact fun m hm hle => karatsubaLength_le hm d.threshold_le hle

/-- Factors of 34 digits with all bits set. -/
theorem multiplyKaratsuba_spec_ones : ∃ Z,
    multiplyKaratsuba (List.replicate 68 0#64) (List.replicate 34 (-1#64)) (List.replicate 34 (-1#64)) = some Z ∧
      value Z = value (List.replicate 34 (-1#64)) * value (List.replicate 34 (-1#64)) ∧ Z.length = 68 :=
  (multiplyKaratsuba_spec {
    Z := List.replicate 68 0#64
    X := List.replicate 34 (-1#64)
    Y := List.replicate 34 (-1#64)
    bits := .inr rfl
    length_le := Nat.le_refl _
    threshold_le := Nat.le_of_eq List.length_replicate.symm
    room := by simp only [List.length_replicate, Nat.le_refl] }).1

end V8Core.Bigint
