import V8Core.Lib.MagicDivision
import V8Core.Lib.WordFacts
import Mathlib.Data.Nat.Prime.Basic
/-!
# Magic numbers for division

`SignedDivisionByConstant` and `UnsignedDivisionByConstant` search the multiplier and the
shift for a division by a constant. A round of the search doubles the power of two and
updates its quotients and remainders; words wrap around as the unsigned type does. The
signed search ends by itself, and `bits` rounds are enough for that
(`signedDivisionByConstant_spec`).
-/

namespace V8Core.Base

open MagicDivision

variable {n p : Nat}

/-- `MagicNumbersForDivision<T>`. -/
structure MagicNumbersForDivision (w : Nat) where
  multiplier : BitVec w
  shift : Nat
  add : Bool
deriving Repr, DecidableEq

variable {w : Nat}
variable {c : BitVec w}

/-! ## Signed division -/

/-- The variables of the signed search. -/
structure SignedSearch (w : Nat) where
  p : Nat
  q1 : BitVec w
  r1 : BitVec w
  q2 : BitVec w
  r2 : BitVec w

/-- The body of the loop. -/
def SignedSearch.step (anc ad : BitVec w) (s : SignedSearch w) : SignedSearch w where
  p := s.p + 1
  q1 := if anc ≤ 2 * s.r1 then 2 * s.q1 + 1 else 2 * s.q1
  r1 := if anc ≤ 2 * s.r1 then 2 * s.r1 - anc else 2 * s.r1
  q2 := if ad ≤ 2 * s.r2 then 2 * s.q2 + 1 else 2 * s.q2
  r2 := if ad ≤ 2 * s.r2 then 2 * s.r2 - ad else 2 * s.r2

/-- The test at the end of the loop. -/
def SignedSearch.continues (ad : BitVec w) (s : SignedSearch w) : Bool :=
  let delta := ad - s.r2
  s.q1 < delta || (s.q1 == delta && s.r1 == 0#w)

/-- The loop, for some number of rounds at most. -/
def SignedSearch.run (anc ad : BitVec w) : Nat → SignedSearch w → SignedSearch w
  | 0, s => s
  | rounds + 1, s =>
    let s := s.step anc ad
    if s.continues ad then run anc ad rounds s else s

/-- `SignedDivisionByConstant(d)`. -/
def signedDivisionByConstant (d : BitVec w) : MagicNumbersForDivision w :=
  let min := 1#w <<< (w - 1)
  let neg := min &&& d != 0#w
  let ad := if neg then 0#w - d else d
  let t := min + d >>> (w - 1)
  let anc := t - 1 - t % ad
  let q1 := min / anc
  let q2 := min / ad
  let s := SignedSearch.run anc ad w ⟨w - 1, q1, min - q1 * anc, q2, min - q2 * ad⟩
  let mul := s.q2 + 1
  ⟨if neg then 0#w - mul else mul, s.p - w, false⟩

/-! ## Unsigned division -/

/-- The variables of the unsigned search. -/
structure UnsignedSearch (w : Nat) where
  p : Nat
  q1 : BitVec w
  r1 : BitVec w
  q2 : BitVec w
  r2 : BitVec w
  a : Bool

/-- The body of the loop. -/
def UnsignedSearch.step (nc d : BitVec w) (s : UnsignedSearch w) : UnsignedSearch w :=
  let min := 1#w <<< (w - 1)
  let max := BitVec.allOnes w >>> 1
  { p := s.p + 1
    q1 := if nc - s.r1 ≤ s.r1 then 2 * s.q1 + 1 else 2 * s.q1
    r1 := if nc - s.r1 ≤ s.r1 then 2 * s.r1 - nc else 2 * s.r1
    q2 := if d - s.r2 ≤ s.r2 + 1 then 2 * s.q2 + 1 else 2 * s.q2
    r2 := if d - s.r2 ≤ s.r2 + 1 then 2 * s.r2 + 1 - d else 2 * s.r2 + 1
    a := s.a || (if d - s.r2 ≤ s.r2 + 1 then decide (max ≤ s.q2) else decide (min ≤ s.q2)) }

/-- The test at the end of the loop. -/
def UnsignedSearch.continues (d : BitVec w) (s : UnsignedSearch w) : Bool :=
  let delta := d - 1 - s.r2
  decide (s.p < w * 2) && (decide (s.q1 < delta) || (s.q1 == delta && s.r1 == 0#w))

/-- The loop. It has at most `w + 1` rounds. -/
def UnsignedSearch.run (nc d : BitVec w) : Nat → UnsignedSearch w → UnsignedSearch w
  | 0, s => s
  | rounds + 1, s =>
    let s := s.step nc d
    if s.continues d then run nc d rounds s else s

/-- `UnsignedDivisionByConstant(d, leading_zeros)`. -/
def unsignedDivisionByConstant (d : BitVec w) (leadingZeros : Nat) : MagicNumbersForDivision w :=
  let ones := BitVec.allOnes w >>> leadingZeros
  let min := 1#w <<< (w - 1)
  let max := BitVec.allOnes w >>> 1
  let nc := ones - (ones - d) % d
  let q1 := min / nc
  let q2 := max / d
  let s := UnsignedSearch.run nc d (w + 1) ⟨w - 1, q1, min - q1 * nc, q2, max - q2 * d, false⟩
  ⟨s.q2 + 1, s.p - w, s.a⟩

example : signedDivisionByConstant 7#32 = ⟨0x92492493#32, 2, false⟩ := by decide
example : unsignedDivisionByConstant 7#32 0 = ⟨0x24924925#32, 3, true⟩ := by decide

/-! ## Words of the search -/

theorem ofNat_double (n : Nat) : 2 * BitVec.ofNat w n = BitVec.ofNat w (2 * n) := by
  rw [BitVec.ofNat_mul]
  rfl

theorem ofNat_succ (n : Nat) : BitVec.ofNat w n + 1 = BitVec.ofNat w (n + 1) := by
  rw [BitVec.ofNat_add]
  rfl

theorem ofNat_sub (h : c.toNat ≤ n) : BitVec.ofNat w n - c = BitVec.ofNat w (n - c.toNat) := by
  rw [← BitVec.ofNat_sub_ofNat_of_le _ _ c.isLt h, BitVec.ofNat_toNat, BitVec.setWidth_eq]

theorem le_ofNat (h : n < 2 ^ w) : c ≤ BitVec.ofNat w n ↔ c.toNat ≤ n := by
  rw [BitVec.le_def, BitVec.toNat_ofNat, Nat.mod_eq_of_lt h]

/-- A round on the words of one divisor, however its test is written. -/
theorem round_words (hc : 0 < c.toNat) {b : Nat} (hb : b ≤ 1) {P : Prop} [Decidable P]
    (hP : P ↔ c.toNat ≤ 2 * (n % c.toNat) + b) :
    (if P then 2 * BitVec.ofNat w (n / c.toNat) + 1 else 2 * BitVec.ofNat w (n / c.toNat)) =
        BitVec.ofNat w ((2 * n + b) / c.toNat) ∧
      (if P then BitVec.ofNat w (2 * (n % c.toNat) + b) - c else BitVec.ofNat w (2 * (n % c.toNat) + b)) =
        BitVec.ofNat w ((2 * n + b) % c.toNat) := by
  obtain ⟨hdiv, hmod⟩ := div_mod_double n c.toNat hc hb
  rw [hdiv, hmod, ofNat_double, ofNat_succ]
  by_cases h : P
  · rw [if_pos h, if_pos h, if_pos (hP.1 h), if_pos (hP.1 h)]
    exact ⟨rfl, ofNat_sub (hP.1 h)⟩
  · rw [if_neg h, if_neg h, if_neg (mt hP.2 h), if_neg (mt hP.2 h)]
    exact ⟨rfl, rfl⟩

/-! ## The signed search -/

variable {s : SignedSearch w}

namespace SignedSearch

/-- The words hold the quotients and remainders of `2 ^ p`. -/
structure At (anc ad : BitVec w) (s : SignedSearch w) : Prop where
  q1 : s.q1 = BitVec.ofNat w (2 ^ s.p / anc.toNat)
  r1 : s.r1 = BitVec.ofNat w (2 ^ s.p % anc.toNat)
  q2 : s.q2 = BitVec.ofNat w (2 ^ s.p / ad.toNat)
  r2 : s.r2 = BitVec.ofNat w (2 ^ s.p % ad.toNat)

/-- `delta` for an exponent. -/
def delta (ad p : Nat) : Nat := ad - 2 ^ p % ad

/-- The divisors of a search: below half of the words, and their product is at least the first power. -/
structure Divisors (anc ad : BitVec w) : Prop where
  anc_pos : 0 < anc.toNat
  anc_lt : 2 * anc.toNat < 2 ^ w
  ad_pos : 0 < ad.toNat
  ad_lt : 2 * ad.toNat < 2 ^ w

variable {anc ad : BitVec w}

/-- One round for one of the two divisors. -/
theorem step_words (hc : 0 < c.toNat) (hc2 : 2 * c.toNat < 2 ^ w) {q r : BitVec w}
    (hq : q = BitVec.ofNat w (2 ^ p / c.toNat)) (hr : r = BitVec.ofNat w (2 ^ p % c.toNat)) :
    (if c ≤ 2 * r then 2 * q + 1 else 2 * q) = BitVec.ofNat w (2 ^ (p + 1) / c.toNat) ∧
      (if c ≤ 2 * r then 2 * r - c else 2 * r) = BitVec.ofNat w (2 ^ (p + 1) % c.toNat) := by
  have hlt := Nat.mod_lt (2 ^ p) hc
  rw [hq, hr, pow_succ', ofNat_double]
  exact round_words hc (Nat.zero_le 1) (le_ofNat (by omega))

theorem At.step (hd : Divisors anc ad) (h : s.At anc ad) : (s.step anc ad).At anc ad := by
  obtain ⟨hq1, hr1⟩ := step_words hd.anc_pos hd.anc_lt h.q1 h.r1
  obtain ⟨hq2, hr2⟩ := step_words hd.ad_pos hd.ad_lt h.q2 h.r2
  exact ⟨hq1, hr1, hq2, hr2⟩

/-- The test asks whether the error is still too large. -/
theorem At.continues_iff (hd : Divisors anc ad) (h : s.At anc ad) (hq : 2 ^ s.p / anc.toNat < 2 ^ w) :
    s.continues ad = true ↔ 2 ^ s.p ≤ anc.toNat * delta ad.toNat s.p := by
  have hr1 := Nat.mod_lt (2 ^ s.p) hd.anc_pos
  have hr2 := Nat.mod_lt (2 ^ s.p) hd.ad_pos
  have hdelta : (ad - s.r2).toNat = delta ad.toNat s.p := by
    rw [h.r2, BitVec.toNat_sub_of_le, BitVec.toNat_ofNat, Nat.mod_eq_of_lt (by omega), delta]
    rw [BitVec.le_def, BitVec.toNat_ofNat, Nat.mod_eq_of_lt (by omega)]
    exact hr2.le
  have hr1' : (2 ^ s.p % anc.toNat) % 2 ^ w = 2 ^ s.p % anc.toNat := Nat.mod_eq_of_lt (by omega)
  rw [le_mul_iff hd.anc_pos]
  simp only [continues, Bool.or_eq_true, Bool.and_eq_true, decide_eq_true_eq, beq_iff_eq, BitVec.lt_def,
    ← BitVec.toNat_inj, hdelta, h.q1, h.r1, BitVec.toNat_ofNat, Nat.mod_eq_of_lt hq, hr1', Nat.zero_mod]

/-- What the loop leaves: the first power for which the error is small enough. -/
structure Found (anc ad : BitVec w) (first : Nat) (s : SignedSearch w) : Prop where
  at_end : s.At anc ad
  lt : first < s.p
  small : anc.toNat * delta ad.toNat s.p < 2 ^ s.p
  before : ∀ j, first < j → j < s.p → 2 ^ j ≤ anc.toNat * delta ad.toNat j

theorem delta_le (ad p : Nat) : delta ad p ≤ ad := Nat.sub_le _ _

/-- The search ends before `2 ^ p` exceeds twice the product of the divisors. -/
theorem run_found (hd : Divisors anc ad) (rounds : Nat) (h : s.At anc ad) (hp : 2 ^ s.p ≤ anc.toNat * ad.toNat)
    (hrounds : anc.toNat * ad.toNat < 2 ^ (s.p + rounds)) : Found anc ad s.p (run anc ad rounds s) := by
  induction rounds generalizing s with
  | zero => rw [Nat.add_zero] at hrounds; omega
  | succ rounds ih =>
    have hstep := h.step hd
    have hq : 2 ^ (s.p + 1) / anc.toNat < 2 ^ w := by
      have had := hd.ad_lt
      rw [Nat.div_lt_iff_lt_mul hd.anc_pos]
      calc 2 ^ s.p * 2 ≤ anc.toNat * ad.toNat * 2 := Nat.mul_le_mul_right 2 hp
        _ = (2 * ad.toNat) * anc.toNat := by ring
        _ < 2 ^ w * anc.toNat := Nat.mul_lt_mul_of_pos_right had hd.anc_pos
    have hiff := hstep.continues_iff hd hq
    rw [run]
    split
    · rename_i hc
      have hle := hiff.1 hc
      have hfound := ih hstep (hle.trans (Nat.mul_le_mul_left _ (delta_le _ _)))
        (by rw [show (s.step anc ad).p + rounds = s.p + (rounds + 1) by simp [step]; omega]; exact hrounds)
      refine ⟨hfound.at_end, (Nat.lt_succ_self s.p).trans hfound.lt, hfound.small, fun j hj hlt => ?_⟩
      rcases Nat.eq_or_lt_of_le (Nat.succ_le_of_lt hj) with rfl | hj'
      · exact hle
      · exact hfound.before j hj' hlt
    · rename_i hc
      refine ⟨hstep, Nat.lt_succ_self s.p, Nat.lt_of_not_le (mt hiff.2 hc), fun j hj hlt => ?_⟩
      have : (s.step anc ad).p = s.p + 1 := rfl
      omega

end SignedSearch

/-- `min`, as a number. -/
theorem toNat_min (hw : 0 < w) : (1#w <<< (w - 1)).toNat = 2 ^ (w - 1) := by
  have hlt : 2 ^ (w - 1) < 2 ^ w := Nat.pow_lt_pow_right (by decide) (by omega)
  rw [BitVec.toNat_shiftLeft, BitVec.toNat_ofNat, Nat.mod_eq_of_lt (Nat.one_lt_two_pow hw.ne'), Nat.shiftLeft_eq,
    Nat.one_mul, Nat.mod_eq_of_lt hlt]

theorem two_pow_half (hw : 0 < w) : 2 ^ w = 2 * 2 ^ (w - 1) := by
  rw [← pow_succ', show w - 1 + 1 = w by omega]

/-- `max`, as a number. -/
theorem toNat_max (hw : 0 < w) : (BitVec.allOnes w >>> 1).toNat = 2 ^ (w - 1) - 1 := by
  have hpow := two_pow_half hw
  rw [BitVec.toNat_ushiftRight, BitVec.toNat_allOnes]
  omega

/-- The quotients and remainders a search starts with. -/
theorem start_words {n : BitVec w} : n / c = BitVec.ofNat w (n.toNat / c.toNat) ∧
    n - n / c * c = BitVec.ofNat w (n.toNat % c.toNat) := by
  have hq : n / c = BitVec.ofNat w (n.toNat / c.toNat) := by
    rw [← BitVec.toNat_udiv, BitVec.ofNat_toNat, BitVec.setWidth_eq]
  refine ⟨hq, ?_⟩
  have hle : n.toNat / c.toNat * c.toNat ≤ n.toNat := Nat.div_mul_le_self _ _
  have hmul : (n / c * c).toNat = n.toNat / c.toNat * c.toNat := by
    rw [BitVec.toNat_mul, BitVec.toNat_udiv, Nat.mod_eq_of_lt (hle.trans_lt n.isLt)]
  rw [← BitVec.toNat_inj, BitVec.toNat_sub_of_le (by rw [BitVec.le_def, hmul]; exact hle), hmul, BitVec.toNat_ofNat,
    Nat.mod_eq_of_lt ((Nat.mod_le _ _).trans_lt n.isLt)]
  have := Nat.div_add_mod' n.toNat c.toNat
  omega

/-- A positive divisor of signed words. -/
structure PositiveDivisor (d : BitVec w) : Prop where
  size : 2 ≤ w
  two_le : 2 ≤ d.toNat
  lt : d.toNat < 2 ^ (w - 1)

section Positive
variable {d : BitVec w}

theorem PositiveDivisor.msb (h : PositiveDivisor d) : d.msb = false := by
  rw [BitVec.msb_eq_decide, decide_eq_false_iff_not]
  exact Nat.not_le.2 h.lt

/-- `|nc|` is one below the last multiple of the divisor. -/
theorem toNat_anc (h : PositiveDivisor d) :
    (1#w <<< (w - 1) - 1 - 1#w <<< (w - 1) % d).toNat = 2 ^ (w - 1) / d.toNat * d.toNat - 1 := by
  have hw := h.size
  have hmin := toNat_min (w := w) (by omega)
  have hd := h.two_le
  have hlt := h.lt
  have hr := Nat.mod_lt (2 ^ (w - 1)) (show 0 < d.toNat by omega)
  have hsplit := Nat.div_add_mod' (2 ^ (w - 1)) d.toNat
  have hone : (1 : BitVec w).toNat = 1 := Nat.mod_eq_of_lt (Nat.one_lt_two_pow (by omega))
  have hsub : (1#w <<< (w - 1) - 1).toNat = 2 ^ (w - 1) - 1 := by
    rw [BitVec.toNat_sub_of_le (by rw [BitVec.le_def, hmin, hone]; omega), hmin, hone]
  rw [BitVec.toNat_sub_of_le (by rw [BitVec.le_def, hsub, BitVec.toNat_umod, hmin]; omega), hsub, BitVec.toNat_umod, hmin]
  omega

theorem signedDivisionByConstant_eq (h : PositiveDivisor d) :
    signedDivisionByConstant d =
      let min := 1#w <<< (w - 1)
      let anc := min - 1 - min % d
      let s := SignedSearch.run anc d w ⟨w - 1, min / anc, min - min / anc * anc, min / d, min - min / d * d⟩
      ⟨s.q2 + 1, s.p - w, false⟩ := by
  have hneg : (1#w <<< (w - 1) &&& d != 0#w) = false := by
    have hbit : d.getLsbD (w - 1) = false := by rw [← BitVec.msb_eq_getLsbD_last, h.msb]
    have hand := BitVec.and_twoPow d (w - 1)
    rw [hbit] at hand
    rw [BitVec.and_comm, show 1#w <<< (w - 1) = BitVec.twoPow w (w - 1) from rfl, hand]
    simp
  have hshift : d >>> (w - 1) = 0#w := by
    rw [← BitVec.toNat_inj, BitVec.toNat_ushiftRight, Nat.shiftRight_eq_div_pow, Nat.div_eq_of_lt h.lt]
    rfl
  simp only [signedDivisionByConstant, hneg, hshift, Bool.false_eq_true, if_false, BitVec.add_zero]

variable {anc : BitVec w}

/-- The divisors of the search, and the bounds that keep it within the words. -/
theorem PositiveDivisor.divisors (h : PositiveDivisor d)
    (hanc : anc.toNat = 2 ^ (w - 1) / d.toNat * d.toNat - 1) :
    SignedSearch.Divisors anc d ∧ 2 ^ (w - 1) ≤ 2 * anc.toNat ∧ anc.toNat + 1 ≤ 2 ^ (w - 1) := by
  have hw := h.size
  have hd := h.two_le
  have hlt := h.lt
  have hpow := two_pow_half (w := w) (by omega)
  have hpow' := two_pow_half (w := w - 1) (by omega)
  have hr := Nat.mod_lt (2 ^ (w - 1)) (show 0 < d.toNat by omega)
  have hsplit := Nat.div_add_mod' (2 ^ (w - 1)) d.toNat
  have hone : d.toNat ≤ 2 ^ (w - 1) / d.toNat * d.toNat :=
    Nat.le_mul_of_pos_left _ (Nat.div_pos hlt.le (by omega))
  exact ⟨⟨by omega, by omega, by omega, by omega⟩, by omega, by omega⟩

/-- What the numbers for a positive divisor are good for: multiplying, dropping the low bits and
adding one to a negative quotient divides and rounds towards zero. -/
structure SignedMagic (d : BitVec w) (mag : MagicNumbersForDivision w) : Prop where
  shift_lt : mag.shift < w
  div : ∀ n : ℤ, -2 ^ (w - 1) ≤ n → n < 2 ^ (w - 1) →
    n * mag.multiplier.toNat / 2 ^ (w + mag.shift) + (if n < 0 then 1 else 0) = n.tdiv d.toNat

/-- The smallest dividend, whose remainder may be the largest. -/
theorem min_error {d H delta c : Nat} (hd : 0 < d) (hc : c * delta < 2 ^ p) (hH : H ≤ 2 * c)
    (hlast : H % d + 1 = d → H * delta ≤ 2 ^ p) : H * delta ≤ (d - H % d) * 2 ^ p := by
  have hr := Nat.mod_lt H hd
  rcases Nat.lt_or_ge (H % d + 1) d with hlt | hge
  · exact (error_bound hd hc (.inr ⟨hH, by omega⟩)).le
  · rw [show d - H % d = 1 by omega, Nat.one_mul]
    exact hlast (by omega)

/-- The power at which the search ends is at most twice the product of the divisors. -/
theorem SignedSearch.Found.pow_le (h : PositiveDivisor d)
    (hanc : anc.toNat = 2 ^ (w - 1) / d.toNat * d.toNat - 1) (hf : Found anc d (w - 1) s) :
    2 ^ s.p ≤ 2 * anc.toNat * d.toNat := by
  have hd := h.two_le
  have hlt := hf.lt
  obtain ⟨-, hhalf, -⟩ := h.divisors hanc
  rw [two_pow_half (by omega), Nat.mul_assoc]
  refine Nat.mul_le_mul_left 2 ?_
  rcases Nat.eq_or_lt_of_le (show w - 1 ≤ s.p - 1 by omega) with heq | hlt'
  · rw [← heq]
    calc 2 ^ (w - 1) ≤ anc.toNat * 2 := by omega
      _ ≤ anc.toNat * d.toNat := Nat.mul_le_mul_left _ hd
  · exact (hf.before (s.p - 1) hlt' (by omega)).trans (Nat.mul_le_mul_left _ (delta_le _ _))

/-- Where `2 ^ (w - 1)` has the largest remainder, the search ends in its first round. -/
theorem SignedSearch.Found.last_error (h : PositiveDivisor d)
    (hanc : anc.toNat = 2 ^ (w - 1) / d.toNat * d.toNat - 1) (hf : Found anc d (w - 1) s)
    (hlast : 2 ^ (w - 1) % d.toNat + 1 = d.toNat) : 2 ^ (w - 1) * delta d.toNat s.p ≤ 2 ^ s.p := by
  have hw := h.size
  have hd := h.two_le
  have hlt := hf.lt
  obtain ⟨-, hhalf, hbelow⟩ := h.divisors hanc
  have hpow := two_pow_half (w := w) (by omega)
  have hthree : 3 ≤ d.toNat := by
    have hpow' := two_pow_half (w := w - 1) (by omega)
    by_contra hlt3
    rw [show d.toNat = 2 by omega] at hlast
    omega
  have hdelta : delta d.toNat w = 2 := by
    have hmod : 2 ^ w % d.toNat = d.toNat - 2 := by
      obtain ⟨-, hmod⟩ := div_mod_double (2 ^ (w - 1)) d.toNat (by omega) (Nat.zero_le 1)
      rw [Nat.add_zero, ← hpow, if_pos (by omega)] at hmod
      rw [hmod]
      omega
    rw [delta, hmod]
    omega
  have hp : s.p = w := by
    by_contra hne
    have := hf.before w (by omega) (by omega)
    rw [hdelta] at this
    omega
  rw [hp, hdelta]
  omega

theorem SignedSearch.Found.magic (h : PositiveDivisor d)
    (hanc : anc.toNat = 2 ^ (w - 1) / d.toNat * d.toNat - 1) (hf : Found anc d (w - 1) s) :
    SignedMagic d ⟨s.q2 + 1, s.p - w, false⟩ := by
  have hw := h.size
  have hd := h.two_le
  have hlt := hf.lt
  have hdlt := h.lt
  obtain ⟨-, hhalf, hbelow⟩ := h.divisors hanc
  have hpow := two_pow_half (w := w) (by omega)
  have hple := hf.pow_le h hanc
  have hm : (s.q2 + 1).toNat = 2 ^ s.p / d.toNat + 1 := by
    have hq : 2 ^ s.p / d.toNat ≤ 2 * anc.toNat := by
      have := Nat.div_le_div_right (c := d.toNat) hple
      rwa [Nat.mul_div_cancel _ (by omega)] at this
    rw [hf.at_end.q2, ofNat_succ, BitVec.toNat_ofNat, Nat.mod_eq_of_lt (by omega)]
  have hmul : (s.q2 + 1).toNat * d.toNat = 2 ^ s.p + delta d.toNat s.p := by
    have hr := Nat.mod_lt (2 ^ s.p) (show 0 < d.toNat by omega)
    have hsplit := Nat.div_add_mod' (2 ^ s.p) d.toNat
    rw [hm, delta, Nat.add_mul]
    omega
  have hdelta : 0 < delta d.toNat s.p := Nat.sub_pos_of_lt (Nat.mod_lt _ (by omega))
  have hbound : ∀ n < 2 ^ (w - 1), n * delta d.toNat s.p < (d.toNat - n % d.toNat) * 2 ^ s.p := by
    intro n hn
    refine error_bound (by omega) hf.small ?_
    rw [hanc]
    exact signed_range (by omega) hdlt.le hn
  constructor
  · have hprod : anc.toNat * d.toNat < 2 ^ (w - 1) * 2 ^ (w - 1) := Nat.mul_lt_mul'' (by omega) hdlt
    have hsq : 2 * (2 ^ (w - 1) * 2 ^ (w - 1)) = 2 ^ (2 * w - 1) := by
      rw [← pow_add, ← pow_succ']
      congr 1
      omega
    have hlt2 : 2 ^ s.p < 2 ^ (2 * w - 1) := by
      rw [Nat.mul_assoc] at hple
      omega
    have := (Nat.pow_lt_pow_iff_right (by decide)).1 hlt2
    dsimp only
    omega
  · intro n hmin hmax
    rw [show w + (s.p - w) = s.p by omega]
    rcases Int.lt_or_le n 0 with hneg | hpos
    · obtain ⟨a, rfl⟩ := Int.exists_eq_neg_ofNat hneg.le
      have ha : a ≤ 2 ^ (w - 1) := by
        have : (a : ℤ) ≤ 2 ^ (w - 1) := by omega
        exact_mod_cast this
      have herror : a * delta d.toNat s.p ≤ (d.toNat - a % d.toNat) * 2 ^ s.p := by
        rcases Nat.eq_or_lt_of_le ha with rfl | hlt'
        · exact min_error (by omega) hf.small hhalf (hf.last_error h hanc)
        · exact (hbound a hlt').le
      have hres := neg_mul_div_eq (by omega) hdelta hmul (show 0 < a by omega) herror
      rw [neg_mul, ← Nat.cast_mul, hres, Int.neg_tdiv, ← Int.ofNat_tdiv]
      omega
    · obtain ⟨a, rfl⟩ := Int.eq_ofNat_of_zero_le hpos
      have ha : a < 2 ^ (w - 1) := by exact_mod_cast hmax
      have hres := mul_div_eq (by omega) hmul (hbound a ha)
      have hcast : ((2 ^ s.p : ℕ) : ℤ) = 2 ^ s.p := by norm_cast
      rw [if_neg (by omega), ← Int.ofNat_tdiv, ← hres]
      norm_cast

theorem signedDivisionByConstant_spec (h : PositiveDivisor d) : SignedMagic d (signedDivisionByConstant d) := by
  rw [signedDivisionByConstant_eq h]
  have hw := h.size
  have hanc := toNat_anc h
  dsimp only
  generalize 1#w <<< (w - 1) - 1 - 1#w <<< (w - 1) % d = anc at hanc ⊢
  obtain ⟨hdiv, hhalf, hbelow⟩ := h.divisors hanc
  have hd := h.two_le
  have hlt := h.lt
  have hmin := toNat_min (w := w) (by omega)
  obtain ⟨hq1, hr1⟩ := start_words (c := anc)
  obtain ⟨hq2, hr2⟩ := start_words (c := d)
  rw [hmin] at hq1 hr1 hq2 hr2
  have hfirst : 2 ^ (w - 1) ≤ anc.toNat * d.toNat := by
    calc 2 ^ (w - 1) ≤ anc.toNat * 2 := by omega
      _ ≤ anc.toNat * d.toNat := Nat.mul_le_mul_left _ hd
  have hprod : anc.toNat * d.toNat < 2 ^ (w - 1) * 2 ^ (w - 1) := Nat.mul_lt_mul'' (by omega) hlt
  have hfound := SignedSearch.run_found (s := ⟨w - 1, _, _, _, _⟩) hdiv w ⟨hq1, hr1, hq2, hr2⟩ hfirst
    (hprod.trans (by rw [← pow_add]; exact Nat.pow_lt_pow_right (by decide) (by simp; omega)))
  exact hfound.magic h hanc

end Positive

/-! ## The unsigned search -/

variable {s : UnsignedSearch w}

namespace UnsignedSearch

/-- The words hold quotients and remainders of `2 ^ p` and of `2 ^ p - 1`; `a` says that the
multiplier needs one more bit. -/
structure At (nc d : BitVec w) (s : UnsignedSearch w) : Prop where
  q1 : s.q1 = BitVec.ofNat w (2 ^ s.p / nc.toNat)
  r1 : s.r1 = BitVec.ofNat w (2 ^ s.p % nc.toNat)
  q2 : s.q2 = BitVec.ofNat w ((2 ^ s.p - 1) / d.toNat)
  r2 : s.r2 = BitVec.ofNat w ((2 ^ s.p - 1) % d.toNat)
  a : s.a = decide (2 ^ w ≤ (2 ^ s.p - 1) / d.toNat + 1)

/-- `delta` for an exponent. -/
def delta (d p : Nat) : Nat := d - 1 - (2 ^ p - 1) % d

variable {nc d : BitVec w}

theorem At.step (hw : 0 < w) (hnc : 0 < nc.toNat) (hd : 0 < d.toNat) (h : s.At nc d)
    (ha : s.a = false) : (s.step nc d).At nc d := by
  have hr1 := Nat.mod_lt (2 ^ s.p) hnc
  have hr2 := Nat.mod_lt (2 ^ s.p - 1) hd
  have hpow := two_pow_half hw
  have hsucc : 2 ^ (s.p + 1) - 1 = 2 * (2 ^ s.p - 1) + 1 := by
    have := Nat.two_pow_pos s.p
    rw [pow_succ]
    omega
  have hm : (2 ^ s.p - 1) / d.toNat + 1 < 2 ^ w := by
    rw [h.a, decide_eq_false_iff_not] at ha
    omega
  have hr1n : s.r1.toNat = 2 ^ s.p % nc.toNat := by rw [h.r1, BitVec.toNat_ofNat, Nat.mod_eq_of_lt (by omega)]
  have hr2n : s.r2.toNat = (2 ^ s.p - 1) % d.toNat := by rw [h.r2, BitVec.toNat_ofNat, Nat.mod_eq_of_lt (by omega)]
  have hP1 : nc - s.r1 ≤ s.r1 ↔ nc.toNat ≤ 2 * (2 ^ s.p % nc.toNat) + 0 := by
    rw [BitVec.le_def, BitVec.toNat_sub_of_le (by rw [BitVec.le_def]; omega)]
    omega
  have hP2 : d - s.r2 ≤ s.r2 + 1 ↔ d.toNat ≤ 2 * ((2 ^ s.p - 1) % d.toNat) + 1 := by
    have hr2s : (s.r2 + 1).toNat = (2 ^ s.p - 1) % d.toNat + 1 := by
      rw [h.r2, ofNat_succ]
      exact Nat.mod_eq_of_lt (by omega)
    rw [BitVec.le_def, BitVec.toNat_sub_of_le (by rw [BitVec.le_def]; omega), hr2s, hr2n]
    omega
  obtain ⟨hq1, hr1'⟩ := round_words hnc (Nat.zero_le 1) hP1
  obtain ⟨hq2, hr2'⟩ := round_words hd (Nat.le_refl 1) hP2
  rw [Nat.add_zero, ← pow_succ', ← ofNat_double, ← h.r1] at hr1'
  rw [← pow_succ', ← h.q1] at hq1
  rw [← hsucc, ← h.q2] at hq2
  rw [← hsucc, ← ofNat_succ, ← ofNat_double, ← h.r2] at hr2'
  refine ⟨hq1, hr1', hq2, hr2', ?_⟩
  -- the flag: the quotient before the round says whether the next one fits
  have hq2n : s.q2.toNat = (2 ^ s.p - 1) / d.toNat := by rw [h.q2, BitVec.toNat_ofNat, Nat.mod_eq_of_lt (by omega)]
  obtain ⟨hdiv, -⟩ := div_mod_double (2 ^ s.p - 1) d.toNat hd (Nat.le_refl 1)
  have hp : (s.step nc d).p = s.p + 1 := rfl
  have hflag : (s.step nc d).a = (s.a || if d - s.r2 ≤ s.r2 + 1 then decide (BitVec.allOnes w >>> 1 ≤ s.q2)
      else decide (1#w <<< (w - 1) ≤ s.q2)) := rfl
  rw [hflag, ha, Bool.false_or, hp, hsucc, hdiv]
  by_cases hc : d - s.r2 ≤ s.r2 + 1
  · rw [if_pos hc, if_pos (hP2.1 hc), decide_eq_decide, BitVec.le_def, toNat_max hw, hq2n]
    omega
  · rw [if_neg hc, if_neg (mt hP2.2 hc), decide_eq_decide, BitVec.le_def, toNat_min hw, hq2n]
    omega

/-- The test asks whether the error is still too large, up to twice the word size. -/
theorem At.continues_iff (hnc : 0 < nc.toNat) (hd : 0 < d.toNat) (hw : 0 < w) (h : s.At nc d)
    (hq : s.p < w * 2 → 2 ^ s.p / nc.toNat < 2 ^ w) :
    s.continues d = true ↔ s.p < w * 2 ∧ 2 ^ s.p ≤ nc.toNat * delta d.toNat s.p := by
  have hr1 := Nat.mod_lt (2 ^ s.p) hnc
  have hr2 := Nat.mod_lt (2 ^ s.p - 1) hd
  have hone : (1 : BitVec w).toNat = 1 := Nat.mod_eq_of_lt (Nat.one_lt_two_pow (by omega))
  have hr2n : s.r2.toNat = (2 ^ s.p - 1) % d.toNat := by rw [h.r2, BitVec.toNat_ofNat, Nat.mod_eq_of_lt (by omega)]
  have hdelta : (d - 1 - s.r2).toNat = delta d.toNat s.p := by
    have hsub : (d - 1).toNat = d.toNat - 1 := by
      rw [BitVec.toNat_sub_of_le (by rw [BitVec.le_def, hone]; omega), hone]
    rw [BitVec.toNat_sub_of_le (by rw [BitVec.le_def, hsub]; omega), hsub, hr2n, delta]
  have hr1' : (2 ^ s.p % nc.toNat) % 2 ^ w = 2 ^ s.p % nc.toNat := Nat.mod_eq_of_lt (by omega)
  rw [le_mul_iff hnc, continues, Bool.and_eq_true, decide_eq_true_eq]
  refine and_congr_right fun hp => ?_
  simp only [Bool.or_eq_true, Bool.and_eq_true, decide_eq_true_eq, beq_iff_eq, BitVec.lt_def, ← BitVec.toNat_inj,
    hdelta, h.q1, h.r1, BitVec.toNat_ofNat, Nat.mod_eq_of_lt (hq hp), hr1', Nat.zero_mod]

/-- Where the search is before a round: at its start, or at an exponent whose error was too large. -/
def Searching (nc d : BitVec w) (p : Nat) : Prop := p = w - 1 ∨ w ≤ p ∧ 2 ^ p ≤ nc.toNat * (d.toNat - 1)

/-- The divisors of a search. -/
structure Divisors (nc d : BitVec w) : Prop where
  size : 2 ≤ w
  three_le : 3 ≤ d.toNat
  le : d.toNat ≤ nc.toNat

/-- Before its last round the search has room for the quotient of the next power. -/
theorem Searching.quotient_lt (hd : Divisors nc d) (h : Searching nc d p) (hp : p + 1 < w * 2) :
    2 ^ (p + 1) / nc.toNat < 2 ^ w := by
  have h3 := hd.three_le
  have hle := hd.le
  rw [Nat.div_lt_iff_lt_mul (by omega)]
  rcases h with rfl | ⟨-, h⟩
  · rw [show w - 1 + 1 = w by omega]
    calc 2 ^ w < 2 ^ w * 3 := by have := Nat.two_pow_pos w; omega
      _ ≤ 2 ^ w * nc.toNat := Nat.mul_le_mul_left _ (by omega)
  · have hpow := two_pow_half (w := w) (by omega)
    rcases Nat.lt_or_ge (2 ^ (w - 1)) d.toNat with hbig | hsmall
    · calc 2 ^ (p + 1) ≤ 2 ^ (w + (w - 1)) := Nat.pow_le_pow_right (by decide) (by omega)
        _ = 2 ^ w * 2 ^ (w - 1) := pow_add _ _ _
        _ < 2 ^ w * nc.toNat := Nat.mul_lt_mul_of_pos_left (by omega) (Nat.two_pow_pos w)
    · calc 2 ^ (p + 1) = 2 * 2 ^ p := pow_succ' _ _
        _ ≤ 2 * (nc.toNat * (d.toNat - 1)) := Nat.mul_le_mul_left 2 h
        _ = (2 * (d.toNat - 1)) * nc.toNat := by ring
        _ < 2 ^ w * nc.toNat := Nat.mul_lt_mul_of_pos_right (by omega) (by omega)

/-- The multiplier before a round fits into a word, the one after it into one bit more. -/
theorem Searching.multiplier_lt (hd : Divisors nc d) (h : Searching nc d p) :
    (2 ^ p - 1) / d.toNat + 1 < 2 ^ w ∧ (2 ^ (p + 1) - 1) / d.toNat + 1 < 2 ^ (w + 1) := by
  have h3 := hd.three_le
  have hw := hd.size
  have hpow := two_pow_half (w := w) (by omega)
  rcases h with rfl | ⟨-, h⟩
  · have h1 := Nat.div_le_self (2 ^ (w - 1) - 1) d.toNat
    have h2 := Nat.div_le_self (2 ^ (w - 1 + 1) - 1) d.toNat
    have hpos2 : 1 < 2 ^ (w - 1) := Nat.one_lt_two_pow (by omega)
    omega
  · have hle : nc.toNat * (d.toNat - 1) ≤ nc.toNat * d.toNat := Nat.mul_le_mul_left _ (Nat.sub_le _ _)
    have hpos := Nat.two_pow_pos p
    have h1 : (2 ^ p - 1) / d.toNat < nc.toNat := (Nat.div_lt_iff_lt_mul (by omega)).2 (by omega)
    have h2 : (2 ^ (p + 1) - 1) / d.toNat < 2 * nc.toNat := by
      rw [Nat.div_lt_iff_lt_mul (by omega), Nat.mul_assoc]
      omega
    omega

/-- What the loop leaves. -/
structure Found (nc d : BitVec w) (s : UnsignedSearch w) : Prop where
  at_end : s.At nc d
  le : w ≤ s.p
  le_two : s.p ≤ w * 2
  small : nc.toNat * delta d.toNat s.p < 2 ^ s.p ∨ s.p = w * 2
  multiplier_lt : (2 ^ s.p - 1) / d.toNat + 1 < 2 ^ (w + 1)

theorem delta_le (d p : Nat) : delta d p ≤ d - 1 := Nat.sub_le _ _

theorem run_found (hd : Divisors nc d) (rounds : Nat) (h : s.At nc d)
    (hs : Searching nc d s.p) (hp : s.p < w * 2) (hrounds : w * 2 ≤ s.p + rounds) :
    Found nc d (run nc d rounds s) := by
  have h3 := hd.three_le
  have hle := hd.le
  induction rounds generalizing s with
  | zero => omega
  | succ rounds ih =>
    obtain ⟨hm, hm'⟩ := hs.multiplier_lt hd
    have ha : s.a = false := by rw [h.a, decide_eq_false_iff_not]; omega
    have hstep := h.step (by omega) (by omega) (by omega) ha
    have hnext : (s.step nc d).p = s.p + 1 := rfl
    have hiff := hstep.continues_iff (by omega) (by omega) (by omega) fun hlt => hs.quotient_lt hd hlt
    have hwp : w ≤ s.p + 1 := by rcases hs with hs | hs <;> omega
    rw [run]
    split
    · rename_i hc
      obtain ⟨hlt, hle'⟩ := hiff.1 hc
      exact ih hstep (.inr ⟨hwp, hle'.trans (Nat.mul_le_mul_left _ (delta_le _ _))⟩) hlt (by omega)
    · rename_i hc
      refine ⟨hstep, hwp, by omega, ?_, hm'⟩
      rcases Nat.lt_or_ge (s.step nc d).p (w * 2) with hlt | hge
      · exact .inl (Nat.lt_of_not_le fun hle => hc (hiff.2 ⟨hlt, hle⟩))
      · exact .inr (by omega)

end UnsignedSearch

/-- What the numbers for an unsigned divisor are good for: with `m` the multiplier, and one more bit
where `add` is set, multiplying and dropping the low bits divides every dividend up to `N`. -/
structure UnsignedMagic (d : BitVec w) (N : Nat) (mag : MagicNumbersForDivision w) (m : Nat) : Prop where
  multiplier : mag.multiplier = BitVec.ofNat w m
  lt : m < 2 ^ (w + 1)
  add : mag.add = decide (2 ^ w ≤ m)
  shift_of_add : mag.add = true → 1 ≤ mag.shift ∧ mag.shift ≤ w
  shift_of_not_add : mag.add = false → mag.shift < w
  div : ∀ n ≤ N, n * m / 2 ^ (w + mag.shift) = n / d.toNat

theorem UnsignedSearch.Found.magic {nc d : BitVec w} {N : Nat}
    (hN : N < 2 ^ w) (hdN : d.toNat ≤ N) (hlast : N % d.toNat + 2 ≤ d.toNat) (hnc : nc.toNat = N - N % d.toNat)
    (hf : Found nc d s) : UnsignedMagic d N ⟨s.q2 + 1, s.p - w, s.a⟩ ((2 ^ s.p - 1) / d.toNat + 1) := by
  have hle := hf.le
  have hle2 := hf.le_two
  have hpos := Nat.two_pow_pos s.p
  have hdlt := d.isLt
  refine ⟨?_, hf.multiplier_lt, hf.at_end.a, fun ha => ?_, fun ha => ?_, fun n hn => ?_⟩
  · rw [hf.at_end.q2, ofNat_succ]
  · -- at the first exponent the multiplier fits
    rw [hf.at_end.a, decide_eq_true_eq] at ha
    have hne : s.p ≠ w := by
      intro hp
      rw [hp] at ha
      have : (2 ^ w - 1) / d.toNat ≤ (2 ^ w - 1) / 2 := Nat.div_le_div_left (by omega) (by decide)
      have hpow : 1 < 2 ^ w := Nat.one_lt_two_pow (by omega)
      omega
    dsimp only
    omega
  · -- at the last exponent it does not
    rw [hf.at_end.a, decide_eq_false_iff_not] at ha
    have hne : s.p ≠ w * 2 := by
      intro hp
      refine ha (Nat.le_succ_of_le ((Nat.le_div_iff_mul_le (by omega)).2 ?_))
      have hsq : 2 ^ s.p = 2 ^ w * 2 ^ w := by rw [hp, Nat.mul_two, pow_add]
      have : 2 ^ w * d.toNat + 2 ^ w ≤ 2 ^ w * 2 ^ w := by
        rw [← Nat.mul_succ]
        exact Nat.mul_le_mul_left _ hdlt
      omega
    dsimp only
    omega
  · have hmul : ((2 ^ s.p - 1) / d.toNat + 1) * d.toNat = 2 ^ s.p + delta d.toNat s.p := by
      have hr := Nat.mod_lt (2 ^ s.p - 1) (show 0 < d.toNat by omega)
      have hsplit := Nat.div_add_mod' (2 ^ s.p - 1) d.toNat
      rw [delta, Nat.add_mul]
      omega
    rw [show w + (s.p - w) = s.p by omega]
    refine mul_div_eq (by omega) hmul ?_
    rcases hf.small with hsmall | hp
    · refine error_bound (by omega) hsmall ?_
      rw [hnc]
      exact unsigned_range (by omega) hdN hlast hn
    · have hr := Nat.mod_lt n (show 0 < d.toNat by omega)
      have hdelta := delta_le d.toNat s.p
      calc n * delta d.toNat s.p < 2 ^ w * 2 ^ w := Nat.mul_lt_mul'' (by omega) (by omega)
        _ = 1 * 2 ^ s.p := by rw [hp, Nat.mul_two, pow_add, Nat.one_mul]
        _ ≤ (d.toNat - n % d.toNat) * 2 ^ s.p := Nat.mul_le_mul_right _ (by omega)

theorem unsignedDivisionByConstant_spec {d : BitVec w} {leadingZeros : Nat} (hw : 2 ≤ w) (hlz : leadingZeros ≤ w)
    (h3 : 3 ≤ d.toNat) (hodd : d.toNat % 2 = 1) (hle : d.toNat < 2 ^ (w - leadingZeros)) :
    ∃ m, UnsignedMagic d (2 ^ (w - leadingZeros) - 1) (unsignedDivisionByConstant d leadingZeros) m := by
  have hpos := Nat.two_pow_pos (w - leadingZeros)
  have hones : (BitVec.allOnes w >>> leadingZeros).toNat = 2 ^ (w - leadingZeros) - 1 := by
    have hdiv := Nat.mul_sub_div 0 (2 ^ leadingZeros) (2 ^ (w - leadingZeros)) (by positivity)
    rw [← pow_add, show leadingZeros + (w - leadingZeros) = w by omega, Nat.zero_div] at hdiv
    rw [BitVec.toNat_ushiftRight, Nat.shiftRight_eq_div_pow]
    exact hdiv
  have hlast : (2 ^ (w - leadingZeros) - 1) % d.toNat + 2 ≤ d.toNat := by
    -- otherwise the odd divisor divides a power of two
    have hr := Nat.mod_lt (2 ^ (w - leadingZeros) - 1) (show 0 < d.toNat by omega)
    have hsplit := Nat.div_add_mod' (2 ^ (w - leadingZeros) - 1) d.toNat
    by_contra hlast
    have hdvd : d.toNat ∣ 2 ^ (w - leadingZeros) :=
      ⟨(2 ^ (w - leadingZeros) - 1) / d.toNat + 1, by rw [Nat.mul_succ, Nat.mul_comm]; omega⟩
    have hone := Nat.Coprime.eq_one_of_dvd (Nat.Coprime.pow_right _ (Nat.coprime_two_right.2 (Nat.odd_iff.2 hodd))) hdvd
    omega
  unfold unsignedDivisionByConstant
  dsimp only
  generalize BitVec.allOnes w >>> leadingZeros = ones at hones ⊢
  have hnc : (ones - (ones - d) % d).toNat =
      2 ^ (w - leadingZeros) - 1 - (2 ^ (w - leadingZeros) - 1) % d.toNat := by
    have hsub : (ones - d).toNat = ones.toNat - d.toNat := BitVec.toNat_sub_of_le (by rw [BitVec.le_def]; omega)
    have hmod : ((ones - d) % d).toNat = ones.toNat % d.toNat := by
      rw [BitVec.toNat_umod, hsub, ← Nat.mod_eq_sub_mod (by omega)]
    rw [BitVec.toNat_sub_of_le (by rw [BitVec.le_def, hmod]; exact Nat.mod_le _ _), hmod, hones]
  generalize ones - (ones - d) % d = nc at hnc ⊢
  have hmin := toNat_min (w := w) (by omega)
  have hmax := toNat_max (w := w) (by omega)
  obtain ⟨hq1, hr1⟩ := start_words (c := nc)
  obtain ⟨hq2, hr2⟩ := start_words (c := d)
  rw [hmin] at hq1 hr1
  rw [hmax] at hq2 hr2
  have hd : UnsignedSearch.Divisors nc d := by
    have hsplit := Nat.div_add_mod' (2 ^ (w - leadingZeros) - 1) d.toNat
    have hone : d.toNat ≤ (2 ^ (w - leadingZeros) - 1) / d.toNat * d.toNat :=
      Nat.le_mul_of_pos_left _ (Nat.div_pos (by omega) (by omega))
    exact ⟨hw, h3, by omega⟩
  have hfits : false = decide (2 ^ w ≤ (2 ^ (w - 1) - 1) / d.toNat + 1) := by
    have hdiv := Nat.div_le_self (2 ^ (w - 1) - 1) d.toNat
    exact (decide_eq_false (by omega)).symm
  have hfound := UnsignedSearch.run_found (s := ⟨w - 1, _, _, _, _, false⟩) hd (w + 1)
    ⟨hq1, hr1, hq2, hr2, hfits⟩ (.inl rfl) (by dsimp only; omega) (by dsimp only; omega)
  exact ⟨_, hfound.magic (by omega) (by omega) hlast hnc⟩

end V8Core.Base
