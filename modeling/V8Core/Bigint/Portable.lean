import V8Core.Bigint.DivSchoolbook
import V8Core.Lib.WordFacts

/-!
# Portable digit arithmetic

The branches of `digit_mul` and `digit_div` for targets without `twodigit_t`. They work on half digits: a product is
put together from four, and a quotient is found by two steps of long division, each with its correction loop.
-/

namespace V8Core.Bigint.Portable

variable {w : Nat}

def kHalfDigitBase (w : Nat) : BitVec w := 1#w <<< kHalfDigitBits w

def kHalfDigitMask (w : Nat) : BitVec w := kHalfDigitBase w - 1#w

def digitAdd3 (a b c : BitVec w) : BitVec w × BitVec w :=
  let carry := if a + b < a then 1#w else 0#w
  let result := a + b + c
  (result, if result < c then carry + 1#w else carry)

/-- The low and the high digit of the product. -/
def digitMul (a b : BitVec w) : BitVec w × BitVec w :=
  let aLow := a &&& kHalfDigitMask w
  let aHigh := a >>> kHalfDigitBits w
  let bLow := b &&& kHalfDigitMask w
  let bHigh := b >>> kHalfDigitBits w
  let rMid1 := aLow * bHigh
  let rMid2 := aHigh * bLow
  let low := digitAdd3 (aLow * bLow) (rMid1 <<< kHalfDigitBits w) (rMid2 <<< kHalfDigitBits w)
  (low.1, rMid1 >>> kHalfDigitBits w + rMid2 >>> kHalfDigitBits w + aHigh * bHigh + low.2)

/-- The loop that decrements a half digit while it is too large; `none` is a loop that has not ended. -/
def correct (vn1 vn0 un : BitVec w) : Nat → BitVec w → BitVec w → Option (BitVec w)
  | 0, _, _ => none
  | fuel + 1, q, rhat =>
    if kHalfDigitBase w ≤ q ∨ rhat * kHalfDigitBase w + un < q * vn0 then
      let q := q - 1#w
      let rhat := rhat + vn1
      if kHalfDigitBase w ≤ rhat then some q else correct vn1 vn0 un fuel q rhat
    else some q

/-- A half digit of the quotient and what is left of the dividend. -/
def divStep (divisor un32 un1 : BitVec w) : Option (BitVec w × BitVec w) := do
  let vn1 := divisor >>> kHalfDigitBits w
  let vn0 := divisor &&& kHalfDigitMask w
  let q1 := un32 / vn1
  let q1 ← correct vn1 vn0 un1 2 q1 (un32 - q1 * vn1)
  return (q1, un32 * kHalfDigitBase w + un1 - q1 * divisor)

/-- The quotient and the remainder. -/
def digitDiv (high low divisor : BitVec w) : Option (BitVec w × BitVec w) := do
  let s := countLeadingZeros divisor
  let divisor := divisor <<< s
  let kShiftMask := w - 1
  let sZeroMask := (BitVec.ofInt w (-s)).sshiftRight (w - 1)
  let un32 := high <<< s ||| (low >>> ((w - s) &&& kShiftMask) &&& sZeroMask)
  let un10 := low <<< s
  let r1 ← divStep divisor un32 (un10 >>> kHalfDigitBits w)
  let r0 ← divStep divisor r1.2 (un10 &&& kHalfDigitMask w)
  return (r1.1 * kHalfDigitBase w + r0.1, r0.2 >>> s)

/-! ## The product -/

theorem add_carry (x y : BitVec w) : (x + y).toNat + 2 ^ w * (if x + y < x then 1 else 0) = x.toNat + y.toNat := by
  have hx := x.isLt
  have hy := y.isLt
  rw [BitVec.toNat_add]
  simp only [add_lt_left_iff]
  split
  case isTrue h => rw [Nat.mod_eq_sub_mod h, Nat.mod_eq_of_lt (by omega)]; omega
  case isFalse h => rw [Nat.mod_eq_of_lt (by omega)]; omega

theorem digitAdd3_spec (hw : 2 ≤ w) (a b c : BitVec w) :
    (digitAdd3 a b c).1.toNat + 2 ^ w * (digitAdd3 a b c).2.toNat = a.toNat + b.toNat + c.toNat := by
  have hone := toNat_one (show 0 < w by omega)
  have htwo : (1#w + 1#w).toNat = 2 := by
    rw [BitVec.toNat_add, hone]
    exact Nat.mod_eq_of_lt (lt_of_lt_of_le (by decide) (Nat.pow_le_pow_right (n := 2) (by decide) hw))
  have hcarry : (digitAdd3 a b c).2.toNat = (if a + b < a then 1 else 0) + (if a + b + c < c then 1 else 0) := by
    simp only [digitAdd3]
    split <;> split
    · exact htwo
    · rw [BitVec.zero_add]; exact hone
    · exact hone
    · simp
  have h1 := add_carry a b
  have h2 := add_carry c (a + b)
  rw [BitVec.add_comm c] at h2
  rw [hcarry, Nat.mul_add, show (digitAdd3 a b c).1 = a + b + c from rfl]
  omega

variable (hw : 2 ∣ w) (hpos : 0 < w)
include hw

theorem half_mul_half : 2 ^ (w / 2) * 2 ^ (w / 2) = 2 ^ w := by
  rw [← Nat.pow_add]; congr 1; omega

theorem toNat_mul_half {x y : BitVec w} (hx : x.toNat < 2 ^ (w / 2)) (hy : y.toNat < 2 ^ (w / 2)) :
    (x * y).toNat = x.toNat * y.toNat := by
  rw [BitVec.toNat_mul, ← half_mul_half hw, Nat.mod_eq_of_lt (Nat.mul_lt_mul'' hx hy)]

/-- A middle product goes to both digits. -/
theorem middle_split (m : BitVec w) :
    (m <<< kHalfDigitBits w).toNat + 2 ^ w * (m >>> kHalfDigitBits w).toNat = m.toNat * 2 ^ (w / 2) := by
  rw [BitVec.toNat_shiftLeft, BitVec.toNat_ushiftRight, Nat.shiftLeft_eq, Nat.shiftRight_eq_div_pow, kHalfDigitBits,
    ← Nat.mul_div_mul_right m.toNat _ (Nat.two_pow_pos (w / 2)), half_mul_half hw, Nat.mod_add_div]

omit hw in
include hpos in
theorem toNat_halfDigitBase : (kHalfDigitBase w).toNat = 2 ^ (w / 2) :=
  toNat_one_shl (Nat.div_lt_self hpos (by decide))

include hpos

/-- Two half digits make a digit. -/
theorem toNat_halves {x y : BitVec w} (hx : x.toNat < 2 ^ (w / 2)) (hy : y.toNat < 2 ^ (w / 2)) :
    (x * kHalfDigitBase w + y).toNat = 2 ^ (w / 2) * x.toNat + y.toNat := by
  rw [BitVec.toNat_add, BitVec.toNat_mul, toNat_halfDigitBase hpos, Nat.mod_add_mod, Nat.mul_comm, Nat.mod_eq_of_lt]
  rw [← half_mul_half hw]
  nlinarith

theorem half_split (x : BitVec w) :
    x.toNat = 2 ^ (w / 2) * (x >>> kHalfDigitBits w).toNat + (x &&& kHalfDigitMask w).toNat ∧
      (x >>> kHalfDigitBits w).toNat < 2 ^ (w / 2) ∧ (x &&& kHalfDigitMask w).toNat < 2 ^ (w / 2) := by
  have hlow : (x &&& kHalfDigitMask w).toNat = x.toNat % 2 ^ (w / 2) :=
    toNat_and_mask hpos x _ (Nat.div_lt_self hpos (by decide))
  rw [BitVec.toNat_ushiftRight, Nat.shiftRight_eq_div_pow, hlow, kHalfDigitBits, Nat.div_add_mod]
  exact ⟨rfl, Nat.div_lt_of_lt_mul ((half_mul_half hw).symm ▸ x.isLt), Nat.mod_lt _ (Nat.two_pow_pos _)⟩

theorem digitMul_spec (a b : BitVec w) :
    (digitMul a b).1.toNat + 2 ^ w * (digitMul a b).2.toNat = a.toNat * b.toNat := by
  have hab : a.toNat * b.toNat < 2 ^ w * 2 ^ w := Nat.mul_lt_mul'' a.isLt b.isLt
  obtain ⟨ha, haHigh, haLow⟩ := half_split hw hpos a
  obtain ⟨hb, hbHigh, hbLow⟩ := half_split hw hpos b
  simp only [digitMul]
  generalize a >>> kHalfDigitBits w = aHigh at *
  generalize a &&& kHalfDigitMask w = aLow at *
  generalize b >>> kHalfDigitBits w = bHigh at *
  generalize b &&& kHalfDigitMask w = bLow at *
  have hadd := digitAdd3_spec (by omega) (aLow * bLow) ((aLow * bHigh) <<< kHalfDigitBits w)
    ((aHigh * bLow) <<< kHalfDigitBits w)
  have h1 := middle_split hw (aLow * bHigh)
  have h2 := middle_split hw (aHigh * bLow)
  rw [toNat_mul_half hw haLow hbHigh] at h1
  rw [toNat_mul_half hw haHigh hbLow] at h2
  rw [toNat_mul_half hw haLow hbLow] at hadd
  generalize digitAdd3 _ _ _ = low at *
  have hsum : low.1.toNat + 2 ^ w * (((aLow * bHigh) >>> kHalfDigitBits w).toNat +
      ((aHigh * bLow) >>> kHalfDigitBits w).toNat + (aHigh * bHigh).toNat + low.2.toNat) = a.toNat * b.toNat := by
    rw [ha, hb, toNat_mul_half hw haHigh hbHigh]
    linear_combination hadd + h1 + h2 - aHigh.toNat * bHigh.toNat * half_mul_half hw
  rw [← hsum]
  congr 2
  simp only [BitVec.toNat_add, Nat.mod_add_mod]
  exact Nat.mod_eq_of_lt (Nat.lt_of_mul_lt_mul_left (a := 2 ^ w) (by omega))

/-! ## The quotient -/

section Loop
variable {vn1 vn0 un : BitVec w} {B x Q : Nat} (hB : 2 ^ (w / 2) = B) (hv1 : 0 < vn1.toNat) (h1 : vn1.toNat < B)
  (h0 : vn0.toNat < B) (hun : un.toNat < B) (hQ : (B * x + un.toNat) / (B * vn1.toNat + vn0.toNat) = Q) (hlt : Q < B)
include hB hv1 h1 h0 hun hQ hlt

/-- The loop finds the quotient of three half digits by two, by induction on the rounds that are left until the
estimate of the remainder is too long. -/
theorem correct_spec (fuel : Nat) (q rhat : BitVec w) (hx : vn1.toNat * q.toNat + rhat.toNat = x)
    (hrhat : rhat.toNat < B) (hle : Q ≤ q.toNat) (hmax : q.toNat ≤ B + 1)
    (hfuel : B ≤ rhat.toNat + fuel * vn1.toNat) :
    ∃ q', correct vn1 vn0 un fuel q rhat = some q' ∧ q'.toNat = Q := by
  have hsq := half_mul_half hw
  have hbase := toNat_halfDigitBase hpos
  rw [hB] at hsq hbase
  have hv : 0 < B * vn1.toNat + vn0.toNat := Nat.add_pos_left (Nat.mul_pos (by omega) hv1) _
  induction fuel generalizing q rhat with
  | zero => omega
  | succ fuel ih =>
    have htest : (kHalfDigitBase w ≤ q ∨ rhat * kHalfDigitBase w + un < q * vn0) ↔ Q < q.toNat := by
      rw [BitVec.le_def, BitVec.lt_def, hbase]
      rcases Nat.lt_or_ge q.toNat B with hsmall | hbig
      · rw [toNat_halves hw hpos (by omega) (by omega), toNat_mul_half hw (by omega) (by omega), hB, ← hQ, ← hx,
          LongDivision.div_lt_iff hv]
        omega
      · exact ⟨fun _ => by omega, fun _ => .inl hbig⟩
    rw [correct, if_congr htest rfl rfl]
    split
    case isFalse h => exact ⟨q, rfl, by omega⟩
    case isTrue h =>
      obtain ⟨p, hp⟩ : ∃ p, q.toNat = p + 1 := ⟨q.toNat - 1, by omega⟩
      have hq' : (q - 1#w).toNat = p := by rw [toNat_pred (by omega), hp, Nat.add_sub_cancel]
      have hr' : (rhat + vn1).toNat = rhat.toNat + vn1.toNat := by
        rw [BitVec.toNat_add, Nat.mod_eq_of_lt (by nlinarith)]
      simp only [BitVec.le_def, hbase]
      split
      case isTrue hend =>
        have hple := LongDivision.le_div_of_long (q := p) (u := un.toNat) hv (by omega) h0.le (hr' ▸ hend)
        rw [← hp, hx, hQ] at hple
        exact ⟨_, rfl, by omega⟩
      case isFalse hend =>
        rw [Nat.succ_mul] at hfuel
        rw [hp, Nat.mul_succ] at hx
        exact ih _ _ (by rw [hq']; omega) (by omega) (by omega) (by omega) (by omega)

end Loop

omit hw hpos in
/-- A difference that is one modulo `2 ^ w` too. -/
theorem toNat_sub_mul {c q v : BitVec w} {n : Nat} (hn : n < 2 ^ w) (h : (n + q.toNat * v.toNat) % 2 ^ w = c.toNat) :
    (c - q * v).toNat = n := by
  have hc : c = BitVec.ofNat w n + q * v := by
    apply BitVec.eq_of_toNat_eq
    simp [← h]
  rw [hc, BitVec.add_sub_cancel, BitVec.toNat_ofNat, Nat.mod_eq_of_lt hn]

theorem divStep_spec {divisor u un : BitVec w} (hnorm : 2 ^ w ≤ 2 * divisor.toNat) (hu : u.toNat < divisor.toNat)
    (hun : un.toNat < 2 ^ (w / 2)) :
    ∃ r, divStep divisor u un = some r ∧ r.1.toNat < 2 ^ (w / 2) ∧ r.2.toNat < divisor.toNat ∧
      2 ^ (w / 2) * u.toNat + un.toNat = divisor.toNat * r.1.toNat + r.2.toNat := by
  have hsq := half_mul_half hw
  have hbase := toNat_halfDigitBase hpos
  obtain ⟨b, hb⟩ : 2 ∣ 2 ^ (w / 2) := dvd_pow_self 2 (by omega)
  obtain ⟨hv, h1, h0⟩ := half_split hw hpos divisor
  rw [divStep]
  generalize divisor >>> kHalfDigitBits w = vn1 at *
  generalize divisor &&& kHalfDigitMask w = vn0 at *
  generalize hB : 2 ^ (w / 2) = B at *
  have hhalf : B ≤ 2 * vn1.toNat := by
    by_contra hlt
    nlinarith [Nat.mul_le_mul_left b (show vn1.toNat + 1 ≤ b by omega)]
  have hv1 : 0 < vn1.toNat := by omega
  have hlead (a : Nat) {c : Nat} (hc : c < B) : (B * a + c) / B = a := by
    rw [Nat.mul_add_div (by omega), Nat.div_eq_of_lt hc, Nat.add_zero]
  have hle := LongDivision.div_le_div_leading (W := B * u.toNat + un.toNat) (V := divisor.toNat) (P := B)
    (by rwa [hv, hlead _ h0])
  rw [hlead _ hun, hv, hlead _ h0] at hle
  have hlt : (B * u.toNat + un.toNat) / divisor.toNat < B := by
    rw [Nat.div_lt_iff_lt_mul (by omega)]
    nlinarith
  have hdiv := BitVec.toNat_udiv (x := u) (y := vn1)
  have hmod := Nat.mod_lt u.toNat hv1
  have hrhat : (u - u / vn1 * vn1).toNat = u.toNat % vn1.toNat := by
    apply toNat_sub_mul (hmod.trans vn1.isLt)
    rw [hdiv, Nat.mod_add_div', Nat.mod_eq_of_lt u.isLt]
  obtain ⟨q, hrun, hq⟩ := correct_spec hw hpos hB hv1 h1 h0 hun (by rw [← hv]) hlt 2 (u / vn1) (u - u / vn1 * vn1)
    (by rw [hrhat, hdiv, Nat.div_add_mod]) (by omega) (by rwa [hdiv, hv])
    (by rw [hdiv]; exact Nat.le_of_lt_succ ((Nat.div_lt_iff_lt_mul hv1).2 (by nlinarith))) (by omega)
  have hrest : (u * kHalfDigitBase w + un - q * divisor).toNat = (B * u.toNat + un.toNat) % divisor.toNat := by
    apply toNat_sub_mul ((Nat.mod_lt _ (by omega)).trans divisor.isLt)
    rw [hq, Nat.mod_add_div', BitVec.toNat_add, BitVec.toNat_mul, Nat.mod_add_mod, hbase, Nat.mul_comm]
  refine ⟨_, by rw [hrun]; rfl, by rwa [hq], ?_, ?_⟩
  · rw [hrest]
    exact Nat.mod_lt _ (by omega)
  · rw [hrest, hq, Nat.div_add_mod]

omit hw hpos

/-- The dividend, shifted by the leading zeros of the divisor. The mask of the shift amount is one because the number
of bits is a power of two. -/
theorem shifted_dividend {k s : Nat} (hs : s < 2 ^ k) (high low : BitVec (2 ^ k))
    (hfit : 2 ^ s * (high.toNat + 1) ≤ 2 ^ 2 ^ k) :
    (high <<< s ||| (low >>> ((2 ^ k - s) &&& (2 ^ k - 1)) &&&
        (BitVec.ofInt (2 ^ k) (-s)).sshiftRight (2 ^ k - 1))).toNat * 2 ^ 2 ^ k + (low <<< s).toNat =
      2 ^ s * (2 ^ 2 ^ k * high.toNat + low.toNat) := by
  rcases Nat.eq_zero_or_pos s with rfl | hpos
  · simp [WordFacts.sshiftRight_sign]
    ring
  · have hs' := Nat.lt_two_pow_self (n := 2 ^ k - 1)
    have hneg : (BitVec.ofInt (2 ^ k) (-s)).toInt = -s :=
      BitVec.toInt_ofInt_eq_self (by positivity) (by norm_cast; omega) (by norm_cast; omega)
    obtain ⟨hlow, hcarry⟩ := shl_or_spec low 0#_ s hs.le (by simp)
    have hhigh := (shl_or_spec high (low >>> (2 ^ k - s)) s hs.le hcarry).1
    have hzero : (high >>> (2 ^ k - s)).toNat = 0 := by
      rw [Nat.mul_succ] at hfit
      exact Nat.lt_one_iff.1 (Nat.lt_of_mul_lt_mul_left (a := 2 ^ 2 ^ k) (by omega))
    rw [Nat.and_two_pow_sub_one_eq_mod, Nat.mod_eq_of_lt (by omega), WordFacts.sshiftRight_sign, hneg, if_pos (by omega),
      BitVec.and_allOnes]
    simp only [BitVec.or_zero, hzero, BitVec.toNat_ofNat, Nat.zero_mod, Nat.mul_zero, Nat.add_zero] at hlow hhigh
    rw [hhigh]
    linear_combination hlow

/-- Shifting the remainder back. -/
theorem unshift {p u d q r : Nat} (hp : 0 < p) (h : p * u = p * d * q + r) (hr : r < p * d) :
    u = q * d + r / p ∧ r / p < d := by
  obtain ⟨t, rfl⟩ : p ∣ r := (Nat.dvd_add_right ⟨d * q, by ring⟩).1 (h ▸ dvd_mul_right p u)
  rw [Nat.mul_div_cancel_left t hp]
  exact ⟨Nat.eq_of_mul_eq_mul_left hp (by rw [h]; ring), Nat.lt_of_mul_lt_mul_left hr⟩

/-- For digits whose number of bits is a power of two, the quotient and the remainder are right, and both loops end; for
all other digits of two halves too, the product is. -/
theorem digitDiv_digitMul_exact :
    (∀ k, 1 ≤ k → ∀ high low divisor : BitVec (2 ^ k), high.toNat < divisor.toNat →
      ∃ q r, digitDiv high low divisor = some (q, r) ∧
        2 ^ 2 ^ k * high.toNat + low.toNat = q.toNat * divisor.toNat + r.toNat ∧ r.toNat < divisor.toNat) ∧
    ∀ w, 2 ∣ w → 0 < w → ∀ a b : BitVec w,
      (digitMul a b).1.toNat + 2 ^ w * (digitMul a b).2.toNat = a.toNat * b.toNat := by
  refine ⟨fun k hk high low divisor h => ?_, fun w => digitMul_spec⟩
  have hw : 2 ∣ 2 ^ k := dvd_pow_self 2 (by omega)
  have hpos : 0 < 2 ^ k := by positivity
  obtain ⟨hnorm, hfit, hs⟩ := countLeadingZeros_spec (d := divisor) (by rintro rfl; simp at h)
  rw [digitDiv]
  generalize countLeadingZeros divisor = s at *
  have hs0 := Nat.two_pow_pos s
  have hu := shifted_dividend hs high low (by nlinarith)
  have hv : (divisor <<< s).toNat = 2 ^ s * divisor.toNat := by
    rw [BitVec.toNat_shiftLeft, Nat.shiftLeft_eq, Nat.mul_comm, Nat.mod_eq_of_lt (by nlinarith)]
  generalize high <<< s ||| _ = un32 at *
  rw [← hv] at hnorm
  have hun32 : un32.toNat < (divisor <<< s).toNat := by
    nlinarith [low.isLt, Nat.mul_le_mul_left (2 ^ s * 2 ^ 2 ^ k) (show high.toNat + 1 ≤ divisor.toNat by omega)]
  obtain ⟨hun, hun1, hun0⟩ := half_split hw hpos (low <<< s)
  obtain ⟨r1, hrun1, hq1, hlt1, h1⟩ := divStep_spec hw hpos hnorm hun32 hun1
  obtain ⟨r0, hrun0, hq0, hlt0, h0⟩ := divStep_spec hw hpos hnorm hlt1 hun0
  simp only [hrun1, hrun0, Option.bind_eq_bind, Option.bind_some]
  refine ⟨_, _, rfl, ?_⟩
  rw [toNat_halves hw hpos hq1 hq0, BitVec.toNat_ushiftRight, Nat.shiftRight_eq_div_pow]
  rw [hv] at *
  refine unshift hs0 ?_ hlt0
  rw [← hu, hun, ← half_mul_half hw]
  linear_combination 2 ^ (2 ^ k / 2) * h1 + h0

theorem digitDiv_digitMul_exact_bytes :
    (∃ q r, digitDiv 3#8 63#8 7#8 = some (q, r) ∧ 831 = q.toNat * 7 + r.toNat ∧ r.toNat < 7) ∧
      (digitMul 200#8 100#8).1.toNat + 256 * (digitMul 200#8 100#8).2.toNat = 20000 :=
  ⟨digitDiv_digitMul_exact.1 3 (by decide) 3#8 63#8 7#8 (by decide),
    digitDiv_digitMul_exact.2 8 (by decide) (by decide) 200#8 100#8⟩

/-- With six bits, `kShiftMask` changes a shift by three. -/
theorem digitDiv_six_bits : ∃ q r, digitDiv 0#6 63#6 7#6 = some (q, r) ∧ 63 ≠ q.toNat * 7 + r.toNat :=
  ⟨_, _, rfl, by decide⟩

end V8Core.Bigint.Portable
