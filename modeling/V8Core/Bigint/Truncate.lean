import V8Core.Bigint.Shift
/-!
# Truncation to n bits

The last part of `bitwise.cc`: `AsIntN` and `AsUintN`. Both work on the
magnitude. Taking the low `n` bits of a negative number, or reading the low `n`
bits as a negative number, subtracts the truncated magnitude from `2 ^ n`.
-/

open Radix

namespace V8Core.Bigint

variable {w : Nat}

/-- `DIV_CEIL(x, y)`. -/
def divCeil (x y : Nat) : Nat := (x - 1) / y + 1

/-- `msd = (msd << drop) >> drop` where the top digit is not used in full. -/
def keepLowBits (d : BitVec w) (bits : Nat) : BitVec w :=
  if bits ≠ 0 then (d <<< (w - bits)) >>> (w - bits) else d

/-- `TruncateToNBits(Z, X, n)`. -/
def truncateToNBits (X : List (BitVec w)) (n : Nat) : List (BitVec w) :=
  let last := divCeil n w - 1
  X.take last ++ [keepLowBits (digit X last) (n % w)]

/-- `TruncateAndSubFromPowerOfTwo(Z, X, n)`. -/
def truncateAndSubFromPowerOfTwo (X : List (BitVec w)) (n : Nat) : List (BitVec w) :=
  let bits := n % w
  let last := divCeil n w - 1
  let haveX := min last X.length
  let low := subDigits (List.replicate haveX 0#w) (X.take haveX) 0#w
  -- simulate leading zeroes of X
  let high := borrowDigits (List.replicate (last - haveX) 0#w) low.2
  let msd := if last < X.length then digit X last else 0#w
  let top :=
    if bits = 0 then (digitSub2 0#w msd high.2).1
    else
      let minuendMsd := 1#w <<< bits
      -- if all subtracted bits were zero, the minuend itself has to go again
      (digitSub2 minuendMsd (keepLowBits msd bits) high.2).1 &&& (minuendMsd - 1#w)
  low.1 ++ high.1 ++ [top]

/-- `AsIntNResultLength(X, x_negative, n)`: -1 when the operation would return `X` unchanged. -/
def asIntNResultLength (X : List (BitVec w)) (xNegative : Bool) (n : Nat) : Int :=
  let neededDigits := divCeil n w
  if X.length < neededDigits then -1
  else if X.length > neededDigits then neededDigits
  else
    let topDigit := digit X (neededDigits - 1)
    let compareDigit := 1#w <<< ((n - 1) % w)
    if topDigit < compareDigit then -1
    else if topDigit > compareDigit then neededDigits
    -- if X == -2**(n-1), truncation is a no-op
    else if !xNegative then neededDigits
    else if (X.take (neededDigits - 1)).any (· != 0#w) then neededDigits
    else -1

/-- `AsIntN(Z, X, x_negative, n)`: the magnitude and the sign. -/
def asIntN (X : List (BitVec w)) (xNegative : Bool) (n : Nat) : List (BitVec w) × Bool :=
  let neededDigits := divCeil n w
  let topDigit := digit X (neededDigits - 1)
  let compareDigit := 1#w <<< ((n - 1) % w)
  let hasBit := (topDigit &&& compareDigit) == compareDigit
  if !hasBit then (truncateToNBits X n, xNegative)
  else
    (truncateAndSubFromPowerOfTwo X n,
      if !xNegative then true
      -- the result is negative if all bits below the (n-1)th are zero
      else if (topDigit &&& (compareDigit - 1#w)) != 0#w then false
      else if (X.take (neededDigits - 1)).any (· != 0#w) then false
      else true)

/-- `AsUintN_Pos_ResultLength(X, n)`: -1 when the operation would return `X` unchanged. -/
def asUintNPosResultLength (X : List (BitVec w)) (n : Nat) : Int :=
  let neededDigits := divCeil n w
  if X.length < neededDigits then -1
  else if X.length > neededDigits then neededDigits
  else
    let bitsInTopDigit := n % w
    if bitsInTopDigit = 0 then -1
    else if digit X (neededDigits - 1) >>> bitsInTopDigit = 0#w then -1
    else neededDigits

/-- `AsUintN_Neg_ResultLength(n)`. -/
def asUintNNegResultLength (w n : Nat) : Nat := (n - 1) / w + 1

/-- `AsUintN_Pos(Z, X, n)`. -/
def asUintNPos (X : List (BitVec w)) (n : Nat) : List (BitVec w) := truncateToNBits X n

/-- `AsUintN_Neg(Z, X, n)`. -/
def asUintNNeg (X : List (BitVec w)) (n : Nat) : List (BitVec w) := truncateAndSubFromPowerOfTwo X n

/-! ## Bit positions -/

variable {n c v : Nat}

/-- The position of bit `n - 1`, as a digit index and a bit within the digit. -/
theorem bit_position (hw : 0 < w) (hn : 0 < n) :
    n = w * ((n - 1) / w) + ((n - 1) % w + 1) ∧ (n - 1) % w + 1 ≤ w ∧
      n % w = if (n - 1) % w + 1 = w then 0 else (n - 1) % w + 1 := by
  have hdm := Nat.div_add_mod (n - 1) w
  have hlt := Nat.mod_lt (n - 1) hw
  refine ⟨by omega, hlt, ?_⟩
  have hn' : n = w * ((n - 1) / w) + ((n - 1) % w + 1) := by omega
  generalize (n - 1) / w = q at *
  generalize (n - 1) % w = c at *
  rw [hn', Nat.mul_add_mod]
  split
  · rename_i h; rw [h, Nat.mod_self]
  · exact Nat.mod_eq_of_lt (by omega)

theorem toNat_shl_shr (d : BitVec w) (hc : c ≤ w) :
    ((d <<< (w - c)) >>> (w - c)).toNat = d.toNat % 2 ^ c := by
  have hp : 2 ^ w = 2 ^ (w - c) * 2 ^ c := (pow_sub_mul_pow 2 hc).symm
  rw [BitVec.toNat_ushiftRight, BitVec.toNat_shiftLeft, Nat.shiftLeft_eq, Nat.shiftRight_eq_div_pow, hp,
    Nat.mul_comm d.toNat, Nat.mul_mod_mul_left, Nat.mul_div_cancel_left _ (by positivity)]

theorem toNat_keepLowBits (hw : 0 < w) (d : BitVec w) (hn : 0 < n) :
    (keepLowBits d (n % w)).toNat = d.toNat % 2 ^ ((n - 1) % w + 1) := by
  obtain ⟨-, hle, hb⟩ := bit_position hw hn
  rw [hb]
  split
  · rename_i h
    rw [keepLowBits, if_neg (by simp), h, Nat.mod_eq_of_lt d.isLt]
  · rw [keepLowBits, if_pos (Nat.succ_ne_zero _), toNat_shl_shr d hle]

/-- The low `n` bits of a number. -/
theorem value_mod_two_pow (hw : 0 < w) (X : List (BitVec w)) (hn : 0 < n) :
    value X % 2 ^ n = value (X.take ((n - 1) / w)) +
      2 ^ (w * ((n - 1) / w)) * ((digit X ((n - 1) / w)).toNat % 2 ^ ((n - 1) % w + 1)) := by
  obtain ⟨hpos, hle, -⟩ := bit_position hw hn
  conv_lhs => rw [hpos]
  exact value_mod_bits X _ _ hle

/-! ## The two truncations -/

theorem truncateToNBits_spec (hw : 0 < w) (X : List (BitVec w)) (hn : 0 < n)
    (hX : divCeil n w ≤ X.length) :
    value (truncateToNBits X n) = value X % 2 ^ n ∧ (truncateToNBits X n).length = divCeil n w := by
  simp only [divCeil] at hX
  have hl : (X.take ((n - 1) / w)).length = (n - 1) / w := by
    rw [List.length_take]; generalize (n - 1) / w = k at *; omega
  simp only [truncateToNBits, divCeil, Nat.add_sub_cancel, value_concat, List.length_append, List.length_singleton, hl,
    toNat_keepLowBits hw _ hn, value_mod_two_pow hw X hn, and_self]

/-- `p - m`, reduced, is the one number below `p` that completes `m` to a multiple of `p`. -/
theorem eq_sub_mod {z m p k : Nat} (hz : z < p) (hm : m < p) (h : z + m = p * k) : z = (p - m) % p := by
  have hk : k = 0 ∨ k = 1 := by
    by_contra hne
    have : p * 2 ≤ p * k := Nat.mul_le_mul_left _ (by omega)
    omega
  rcases hk with rfl | rfl
  · have : m = 0 := by omega
    subst this
    rw [Nat.sub_zero, Nat.mod_self]; omega
  · rw [Nat.mod_eq_of_lt (by omega)]; omega

/-- The top digit: what completes the bits of `X` below position `n` and the borrow. -/
theorem truncateAndSub_top (hw : 0 < w) (msd borrow : BitVec w) (hn : 0 < n)
    (hcn : (n - 1) % w + 1 = c) (hb : borrow.toNat ≤ 1) :
    let top := if n % w = 0 then (digitSub2 0#w msd borrow).1
      else (digitSub2 (1#w <<< (n % w)) (keepLowBits msd (n % w)) borrow).1 &&& (1#w <<< (n % w) - 1#w)
    top.toNat < 2 ^ c ∧ ∃ k, top.toNat + msd.toNat % 2 ^ c + borrow.toNat = 2 ^ c * k := by
  intro top
  obtain ⟨-, hle, hbits⟩ := bit_position hw hn
  have hkeep := toNat_keepLowBits hw msd hn
  rw [hcn] at hle hbits hkeep
  by_cases h0 : n % w = 0
  · have hc : c = w := by
      by_contra hne
      rw [if_neg hne] at hbits
      omega
    have hs := (digitSub2_spec 0#w msd borrow hb).1
    simp only [top, if_pos h0, hc]
    exact ⟨BitVec.isLt _, _, by simpa using hs⟩
  · have hc : n % w = c := by
      by_cases h : c = w
      · rw [hbits, if_pos h] at h0; exact absurd rfl h0
      · rw [hbits, if_neg h]
    have hcw : c < w := by rw [← hc]; exact Nat.mod_lt _ hw
    have hlt : msd.toNat % 2 ^ c < 2 ^ c := Nat.mod_lt _ (by positivity)
    obtain ⟨hs, hs1⟩ := digitSub2_spec (1#w <<< c) (keepLowBits msd c) borrow hb
    simp only [top, hc, if_neg (show c ≠ 0 by omega), toNat_and_mask hw _ c hcw]
    rw [hc] at hkeep
    rw [toNat_one_shl hcw, hkeep] at hs
    have hr := (digitSub2 (1#w <<< c) (keepLowBits msd c) borrow).1.isLt
    generalize (digitSub2 (1#w <<< c) (keepLowBits msd c) borrow).1.toNat = r at *
    generalize (digitSub2 (1#w <<< c) (keepLowBits msd c) borrow).2.toNat = bo at *
    generalize msd.toNat % 2 ^ c = m at *
    -- no borrow: the minuend is at least the bits and the borrow together
    have hbo : bo = 0 := by
      rcases Nat.eq_zero_or_pos bo with h | h
      · exact h
      · rw [show bo = 1 by omega] at hs; omega
    rw [hbo, Nat.mul_zero] at hs
    refine ⟨Nat.mod_lt _ (by positivity), 1 - r / 2 ^ c, ?_⟩
    have hdm := Nat.mod_add_div r (2 ^ c)
    have hq : r / 2 ^ c ≤ 1 := by
      rw [Nat.div_le_iff_le_mul_add_pred (by positivity)]; omega
    rcases Nat.le_one_iff_eq_zero_or_eq_one.1 hq with h | h <;> rw [h] at hdm ⊢ <;> omega

theorem truncateAndSubFromPowerOfTwo_spec (hw : 0 < w) (X : List (BitVec w)) (hn : 0 < n) :
    value (truncateAndSubFromPowerOfTwo X n) = (2 ^ n - value X % 2 ^ n) % 2 ^ n ∧
      (truncateAndSubFromPowerOfTwo X n).length = divCeil n w := by
  obtain ⟨hpos, -, -⟩ := bit_position hw hn
  have hmod := value_mod_two_pow hw X hn
  have hmsd : (if (n - 1) / w < X.length then digit X ((n - 1) / w) else 0#w) = digit X ((n - 1) / w) := by
    split
    · rfl
    · rename_i h; rw [digit, List.getD_eq_default _ _ (Nat.not_lt.1 h)]
  have htake : X.take (min ((n - 1) / w) X.length) = X.take ((n - 1) / w) := by
    rw [List.take_eq_take_iff, Nat.min_assoc, Nat.min_self]
  have htop := fun (borrow : BitVec w) (hb : borrow.toNat ≤ 1) =>
    truncateAndSub_top hw (digit X ((n - 1) / w)) borrow hn rfl hb
  have hlt : value X % 2 ^ n < 2 ^ n := Nat.mod_lt _ (by positivity)
  simp only [truncateAndSubFromPowerOfTwo, divCeil, Nat.add_sub_cancel, hmsd, htake]
  generalize (n - 1) % w + 1 = c at *
  generalize hk : (n - 1) / w = k at *
  have hl : (X.take k).length = min k X.length := List.length_take
  have hmin := Nat.min_le_left k X.length
  generalize min k X.length = m at *
  obtain ⟨hlo, h2, h1⟩ := subDigits_leaves (List.replicate m 0#w) 0#w (X.take k) (by simp [hl]) (by simp)
  generalize subDigits (List.replicate m 0#w) (X.take k) 0#w = lo at *
  obtain ⟨hhi, h4, h3⟩ := borrowDigits_leaves (List.replicate (k - m) 0#w) lo.2 h2
  generalize borrowDigits (List.replicate (k - m) 0#w) lo.2 = hi at *
  obtain ⟨h5, q, h6⟩ := htop hi.2 h4
  simp only [hl, List.take_replicate, value_replicate_zero, List.length_replicate, BitVec.toNat_ofNat, Nat.zero_mod]
    at h1 h3 hlo hhi
  generalize (if n % w = 0 then _ else _ : BitVec w) = top at *
  have hlen : (lo.1 ++ hi.1).length = k := by rw [List.length_append]; omega
  have hlow := value_lt (lo.1 ++ hi.1)
  rw [hlen] at hlow
  refine ⟨eq_sub_mod ?_ hlt (?_ : _ = 2 ^ n * q), by rw [List.length_append, hlen]; rfl⟩
  · rw [value_concat, hlen, hpos, Nat.pow_add]
    nlinarith [Nat.mul_le_mul_left (2 ^ (w * k)) (show top.toNat + 1 ≤ 2 ^ c from h5)]
  · rw [value_concat, hlen, value_append, hlo, hmod, hpos, Nat.pow_add, pow_len_split w hmin]
    zify at h6 ⊢
    push_cast at h1 h3
    linear_combination h1 + 2 ^ (w * m) * h3 + 2 ^ (w * m) * 2 ^ (w * (k - m)) * h6

/-! ## AsIntN and AsUintN -/

/-- `r` is the signed `n`-bit number congruent to `x`: it lies in
`[-2^(n-1), 2^(n-1))`, which is doubled here so as to make sense for `n = 0`. -/
def IsAsIntN (n : Nat) (x r : ℤ) : Prop :=
  r ≡ x [ZMOD 2 ^ n] ∧ -2 ^ n ≤ 2 * r ∧ 2 * r < 2 ^ n

theorem IsAsIntN.unique {x r s : ℤ} (hr : IsAsIntN n x r) (hs : IsAsIntN n x s) : r = s := by
  obtain ⟨hr1, hr2, hr3⟩ := hr
  obtain ⟨hs1, hs2, hs3⟩ := hs
  have hd : (2 ^ n : ℤ) ∣ r - s := (hs1.trans hr1.symm).dvd
  have hlt : |r - s| < 2 ^ n := by rw [abs_lt]; constructor <;> linarith
  linarith [Int.eq_zero_of_abs_lt_dvd hd hlt]

/-- `(d & (1 << c)) == (1 << c)` tests bit `c`. -/
theorem hasBit_iff (d : BitVec w) (hc : c < w) :
    ((d &&& 1#w <<< c) == 1#w <<< c) = true ↔ 2 ^ c ≤ d.toNat % 2 ^ (c + 1) := by
  have hlt : d.toNat % 2 ^ c < 2 ^ c := Nat.mod_lt _ (by positivity)
  rw [beq_iff_eq, ← BitVec.toNat_inj, BitVec.toNat_and, toNat_one_shl hc, Nat.and_two_pow, Nat.mod_pow_succ,
    Nat.testBit_eq_decide_div_mod_eq]
  rcases Nat.mod_two_eq_zero_or_one (d.toNat / 2 ^ c) with h | h
  · simp [h]; omega
  · simp [h]

/-- Bit `n - 1` of a number, as `AsIntN` tests it. -/
theorem hasBit_value (hw : 0 < w) (X : List (BitVec w)) (hn : 0 < n) :
    ((digit X ((n - 1) / w) &&& 1#w <<< ((n - 1) % w)) == 1#w <<< ((n - 1) % w)) = true ↔
      2 ^ (n - 1) ≤ value X % 2 ^ n := by
  have htake := value_take_lt X ((n - 1) / w)
  rw [hasBit_iff _ (Nat.mod_lt (n - 1) hw), value_mod_two_pow hw X hn, pow_shift w (n - 1)]
  generalize 2 ^ (w * ((n - 1) / w)) = p at *
  generalize (digit X ((n - 1) / w)).toNat % 2 ^ ((n - 1) % w + 1) = d at *
  constructor
  · intro h
    exact le_trans (Nat.mul_le_mul_left _ h) (Nat.le_add_left _ _)
  · intro h
    by_contra hlt
    have := Nat.mul_le_mul_left p (Nat.succ_le_of_lt (Nat.lt_of_not_le hlt))
    rw [Nat.mul_succ] at this
    omega

/-- The bits below bit `n - 1`, as `AsIntN` scans them. -/
theorem lowBits_zero (hw : 0 < w) (X : List (BitVec w)) (n : Nat) :
    (((digit X ((n - 1) / w) &&& (1#w <<< ((n - 1) % w) - 1#w)) != 0#w) = false ∧
      (X.take ((n - 1) / w)).any (· != 0#w) = false) ↔ value X % 2 ^ (n - 1) = 0 := by
  have hc := Nat.mod_lt (n - 1) hw
  have hmod := value_mod_bits X ((n - 1) / w) ((n - 1) % w) hc.le
  have hany : (X.take ((n - 1) / w)).any (· != 0#w) = false ↔ value (X.take ((n - 1) / w)) = 0 := by
    rw [value_eq_zero_iff]; simp
  rw [Nat.div_add_mod] at hmod
  rw [hany, bne_eq_false_iff_eq, ← BitVec.toNat_inj, toNat_and_mask hw _ _ hc, hmod]
  simp [and_comm]

theorem two_pow_pred (hn : 0 < n) : 2 ^ n = 2 * 2 ^ (n - 1) := (mul_pow_sub_one hn.ne' 2).symm

theorem cast_mod_modEq (v n : Nat) : ((v % 2 ^ n : Nat) : ℤ) ≡ v [ZMOD 2 ^ n] := by
  push_cast; exact Int.mod_modEq _ _

/-- What `AsIntN` returns for a number that is not negative. -/
theorem isAsIntN_pos (hn : 0 < n) :
    IsAsIntN n v (if 2 ^ (n - 1) ≤ v % 2 ^ n then -((2 ^ n - v % 2 ^ n : Nat) : ℤ) else (v % 2 ^ n : Nat)) := by
  have hp := two_pow_pred hn
  have hlt : v % 2 ^ n < 2 ^ n := Nat.mod_lt _ (by positivity)
  have hmod := cast_mod_modEq v n
  generalize v % 2 ^ n = m at *
  zify at hp hlt
  split
  · rename_i h
    zify at h
    push_cast [Nat.cast_sub (show m ≤ 2 ^ n by exact_mod_cast hlt.le)]
    refine ⟨?_, by linarith, by linarith⟩
    rw [neg_sub]
    exact (Int.ModEq.sub_right _ hmod).trans (by simp)
  · rename_i h
    exact ⟨hmod, by linarith [Int.natCast_nonneg m], by linarith⟩

/-- What it returns for a negative number: the sign flips back unless the
result is the least `n`-bit number. -/
theorem isAsIntN_neg (hn : 0 < n) :
    IsAsIntN n (-v) (if 2 ^ (n - 1) ≤ v % 2 ^ n then
      (if v % 2 ^ (n - 1) = 0 then -((2 ^ n - v % 2 ^ n : Nat) : ℤ) else (2 ^ n - v % 2 ^ n : Nat))
      else -((v % 2 ^ n : Nat) : ℤ)) := by
  have hp := two_pow_pred hn
  have hlt : v % 2 ^ n < 2 ^ n := Nat.mod_lt _ (by positivity)
  have hmod := (cast_mod_modEq v n).neg
  have hlow : v % 2 ^ (n - 1) = v % 2 ^ n % 2 ^ (n - 1) := by
    rw [Nat.mod_mod_of_dvd _ (pow_dvd_pow 2 (by omega))]
  rw [hlow]
  generalize v % 2 ^ n = m at *
  have hcast : ((2 ^ n - m : Nat) : ℤ) = 2 ^ n - m := by
    push_cast [Nat.cast_sub hlt.le]; rfl
  rw [hcast]
  split
  · rename_i h
    have hhigh : m % 2 ^ (n - 1) = m - 2 ^ (n - 1) := by
      rw [Nat.mod_eq_sub_mod h, Nat.mod_eq_of_lt (by omega)]
    rw [hhigh]
    zify at hp hlt h
    split
    · rename_i h0
      have hm : (m : ℤ) = 2 ^ (n - 1) := by
        have : m = 2 ^ (n - 1) := by
          have h' : 2 ^ (n - 1) ≤ m := by exact_mod_cast h
          omega
        exact_mod_cast this
      refine ⟨?_, by linarith, by linarith⟩
      refine Int.ModEq.trans ?_ hmod
      rw [Int.modEq_iff_dvd, hm, hp]
      exact ⟨0, by ring⟩
    · rename_i h0
      have hm : (2 ^ (n - 1) : ℤ) < m := by
        have : 2 ^ (n - 1) < m := by omega
        exact_mod_cast this
      refine ⟨?_, by linarith, by linarith⟩
      refine Int.ModEq.trans ?_ hmod
      rw [Int.modEq_iff_dvd]
      exact ⟨-1, by ring⟩
  · rename_i h
    zify at hp
    exact ⟨hmod, by linarith, by linarith [Int.natCast_nonneg m]⟩

theorem asIntN_spec (hw : 0 < w) (X : List (BitVec w)) (xNegative : Bool) (hn : 0 < n)
    (hX : divCeil n w ≤ X.length) :
    let r := asIntN X xNegative n
    IsAsIntN n (signedValue xNegative X) (signedValue r.2 r.1) ∧ r.1.length = divCeil n w := by
  intro r
  obtain ⟨h1, h2⟩ := truncateToNBits_spec hw X hn hX
  obtain ⟨h3, h4⟩ := truncateAndSubFromPowerOfTwo_spec hw X hn
  have hbit := hasBit_value hw X hn
  have hlow := lowBits_zero hw X n
  have hpos := isAsIntN_pos (v := value X) hn
  have hneg := isAsIntN_neg (v := value X) hn
  simp only [r, asIntN, divCeil, Nat.add_sub_cancel] at *
  by_cases hb : 2 ^ (n - 1) ≤ value X % 2 ^ n
  · have hp : 0 < 2 ^ (n - 1) := by positivity
    rw [Nat.mod_eq_of_lt (by omega)] at h3
    rw [if_pos hb] at hpos hneg
    simp only [hbit.2 hb]
    refine ⟨?_, h4⟩
    cases xNegative with
    | false => simpa [signedValue, h3] using hpos
    | true =>
      by_cases hz : value X % 2 ^ (n - 1) = 0
      · obtain ⟨ha, ha'⟩ := hlow.2 hz
        rw [if_pos hz] at hneg
        simpa [ha, ha', signedValue, h3] using hneg
      · rw [if_neg hz] at hneg
        rcases not_and_or.1 (hlow.not.2 hz) with ha | ha
        · simpa [Bool.not_eq_false _ ▸ ha, signedValue, h3] using hneg
        · simpa [Bool.not_eq_false _ ▸ ha, signedValue, h3] using hneg
  · have hnb := Bool.eq_false_iff.2 (hbit.not.2 hb)
    rw [if_neg hb] at hpos hneg
    simp only [hnb]
    refine ⟨?_, h2⟩
    cases xNegative with
    | false => simpa [signedValue, h1] using hpos
    | true => simpa [signedValue, h1] using hneg

/-- A magnitude of fewer than `n` bits is left alone, and so is `-2^(n-1)`. -/
theorem isAsIntN_self {negative : Bool} (hn : 0 < n)
    (h : v < 2 ^ (n - 1) ∨ (v = 2 ^ (n - 1) ∧ negative = true)) :
    let x : ℤ := if negative then -v else v
    IsAsIntN n x x := by
  intro x
  have hp := two_pow_pred hn
  refine ⟨Int.ModEq.refl _, ?_⟩
  zify at hp
  rcases h with h | ⟨h, hneg⟩
  · zify at h
    cases negative <;> simp only [x, if_true, if_false, Bool.false_eq_true] <;> constructor <;> linarith
  · simp only [x, hneg, h]
    push_cast
    constructor <;> linarith [show (0 : ℤ) < 2 ^ (n - 1) by positivity]

theorem value_lt_pred_bit (X : List (BitVec w)) (n : Nat) (h : X.length < divCeil n w) :
    value X < 2 ^ (n - 1) := by
  refine lt_of_lt_of_le (value_lt X) (Nat.pow_le_pow_right (by norm_num) ?_)
  exact le_trans (Nat.mul_le_mul_left _ (Nat.le_of_lt_succ h)) (Nat.mul_div_le _ _)

theorem value_top (X : List (BitVec w)) {k : Nat} (h : X.length = k + 1) :
    value X = value (X.take k) + 2 ^ (w * k) * (digit X k).toNat := by
  rw [value_split_at X k, drop_eq_digit_cons X k (by omega), List.drop_eq_nil_of_le (by omega)]
  simp

/-- The length test of `AsIntN`: -1 only if nothing changes, otherwise `X` has the digits to read. -/
theorem asIntNResultLength_cases (hw : 0 < w) (X : List (BitVec w)) (xNegative : Bool) (hn : 0 < n) :
    (asIntNResultLength X xNegative n = -1 ∧ IsAsIntN n (signedValue xNegative X) (signedValue xNegative X)) ∨
      (asIntNResultLength X xNegative n = divCeil n w ∧ divCeil n w ≤ X.length) := by
  have hself := @isAsIntN_self n (value X) xNegative hn
  have hc := Nat.mod_lt (n - 1) hw
  rcases Nat.lt_trichotomy X.length (divCeil n w) with hl | hl | hl
  · exact .inl ⟨if_pos hl, hself (.inl (value_lt_pred_bit X n hl))⟩
  · have hv := value_top X hl
    have htake := value_take_lt X ((n - 1) / w)
    have hpow := pow_shift w (n - 1)
    have hany : (X.take ((n - 1) / w)).any (· != 0#w) = false ↔ value (X.take ((n - 1) / w)) = 0 := by
      rw [value_eq_zero_iff]; simp
    unfold asIntNResultLength
    rw [if_neg (by omega), if_neg (by omega)]
    simp only [divCeil, Nat.add_sub_cancel, BitVec.lt_def, toNat_one_shl hc] at *
    generalize (digit X ((n - 1) / w)).toNat = top at *
    generalize 2 ^ (w * ((n - 1) / w)) = p at *
    split
    · rename_i hlt
      refine .inl ⟨rfl, hself (.inl ?_)⟩
      have := Nat.mul_le_mul_left p (Nat.succ_le_of_lt hlt)
      rw [Nat.mul_succ] at this
      omega
    · split
      · exact .inr ⟨rfl, hl.ge⟩
      · rename_i h1 h2
        have htop : top = 2 ^ ((n - 1) % w) := by omega
        split
        · exact .inr ⟨rfl, hl.ge⟩
        · rename_i h3
          split
          · exact .inr ⟨rfl, hl.ge⟩
          · rename_i h4
            refine .inl ⟨rfl, hself (.inr ⟨?_, by simpa using h3⟩)⟩
            rw [hv, hany.1 (by simpa using h4), htop, hpow, Nat.zero_add]
  · exact .inr ⟨by rw [asIntNResultLength, if_neg (by omega), if_pos hl], hl.le⟩

theorem asUintNPosResultLength_cases (hw : 0 < w) (X : List (BitVec w)) (hn : 0 < n) :
    (asUintNPosResultLength X n = -1 ∧ value X % 2 ^ n = value X) ∨
      (asUintNPosResultLength X n = divCeil n w ∧ divCeil n w ≤ X.length) := by
  obtain ⟨hpos, hle, hbits⟩ := bit_position hw hn
  rcases Nat.lt_trichotomy X.length (divCeil n w) with hl | hl | hl
  · refine .inl ⟨if_pos hl, Nat.mod_eq_of_lt (lt_of_lt_of_le (value_lt_pred_bit X n hl) ?_)⟩
    exact Nat.pow_le_pow_right (by norm_num) (by omega)
  · have hv := value_top X hl
    have hmod := value_mod_two_pow hw X hn
    unfold asUintNPosResultLength
    rw [if_neg (by omega), if_neg (by omega)]
    simp only [divCeil, Nat.add_sub_cancel] at *
    split
    · rename_i h0
      refine .inl ⟨rfl, ?_⟩
      have hc : (n - 1) % w + 1 = w := by
        by_contra hne
        rw [if_neg hne] at hbits
        omega
      rw [hmod, hc, Nat.mod_eq_of_lt (BitVec.isLt _), hv]
    · rename_i h0
      have hc : n % w = (n - 1) % w + 1 := by
        by_cases h : (n - 1) % w + 1 = w
        · rw [hbits, if_pos h] at h0; exact absurd rfl h0
        · rw [hbits, if_neg h]
      split
      · rename_i h1
        refine .inl ⟨rfl, ?_⟩
        have hz := congrArg BitVec.toNat h1
        rw [BitVec.toNat_ushiftRight, Nat.shiftRight_eq_div_pow, hc, BitVec.toNat_ofNat, Nat.zero_mod,
          Nat.div_eq_zero_iff] at hz
        rw [hmod, Nat.mod_eq_of_lt (hz.resolve_left (by positivity)), hv]
      · exact .inr ⟨rfl, hl.ge⟩
  · exact .inr ⟨by rw [asUintNPosResultLength, if_neg (by omega), if_pos hl], hl.le⟩

/-- The magnitude of a negative number, truncated as a two's complement number. -/
theorem asUintNNeg_spec (hw : 0 < w) (X : List (BitVec w)) (hn : 0 < n) :
    (value (asUintNNeg X n) : ℤ) = -(value X : ℤ) % 2 ^ n ∧
      (asUintNNeg X n).length = asUintNNegResultLength w n := by
  obtain ⟨h1, h2⟩ := truncateAndSubFromPowerOfTwo_spec hw X hn
  refine ⟨?_, h2⟩
  have hlt : value X % 2 ^ n < 2 ^ n := Nat.mod_lt _ (by positivity)
  rw [asUintNNeg, h1]
  push_cast [Nat.cast_sub hlt.le]
  refine Int.modEq_iff_dvd.2 ⟨-(value X / 2 ^ n : ℤ) - 1, ?_⟩
  linear_combination Int.emod_add_mul_ediv (value X) (2 ^ n)

end V8Core.Bigint
