import V8Core.Objects.CompareDouble

/-!
# BigInts to doubles and back

`ToDouble`, `DecideRounding` and `NewFromDouble` of `objects/bigint.cc`. `ToDouble` collects
the bits behind the top one from up to three digits and looks at the rest of the number only
to decide the rounding.
-/

open Radix V8Core.Bigint

namespace V8Core.Objects

variable {t : Target}

/-! ## The conversion -/

inductive Rounding
  | kRoundDown
  | kTie
  | kRoundUp
  deriving DecidableEq, Repr

/-- The loop over the digits below an index. -/
def anyDigitBelow (digits : List (BitVec t.kDigitBits)) : Nat → Bool
  | 0 => false
  | digitIndex + 1 => digit digits digitIndex ≠ 0#t.kDigitBits || anyDigitBelow digits digitIndex

/-- `DecideRounding` once `top_unconsumed_bit` of the current digit is known. -/
def decideRoundingAt (x : BigInt t) (digitIndex : Nat) (currentDigit : BitVec 64) (topUnconsumedBit : Nat) : Rounding :=
  let bitmask := 1#64 <<< topUnconsumedBit
  if currentDigit &&& bitmask = 0#64 then .kRoundDown
  else if currentDigit &&& (bitmask - 1#64) ≠ 0#64 then .kRoundUp
  else if anyDigitBelow x.digits digitIndex then .kRoundUp
  else .kTie

/-- `DecideRounding(x, mantissa_bits_unset, digit_index, current_digit)`. -/
def decideRounding (x : BigInt t) (mantissaBitsUnset : ℤ) (digitIndex : Nat) (currentDigit : BitVec 64) : Rounding :=
  if mantissaBitsUnset > 0 then .kRoundDown
  else if mantissaBitsUnset < 0 then decideRoundingAt x digitIndex currentDigit (-mantissaBitsUnset - 1).toNat
  else if digitIndex = 0 then .kRoundDown
  else decideRoundingAt x (digitIndex - 1) ((digit x.digits (digitIndex - 1)).setWidth 64) (t.kDigitBits - 1)

/-- The local variables of `ToDouble`. -/
structure MantissaState where
  mantissa : BitVec 64
  mantissaBitsUnset : ℤ
  digitIndex : Nat
  currentDigit : BitVec 64

/-- The most significant digit, with its top bit shifted out. -/
def MantissaState.first (x : BigInt t) : MantissaState :=
  let currentDigit := (msd x.digits).setWidth 64
  let shift := countLeadingZeros (msd x.digits) + 1 + (64 - t.kDigitBits)
  let mantissa := if shift = 64 then 0#64 else currentDigit <<< shift
  ⟨mantissa >>> 12, (shift : ℤ) - 12, x.length - 1, currentDigit⟩

/-- All of the next digit, if the mantissa has room for it. -/
def MantissaState.takeDigit (x : BigInt t) (s : MantissaState) : MantissaState :=
  if s.mantissaBitsUnset ≥ t.kDigitBits ∧ s.digitIndex > 0 then
    let currentDigit := (digit x.digits (s.digitIndex - 1)).setWidth 64
    ⟨s.mantissa ||| currentDigit <<< (s.mantissaBitsUnset - t.kDigitBits).toNat, s.mantissaBitsUnset - t.kDigitBits,
      s.digitIndex - 1, currentDigit⟩
  else s

/-- The top bits of the next digit. -/
def MantissaState.takeBits (x : BigInt t) (s : MantissaState) : MantissaState :=
  if s.mantissaBitsUnset > 0 ∧ s.digitIndex > 0 then
    let currentDigit := (digit x.digits (s.digitIndex - 1)).setWidth 64
    ⟨s.mantissa ||| currentDigit >>> (t.kDigitBits - s.mantissaBitsUnset).toNat, s.mantissaBitsUnset - t.kDigitBits,
      s.digitIndex - 1, currentDigit⟩
  else s

/-- Whether the mantissa is incremented. -/
def roundsUp (rounding : Rounding) (mantissa : BitVec 64) : Bool :=
  rounding = .kRoundUp ∨ rounding = .kTie ∧ mantissa &&& 1#64 = 1#64

/-- `V8_INFINITY` or its negative. -/
def infinityBits (sign : Bool) : BitVec 64 := if sign then 0xFFF0000000000000#64 else 0x7FF0000000000000#64

/-- `double_bits`. -/
def assemble (sign : Bool) (exponent : Nat) (mantissa : BitVec 64) : BitVec 64 :=
  (if sign then 1#64 <<< 63 else 0#64) ||| BitVec.ofNat 64 (exponent + 0x3FF) <<< kPhysicalSignificandSize ||| mantissa

/-- `ToDouble(x)`. -/
def toDouble (x : BigInt t) : BitVec 64 :=
  if x.isZero then 0#64
  else if x.bitlength > 1024 then infinityBits x.sign
  else
    let exponent := x.bitlength - 1
    let s := ((MantissaState.first x).takeDigit x).takeBits x
    let rounding := decideRounding x s.mantissaBitsUnset s.digitIndex s.currentDigit
    if roundsUp rounding s.mantissa then
      -- the increment may leave the mantissa, and then the exponent
      if (s.mantissa + 1#64) >>> kPhysicalSignificandSize ≠ 0#64 then
        if exponent + 1 > 1023 then infinityBits x.sign else assemble x.sign (exponent + 1) 0#64
      else assemble x.sign exponent (s.mantissa + 1#64)
    else assemble x.sign exponent s.mantissa

/-! ## Collecting the mantissa -/

/-- The digits from `digit_index` on are the mantissa with its hidden bit, up to bits that are
unset or left over. -/
structure MantissaState.Holds (x : BigInt t) (s : MantissaState) : Prop where
  position : s.mantissaBitsUnset + x.bitlength = 53 + t.kDigitBits * s.digitIndex
  lower : -(t.kDigitBits : ℤ) < s.mantissaBitsUnset
  index : s.digitIndex < x.length
  current : s.currentDigit = (digit x.digits s.digitIndex).setWidth 64
  mantissa : 2 ^ 52 + s.mantissa.toNat =
    value (x.digits.drop s.digitIndex) * 2 ^ s.mantissaBitsUnset.toNat / 2 ^ (-s.mantissaBitsUnset).toNat

section Collect
variable {x : BigInt t} {s : MantissaState}

theorem kDigitBits_le (t : Target) : 32 ≤ t.kDigitBits ∧ t.kDigitBits ≤ 64 := by cases t <;> decide

theorem toNat_digit_setWidth (d : BitVec t.kDigitBits) : (d.setWidth 64).toNat = d.toNat := by
  rw [BitVec.toNat_setWidth, Nat.mod_eq_of_lt]
  exact d.isLt.trans_le (Nat.pow_le_pow_right (by decide) (kDigitBits_le t).2)

theorem digit_length_sub_one (X : List (BitVec t.kDigitBits)) : digit X (X.length - 1) = msd X := by
  rw [digit, msd, List.getD_eq_getElem?_getD, List.getLastD_eq_getLast?, List.getLast?_eq_getElem?]

theorem value_drop_digit (X : List (BitVec t.kDigitBits)) {i : Nat} (hi : i < X.length) :
    value (X.drop i) = value (X.drop (i + 1)) * 2 ^ t.kDigitBits + (digit X i).toNat := by
  rw [drop_eq_digit_cons X i hi, value_cons]
  ring

theorem two_pow_mul_two_pow {a b c d : Nat} (h : a + b = c + d) : 2 ^ a * 2 ^ b = 2 ^ c * 2 ^ d := by
  rw [← Nat.pow_add, h, Nat.pow_add]

/-- Bits below those that are set are added. -/
theorem or_unset {m d : BitVec 64} {u H : Nat} (hm : 2 ^ 52 + m.toNat = H * 2 ^ u) (hu : u ≤ 52) (hd : d.toNat < 2 ^ u) :
    2 ^ 52 + (m ||| d).toNat = H * 2 ^ u + d.toNat := by
  have hdvd : 2 ^ u ∣ m.toNat :=
    (Nat.dvd_add_right (Nat.pow_dvd_pow 2 hu)).1 (hm ▸ Nat.dvd_mul_left (2 ^ u) H)
  obtain ⟨k, hk⟩ := hdvd
  have hor := Nat.two_pow_add_eq_or_of_lt hd k
  rw [← hk] at hor
  rw [BitVec.toNat_or, ← hor]
  omega

theorem MantissaState.first_holds (hx : x.isZero = false) : (first x).Holds x := by
  obtain ⟨topbit, htop, hclz, hlength, hlow, hhigh, -⟩ := BigInt.bitlength_spec hx
  have hw := kDigitBits_le t
  have hlen := List.length_pos_of_ne_nil (BigInt.digits_ne_nil hx)
  have hshift : countLeadingZeros (msd x.digits) + 1 + (64 - t.kDigitBits) = 64 - topbit := by omega
  obtain ⟨low, hd⟩ := Nat.exists_eq_add_of_le hlow
  have hlowlt : low < 2 ^ topbit := by
    rw [Nat.pow_succ] at hhigh
    omega
  have hmantissa : (if 64 - topbit = 64 then 0#64 else (msd x.digits).setWidth 64 <<< (64 - topbit)).toNat =
      low * 2 ^ (64 - topbit) := by
    by_cases hzero : topbit = 0
    · subst hzero
      rw [if_pos rfl, show low = 0 by omega, Nat.zero_mul]
      rfl
    · have hpow : 2 ^ topbit * 2 ^ (64 - topbit) = 2 ^ 64 := by rw [← Nat.pow_add]; congr 1; omega
      rw [if_neg (by omega), BitVec.toNat_shiftLeft, toNat_digit_setWidth, Nat.shiftLeft_eq, hd, Nat.add_mul, hpow,
        Nat.add_mod_left, Nat.mod_eq_of_lt]
      rw [← hpow]
      exact Nat.mul_lt_mul_of_pos_right hlowlt (by positivity)
  have hdrop : value (x.digits.drop (x.length - 1)) = (msd x.digits).toNat := by
    have hnil : x.digits.drop (x.length - 1 + 1) = [] := List.drop_eq_nil_of_le (by rw [BigInt.length]; omega)
    rw [value_drop_digit _ (by rw [BigInt.length]; omega), hnil, value_nil, Nat.zero_mul, Nat.zero_add, BigInt.length,
      digit_length_sub_one]
  unfold first
  rw [hshift]
  dsimp only
  refine ⟨by dsimp only; omega, by dsimp only; omega, by dsimp only [BigInt.length]; omega, ?_, ?_⟩
  · dsimp only [BigInt.length]
    rw [digit_length_sub_one]
  · dsimp only
    rw [BitVec.toNat_ushiftRight, Nat.shiftRight_eq_div_pow, hmantissa, hdrop, hd,
      show (((64 - topbit : Nat) : ℤ) - 12).toNat = 52 - topbit by omega,
      show (-(((64 - topbit : Nat) : ℤ) - 12)).toNat = topbit - 52 by omega]
    -- the same fraction of the lower bits, with the powers of two on either side
    have hsame : 2 ^ (64 - topbit) * 2 ^ (topbit - 52) = 2 ^ (52 - topbit) * 2 ^ 12 := two_pow_mul_two_pow (by omega)
    have htopbit : 2 ^ topbit * 2 ^ (52 - topbit) = 2 ^ 52 * 2 ^ (topbit - 52) := two_pow_mul_two_pow (by omega)
    rw [Nat.add_mul, htopbit, Nat.add_comm (_ * _), Nat.add_mul_div_right _ _ (by positivity), Nat.add_comm (2 ^ 52),
      ← Nat.mul_div_mul_right (low * 2 ^ (64 - topbit)) (2 ^ 12) (Nat.two_pow_pos (topbit - 52)),
      ← Nat.mul_div_mul_right (low * 2 ^ (52 - topbit)) (2 ^ (topbit - 52)) (Nat.two_pow_pos 12), Nat.mul_assoc, hsame,
      Nat.mul_assoc, Nat.mul_comm (2 ^ 12) (2 ^ (topbit - 52))]

theorem MantissaState.Holds.unset_le (h : s.Holds x) (hx : x.isZero = false) : s.mantissaBitsUnset ≤ 52 := by
  obtain ⟨topbit, -, -, hlength, -⟩ := BigInt.bitlength_spec hx
  have hmul := Nat.mul_le_mul_left t.kDigitBits (show s.digitIndex ≤ x.length - 1 by have := h.index; omega)
  have := h.position
  omega

/-- What a digit adds to the mantissa: the bits that there is room for. -/
theorem MantissaState.Holds.take (h : s.Holds x) (hx : x.isZero = false) (hi : 0 < s.digitIndex)
    {u : Nat} (hu : s.mantissaBitsUnset = u) (hpos : 0 < u) {bits : BitVec 64} (hbits : bits.toNat =
      (digit x.digits (s.digitIndex - 1)).toNat * 2 ^ (u - t.kDigitBits) / 2 ^ (t.kDigitBits - u)) :
    (MantissaState.mk (s.mantissa ||| bits) (s.mantissaBitsUnset - t.kDigitBits) (s.digitIndex - 1)
      ((digit x.digits (s.digitIndex - 1)).setWidth 64)).Holds x := by
  have hindex := h.index
  have hpow : 2 ^ t.kDigitBits * 2 ^ (u - t.kDigitBits) = 2 ^ u * 2 ^ (t.kDigitBits - u) :=
    two_pow_mul_two_pow (by omega)
  have hbitslt : bits.toNat < 2 ^ u := by
    rw [hbits, Nat.div_lt_iff_lt_mul (by positivity), ← hpow]
    exact Nat.mul_lt_mul_of_pos_right (BitVec.isLt _) (by positivity)
  have hmantissa := h.mantissa
  rw [hu, Int.toNat_natCast, show (-(u : ℤ)).toNat = 0 by omega, Nat.pow_zero, Nat.div_one] at hmantissa
  have hor := or_unset hmantissa (by have := h.unset_le hx; omega) hbitslt
  refine ⟨?_, by dsimp only; omega, by dsimp only; omega, rfl, ?_⟩
  · dsimp only
    have hmul : t.kDigitBits * (s.digitIndex - 1) + t.kDigitBits = t.kDigitBits * s.digitIndex := by
      rw [← Nat.mul_succ]; congr 1; omega
    have := h.position
    omega
  · dsimp only
    rw [hor, value_drop_digit x.digits (show s.digitIndex - 1 < x.digits.length from by rw [← BigInt.length]; omega),
      show s.digitIndex - 1 + 1 = s.digitIndex by omega, hu,
      show ((u : ℤ) - t.kDigitBits).toNat = u - t.kDigitBits by omega,
      show (-((u : ℤ) - t.kDigitBits)).toNat = t.kDigitBits - u by omega, Nat.add_mul, Nat.mul_assoc, hpow, ← Nat.mul_assoc,
      Nat.add_comm (_ * 2 ^ (t.kDigitBits - u)), Nat.add_mul_div_right _ _ (by positivity), ← hbits, Nat.add_comm]

theorem MantissaState.Holds.takeDigit (h : s.Holds x) (hx : x.isZero = false) : (s.takeDigit x).Holds x ∧
    ((s.takeDigit x).mantissaBitsUnset < t.kDigitBits ∨ (s.takeDigit x).digitIndex = 0) := by
  have hw := kDigitBits_le t
  have hunset := h.unset_le hx
  unfold MantissaState.takeDigit
  split
  · rename_i hroom
    obtain ⟨u, hu⟩ := Int.eq_ofNat_of_zero_le (show 0 ≤ s.mantissaBitsUnset by omega)
    refine ⟨h.take hx hroom.2 hu (by omega) ?_, Or.inl (by dsimp only; omega)⟩
    have hlt : (digit x.digits (s.digitIndex - 1)).toNat * 2 ^ (u - t.kDigitBits) < 2 ^ 64 := by
      calc _ < 2 ^ t.kDigitBits * 2 ^ (u - t.kDigitBits) := Nat.mul_lt_mul_of_pos_right (BitVec.isLt _) (by positivity)
        _ = 2 ^ u := by rw [← Nat.pow_add]; congr 1; omega
        _ ≤ 2 ^ 64 := Nat.pow_le_pow_right (by decide) (by omega)
    rw [BitVec.toNat_shiftLeft, toNat_digit_setWidth, Nat.shiftLeft_eq, hu,
      show ((u : ℤ) - t.kDigitBits).toNat = u - t.kDigitBits by omega, Nat.mod_eq_of_lt hlt,
      show t.kDigitBits - u = 0 by omega, Nat.pow_zero, Nat.div_one]
  · exact ⟨h, by omega⟩

theorem MantissaState.Holds.takeBits (h : s.Holds x) (hx : x.isZero = false)
    (hroom : s.mantissaBitsUnset < t.kDigitBits ∨ s.digitIndex = 0) : (s.takeBits x).Holds x ∧
    ((s.takeBits x).mantissaBitsUnset ≤ 0 ∨ (s.takeBits x).digitIndex = 0) := by
  unfold MantissaState.takeBits
  split
  · rename_i hunset
    obtain ⟨u, hu⟩ := Int.eq_ofNat_of_zero_le hunset.1.le
    refine ⟨h.take hx hunset.2 hu (by omega) ?_, Or.inl (by dsimp only; omega)⟩
    rw [BitVec.toNat_ushiftRight, toNat_digit_setWidth, Nat.shiftRight_eq_div_pow, hu,
      show ((t.kDigitBits : ℤ) - u).toNat = t.kDigitBits - u by omega, show u - t.kDigitBits = 0 by omega, Nat.pow_zero,
      Nat.mul_one]
  · exact ⟨h, by omega⟩

/-- The state that is rounded. -/
theorem mantissaState_holds (hx : x.isZero = false) : ∃ s, ((MantissaState.first x).takeDigit x).takeBits x = s ∧
    s.Holds x ∧ (s.mantissaBitsUnset ≤ 0 ∨ s.digitIndex = 0) := by
  obtain ⟨hdigit, hroom⟩ := (MantissaState.first_holds hx).takeDigit hx
  exact ⟨_, rfl, hdigit.takeBits hx hroom⟩

end Collect

/-! ## Rounding -/

/-- The bits of a double with its sign. -/
def signedBits (sign : Bool) (b : Nat) : Nat := (if sign then 2 ^ 63 else 0) + b

theorem anyDigitBelow_iff (X : List (BitVec t.kDigitBits)) (i : Nat) :
    anyDigitBelow X i = true ↔ value (X.take i) ≠ 0 := by
  induction i with
  | zero => simp [anyDigitBelow]
  | succ i ih =>
    have hpow : 2 ^ (t.kDigitBits * i) ≠ 0 := by positivity
    have hdigit : (digit X i).toNat = 0 ↔ digit X i = 0#t.kDigitBits := by simp [← BitVec.toNat_inj]
    have hsplit := value_mod_bits X i t.kDigitBits (le_refl _)
    rw [Nat.mod_eq_of_lt (BitVec.isLt _), ← Nat.mul_succ, ← value_take] at hsplit
    rw [anyDigitBelow, Bool.or_eq_true, ih, decide_eq_true_eq, hsplit, Ne, Ne, Ne, Nat.add_eq_zero_iff, Nat.mul_eq_zero, hdigit]
    tauto

section Round
variable {x : BigInt t}

open Binary64 (roundQuot Rounds)

/-- The decision at a bit of a digit rounds off what is below the bit. -/
theorem decideRoundingAt_spec {i c : Nat} (hc : 0 < c) (hcw : c ≤ t.kDigitBits) (hi : i < x.length) {m : BitVec 64}
    (hm : 2 ^ 52 + m.toNat = value (x.digits.drop i) / 2 ^ c) :
    roundQuot (value x.digits) (2 ^ (c + t.kDigitBits * i)) = 2 ^ 52 + m.toNat +
      if roundsUp (decideRoundingAt x i ((digit x.digits i).setWidth 64) (c - 1)) m then 1 else 0 := by
  have hw := kDigitBits_le t
  have hsplit := value_split_at x.digits i
  have hhigh := value_drop_digit x.digits (show i < x.digits.length from hi)
  have hany := anyDigitBelow_iff x.digits i
  have hdigit := toNat_digit_setWidth (digit x.digits i)
  have hodd : m &&& 1#64 = 1#64 ↔ (2 ^ 52 + m.toNat) % 2 ≠ 0 := by
    rw [← BitVec.toNat_inj, BitVec.toNat_and, BitVec.toNat_ofNat, Nat.mod_eq_of_lt (by decide), Nat.and_one_is_mod]
    omega
  have hlow : (1#64 <<< (c - 1)).toNat = 2 ^ (c - 1) := by
    have hlt : 2 ^ (c - 1) < 2 ^ 64 := Nat.pow_lt_pow_right (by decide) (by omega)
    rw [BitVec.toNat_shiftLeft, Nat.shiftLeft_eq, BitVec.toNat_ofNat, Nat.one_mod_two_pow (by decide), Nat.one_mul,
      Nat.mod_eq_of_lt hlt]
  generalize digit x.digits i = d at *
  -- the bit, and what is below it in the digit
  have hmod : value (x.digits.drop i) % 2 ^ c = d.toNat % 2 ^ (c - 1) + 2 ^ (c - 1) * (d.toNat / 2 ^ (c - 1) % 2) := by
    have hdvd : 2 ^ c ∣ value (x.digits.drop (i + 1)) * 2 ^ t.kDigitBits := (Nat.pow_dvd_pow 2 hcw).mul_left _
    have hpow : 2 ^ c = 2 ^ (c - 1) * 2 := by rw [← Nat.pow_succ]; congr 1; omega
    rw [hhigh, Nat.add_mod, Nat.mod_eq_zero_of_dvd hdvd, Nat.zero_add, Nat.mod_mod, hpow, Nat.mod_mul]
  have hbit : d.setWidth 64 &&& 1#64 <<< (c - 1) = 0#64 ↔ d.toNat / 2 ^ (c - 1) % 2 = 0 := by
    rw [← BitVec.toNat_inj, BitVec.toNat_and, hlow, hdigit, Nat.and_two_pow, Nat.testBit_eq_decide_div_mod_eq]
    rcases Nat.mod_two_eq_zero_or_one (d.toNat / 2 ^ (c - 1)) with h | h <;> simp [h]
  have hrest : d.setWidth 64 &&& (1#64 <<< (c - 1) - 1#64) ≠ 0#64 ↔ d.toNat % 2 ^ (c - 1) ≠ 0 := by
    have hsub : (1#64 <<< (c - 1) - 1#64).toNat = 2 ^ (c - 1) - 1 := by
      rw [BitVec.toNat_sub_of_le (by rw [BitVec.le_def, hlow]; exact Nat.one_le_two_pow), hlow]
      rfl
    rw [Ne, ← BitVec.toNat_inj, BitVec.toNat_and, hsub, hdigit, Nat.and_two_pow_sub_one_eq_mod]
    rfl
  have hlt := Nat.mod_lt d.toNat (Nat.two_pow_pos (c - 1))
  rw [hsplit, Nat.add_comm, Nat.mul_comm, Binary64.roundQuot_append hc (value_take_lt x.digits i), hmod, ← hm]
  simp only [decideRoundingAt, roundsUp, hbit, hrest, hany, hodd]
  generalize d.toNat % 2 ^ (c - 1) = low at *
  generalize 2 ^ (c - 1) = half at *
  generalize 2 ^ 52 + m.toNat = q at *
  rcases Nat.mod_two_eq_zero_or_one (d.toNat / half) with h | h
  · simp only [h, Nat.mul_zero, Nat.add_zero, if_true]
    rw [if_neg (by omega), if_neg (by omega)]
    simp
  · rcases Nat.eq_zero_or_pos low with rfl | hpos
    · rcases Nat.mod_two_eq_zero_or_one q with hq | hq <;> by_cases htie : value (x.digits.take i) = 0 <;>
        simp [h, hq, htie]
    · simp [h, hpos, hpos.ne']

theorem decideRounding_spec {s : MantissaState} (h : s.Holds x) {c : Nat} (hc : s.mantissaBitsUnset = -(c : ℤ)) :
    roundQuot (value x.digits) (2 ^ (c + t.kDigitBits * s.digitIndex)) = 2 ^ 52 + s.mantissa.toNat +
      if roundsUp (decideRounding x s.mantissaBitsUnset s.digitIndex s.currentDigit) s.mantissa then 1 else 0 := by
  have hmantissa := h.mantissa
  have hlower := h.lower
  rw [hc, show (-(c : ℤ)).toNat = 0 by omega, Int.neg_neg, Int.toNat_natCast, Nat.pow_zero, Nat.mul_one] at hmantissa
  rw [h.current, decideRounding, hc, if_neg (show ¬-(c : ℤ) > 0 by omega)]
  by_cases hpos : 0 < c
  · rw [if_pos (show -(c : ℤ) < 0 by omega), show (- -(c : ℤ) - 1).toNat = c - 1 by omega]
    exact decideRoundingAt_spec hpos (by omega) h.index hmantissa
  · obtain rfl : c = 0 := by omega
    rw [Nat.pow_zero, Nat.div_one] at hmantissa
    rw [if_neg (show ¬-((0 : Nat) : ℤ) < 0 by omega)]
    by_cases hindex : s.digitIndex = 0
    · rw [if_pos hindex, hmantissa, hindex, List.drop_zero, Nat.mul_zero, Nat.zero_add, Nat.pow_zero, roundQuot, Nat.mod_one,
        if_pos (by decide), Nat.div_one]
      rfl
    · obtain ⟨i, hi⟩ : ∃ i, s.digitIndex = i + 1 := ⟨s.digitIndex - 1, by omega⟩
      have hlt := h.index
      rw [hi] at hmantissa hlt
      have hdigit := value_drop_digit x.digits (show i < x.digits.length by rw [BigInt.length] at hlt; omega)
      rw [if_neg hindex, hi, Nat.add_sub_cancel, Nat.zero_add, Nat.mul_succ, Nat.add_comm]
      refine decideRoundingAt_spec t.kDigitBits_pos (le_refl _) (by omega) ?_
      rw [hmantissa, hdigit, Nat.add_comm (_ * _), Nat.add_mul_div_right _ _ (by positivity), Nat.div_eq_of_lt (BitVec.isLt _),
        Nat.zero_add]

theorem MantissaState.Holds.mantissa_lt {s : MantissaState} (h : s.Holds x) (hx : x.isZero = false) :
    s.mantissa.toNat < 2 ^ 52 := by
  obtain ⟨-, -, -, -, -, -, -, hlt⟩ := BigInt.bitlength_spec hx
  have hposition := h.position
  have hunset := h.unset_le hx
  have hdrop : value (x.digits.drop s.digitIndex) < 2 ^ (53 - s.mantissaBitsUnset).toNat := by
    rw [value_drop, Nat.div_lt_iff_lt_mul (by positivity), ← Nat.pow_add]
    exact hlt.trans_le (Nat.pow_le_pow_right (by decide) (by omega))
  have hbound : value (x.digits.drop s.digitIndex) * 2 ^ s.mantissaBitsUnset.toNat <
      2 ^ 53 * 2 ^ (-s.mantissaBitsUnset).toNat := by
    calc _ < 2 ^ (53 - s.mantissaBitsUnset).toNat * 2 ^ s.mantissaBitsUnset.toNat :=
          Nat.mul_lt_mul_of_pos_right hdrop (by positivity)
      _ = _ := two_pow_mul_two_pow (by omega)
  have := (Nat.div_lt_iff_lt_mul (by positivity)).2 hbound
  rw [← h.mantissa] at this
  omega

/-! ## The double -/

theorem toNat_infinityBits (sign : Bool) : (infinityBits sign).toNat = signedBits sign Binary64.infinity := by
  cases sign <;> decide +kernel

theorem toNat_assemble (sign : Bool) {exponent : Nat} {m : BitVec 64} (he : exponent ≤ 1023) (hm : m.toNat < 2 ^ 52) :
    (assemble sign exponent m).toNat = signedBits sign ((exponent + 0x3FF) * 2 ^ 52 + m.toNat) := by
  have hexponent : (BitVec.ofNat 64 (exponent + 0x3FF) <<< 52).toNat = 2 ^ 52 * (exponent + 0x3FF) := by
    rw [BitVec.toNat_shiftLeft, BitVec.toNat_ofNat, Nat.shiftLeft_eq]
    omega
  have hmantissa := Nat.two_pow_add_eq_or_of_lt hm (exponent + 0x3FF)
  have hsign := Nat.two_pow_add_eq_or_of_lt (show 2 ^ 52 * (exponent + 0x3FF) + m.toNat < 2 ^ 63 by omega) 1
  rw [assemble, BitVec.toNat_or, BitVec.toNat_or, kPhysicalSignificandSize, hexponent, Nat.or_assoc, ← hmantissa, signedBits]
  cases sign with
  | false => simp [Nat.mul_comm]
  | true =>
    rw [Nat.mul_one] at hsign
    rw [if_pos rfl, if_pos rfl, show (1#64 <<< 63).toNat = 2 ^ 63 by decide, ← hsign, Nat.mul_comm]

/-- The rounded mantissa at its exponent; an overflow of the mantissa or of the exponent is a carry. -/
theorem toDouble_bits (hx : x.isZero = false) (hle : x.bitlength ≤ 1024) {s : MantissaState}
    (hs : ((MantissaState.first x).takeDigit x).takeBits x = s) (h : s.Holds x) :
    (toDouble x).toNat = signedBits x.sign ((x.bitlength + 1021) * 2 ^ 52 + (2 ^ 52 + s.mantissa.toNat +
      if roundsUp (decideRounding x s.mantissaBitsUnset s.digitIndex s.currentDigit) s.mantissa then 1 else 0)) := by
  obtain ⟨topbit, -, -, hlength, -⟩ := BigInt.bitlength_spec hx
  have hlt := h.mantissa_lt hx
  unfold toDouble
  rw [if_neg (by simp [hx]), if_neg (by omega), hs]
  dsimp only
  generalize roundsUp _ s.mantissa = up
  have hsucc : (s.mantissa + 1#64).toNat = s.mantissa.toNat + 1 := by
    rw [BitVec.toNat_add, BitVec.toNat_ofNat]
    omega
  cases up with
  | false =>
    rw [if_neg (by decide), if_neg (by decide), toNat_assemble _ (by omega) hlt]
    exact congrArg (signedBits x.sign) (by omega)
  | true =>
    have hshift : (s.mantissa + 1#64) >>> kPhysicalSignificandSize ≠ 0#64 ↔ s.mantissa.toNat + 1 = 2 ^ 52 := by
      rw [Ne, ← BitVec.toNat_inj, kPhysicalSignificandSize, BitVec.toNat_ushiftRight, Nat.shiftRight_eq_div_pow, hsucc,
        BitVec.toNat_ofNat]
      omega
    rw [if_pos rfl, if_pos rfl]
    by_cases hcarry : s.mantissa.toNat + 1 = 2 ^ 52
    · rw [if_pos (hshift.2 hcarry)]
      split
      · rw [toNat_infinityBits, Binary64.infinity]
        exact congrArg (signedBits x.sign) (by omega)
      · rw [toNat_assemble _ (by omega) (by decide), BitVec.toNat_ofNat]
        exact congrArg (signedBits x.sign) (by omega)
    · rw [if_neg (mt hshift.1 hcarry), toNat_assemble _ (by omega) (by omega), hsucc]
      exact congrArg (signedBits x.sign) (by omega)

/-- A number that fits the mantissa is kept. -/
theorem rounds_of_unset {s : MantissaState} (h : s.Holds x) (hlt : s.mantissa.toNat < 2 ^ 52)
    (hunset : 0 < s.mantissaBitsUnset) (hindex : s.digitIndex = 0) :
    Rounds (value x.digits : ℚ) ((x.bitlength + 1021) * 2 ^ 52 + (2 ^ 52 + s.mantissa.toNat +
      if roundsUp (decideRounding x s.mantissaBitsUnset s.digitIndex s.currentDigit) s.mantissa then 1 else 0)) := by
  have hposition := h.position
  rw [hindex] at hposition
  have hmantissa := h.mantissa
  obtain ⟨u, hu⟩ := Int.eq_ofNat_of_zero_le hunset.le
  rw [hu, Int.toNat_natCast, show (-(u : ℤ)).toNat = 0 by omega, Nat.pow_zero, Nat.div_one, hindex, List.drop_zero] at hmantissa
  have hvalue : Binary64.value ((x.bitlength + 1021) * 2 ^ 52 + (2 ^ 52 + s.mantissa.toNat)) = value x.digits := by
    have hunit : Binary64.unitBits = u + (x.bitlength + 1021) := by
      unfold Binary64.unitBits
      omega
    rw [Binary64.value, Binary64.units_add (by omega) (Or.inr (by omega)), hmantissa, hunit, Nat.mul_assoc, ← Nat.pow_add,
      div_eq_iff (by positivity)]
    push_cast
    rfl
  rw [decideRounding, if_pos hunset]
  simp only [roundsUp, reduceCtorEq, false_and, or_self, decide_false, Bool.false_eq_true, if_false, Nat.add_zero]
  rw [← hvalue]
  refine Binary64.rounds_value ?_
  unfold Binary64.infinity
  omega

/-- The rounded quotient at its exponent is the nearest double. -/
theorem rounds_of_bitlength {N e bitlength : Nat} (he : bitlength = 53 + e) (hle : bitlength ≤ 1024)
    (hlow : 2 ^ (bitlength - 1) ≤ N) (hhigh : N < 2 ^ bitlength) :
    Rounds (N : ℚ) ((bitlength + 1021) * 2 ^ 52 + roundQuot N (2 ^ e)) := by
  have hdivlow : 2 ^ 52 ≤ N / 2 ^ e := by
    rw [Nat.le_div_iff_mul_le (by positivity), ← Nat.pow_add, show 52 + e = bitlength - 1 by omega]
    exact hlow
  have hdivhigh : N / 2 ^ e < 2 ^ 53 := by
    rw [Nat.div_lt_iff_lt_mul (by positivity), ← Nat.pow_add, ← he]
    exact hhigh
  have hquot := Binary64.roundQuot_le_succ N (2 ^ e)
  have hrounds := Binary64.rounds_round N Nat.one_pos
  have hbits : (Binary64.unitBits + e) * 2 ^ 52 = (bitlength + 1021) * 2 ^ 52 := by
    unfold Binary64.unitBits
    omega
  rw [Binary64.round_of_bits hdivlow hdivhigh, hbits, Nat.min_eq_right, Nat.cast_one, div_one] at hrounds
  · exact hrounds
  · unfold Binary64.infinity
    omega

/-- The bits of `ToDouble` are those of the rounded magnitude, with the sign. -/
theorem toDouble_rounds (x : BigInt t) : ∃ b, (toDouble x).toNat = signedBits x.sign b ∧ Rounds (value x.digits : ℚ) b := by
  cases hx : x.isZero with
  | true =>
    have hnil : x.digits = [] := by simpa [BigInt.isZero, BigInt.length] using hx
    have hrounds := Binary64.rounds_value (Nat.zero_le Binary64.infinity)
    rw [Binary64.value_zero] at hrounds
    refine ⟨0, ?_, by simpa [hnil] using hrounds⟩
    simp [toDouble, hx, signedBits, x.sign_of_zero hnil]
  | false =>
    obtain ⟨-, -, -, -, -, -, hlow, hhigh⟩ := BigInt.bitlength_spec hx
    by_cases hle : x.bitlength ≤ 1024
    · obtain ⟨s, hs, h, hroom⟩ := mantissaState_holds hx
      have hlt := h.mantissa_lt hx
      have hposition := h.position
      refine ⟨_, toDouble_bits hx hle hs h, ?_⟩
      rcases Int.lt_or_le 0 s.mantissaBitsUnset with hunset | hunset
      · exact rounds_of_unset h hlt hunset (by omega)
      · obtain ⟨c, hc⟩ : ∃ c : Nat, s.mantissaBitsUnset = -(c : ℤ) := ⟨(-s.mantissaBitsUnset).toNat, by omega⟩
        rw [← decideRounding_spec h hc]
        exact rounds_of_bitlength (by omega) hle hlow hhigh
    · refine ⟨Binary64.infinity, ?_, Binary64.rounds_infinity ?_⟩
      · rw [toDouble, if_neg (by simp [hx]), if_pos (by omega), toNat_infinityBits]
      · have hpow : ∀ k < x.bitlength, (2 : ℚ) ^ k ≤ value x.digits := fun k hk => by
          exact_mod_cast (Nat.pow_le_pow_right (by decide) (by omega)).trans hlow
        exact Double.value_infinity.trans_le (hpow 1024 (by omega))

/-- Numbers from half way between the largest finite double and `2 ^ 1024` on become infinite. -/
theorem rounds_infinity_iff {N b : Nat} (h : Rounds (N : ℚ) b) :
    b = Binary64.infinity ↔ 2 ^ 1024 - 2 ^ 970 ≤ N := by
  obtain ⟨c, hc⟩ : ∃ c, c = 2045 * 2 ^ 52 + (2 ^ 53 - 1) := ⟨_, rfl⟩
  have hinf : Binary64.infinity = c + 1 := by
    unfold Binary64.infinity
    omega
  have hmid : Binary64.twiceMid c = ((2 ^ 54 - 1) * (2 * 2 ^ 970) : Nat) := by
    have hnext : c + 1 = 2045 * 2 ^ 52 + 2 ^ 53 := by omega
    have hunit : ∀ k, 2 ^ (k + 1 + Binary64.unitBits) = 2 * 2 ^ k * 2 ^ Binary64.unitBits := fun k => by
      rw [Nat.pow_add, Nat.pow_succ']
    rw [Binary64.twiceMid, Binary64.value, Binary64.value, hnext, hc, Binary64.units_add (by decide) (Or.inr (by decide)),
      Binary64.units_add (le_refl _) (Or.inr (by decide)), ← add_div,
      show 2045 = 970 + 1 + Binary64.unitBits from rfl, hunit, div_eq_iff (by positivity)]
    generalize 2 ^ 970 = p
    push_cast
    ring
  have hsplit : 2 ^ 1024 = 2 ^ 54 * 2 ^ 970 := by rw [← Nat.pow_add]
  have hiff : Binary64.twiceMid c ≤ 2 * N ↔ 2 ^ 1024 - 2 ^ 970 ≤ N := by
    rw [hmid, hsplit]
    generalize 2 ^ 970 = p
    have hcast : (2 : ℚ) * N = (2 * N : Nat) := by push_cast; rfl
    rw [hcast, Nat.cast_le]
    omega
  rw [← hiff]
  constructor
  · intro hb
    exact h.lower_le (by omega)
  · intro hle
    refine Nat.le_antisymm h.le_infinity (Nat.le_of_not_lt fun hlt => ?_)
    rcases Nat.lt_or_eq_of_le (show b ≤ c by omega) with hbc | rfl
    · have := Binary64.twiceMid_strictMono hbc
      linarith [h.upper_le hlt]
    · rcases h.upper hlt with hmore | ⟨-, heven⟩
      · linarith
      · rw [Nat.even_iff] at heven
        omega

end Round

/-! ## Integral doubles to BigInts -/

/-- The digits below the most significant one, from the top. -/
def mantissaDigits (t : Target) : Nat → MantissaBits → List (BitVec t.kDigitBits)
  | 0, _ => []
  | k + 1, s => (s.next t).1 :: mantissaDigits t k (s.next t).2

/-- `NewFromDouble(value)` for the integral values, which meet its assertions. -/
def newFromDouble (doubleBits : BitVec 64) : Except Fault (BigInt t) :=
  let number := Double.ofBits doubleBits
  if number.toRat = 0 then .ok (BigInt.zero t)
  else do
    let exponent := rawExponent doubleBits - 0x3FF
    let digits := exponent / t.kDigitBits + 1
    let result ← MutableBigInt.newBigInt digits
    let first := firstMantissaDigit t (mantissaOf doubleBits) (exponent % t.kDigitBits)
    result.finish (number.toRat < 0) (first.1 :: mantissaDigits t (digits - 1) first.2).reverse

theorem length_mantissaDigits (k : Nat) (s : MantissaBits) : (mantissaDigits t k s).length = k := by
  induction k generalizing s with
  | zero => rfl
  | succ k ih => rw [mantissaDigits, List.length_cons, ih]

/-- The digits are the whole part of the mantissa at their position. -/
theorem value_mantissaDigits (k : Nat) {s : MantissaBits} (h : s.Aligned) : ∃ rest < 2 ^ 64,
    value (mantissaDigits t k s).reverse * 2 ^ 64 + rest = s.mantissa.toNat * 2 ^ (t.kDigitBits * k) := by
  induction k generalizing s with
  | zero => exact ⟨s.mantissa.toNat, s.mantissa.isLt, by simp [mantissaDigits]⟩
  | succ k ih =>
    obtain ⟨hnext, haligned⟩ := MantissaBits.next_spec (t := t) h
    obtain ⟨rest, hrest, heq⟩ := ih haligned
    refine ⟨rest, hrest, ?_⟩
    rw [mantissaDigits, List.reverse_cons, value_concat, List.length_reverse, length_mantissaDigits, Nat.mul_succ, Nat.pow_add,
      Nat.mul_comm (2 ^ (t.kDigitBits * k)) (2 ^ t.kDigitBits), ← Nat.mul_assoc, ← hnext,
      Nat.add_mul ((s.next t).1.toNat * 2 ^ 64), ← heq]
    ring

/-- The digits of a mantissa whose exponent makes it an integer. -/
theorem value_digits {M : BitVec 64} (hM : M.toNat < 2 ^ 53) {e N : Nat} (h : M.toNat * 2 ^ (e + 12) = N * 2 ^ 64) :
    let first := firstMantissaDigit t M (e % t.kDigitBits)
    value (first.1 :: mantissaDigits t (e / t.kDigitBits) first.2).reverse = N := by
  intro first
  obtain ⟨hfirst, haligned⟩ := firstMantissaDigit_spec hM (Nat.mod_lt e t.kDigitBits_pos)
  obtain ⟨rest, hrest, heq⟩ := value_mantissaDigits (t := t) (e / t.kDigitBits) haligned
  have hposition : e + 12 = e % t.kDigitBits + 12 + t.kDigitBits * (e / t.kDigitBits) := by
    have := Nat.mod_add_div e t.kDigitBits
    omega
  rw [hposition, Nat.pow_add, ← Nat.mul_assoc, ← hfirst, Nat.add_mul, ← heq] at h
  rw [List.reverse_cons, value_concat, List.length_reverse, length_mantissaDigits]
  generalize value (mantissaDigits t (e / t.kDigitBits) first.2).reverse = low at *
  have hscaled : (low + 2 ^ (t.kDigitBits * (e / t.kDigitBits)) * first.1.toNat) * 2 ^ 64 + rest = N * 2 ^ 64 := by
    rw [← h]
    ring
  omega

/-- A double that is an integer. -/
structure IntegralDouble where
  bits : BitVec 64
  number : ℤ
  isInt : (Double.ofBits bits).IsInt number

theorem toNat_msb (y : BitVec 64) : y.toNat = signedBits y.msb (y.toNat % 2 ^ 63) := by
  have hlt := y.isLt
  rw [signedBits, BitVec.msb_eq_decide]
  by_cases h : 2 ^ (64 - 1) ≤ y.toNat
  · simp only [h, decide_true, if_true]
    omega
  · simp only [h, decide_false, Bool.false_eq_true, if_false]
    omega

/-- Its magnitude, and the sign where it has one. -/
theorem IntegralDouble.fields (v : IntegralDouble) : ∃ b, b = v.bits.toNat % 2 ^ 63 ∧ b < Binary64.infinity ∧
    Binary64.value b = v.number.natAbs ∧ (v.number ≠ 0 → v.bits.msb = decide (v.number < 0)) := by
  have hint := v.isInt
  unfold Double.ofBits at hint
  split at hint
  · obtain ⟨hlt, hvalue⟩ := Double.value_of_isInt hint
    refine ⟨_, rfl, hlt, hvalue, fun hne => ?_⟩
    have hrat := hint.2
    have hpos : (0 : ℚ) < v.number.natAbs := by exact_mod_cast Int.natAbs_pos.2 hne
    rw [Double.toRat, hvalue] at hrat
    cases hsign : v.bits.msb with
    | false =>
      have : (0 : ℚ) < v.number := by rw [← hrat, hsign]; exact hpos
      simpa using (Int.cast_pos.1 this).le
    | true =>
      have : (v.number : ℚ) < 0 := by rw [← hrat, hsign]; simpa using hpos
      simpa using Int.cast_lt_zero.1 this
  · exact absurd hint.1 (by simp [Double.isFinite])

theorem IntegralDouble.exponent_le (v : IntegralDouble) (hne : (v.number : ℚ) ≠ 0) :
    0x3FF ≤ v.bits.toNat % 2 ^ 63 / 2 ^ 52 := by
  obtain ⟨b, hb, -, hvalue, -⟩ := v.fields
  refine Nat.le_of_not_lt fun hlt => ?_
  rw [← hb] at hlt
  have hunits : (Binary64.units b : ℚ) < 2 ^ Binary64.unitBits := by exact_mod_cast units_lt_of_exponent hlt
  have hone : Binary64.value b < 1 := (div_lt_one (by positivity)).2 hunits
  rw [hvalue] at hone
  have : v.number.natAbs < 1 := by exact_mod_cast hone
  exact hne (by exact_mod_cast Int.natAbs_eq_zero.1 (by omega))

theorem newFromDouble_returns (v : IntegralDouble) : Returns (newFromDouble v.bits : Except Fault (BigInt t)) v.number := by
  obtain ⟨b, hb, hinf, hvalue, -⟩ := v.fields
  have hrat := v.isInt.2
  unfold newFromDouble
  dsimp only
  rw [hrat]
  by_cases hzero : (v.number : ℚ) = 0
  · rw [if_pos hzero]
    exact ⟨_, rfl, by rw [BigInt.toInt_zero]; exact_mod_cast hzero.symm⟩
  · obtain ⟨e, he⟩ := Nat.exists_eq_add_of_le (v.exponent_le hzero)
    have hexponent : rawExponent v.bits - 0x3FF = e := by
      rw [rawExponent_eq, he]
      omega
    rw [← hb] at he
    have hlength : e / t.kDigitBits + 1 ≤ kMaxLength t := by
      have hsmall : e ≤ 1023 := by
        unfold Binary64.infinity at hinf
        omega
      have hw := kDigitBits_le t
      have := Nat.div_le_div hsmall hw.1 (by decide)
      cases t <;> simp [kMaxLength, kMaxLengthBits, Target.kDigitBits] at this ⊢ <;> omega
    rw [if_neg hzero, hexponent, MutableBigInt.newBigInt_eq hlength, Nat.add_sub_cancel]
    refine MutableBigInt.new_finish ⟨?_, ?_⟩ hlength fun h => absurd h (Nat.succ_ne_zero _)
    · have hexact : (mantissaOf v.bits).toNat * 2 ^ (e + 12) = v.number.natAbs * 2 ^ 64 := by
        have := value_of_exponent he
        rw [hvalue, hb, ← mantissaOf_eq] at this
        exact_mod_cast this
      have hdigits := @value_digits t _ (by rw [mantissaOf_eq]; omega) _ _ hexact
      simp only [signedValue, hdigits, decide_eq_true_eq, Int.cast_lt_zero]
      split <;> omega
    · rw [List.length_reverse, List.length_cons, length_mantissaDigits]

theorem ofBits_signedBits {y : BitVec 64} {sign : Bool} {b : Nat} (h : y.toNat = signedBits sign b)
    (hb : b ≤ Binary64.infinity) : Double.ofBits y = .number sign b hb := by
  have hlt : b < 2 ^ 63 := hb.trans_lt (by decide)
  have hmod : y.toNat % 2 ^ 63 = b := by
    rw [h, signedBits]
    split <;> omega
  have hmsb : y.msb = sign := by
    rw [BitVec.msb_eq_decide, h, signedBits]
    cases sign
    · simpa using hlt
    · simp
  unfold Double.ofBits
  rw [dif_pos (hmod ▸ hb)]
  simp only [hmod, hmsb]

theorem toDouble_newFromDouble (v : IntegralDouble) : ∃ x : BigInt t, newFromDouble v.bits = .ok x ∧
    toDouble x = if v.bits = 0x8000000000000000#64 then 0#64 else v.bits := by
  obtain ⟨x, hx, hint⟩ := newFromDouble_returns (t := t) v
  obtain ⟨b, hb, hinf, hvalue, hsign⟩ := v.fields
  obtain ⟨c, hbits, hrounds⟩ := toDouble_rounds x
  refine ⟨x, hx, ?_⟩
  rw [← x.natAbs_toInt, hint, ← hvalue] at hrounds
  obtain rfl : c = b := hrounds.unique (Binary64.rounds_value hinf.le)
  have hxsign : x.sign = decide (v.number < 0) := by
    rw [← hint, Bool.eq_iff_iff, decide_eq_true_eq, x.toInt_neg_iff]
  rw [← BitVec.toNat_inj, hbits]
  have hmsb := toNat_msb v.bits
  rw [← hb] at hmsb
  by_cases hzero : v.number = 0
  · obtain rfl : c = 0 := Binary64.value_strictMono.injective (by rw [hvalue, hzero, Binary64.value_zero]; rfl)
    rw [hxsign, hzero]
    split
    · rfl
    · rename_i hne
      have hpositive : v.bits.msb = false := by
        refine Bool.eq_false_of_not_eq_true fun h => hne (BitVec.toNat_inj.1 ?_)
        rw [hmsb, h]
        rfl
      rw [hmsb, hpositive]
      rfl
  · have hne : v.bits ≠ 0x8000000000000000#64 := by
      intro h
      rw [h] at hb
      obtain rfl : c = 0 := hb
      rw [Binary64.value_zero] at hvalue
      exact hzero (Int.natAbs_eq_zero.1 (by exact_mod_cast hvalue.symm))
    rw [if_neg hne, hmsb, hsign hzero, hxsign]

/-- `ToDouble` rounds to the nearest double, ties to even, with infinity in the place of
`2 ^ 1024`; and an integral double survives `NewFromDouble`, but for the sign of a zero. -/
theorem toDouble_spec (t : Target) :
    (∀ x : BigInt t, ∃ b h, Double.ofBits (toDouble x) = .number x.sign b h ∧
      Binary64.IsNearest (x.toInt.natAbs : ℚ) b ∧
      (b = Binary64.infinity ↔ 2 ^ 1024 - 2 ^ 970 ≤ x.toInt.natAbs)) ∧
    ∀ v : IntegralDouble, ∃ x : BigInt t, newFromDouble v.bits = .ok x ∧
      toDouble x = if v.bits = 0x8000000000000000#64 then 0#64 else v.bits := by
  refine ⟨fun x => ?_, toDouble_newFromDouble⟩
  obtain ⟨b, hbits, hrounds⟩ := toDouble_rounds x
  rw [x.natAbs_toInt]
  exact ⟨b, hrounds.le_infinity, ofBits_signedBits hbits hrounds.le_infinity, hrounds.isNearest,
    rounds_infinity_iff hrounds⟩

end V8Core.Objects
