import Mathlib.Data.Nat.Init
import Mathlib.Algebra.Order.Ring.Nat
import Mathlib.Algebra.Order.Ring.Int
import Mathlib.Algebra.Order.Group.Nat
import Mathlib.Tactic.Ring
import Mathlib.Tactic.Zify
import Mathlib.Data.Int.Basic
/-!
# Words under shifts and masks

Facts about bit vectors of any width that a compiler uses when it moves shifts and
masks past each other: shifts that lose nothing, masks that clear low bits, tests of
some of a word's bits, and the order of words shifted alike.
-/

namespace WordFacts

variable {w : Nat}
variable {n : Nat} {x : BitVec w} {k : Nat}

theorem getLsbD_of_dvd {i : Nat} (h : 2 ^ k ∣ x.toNat) (hi : i < k) : x.getLsbD i = false := by
  obtain ⟨q, hq⟩ := h
  rw [BitVec.getLsbD, hq, Nat.testBit_two_pow_mul]
  simp [Nat.not_le.2 hi]

/-- Shifting right past zeros loses nothing. -/
theorem shl_sshr_of_dvd (h : 2 ^ k ∣ x.toNat) : x.sshiftRight k <<< k = x := by
  refine BitVec.eq_of_getLsbD_eq fun i hi => ?_
  rw [BitVec.getLsbD_shiftLeft, BitVec.getLsbD_sshiftRight]
  rcases Nat.lt_or_ge i k with hlt | hge
  · simp [hlt, getLsbD_of_dvd h hlt]
  · simp [hi, Nat.not_lt.2 hge, show k + (i - k) = i by omega]
    omega

/-- The sign bit in all places. -/
theorem sshiftRight_sign (a : BitVec w) :
    a.sshiftRight (w - 1) = if a.toInt < 0 then BitVec.allOnes w else 0#w := by
  have hlo := BitVec.le_toInt (x := a)
  have hhi := BitVec.toInt_lt (x := a)
  rw [BitVec.sshiftRight, Int.shiftRight_eq_div_pow, Nat.cast_pow, Nat.cast_ofNat]
  split
  · rw [Int.ediv_eq_neg_one_of_neg_of_le (by assumption) (by omega), ← BitVec.neg_one_eq_allOnes, BitVec.ofInt_neg]
    rfl
  · rw [Int.ediv_eq_zero_of_lt (by omega) hhi]
    rfl

theorem toNat_shl_dvd (x : BitVec w) (k : Nat) (hk : k ≤ w) : 2 ^ k ∣ (x <<< k).toNat := by
  rw [BitVec.toNat_shiftLeft, Nat.shiftLeft_eq]
  exact (Nat.dvd_mod_iff (Nat.pow_dvd_pow 2 hk)).2 (Nat.dvd_mul_left _ _)

theorem setWidth_signExtend (x : BitVec w) {v : Nat} (h : w ≤ v) : (x.signExtend v).setWidth w = x := by
  refine BitVec.eq_of_getLsbD_eq fun i hi => ?_
  rw [BitVec.getLsbD_setWidth, BitVec.getLsbD_signExtend]
  simp [hi, show i < v by omega]

/-! ## Masks that clear low bits -/

/-- `mask` clears the lowest `L` bits. -/
structure ClearsLow (mask : BitVec w) (L : Nat) : Prop where
  lt : L < w
  toNat_eq : mask.toNat = 2 ^ w - 2 ^ L

variable {mask : BitVec w} {L : Nat}

section
variable (h : ClearsLow mask L)
include h

theorem ClearsLow.eq_shl : mask = BitVec.allOnes w <<< L := by
  have hw := h.lt
  refine BitVec.toNat_inj.1 ?_
  rw [h.toNat_eq, BitVec.toNat_shiftLeft, BitVec.toNat_allOnes, Nat.shiftLeft_eq]
  -- modulo the word size, `(2 ^ w - 1) * 2 ^ L` is `2 ^ w - 2 ^ L`
  have hL : 2 ^ L ≤ 2 ^ w := Nat.pow_le_pow_right (by omega) hw.le
  have hone : 1 ≤ 2 ^ L := Nat.one_le_two_pow
  have hsplit : (2 ^ w - 1) * 2 ^ L = (2 ^ L - 1) * 2 ^ w + (2 ^ w - 2 ^ L) := by
    zify [hone, hL, Nat.one_le_two_pow (n := w)]
    ring
  rw [hsplit, Nat.mul_add_mod_self_right, Nat.mod_eq_of_lt]
  omega

theorem ClearsLow.getLsbD (i : Nat) : mask.getLsbD i = (decide (L ≤ i) && decide (i < w)) := by
  rw [h.eq_shl, BitVec.getLsbD_shiftLeft]
  rcases Nat.lt_or_ge i L with hi | hi
  · simp [hi]
  · simp [hi, Nat.not_lt.2 hi]
    omega

theorem ClearsLow.toNat_and (x : BitVec w) : (x &&& mask).toNat = x.toNat / 2 ^ L * 2 ^ L := by
  rw [h.eq_shl, ← BitVec.shiftLeft_ushiftRight, BitVec.toNat_shiftLeft, BitVec.toNat_ushiftRight, Nat.shiftLeft_eq,
    Nat.shiftRight_eq_div_pow]
  exact Nat.mod_eq_of_lt (lt_of_le_of_lt (Nat.div_mul_le_self _ _) x.isLt)

/-- Clearing low bits subtracts them. -/
theorem ClearsLow.and_eq_sub (x : BitVec w) :
    x &&& mask = x - BitVec.ofNat w (x.toNat % 2 ^ L) := by
  have hx := x.isLt
  have hle : x.toNat % 2 ^ L ≤ x.toNat := Nat.mod_le _ _
  refine BitVec.toNat_inj.1 ?_
  rw [h.toNat_and, BitVec.toNat_sub, BitVec.toNat_ofNat, Nat.mod_eq_of_lt (lt_of_le_of_lt hle hx),
    show 2 ^ w - x.toNat % 2 ^ L + x.toNat = (x.toNat - x.toNat % 2 ^ L) + 2 ^ w by omega, Nat.add_mod_right,
    Nat.mod_eq_of_lt (by omega)]
  have := Nat.div_add_mod' x.toNat (2 ^ L)
  omega

/-- What the mask keeps are the multiples of `2 ^ L`. -/
theorem ClearsLow.and_eq_self_iff (x : BitVec w) : x &&& mask = x ↔ 2 ^ L ∣ x.toNat := by
  rw [← BitVec.toNat_inj, h.toNat_and, Nat.dvd_iff_div_mul_eq]

/-- Adding a multiple of `2 ^ L` commutes with clearing the low bits. -/
theorem ClearsLow.add_and (x k : BitVec w) (hk : 2 ^ L ∣ k.toNat) :
    (x + k) &&& mask = (x &&& mask) + k := by
  have hmod : (x + k).toNat % 2 ^ L = x.toNat % 2 ^ L := by
    rw [BitVec.toNat_add, Nat.mod_mod_of_dvd _ (Nat.pow_dvd_pow 2 h.lt.le), Nat.add_mod, Nat.mod_eq_zero_of_dvd hk]
    simp
  rw [h.and_eq_sub, h.and_eq_sub, hmod, BitVec.sub_eq_add_neg, BitVec.sub_eq_add_neg, BitVec.add_assoc,
    BitVec.add_comm k, BitVec.add_assoc]

end

theorem dvd_toNat_mul (x k : BitVec w) (hL : L ≤ w) (hk : 2 ^ L ∣ k.toNat) : 2 ^ L ∣ (x * k).toNat := by
  rw [BitVec.toNat_mul]
  exact (Nat.dvd_mod_iff (Nat.pow_dvd_pow 2 hL)).2 (Dvd.dvd.mul_left hk _)

theorem dvd_toInt_iff (x : BitVec w) (hL : L ≤ w) : (2 ^ L : ℤ) ∣ x.toInt ↔ 2 ^ L ∣ x.toNat := by
  have hpow : (2 ^ L : ℤ) ∣ ((2 ^ w : ℕ) : ℤ) := by
    rw [Nat.cast_pow]; exact pow_dvd_pow 2 hL
  rw [BitVec.toInt_eq_toNat_cond, ← Int.natCast_dvd_natCast]
  split
  · rfl
  · exact ⟨fun h => by simpa using Int.dvd_add h hpow, fun h => Int.dvd_sub h hpow⟩

theorem ClearsLow.ctz_eq (h : ClearsLow mask L) : mask.ctz.toNat = L := by
  have hne : mask ≠ 0#w := by
    rintro rfl
    have hbit := h.getLsbD L
    simp [h.lt] at hbit
  have htrue := BitVec.getLsbD_true_ctz_of_ne_zero hne
  rw [h.getLsbD, Bool.and_eq_true, decide_eq_true_eq] at htrue
  refine Nat.le_antisymm ?_ htrue.1
  by_contra hlt
  have hfalse := BitVec.getLsbD_false_of_lt_ctz (Nat.lt_of_not_le hlt)
  rw [h.getLsbD] at hfalse
  simp [h.lt] at hfalse

theorem toNat_pos_of_ne_zero (h : x ≠ 0#w) : 0 < x.toNat :=
  Nat.pos_of_ne_zero fun h0 => h (BitVec.toNat_inj.1 (by simpa using h0))

theorem toNat_sub_one (h : x ≠ 0#w) : (x - 1#w).toNat = x.toNat - 1 := by
  have hpos := toNat_pos_of_ne_zero h
  have hw : 1 < 2 ^ w := by omega
  rw [BitVec.toNat_sub, BitVec.toNat_ofNat, Nat.mod_eq_of_lt hw,
    show 2 ^ w - 1 + x.toNat = (x.toNat - 1) + 2 ^ w by omega, Nat.add_mod_right, Nat.mod_eq_of_lt (by omega)]

/-- `x & (x - 1) == 0` tells the powers of two among the nonzero words. -/
theorem exists_pow_of_and_sub_one (hne : x ≠ 0#w) (h : x &&& (x - 1#w) = 0#w) : ∃ L, x.toNat = 2 ^ L := by
  have hn := congrArg BitVec.toNat h
  rw [BitVec.toNat_and, toNat_sub_one hne, BitVec.toNat_ofNat] at hn
  exact (Nat.and_sub_one_eq_zero_iff_isPowerOfTwo (toNat_pos_of_ne_zero hne).ne').1 hn

theorem ne_zero_of_toNat (h : x.toNat = 2 ^ L) : x ≠ 0#w := by
  rintro rfl
  have := Nat.two_pow_pos L
  simp at h
  omega

theorem ctz_of_toNat (h : x.toNat = 2 ^ L) : x.ctz.toNat = L := by
  have hbit := BitVec.getLsbD_true_ctz_of_ne_zero (ne_zero_of_toNat h)
  rw [BitVec.getLsbD, h, Nat.testBit_two_pow, decide_eq_true_eq] at hbit
  exact hbit.symm

/-- Multiplying by a power of two is shifting by its number of trailing zeros. -/
theorem mul_eq_shl_ctz (y : BitVec w) (hne : x ≠ 0#w) (h : x &&& (x - 1#w) = 0#w) :
    y * x = y <<< (x.ctz.toNat % w) := by
  obtain ⟨L, hL⟩ := exists_pow_of_and_sub_one hne h
  have hlt : L < w := (Nat.pow_lt_pow_iff_right (by decide)).1 (hL ▸ x.isLt)
  have hx : x = BitVec.twoPow w L := BitVec.eq_of_toNat_eq (by
    rw [hL, BitVec.toNat_twoPow, Nat.mod_eq_of_lt (hL ▸ x.isLt)])
  rw [ctz_of_toNat hL, Nat.mod_eq_of_lt hlt, hx, BitVec.shiftLeft_eq_mul_twoPow]

/-- A negative power of two, as a matcher recognises it, clears low bits. How many is its number of
trailing zeros. -/
theorem clearsLow_of_negative_power (hneg : mask.slt 0#w = true)
    (hpow : mask = BitVec.intMin w ∨ -mask &&& (-mask - 1#w) = 0#w) : ClearsLow mask mask.ctz.toNat := by
  have hne : mask ≠ 0#w := by
    rintro rfl
    simp [BitVec.slt] at hneg
  have hpos := toNat_pos_of_ne_zero hne
  have hneg' : (-mask).toNat = 2 ^ w - mask.toNat := by
    rw [BitVec.toNat_neg, Nat.mod_eq_of_lt (by omega)]
  have hex : ∃ L, (-mask).toNat = 2 ^ L := by
    rcases hpow with rfl | hpow
    · refine ⟨w - 1, ?_⟩
      rw [BitVec.neg_intMin, BitVec.toNat_intMin, Nat.mod_eq_of_lt]
      exact Nat.pow_lt_pow_right (by omega) (by
        rcases Nat.eq_zero_or_pos w with rfl | hw
        · exact absurd (BitVec.of_length_zero) hne
        · omega)
    · exact exists_pow_of_and_sub_one (by simpa using hne) hpow
  obtain ⟨L, hL⟩ := hex
  have hclear : ClearsLow mask L := by
    refine ⟨(Nat.pow_lt_pow_iff_right (by omega : 1 < 2)).1 (by omega), by omega⟩
  rw [hclear.ctz_eq]
  exact hclear

/-- A multiple of a power of two, as a matcher tests it by a signed remainder. -/
theorem ClearsLow.dvd_of_srem (h : ClearsLow mask L) {k : BitVec w} (hk : k.srem (-mask) = 0#w) : 2 ^ L ∣ k.toNat := by
  have hwlt := h.lt
  have hpow : 2 ^ L ≤ 2 ^ w := Nat.pow_le_pow_right (by omega) hwlt.le
  have hneg : (-mask).toNat = 2 ^ L := by
    have hlt : 2 ^ L < 2 ^ w := Nat.pow_lt_pow_right (by omega) hwlt
    rw [BitVec.toNat_neg, h.toNat_eq, Nat.sub_sub_self hpow, Nat.mod_eq_of_lt hlt]
  have hint := congrArg BitVec.toInt hk
  rw [BitVec.toInt_srem, BitVec.toInt_zero] at hint
  have hdvd : (-mask).toInt ∣ k.toInt := Int.dvd_of_tmod_eq_zero hint
  refine (dvd_toInt_iff k hwlt.le).1 (dvd_trans ?_ hdvd)
  exact (dvd_toInt_iff (-mask) hwlt.le).2 (by rw [hneg])

/-! ## Shifts after shifts -/

theorem shl_sshiftRight (x : BitVec w) (k : Nat) : x.sshiftRight k <<< k = x &&& BitVec.allOnes w <<< k := by
  rw [← BitVec.shiftLeft_ushiftRight]
  refine BitVec.eq_of_getLsbD_eq fun i hi => ?_
  rw [BitVec.getLsbD_shiftLeft, BitVec.getLsbD_shiftLeft, BitVec.getLsbD_sshiftRight, BitVec.getLsbD_ushiftRight]
  rcases Nat.lt_or_ge i k with hlt | hge
  · simp [hlt]
  · rw [show k + (i - k) = i by omega]
    simp [hi, Nat.not_lt.2 hge]
    omega

/-- Shifting right past zeros and back by less. -/
theorem shl_sshr_of_le {l : Nat} (h : 2 ^ k ∣ x.toNat) (hl : l ≤ k) :
    x.sshiftRight k <<< l = x.sshiftRight (k - l) := by
  refine BitVec.eq_of_getLsbD_eq fun i hi => ?_
  rw [BitVec.getLsbD_shiftLeft, BitVec.getLsbD_sshiftRight, BitVec.getLsbD_sshiftRight]
  rcases Nat.lt_or_ge i l with hlt | hge
  · rcases Nat.lt_or_ge (k - l + i) w with hw | hw
    · rw [if_pos hw, getLsbD_of_dvd h (show k - l + i < k by omega)]
      simp [hlt]
    · -- past the end, the sign is one of the zeros
      have hmsb : x.msb = false := by
        rw [BitVec.msb_eq_getLsbD_last]
        exact getLsbD_of_dvd h (by omega)
      simp [hlt, hi, Nat.not_lt.2 hw, hmsb]
  · rw [show k + (i - l) = k - l + i by omega]
    simp [hi, Nat.not_lt.2 hge, show ¬ w ≤ i - l by omega]

/-- Shifting right past zeros and back by more. -/
theorem shl_sshr_of_ge {l : Nat} (h : 2 ^ k ∣ x.toNat) (hl : k ≤ l) : x.sshiftRight k <<< l = x <<< (l - k) := by
  conv_rhs => rw [← shl_sshr_of_dvd h]
  rw [← BitVec.shiftLeft_add, show k + (l - k) = l by omega]

theorem ushiftRight_and_eq_zero {m : BitVec w} {s : Nat} (h : m >>> s = 0#w) : (x &&& m) >>> s = 0#w := by
  rw [BitVec.ushiftRight_and_distrib, h, BitVec.and_zero]

/-- Shifting out and back all but `n` bits sign-extends them. -/
theorem sshiftRight_shl_signExtend (x : BitVec w) (hn : 0 < n) (hw : n ≤ w) :
    (x <<< (w - n)).sshiftRight (w - n) = (x.setWidth n).signExtend w := by
  refine BitVec.eq_of_getLsbD_eq fun i hi => ?_
  rw [BitVec.getLsbD_sshiftRight, BitVec.getLsbD_signExtend, BitVec.msb_eq_getLsbD_last, BitVec.msb_eq_getLsbD_last,
    BitVec.getLsbD_shiftLeft, BitVec.getLsbD_shiftLeft, BitVec.getLsbD_setWidth]
  rcases Nat.lt_or_ge i n with hlt | hge
  · simp [hi, hlt, show w - n + i < w by omega]
  · rw [if_neg (by omega), if_neg (by omega), show w - 1 - (w - n) = n - 1 by omega]
    simp [hi, show w - 1 < w by omega, show n - 1 < n by omega, show ¬ w - 1 < w - n by omega]

/-- Amounts of shifts that meet. -/
theorem mod_add_mod_eq {a b : Nat} (hw : 0 < w) (h : (a + b) % w = 0) (hne : a % w ≠ 0 ∨ b % w ≠ 0) :
    a % w + b % w = w := by
  have ha := Nat.mod_lt a hw
  have hb := Nat.mod_lt b hw
  rw [Nat.add_mod] at h
  rcases Nat.lt_or_ge (a % w + b % w) w with hlt | hge
  · rw [Nat.mod_eq_of_lt hlt] at h; omega
  · rw [Nat.mod_eq_sub_mod hge, Nat.mod_eq_of_lt (by omega)] at h; omega

/-- Two shifts that meet are a rotation. -/
theorem shl_or_shr {a b : Nat} (hw : 0 < w) (h : (a + b) % w = 0) :
    x <<< (a % w) ||| x >>> (b % w) = x.rotateRight b := by
  rw [BitVec.rotateRight_def, BitVec.or_comm]
  rcases Nat.eq_zero_or_pos (b % w) with h0 | h0
  · rw [Nat.add_mod, h0, Nat.add_zero, Nat.mod_mod] at h
    simp [h0, h]
  · have := mod_add_mod_eq hw h (.inr h0.ne')
    rw [show a % w = w - b % w by omega]

/-- The same with an exclusive or, where both shifts move. -/
theorem shl_xor_shr {a b : Nat} (hw : 0 < w) (h : (a + b) % w = 0) (ha0 : a % w ≠ 0) :
    x <<< (a % w) ^^^ x >>> (b % w) = x.rotateRight b := by
  have hb0 := mod_add_mod_eq hw h (.inl ha0)
  rw [← shl_or_shr hw h]
  refine BitVec.eq_of_getLsbD_eq fun i hi => ?_
  rw [BitVec.getLsbD_or, BitVec.getLsbD_shiftLeft]
  rcases Nat.lt_or_ge i (a % w) with hlt | hge
  · simp [hlt]
  · simp [BitVec.getLsbD_of_ge x (b % w + i) (by omega)]

/-! ## Tests of some bits -/

theorem or_and_of_or_eq_allOnes {k₁ k₂ : BitVec w} (h : k₂ ||| k₁ = BitVec.allOnes w) :
    (x &&& k₁) ||| k₂ = x ||| k₂ := by
  refine BitVec.eq_of_getLsbD_eq fun i hi => ?_
  have hbit := congrArg (BitVec.getLsbD · i) h
  simp only [BitVec.getLsbD_or, BitVec.getLsbD_allOnes, hi] at hbit
  rw [BitVec.getLsbD_or, BitVec.getLsbD_and, BitVec.getLsbD_or]
  revert hbit
  cases x.getLsbD i <;> cases k₁.getLsbD i <;> cases k₂.getLsbD i <;> simp

theorem getLsbD_of_le_clz {m : BitVec w} {j : Nat} (hk : k ≤ m.clz.toNat) (hj : w ≤ j + k) : m.getLsbD j = false := by
  have hlt := BitVec.toNat_lt_two_pow_sub_clz (x := m)
  refine Nat.testBit_lt_two_pow (lt_of_lt_of_le hlt (Nat.pow_le_pow_right (by omega) (by omega)))

/-- The bits that a shift by less than the leading zeros leaves below `2 ^ n`. -/
theorem getLsbD_of_shl_lt {m : BitVec w} {j : Nat} (hk : k ≤ m.clz.toNat) (h : (m <<< k).toNat < 2 ^ n)
    (hj : n ≤ j + k) : m.getLsbD j = false := by
  have hm := BitVec.toNat_lt_two_pow_sub_clz (x := m)
  have hle : m.toNat * 2 ^ k < 2 ^ w := by
    rcases Nat.lt_or_ge w m.clz.toNat with hlt | hge
    · have : m.toNat = 0 := by
        rw [show w - m.clz.toNat = 0 by omega] at hm
        omega
      rw [this, Nat.zero_mul]
      exact Nat.two_pow_pos w
    · calc m.toNat * 2 ^ k < 2 ^ (w - m.clz.toNat) * 2 ^ k := Nat.mul_lt_mul_of_pos_right hm (Nat.two_pow_pos k)
        _ ≤ 2 ^ w := by rw [← Nat.pow_add]; exact Nat.pow_le_pow_right (by omega) (by omega)
  rw [BitVec.toNat_shiftLeft, Nat.shiftLeft_eq, Nat.mod_eq_of_lt hle] at h
  refine Nat.testBit_lt_two_pow ?_
  have hpow : 2 ^ n ≤ 2 ^ j * 2 ^ k := by rw [← Nat.pow_add]; exact Nat.pow_le_pow_right (by omega) hj
  exact Nat.lt_of_mul_lt_mul_right (lt_of_lt_of_le h hpow)

/-- A test of shifted bits, possibly of a truncated word, is a test of the bits in place. -/
theorem shifted_test {s m : BitVec w} {v : BitVec n} (hs : ∀ j, j + k < n → s.getLsbD j = x.getLsbD (j + k))
    (hm : ∀ j, n ≤ j + k → m.getLsbD j = false) (hv : ∀ j, n ≤ j + k → v.getLsbD j = false) (hn : n ≤ w) :
    (s &&& m).setWidth n = v ↔ x.setWidth n &&& (m <<< k).setWidth n = v <<< k := by
  constructor
  · rintro rfl
    refine BitVec.eq_of_getLsbD_eq fun i hi => ?_
    rw [BitVec.getLsbD_and, BitVec.getLsbD_shiftLeft, BitVec.getLsbD_setWidth, BitVec.getLsbD_setWidth,
      BitVec.getLsbD_setWidth, BitVec.getLsbD_shiftLeft, BitVec.getLsbD_and]
    rcases Nat.lt_or_ge i k with hlt | hge
    · simp [hlt]
    · rw [hs (i - k) (by omega), show i - k + k = i by omega]
      simp [hi, Nat.not_lt.2 hge, show i < w by omega, show i - k < n by omega]
  · intro h
    refine BitVec.eq_of_getLsbD_eq fun j hj => ?_
    rw [BitVec.getLsbD_setWidth, BitVec.getLsbD_and]
    rcases Nat.lt_or_ge (j + k) n with hlt | hge
    · have hbit := congrArg (BitVec.getLsbD · (j + k)) h
      simp only [BitVec.getLsbD_and, BitVec.getLsbD_shiftLeft, BitVec.getLsbD_setWidth] at hbit
      rw [hs j hlt]
      simpa [hj, hlt, show j + k < w by omega] using hbit
    · simp [hm j hge, hv j hge]

/-- Two tests of one word are one test, if they agree where they overlap. -/
theorem and_eq_and_and_eq {m v m' v' : BitVec w} (hv : v &&& ~~~m = 0#w) (hv' : v' &&& ~~~m' = 0#w)
    (h : v &&& (m &&& m') = v' &&& (m &&& m')) : (x &&& m = v ∧ x &&& m' = v') ↔ x &&& (m ||| m') = v ||| v' := by
  constructor
  · rintro ⟨rfl, rfl⟩
    rw [BitVec.and_or_distrib_left]
  · intro hx
    have hbits : ∀ i, (x &&& m).getLsbD i = v.getLsbD i ∧ (x &&& m').getLsbD i = v'.getLsbD i := by
      intro i
      rcases Nat.lt_or_ge i w with hi | hi
      · have h1 := congrArg (BitVec.getLsbD · i) hv
        have h2 := congrArg (BitVec.getLsbD · i) hv'
        have h3 := congrArg (BitVec.getLsbD · i) h
        have h4 := congrArg (BitVec.getLsbD · i) hx
        simp only [BitVec.getLsbD_and, BitVec.getLsbD_or, BitVec.getLsbD_not, hi] at h1 h2 h3 h4 ⊢
        revert h1 h2 h3 h4
        cases x.getLsbD i <;> cases m.getLsbD i <;> cases m'.getLsbD i <;> cases v.getLsbD i <;>
          cases v'.getLsbD i <;> simp
      · simp [BitVec.getLsbD_of_ge _ i hi]
    exact ⟨BitVec.eq_of_getLsbD_eq fun i _ => (hbits i).1, BitVec.eq_of_getLsbD_eq fun i _ => (hbits i).2⟩

theorem and_one_eq (x : BitVec w) (hw : 0 < w) : x &&& 1#w = if x.getLsbD 0 then 1#w else 0#w := by
  refine BitVec.eq_of_getLsbD_eq fun i hi => ?_
  rw [BitVec.getLsbD_and]
  rcases Nat.eq_zero_or_pos i with rfl | hpos
  · cases x.getLsbD 0 <;> simp [hw]
  · cases x.getLsbD 0 <;> simp [show i ≠ 0 by omega]

/-! ## Trailing zeros -/

theorem ctz_lt (h : x ≠ 0#w) : x.ctz.toNat < w := by
  by_contra hge
  have hbit := BitVec.getLsbD_true_ctz_of_ne_zero h
  rw [BitVec.getLsbD_of_ge _ _ (Nat.not_lt.1 hge)] at hbit
  cases hbit

theorem two_pow_ctz_dvd (x : BitVec w) : 2 ^ x.ctz.toNat ∣ x.toNat := by
  refine Nat.dvd_of_mod_eq_zero (Nat.eq_of_testBit_eq fun i => ?_)
  rw [Nat.testBit_mod_two_pow, Nat.zero_testBit]
  by_cases hi : i < x.ctz.toNat
  · rw [show x.toNat.testBit i = x.getLsbD i from rfl, BitVec.getLsbD_false_of_lt_ctz hi, Bool.and_false]
  · rw [decide_eq_false hi, Bool.false_and]

theorem div_ctz_odd (h : x ≠ 0#w) : x.toNat / 2 ^ x.ctz.toNat % 2 = 1 := by
  have hbit := BitVec.getLsbD_true_ctz_of_ne_zero h
  rwa [BitVec.getLsbD, Nat.testBit_eq_decide_div_mod_eq, decide_eq_true_eq] at hbit

/-! ## Orders -/

/-- Where the signs differ they decide the unsigned order, otherwise the signed order does. -/
theorem toNat_lt_iff_toInt (x y : BitVec w) : x.toNat < y.toNat ↔
    if x.toInt < 0 then y.toInt < 0 ∧ x.toInt < y.toInt else y.toInt < 0 ∨ x.toInt < y.toInt := by
  rw [BitVec.toInt_eq_toNat_cond, BitVec.toInt_eq_toNat_cond]
  split <;> split <;> omega

/-- Words whose signed values are scaled alike are in one order, also as unsigned words. -/
theorem toNat_lt_iff_of_scale {v : Nat} {a b : BitVec w} {a' b' : BitVec v} {c : ℤ} (hc : 0 < c)
    (ha : a.toInt = c * a'.toInt) (hb : b.toInt = c * b'.toInt) : a.toNat < b.toNat ↔ a'.toNat < b'.toNat := by
  have hlt : a.toInt < b.toInt ↔ a'.toInt < b'.toInt := by rw [ha, hb, mul_lt_mul_iff_right₀ hc]
  have hsa : a.toInt < 0 ↔ a'.toInt < 0 := by rw [ha, ← mul_zero c, mul_lt_mul_iff_right₀ hc, mul_zero]
  have hsb : b.toInt < 0 ↔ b'.toInt < 0 := by rw [hb, ← mul_zero c, mul_lt_mul_iff_right₀ hc, mul_zero]
  simp only [toNat_lt_iff_toInt, hlt, hsa, hsb]

/-- A word that shifts out zeros only is a multiple of what is left. -/
theorem toInt_eq_mul_sshiftRight (hn : n ≤ w) (h : 2 ^ n ∣ x.toNat) : x.toInt = 2 ^ n * (x.sshiftRight n).toInt := by
  rw [BitVec.toInt_sshiftRight, Int.shiftRight_eq_div_pow, Nat.cast_pow, Nat.cast_ofNat,
    Int.mul_ediv_cancel' ((dvd_toInt_iff x hn).2 h)]

/-- A left shift that a right shift reverts multiplies. -/
theorem toInt_shl_of_revert {k : BitVec w} (hn : n ≤ w) (h : (k <<< n).sshiftRight n = k) :
    (k <<< n).toInt = 2 ^ n * k.toInt := by
  rw [toInt_eq_mul_sshiftRight hn (toNat_shl_dvd k n hn), h]

end WordFacts
