import V8Core.Bigint.Bitwise
/-!
# Shifts

`LeftShift` and `RightShift` of `bitwise.cc` with their result lengths. A shift
moves whole digits first and bits second. The callers keep the shift amount
within `kMaxLengthBits`, so the narrowing of the digit count to `int` is exact
and a shift amount is a natural number here.

Shifting a negative number right rounds down, which adds one to the magnitude.
`RightShift_ResultLength` decides whether that happens and reserves a digit for
the increment wherever it might overflow.
-/

open Radix

namespace V8Core.Bigint

variable {w : Nat}

/-! ## Shifting left -/

/-- `LeftShift_ResultLength(x_length, x_most_significant_digit, shift)`. -/
def leftShiftResultLength (xLength : Nat) (xMostSignificantDigit : BitVec w) (shift : Nat) : Nat :=
  let digitShift := shift / w
  let bitsShift := shift % w
  let grow := bitsShift != 0 && (xMostSignificantDigit >>> (w - bitsShift)) != 0#w
  xLength + digitShift + if grow then 1 else 0

/-- `Z[i] = (d << bits_shift) | carry; carry = d >> (kDigitBits - bits_shift)`
over the digits of `X`. -/
def shiftLeftDigits (bitsShift : Nat) (X : List (BitVec w)) (carry : BitVec w) : List (BitVec w) × BitVec w :=
  chain (fun (d c : BitVec w) => (d <<< bitsShift ||| c, d >>> (w - bitsShift))) X carry

/-- `LeftShift(Z, X, shift)`. -/
def leftShift (zlen : Nat) (X : List (BitVec w)) (shift : Nat) : List (BitVec w) :=
  let digitShift := shift / w
  let bitsShift := shift % w
  let low := List.replicate digitShift 0#w
  if bitsShift = 0 then padTo zlen (low ++ X)
  else
    let r := shiftLeftDigits bitsShift X 0#w
    padTo zlen (low ++ r.1 ++ if r.2 = 0#w then [] else [r.2])

@[simp] theorem shiftLeftDigits_length (s : Nat) (X : List (BitVec w)) (c : BitVec w) :
    (shiftLeftDigits s X c).1.length = X.length := by simp [shiftLeftDigits]

theorem shiftLeftDigits_spec (s : Nat) (hs : s ≤ w) (X : List (BitVec w)) (c : BitVec w) (hc : c.toNat < 2 ^ s) :
    value (shiftLeftDigits s X c).1 + 2 ^ (w * X.length) * (shiftLeftDigits s X c).2.toNat =
        2 ^ s * value X + c.toNat ∧
      (shiftLeftDigits s X c).2.toNat < 2 ^ s := by
  have h := chain_list_value (fun (d c : BitVec w) => (d <<< s ||| c, d >>> (w - s))) (2 ^ s)
    (fun c : BitVec w => (c.toNat : ℤ))
    (fun c => c.toNat < 2 ^ s)
    (fun x c hc => ⟨(shl_or_spec x c s hs hc).2, by
      have := (shl_or_spec x c s hs hc).1; zify at this; linear_combination this⟩) X c hc
  exact ⟨by exact_mod_cast h.2, h.1⟩

/-- The carry out of the last digit is what that digit loses. -/
theorem shiftLeftDigits_carry (s : Nat) (X : List (BitVec w)) (hX : X ≠ []) (c : BitVec w) :
    (shiftLeftDigits s X c).2 = msd X >>> (w - s) := by
  obtain ⟨Y, d, rfl⟩ := (List.eq_nil_or_concat X).resolve_left hX
  simp [shiftLeftDigits, chain_append, msd]

theorem pow_shift (w shift : Nat) : 2 ^ shift = 2 ^ (w * (shift / w)) * 2 ^ (shift % w) := by
  rw [← Nat.pow_add, Nat.div_add_mod]

/-- Shifting left multiplies, and the result length is exact. -/
theorem leftShift_spec (hw : 0 < w) (X : List (BitVec w)) (hX : X ≠ []) (shift : Nat) :
    let zlen := leftShiftResultLength X.length (msd X) shift
    value (leftShift zlen X shift) = value X * 2 ^ shift ∧ (leftShift zlen X shift).length = zlen := by
  intro zlen
  have hpow := pow_shift w shift
  by_cases hb : shift % w = 0
  · have hz : zlen = X.length + shift / w := by simp [zlen, leftShiftResultLength, hb]
    simp only [leftShift, if_pos hb, value_padTo, length_padTo, value_append, value_replicate_zero,
      List.length_append, List.length_replicate]
    rw [hpow, hb]
    exact ⟨by ring, by omega⟩
  · obtain ⟨h1, h2⟩ := shiftLeftDigits_spec (shift % w) (Nat.mod_lt _ hw).le X 0#w (by simp)
    have hc := shiftLeftDigits_carry (shift % w) X hX 0#w
    have hz : zlen = X.length + shift / w + if (shiftLeftDigits (shift % w) X 0#w).2 = 0#w then 0 else 1 := by
      rw [hc]; simp [zlen, leftShiftResultLength, hb]
    have hval : value (if (shiftLeftDigits (shift % w) X 0#w).2 = 0#w then []
        else [(shiftLeftDigits (shift % w) X 0#w).2]) = (shiftLeftDigits (shift % w) X 0#w).2.toNat := by
      split
      · rename_i h0; simp [h0]
      · simp
    simp only [leftShift, if_neg hb, value_padTo, value_append, value_replicate_zero, List.length_append,
      List.length_replicate, shiftLeftDigits_length, hval]
    refine ⟨?_, ?_⟩
    · simp only [BitVec.toNat_ofNat, Nat.zero_mod] at h1
      rw [hpow, Nat.mul_add w]
      zify at h1 ⊢
      linear_combination 2 ^ (w * (shift / w)) * h1
    · rw [hz]; split <;> simp <;> omega

/-- A result of `leftShiftResultLength` digits has no leading zero digit. -/
theorem le_leftShift_value (hw : 0 < w) (X : List (BitVec w)) (hn : IsDigitNormalized X) (hX : X ≠ [])
    (shift : Nat) :
    2 ^ (w * (leftShiftResultLength X.length (msd X) shift - 1)) ≤ value X * 2 ^ shift := by
  obtain ⟨Y, d, rfl⟩ := (List.eq_nil_or_concat X).resolve_left hX
  simp only [List.concat_eq_append] at *
  have hle := le_value_of_normalized hn hX
  have hs := (Nat.mod_lt shift hw).le
  rw [pow_shift w shift]
  simp only [leftShiftResultLength, msd, List.getLastD_concat, List.length_append] at *
  generalize shift / w = q at *
  split
  · rename_i hg
    have hd : 2 ^ (w - shift % w) ≤ d.toNat := by
      by_contra hlt
      simp only [Bool.and_eq_true, bne_iff_ne, ne_eq] at hg
      refine hg.2 (BitVec.toNat_inj.1 ?_)
      rw [BitVec.toNat_ushiftRight, Nat.shiftRight_eq_div_pow, Nat.div_eq_of_lt (by omega)]; simp
    have hv : 2 ^ (w * Y.length) * 2 ^ (w - shift % w) ≤ value (Y ++ [d]) := by
      rw [value_concat]; exact le_trans (Nat.mul_le_mul_left _ hd) (Nat.le_add_left _ _)
    calc 2 ^ (w * (Y.length + 1 + q + 1 - 1))
        = 2 ^ (w * Y.length) * 2 ^ (w - shift % w) * (2 ^ (w * q) * 2 ^ (shift % w)) := by
          rw [← Nat.pow_add, ← Nat.pow_add, ← Nat.pow_add]; congr 1
          rw [Nat.add_sub_cancel, Nat.mul_add, Nat.mul_succ]; omega
      _ ≤ _ := Nat.mul_le_mul_right _ hv
  · calc 2 ^ (w * (Y.length + 1 + q + 0 - 1)) = 2 ^ (w * Y.length) * (2 ^ (w * q) * 1) := by
          rw [Nat.mul_one, ← Nat.pow_add, ← Nat.mul_add]; congr 2; omega
      _ ≤ _ := Nat.mul_le_mul (by simpa using hle) (Nat.mul_le_mul_left _ Nat.one_le_two_pow)

/-! ## Shifting right -/

/-- `RightShift_ResultLength(X, x_sign, shift, &state)`: the length and
`state->must_round_down`. -/
def rightShiftResultLength (X : List (BitVec w)) (xSign : Bool) (shift : Nat) : Nat × Bool :=
  let digitShift := shift / w
  let bitsShift := shift % w
  if X.length ≤ digitShift then (0, false)
  else
    let resultLength := X.length - digitShift
    let mask := 1#w <<< bitsShift - 1#w
    let mustRoundDown := xSign &&
      ((digit X digitShift &&& mask) != 0#w || (X.take digitShift).any (· != 0#w))
    -- a bit shift frees up bits; otherwise only a maximal top digit lets the rounding overflow
    let roundingCanOverflow := mustRoundDown && bitsShift == 0 && digitIsMax (msd X)
    (resultLength + if roundingCanOverflow then 1 else 0, mustRoundDown)

/-- The digits of `RightShift` before rounding. -/
def shiftRightDigits (X : List (BitVec w)) (shift : Nat) : List (BitVec w) :=
  let digitShift := shift / w
  let bitsShift := shift % w
  if bitsShift = 0 then X.drop digitShift
  else
    let r := chain (fun (d c : BitVec w) => (d <<< (w - bitsShift) ||| c, d >>> bitsShift))
      (X.drop (digitShift + 1)) (digit X digitShift >>> bitsShift)
    r.1 ++ [r.2]

/-- `RightShift(Z, X, shift, state)`. -/
def rightShift (zlen : Nat) (X : List (BitVec w)) (shift : Nat) (mustRoundDown : Bool) : List (BitVec w) :=
  let Z := padTo zlen (shiftRightDigits X shift)
  if mustRoundDown then addDigit Z 1#w else Z

theorem shiftRightDigits_spec (hw : 0 < w) (X : List (BitVec w)) (shift : Nat) (h : shift / w < X.length) :
    value (shiftRightDigits X shift) = value X / 2 ^ shift ∧
      (shiftRightDigits X shift).length = X.length - shift / w := by
  rw [pow_shift w shift, ← Nat.div_div_eq_div_mul, ← value_drop]
  unfold shiftRightDigits
  by_cases hb : shift % w = 0
  · simp [hb]
  · have hs := (Nat.mod_lt shift hw).le
    rw [if_neg hb, drop_eq_digit_cons X _ h]
    generalize shift % w = s at *
    generalize digit X (shift / w) = d
    generalize hD : X.drop (shift / w + 1) = D
    have hDl : D.length = X.length - (shift / w + 1) := by rw [← hD, List.length_drop]
    have hd : (d >>> s).toNat < 2 ^ (w - s) := by
      rw [BitVec.toNat_ushiftRight, Nat.shiftRight_eq_div_pow, Nat.div_lt_iff_lt_mul (by positivity), ← Nat.pow_add,
        show w - s + s = w by omega]
      exact d.isLt
    have hstep := (shiftLeftDigits_spec (w - s) (by omega) D (d >>> s) hd).1
    simp only [shiftLeftDigits, show w - (w - s) = s by omega] at hstep
    refine ⟨?_, by simp [hDl]; omega⟩
    rw [value_concat, chain_length, hstep, value_cons, BitVec.toNat_ushiftRight, Nat.shiftRight_eq_div_pow,
      show 2 ^ w = 2 ^ s * 2 ^ (w - s) by rw [← Nat.pow_add]; congr 1; omega, Nat.mul_assoc,
      Nat.add_mul_div_left _ _ (by positivity)]
    ring

theorem toNat_one_shl {s : Nat} (hs : s < w) : (1#w <<< s).toNat = 2 ^ s := by
  rw [BitVec.toNat_shiftLeft, toNat_one (by omega), Nat.shiftLeft_eq, Nat.one_mul,
    Nat.mod_eq_of_lt (Nat.pow_lt_pow_right (by norm_num) hs)]

/-- The low bits of a digit, as `X[digit_shift] & mask` tests them. -/
theorem toNat_and_mask (hw : 0 < w) (d : BitVec w) (s : Nat) (hs : s < w) :
    (d &&& (1#w <<< s - 1#w)).toNat = d.toNat % 2 ^ s := by
  have h1 := toNat_one_shl hs
  have hle : 1#w ≤ 1#w <<< s := by rw [BitVec.le_def, h1, toNat_one hw]; exact Nat.one_le_two_pow
  rw [BitVec.toNat_and, BitVec.toNat_sub_of_le hle, h1, toNat_one hw, Nat.and_two_pow_sub_one_eq_mod]

/-- Rounding is due exactly when a negative number loses a bit. -/
theorem mustRoundDown_iff (hw : 0 < w) (X : List (BitVec w)) (xSign : Bool) (shift : Nat) (h : shift / w < X.length) :
    (rightShiftResultLength X xSign shift).2 = true ↔ xSign = true ∧ value X % 2 ^ shift ≠ 0 := by
  have hs := Nat.mod_lt shift hw
  have hmask := toNat_and_mask hw (digit X (shift / w)) (shift % w) hs
  have hany : (X.take (shift / w)).any (· != 0#w) = true ↔ value (X.take (shift / w)) ≠ 0 := by
    rw [ne_eq, value_eq_zero_iff]; simp
  have hmod := value_mod_bits X (shift / w) (shift % w) hs.le
  rw [Nat.div_add_mod] at hmod
  rw [hmod, rightShiftResultLength, if_neg (Nat.not_le.2 h)]
  simp only [Bool.and_eq_true, Bool.or_eq_true, bne_iff_ne, ne_eq, ← BitVec.toNat_inj, hmask, Nat.add_eq_zero_iff,
    Nat.mul_eq_zero, Nat.pow_eq_zero]
  tauto

/-- A list whose top digit has an unset bit stays clear of the next power. -/
theorem value_add_top_lt {X : List (BitVec w)} (hX : X ≠ []) (h : digitIsMax (msd X) = false) :
    value X + 2 ^ (w * (X.length - 1)) < 2 ^ (w * X.length) := by
  obtain ⟨Y, d, rfl⟩ := (List.eq_nil_or_concat X).resolve_left hX
  have hd : d.toNat + 1 < 2 ^ w := by
    have h2 := (digitIsMax_iff d).not.1 (by simpa [msd] using h)
    omega
  have hY := value_lt Y
  simp only [List.concat_eq_append, value_concat, List.length_append, List.length_singleton, Nat.add_sub_cancel,
    pow_succ_len]
  have hm := Nat.mul_le_mul_left (2 ^ (w * Y.length)) (show d.toNat + 2 ≤ 2 ^ w by omega)
  rw [Nat.mul_add, Nat.mul_comm _ (2 ^ w)] at hm
  omega

/-- The rounding increment has room in the reserved length. -/
theorem rightShift_room (hw : 0 < w) (X : List (BitVec w)) (xSign : Bool) (shift : Nat) (h : shift / w < X.length)
    (hr : (rightShiftResultLength X xSign shift).2 = true) :
    value X / 2 ^ shift + 1 < 2 ^ (w * (rightShiftResultLength X xSign shift).1) := by
  have hX := value_lt X
  have hs := Nat.mod_lt shift hw
  have hdm := Nat.div_add_mod shift w
  have hlen : (rightShiftResultLength X xSign shift).1 = X.length - shift / w +
      if shift % w = 0 ∧ digitIsMax (msd X) = true then 1 else 0 := by
    simp only [rightShiftResultLength, if_neg (Nat.not_le.2 h)] at hr ⊢
    simp [hr]
  rw [hlen, ← Nat.add_div_right _ (by positivity), Nat.div_lt_iff_lt_mul (by positivity), ← Nat.pow_add]
  generalize shift / w = q at *
  have hq : w * (X.length - q) + w * q = w * X.length := by rw [← Nat.mul_add]; congr 1; omega
  have hq1 : w * q + w ≤ w * X.length := by rw [← Nat.mul_succ]; exact Nat.mul_le_mul_left _ h
  have hpow : 2 ^ shift ≤ 2 ^ (w * X.length) := Nat.pow_le_pow_right (by norm_num) (by omega)
  have hdouble : value X + 2 ^ shift < 2 ^ (w * X.length + 1) := by rw [Nat.pow_succ]; omega
  by_cases hb : shift % w = 0
  · by_cases hm : digitIsMax (msd X) = true
    · rw [if_pos ⟨hb, hm⟩]
      refine lt_of_lt_of_le hdouble (Nat.pow_le_pow_right (by norm_num) ?_)
      rw [Nat.mul_succ]; omega
    · rw [if_neg (by simp [hm]), Nat.add_zero]
      have htop := value_add_top_lt (X := X) (fun h0 => by simp [h0] at h) (by simpa using hm)
      have hle : 2 ^ shift ≤ 2 ^ (w * (X.length - 1)) :=
        Nat.pow_le_pow_right (by norm_num) (by rw [Nat.mul_sub_one]; omega)
      rw [show w * (X.length - q) + shift = w * X.length by omega]
      omega
  · rw [if_neg (by simp [hb]), Nat.add_zero]
    exact lt_of_lt_of_le hdouble (Nat.pow_le_pow_right (by norm_num) (by omega))

/-- Shifting right divides, rounding a negative number's magnitude up. -/
theorem rightShift_spec (hw : 0 < w) (X : List (BitVec w)) (xSign : Bool) (shift : Nat) (h : shift / w < X.length) :
    let r := rightShiftResultLength X xSign shift
    value (rightShift r.1 X shift r.2) = value X / 2 ^ shift + (if r.2 then 1 else 0) ∧
      (rightShift r.1 X shift r.2).length = r.1 := by
  intro r
  obtain ⟨h1, h2⟩ := shiftRightDigits_spec hw X shift h
  have hr1 : r.1 ≥ X.length - shift / w := by
    simp only [r, rightShiftResultLength, if_neg (Nat.not_le.2 h)]; omega
  unfold rightShift
  by_cases hr : r.2 = true
  · have hroom := rightShift_room hw X xSign shift h hr
    have hp := plusOne_spec hw r.1 (shiftRightDigits X shift) (by omega) (by omega) (by rw [h1]; exact hroom)
    rw [h1] at hp
    rw [if_pos hr, if_pos hr]
    exact hp
  · rw [if_neg hr, if_neg hr, value_padTo, length_padTo, h1, h2]
    have hr0 : r.1 = X.length - shift / w := by
      simp only [r, rightShiftResultLength, if_neg (Nat.not_le.2 h)] at hr ⊢
      simp [hr]
    exact ⟨rfl, by omega⟩

/-- The reserved digit never makes the result longer than the operand. -/
theorem rightShiftResultLength_le (hw : 0 < w) (X : List (BitVec w)) (xSign : Bool) (shift : Nat) :
    (rightShiftResultLength X xSign shift).1 ≤ X.length := by
  rcases Nat.lt_or_ge (shift / w) X.length with h | h
  · have hr := mustRoundDown_iff hw X xSign shift h
    simp only [rightShiftResultLength, if_neg (Nat.not_le.2 h)] at hr ⊢
    split
    · rename_i hg
      simp only [Bool.and_eq_true, beq_iff_eq] at hg
      have hpos : shift / w ≠ 0 := by
        intro h0
        have hdm := Nat.div_add_mod shift w
        rw [h0, hg.1.2] at hdm
        have hne := (hr.1 (by simpa using hg.1.1)).2
        rw [← hdm] at hne
        simp [Nat.mod_one] at hne
      generalize shift / w = q at *
      omega
    · exact Nat.sub_le _ _
  · rw [rightShiftResultLength, if_pos h]; exact Nat.zero_le _

/-- After trimming, the reserved digit is kept exactly when the rounding increment overflows. -/
theorem rightShift_grows_iff (hw : 0 < w) (X : List (BitVec w)) (xSign : Bool) (shift : Nat)
    (h : shift / w < X.length) :
    let r := rightShiftResultLength X xSign shift
    (normalize (rightShift r.1 X shift r.2)).length = X.length - shift / w + 1 ↔
      r.2 = true ∧ value X / 2 ^ shift + 1 = 2 ^ (w * (X.length - shift / w)) := by
  intro r
  obtain ⟨h1, h2⟩ := rightShift_spec hw X xSign shift h
  obtain ⟨h3, h4⟩ := shiftRightDigits_spec hw X shift h
  have h5 := value_lt (shiftRightDigits X shift)
  rw [h3, h4] at h5
  have hn := isDigitNormalized_normalize (rightShift r.1 X shift r.2)
  have hle : (normalize (rightShift r.1 X shift r.2)).length ≤ X.length - shift / w + 1 := by
    refine le_trans (length_normalize_le _) ?_
    rw [h2, rightShiftResultLength, if_neg (Nat.not_le.2 h)]
    simp only []
    split <;> omega
  constructor
  · intro hl
    have h6 := le_value_of_normalized hn (fun h0 => by rw [h0] at hl; simp at hl)
    rw [hl, value_normalize, h1, Nat.add_sub_cancel] at h6
    by_cases hr : r.2 = true
    · rw [if_pos hr] at h6
      exact ⟨hr, by omega⟩
    · rw [if_neg hr] at h6; omega
  · rintro ⟨hr, hv⟩
    rw [if_pos hr, hv] at h1
    by_contra hne
    have h6 := value_lt (normalize (rightShift r.1 X shift r.2))
    rw [value_normalize, h1] at h6
    have h7 := Nat.lt_of_mul_lt_mul_left ((Nat.pow_lt_pow_iff_right (by norm_num)).1 h6)
    omega

end V8Core.Bigint
