import V8Core.Bigint.Truncate
import V8Core.Objects.BigInt
/-!
# AsIntN and AsUintN

`BigInt::AsIntN(n, x)` and `BigInt::AsUintN(n, x)`: the low `n` bits of `x`, read
as a signed and as an unsigned number.
-/

open Radix V8Core.Bigint

namespace V8Core.Objects

variable {t : Target}

open MutableBigInt (new checked_finish)

def BigInt.asIntN (n : Nat) (x : BigInt t) : Except Fault (BigInt t) :=
  if x.isZero || n > kMaxLengthBits then .ok x
  else if n = 0 then .ok (BigInt.zero t)
  else
    let neededLength := asIntNResultLength x.digits x.sign n
    if neededLength = -1 then .ok x
    else do
      let result ← toHandleChecked (new neededLength.toNat)
      let r := Bigint.asIntN x.digits x.sign n
      result.finish r.2 r.1

def BigInt.asUintN (n : Nat) (x : BigInt t) : Except Fault (BigInt t) :=
  if x.isZero then .ok x
  else if n = 0 then .ok (BigInt.zero t)
  else if x.sign then
    if n > kMaxLengthBits then .error .rangeError
    else do
      let resultLength := asUintNNegResultLength t.kDigitBits n
      let result ← toHandleChecked (new resultLength)
      result.finish false (asUintNNeg x.digits n)
  else if n ≥ kMaxLengthBits then .ok x
  else
    let resultLength := asUintNPosResultLength x.digits n
    if resultLength < 0 then .ok x
    else do
      let result ← toHandleChecked (new resultLength.toNat)
      result.finish false (asUintNPos x.digits n)

theorem divCeil_le_kMaxLength {n : Nat} (h : n ≤ kMaxLengthBits) : divCeil n t.kDigitBits ≤ kMaxLength t := by
  have hm := kMaxLength_mul t
  have hp := kMaxLength_pos t
  refine (Nat.div_lt_iff_lt_mul t.kDigitBits_pos).2 ?_
  have : 0 < kMaxLengthBits := by rw [← hm]; exact Nat.mul_pos t.kDigitBits_pos hp
  rw [Nat.mul_comm, hm]
  omega

/-- `AsIntN` always returns the signed `n`-bit number congruent to `x`. -/
theorem BigInt.asIntN_spec (n : Nat) (x : BigInt t) :
    ∃ z, x.asIntN n = .ok z ∧ IsAsIntN n x.toInt z.toInt := by
  have hw := t.kDigitBits_pos
  unfold BigInt.asIntN
  split
  · rename_i h
    refine ⟨x, rfl, ?_⟩
    simp only [Bool.or_eq_true, decide_eq_true_eq] at h
    rcases h with h | h
    · rw [x.toInt_of_isZero h]
      exact ⟨Int.ModEq.refl _, by simp, by simp⟩
    · have hlt : value x.digits < 2 ^ (n - 1) :=
        lt_of_lt_of_le x.value_lt_max (Nat.pow_le_pow_right (by norm_num) (by omega))
      exact isAsIntN_self (by omega) (.inl hlt)
  · rename_i h
    simp only [Bool.or_eq_true, decide_eq_true_eq, not_or, Nat.not_lt] at h
    split
    · rename_i h0
      refine ⟨_, rfl, ?_⟩
      rw [h0]
      exact ⟨Int.modEq_one, by norm_num, by norm_num⟩
    · rename_i h0
      rcases asIntNResultLength_cases hw x.digits x.sign (Nat.pos_of_ne_zero h0) with ⟨h1, h2⟩ | ⟨h1, h2⟩
      · simp only [h1]
        exact ⟨x, rfl, h2⟩
      · obtain ⟨h3, h4⟩ := Bigint.asIntN_spec hw x.digits x.sign (Nat.pos_of_ne_zero h0) h2
        simp only [h1]
        obtain ⟨z, hz1, hz2⟩ := checked_finish ⟨rfl, h4⟩ (divCeil_le_kMaxLength h.2) (fun hc => absurd hc (Nat.succ_ne_zero _))
        exact ⟨z, hz1, hz2 ▸ h3⟩

/-- `AsUintN` returns the low `n` bits, unless a negative `x` would need more than the maximal bit length. -/
theorem BigInt.asUintN_spec (n : Nat) (x : BigInt t) :
    if x.toInt < 0 ∧ n > kMaxLengthBits then x.asUintN n = .error .rangeError
    else Returns (x.asUintN n) (x.toInt % 2 ^ n) := by
  have hw := t.kDigitBits_pos
  have hkeep : ∀ {m}, value x.digits < 2 ^ m → x.sign = false → x.toInt % 2 ^ m = x.toInt := by
    intro m h hs
    rw [BigInt.toInt, hs, signedValue_false]
    exact_mod_cast Nat.mod_eq_of_lt h
  simp only [x.toInt_neg_iff]
  unfold BigInt.asUintN
  by_cases hz : x.isZero = true
  · have hs := x.sign_of_zero (by simpa [BigInt.isZero, BigInt.length] using hz)
    rw [if_neg (by simp [hs]), if_pos hz]
    exact ⟨x, rfl, by rw [x.toInt_of_isZero hz]; simp⟩
  · rw [if_neg hz]
    by_cases h0 : n = 0
    · rw [if_neg (by omega), h0]
      exact ⟨_, rfl, by rw [BigInt.toInt_zero, pow_zero, Int.emod_one]⟩
    · have hn := Nat.pos_of_ne_zero h0
      rw [if_neg h0]
      cases hs : x.sign with
      | true =>
        simp only [true_and]
        split
        · rfl
        · rename_i hle
          obtain ⟨h1, h2⟩ := asUintNNeg_spec hw x.digits hn
          refine checked_finish ⟨?_, h2⟩ (divCeil_le_kMaxLength (Nat.le_of_not_lt hle)) (fun _ => rfl)
          rw [signedValue_false, h1, BigInt.toInt, hs]
          rfl
      | false =>
        simp only [Bool.false_eq_true, false_and, if_false]
        split
        · rename_i hge
          rw [hkeep (lt_of_lt_of_le x.value_lt_max (Nat.pow_le_pow_right (by norm_num) hge)) hs]
          exact ⟨x, rfl, rfl⟩
        · rename_i hge
          have hmod : x.toInt % 2 ^ n = (value x.digits % 2 ^ n : Nat) := by
            rw [BigInt.toInt, hs]; push_cast; rfl
          rcases asUintNPosResultLength_cases hw x.digits hn with ⟨h1, h2⟩ | ⟨h1, h2⟩
          · simp only [h1, hmod, h2]
            exact ⟨x, rfl, by rw [BigInt.toInt, hs, signedValue_false]⟩
          · obtain ⟨h3, h4⟩ := truncateToNBits_spec hw x.digits hn h2
            simp only [h1]
            exact checked_finish ⟨by rw [signedValue_false, asUintNPos, h3, hmod], h4⟩
              (divCeil_le_kMaxLength (by omega)) (fun _ => rfl)

/-- Truncation is exact for every BigInt and every number of bits; the length
tests answer -1 only where nothing changes. -/
theorem truncation_exact (t : Target) (x : BigInt t) (n : Nat) :
    (∃ z, x.asIntN n = .ok z ∧ IsAsIntN n x.toInt z.toInt ∧ ∀ r, IsAsIntN n x.toInt r → r = z.toInt) ∧
    (if x.toInt < 0 ∧ n > kMaxLengthBits then x.asUintN n = .error .rangeError
      else Returns (x.asUintN n) (x.toInt % 2 ^ n)) ∧
    (0 < n → asIntNResultLength x.digits x.sign n = -1 → IsAsIntN n x.toInt x.toInt) ∧
    (0 < n → asUintNPosResultLength x.digits n = -1 → value x.digits % 2 ^ n = value x.digits) := by
  have hw := t.kDigitBits_pos
  refine ⟨?_, x.asUintN_spec n, fun hn h => ?_, fun hn h => ?_⟩
  · obtain ⟨z, h1, h2⟩ := x.asIntN_spec n
    exact ⟨z, h1, h2, fun r hr => hr.unique h2⟩
  · rcases asIntNResultLength_cases hw x.digits x.sign hn with ⟨-, h2⟩ | ⟨h1, -⟩
    · exact h2
    · rw [h] at h1; omega
  · rcases asUintNPosResultLength_cases hw x.digits hn with ⟨-, h2⟩ | ⟨h1, -⟩
    · exact h2
    · rw [h] at h1; omega

/-- asIntN(3, -4) leaves -4 alone, the least number of three bits. -/
theorem truncation_exact_least :
    let x : BigInt .bits64 := ⟨true, [4#64], by decide, by decide, kMaxLength_pos .bits64⟩
    asIntNResultLength x.digits x.sign 3 = -1 ∧ IsAsIntN 3 x.toInt x.toInt :=
  ⟨by decide, (truncation_exact .bits64 ⟨true, [4#64], by decide, by decide, kMaxLength_pos .bits64⟩ 3).2.2.1
    (by decide) (by decide)⟩

end V8Core.Objects
