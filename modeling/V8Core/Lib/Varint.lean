import Mathlib
/-!
# Base-128 codes

A number as bytes of seven bits each, the lowest first, every byte but the last
with its top bit set. The code of a number is as short as its bits allow, and
the top bits mark its end.
-/

namespace Varint

/-- The code of `n`. -/
def encode (n : Nat) : List (BitVec 8) :=
  if n < 128 then [BitVec.ofNat 8 n] else BitVec.ofNat 8 (n % 128 + 128) :: encode (n / 128)

theorem encode_of_lt {n : Nat} (h : n < 128) : encode n = [BitVec.ofNat 8 n] := by rw [encode, if_pos h]

theorem encode_of_le {n : Nat} (h : 128 ≤ n) :
    encode n = BitVec.ofNat 8 (n % 128 + 128) :: encode (n / 128) := by rw [encode, if_neg (by omega)]

theorem encode_length_pos (n : Nat) : 0 < (encode n).length := by
  rw [encode]; split <;> simp

/-- `k` bytes are enough for `7 * k` bits. -/
theorem encode_length_le {n k : Nat} (hk : 0 < k) (h : n < 2 ^ (7 * k)) : (encode n).length ≤ k := by
  induction k generalizing n with
  | zero => omega
  | succ k ih =>
    rcases Nat.lt_or_ge n 128 with hn | hn
    · rw [encode_of_lt hn]; simp
    · have hp : n / 128 < 2 ^ (7 * k) := by
        rw [Nat.div_lt_iff_lt_mul (by norm_num)]
        rw [Nat.mul_succ, Nat.pow_add] at h
        exact h
      have hk0 : 0 < k := by
        rcases Nat.eq_zero_or_pos k with rfl | hk0
        · simp at hp; omega
        · exact hk0
      rw [encode_of_le hn, List.length_cons]
      have := ih hk0 hp
      omega

/-- The code of `n` is its shortest: it has room for `n`, and one byte less would not. -/
theorem encode_minimal (n : Nat) :
    n < 2 ^ (7 * (encode n).length) ∧ ((encode n).length ≠ 1 → 2 ^ (7 * ((encode n).length - 1)) ≤ n) := by
  induction n using Nat.strong_induction_on with
  | _ n ih =>
    rcases Nat.lt_or_ge n 128 with hn | hn
    · rw [encode_of_lt hn]; simpa using hn
    · obtain ⟨h1, h2⟩ := ih (n / 128) (by omega)
      have hpos := encode_length_pos (n / 128)
      rw [encode_of_le hn, List.length_cons, Nat.add_sub_cancel, Nat.mul_succ, Nat.pow_add]
      generalize (encode (n / 128)).length = k at *
      refine ⟨by rw [Nat.div_lt_iff_lt_mul (by norm_num)] at h1; exact h1, fun _ => ?_⟩
      by_cases hk : k = 1
      · rw [hk]; exact hn
      · have h3 := h2 hk
        have : 2 ^ (7 * k) = 2 ^ (7 * (k - 1)) * 128 := by
          rw [show 7 * k = 7 * (k - 1) + 7 by omega, Nat.pow_add]
        omega

end Varint
