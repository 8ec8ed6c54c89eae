import Mathlib.Data.Nat.Bitwise

/-!
# Unsigned machine words as numbers

Addition and subtraction of numbers below `2 ^ w` with the wrap-around of unsigned
integers, and rounding up to an alignment with a mask.
-/

namespace UnsignedWord

section
variable (w : Nat)

def addWord (a b : Nat) : Nat := (a + b) % 2 ^ w
def subWord (a b : Nat) : Nat := (a + (2 ^ w - b)) % 2 ^ w

/-- `IsAligned`: no bit below the alignment, a power of two. -/
def isAligned (value alignment : Nat) : Prop := value &&& subWord w alignment 1 = 0

instance (value alignment : Nat) : Decidable (isAligned w value alignment) := inferInstanceAs (Decidable (_ = _))

/-- `RoundUp`. -/
def roundUp (x m : Nat) : Nat := addWord w x (subWord w m 1) &&& subWord w 0 m
end

variable {w a b x m k : Nat}

theorem addWord_of_lt (h : a + b < 2 ^ w) : addWord w a b = a + b := Nat.mod_eq_of_lt h

theorem subWord_of_le (hle : b ≤ a) (ha : a < 2 ^ w) : subWord w a b = a - b := by
  have h : a + (2 ^ w - b) = a - b + 2 ^ w := by omega
  rw [subWord, h, Nat.add_mod_right, Nat.mod_eq_of_lt (by omega)]

theorem subWord_of_lt (hlt : a < b) (hb : b ≤ 2 ^ w) : subWord w a b = a + (2 ^ w - b) :=
  Nat.mod_eq_of_lt (by omega)

/-- Being aligned is being a multiple. -/
theorem isAligned_pow {k : Nat} (hk : 2 ^ k < 2 ^ w) {value : Nat} : isAligned w value (2 ^ k) ↔ 2 ^ k ∣ value := by
  have hpos : 0 < 2 ^ k := Nat.two_pow_pos k
  rw [isAligned, subWord_of_le hpos hk, Nat.and_two_pow_sub_one_eq_mod]
  exact (Nat.dvd_iff_mod_eq_zero).symm

/-- A word is its part under a mask and the rest. -/
theorem and_mask_add {y c : Nat} (hy : y < 2 ^ w) (hc : c < 2 ^ w) :
    (y &&& (2 ^ w - 1 - c)) + (y &&& c) = y ∧ (y &&& (2 ^ w - 1 - c)) &&& c = 0 := by
  have hY : (BitVec.ofNat w y).toNat = y := Nat.mod_eq_of_lt hy
  have hC : (BitVec.ofNat w c).toNat = c := Nat.mod_eq_of_lt hc
  generalize BitVec.ofNat w y = Y at hY
  generalize BitVec.ofNat w c = C at hC
  subst hY hC
  rw [← BitVec.toNat_not, ← BitVec.toNat_and, ← BitVec.toNat_and, ← BitVec.toNat_and]
  have hrest : (Y &&& ~~~C) &&& C = 0#w := by
    rw [BitVec.and_assoc, BitVec.and_comm (~~~C)]
    simp
  have hzero : (Y &&& ~~~C) &&& (Y &&& C) = 0#w := by
    rw [BitVec.and_comm Y C, ← BitVec.and_assoc, hrest, BitVec.zero_and]
  refine ⟨?_, by rw [hrest, BitVec.toNat_zero]⟩
  rw [← BitVec.toNat_add_of_and_eq_zero hzero, BitVec.add_eq_or_of_and_eq_zero _ _ hzero, ← BitVec.and_or_distrib_left]
  simp

/-- The mask of `RoundUp` has no bit below a power of two that divides the alignment. -/
theorem dvd_roundUp (hm : 0 < m) (hmw : m < 2 ^ w) (hk : 2 ^ k ∣ m) : 2 ^ k ∣ roundUp w x m := by
  have hkw : 2 ^ k ∣ 2 ^ w := by
    apply Nat.pow_dvd_pow
    exact (Nat.pow_le_pow_iff_right (by decide)).1 (Nat.le_trans (Nat.le_of_dvd hm hk) (Nat.le_of_lt hmw))
  rw [Nat.dvd_iff_mod_eq_zero, ← Nat.and_two_pow_sub_one_eq_mod, roundUp, subWord_of_lt hm (Nat.le_of_lt hmw),
    Nat.zero_add, Nat.and_assoc, Nat.and_two_pow_sub_one_eq_mod, Nat.mod_eq_zero_of_dvd (Nat.dvd_sub hkw hk),
    Nat.and_zero]

/-- `RoundUp` goes to the next aligned number, and to a multiple of what divides the alignment. -/
theorem roundUp_spec (hm : 0 < m) (hmw : m < 2 ^ w) (hx : x + (m - 1) < 2 ^ w) (hk : 2 ^ k ∣ m) :
    isAligned w (roundUp w x m) m ∧ x ≤ roundUp w x m ∧ roundUp w x m < x + m ∧ 2 ^ k ∣ roundUp w x m := by
  have hmask : 2 ^ w - m = 2 ^ w - 1 - (m - 1) := by omega
  have heq : roundUp w x m = (x + (m - 1)) &&& (2 ^ w - m) := by
    rw [roundUp, subWord_of_le hm hmw, addWord_of_lt hx, subWord_of_lt hm (Nat.le_of_lt hmw), Nat.zero_add]
  obtain ⟨hsum, hzero⟩ := and_mask_add hx (show m - 1 < 2 ^ w by omega)
  rw [← hmask, ← heq] at hsum hzero
  have hle : (x + (m - 1)) &&& (m - 1) ≤ m - 1 := Nat.and_le_right
  exact ⟨by rw [isAligned, subWord_of_le hm hmw, hzero], by omega, by omega, dvd_roundUp hm hmw hk⟩

end UnsignedWord
