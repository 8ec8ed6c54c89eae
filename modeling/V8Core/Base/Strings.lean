import Mathlib.Algebra.Order.Ring.Nat
import Mathlib.Data.Int.Order.Basic

/-!
# Hexadecimal digits

The conversions of `base/strings.h` between characters and the values of hexadecimal
digits.
-/

namespace V8Core.Base

/-- The value of a hexadecimal digit. -/
def hexDigit (c : Nat) : Option Nat :=
  if 0x30 ≤ c ∧ c ≤ 0x39 then some (c - 0x30)
  else if 0x41 ≤ c ∧ c ≤ 0x46 then some (c - 0x41 + 10)
  else if 0x61 ≤ c ∧ c ≤ 0x66 then some (c - 0x61 + 10)
  else none

/-- `base::HexValue` for a `uc32` value. -/
def hexValue (c : Nat) : ℤ :=
  let c : Nat := (c + 2 ^ 32 - 0x30) % 2 ^ 32
  if c ≤ 9 then c
  else
    let c : Nat := ((c ||| 0x20) + 2 ^ 32 - 0x31) % 2 ^ 32
    if c ≤ 5 then c + 10 else -1

/-- `HexCharOfValue`. -/
def hexCharOfValue (value : Nat) : Nat := if value < 10 then value + 0x30 else value - 10 + 0x41

theorem hexDigit_le {c d : Nat} (h : hexDigit c = some d) : c ≤ 0x66 := by
  unfold hexDigit at h
  split at h
  · omega
  · split at h
    · omega
    · split at h
      · omega
      · cases h

theorem hexValue_of_hexDigit {c d : Nat} (h : hexDigit c = some d) : hexValue c = d ∧ d < 16 := by
  have hall : ∀ c ≤ 0x66, ∀ d ∈ hexDigit c, hexValue c = d ∧ d < 16 := by decide +kernel
  exact hall c (hexDigit_le h) d h

/-- No other character, and not the end, is taken for a digit. -/
theorem hexDigit_of_hexValue {c : Nat} (hc : c < 2 ^ 32) (h : ¬ hexValue c < 0) : ∃ d, hexDigit c = some d := by
  rcases Nat.lt_or_ge c 0x67 with hlt | hge
  · have hall : ∀ c < 0x67, ¬ hexValue c < 0 → (hexDigit c).isSome := by decide +kernel
    exact Option.isSome_iff_exists.1 (hall c hlt h)
  · -- the bit that makes a letter small does not make the number smaller
    exfalso
    apply h
    have hsub : (c + 2 ^ 32 - 0x30) % 2 ^ 32 = c - 0x30 := by omega
    have hle : c - 0x30 ≤ c - 0x30 ||| 0x20 := Nat.left_le_or
    have hlt : c - 0x30 ||| 0x20 < 2 ^ 32 := Nat.or_lt_two_pow (by omega) (by decide)
    have hsub' : ((c - 0x30 ||| 0x20) + 2 ^ 32 - 0x31) % 2 ^ 32 = (c - 0x30 ||| 0x20) - 0x31 := by omega
    unfold hexValue
    simp only [hsub, hsub']
    rw [if_neg (by omega), if_neg (by omega)]
    decide

end V8Core.Base
