import V8Core.Lib.Table
import Mathlib.Algebra.Order.Ring.Nat

/-!
# Flat strings

Strings of characters of one or two bytes.
-/

namespace V8Core.Strings

/-- The types of characters, `uint8_t` and `uc16`. -/
inductive CharWidth
  | oneByte
  | twoByte
  deriving DecidableEq, Repr

/-- `sizeof` of the type. -/
def CharWidth.size : CharWidth → Nat
  | .oneByte => 1
  | .twoByte => 2

/-- A vector of characters. -/
structure Text (w : CharWidth) where
  chars : List Nat
  bounded : ∀ c ∈ chars, c < 256 ^ w.size

namespace Text
variable {w : CharWidth} (v : Text w)

def length : ℤ := v.chars.length

def get (i : ℤ) : Option Nat := readAt v.chars i

def char (i : ℤ) : Nat := valueAt v.chars i

theorem get_eq {i : ℤ} (h0 : 0 ≤ i) (h : i < v.length) : v.get i = some (v.char i) := readAt_eq h0 h

theorem char_lt {i : ℤ} (h0 : 0 ≤ i) (h : i < v.length) : v.char i < 256 ^ w.size := v.bounded _ (valueAt_mem h0 h)

end Text

end V8Core.Strings
