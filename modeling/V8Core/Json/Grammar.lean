import V8Core.Base.Strings
import Mathlib.Data.List.Forall2
import Mathlib.Data.Int.Order.Basic

/-!
# The JSON grammar

The strings of ECMA-404 over sequences of code units, and the code units that a text denotes.
-/

namespace V8Core.Json

open Base

/-! ## Code units -/

def quote : Nat := 0x22

def backslash : Nat := 0x5C

def minus : Nat := 0x2D

/-! ## Strings -/

/-- The character for which a letter after a backslash stands. -/
def escaped (c : Nat) : Option Nat :=
  if c = quote ∨ c = backslash ∨ c = 0x2F then some c
  else if c = 0x62 then some 0x08
  else if c = 0x66 then some 0x0C
  else if c = 0x6E then some 0x0A
  else if c = 0x72 then some 0x0D
  else if c = 0x74 then some 0x09
  else none

/-- The text between the quotes, and the code units it denotes. -/
inductive IsChars : List Nat → List Nat → Prop
  | nil : IsChars [] []
  | plain {c : Nat} {cs units : List Nat} : 0x20 ≤ c → c ≠ quote → c ≠ backslash → IsChars cs units →
      IsChars (c :: cs) (c :: units)
  | escape {c u : Nat} {cs units : List Nat} : escaped c = some u → IsChars cs units →
      IsChars (backslash :: c :: cs) (u :: units)
  | unicode {c1 c2 c3 c4 d1 d2 d3 d4 : Nat} {cs units : List Nat} : hexDigit c1 = some d1 → hexDigit c2 = some d2 →
      hexDigit c3 = some d3 → hexDigit c4 = some d4 → IsChars cs units →
      IsChars (backslash :: 0x75 :: c1 :: c2 :: c3 :: c4 :: cs) ((((d1 * 16 + d2) * 16 + d3) * 16 + d4) :: units)

end V8Core.Json
