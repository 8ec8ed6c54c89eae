/-!
# Character predicates

Decimal digits, white space and line terminators of `src/strings/char-predicates.h`.
-/

namespace V8Core

def isDecimalDigit (c : Nat) : Bool := 48 ≤ c && c ≤ 57

theorem isDecimalDigit_digit {d : Nat} (h : d < 10) : isDecimalDigit (d + 48) = true := by
  simp only [isDecimalDigit, Bool.and_eq_true, decide_eq_true_eq]
  omega

/-- `IsWhiteSpace`: tab, vertical tab, form feed, the byte order mark and the Unicode space separators. -/
def isWhiteSpace (c : Nat) : Bool :=
  c == 0x09 || c == 0x0B || c == 0x0C || c == 0x20 || c == 0xA0 || c == 0xFEFF || c == 0x1680 ||
    (0x2000 ≤ c && c ≤ 0x200A) || c == 0x202F || c == 0x205F || c == 0x3000

def isWhiteSpaceOrLineTerminator (c : Nat) : Bool :=
  isWhiteSpace c || c == 0x0A || c == 0x0D || c == 0x2028 || c == 0x2029

end V8Core
