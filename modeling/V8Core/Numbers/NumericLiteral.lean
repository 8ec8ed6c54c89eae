import V8Core.Numbers.StringToDouble
import Mathlib.Data.List.TakeWhile
/-!
# Numeric literals in strings

The grammar of `StringNumericLiteral`: a decimal literal or `Infinity` with an
optional sign, or an unsigned literal with a radix, each with its text and the
double nearest to its mathematical value. A text made of digits and something
that does not begin with one can be split in one way only.
-/

namespace V8Core.Numbers

open Decimal

/-! ## The grammar -/

def Sign.text : Sign → List Nat
  | .none => []
  | .negative => [45]
  | .positive => [43]

/-- The characters of decimal digits. -/
def digitText (ds : List Nat) : List Nat := ds.map (· + 48)

/-- The letter, an optional sign and digits. -/
structure ExponentPart where
  letter : Nat
  sign : Sign
  digits : List Nat
  isLetter : letter = 101 ∨ letter = 69
  isDigits : IsDigits digits
  nonempty : digits ≠ []

def ExponentPart.value (x : ExponentPart) : Int :=
  if x.sign = .negative then -(Decimal.value x.digits : Int) else Decimal.value x.digits

def exponentText : Option ExponentPart → List Nat
  | none => []
  | some x => x.letter :: (x.sign.text ++ digitText x.digits)

def exponentValue : Option ExponentPart → Int
  | none => 0
  | some x => x.value

/-- The point and the digits behind it. -/
def fractionText : Option (List Nat) → List Nat
  | none => []
  | some ds => 46 :: digitText ds

def fractionDigits (fraction : Option (List Nat)) : List Nat := fraction.getD []

/-- `StrDecimalLiteral` other than infinity. -/
structure DecimalLiteral where
  sign : Sign
  integer : List Nat
  fraction : Option (List Nat)
  exponent : Option ExponentPart
  isDigits : IsDigits integer ∧ IsDigits (fractionDigits fraction)
  some_digit : integer ≠ [] ∨ fractionDigits fraction ≠ []

namespace DecimalLiteral

variable (l : DecimalLiteral)

/-- The text behind the sign. -/
def unsignedText : List Nat := digitText l.integer ++ (fractionText l.fraction ++ exponentText l.exponent)

/-- The mathematical value without the sign. -/
def magnitude : ℚ :=
  value (l.integer ++ fractionDigits l.fraction) *
    10 ^ (exponentValue l.exponent - (fractionDigits l.fraction).length)

end DecimalLiteral

/-- The radixes with a literal of their own. -/
inductive LiteralRadix
  | hex
  | octal
  | binary
  deriving DecidableEq, Repr

namespace LiteralRadix

def log2 : LiteralRadix → Nat
  | .hex => 4
  | .octal => 3
  | .binary => 1

/-- The letters behind the zero. -/
def letters : LiteralRadix → List Nat
  | .hex => [120, 88]
  | .octal => [111, 79]
  | .binary => [98, 66]

end LiteralRadix

/-- `NonDecimalIntegerLiteral`. -/
structure RadixLiteral where
  radix : LiteralRadix
  letter : Nat
  chars : List Nat
  isLetter : letter ∈ radix.letters
  isDigits : ∀ c ∈ chars, isDigit c (2 ^ radix.log2) = true
  nonempty : chars ≠ []

inductive StringNumericLiteral
  | infinity (sign : Sign)
  | decimal (literal : DecimalLiteral)
  | nonDecimal (literal : RadixLiteral)

namespace StringNumericLiteral

def text : StringNumericLiteral → List Nat
  | infinity sign => sign.text ++ kInfinityString
  | decimal literal => literal.sign.text ++ literal.unsignedText
  | nonDecimal literal => 48 :: literal.letter :: literal.chars

/-- The double nearest to the mathematical value, with the sign kept for zero. -/
def nearest : StringNumericLiteral → Double
  | infinity sign => Double.infinity.withSign (sign == .negative)
  | decimal literal => (Double.ofRat literal.magnitude).withSign (literal.sign == .negative)
  | nonDecimal literal => Double.ofRat (denoted (2 ^ literal.radix.log2) literal.chars)

end StringNumericLiteral

/-- Only white space and line terminators. -/
def IsBlank (chars : List Nat) : Prop := ∀ c ∈ chars, isWhiteSpaceOrLineTerminator c = true

instance : DecidablePred IsBlank := fun chars =>
  inferInstanceAs (Decidable (∀ c ∈ chars, isWhiteSpaceOrLineTerminator c = true))

/-- The text is the literal with white space around it. -/
def Spells (chars : List Nat) (l : StringNumericLiteral) : Prop :=
  ∃ before after, IsBlank before ∧ IsBlank after ∧ chars = before ++ (l.text ++ after)

/-! ## Blank text -/

theorem advanceToNonspace_append {before : List Nat} (h : IsBlank before) (chars : List Nat) :
    advanceToNonspace (before ++ chars) = advanceToNonspace chars := by
  induction before with
  | nil => rfl
  | cons c before ih =>
    rw [advanceToNonspace, List.cons_append, List.dropWhile_cons_of_pos (h c List.mem_cons_self)]
    exact ih fun d hd => h d (List.mem_cons_of_mem c hd)

theorem advanceToNonspace_eq_nil {chars : List Nat} : advanceToNonspace chars = [] ↔ IsBlank chars := by
  rw [advanceToNonspace, List.dropWhile_eq_nil_iff]
  rfl

/-- A text begins with white space and goes on with something else. -/
theorem exists_blank_append (chars : List Nat) :
    ∃ before, IsBlank before ∧ chars = before ++ advanceToNonspace chars :=
  ⟨chars.takeWhile isWhiteSpaceOrLineTerminator, fun _ hc => List.mem_takeWhile_imp hc,
    (List.takeWhile_append_dropWhile ..).symm⟩

theorem advanceToNonspace_of_not {c : Nat} (h : isWhiteSpaceOrLineTerminator c = false) (rest : List Nat) :
    advanceToNonspace (c :: rest) = c :: rest :=
  List.dropWhile_cons_of_neg (by rw [h]; exact Bool.false_ne_true)

/-! ## Text behind digits -/

/-- The text does not begin with a decimal digit. -/
def NoDigit (chars : List Nat) : Prop := ∀ c ∈ chars.head?, isDecimalDigit c = false

theorem exists_digit {c : Nat} (h : isDecimalDigit c = true) : ∃ d < 10, c = d + 48 := by
  simp only [isDecimalDigit, Bool.and_eq_true, decide_eq_true_eq] at h
  exact ⟨c - 48, by omega, by omega⟩

theorem isDigits_nil : IsDigits [] := List.forall_mem_nil _

theorem noDigit_nil : NoDigit [] := fun c hc => by cases hc

theorem isDigits_cons {d : Nat} {ds : List Nat} : IsDigits (d :: ds) ↔ d < 10 ∧ IsDigits ds := List.forall_mem_cons

theorem isDigits_append {as bs : List Nat} : IsDigits (as ++ bs) ↔ IsDigits as ∧ IsDigits bs := List.forall_mem_append

theorem digitText_append (as bs : List Nat) : digitText (as ++ bs) = digitText as ++ digitText bs := List.map_append

theorem digitText_cons (d : Nat) (ds : List Nat) : digitText (d :: ds) = (d + 48) :: digitText ds := rfl

theorem digitText_replicate (z : Nat) : digitText (List.replicate z 0) = List.replicate z 48 := List.map_replicate

theorem exists_digit_split (chars : List Nat) :
    ∃ ds rest, IsDigits ds ∧ NoDigit rest ∧ chars = digitText ds ++ rest := by
  induction chars with
  | nil => exact ⟨[], [], nofun, nofun, rfl⟩
  | cons c rest ih =>
    cases hc : isDecimalDigit c with
    | false =>
      refine ⟨[], c :: rest, nofun, ?_, rfl⟩
      rintro _ ⟨⟩
      exact hc
    | true =>
      obtain ⟨d, hd, rfl⟩ := exists_digit hc
      obtain ⟨ds, tail, hds, htail, rfl⟩ := ih
      exact ⟨d :: ds, tail, isDigits_cons.mpr ⟨hd, hds⟩, htail, rfl⟩

theorem digit_split_unique {as bs r s : List Nat} (ha : IsDigits as) (hb : IsDigits bs) (hr : NoDigit r)
    (hs : NoDigit s) (h : digitText as ++ r = digitText bs ++ s) : as = bs ∧ r = s := by
  induction as generalizing bs with
  | nil =>
    cases bs with
    | nil => exact ⟨rfl, h⟩
    | cons b bs =>
      obtain rfl : r = (b + 48) :: (digitText bs ++ s) := h
      exact absurd (isDecimalDigit_digit (isDigits_cons.mp hb).1) (by rw [hr _ rfl]; exact Bool.false_ne_true)
  | cons a as ih =>
    cases bs with
    | nil =>
      obtain rfl : (a + 48) :: (digitText as ++ r) = s := h
      exact absurd (isDecimalDigit_digit (isDigits_cons.mp ha).1) (by rw [hs _ rfl]; exact Bool.false_ne_true)
    | cons b bs =>
      rw [digitText_cons, digitText_cons, List.cons_append, List.cons_append, List.cons.injEq] at h
      obtain ⟨rfl, rfl⟩ := ih (isDigits_cons.mp ha).2 (isDigits_cons.mp hb).2 h.2
      exact ⟨by rw [Nat.add_right_cancel h.1], rfl⟩

/-- The characters the parts of a literal begin with are told apart. -/
theorem not_digit_of_blank {c : Nat} (h : isWhiteSpaceOrLineTerminator c = true) :
    isDecimalDigit c = false ∧ c ≠ 46 ∧ c ≠ 101 ∧ c ≠ 69 ∧ c ≠ 43 ∧ c ≠ 45 ∧ c ≠ 73 := by
  simp only [isWhiteSpaceOrLineTerminator, isWhiteSpace, Bool.or_eq_true, beq_iff_eq, Bool.and_eq_true,
    decide_eq_true_eq] at h
  simp only [isDecimalDigit, Bool.and_eq_false_iff, decide_eq_false_iff_not]
  omega

theorem noDigit_blank {after : List Nat} (h : IsBlank after) : NoDigit after := by
  intro c hc
  exact (not_digit_of_blank (h c (List.mem_of_mem_head? hc))).1

theorem noDigit_exponent (x : Option ExponentPart) {after : List Nat} (h : IsBlank after) :
    NoDigit (exponentText x ++ after) := by
  cases x with
  | none => exact noDigit_blank h
  | some x =>
    rintro _ ⟨⟩
    rcases x.isLetter with h | h <;> rw [h] <;> rfl

theorem noDigit_fraction (f : Option (List Nat)) {rest : List Nat} (h : NoDigit rest) :
    NoDigit (fractionText f ++ rest) := by
  cases f with
  | none => exact h
  | some f =>
    rintro _ ⟨⟩
    rfl

end V8Core.Numbers
