import V8Core.Lib.Double
import V8Core.Lib.Positional
import V8Core.Lib.SignedInt
import V8Core.Strings.CharPredicates
import Mathlib.Data.Nat.Bitwise
/-!
# Integers in a radix that is a power of two

`InternalStringToIntDouble` of `src/numbers/conversions.cc`, which reads an
integer in radix 2, 4, 8, 16 or 32 into a double, and the case of
`parseInt` that calls it. The first 53 bits are kept in `number`; behind them
the loop only counts bits in `exponent`, an `int`, and remembers whether a
digit was not zero. Overflow of an `int` or `int64_t` is undefined, here
`none`.

The function returns the nearest double exactly as long as `exponent` fits.
That holds for every string in a radix up to 16, but a string in radix 32 may be
long enough to overflow it.
-/

namespace V8Core.Numbers

open Binary64 (roundQuot)
open Positional
open SignedInt

variable {allowTrailingJunk : Bool} {d v c : Nat} {rest : List Nat}

/-- The limit on the length of a string where pointers have eight bytes. -/
def kMaxLength : Nat := 2 ^ 29 - 24

/-! ## The code -/

def isDigit (x radix : Nat) : Bool :=
  (48 ≤ x && x ≤ 57 && x < 48 + radix) || (10 < radix && 97 ≤ x && x < 97 + radix - 10) ||
    (10 < radix && 65 ≤ x && x < 65 + radix - 10)

/-- What is left of the text from the first character that is not white space. -/
def advanceToNonspace (chars : List Nat) : List Nat := chars.dropWhile isWhiteSpaceOrLineTerminator

/-- The digit the loop reads off a character. -/
def digitOf (radix c : Nat) : Option Nat :=
  if 48 ≤ c ∧ c < 48 + min radix 10 then some (c - 48)
  else if 97 ≤ c ∧ c < 97 + radix - 10 then some (c - 97 + 10)
  else if 65 ≤ c ∧ c < 65 + radix - 10 then some (c - 65 + 10)
  else none

/-- The loop that counts the bits of `overflow`. -/
def overflowBitsCount (overflow count : Nat) : Nat :=
  if 1 < overflow then overflowBitsCount (overflow >>> 1) (count + 1) else count
termination_by overflow
decreasing_by rw [Nat.shiftRight_one]; omega

/-- What the loop over the digits behind the first 53 bits leaves. -/
structure Tail where
  rest : List Nat
  zeroTail : Bool
  exponent : Nat

def skipTail (radixLog2 : Nat) (zeroTail : Bool) (exponent : Nat) : List Nat → Option Tail
  | [] => some ⟨[], zeroTail, exponent⟩
  | c :: rest =>
    if isDigit c (2 ^ radixLog2) then do
      let exponent ← natInt (exponent + radixLog2)
      skipTail radixLog2 (zeroTail && c == 48) exponent rest
    else some ⟨c :: rest, zeroTail, exponent⟩

/-- How the reading ends: with the value of `JunkStringValue` or with a number and its binary exponent. -/
inductive Scanned
  | junk
  | number (number exponent : Nat)
  deriving DecidableEq

/-- The choice between rounding up and down, half way cases to even. -/
def roundUp (number droppedBits middleValue : Nat) (zeroTail : Bool) : Nat :=
  if middleValue < droppedBits then number + 1
  else if droppedBits = middleValue then
    if number &&& 1 ≠ 0 ∨ !zeroTail then number + 1 else number
  else number

/-- The branch taken when `number` has more than 53 bits; `rest` is the text behind its last digit. -/
def roundOverflow (radixLog2 : Nat) (allowTrailingJunk : Bool) (number overflow : Nat) (rest : List Nat) :
    Option Scanned := do
  let count := overflowBitsCount overflow 1
  let droppedBits := number % 2 ^ 32 &&& (1 <<< count - 1)
  let number := number >>> count
  let tail ← skipTail radixLog2 true count rest
  if !allowTrailingJunk && !(advanceToNonspace tail.rest).isEmpty then some .junk
  else
    let number := roundUp number droppedBits (1 <<< (count - 1)) tail.zeroTail
    -- rounding up may have carried into the next bit
    if number &&& 1 <<< 53 ≠ 0 then do
      let exponent ← natInt (tail.exponent + 1)
      some (.number (number >>> 1) exponent)
    else some (.number number tail.exponent)

/-- The loop over the digits. -/
def scan (radixLog2 : Nat) (allowTrailingJunk : Bool) (number : Nat) : List Nat → Option Scanned
  | [] => some (.number number 0)
  | c :: rest =>
    match digitOf (2 ^ radixLog2) c with
    | none =>
      if allowTrailingJunk || (advanceToNonspace (c :: rest)).isEmpty then some (.number number 0) else some .junk
    | some digit => do
      let number ← natInt64 (number * 2 ^ radixLog2 + digit)
      let overflow := number >>> 53
      if overflow ≠ 0 then roundOverflow radixLog2 allowTrailingJunk number overflow rest
      else scan radixLog2 allowTrailingJunk number rest

/-- The double made of what was read. -/
def Scanned.toDouble (negative : Bool) : Scanned → Double
  | .junk => .nan
  | .number n exponent =>
    if exponent = 0 then
      if negative then
        if n = 0 then .zero true else .ofRat (-n)
      else .ofRat n
    else (Double.ofRat (if negative then -n else n)).ldexp exponent

def internalStringToIntDouble (radixLog2 : Nat) (chars : List Nat) (negative allowTrailingJunk : Bool) :
    Option Double :=
  match chars.dropWhile (· == 48) with
  | [] => some (.zero negative)
  | c :: rest => (scan radixLog2 allowTrailingJunk 0 (c :: rest)).map (Scanned.toDouble negative)

/-- The radixes with a case in `HandlePowerOfTwoCase`. -/
inductive PowerOfTwoRadix
  | two
  | four
  | eight
  | sixteen
  | thirtyTwo
  deriving DecidableEq, Repr

/-- The template argument of the case. -/
def PowerOfTwoRadix.log2 : PowerOfTwoRadix → Nat
  | .two => 1
  | .four => 2
  | .eight => 3
  | .sixteen => 4
  | .thirtyTwo => 5

/-- `NumberParseIntHelper::HandlePowerOfTwoCase`: trailing junk is allowed and the sign is left to the caller. -/
def handlePowerOfTwoCase (radix : PowerOfTwoRadix) (chars : List Nat) : Option Double :=
  internalStringToIntDouble radix.log2 chars false true

variable {n radix k : Nat} {chars : List Nat}

/-! ## What the text denotes -/

/-- The digits the text begins with. -/
def digits (radix : Nat) : List Nat → List Nat
  | [] => []
  | c :: rest =>
    match digitOf radix c with
    | none => []
    | some digit => digit :: digits radix rest

/-- The text behind the digits. -/
def afterDigits (radix : Nat) (chars : List Nat) : List Nat := chars.dropWhile (isDigit · radix)

/-- The integer denoted by the longest part of the text made of digits. -/
def denoted (radix : Nat) (chars : List Nat) : Nat := value radix (digits radix chars)

theorem isSome_digitOf (radix c : Nat) : (digitOf radix c).isSome = isDigit c radix := by
  unfold digitOf isDigit
  grind

theorem digitOf_lt (h : digitOf radix c = some d) : d < radix := by
  unfold digitOf at h
  grind

theorem digitOf_eq_zero_iff (h : digitOf radix c = some d) : d = 0 ↔ c = 48 := by
  unfold digitOf at h
  grind

theorem lt_of_mem_digits (h : d ∈ digits radix chars) : d < radix := by
  induction chars with
  | nil => cases h
  | cons c rest ih =>
    rw [digits] at h
    split at h
    · cases h
    · rcases List.mem_cons.mp h with rfl | h
      · exact digitOf_lt ‹_›
      · exact ih h

theorem length_digits_le (base : Nat) (chars : List Nat) : (digits base chars).length ≤ chars.length := by
  induction chars with
  | nil => exact le_refl _
  | cons c rest ih =>
    rw [digits]
    split
    · exact Nat.zero_le _
    · exact Nat.succ_le_succ ih

theorem digits_append {cs : List Nat} (hcs : ∀ c ∈ cs, isDigit c radix = true)
    (hrest : ∀ c ∈ rest.head?, isDigit c radix = false) :
    digits radix (cs ++ rest) = digits radix cs ∧ afterDigits radix (cs ++ rest) = rest := by
  induction cs with
  | nil =>
    cases rest with
    | nil => exact ⟨rfl, rfl⟩
    | cons c rest =>
      have hc := hrest c rfl
      have hnone : digitOf radix c = none := by
        rw [← Option.not_isSome_iff_eq_none, isSome_digitOf, hc]
        exact Bool.false_ne_true
      simp only [List.nil_append, digits, hnone, afterDigits, List.dropWhile_cons, hc]
      exact ⟨trivial, rfl⟩
  | cons c cs ih =>
    obtain ⟨hdigits, hafter⟩ := ih fun d hd => hcs d (List.mem_cons_of_mem c hd)
    rw [List.cons_append, digits, digits, hdigits, afterDigits, List.dropWhile_cons, hcs c List.mem_cons_self]
    exact ⟨rfl, hafter⟩

/-! ## The loops -/

theorem overflowBitsCount_eq {overflow : Nat} (h : 0 < overflow) (count : Nat) :
    overflowBitsCount overflow count = overflow.log2 + count := by
  induction overflow using Nat.strong_induction_on generalizing count with
  | _ overflow ih =>
    rw [overflowBitsCount]
    split
    next hlt =>
      rw [Nat.shiftRight_one, ih (overflow / 2) (by omega) (by omega), Nat.log2_def overflow, if_pos (by omega)]
      omega
    next hle =>
      obtain rfl : overflow = 1 := by omega
      exact (Nat.zero_add count).symm

/-- The exponent grows with each digit, so only its last value decides about overflow. -/
theorem skipTail_eq {e : Nat} (he : e ≤ kMaxInt) (zeroTail : Bool) (chars : List Nat) :
    skipTail k zeroTail e chars =
      if e + k * (digits (2 ^ k) chars).length ≤ kMaxInt then
        some ⟨afterDigits (2 ^ k) chars, zeroTail && denoted (2 ^ k) chars == 0,
          e + k * (digits (2 ^ k) chars).length⟩
      else none := by
  induction chars generalizing e zeroTail with
  | nil => simp [skipTail, digits, afterDigits, denoted, value, valueFrom, he]
  | cons c rest ih =>
    have hsome := isSome_digitOf (2 ^ k) c
    rw [skipTail, digits, denoted, digits, afterDigits, List.dropWhile_cons]
    cases hd : digitOf (2 ^ k) c with
    | none =>
      rw [hd] at hsome
      simp [← hsome, value, valueFrom, he]
    | some d =>
      rw [hd, Option.isSome_some] at hsome
      have hzero : (value (2 ^ k) (d :: digits (2 ^ k) rest) == 0) = (c == 48 && denoted (2 ^ k) rest == 0) := by
        rw [Bool.eq_iff_iff, Bool.and_eq_true, beq_iff_eq, beq_iff_eq, beq_iff_eq, denoted,
          value_eq_zero_iff (by positivity), value_eq_zero_iff (by positivity), List.forall_mem_cons,
          digitOf_eq_zero_iff hd]
      have hlen : e + k * (digits (2 ^ k) rest).length.succ = e + k + k * (digits (2 ^ k) rest).length := by
        rw [Nat.mul_succ]
        omega
      simp only [← hsome, if_true, List.length_cons, hlen, hzero, ← Bool.and_assoc]
      rcases Nat.lt_or_ge kMaxInt (e + k) with hgt | hle
      · rw [natInt_of_gt hgt, if_neg (by omega)]
        rfl
      · rw [natInt_of_le hle]
        exact ih hle _

/-- What the reading of an integer ends with: the integer, or its first 53 bits rounded. -/
def normalized (v : Nat) : Option Scanned :=
  if v < 2 ^ 53 then some (.number v 0)
  else
    let q := roundQuot v (2 ^ (v.log2 - 52))
    if q = 2 ^ 53 then (natInt (v.log2 - 52 + 1)).map (.number (2 ^ 52))
    else (natInt (v.log2 - 52)).map (.number q)

/-- The text behind the digits is blank wherever that matters. -/
def NoJunk (radix : Nat) (allowTrailingJunk : Bool) (chars : List Nat) : Prop :=
  allowTrailingJunk = true ∨ advanceToNonspace (afterDigits radix chars) = []

/-- The bit behind the first 53. -/
theorem and_bit_53 {q : Nat} (h : q ≤ 2 ^ 53) : q &&& 1 <<< 53 ≠ 0 ↔ q = 2 ^ 53 := by
  rw [Nat.one_shiftLeft, Nat.and_two_pow]
  rcases Nat.lt_or_ge q (2 ^ 53) with hlt | hge
  · rw [Nat.testBit_lt_two_pow hlt]
    simpa using hlt.ne
  · obtain rfl : q = 2 ^ 53 := le_antisymm h hge
    decide

theorem and_low_mask (hc : c ≤ 32) (n : Nat) : n % 2 ^ 32 &&& (1 <<< c - 1) = n % 2 ^ c := by
  rw [Nat.one_shiftLeft, Nat.and_two_pow_sub_one_eq_mod, Nat.mod_mod_of_dvd _ (pow_dvd_pow 2 hc)]

theorem valueFrom_digits (k n : Nat) (chars : List Nat) :
    valueFrom (2 ^ k) n (digits (2 ^ k) chars) =
      n * 2 ^ (k * (digits (2 ^ k) chars).length) + denoted (2 ^ k) chars := by
  rw [valueFrom_eq, pow_mul, denoted]

theorem denoted_lt (k : Nat) (chars : List Nat) : denoted (2 ^ k) chars < 2 ^ (k * (digits (2 ^ k) chars).length) := by
  rw [pow_mul]
  exact value_lt fun _ => lt_of_mem_digits

/-- The first 53 bits of a number. -/
theorem leading_bits (h : 2 ^ 53 ≤ n) :
    2 ^ 52 ≤ n / 2 ^ (n.log2 - 52) ∧ n / 2 ^ (n.log2 - 52) < 2 ^ 53 := by
  have hlog : 53 ≤ n.log2 := (Nat.le_log2 (by omega)).mpr h
  rw [Nat.le_div_iff_mul_le (by positivity), Nat.div_lt_iff_lt_mul (by positivity), ← pow_add, ← pow_add,
    show 52 + (n.log2 - 52) = n.log2 by omega, show 53 + (n.log2 - 52) = n.log2 + 1 by omega]
  exact ⟨Nat.log2_self_le (by omega), Nat.lt_log2_self⟩

theorem roundQuot_le (h : 2 ^ 53 ≤ n) : roundQuot n (2 ^ (n.log2 - 52)) ≤ 2 ^ 53 :=
  le_trans (Binary64.roundQuot_le_succ n _) (leading_bits h).2

section Rounding

variable {k n : Nat} (hlow : 2 ^ 53 ≤ n) (hhigh : n < 2 ^ 63)
include hlow hhigh

theorem overflowBitsCount_bounds :
    overflowBitsCount (n >>> 53) 1 = n.log2 - 52 ∧ 53 ≤ n.log2 ∧ n.log2 ≤ 62 := by
  have hpos : n ≠ 0 := by omega
  have hge : 53 ≤ n.log2 := (Nat.le_log2 hpos).mpr hlow
  have hle : n.log2 < 63 := (Nat.log2_lt hpos).mpr hhigh
  refine ⟨?_, hge, by omega⟩
  have hlog := Binary64.log2_append (n := n / 2 ^ 53) (p := 53) (t := n % 2 ^ 53) (by omega) (Nat.mod_lt _ (by omega))
  rw [mul_comm, Nat.div_add_mod] at hlog
  rw [Nat.shiftRight_eq_div_pow, overflowBitsCount_eq (by omega)]
  omega

/-- The branch of the long numbers rounds off the digits it has read and those that follow. -/
theorem roundOverflow_eq (hjunk : NoJunk (2 ^ k) allowTrailingJunk rest) :
    roundOverflow k allowTrailingJunk n (n >>> 53) rest =
      normalized (valueFrom (2 ^ k) n (digits (2 ^ k) rest)) := by
  obtain ⟨hcount, hge, hle⟩ := overflowBitsCount_bounds hlow hhigh
  have ht := denoted_lt k rest
  have hc : n.log2 - 52 ≤ kMaxInt := le_trans (by omega) (show 10 ≤ kMaxInt by decide)
  have hv : n ≤ n * 2 ^ (k * (digits (2 ^ k) rest).length) := Nat.le_mul_of_pos_right _ (by positivity)
  have hlog : (n * 2 ^ (k * (digits (2 ^ k) rest).length) + denoted (2 ^ k) rest).log2 - 52 =
      n.log2 - 52 + k * (digits (2 ^ k) rest).length := by
    rw [Binary64.log2_append (by omega) ht]
    omega
  have hround : roundUp (n >>> (n.log2 - 52)) (n % 2 ^ 32 &&& (1 <<< (n.log2 - 52) - 1)) (1 <<< (n.log2 - 52 - 1))
      (true && denoted (2 ^ k) rest == 0) =
      roundQuot (n * 2 ^ (k * (digits (2 ^ k) rest).length) + denoted (2 ^ k) rest)
        (2 ^ (n.log2 - 52 + k * (digits (2 ^ k) rest).length)) := by
    rw [Binary64.roundQuot_append (by omega) ht, and_low_mask (by omega), roundUp, Nat.one_shiftLeft,
      Nat.shiftRight_eq_div_pow, Nat.and_one_is_mod]
    simp only [Bool.true_and, Bool.not_eq_true', beq_eq_false_iff_ne]
  have hnot : (!allowTrailingJunk && !(advanceToNonspace (afterDigits (2 ^ k) rest)).isEmpty) = false := by
    rcases hjunk with h | h <;> simp [h]
  have hq := roundQuot_le (n := n * 2 ^ (k * (digits (2 ^ k) rest).length) + denoted (2 ^ k) rest) (by omega)
  rw [hlog] at hq
  rw [valueFrom_digits, normalized, if_neg (by omega), hlog, roundOverflow, hcount]
  simp only [skipTail_eq hc]
  split
  next hfits =>
    simp only [Option.bind_eq_bind, Option.bind_some, hnot, Bool.false_eq_true, if_false, hround, and_bit_53 hq]
    split
    next hcarry => simp only [hcarry]; cases natInt _ <;> rfl
    next hsmall => rw [natInt_of_le hfits]; rfl
  next hbig =>
    rw [natInt_of_gt (not_le.mp hbig), natInt_of_gt (Nat.lt_succ_of_lt (not_le.mp hbig))]
    split <;> rfl

end Rounding

/-- The next digit does not overflow `number`. -/
theorem next_lt (hk : k ≤ 10) (hn : n < 2 ^ 53) (hd : d < 2 ^ k) : n * 2 ^ k + d < 2 ^ 63 := by
  have hpow : 2 ^ k ≤ 2 ^ 10 := Nat.pow_le_pow_right (by omega) hk
  have hmul : (n + 1) * 2 ^ k ≤ 2 ^ 53 * 2 ^ 10 := Nat.mul_le_mul hn hpow
  rw [add_mul] at hmul
  omega

theorem scan_eq (hk : k ≤ 10) (hn : n < 2 ^ 53)
    (hjunk : NoJunk (2 ^ k) allowTrailingJunk chars) :
    scan k allowTrailingJunk n chars = normalized (valueFrom (2 ^ k) n (digits (2 ^ k) chars)) := by
  have hnormal : normalized n = some (.number n 0) := if_pos hn
  induction chars generalizing n with
  | nil => rw [scan, digits, valueFrom, hnormal]
  | cons c rest ih =>
    have hsome := isSome_digitOf (2 ^ k) c
    rw [scan, digits]
    cases hd : digitOf (2 ^ k) c with
    | none =>
      rw [hd] at hsome
      have hdone : (allowTrailingJunk || (advanceToNonspace (c :: rest)).isEmpty) = true := by
        rw [NoJunk, afterDigits, List.dropWhile_cons, ← hsome] at hjunk
        simpa using hjunk
      simp only [hdone, if_true, valueFrom, hnormal]
    | some d =>
      rw [hd] at hsome
      have hrest : NoJunk (2 ^ k) allowTrailingJunk rest := by
        rw [NoJunk, afterDigits, List.dropWhile_cons, ← hsome] at hjunk
        exact hjunk
      have hnext := next_lt hk hn (digitOf_lt hd)
      simp only [natInt64, if_pos hnext, Option.bind_eq_bind, Option.bind_some]
      split
      next hover =>
        refine roundOverflow_eq ?_ hnext hrest
        omega
      next hsmall =>
        have hlt : n * 2 ^ k + d < 2 ^ 53 := by
          omega
        exact ih hlt hrest (if_pos hlt)

/-- A text that goes on behind the digits, where that is not allowed. -/
theorem roundOverflow_junk (hlow : 2 ^ 53 ≤ n) (hhigh : n < 2 ^ 63)
    (hjunk : advanceToNonspace (afterDigits (2 ^ k) rest) ≠ []) (hlen : k * rest.length + 10 ≤ kMaxInt) :
    roundOverflow k false n (n >>> 53) rest = some .junk := by
  obtain ⟨hcount, hge, hle⟩ := overflowBitsCount_bounds hlow hhigh
  have hdigits : k * (digits (2 ^ k) rest).length ≤ k * rest.length := Nat.mul_le_mul_left _ (length_digits_le _ _)
  rw [roundOverflow, hcount]
  simp only [skipTail_eq (show n.log2 - 52 ≤ kMaxInt by omega)]
  rw [if_pos (by omega), Option.bind_eq_bind, Option.bind_some, List.isEmpty_eq_false_iff.mpr hjunk]
  rfl

theorem scan_junk (hk : k ≤ 10) (hn : n < 2 ^ 53)
    (hjunk : advanceToNonspace (afterDigits (2 ^ k) chars) ≠ []) (hlen : k * chars.length + 10 ≤ kMaxInt) :
    scan k false n chars = some .junk := by
  induction chars generalizing n with
  | nil => exact absurd rfl hjunk
  | cons c rest ih =>
    have hsome := isSome_digitOf (2 ^ k) c
    rw [afterDigits, List.dropWhile_cons, ← hsome] at hjunk
    rw [List.length_cons, Nat.mul_succ] at hlen
    rw [scan]
    cases hd : digitOf (2 ^ k) c with
    | none =>
      rw [hd] at hjunk
      have hempty : (advanceToNonspace (c :: rest)).isEmpty = false := List.isEmpty_eq_false_iff.mpr hjunk
      simp only [hempty]
      rfl
    | some d =>
      rw [hd] at hjunk
      have hnext := next_lt hk hn (digitOf_lt hd)
      simp only [natInt64, if_pos hnext, Option.bind_eq_bind, Option.bind_some]
      split
      next hover =>
        refine roundOverflow_junk ?_ hnext hjunk (by omega)
        omega
      next hsmall =>
        refine ih ?_ hjunk (by omega)
        omega

/-! ## The double -/

theorem toDouble_eq (h : n ≤ 2 ^ 53) {exponent : Nat} (hexp : exponent ≠ 0 → n ≠ 0) (negative : Bool) :
    (Scanned.number n exponent).toDouble negative =
      (Double.ofRat ((n * 2 ^ exponent : Nat) : ℚ)).withSign negative := by
  rw [Scanned.toDouble]
  split
  next h0 =>
    subst h0
    rw [pow_zero, mul_one]
    cases negative with
    | false => rfl
    | true =>
      simp only [if_true]
      split
      next hzero =>
        subst hzero
        rw [Nat.cast_zero, Double.ofRat_zero]
        rfl
      next hpos => exact Double.ofRat_neg (Nat.cast_ne_zero.mpr hpos)
  next hne =>
    have hn := hexp hne
    have hscale : ((n * 2 ^ exponent : Nat) : ℚ) = ((n : Int) : ℚ) * 2 ^ exponent := by push_cast; rfl
    have hpos : ((n : Int) : ℚ) * 2 ^ exponent ≠ 0 := mul_ne_zero (by exact_mod_cast hn) (by positivity)
    rw [hscale]
    cases negative with
    | false => exact Double.ldexp_ofRat (n := n) (by omega) (by omega) exponent
    | true =>
      have hneg := Double.ldexp_ofRat (n := -n) (by omega) (by omega) exponent
      rw [Int.cast_neg, neg_mul, Double.ofRat_neg hpos] at hneg
      exact hneg

theorem normalized_toDouble {s : Scanned} (h : normalized v = some s) (negative : Bool) :
    s.toDouble negative = (Double.ofRat v).withSign negative := by
  rw [normalized] at h
  split at h
  next hsmall =>
    obtain rfl := Option.some.inj h
    rw [toDouble_eq hsmall.le (absurd rfl), pow_zero, mul_one]
  next hbig =>
    rw [not_lt] at hbig
    obtain ⟨hlow, hhigh⟩ := leading_bits hbig
    have hge := Binary64.div_le_roundQuot v (2 ^ (v.log2 - 52))
    have hle := roundQuot_le hbig
    rw [Double.ofRat_roundQuot hlow hhigh]
    dsimp only at h
    split at h
    next hcarry =>
      obtain ⟨e, he, rfl⟩ := Option.map_eq_some_iff.mp h
      obtain rfl : v.log2 - 52 + 1 = e := by
        rw [natInt, Option.ite_none_right_eq_some] at he
        exact Option.some.inj he.2
      have hpow : 2 ^ 52 * 2 ^ (v.log2 - 52 + 1) = 2 ^ 53 * 2 ^ (v.log2 - 52) := by ring
      rw [toDouble_eq (by omega) (by omega), hcarry, hpow]
    next hfits =>
      obtain ⟨e, he, rfl⟩ := Option.map_eq_some_iff.mp h
      obtain rfl : v.log2 - 52 = e := by
        rw [natInt, Option.ite_none_right_eq_some] at he
        exact Option.some.inj he.2
      rw [toDouble_eq (by omega) (by omega)]

/-- When rounding at a bit fills the one above the first 53. -/
theorem roundQuot_eq_iff {M : Nat} (hM : 0 < M) (hlow : 2 ^ 52 ≤ v / 2 ^ M) (hhigh : v / 2 ^ M < 2 ^ 53) :
    roundQuot v (2 ^ M) = 2 ^ 53 ↔ 2 ^ (M + 53) - 2 ^ (M - 1) ≤ v := by
  obtain ⟨h, hh⟩ : ∃ h, h = 2 ^ (M - 1) := ⟨_, rfl⟩
  have hpos : 0 < h := by rw [hh]; positivity
  have hd : 2 ^ M = 2 * h := by
    rw [hh, ← pow_succ']
    congr 1
    omega
  have hv := Nat.div_add_mod v (2 ^ M)
  have hr := Nat.mod_lt v (show 0 < 2 ^ M by positivity)
  rw [roundQuot, pow_add, ← hh, hd]
  rw [hd] at hv hr hlow hhigh
  generalize v / (2 * h) = m at *
  generalize v % (2 * h) = r at *
  rcases Nat.lt_or_ge m (2 ^ 53 - 1) with hlt | hge
  · have hle : 2 * h * (m + 1) ≤ 2 * h * (2 ^ 53 - 1) := Nat.mul_le_mul_left _ hlt
    rw [mul_add] at hle
    constructor
    · intro heq
      split at heq
      · omega
      · split at heq <;> omega
    · omega
  · obtain rfl : m = 2 ^ 53 - 1 := by omega
    constructor
    · intro heq
      split at heq <;> omega
    · intro hle
      rw [if_neg (by omega)]
      split <;> omega

theorem lt_limit {M : Nat} (hM : 0 < M) (h : v < 2 ^ (M + 52)) : v < 2 ^ (M + 53) - 2 ^ (M - 1) := by
  have hpow : 2 ^ (M - 1) ≤ 2 ^ (M + 52) := Nat.pow_le_pow_right (by omega) (by omega)
  have hdouble : 2 ^ (M + 53) = 2 * 2 ^ (M + 52) := pow_succ' 2 (M + 52)
  omega

/-- The numbers whose binary exponent fits, with the bit that rounding may add. -/
theorem normalized_isSome_iff (v : Nat) :
    (normalized v).isSome = true ↔ v < 2 ^ (kMaxInt + 53) - 2 ^ (kMaxInt - 1) := by
  have hint : ∀ n s, ((natInt n).map (Scanned.number s)).isSome = true ↔ n ≤ kMaxInt := by
    intro n s
    rw [natInt]
    split <;> simp [*]
  have hM : 0 < kMaxInt := by decide
  generalize kMaxInt = M at *
  rw [normalized]
  split
  next hsmall =>
    have h53 : 2 ^ 53 ≤ 2 ^ (M + 52) := Nat.pow_le_pow_right (by omega) (by omega)
    exact iff_of_true rfl (lt_limit hM (lt_of_lt_of_le hsmall h53))
  next hbig =>
    rw [not_lt] at hbig
    have hlog : 53 ≤ v.log2 := (Nat.le_log2 (by omega)).mpr hbig
    have hlow := Nat.log2_self_le (n := v) (by omega)
    have hhigh := Nat.lt_log2_self (n := v)
    dsimp only
    rcases lt_trichotomy (v.log2 - 52) M with hlt | heq | hgt
    · have hfits : v < 2 ^ (M + 52) := lt_of_lt_of_le hhigh (Nat.pow_le_pow_right (by omega) (by omega))
      refine iff_of_true ?_ (lt_limit hM hfits)
      split <;> exact (hint _ _).mpr (by omega)
    · obtain ⟨hlow, hhigh⟩ := leading_bits hbig
      rw [heq] at hlow hhigh ⊢
      have hcarry := roundQuot_eq_iff hM hlow hhigh
      split
      next h => exact iff_of_false (by rw [hint]; omega) (by rw [not_lt]; exact hcarry.mp h)
      next h => exact iff_of_true ((hint _ _).mpr (le_refl _)) (by omega)
    · have hlarge : 2 ^ (M + 53) ≤ v := le_trans (Nat.pow_le_pow_right (by omega) (by omega)) hlow
      refine iff_of_false ?_ (not_lt.mpr (le_trans (Nat.sub_le _ _) hlarge))
      split <;> · rw [hint]; omega

/-! ## The whole function -/

theorem digitOf_zero (h : 0 < radix) : digitOf radix 48 = some 0 := if_pos (by omega)

theorem isDigit_zero (h : 0 < radix) : isDigit 48 radix = true := by
  rw [← isSome_digitOf, digitOf_zero h]
  rfl

theorem denoted_zero_cons (h : 0 < radix) (rest : List Nat) :
    denoted radix (48 :: rest) = denoted radix rest := by
  rw [denoted, digits, digitOf_zero h]
  simp only [value_cons, zero_mul, zero_add, denoted]

/-- Leading zeros change neither the integer nor the text behind it. -/
theorem skip_zeros (radix : Nat) (h : 0 < radix) (chars : List Nat) :
    denoted radix (chars.dropWhile (· == 48)) = denoted radix chars ∧
      afterDigits radix (chars.dropWhile (· == 48)) = afterDigits radix chars := by
  induction chars with
  | nil => exact ⟨rfl, rfl⟩
  | cons c rest ih =>
    rw [List.dropWhile_cons]
    split
    next hc =>
      obtain rfl : c = 48 := by simpa using hc
      rw [denoted_zero_cons h, ih.1, ih.2, afterDigits, afterDigits, List.dropWhile_cons, isDigit_zero h]
      exact ⟨rfl, rfl⟩
    next => exact ⟨rfl, rfl⟩

/-- The function makes a double of the integer the text denotes, if the binary exponent fits. -/
theorem internalStringToIntDouble_eq (hk : k ≤ 10)
    (hjunk : NoJunk (2 ^ k) allowTrailingJunk chars) (negative : Bool) :
    internalStringToIntDouble k chars negative allowTrailingJunk =
      if denoted (2 ^ k) chars < 2 ^ (kMaxInt + 53) - 2 ^ (kMaxInt - 1) then
        some ((Double.ofRat (denoted (2 ^ k) chars)).withSign negative)
      else none := by
  obtain ⟨hvalue, hafter⟩ := skip_zeros (2 ^ k) (by positivity) chars
  have hfits := normalized_isSome_iff (denoted (2 ^ k) chars)
  rw [internalStringToIntDouble]
  split
  next hzero =>
    have h0 : denoted (2 ^ k) chars = 0 := by
      rw [← hvalue, hzero]
      rfl
    rw [h0] at hfits ⊢
    rw [if_pos (hfits.mp rfl), Nat.cast_zero, Double.ofRat_zero]
    cases negative <;> rfl
  next c rest hrest =>
    rw [← hrest, scan_eq hk (by positivity) (by rw [NoJunk, hafter]; exact hjunk)]
    rw [show valueFrom (2 ^ k) 0 (digits (2 ^ k) (chars.dropWhile (· == 48))) = denoted (2 ^ k) chars from hvalue]
    cases hn : normalized (denoted (2 ^ k) chars) with
    | none =>
      rw [hn] at hfits
      rw [if_neg fun h => Bool.false_ne_true (hfits.mpr h)]
      rfl
    | some s =>
      rw [hn] at hfits
      rw [if_pos (hfits.mp rfl), Option.map_some, normalized_toDouble hn]

theorem internalStringToIntDouble_junk (hk : k ≤ 10)
    (hjunk : advanceToNonspace (afterDigits (2 ^ k) chars) ≠ []) (hlen : k * chars.length + 10 ≤ kMaxInt)
    (negative : Bool) : internalStringToIntDouble k chars negative false = some .nan := by
  obtain ⟨-, hafter⟩ := skip_zeros (2 ^ k) (by positivity) chars
  rw [← hafter] at hjunk
  have hshort : k * (chars.dropWhile (· == 48)).length ≤ k * chars.length :=
    Nat.mul_le_mul_left _ (List.dropWhile_suffix _).length_le
  rw [internalStringToIntDouble]
  split
  next hzero =>
    rw [hzero] at hjunk
    exact absurd rfl hjunk
  next c rest hrest =>
    rw [← hrest, scan_junk hk (by positivity) hjunk (by omega)]
    rfl

/-- The integer is below the limit if the text is short. -/
theorem denoted_lt_limit (hlen : k * chars.length ≤ kMaxInt + 52) :
    denoted (2 ^ k) chars < 2 ^ (kMaxInt + 53) - 2 ^ (kMaxInt - 1) := by
  have hdigits : k * (digits (2 ^ k) chars).length ≤ k * chars.length := Nat.mul_le_mul_left _ (length_digits_le _ _)
  exact lt_limit (by decide)
    (lt_of_lt_of_le (denoted_lt _ _) (Nat.pow_le_pow_right (by omega) (le_trans hdigits hlen)))

/-- A string that `parseInt` hands over: it begins with a digit. -/
structure RadixString (radix : PowerOfTwoRadix) where
  chars : List Nat
  short : chars.length ≤ kMaxLength
  starts : ∃ c rest, chars = c :: rest ∧ isDigit c (2 ^ radix.log2) = true

namespace RadixString

variable {radix : PowerOfTwoRadix} (s : RadixString radix)

/-- The integer denoted by the longest part of the string made of digits. -/
def integer : Nat := denoted (2 ^ radix.log2) s.chars

theorem handlePowerOfTwoCase_eq :
    handlePowerOfTwoCase radix s.chars =
      if s.integer < 2 ^ (kMaxInt + 53) - 2 ^ (kMaxInt - 1) then some (Double.ofRat s.integer) else none :=
  internalStringToIntDouble_eq (by cases radix <;> decide) (Or.inl rfl) false

/-- The result is the nearest double, infinity included, and nothing overflows, just below the limit on the integer. -/
theorem handlePowerOfTwoCase_correct_iff :
    handlePowerOfTwoCase radix s.chars = some (Double.ofRat s.integer) ↔
      s.integer < 2 ^ (kMaxInt + 53) - 2 ^ (kMaxInt - 1) := by
  rw [handlePowerOfTwoCase_eq]
  split
  next h => exact iff_of_true rfl h
  next h => exact iff_of_false nofun h

end RadixString

/-! ## Long strings in radix 32 -/

/-- A string of ones, `n` of them behind the first. -/
def ones (radix : PowerOfTwoRadix) (n : Nat) (h : n < kMaxLength) : RadixString radix where
  chars := List.replicate (n + 1) 49
  short := le_of_eq_of_le List.length_replicate h
  starts := ⟨49, List.replicate n 49, List.replicate_succ, by cases radix <;> rfl⟩

theorem digits_ones (h : 1 < radix) (n : Nat) :
    digits radix (List.replicate n 49) = List.replicate n 1 := by
  have hone : digitOf radix 49 = some 1 := if_pos (by omega)
  induction n with
  | zero => rfl
  | succ n ih => simp only [List.replicate_succ, digits, hone, ih]

theorem pow_le_denoted_ones (h : 1 < radix) (n : Nat) :
    radix ^ n ≤ denoted radix (List.replicate (n + 1) 49) := by
  rw [denoted, digits_ones h, List.replicate_succ, value_cons, List.length_replicate, one_mul]
  exact Nat.le_add_right _ _

/-- Enough ones make the exponent overflow. -/
theorem handlePowerOfTwoCase_ones (h : n < kMaxLength) (hlong : kMaxInt + 53 ≤ 5 * n) :
    handlePowerOfTwoCase .thirtyTwo (ones .thirtyTwo n h).chars = none := by
  have hle : 2 ^ (kMaxInt + 53) ≤ (ones .thirtyTwo n h).integer :=
    calc 2 ^ (kMaxInt + 53) ≤ 2 ^ (5 * n) := Nat.pow_le_pow_right (by omega) hlong
      _ = (2 ^ 5) ^ n := pow_mul 2 5 n
      _ ≤ (ones .thirtyTwo n h).integer := pow_le_denoted_ones (by decide) n
  rw [RadixString.handlePowerOfTwoCase_eq, if_neg]
  exact not_lt.mpr (le_trans (Nat.sub_le _ _) hle)

/-- A string of the greatest length: the exponent overflows, though the integer has a nearest double, infinity. -/
theorem handlePowerOfTwoCase_longest :
    handlePowerOfTwoCase .thirtyTwo (ones .thirtyTwo (kMaxLength - 1) (by decide)).chars = none :=
  handlePowerOfTwoCase_ones _ (by decide)

end V8Core.Numbers
