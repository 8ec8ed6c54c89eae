import V8Core.Bigint.Bitwise
/-!
# The BigInt object

`objects/bigint.h` and the first half of `objects/bigint.cc`: the heap object
around the digits, and the bitwise operations. A `BigInt` carries what every
BigInt on the heap satisfies: no leading zero digit, no negative zero, at most
`kMaxLength` digits. The operations build a `MutableBigInt` first and hand it to
`makeImmutable`; a step the code could not survive (a thrown exception, an
abort, a write outside the object) is a `Fault`.
-/

open Radix V8Core.Bigint

namespace V8Core.Objects

/-! ## Targets and limits -/

/-- The supported targets, told apart by the size of a pointer. -/
inductive Target
  | bits32
  | bits64
  deriving DecidableEq, Repr

/-- `kDigitBits`: a digit is as wide as a pointer. -/
def Target.kDigitBits : Target → Nat
  | .bits32 => 32
  | .bits64 => 64

theorem Target.kDigitBits_pos (t : Target) : 0 < t.kDigitBits := by cases t <;> decide

/-- `kMaxLengthBits`: about one billion. -/
@[irreducible] def kMaxLengthBits : Nat := 2 ^ 30

/-- `kMaxLength`, in digits. -/
def kMaxLength (t : Target) : Nat := kMaxLengthBits / t.kDigitBits

theorem kMaxLength_mul (t : Target) : t.kDigitBits * kMaxLength t = kMaxLengthBits := by
  cases t <;> simp [kMaxLength, kMaxLengthBits, Target.kDigitBits]

theorem kMaxLength_pos (t : Target) : 0 < kMaxLength t := by
  cases t <;> simp [kMaxLength, kMaxLengthBits, Target.kDigitBits]

/-- What stops an operation. -/
inductive Fault
  /-- `ThrowBigIntTooBig`. -/
  | rangeError
  /-- A failed `CHECK` or a `FATAL`: the process aborts. -/
  | fatal
  /-- A write outside the object, or a malformed BigInt handed out. -/
  | malformed
  deriving DecidableEq, Repr

/-- `ToHandleChecked()`: an exception here aborts the process. -/
def toHandleChecked {α : Type} : Except Fault α → Except Fault α
  | .error .rangeError => .error .fatal
  | r => r

/-! ## Objects -/

/-- An immutable BigInt. -/
structure BigInt (t : Target) where
  sign : Bool
  digits : List (BitVec t.kDigitBits)
  normalized : IsDigitNormalized digits
  sign_of_zero : digits = [] → sign = false
  length_le : digits.length ≤ kMaxLength t

/-- A BigInt under construction. -/
structure MutableBigInt (t : Target) where
  sign : Bool
  digits : List (BitVec t.kDigitBits)
  length_le : digits.length ≤ kMaxLength t

variable {t : Target}
variable {Z : List (BitVec t.kDigitBits)}

def BigInt.length (x : BigInt t) : Nat := x.digits.length

def BigInt.isZero (x : BigInt t) : Bool := x.length == 0

/-- The integer a BigInt stands for. -/
def BigInt.toInt (x : BigInt t) : ℤ := signedValue x.sign x.digits

/-- The operation returns a BigInt for `v`. -/
def Returns (r : Except Fault (BigInt t)) (v : ℤ) : Prop := ∃ z, r = .ok z ∧ z.toInt = v

variable (x : BigInt t)

theorem BigInt.value_pos (h : x.digits ≠ []) : 0 < value x.digits := by
  have := le_value_of_normalized x.normalized h
  have : 0 < 2 ^ (t.kDigitBits * (x.digits.length - 1)) := by positivity
  omega

theorem BigInt.value_pos_of_sign (h : x.sign = true) : 0 < value x.digits :=
  x.value_pos fun h0 => by simp [x.sign_of_zero h0] at h

theorem BigInt.toInt_neg_iff : x.toInt < 0 ↔ x.sign = true := by
  unfold BigInt.toInt signedValue
  cases hs : x.sign with
  | false => simp
  | true => have := x.value_pos_of_sign hs; simp; omega

theorem BigInt.natAbs_toInt : x.toInt.natAbs = value x.digits := by
  unfold BigInt.toInt signedValue
  split <;> simp

theorem BigInt.toInt_of_isZero (h : x.isZero = true) : x.toInt = 0 := by
  have : x.digits = [] := by simpa [isZero, length] using h
  simp [toInt, signedValue, this]

/-! ## Construction -/

/-- `MutableBigInt::New(length)`. -/
def MutableBigInt.new (length : Nat) : Except Fault (MutableBigInt t) :=
  if h : length > kMaxLength t then .error .rangeError
  else .ok ⟨false, List.replicate length 0, by simpa using h⟩

/-- `Factory::NewBigInt(length)`, which aborts the process past the limit. -/
def MutableBigInt.newBigInt (length : Nat) : Except Fault (MutableBigInt t) :=
  if h : length > kMaxLength t then .error .fatal
  else .ok ⟨false, List.replicate length 0, by simpa using h⟩

/-- The digits written through `GetRWDigits(result)`: all of them and no more. -/
def MutableBigInt.writeDigits (result : MutableBigInt t) (Z : List (BitVec t.kDigitBits)) :
    Except Fault (MutableBigInt t) :=
  if h : Z.length = result.digits.length then .ok ⟨result.sign, Z, h ▸ result.length_le⟩
  else .error .malformed

def MutableBigInt.setSign (result : MutableBigInt t) (sign : Bool) : MutableBigInt t := { result with sign }

/-- `Canonicalize(result)`: trims leading zero digits; the sign of a zero is
only cleared if there was something to trim. -/
def MutableBigInt.canonicalize (result : MutableBigInt t) : MutableBigInt t :=
  let newLength := (normalize result.digits).length
  let toTrim := result.digits.length - newLength
  if toTrim ≠ 0 then
    ⟨if newLength = 0 then false else result.sign, normalize result.digits,
      le_trans (length_normalize_le _) result.length_le⟩
  else result

theorem MutableBigInt.canonicalize_digits (result : MutableBigInt t) :
    result.canonicalize.digits = normalize result.digits := by
  simp only [canonicalize]
  split
  · rfl
  · rename_i h
    have hz := normalize_append_zeros result.digits
    rw [show result.digits.length - (normalize result.digits).length = 0 by omega, List.replicate_zero,
      List.append_nil] at hz
    exact hz

/-- `MakeImmutable(result)`. -/
def MutableBigInt.makeImmutable (result : MutableBigInt t) : Except Fault (BigInt t) :=
  let result' := result.canonicalize
  if h : result'.digits = [] → result'.sign = false then
    .ok ⟨result'.sign, result'.digits, by rw [canonicalize_digits]; exact isDigitNormalized_normalize _, h,
      result'.length_le⟩
  else .error .malformed

/-- The digits and the sign set, and the object handed out. -/
def MutableBigInt.finish (result : MutableBigInt t) (sign : Bool) (Z : List (BitVec t.kDigitBits)) :
    Except Fault (BigInt t) := do
  let result ← result.writeDigits Z
  (result.setSign sign).makeImmutable

theorem MutableBigInt.makeImmutable_returns (result : MutableBigInt t)
    (h : result.digits = [] → result.sign = false) :
    Returns result.makeImmutable (signedValue result.sign result.digits) := by
  have hsign : result.canonicalize.sign = if value result.digits = 0 then false else result.sign := by
    simp only [canonicalize, List.length_eq_zero_iff, normalize_eq_nil_iff]
    split
    · rfl
    · rename_i h0
      split
      · rename_i hv
        refine h ?_
        rw [← List.length_eq_zero_iff]
        have := (normalize_eq_nil_iff result.digits).2 hv
        rw [this] at h0
        simpa using h0
      · rfl
  have hz : result.canonicalize.digits = [] → result.canonicalize.sign = false := by
    intro h0
    rw [canonicalize_digits, normalize_eq_nil_iff] at h0
    rw [hsign, if_pos h0]
  refine ⟨_, dif_pos hz, ?_⟩
  simp only [BigInt.toInt, signedValue, canonicalize_digits, value_normalize, hsign]
  by_cases hv : value result.digits = 0
  · simp [hv]
  · simp [hv]

variable {length : Nat}

theorem MutableBigInt.toHandleChecked_new (h : length ≤ kMaxLength t) :
    toHandleChecked (new length : Except Fault (MutableBigInt t)) = new length := by
  rw [new, dif_neg (by omega)]; rfl

theorem MutableBigInt.newBigInt_eq (h : length ≤ kMaxLength t) :
    (newBigInt length : Except Fault (MutableBigInt t)) = new length := by
  rw [new, newBigInt, dif_neg (by omega), dif_neg (by omega)]

theorem MutableBigInt.new_writeDigits (hZ : Z.length = length) (hmax : length ≤ kMaxLength t) :
    (new length >>= fun result => result.writeDigits Z) = .ok ⟨false, Z, hZ ▸ hmax⟩ := by
  subst hZ
  rw [new, dif_neg (by omega)]
  exact dif_pos (by simp)

/-- `New` succeeds within the limit and the filled object stands for its digits. -/
theorem MutableBigInt.new_finish {sign : Bool} {v : ℤ} (h : signedValue sign Z = v ∧ Z.length = length)
    (hmax : length ≤ kMaxLength t) (hs : length = 0 → sign = false) :
    Returns (new length >>= fun result => result.finish sign Z) v := by
  obtain ⟨rfl, rfl⟩ := h
  unfold finish
  rw [← bind_assoc, new_writeDigits rfl hmax]
  exact makeImmutable_returns _ fun h => hs (by simpa [setSign] using congrArg List.length h)

/-- The same where the caller relies on the length being within the limit. -/
theorem MutableBigInt.checked_finish {sign : Bool} {v : ℤ}
    (h : signedValue sign Z = v ∧ Z.length = length) (hmax : length ≤ kMaxLength t) (hs : length = 0 → sign = false) :
    Returns (toHandleChecked (new length) >>= fun result => result.finish sign Z) v := by
  rw [toHandleChecked_new hmax]
  exact new_finish h hmax hs

theorem MutableBigInt.new_tooBig (h : kMaxLength t < length) {α : Type}
    (f : MutableBigInt t → Except Fault α) : (new length >>= f) = .error .rangeError := by
  rw [new, dif_pos h]; rfl

/-- `Zero(isolate)`. -/
def BigInt.zero (t : Target) : BigInt t := ⟨false, [], by simp [IsDigitNormalized], fun _ => rfl, Nat.zero_le _⟩

/-- `NewFromInt(value)`. -/
def MutableBigInt.newFromInt (value : Int) : Except Fault (BigInt t) :=
  if value = 0 then .ok (BigInt.zero t)
  else do
    let result ← newBigInt 1
    result.finish (value < 0) [BitVec.ofNat t.kDigitBits value.natAbs]

@[simp] theorem BigInt.toInt_zero : (BigInt.zero t).toInt = 0 := rfl

theorem MutableBigInt.newFromInt_returns {v : Int} (h : v.natAbs < 2 ^ t.kDigitBits) :
    Returns (newFromInt v : Except Fault (BigInt t)) v := by
  unfold newFromInt
  split
  · rename_i h0; exact ⟨_, rfl, by rw [h0]; rfl⟩
  · rw [newBigInt_eq (kMaxLength_pos t)]
    refine new_finish ⟨?_, rfl⟩ (kMaxLength_pos t) (fun h => absurd h Nat.one_ne_zero)
    simp only [signedValue, value_cons, value_nil, BitVec.toNat_ofNat, Nat.mod_eq_of_lt h, decide_eq_true_eq]
    split <;> omega

/-! ## The limit -/

/-- The digits an integer needs. -/
def digitCount (t : Target) (v : ℤ) : Nat := (Nat.digits (2 ^ t.kDigitBits) v.natAbs).length

/-- The BigInts are the integers of at most `kMaxLengthBits` bits. -/
theorem kMaxLength_lt_digitCount (t : Target) (v : ℤ) :
    kMaxLength t < digitCount t v ↔ 2 ^ kMaxLengthBits ≤ v.natAbs := by
  rw [digitCount, Nat.lt_digits_length_iff (Nat.one_lt_two_pow t.kDigitBits_pos.ne'), ← Nat.pow_mul, kMaxLength_mul]

theorem BigInt.value_lt_max : value x.digits < 2 ^ kMaxLengthBits := by
  refine lt_of_lt_of_le (value_lt x.digits) (Nat.pow_le_pow_right (by norm_num) ?_)
  rw [← kMaxLength_mul t]
  exact Nat.mul_le_mul_left _ x.length_le

end V8Core.Objects
