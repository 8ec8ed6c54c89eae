import V8Core.Lib.Leb128

/-!
# LEB128 in the decoder

`Decoder::read_leb` of `wasm/decoder.h` with validation, and `LEBHelper` of
`wasm/leb-helper.h`. The decoder accepts exactly the encodings of the grammar
(`Leb128.Unsigned`, `Leb128.Signed`), and the helper writes one of them.

The bytes are those before `end_`; a load at or behind `end_` is `none`, so a result
that is `some` was computed without one.
-/

namespace V8Core.Wasm

open Leb128 (Byte)

variable {N : Nat} {t : List Byte} {w : Nat}

/-- The integer types of `read_leb`, with the 33 bit type that is stored in 64 bits. -/
inductive LebKind
  | u32 | i32 | u64 | i64 | i33
  deriving DecidableEq, Repr

namespace LebKind

/-- `8 * sizeof(IntType)`. -/
def intBits : LebKind → Nat
  | u32 | i32 => 32
  | u64 | i64 | i33 => 64

def sizeInBits : LebKind → Nat
  | u32 | i32 => 32
  | u64 | i64 => 64
  | i33 => 33

def isSigned : LebKind → Bool
  | u32 | u64 => false
  | i32 | i64 | i33 => true

def kMaxLength (k : LebKind) : Nat := (k.sizeInBits + 6) / 7

/-- The number that the bits of an `IntType` stand for. -/
def toInt (k : LebKind) (v : BitVec k.intBits) : ℤ := if k.isSigned then v.toInt else v.toNat

end LebKind

/-- The errors of `read_leb`. -/
inductive LebError
  | reachedEnd | lengthOverflow | extraBits
  deriving DecidableEq, Repr

/-- What `read_leb` returns, and the error it reports with its position. -/
structure LebResult (k : LebKind) where
  value : BitVec k.intBits
  length : Nat
  error : Option (Nat × LebError)
  deriving DecidableEq, Repr

/-- `{0, 0}` and an error. -/
def LebResult.failed (k : LebKind) (pc : Nat) (error : LebError) : LebResult k := ⟨0, 0, some (pc, error)⟩

/-- `(value << shift) >> shift` in the integer type. -/
def LebKind.signExtend (k : LebKind) (value : BitVec k.intBits) (shift : Nat) : BitVec k.intBits :=
  if k.isSigned then (value <<< shift).sshiftRight shift else (value <<< shift) >>> shift

/-- The check of the last byte of the longest encoding. -/
def LebKind.validExtraBits (k : LebKind) (b : Byte) : Bool :=
  let kExtraBits := k.sizeInBits - (k.kMaxLength - 1) * 7
  let kSignExtBits := kExtraBits - (if k.isSigned then 1 else 0)
  let checkedBits := b &&& (0xFF#8 <<< kSignExtBits)
  let kSignExtendedExtraBits := 0x7F#8 &&& (0xFF#8 <<< kSignExtBits)
  checkedBits = 0#8 || (k.isSigned && checkedBits = kSignExtendedExtraBits)

/-- The end of `read_leb_tail`, when no further byte is read. -/
def readLebFinish (k : LebKind) (byteIndex pc : Nat) (atEnd : Bool) (b : Byte) (intermediateResult : BitVec k.intBits) :
    LebResult k :=
  if atEnd then .failed k pc .reachedEnd
  else if b &&& 0x80#8 ≠ 0#8 then .failed k pc .lengthOverflow
  else if byteIndex = k.kMaxLength - 1 ∧ ¬ k.validExtraBits b then .failed k pc .extraBits
  else
    let signExtShift := if k.isSigned then k.intBits - byteIndex * 7 - 7 else 0
    ⟨k.signExtend intermediateResult signExtShift, byteIndex + 1, none⟩

/-- `read_leb_tail`, where `left` more bytes may follow the one at `pc`. -/
def readLebTail (k : LebKind) (bytes : List Byte) : Nat → Nat → Nat → BitVec k.intBits → Option (LebResult k)
  | left, byteIndex, pc, intermediateResult => do
    let atEnd := decide (pc ≥ bytes.length)
    let b ← (if atEnd then some 0#8 else bytes[pc]?)
    let intermediateResult :=
      if atEnd then intermediateResult
      else intermediateResult ||| (b &&& 0x7F#8).setWidth k.intBits <<< (byteIndex * 7)
    match left with
    | left + 1 =>
      if b &&& 0x80#8 ≠ 0#8 then readLebTail k bytes left (byteIndex + 1) (pc + 1) intermediateResult
      else some (readLebFinish k byteIndex pc atEnd b intermediateResult)
    | 0 => some (readLebFinish k byteIndex pc atEnd b intermediateResult)

/-- `read_leb` with validation. -/
def readLeb (k : LebKind) (bytes : List Byte) (pc : Nat) : Option (LebResult k) := do
  let fast ← (if pc < bytes.length then (bytes[pc]?).map fun b => decide (b &&& 0x80#8 = 0#8) else some false)
  if fast then
    -- fast path for single bytes
    let b ← bytes[pc]?
    let result := b.setWidth k.intBits
    return ⟨if k.isSigned then k.signExtend result (k.intBits - 7) else result, 1, none⟩
  else readLebTail k bytes (k.kMaxLength - 1) 0 pc 0

/-! ## What the decoder accepts -/

/-- `bytes` are an encoding of `v` in the grammar. -/
def LebKind.Encodes (k : LebKind) (bytes : List Byte) (v : ℤ) : Prop :=
  if k.isSigned then Leb128.Signed k.sizeInBits bytes v else ∃ n : Nat, v = n ∧ Leb128.Unsigned k.sizeInBits bytes n

theorem toNat_and_7F (b : Byte) : (b &&& 0x7F#8).toNat = b.toNat % 128 := by
  rw [BitVec.toNat_and]
  exact Nat.and_two_pow_sub_one_eq_mod b.toNat 7

theorem and_80_eq_zero_iff (b : Byte) : b &&& 0x80#8 = 0#8 ↔ b.toNat < 128 := by
  have : ∀ n < 256, (BitVec.ofNat 8 n &&& 0x80#8 = 0#8 ↔ n < 128) := by decide +kernel
  simpa using this b.toNat b.isLt

variable {b : Byte} {k : LebKind} {pre rest : List Byte} {left : Nat} {v : BitVec k.intBits} {val : ℤ}

theorem validExtraBits_iff (k : LebKind) (hb : b.toNat < 128) :
    k.validExtraBits b = true ↔ if k.isSigned then
      b.toNat < 2 ^ (k.sizeInBits - (k.kMaxLength - 1) * 7 - 1) ∨ 128 ≤ b.toNat + 2 ^ (k.sizeInBits - (k.kMaxLength - 1) * 7 - 1)
    else b.toNat < 2 ^ (k.sizeInBits - (k.kMaxLength - 1) * 7) := by
  have : ∀ n < 128, (k.validExtraBits (BitVec.ofNat 8 n) = true ↔ if k.isSigned then
      n < 2 ^ (k.sizeInBits - (k.kMaxLength - 1) * 7 - 1) ∨ 128 ≤ n + 2 ^ (k.sizeInBits - (k.kMaxLength - 1) * 7 - 1)
      else n < 2 ^ (k.sizeInBits - (k.kMaxLength - 1) * 7)) := by
    cases k <;> decide +kernel
  simpa using this b.toNat hb

/-- Seven more bits above the ones read so far; what does not fit is cut off. -/
theorem toNat_or_shl {x : BitVec w} {s : Nat} (hx : x.toNat < 2 ^ s) (hs : s ≤ w) (b : Byte) (hw : 8 ≤ w) :
    (x ||| (b &&& 0x7F#8).setWidth w <<< s).toNat = (x.toNat + 2 ^ s * (b.toNat % 128)) % 2 ^ w := by
  have hpow : 2 ^ w = 2 ^ s * 2 ^ (w - s) := by rw [← Nat.pow_add, Nat.add_sub_cancel' hs]
  have hc : ((b &&& 0x7F#8).setWidth w).toNat = b.toNat % 128 := by
    rw [BitVec.toNat_setWidth, toNat_and_7F, Nat.mod_eq_of_lt]
    have : 2 ^ 8 ≤ 2 ^ w := Nat.pow_le_pow_right (by decide) hw
    omega
  have hshl : ((b &&& 0x7F#8).setWidth w <<< s).toNat = 2 ^ s * (b.toNat % 128 % 2 ^ (w - s)) := by
    rw [BitVec.toNat_shiftLeft, hc, Nat.shiftLeft_eq, Nat.mul_comm, hpow, Nat.mul_mod_mul_left]
  rw [BitVec.toNat_or, hshl, Nat.or_comm, ← Nat.two_pow_add_eq_or_of_lt hx, hpow, Nat.add_comm x.toNat, Nat.mod_mul,
    Nat.mul_add_mod, Nat.mod_eq_of_lt hx, Nat.mul_add_div (by positivity), Nat.div_eq_of_lt hx, Nat.add_zero, Nat.add_comm]

/-- `(x << s) >> s` extends the sign of the lower bits. -/
theorem toInt_shl_sshiftRight {s : Nat} {x : BitVec w} (hs : s < w) (hx : x.toNat < 2 ^ (w - s)) :
    ((x <<< s).sshiftRight s).toInt = Leb128.signed (w - s) x.toNat := by
  have hpow : 2 ^ w = 2 ^ (w - s) * 2 ^ s := by rw [← Nat.pow_add, Nat.sub_add_cancel hs.le]
  have hshl : (x <<< s).toNat = x.toNat * 2 ^ s := by
    rw [BitVec.toNat_shiftLeft, Nat.shiftLeft_eq, Nat.mod_eq_of_lt]
    rw [hpow]
    exact Nat.mul_lt_mul_of_pos_right hx (by positivity)
  have hint : (x <<< s).toInt = Leb128.signed (w - s) x.toNat * 2 ^ s := by
    rw [BitVec.toInt_eq_toNat_cond, hshl, Leb128.signed, hpow, ← Nat.mul_assoc]
    by_cases hlt : 2 * x.toNat < 2 ^ (w - s)
    · rw [if_pos hlt, if_pos (Nat.mul_lt_mul_of_pos_right hlt (by positivity))]
      rfl
    · rw [if_neg hlt, if_neg (fun h => hlt (Nat.lt_of_mul_lt_mul_right h))]
      push_cast
      ring
  rw [BitVec.toInt_sshiftRight, hint, Int.shiftRight_eq_div_pow]
  exact Int.mul_ediv_cancel _ (by positivity)

/-- A signed number in the range of fewer bits is determined by them. -/
theorem signed_mod {m n : Nat} (hw : 0 < w) (hwm : w ≤ m) (hlow : -2 ^ (w - 1) ≤ Leb128.signed m n)
    (hhigh : Leb128.signed m n < 2 ^ (w - 1)) : Leb128.signed w (n % 2 ^ w) = Leb128.signed m n := by
  have hhalf : (2 : ℤ) ^ w = 2 * 2 ^ (w - 1) := (mul_pow_sub_one hw.ne' 2).symm
  have hdvd : (2 : ℤ) ^ w ∣ 2 ^ m := pow_dvd_pow 2 hwm
  have hcong : (2 : ℤ) ^ w ∣ n - Leb128.signed m n := by
    simp only [Leb128.signed]
    split
    · simp
    · simpa using hdvd
  have hmod : ((n % 2 ^ w : Nat) : ℤ) = Leb128.signed m n % 2 ^ w := by
    exact Int.emod_eq_emod_iff_emod_sub_eq_zero.2 (Int.emod_eq_zero_of_dvd hcong)
  generalize Leb128.signed m n = z at *
  have hnat : ((2 ^ w : Nat) : ℤ) = 2 ^ w := by rfl
  unfold Leb128.signed
  generalize n % 2 ^ w = r at *
  by_cases hz : 0 ≤ z
  · rw [Int.emod_eq_of_lt hz (by omega)] at hmod
    rw [if_pos (by omega), hmod]
  · have hz' : z % 2 ^ w = z + 2 ^ w := by
      rw [← Int.add_emod_right, Int.emod_eq_of_lt (by omega) (by omega)]
    rw [if_neg (by omega)]
    omega

namespace LebKind

variable (k : LebKind)

/-- The number that terminated bytes stand for. -/
def denote (bytes : List Byte) : ℤ :=
  if k.isSigned then Leb128.signed (7 * bytes.length) (Leb128.payload bytes) else Leb128.payload bytes

/-- It is a number of the type. -/
def InRange (v : ℤ) : Prop :=
  if k.isSigned then -2 ^ (k.sizeInBits - 1) ≤ v ∧ v < 2 ^ (k.sizeInBits - 1) else v < 2 ^ k.sizeInBits

theorem encodes_iff {bytes : List Byte} {v : ℤ} :
    k.Encodes bytes v ↔ Leb128.Terminated bytes ∧ bytes.length ≤ k.kMaxLength ∧ k.denote bytes = v ∧ k.InRange v := by
  have hlen : 7 * bytes.length < k.sizeInBits + 7 ↔ bytes.length ≤ k.kMaxLength := by
    unfold kMaxLength
    omega
  have hpos : 0 < k.sizeInBits := by cases k <;> decide
  unfold Encodes denote InRange
  cases k.isSigned with
  | true => simp only [if_true, Leb128.signed_iff hpos, hlen]
  | false =>
    simp only [Bool.false_eq_true, if_false, Leb128.unsigned_iff hpos, hlen]
    constructor
    · rintro ⟨n, rfl, ht, hl, hp, hlt⟩
      exact ⟨ht, hl, by rw [hp], by exact_mod_cast hlt⟩
    · rintro ⟨ht, hl, rfl, hlt⟩
      exact ⟨_, rfl, ht, hl, rfl, by exact_mod_cast hlt⟩

/-- The sizes of the types. -/
theorem sizes : 8 ≤ k.intBits ∧ k.sizeInBits ≤ k.intBits ∧ (k.kMaxLength - 1) * 7 < k.sizeInBits ∧
    k.sizeInBits ≤ k.kMaxLength * 7 ∧ 2 ≤ k.kMaxLength := by
  cases k <;> decide

end LebKind

section Finish
variable {k : LebKind} {pre : List Byte} {b : Byte}

/-- A number that is not as long as it may be is always in range. -/
theorem inRange_of_short (hlen : pre.length + 1 < k.kMaxLength) : k.InRange (k.denote (pre ++ [b])) := by
  obtain ⟨_, _, hmax, _, _⟩ := k.sizes
  have hp := Leb128.payload_lt (pre ++ [b])
  have hl : (pre ++ [b]).length = pre.length + 1 := by simp
  have hpow : 2 ^ (7 * (pre ++ [b]).length) ≤ 2 ^ (k.sizeInBits - 1) := Nat.pow_le_pow_right (by decide) (by omega)
  have hhalf : 2 ^ k.sizeInBits = 2 * 2 ^ (k.sizeInBits - 1) := by
    rw [← Nat.pow_succ']
    congr 1
    omega
  unfold LebKind.InRange LebKind.denote
  generalize Leb128.payload (pre ++ [b]) = n at *
  cases k.isSigned with
  | false =>
    simp only [Bool.false_eq_true, if_false]
    exact_mod_cast (show n < 2 ^ k.sizeInBits by omega)
  | true =>
    have hzpow : (2 : ℤ) ^ (7 * (pre ++ [b]).length) ≤ 2 ^ (k.sizeInBits - 1) := by exact_mod_cast hpow
    have hzp : (n : ℤ) < 2 ^ (7 * (pre ++ [b]).length) := by exact_mod_cast hp
    have hz : (0 : ℤ) < 2 ^ (k.sizeInBits - 1) := by positivity
    simp only [if_true, Leb128.signed]
    split <;> omega

/-- The value of the last of seven bits per byte. -/
theorem payload_concat (pre : List Byte) (b : Byte) (hb : b.toNat < 128) :
    Leb128.payload (pre ++ [b]) = Leb128.payload pre + 2 ^ (7 * pre.length) * b.toNat := by
  rw [Leb128.payload_append]
  simp only [Leb128.payload]
  rw [Nat.mod_eq_of_lt hb, Nat.add_zero]

/-- The range of a signed number, by its last digit to base `M` with `128` as the modulus. -/
theorem signed_concat_range {p M E b : Nat} (hp : p < M) (hb : b < 128) (hE : E ≤ 2 ^ 6) :
    (-((M * E : Nat) : ℤ) ≤ (if 2 * (p + M * b) < 128 * M then ((p + M * b : Nat) : ℤ) else (p + M * b : Nat) - (128 * M : Nat)) ∧
      (if 2 * (p + M * b) < 128 * M then ((p + M * b : Nat) : ℤ) else (p + M * b : Nat) - (128 * M : Nat)) < (M * E : Nat)) ↔
      b < E ∨ 128 ≤ b + E := by
  have hmul : ∀ {x y : Nat}, x < y → M * x + M ≤ M * y := fun h => by
    rw [← Nat.mul_succ]
    exact Nat.mul_le_mul_left _ h
  rcases Nat.lt_or_ge b 64 with hlt | hge
  · have h64 := hmul hlt
    rw [if_pos (by omega)]
    constructor
    · rintro ⟨_, h⟩
      left
      by_contra hle
      have := Nat.mul_le_mul_left M (Nat.le_of_not_lt hle)
      omega
    · rintro (h | h)
      · have := hmul h
        omega
      · omega
  · have h64 := Nat.mul_le_mul_left M hge
    rw [if_neg (by omega)]
    constructor
    · rintro ⟨h, _⟩
      right
      by_contra hlt
      have := hmul (show b + E < 128 by omega)
      rw [Nat.mul_add] at this
      omega
    · rintro (h | h)
      · omega
      · have := Nat.mul_le_mul_left M h
        have h128 := hmul hb
        rw [Nat.mul_add] at this
        omega

/-- In the longest encodings the extra bits tell whether the number is in range. -/
theorem inRange_iff_validExtraBits (hb : b.toNat < 128) (hlen : pre.length + 1 = k.kMaxLength) :
    k.InRange (k.denote (pre ++ [b])) ↔ k.validExtraBits b = true := by
  obtain ⟨_, _, hmax, hmax', _⟩ := k.sizes
  rw [validExtraBits_iff k hb]
  have hp := Leb128.payload_lt pre
  have hl : (pre ++ [b]).length = pre.length + 1 := by simp
  have hindex : k.kMaxLength - 1 = pre.length := by omega
  have hpow : 2 ^ k.sizeInBits = 2 ^ (7 * pre.length) * 2 ^ (k.sizeInBits - pre.length * 7) := by
    rw [Nat.mul_comm 7, pow_mul_pow_sub 2 (by omega)]
  unfold LebKind.InRange LebKind.denote
  rw [payload_concat pre b hb, hl, hindex]
  generalize Leb128.payload pre = p at *
  cases k.isSigned with
  | false =>
    simp only [Bool.false_eq_true, if_false]
    have hcast : (((p + 2 ^ (7 * pre.length) * b.toNat : Nat) : ℤ) < 2 ^ k.sizeInBits) ↔
        p + 2 ^ (7 * pre.length) * b.toNat < 2 ^ k.sizeInBits := by exact_mod_cast Iff.rfl
    rw [hcast, hpow]
    constructor
    · intro h
      exact Nat.lt_of_mul_lt_mul_left (Nat.lt_of_le_of_lt (Nat.le_add_left _ _) h)
    · intro h
      calc p + 2 ^ (7 * pre.length) * b.toNat < 2 ^ (7 * pre.length) * (b.toNat + 1) := by rw [Nat.mul_succ]; omega
        _ ≤ _ := Nat.mul_le_mul_left _ h
  | true =>
    have hrange := signed_concat_range hp hb
      (Nat.pow_le_pow_right (by decide) (show k.sizeInBits - pre.length * 7 - 1 ≤ 6 by omega))
    have hpow' : (2 : ℤ) ^ (k.sizeInBits - 1) = ((2 ^ (7 * pre.length) * 2 ^ (k.sizeInBits - pre.length * 7 - 1) : Nat) : ℤ) := by
      push_cast
      rw [← pow_add]
      congr 1
      omega
    have hpow7 : 2 ^ (7 * (pre.length + 1)) = 128 * 2 ^ (7 * pre.length) := by
      rw [Nat.mul_succ, Nat.pow_add, Nat.mul_comm]
    have hpow7' : (2 : ℤ) ^ (7 * (pre.length + 1)) = ((128 * 2 ^ (7 * pre.length) : Nat) : ℤ) := by
      rw [← hpow7]
      rfl
    rw [Leb128.signed, hpow7, hpow7', hpow']
    exact hrange

/-- The bits read so far are the number, once they are sign extended. -/
theorem toInt_signExtend {x : BitVec k.intBits} (hx : x.toNat = Leb128.payload (pre ++ [b]) % 2 ^ k.intBits)
    (hrange : k.InRange (k.denote (pre ++ [b]))) :
    k.toInt (k.signExtend x (if k.isSigned then k.intBits - pre.length * 7 - 7 else 0)) = k.denote (pre ++ [b]) := by
  obtain ⟨h8, hle, hmax, _, _⟩ := k.sizes
  have hp := Leb128.payload_lt (pre ++ [b])
  have hl : (pre ++ [b]).length = pre.length + 1 := by simp
  rw [hl] at hp
  unfold LebKind.toInt LebKind.signExtend
  unfold LebKind.InRange LebKind.denote at hrange
  unfold LebKind.denote
  rw [hl] at hrange ⊢
  generalize Leb128.payload (pre ++ [b]) = n at *
  cases hs : k.isSigned with
  | false =>
    simp only [hs, Bool.false_eq_true, if_false] at hrange ⊢
    have hlt : n < 2 ^ k.intBits :=
      Nat.lt_of_lt_of_le (by exact_mod_cast hrange) (Nat.pow_le_pow_right (by decide) hle)
    simp [hx, Nat.mod_eq_of_lt hlt]
  | true =>
    simp only [hs, if_true] at hrange ⊢
    rcases Nat.lt_or_ge (7 * (pre.length + 1)) k.intBits with hshort | hlong
    · have hlt : n < 2 ^ k.intBits := Nat.lt_trans hp (Nat.pow_lt_pow_right (by decide) hshort)
      have hbits : k.intBits - (k.intBits - pre.length * 7 - 7) = 7 * (pre.length + 1) := by omega
      rw [Nat.mod_eq_of_lt hlt] at hx
      rw [toInt_shl_sshiftRight (by omega) (by rwa [hbits, hx]), hbits, hx]
    · rw [show k.intBits - pre.length * 7 - 7 = 0 by omega, toInt_shl_sshiftRight (by omega) (by simpa using x.isLt), hx]
      have hpow : (2 : ℤ) ^ (k.sizeInBits - 1) ≤ 2 ^ (k.intBits - 1) := pow_le_pow_right₀ (by decide) (by omega)
      exact signed_mod (by omega) hlong (Int.le_trans (neg_le_neg hpow) hrange.1) (Int.lt_of_lt_of_le hrange.2 hpow)

theorem readLebFinish_spec {x : BitVec k.intBits} (pc : Nat) (hb : b.toNat < 128) (hlen : pre.length + 1 ≤ k.kMaxLength)
    (hx : x.toNat = Leb128.payload (pre ++ [b]) % 2 ^ k.intBits) :
    (k.InRange (k.denote (pre ++ [b])) ∧ ∃ v, readLebFinish k pre.length pc false b x = ⟨v, pre.length + 1, none⟩ ∧
        k.toInt v = k.denote (pre ++ [b])) ∨
      (¬ k.InRange (k.denote (pre ++ [b])) ∧ readLebFinish k pre.length pc false b x = .failed k pc .extraBits) := by
  have hbit := (and_80_eq_zero_iff b).2 hb
  unfold readLebFinish
  simp only [hbit, Bool.false_eq_true, if_false, ne_eq, not_true_eq_false]
  by_cases hlast : pre.length + 1 = k.kMaxLength
  · have hindex : pre.length = k.kMaxLength - 1 := by omega
    rw [inRange_iff_validExtraBits hb hlast]
    by_cases hvalid : k.validExtraBits b = true
    · have hrange := (inRange_iff_validExtraBits hb hlast).2 hvalid
      rw [if_neg (by simp [hvalid])]
      exact .inl ⟨hvalid, _, rfl, toInt_signExtend hx hrange⟩
    · rw [if_pos ⟨hindex, hvalid⟩]
      exact .inr ⟨hvalid, rfl⟩
  · have hrange : k.InRange (k.denote (pre ++ [b])) := inRange_of_short (by omega)
    rw [if_neg (by omega)]
    exact .inl ⟨hrange, _, rfl, toInt_signExtend hx hrange⟩

end Finish

/-- After the bytes `pre`, the decoder accepts the bytes `t` of `rest`, at most `left` of them. -/
def LebKind.Accepts (k : LebKind) (pre rest : List Byte) (left : Nat) (t : List Byte) : Prop :=
  (∃ u, rest = t ++ u) ∧ Leb128.Terminated t ∧ t.length ≤ left ∧ k.InRange (k.denote (pre ++ t))

/-- The result for `rest` after `pre`: of what is accepted, or an error. -/
def LebKind.ResultOf (k : LebKind) (pre rest : List Byte) (left : Nat) (r : LebResult k) : Prop :=
  (∃ t v, k.Accepts pre rest left t ∧ r = ⟨v, pre.length + t.length, none⟩ ∧ k.toInt v = k.denote (pre ++ t)) ∨
    ((∀ t, ¬ k.Accepts pre rest left t) ∧ ∃ pc error, r = .failed k pc error)

theorem accepts_cons (hb : 128 ≤ b.toNat) :
    k.Accepts pre (b :: rest) (left + 1) t ↔ ∃ t', t = b :: t' ∧ k.Accepts (pre ++ [b]) rest left t' := by
  constructor
  · rintro ⟨⟨u, hu⟩, ht, hlen, hrange⟩
    cases t with
    | nil => exact ht.elim
    | cons c t =>
      obtain ⟨rfl, hrest⟩ := List.cons.inj hu
      have hne : t ≠ [] := by
        rintro rfl
        have : b.toNat < 128 := ht
        omega
      refine ⟨t, rfl, ⟨u, hrest⟩, ((Leb128.terminated_cons hne).1 ht).2, by simpa using hlen, ?_⟩
      rwa [List.append_assoc]
  · rintro ⟨t', rfl, ⟨u, hu⟩, ht, hlen, hrange⟩
    refine ⟨⟨u, by rw [hu]; rfl⟩, (Leb128.terminated_cons ht.ne_nil).2 ⟨hb, ht⟩, by simpa using hlen, ?_⟩
    rwa [List.append_assoc] at hrange

/-- A byte without continuation bit is the whole encoding. -/
theorem accepts_last (hb : b.toNat < 128) :
    k.Accepts pre (b :: rest) (left + 1) t ↔ t = [b] ∧ k.InRange (k.denote (pre ++ [b])) := by
  constructor
  · rintro ⟨⟨u, hu⟩, ht, _, hrange⟩
    obtain rfl : t = [b] := ht.prefix_unique (show Leb128.Terminated [b] from hb) (show t ++ u = [b] ++ rest from hu.symm)
    exact ⟨rfl, hrange⟩
  · rintro ⟨rfl, hrange⟩
    exact ⟨⟨rest, rfl⟩, hb, by simp, hrange⟩

theorem not_accepts_nil (t : List Byte) : ¬ k.Accepts pre [] left t := by
  rintro ⟨⟨u, hu⟩, ht, _⟩
  exact ht.ne_nil (List.append_eq_nil_iff.1 hu.symm).1

section Tail
variable (k : LebKind) {bytes : List Byte} {pc : Nat}

theorem readLebTail_atEnd (left byteIndex : Nat) (x : BitVec k.intBits) (hpc : bytes.length ≤ pc) :
    readLebTail k bytes left byteIndex pc x = some (.failed k pc .reachedEnd) := by
  rw [readLebTail]
  cases left <;> simp [readLebFinish, hpc]

/-- The last byte is read. -/
theorem readLebTail_last (left byteIndex : Nat) (x : BitVec k.intBits) (hb : bytes[pc]? = some b)
    (hlt : b.toNat < 128) : readLebTail k bytes left byteIndex pc x =
      some (readLebFinish k byteIndex pc false b (x ||| (b &&& 0x7F#8).setWidth k.intBits <<< (byteIndex * 7))) := by
  have hpc : ¬ bytes.length ≤ pc := by
    have := (List.getElem?_eq_some_iff.1 hb).1
    omega
  rw [readLebTail]
  cases left <;> simp [hpc, hb, (and_80_eq_zero_iff b).2 hlt]

theorem readLebTail_overflow (byteIndex : Nat) (x : BitVec k.intBits) (hb : bytes[pc]? = some b)
    (hge : 128 ≤ b.toNat) : readLebTail k bytes 0 byteIndex pc x = some (.failed k pc .lengthOverflow) := by
  have hpc : ¬ bytes.length ≤ pc := by
    have := (List.getElem?_eq_some_iff.1 hb).1
    omega
  have hbit : b &&& 0x80#8 ≠ 0#8 := fun h => by
    have := (and_80_eq_zero_iff b).1 h
    omega
  rw [readLebTail]
  simp [readLebFinish, hpc, hb, hbit]

theorem readLebTail_more (left byteIndex : Nat) (x : BitVec k.intBits) (hb : bytes[pc]? = some b)
    (hge : 128 ≤ b.toNat) : readLebTail k bytes (left + 1) byteIndex pc x =
      readLebTail k bytes left (byteIndex + 1) (pc + 1) (x ||| (b &&& 0x7F#8).setWidth k.intBits <<< (byteIndex * 7)) := by
  have hpc : ¬ bytes.length ≤ pc := by
    have := (List.getElem?_eq_some_iff.1 hb).1
    omega
  have hbit : b &&& 0x80#8 ≠ 0#8 := fun h => by
    have := (and_80_eq_zero_iff b).1 h
    omega
  rw [readLebTail]
  simp [hpc, hb, hbit]

variable {x : BitVec k.intBits}

/-- The bits of the bytes read so far, with one more byte. -/
theorem toNat_or_concat (hlen : pre.length < k.kMaxLength)
    (hx : x.toNat = Leb128.payload pre) (b : Byte) :
    (x ||| (b &&& 0x7F#8).setWidth k.intBits <<< (pre.length * 7)).toNat = Leb128.payload (pre ++ [b]) % 2 ^ k.intBits := by
  obtain ⟨h8, hle, hmax, _, _⟩ := k.sizes
  have hp := Leb128.payload_lt pre
  rw [Nat.mul_comm] at hp
  rw [toNat_or_shl (by rwa [hx]) (by omega) b h8, hx, Leb128.payload_append, Nat.mul_comm 7]
  simp only [Leb128.payload, Nat.mul_zero, Nat.add_zero]

theorem resultOf_failed (pc : Nat) (error : LebError)
    (h : ∀ t, ¬ k.Accepts pre rest left t) : k.ResultOf pre rest left (.failed k pc error) :=
  .inr ⟨h, pc, error, rfl⟩

/-- A byte without continuation bit decides. -/
theorem readLebFinish_resultOf (left pc : Nat)
    (hlt : b.toNat < 128) (hlen : pre.length < k.kMaxLength)
    (hx : x.toNat = Leb128.payload (pre ++ [b]) % 2 ^ k.intBits) :
    k.ResultOf pre (b :: rest) (left + 1) (readLebFinish k pre.length pc false b x) := by
  rcases readLebFinish_spec pc hlt hlen hx with ⟨hrange, v, hr, hv⟩ | ⟨hrange, hr⟩
  · exact .inl ⟨[b], v, (accepts_last hlt).2 ⟨rfl, hrange⟩, hr, hv⟩
  · rw [hr]
    exact resultOf_failed k pc _ fun t ht => hrange ((accepts_last hlt).1 ht).2

/-- Without a continuation bit the level does not go on. -/
theorem readLebTail_stop (left : Nat) (hlen : pre.length < k.kMaxLength)
    (hx : x.toNat = Leb128.payload pre) (hstop : ∀ b, bytes[pc]? = some b → b.toNat < 128) :
    ∃ r, readLebTail k bytes left pre.length pc x = some r ∧ k.ResultOf pre (bytes.drop pc) (left + 1) r := by
  cases hb : bytes[pc]? with
  | none =>
    have hpc := List.getElem?_eq_none_iff.1 hb
    rw [List.drop_eq_nil_of_le hpc]
    exact ⟨_, readLebTail_atEnd k _ _ _ hpc, resultOf_failed k _ _ not_accepts_nil⟩
  | some b =>
    have hlt := hstop b hb
    obtain ⟨hpc, rfl⟩ := List.getElem?_eq_some_iff.1 hb
    rw [List.drop_eq_getElem_cons hpc]
    exact ⟨_, readLebTail_last k _ _ _ hb hlt, readLebFinish_resultOf k _ _ hlt hlen (toNat_or_concat k hlen hx _)⟩

/-- Every level reads one byte, and leaves the others to the next level. -/
theorem readLebTail_spec (left : Nat) (pre : List Byte) (x : BitVec k.intBits)
    (hlen : pre.length + (left + 1) = k.kMaxLength) (hx : x.toNat = Leb128.payload pre) :
    ∃ r, readLebTail k bytes left pre.length pc x = some r ∧ k.ResultOf pre (bytes.drop pc) (left + 1) r := by
  induction left generalizing pc pre x with
  | zero =>
    by_cases hstop : ∀ b, bytes[pc]? = some b → b.toNat < 128
    · exact readLebTail_stop k 0 (by omega) hx hstop
    · push Not at hstop
      obtain ⟨b, hb, hge⟩ := hstop
      obtain ⟨hpc, rfl⟩ := List.getElem?_eq_some_iff.1 hb
      rw [List.drop_eq_getElem_cons hpc]
      refine ⟨_, readLebTail_overflow k _ _ hb hge, resultOf_failed k _ _ fun t ht => ?_⟩
      obtain ⟨t', _, ht'⟩ := (accepts_cons hge).1 ht
      exact ht'.2.1.ne_nil (List.eq_nil_of_length_eq_zero (Nat.le_zero.1 ht'.2.2.1))
  | succ left ih =>
    by_cases hstop : ∀ b, bytes[pc]? = some b → b.toNat < 128
    · exact readLebTail_stop k (left + 1) (by omega) hx hstop
    · push Not at hstop
      obtain ⟨b, hb, hge⟩ := hstop
      obtain ⟨hpc, rfl⟩ := List.getElem?_eq_some_iff.1 hb
      rw [List.drop_eq_getElem_cons hpc]
      -- this is not the last byte, so that no bit of it is cut off
      obtain ⟨h8, hle, hmax, _, _⟩ := k.sizes
      have hx' := toNat_or_concat k (by omega) hx bytes[pc]
      have hp := Leb128.payload_lt (pre ++ [bytes[pc]])
      have hl : (pre ++ [bytes[pc]]).length = pre.length + 1 := by simp
      rw [Nat.mod_eq_of_lt (Nat.lt_of_lt_of_le hp (Nat.pow_le_pow_right (by decide) (by omega)))] at hx'
      obtain ⟨r, hr, hres⟩ := @ih (pc + 1) (pre ++ [bytes[pc]]) _ (by omega) hx'
      rw [hl] at hr
      refine ⟨r, (readLebTail_more k _ _ _ hb hge).trans hr, ?_⟩
      rcases hres with ⟨t, v, ht, rfl, hv⟩ | ⟨hnone, hfail⟩
      · refine .inl ⟨bytes[pc] :: t, v, (accepts_cons hge).2 ⟨t, rfl, ht⟩, ?_, ?_⟩
        · simp [Nat.add_assoc, Nat.add_comm 1]
        · rwa [List.append_assoc] at hv
      · refine .inr ⟨fun t ht => ?_, hfail⟩
        obtain ⟨t', _, ht'⟩ := (accepts_cons hge).1 ht
        exact hnone t' ht'

end Tail

/-- The fast path takes what the tail would take. -/
theorem readLeb_spec (k : LebKind) (bytes : List Byte) (pc : Nat) :
    ∃ r, readLeb k bytes pc = some r ∧ k.ResultOf [] (bytes.drop pc) k.kMaxLength r := by
  obtain ⟨h8, hle, hmax, _, h2⟩ := k.sizes
  have htail := @readLebTail_spec k bytes pc (k.kMaxLength - 1) [] 0 (by simp; omega) rfl
  rw [Nat.sub_add_cancel (by omega)] at htail
  unfold readLeb
  cases hb : bytes[pc]? with
  | none =>
    have hpc := List.getElem?_eq_none_iff.1 hb
    simpa [Nat.not_lt.2 hpc] using htail
  | some b =>
    obtain ⟨hpc, rfl⟩ := List.getElem?_eq_some_iff.1 hb
    rcases Nat.lt_or_ge bytes[pc].toNat 128 with hlt | hge
    · have hx : (bytes[pc].setWidth k.intBits).toNat = Leb128.payload ([] ++ [bytes[pc]]) % 2 ^ k.intBits := by
        simp only [List.nil_append, Leb128.payload, BitVec.toNat_setWidth]
        congr 1
        omega
      have hrange : k.InRange (k.denote ([] ++ [bytes[pc]])) := inRange_of_short h2
      have hv := toInt_signExtend hx hrange
      have haccepts : k.Accepts [] (bytes[pc] :: bytes.drop (pc + 1)) (k.kMaxLength - 1 + 1) [bytes[pc]] :=
        (accepts_last hlt).2 ⟨rfl, hrange⟩
      rw [Nat.sub_add_cancel (by omega), ← List.drop_eq_getElem_cons hpc] at haccepts
      refine ⟨_, by simp [hpc, (and_80_eq_zero_iff _).2 hlt]; rfl, .inl ⟨_, _, haccepts, rfl, ?_⟩⟩
      rw [← hv]
      cases k.isSigned with
      | true => simp
      | false => simp [LebKind.signExtend]
    · have hbit : bytes[pc] &&& 0x80#8 ≠ 0#8 := fun h => by
        have := (and_80_eq_zero_iff _).1 h
        omega
      simpa [hpc, hb, hbit] using htail

/-- What the decoder accepts are the encodings of the grammar. -/
theorem accepts_iff_encodes :
    k.Accepts [] rest k.kMaxLength t ↔ t <+: rest ∧ k.Encodes t (k.denote t) := by
  rw [k.encodes_iff]
  constructor
  · rintro ⟨⟨u, rfl⟩, ht, hlen, hrange⟩
    exact ⟨⟨u, rfl⟩, ht, hlen, rfl, hrange⟩
  · rintro ⟨⟨u, rfl⟩, ht, hlen, _, hrange⟩
    exact ⟨⟨u, rfl⟩, ht, hlen, hrange⟩

theorem LebKind.toInt_inj {v' : BitVec k.intBits} (h : k.toInt v = k.toInt v') : v = v' := by
  unfold LebKind.toInt at h
  cases hs : k.isSigned with
  | true => exact BitVec.eq_of_toInt_eq (by simpa [hs] using h)
  | false => exact BitVec.eq_of_toNat_eq (by simpa [hs] using h)

/-- An encoding at `pc` is decoded, with its length. -/
theorem readLeb_of_encodes {bytes : List Byte} {pc : Nat}
    (hpre : t <+: bytes.drop pc) (henc : k.Encodes t (k.toInt v)) : readLeb k bytes pc = some ⟨v, t.length, none⟩ := by
  have hdenote := ((k.encodes_iff).1 henc).2.2.1
  obtain ⟨r, hr, ⟨t', v', ht', rfl, hv⟩ | ⟨hnone, _⟩⟩ := readLeb_spec k bytes pc
  · obtain ⟨u, hu⟩ := hpre
    obtain ⟨u', hu'⟩ := ht'.1
    obtain rfl : t = t' := ((k.encodes_iff).1 henc).1.prefix_unique ht'.2.1 (hu.trans hu')
    rw [hr, show v' = v from LebKind.toInt_inj (hv.trans hdenote)]
    simp
  · exact absurd (accepts_iff_encodes.2 ⟨hpre, by rwa [hdenote]⟩) (hnone t)

/-! ## `LEBHelper` -/

/-- The loop of `write_u32v` and `write_u64v`. -/
def writeUnsigned (val : Nat) : List Byte :=
  if val ≥ 0x80 then (0x80#8 ||| (BitVec.ofNat 8 val &&& 0x7F#8)) :: writeUnsigned (val >>> 7)
  else [BitVec.ofNat 8 val &&& 0x7F#8]
termination_by val
decreasing_by rw [Nat.shiftRight_eq_div_pow]; omega

/-- The loop of `write_i32v` and `write_i64v` for `val >= 0`. -/
def writeNonNegative (val : ℤ) : List Byte :=
  if val ≥ 0x40 then (0x80#8 ||| (BitVec.ofInt 8 val &&& 0x7F#8)) :: writeNonNegative (val >>> (7 : Nat))
  else [BitVec.ofInt 8 val &&& 0xFF#8]
termination_by val.toNat
decreasing_by rw [Int.shiftRight_eq_div_pow]; omega

/-- The loop of `write_i32v` and `write_i64v` for `val < 0`. -/
def writeNegative (val : ℤ) (h : val < 0) : List Byte :=
  if val >>> (6 : Nat) ≠ -1 then
    (0x80#8 ||| (BitVec.ofInt 8 val &&& 0x7F#8)) ::
      writeNegative (val >>> (7 : Nat)) (by rw [Int.shiftRight_eq_div_pow]; omega)
  else [BitVec.ofInt 8 val &&& 0x7F#8]
termination_by val.natAbs
decreasing_by rw [Int.shiftRight_eq_div_pow] at *; omega

def writeSigned (val : ℤ) : List Byte := if h : val ≥ 0 then writeNonNegative val else writeNegative val (Int.not_le.1 h)

def writeU32v (val : BitVec 32) : List Byte := writeUnsigned val.toNat

def writeI32v (val : BitVec 32) : List Byte := writeSigned val.toInt

def writeU64v (val : BitVec 64) : List Byte := writeUnsigned val.toNat

def writeI64v (val : BitVec 64) : List Byte := writeSigned val.toInt

/-- The loop of `sizeof_u32v` and `sizeof_u64v`. -/
def sizeofUnsigned (val : Nat) : Nat :=
  if val >>> 7 > 0 then sizeofUnsigned (val >>> 7) + 1 else 1
termination_by val
decreasing_by rw [Nat.shiftRight_eq_div_pow] at *; omega

/-- The loop of `sizeof_i32v` and `sizeof_i64v` for `val >= 0`. -/
def sizeofNonNegative (val : ℤ) : Nat :=
  if val ≥ 0x40 then sizeofNonNegative (val >>> (7 : Nat)) + 1 else 1
termination_by val.toNat
decreasing_by rw [Int.shiftRight_eq_div_pow]; omega

/-- The loop of `sizeof_i32v` and `sizeof_i64v` for `val < 0`. -/
def sizeofNegative (val : ℤ) (h : val < 0) : Nat :=
  if val >>> (6 : Nat) ≠ -1 then sizeofNegative (val >>> (7 : Nat)) (by rw [Int.shiftRight_eq_div_pow]; omega) + 1 else 1
termination_by val.natAbs
decreasing_by rw [Int.shiftRight_eq_div_pow] at *; omega

def sizeofSigned (val : ℤ) : Nat := if h : val ≥ 0 then sizeofNonNegative val else sizeofNegative val (Int.not_le.1 h)

def sizeofU32v (val : BitVec 64) : Nat := sizeofUnsigned val.toNat

def sizeofI32v (val : BitVec 32) : Nat := sizeofSigned val.toInt

def sizeofU64v (val : BitVec 64) : Nat := sizeofUnsigned val.toNat

def sizeofI64v (val : BitVec 64) : Nat := sizeofSigned val.toInt

theorem toNat_continuation (b : Byte) : (0x80#8 ||| (b &&& 0x7F#8)).toNat = 128 + b.toNat % 128 := by
  have : ∀ n < 256, (0x80#8 ||| (BitVec.ofNat 8 n &&& 0x7F#8)).toNat = 128 + n % 128 := by decide +kernel
  simpa using this b.toNat b.isLt

theorem toNat_ofInt_mod (val : ℤ) : ((BitVec.ofInt 8 val).toNat : ℤ) = val % 256 := by
  rw [BitVec.toNat_ofInt, Int.toNat_of_nonneg (Int.emod_nonneg _ (by decide))]
  rfl

theorem writeUnsigned_unsigned {val : Nat} (hN : 0 < N) (hval : val < 2 ^ N) :
    Leb128.Unsigned N (writeUnsigned val) val ∧ (writeUnsigned val).length = sizeofUnsigned val := by
  induction val using writeUnsigned.induct generalizing N with
  | case1 val hge ih =>
    rw [writeUnsigned, sizeofUnsigned, if_pos hge]
    have h7 : 7 < N := by
      by_contra hle
      have := Nat.pow_le_pow_right (n := 2) (by decide) (Nat.le_of_not_lt hle)
      omega
    have hpow : 2 ^ N = 128 * 2 ^ (N - 7) := by
      rw [show (128 : Nat) = 2 ^ 7 from rfl, ← Nat.pow_add]
      congr 1
      omega
    obtain ⟨henc, hlen⟩ := ih (N := N - 7) (by omega) (by omega)
    constructor
    · have hmore := Leb128.Unsigned.more (b := 0x80#8 ||| (BitVec.ofNat 8 val &&& 0x7F#8))
        (by rw [toNat_continuation]; omega) h7 henc
      convert hmore using 1
      rw [toNat_continuation, BitVec.toNat_ofNat]
      omega
    · rw [if_pos (by omega), List.length_cons, hlen]
  | case2 val hlt =>
    rw [writeUnsigned, sizeofUnsigned, if_neg hlt, if_neg (by omega)]
    have hb : (BitVec.ofNat 8 val &&& 0x7F#8).toNat = val := by
      rw [toNat_and_7F, BitVec.toNat_ofNat]
      omega
    refine ⟨?_, rfl⟩
    have hlast := Leb128.Unsigned.last (N := N) (b := BitVec.ofNat 8 val &&& 0x7F#8) (by omega) (by omega)
    rwa [hb] at hlast

/-- One byte more, with the lower bits of the number. -/
theorem signed_continuation {bs : List Byte} (h7 : 7 < N) (h : Leb128.Signed (N - 7) bs (val >>> (7 : Nat))) :
    Leb128.Signed N ((0x80#8 ||| (BitVec.ofInt 8 val &&& 0x7F#8)) :: bs) val := by
  have hmore := Leb128.Signed.more (b := 0x80#8 ||| (BitVec.ofInt 8 val &&& 0x7F#8))
    (by rw [toNat_continuation]; omega) h7 h
  have hmod := toNat_ofInt_mod val
  convert hmore using 1
  rw [toNat_continuation, Int.shiftRight_eq_div_pow]
  omega

/-- A number that is not in the range of seven bits needs more, and without its lower seven bits seven less. -/
theorem shiftRight_range (hlow : -2 ^ (N - 1) ≤ val) (hhigh : val < 2 ^ (N - 1))
    (hlong : 64 ≤ val ∨ val < -64) :
    7 < N ∧ -2 ^ (N - 7 - 1) ≤ val >>> (7 : Nat) ∧ val >>> (7 : Nat) < 2 ^ (N - 7 - 1) := by
  have h7 : 7 < N := by
    by_contra hle
    have : (2 : ℤ) ^ (N - 1) ≤ 2 ^ 6 := pow_le_pow_right₀ (by decide) (by omega)
    omega
  have hpow : (2 : ℤ) ^ (N - 1) = 2 ^ (N - 7 - 1) * 128 := by
    rw [show (128 : ℤ) = 2 ^ 7 from rfl, ← pow_add]
    congr 1
    omega
  rw [Int.shiftRight_eq_div_pow]
  refine ⟨h7, ?_, ?_⟩ <;> omega

theorem writeNonNegative_signed (h0 : 0 ≤ val) (hval : val < 2 ^ (N - 1)) :
    Leb128.Signed N (writeNonNegative val) val ∧ (writeNonNegative val).length = sizeofNonNegative val := by
  induction val using writeNonNegative.induct generalizing N with
  | case1 val hge ih =>
    rw [writeNonNegative, sizeofNonNegative, if_pos hge, if_pos hge]
    have hpos : (0 : ℤ) < 2 ^ (N - 1) := by positivity
    obtain ⟨h7, _, hhigh⟩ := shiftRight_range (by omega) hval (.inl hge)
    obtain ⟨henc, hlen⟩ := ih (by rw [Int.shiftRight_eq_div_pow]; omega) hhigh
    exact ⟨signed_continuation h7 henc, by rw [List.length_cons, hlen]⟩
  | case2 val hlt =>
    rw [writeNonNegative, sizeofNonNegative, if_neg hlt, if_neg hlt]
    have hb : ((BitVec.ofInt 8 val &&& 0xFF#8).toNat : ℤ) = val := by
      rw [show (0xFF#8) = BitVec.allOnes 8 from rfl, BitVec.and_allOnes, toNat_ofInt_mod]
      omega
    refine ⟨?_, rfl⟩
    have hlast := Leb128.Signed.nonneg (N := N) (b := BitVec.ofInt 8 val &&& 0xFF#8) (by omega) (by zify; omega)
    rwa [hb] at hlast

theorem writeNegative_signed (h : val < 0) (hval : -2 ^ (N - 1) ≤ val) :
    Leb128.Signed N (writeNegative val h) val ∧ (writeNegative val h).length = sizeofNegative val h := by
  induction val, h using writeNegative.induct generalizing N with
  | case1 val h hge ih =>
    rw [writeNegative, sizeofNegative, if_pos hge, if_pos hge]
    have hpos : (0 : ℤ) < 2 ^ (N - 1) := by positivity
    rw [Int.shiftRight_eq_div_pow] at hge
    obtain ⟨h7, hlow, _⟩ := shiftRight_range hval (by omega) (.inr (by omega))
    obtain ⟨henc, hlen⟩ := ih hlow
    exact ⟨signed_continuation h7 henc, by rw [List.length_cons, hlen]⟩
  | case2 val h hlt =>
    rw [writeNegative, sizeofNegative, if_neg hlt, if_neg hlt]
    rw [ne_eq, Int.shiftRight_eq_div_pow] at hlt
    have hmod := toNat_ofInt_mod val
    have hb : ((BitVec.ofInt 8 val &&& 0x7F#8).toNat : ℤ) = val + 128 := by
      rw [toNat_and_7F]
      omega
    refine ⟨?_, rfl⟩
    have hlast := Leb128.Signed.neg (N := N) (b := BitVec.ofInt 8 val &&& 0x7F#8) (by omega) (by omega) (by zify; omega)
    rwa [hb, show val + 128 - 128 = val by omega] at hlast

theorem writeSigned_signed (hlow : -2 ^ (N - 1) ≤ val) (hhigh : val < 2 ^ (N - 1)) :
    Leb128.Signed N (writeSigned val) val ∧ (writeSigned val).length = sizeofSigned val := by
  unfold writeSigned sizeofSigned
  by_cases h : val ≥ 0
  · rw [dif_pos h, dif_pos h]
    exact writeNonNegative_signed h hhigh
  · rw [dif_neg h, dif_neg h]
    exact writeNegative_signed (Int.not_le.1 h) hlow

section WriteRead
variable (pre rest : List Byte)

theorem readLeb_append (henc : k.Encodes t (k.toInt v)) :
    readLeb k (pre ++ t ++ rest) pre.length = some ⟨v, t.length, none⟩ := by
  apply readLeb_of_encodes _ henc
  rw [List.append_assoc, List.drop_left]
  exact ⟨rest, rfl⟩

theorem readLeb_writeUnsigned (hs : k.isSigned = false) (hbits : k.sizeInBits = k.intBits)
    (v : BitVec k.intBits) :
    readLeb k (pre ++ writeUnsigned v.toNat ++ rest) pre.length = some ⟨v, sizeofUnsigned v.toNat, none⟩ := by
  obtain ⟨h8, _⟩ := k.sizes
  obtain ⟨henc, hlen⟩ := writeUnsigned_unsigned (by omega) v.isLt
  rw [← hlen]
  apply readLeb_append
  simp only [LebKind.Encodes, LebKind.toInt, hs, hbits]
  exact ⟨v.toNat, rfl, henc⟩

theorem readLeb_writeSigned (hs : k.isSigned = true) (hbits : k.sizeInBits = k.intBits)
    (v : BitVec k.intBits) :
    readLeb k (pre ++ writeSigned v.toInt ++ rest) pre.length = some ⟨v, sizeofSigned v.toInt, none⟩ := by
  obtain ⟨henc, hlen⟩ := writeSigned_signed v.le_toInt v.toInt_lt
  rw [← hlen]
  apply readLeb_append
  simpa only [LebKind.Encodes, LebKind.toInt, hs, if_true, hbits] using henc

end WriteRead

/-- The decoder stays before the end of the bytes, accepts exactly the encodings of the grammar, and reads back what
the helper writes, wherever it stands. -/
theorem readLeb_correct :
    (∀ (k : LebKind) (bytes : List Byte) (pc : Nat), ∃ r, readLeb k bytes pc = some r ∧ ∀ (v : BitVec k.intBits) (n : Nat),
      r.value = v ∧ r.length = n ∧ 0 < n ↔ pc + n ≤ bytes.length ∧ k.Encodes ((bytes.drop pc).take n) (k.toInt v)) ∧
    ∀ pre rest : List Byte,
      (∀ v : BitVec 32, readLeb .u32 (pre ++ writeU32v v ++ rest) pre.length = some ⟨v, sizeofU32v (v.setWidth 64), none⟩) ∧
      (∀ v : BitVec 32, readLeb .i32 (pre ++ writeI32v v ++ rest) pre.length = some ⟨v, sizeofI32v v, none⟩) ∧
      (∀ v : BitVec 64, readLeb .u64 (pre ++ writeU64v v ++ rest) pre.length = some ⟨v, sizeofU64v v, none⟩) ∧
      (∀ v : BitVec 64, readLeb .i64 (pre ++ writeI64v v ++ rest) pre.length = some ⟨v, sizeofI64v v, none⟩) := by
  refine ⟨fun k bytes pc => ?_, fun pre rest => ⟨fun v => ?_, fun v => ?_, fun v => ?_, fun v => ?_⟩⟩
  · obtain ⟨r, hr, hres⟩ := readLeb_spec k bytes pc
    refine ⟨r, hr, fun v n => ⟨?_, ?_⟩⟩
    · rintro ⟨rfl, rfl, hpos⟩
      rcases hres with ⟨t, v, ht, rfl, hv⟩ | ⟨_, _, _, rfl⟩
      · obtain ⟨⟨u, hu⟩, henc⟩ := accepts_iff_encodes.1 ht
        have hlen := congrArg List.length hu
        simp only [List.length_append, List.length_drop] at hlen
        have hne := List.length_pos_of_ne_nil ht.2.1.ne_nil
        simp only [List.length_nil, Nat.zero_add]
        refine ⟨by omega, ?_⟩
        rw [← hu, List.take_left, hv]
        exact henc
      · exact absurd hpos (Nat.lt_irrefl 0)
    · rintro ⟨hn, henc⟩
      have := readLeb_of_encodes (List.take_prefix n (bytes.drop pc)) henc
      have hlen : ((bytes.drop pc).take n).length = n := by
        rw [List.length_take, List.length_drop]
        omega
      rw [hr, hlen, Option.some.injEq] at this
      have hne := List.length_pos_of_ne_nil ((k.encodes_iff).1 henc).1.ne_nil
      rw [this]
      exact ⟨rfl, rfl, by omega⟩
  · have := readLeb_writeUnsigned pre rest (k := .u32) rfl rfl v
    rw [sizeofU32v]
    exact this
  · exact readLeb_writeSigned pre rest (k := .i32) rfl rfl v
  · exact readLeb_writeUnsigned pre rest (k := .u64) rfl rfl v
  · exact readLeb_writeSigned pre rest (k := .i64) rfl rfl v

end V8Core.Wasm
