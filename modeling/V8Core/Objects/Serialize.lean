import V8Core.Bigint.Shift
import V8Core.Objects.BigInt
/-!
# Serialized BigInts

The structured-clone format of a BigInt: a 32-bit bitfield with the sign and the
length in bytes, then the digits, least significant byte first, so that targets
of either digit width read each other's data. Reading trusts the length field:
its 30 bits allow eight times as many bytes as the longest BigInt has.
-/

open Radix V8Core.Bigint

namespace V8Core.Objects

variable {t : Target}

open MutableBigInt (newBigInt newBigInt_eq new_finish)

/-! ## The bitfield -/

/-- `BitField<T, shift, size>::kMask`. -/
def bitFieldMask (shift size : Nat) : BitVec 32 := ((1#32 <<< shift) <<< size) - (1#32 <<< shift)

/-- `BitField::encode`. -/
def bitFieldEncode (shift value : Nat) : BitVec 32 := BitVec.ofNat 32 value <<< shift

/-- `BitField::decode`. -/
def bitFieldDecode (shift size : Nat) (bitfield : BitVec 32) : Nat :=
  ((bitfield &&& bitFieldMask shift size) >>> shift).toNat

/-- `SignBits`: bit 0. -/
def signBitsEncode (sign : Bool) : BitVec 32 := bitFieldEncode 0 sign.toNat

def signBitsDecode (bitfield : BitVec 32) : Bool := bitFieldDecode 0 1 bitfield != 0

def kLengthFieldBits : Nat := 30

/-- `LengthBits`: the bits after the sign. -/
def lengthBitsEncode (length : Nat) : BitVec 32 := bitFieldEncode 1 length

def lengthBitsDecode (bitfield : BitVec 32) : Nat := bitFieldDecode 1 kLengthFieldBits bitfield

/-! ## Writing and reading -/

/-- `kDigitSize`, in bytes. -/
def kDigitSize (t : Target) : Nat := t.kDigitBits / 8

def BigInt.getBitfieldForSerialization (x : BigInt t) : BitVec 32 :=
  let bytelength := x.length * kDigitSize t
  signBitsEncode x.sign ||| lengthBitsEncode bytelength

/-- `DigitsByteLengthForBitfield(bitfield)`. -/
def digitsByteLengthForBitfield (bitfield : BitVec 32) : Nat := lengthBitsDecode bitfield

/-- `SerializeDigits(storage)`: the bytes of the digits. -/
def BigInt.serializeDigits (x : BigInt t) : List (BitVec 8) := split 8 (kDigitSize t) x.digits

/-- `FromSerializedDigits(bitfield, digits_storage)`; `none` is the empty handle. -/
def BigInt.fromSerializedDigits (t : Target) (bitfield : BitVec 32) (digitsStorage : List (BitVec 8)) :
    Except Fault (Option (BigInt t)) :=
  let bytelength := lengthBitsDecode bitfield
  let sign := signBitsDecode bitfield
  let length := (bytelength + kDigitSize t - 1) / kDigitSize t
  -- there is no -0n; reject corrupted serialized data
  if length = 0 ∧ sign = true then .ok none
  else do
    let result ← newBigInt length
    let result ← result.finish sign (join t.kDigitBits (kDigitSize t) length digitsStorage)
    return some result

/-! ## The bitfield round trip -/

theorem signBitsDecode_eq (bitfield : BitVec 32) : signBitsDecode bitfield = decide (bitfield.toNat % 2 = 1) := by
  have hm : bitFieldMask 0 1 = 1#32 := by decide
  rw [signBitsDecode, bitFieldDecode, hm, BitVec.ushiftRight_zero, BitVec.toNat_and]
  rw [show (1#32).toNat = 1 from rfl]
  rcases Nat.mod_two_eq_zero_or_one bitfield.toNat with h | h <;> simp [h]

theorem lengthBitsDecode_eq (bitfield : BitVec 32) : lengthBitsDecode bitfield = bitfield.toNat / 2 % 2 ^ 30 := by
  have hm : bitFieldMask 1 kLengthFieldBits >>> 1 = 1#32 <<< 30 - 1#32 := by decide
  rw [lengthBitsDecode, bitFieldDecode, BitVec.ushiftRight_and_distrib, hm, toNat_and_mask (by norm_num) _ _ (by norm_num),
    BitVec.toNat_ushiftRight, Nat.shiftRight_eq_div_pow]

theorem toNat_bitfield (sign : Bool) {n : Nat} (hn : n < 2 ^ 30) :
    (signBitsEncode sign ||| lengthBitsEncode n).toNat = sign.toNat + 2 * n := by
  have hs : (signBitsEncode sign).toNat = sign.toNat := by cases sign <;> rfl
  have hl : (lengthBitsEncode n).toNat = 2 ^ 1 * n := by
    rw [lengthBitsEncode, bitFieldEncode, BitVec.toNat_shiftLeft, BitVec.toNat_ofNat, Nat.shiftLeft_eq,
      Nat.mod_eq_of_lt (by omega), Nat.mod_eq_of_lt (by omega), Nat.mul_comm]
  have hlt : sign.toNat < 2 ^ 1 := by cases sign <;> decide
  rw [BitVec.toNat_or, hs, hl, Nat.lor_comm, ← Nat.two_pow_add_eq_or_of_lt hlt, Nat.add_comm]

theorem kDigitSize_mul (t : Target) : t.kDigitBits = 8 * kDigitSize t := by cases t <;> rfl

theorem kDigitSize_pos (t : Target) : 0 < kDigitSize t := by cases t <;> decide

theorem kMaxLength_bytes (t : Target) : kDigitSize t * kMaxLength t = 2 ^ 27 := by
  cases t <;> simp [kDigitSize, kMaxLength, kMaxLengthBits, Target.kDigitBits]

theorem BigInt.byteLength_le (x : BigInt t) : x.length * kDigitSize t ≤ 2 ^ 27 := by
  rw [← kMaxLength_bytes t, Nat.mul_comm]; exact Nat.mul_le_mul_left _ x.length_le

/-- The bitfield of a BigInt decodes to its sign and its length in bytes. -/
theorem getBitfieldForSerialization_decode (x : BigInt t) :
    signBitsDecode x.getBitfieldForSerialization = x.sign ∧
      lengthBitsDecode x.getBitfieldForSerialization = x.length * kDigitSize t := by
  have hle := x.byteLength_le
  have hb := toNat_bitfield x.sign (n := x.length * kDigitSize t) (by omega)
  rw [signBitsDecode_eq, lengthBitsDecode_eq, BigInt.getBitfieldForSerialization, hb]
  generalize x.length * kDigitSize t = n at *
  cases x.sign
  · exact ⟨by simp, by simp only [Bool.toNat_false]; omega⟩
  · exact ⟨by simp, by simp only [Bool.toNat_true]; omega⟩

/-! ## Reading -/

/-- Reading within the limit gives the number of the bytes, under the sign of
the bitfield; zero bytes make a zero without sign. -/
theorem fromSerializedDigits_spec (t : Target) (bitfield : BitVec 32) (storage : List (BitVec 8))
    (hlen : storage.length = lengthBitsDecode bitfield)
    (hmax : (storage.length + kDigitSize t - 1) / kDigitSize t ≤ kMaxLength t) :
    (storage = [] ∧ signBitsDecode bitfield = true ∧ BigInt.fromSerializedDigits t bitfield storage = .ok none) ∨
      ∃ z, BigInt.fromSerializedDigits t bitfield storage = .ok (some z) ∧
        z.toInt = signedValue (signBitsDecode bitfield) storage := by
  have hsize := kDigitSize_pos t
  simp only [BigInt.fromSerializedDigits, ← hlen]
  have hround : storage.length ≤ kDigitSize t * ((storage.length + kDigitSize t - 1) / kDigitSize t) := by
    have := Nat.div_add_mod (storage.length + kDigitSize t - 1) (kDigitSize t)
    have := Nat.mod_lt (storage.length + kDigitSize t - 1) hsize
    omega
  generalize hn : (storage.length + kDigitSize t - 1) / kDigitSize t = n at *
  by_cases h0 : n = 0 ∧ signBitsDecode bitfield = true
  · refine .inl ⟨?_, h0.2, if_pos h0⟩
    rw [h0.1] at hround
    exact List.length_eq_zero_iff.1 (by omega)
  · right
    have hval := value_join (w := t.kDigitBits) (kDigitSize t) n (kDigitSize_mul t) storage hround
    have hz : Returns (MutableBigInt.new n >>= fun result =>
        result.finish (signBitsDecode bitfield) (join t.kDigitBits (kDigitSize t) n storage))
        (signedValue (signBitsDecode bitfield) storage) :=
      new_finish ⟨by rw [signedValue, signedValue, hval], join_length _ _ _⟩ hmax (fun h => by simpa [h] using h0)
    obtain ⟨z, hz1, hz2⟩ := hz
    refine ⟨z, ?_, hz2⟩
    rw [if_neg h0, newBigInt_eq hmax, ← bind_assoc, hz1]
    rfl

/-- Past the limit the allocation aborts the process. -/
theorem fromSerializedDigits_fatal (t : Target) (bitfield : BitVec 32) (storage : List (BitVec 8))
    (hlen : storage.length = lengthBitsDecode bitfield)
    (hmax : kMaxLength t < (storage.length + kDigitSize t - 1) / kDigitSize t) :
    BigInt.fromSerializedDigits t bitfield storage = .error .fatal := by
  simp only [BigInt.fromSerializedDigits, ← hlen]
  generalize (storage.length + kDigitSize t - 1) / kDigitSize t = n at *
  rw [if_neg (by omega), newBigInt, dif_pos hmax]
  rfl

/-- Data written on one target reads back as the same number on any other. -/
theorem fromSerializedDigits_serialize (t t' : Target) (x : BigInt t') :
    ∃ z : BigInt t, BigInt.fromSerializedDigits t x.getBitfieldForSerialization x.serializeDigits = .ok (some z) ∧
      z.sign = x.sign ∧ z.toInt = x.toInt := by
  obtain ⟨hs, hl⟩ := getBitfieldForSerialization_decode x
  have hlen : x.serializeDigits.length = x.length * kDigitSize t' := by
    rw [BigInt.serializeDigits, split_length, Nat.mul_comm, BigInt.length]
  have hval : value x.serializeDigits = value x.digits := value_split _ (kDigitSize_mul t') x.digits
  have hmax : (x.serializeDigits.length + kDigitSize t - 1) / kDigitSize t ≤ kMaxLength t := by
    have hb := x.byteLength_le
    have hk := kMaxLength_bytes t
    have hp := kDigitSize_pos t
    rw [hlen, Nat.div_le_iff_le_mul_add_pred hp, hk]
    omega
  rcases fromSerializedDigits_spec t _ _ (by rw [hlen, hl]) hmax with ⟨h1, h2, -⟩ | ⟨z, h1, h2⟩
  · rw [hs] at h2
    have := x.value_pos_of_sign h2
    rw [← hval, h1] at this
    simp at this
  · have hx : z.toInt = x.toInt := by rw [h2, hs, BigInt.toInt, signedValue, signedValue, hval]
    refine ⟨z, h1, ?_, hx⟩
    rw [Bool.eq_iff_iff, ← z.toInt_neg_iff, ← x.toInt_neg_iff, hx]

/-- Reading gives an empty handle or a BigInt exactly when the encoded length
is within the limit of BigInts; what was written always reads back. -/
theorem fromSerializedDigits_safe_iff (t : Target) (bitfield : BitVec 32) (storage : List (BitVec 8))
    (hlen : storage.length = digitsByteLengthForBitfield bitfield) :
    ((BigInt.fromSerializedDigits t bitfield storage = .ok none ∨
        ∃ z, BigInt.fromSerializedDigits t bitfield storage = .ok (some z)) ↔
      (storage.length + kDigitSize t - 1) / kDigitSize t ≤ kMaxLength t) ∧
    ∀ (t' : Target) (x : BigInt t'), ∃ z : BigInt t,
      BigInt.fromSerializedDigits t x.getBitfieldForSerialization x.serializeDigits = .ok (some z) ∧
        z.sign = x.sign ∧ z.toInt = x.toInt := by
  refine ⟨⟨fun h => ?_, fun h => ?_⟩, fun t' x => fromSerializedDigits_serialize t t' x⟩
  · by_contra hmax
    have hf := fromSerializedDigits_fatal t bitfield storage hlen (Nat.lt_of_not_le hmax)
    rcases h with h | ⟨z, h⟩ <;> rw [hf] at h <;> cases h
  · rcases fromSerializedDigits_spec t bitfield storage hlen h with ⟨-, -, h1⟩ | ⟨z, h1, -⟩
    · exact .inl h1
    · exact .inr ⟨z, h1⟩

/-- One byte with the value 5, read with the sign set. -/
theorem fromSerializedDigits_safe_iff_byte :
    BigInt.fromSerializedDigits .bits64 3#32 [5#8] = .ok none ∨
      ∃ z, BigInt.fromSerializedDigits .bits64 3#32 [5#8] = .ok (some z) :=
  (fromSerializedDigits_safe_iff .bits64 3#32 [5#8] (by decide)).1.2
    (kMaxLength_pos .bits64)

/-- A length field with all bits set aborts the process. -/
theorem fromSerializedDigits_aborts :
    BigInt.fromSerializedDigits .bits64 (bitFieldMask 1 kLengthFieldBits) (List.replicate (2 ^ 30 - 1) 0#8) =
      .error .fatal := by
  have hd : lengthBitsDecode (bitFieldMask 1 kLengthFieldBits) = 2 ^ 30 - 1 := by
    rw [lengthBitsDecode_eq]; decide
  refine fromSerializedDigits_fatal _ _ _ (by rw [List.length_replicate, hd]) ?_
  rw [List.length_replicate]
  simp [kDigitSize, kMaxLength, kMaxLengthBits, Target.kDigitBits]

end V8Core.Objects
