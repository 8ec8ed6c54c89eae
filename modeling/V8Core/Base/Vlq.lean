import V8Core.Lib.Varint
/-!
# Variable-length quantities

`base/vlq.h`. The encoder writes a byte before it knows whether another one
follows and turns on the continuation bit of the byte just written when it
does. The decoder reads the first byte on a fast path of its own. Signed values
keep their sign in the lowest bit. Both agree with the base-128 code of
`Varint`, so a sequence of values can be read back from their bytes alone.
-/

namespace V8Core.Base

variable (data pre post : List (BitVec 8))

/-! ## Encoding -/

def kContinueShift : Nat := 7

def kContinueBit : Nat := 1 <<< kContinueShift

def kDataMask : Nat := kContinueBit - 1

/-- `process_byte(value)` on a vector: appends the low byte of `value`. -/
def processByte (data : List (BitVec 8)) (value : BitVec 32) : List (BitVec 8) := data ++ [value.setWidth 8]

/-- `*written_byte |= kContinueBit`, the byte written last. -/
def continueLast (data : List (BitVec 8)) : List (BitVec 8) :=
  data.dropLast ++ [data.getLastD 0#8 ||| BitVec.ofNat 8 kContinueBit]

/-- The `do`-`while` loop of `VLQEncodeUnsigned`. -/
def vlqEncodeLoop (data : List (BitVec 8)) (value : BitVec 32) : List (BitVec 8) :=
  let rest := value >>> kContinueShift
  let data := processByte (continueLast data) rest
  if rest.toNat > kDataMask then vlqEncodeLoop data rest else data
termination_by value.toNat
decreasing_by
  have hr : (value >>> kContinueShift).toNat = value.toNat / 128 := by
    rw [BitVec.toNat_ushiftRight, Nat.shiftRight_eq_div_pow]; rfl
  have hgt : (value >>> kContinueShift).toNat > kDataMask := by assumption
  omega

/-- `VLQEncodeUnsigned(data, value)`. -/
def vlqEncodeUnsigned (data : List (BitVec 8)) (value : BitVec 32) : List (BitVec 8) :=
  let data := processByte data value
  if value.toNat ≤ kDataMask then data else vlqEncodeLoop data value

/-- `VLQConvertToUnsigned(value)`: the sign goes to the lowest bit. -/
def vlqConvertToUnsigned (value : BitVec 32) : BitVec 32 :=
  let isNegative := value.toInt < 0
  ((if isNegative then -value else value) <<< 1) ||| (if isNegative then 1#32 else 0#32)

/-- `VLQEncode(data, value)`. -/
def vlqEncode (data : List (BitVec 8)) (value : BitVec 32) : List (BitVec 8) :=
  vlqEncodeUnsigned data (vlqConvertToUnsigned value)

/-! ## Decoding -/

/-- The loop of `VLQDecodeUnsigned` over the bytes after the first; `none` is
a read past the end of the data. -/
def vlqDecodeLoop (data : List (BitVec 8)) (shift index : Nat) (bits : BitVec 32) : Option (BitVec 32 × Nat) :=
  if shift ≤ 32 then
    match data[index]? with
    | none => none
    | some curByte =>
      let bits := bits ||| ((curByte.setWidth 32 &&& BitVec.ofNat 32 kDataMask) <<< shift)
      if curByte.toNat ≤ kDataMask then some (bits, index + 1)
      else vlqDecodeLoop data (shift + kContinueShift) (index + 1) bits
  else some (bits, index)
termination_by 33 - shift
decreasing_by
  simp only [kContinueShift]
  omega

/-- `VLQDecodeUnsigned(data_start, &index)`: the value and the next index. -/
def vlqDecodeUnsigned (data : List (BitVec 8)) (index : Nat) : Option (BitVec 32 × Nat) :=
  match data[index]? with
  | none => none
  | some curByte =>
    -- single byte fast path; no need to mask
    if curByte.toNat ≤ kDataMask then some (curByte.setWidth 32, index + 1)
    else vlqDecodeLoop data kContinueShift (index + 1) (curByte.setWidth 32 &&& BitVec.ofNat 32 kDataMask)

/-- `VLQDecode(data_start, &index)`. -/
def vlqDecode (data : List (BitVec 8)) (index : Nat) : Option (BitVec 32 × Nat) := do
  let (bits, index) ← vlqDecodeUnsigned data index
  let isNegative := (bits &&& 1#32) = 1#32
  let result := bits >>> 1
  return (if isNegative then -result else result, index)

/-! ## The encoder writes the base-128 code -/

variable (value : BitVec 32)

/-- A byte of the value with its continuation bit. -/
theorem continue_byte :
    value.setWidth 8 ||| BitVec.ofNat 8 kContinueBit = BitVec.ofNat 8 (value.toNat % 128 + 128) := by
  have h1 : value.setWidth 8 ||| BitVec.ofNat 8 kContinueBit =
      (value.setWidth 7).setWidth 8 ||| BitVec.ofNat 8 kContinueBit := by
    ext i hi
    have : i = 0 ∨ i = 1 ∨ i = 2 ∨ i = 3 ∨ i = 4 ∨ i = 5 ∨ i = 6 ∨ i = 7 := by omega
    rcases this with rfl | rfl | rfl | rfl | rfl | rfl | rfl | rfl <;> simp [kContinueBit, kContinueShift]
  apply BitVec.eq_of_toNat_eq
  rw [h1, BitVec.toNat_or, BitVec.toNat_setWidth, BitVec.toNat_setWidth, BitVec.toNat_ofNat, BitVec.toNat_ofNat,
    Nat.mod_eq_of_lt (show value.toNat % 2 ^ 7 < 2 ^ 8 by omega), Nat.lor_comm]
  have h2 : value.toNat % 2 ^ 7 < 2 ^ 7 := Nat.mod_lt _ (by norm_num)
  have h3 := Nat.two_pow_add_eq_or_of_lt h2 1
  rw [Nat.mul_one] at h3
  rw [show kContinueBit % 2 ^ 8 = 2 ^ 7 from rfl, ← h3]
  omega

theorem continueLast_processByte :
    continueLast (processByte data value) = data ++ [BitVec.ofNat 8 (value.toNat % 128 + 128)] := by
  rw [← continue_byte]; simp [continueLast, processByte]

theorem setWidth_eq_ofNat : value.setWidth 8 = BitVec.ofNat 8 value.toNat := by
  apply BitVec.eq_of_toNat_eq; simp

theorem vlqEncodeLoop_eq (h : 128 ≤ value.toNat) :
    vlqEncodeLoop (processByte data value) value = data ++ Varint.encode value.toNat := by
  induction hn : value.toNat using Nat.strong_induction_on generalizing data value with
  | _ n ih =>
    subst hn
    have hr : (value >>> kContinueShift).toNat = value.toNat / 128 := by
      rw [BitVec.toNat_ushiftRight, Nat.shiftRight_eq_div_pow]; rfl
    rw [vlqEncodeLoop, continueLast_processByte, Varint.encode_of_le h]
    simp only [hr, show kDataMask = 127 from rfl]
    split
    · rename_i hgt
      rw [ih _ (by omega) (data ++ [BitVec.ofNat 8 (value.toNat % 128 + 128)]) (value >>> kContinueShift)
        (by omega) hr, List.append_assoc]
      rfl
    · rename_i hle
      rw [Varint.encode_of_lt (by omega), processByte, List.append_assoc, ← hr]
      rfl

theorem vlqEncodeUnsigned_eq :
    vlqEncodeUnsigned data value = data ++ Varint.encode value.toNat := by
  rw [vlqEncodeUnsigned]
  simp only [show kDataMask = 127 from rfl]
  split
  · rw [Varint.encode_of_lt (by omega), processByte, setWidth_eq_ofNat]
  · exact vlqEncodeLoop_eq data value (by omega)

/-! ## The decoder reads it -/

theorem toNat_and_dataMask (b : BitVec 8) : (b.setWidth 32 &&& BitVec.ofNat 32 kDataMask).toNat = b.toNat % 128 := by
  rw [BitVec.toNat_and, BitVec.toNat_setWidth, Nat.mod_eq_of_lt (by omega),
    show (BitVec.ofNat 32 kDataMask).toNat = 2 ^ 7 - 1 from rfl, Nat.and_two_pow_sub_one_eq_mod]

/-- Seven more bits go on top of the ones read before. -/
theorem toNat_or_shift (bits : BitVec 32) (b : BitVec 8) {shift : Nat} (hb : bits.toNat < 2 ^ shift)
    (hfit : 2 ^ shift * (b.toNat % 128) < 2 ^ 32) :
    (bits ||| ((b.setWidth 32 &&& BitVec.ofNat 32 kDataMask) <<< shift)).toNat =
      bits.toNat + 2 ^ shift * (b.toNat % 128) := by
  rw [BitVec.toNat_or, BitVec.toNat_shiftLeft, toNat_and_dataMask, Nat.shiftLeft_eq, Nat.mul_comm _ (2 ^ shift),
    Nat.mod_eq_of_lt hfit, Nat.lor_comm, ← Nat.two_pow_add_eq_or_of_lt hb, Nat.add_comm]

/-- The loop reads the code of `n`, the bits above `shift`, and stops behind it. -/
theorem vlqDecodeLoop_eq (n shift : Nat) (bits : BitVec 32) (hshift : shift ≤ 32) (hb : bits.toNat < 2 ^ shift)
    (hfit : bits.toNat + 2 ^ shift * n < 2 ^ 32) :
    vlqDecodeLoop (pre ++ Varint.encode n ++ post) shift pre.length bits =
      some (BitVec.ofNat 32 (bits.toNat + 2 ^ shift * n), pre.length + (Varint.encode n).length) := by
  induction n using Nat.strong_induction_on generalizing pre shift bits with
  | _ n ih =>
    rw [vlqDecodeLoop, if_pos hshift]
    rcases Nat.lt_or_ge n 128 with hlt | hge
    · have hbyte : (BitVec.ofNat 8 n).toNat = n := by rw [BitVec.toNat_ofNat]; omega
      have hor := toNat_or_shift bits (BitVec.ofNat 8 n) hb (by rw [hbyte, Nat.mod_eq_of_lt hlt]; omega)
      rw [hbyte, Nat.mod_eq_of_lt hlt] at hor
      have hget : (pre ++ [BitVec.ofNat 8 n] ++ post)[pre.length]? = some (BitVec.ofNat 8 n) := by simp
      rw [Varint.encode_of_lt hlt, hget]
      simp only [hbyte, show kDataMask = 127 from rfl]
      rw [if_pos (by omega), ← hor, BitVec.ofNat_toNat]
      rfl
    · have hbyte : (BitVec.ofNat 8 (n % 128 + 128)).toNat = n % 128 + 128 := by rw [BitVec.toNat_ofNat]; omega
      have hmod : (n % 128 + 128) % 128 = n % 128 := by omega
      have hdm := Nat.div_add_mod n 128
      have hle : 2 ^ shift * (n % 128) < 2 ^ 32 :=
        lt_of_le_of_lt (Nat.mul_le_mul_left _ (Nat.mod_le n 128)) (by omega)
      have hor := toNat_or_shift bits (BitVec.ofNat 8 (n % 128 + 128)) hb (by rw [hbyte, hmod]; exact hle)
      rw [hbyte, hmod] at hor
      have hget : (pre ++ (BitVec.ofNat 8 (n % 128 + 128) :: Varint.encode (n / 128)) ++ post)[pre.length]? =
          some (BitVec.ofNat 8 (n % 128 + 128)) := by simp
      rw [Varint.encode_of_le hge, hget]
      simp only [hbyte, kContinueShift, show ¬ n % 128 + 128 ≤ kDataMask by rw [show kDataMask = 127 from rfl]; omega]
      generalize bits ||| _ = bits' at hor ⊢
      have hp : 2 ^ (shift + 7) = 2 ^ shift * 128 := Nat.pow_add 2 shift 7
      have hsum : bits'.toNat + 2 ^ (shift + 7) * (n / 128) = bits.toNat + 2 ^ shift * n := by
        rw [hor, hp, Nat.add_assoc, Nat.mul_assoc, ← Nat.mul_add, Nat.add_comm (n % 128), hdm]
      have hlow : bits'.toNat < 2 ^ (shift + 7) := by
        have := Nat.mul_le_mul_left (2 ^ shift) (show n % 128 + 1 ≤ 128 by omega)
        rw [hor, hp]
        rw [Nat.mul_succ] at this
        omega
      have hshift' : 2 ^ (shift + 7) < 2 ^ 32 := by nlinarith [show 1 ≤ n / 128 by omega]
      have h := ih (n / 128) (by omega) (pre ++ [BitVec.ofNat 8 (n % 128 + 128)]) (shift + 7) bits'
        ((Nat.pow_lt_pow_iff_right (by norm_num)).1 hshift').le hlow
        (by rw [hsum]; exact hfit)
      rw [hsum] at h
      simpa [Nat.add_assoc, Nat.add_comm 1] using h

/-- The fast path is the first round of the loop. -/
theorem vlqDecodeUnsigned_eq_loop (index : Nat) : vlqDecodeUnsigned data index = vlqDecodeLoop data 0 index 0#32 := by
  rw [vlqDecodeUnsigned, vlqDecodeLoop, if_pos (Nat.zero_le _)]
  cases data[index]? with
  | none => rfl
  | some b =>
    simp only [BitVec.shiftLeft_zero, BitVec.zero_or]
    split
    · rename_i hb
      have hmask : b.setWidth 32 &&& BitVec.ofNat 32 kDataMask = b.setWidth 32 := by
        apply BitVec.eq_of_toNat_eq
        rw [toNat_and_dataMask, BitVec.toNat_setWidth]
        simp only [show kDataMask = 127 from rfl] at hb
        omega
      rw [hmask]
    · rfl

/-- Reading at the code of a value gives the value and the index behind its code. -/
theorem vlqDecodeUnsigned_eq :
    vlqDecodeUnsigned (pre ++ Varint.encode value.toNat ++ post) pre.length =
      some (value, pre.length + (Varint.encode value.toNat).length) := by
  have h := vlqDecodeLoop_eq pre post value.toNat 0 0#32 (Nat.zero_le _) (by simp) (by simpa using value.isLt)
  rw [vlqDecodeUnsigned_eq_loop, h]
  simp

/-! ## Sequences of values -/

/-- How a value is written and read. -/
inductive VlqKind
  | signed
  | unsigned
  deriving DecidableEq, Repr

/-- A value that can be encoded: any unsigned one, any signed one but the least. -/
structure VlqValue where
  kind : VlqKind
  value : BitVec 32
  ne_min : kind = .signed → value ≠ BitVec.intMin 32

/-- The unsigned number whose code stands for the value. -/
def VlqValue.bits (v : VlqValue) : BitVec 32 :=
  match v.kind with
  | .signed => vlqConvertToUnsigned v.value
  | .unsigned => v.value

/-- Writes one value with the function for its kind. -/
def VlqValue.encode (data : List (BitVec 8)) (v : VlqValue) : List (BitVec 8) :=
  match v.kind with
  | .signed => vlqEncode data v.value
  | .unsigned => vlqEncodeUnsigned data v.value

/-- Reads one value with the function for its kind. -/
def VlqKind.decode (kind : VlqKind) (data : List (BitVec 8)) (index : Nat) : Option (BitVec 32 × Nat) :=
  match kind with
  | .signed => vlqDecode data index
  | .unsigned => vlqDecodeUnsigned data index

/-- Writes values one after the other. -/
def vlqEncodeAll (vs : List VlqValue) : List (BitVec 8) := vs.foldl VlqValue.encode []

/-- Reads values one after the other: the values and the index behind the last. -/
def vlqDecodeAll (data : List (BitVec 8)) : List VlqKind → Nat → Option (List (BitVec 32) × Nat)
  | [], index => some ([], index)
  | kind :: kinds, index => do
    let (value, index) ← kind.decode data index
    let (values, index) ← vlqDecodeAll data kinds index
    return (value :: values, index)

/-- A magnitude of 31 bits next to the sign bit comes apart again. -/
theorem shiftLeft_or_sign (m : BitVec 32) (negative : Bool) (h : m.toNat < 2 ^ 31) :
    let bits := (m <<< 1) ||| (if negative then 1#32 else 0#32)
    ((bits &&& 1#32) = 1#32 ↔ negative = true) ∧ bits >>> 1 = m := by
  intro bits
  have hs : (if negative then 1#32 else 0#32 : BitVec 32).toNat = negative.toNat := by cases negative <;> rfl
  have hb : bits.toNat = 2 * m.toNat + negative.toNat := by
    rw [BitVec.toNat_or, hs, BitVec.toNat_shiftLeft, Nat.shiftLeft_eq, Nat.mod_eq_of_lt (by omega), Nat.mul_comm,
      ← Nat.two_pow_add_eq_or_of_lt (show negative.toNat < 2 ^ 1 by cases negative <;> decide)]
  have hn : negative.toNat < 2 := by cases negative <;> decide
  constructor
  · rw [← BitVec.toNat_inj, BitVec.toNat_and, hb, show (1#32).toNat = 1 from rfl]
    cases negative
    · simp
    · simp
  · rw [← BitVec.toNat_inj, BitVec.toNat_ushiftRight, hb]
    omega

/-- The sign survives in the lowest bit, for all but the least signed value. -/
theorem vlqConvertToUnsigned_spec (h : value ≠ BitVec.intMin 32) :
    let bits := vlqConvertToUnsigned value
    (if (bits &&& 1#32) = 1#32 then -(bits >>> 1) else bits >>> 1) = value := by
  intro bits
  have hne : value.toNat ≠ 2 ^ 31 := fun h0 => h (BitVec.eq_of_toNat_eq (by rw [h0]; rfl))
  have hneg := BitVec.toInt_neg_iff (x := value)
  by_cases hv : value.toInt < 0
  · have hm : (-value).toNat < 2 ^ 31 := by
      rw [BitVec.toNat_neg]; omega
    obtain ⟨h1, h2⟩ := shiftLeft_or_sign (-value) true hm
    simp only [bits, vlqConvertToUnsigned, hv, if_true] at h1 h2 ⊢
    rw [if_pos (h1.2 trivial), h2, BitVec.neg_neg]
  · have hm : value.toNat < 2 ^ 31 := by omega
    obtain ⟨h1, h2⟩ := shiftLeft_or_sign value false hm
    simp only [bits, vlqConvertToUnsigned, hv, if_false, Bool.false_eq_true] at h1 h2 ⊢
    rw [if_neg h1.1, h2]

theorem VlqValue.encode_eq (v : VlqValue) : VlqValue.encode data v = data ++ Varint.encode v.bits.toNat := by
  rcases v with ⟨_ | _, value, h⟩
  · exact vlqEncodeUnsigned_eq data (vlqConvertToUnsigned value)
  · exact vlqEncodeUnsigned_eq data value

theorem VlqKind.decode_eq (v : VlqValue) :
    v.kind.decode (pre ++ Varint.encode v.bits.toNat ++ post) pre.length =
      some (v.value, pre.length + (Varint.encode v.bits.toNat).length) := by
  have hd := vlqDecodeUnsigned_eq pre post v.bits
  rcases v with ⟨_ | _, value, h⟩
  · simp only [VlqKind.decode, vlqDecode, hd]
    have := vlqConvertToUnsigned_spec value (h rfl)
    simpa [VlqValue.bits] using this
  · exact hd

theorem vlqEncodeAll_append (vs : List VlqValue) :
    vs.foldl VlqValue.encode pre = pre ++ vs.flatMap fun v => Varint.encode v.bits.toNat := by
  induction vs generalizing pre with
  | nil => simp
  | cons v vs ih => rw [List.foldl_cons, ih, VlqValue.encode_eq, List.flatMap_cons, List.append_assoc]

theorem vlqDecodeAll_eq (vs : List VlqValue) :
    vlqDecodeAll (vs.foldl VlqValue.encode pre) (vs.map (·.kind)) pre.length =
      some (vs.map (·.value), (vs.foldl VlqValue.encode pre).length) := by
  induction vs generalizing pre with
  | nil => rfl
  | cons v vs ih =>
    have hd := VlqKind.decode_eq pre (vs.flatMap fun v => Varint.encode v.bits.toNat) v
    have hdata : (v :: vs).foldl VlqValue.encode pre =
        pre ++ Varint.encode v.bits.toNat ++ vs.flatMap fun v => Varint.encode v.bits.toNat := by
      rw [List.foldl_cons, vlqEncodeAll_append, VlqValue.encode_eq]
    have ih' := ih (VlqValue.encode pre v)
    rw [← List.foldl_cons, hdata, VlqValue.encode_eq, List.length_append] at ih'
    rw [hdata, List.map_cons, vlqDecodeAll, hd]
    simp only [Option.bind_eq_bind, Option.bind_some, ih']
    rfl

/-- Values written one after the other are read back in order, up to the end of
the data, and each takes the fewest bytes its bits fit in, from one to five. -/
theorem vlq_roundTrip (vs : List VlqValue) :
    vlqDecodeAll (vlqEncodeAll vs) (vs.map (·.kind)) 0 = some (vs.map (·.value), (vlqEncodeAll vs).length) ∧
    ∀ (v : VlqValue) (data : List (BitVec 8)), ∃ k, (v.encode data).length = data.length + k ∧ 1 ≤ k ∧ k ≤ 5 ∧
      v.bits.toNat < 2 ^ (7 * k) ∧ (k = 1 ∨ 2 ^ (7 * (k - 1)) ≤ v.bits.toNat) := by
  refine ⟨vlqDecodeAll_eq [] vs, fun v data => ⟨(Varint.encode v.bits.toNat).length, ?_, ?_, ?_, ?_⟩⟩
  · rw [VlqValue.encode_eq, List.length_append]
  · exact Varint.encode_length_pos _
  · exact Varint.encode_length_le (by norm_num) (lt_trans v.bits.isLt (by norm_num))
  · obtain ⟨h1, h2⟩ := Varint.encode_minimal v.bits.toNat
    exact ⟨h1, or_iff_not_imp_left.2 h2⟩

end V8Core.Base
