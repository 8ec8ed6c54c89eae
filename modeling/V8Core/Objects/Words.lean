import V8Core.Objects.BigInt
/-!
# BigInts as arrays of 64-bit words

`BigInt::FromWords64` and `BigInt::ToWordsArray64`, on targets with 64-bit digits
and on targets with 32-bit digits, where a word is two digits. The 32-bit path
of `FromWords64` leaves out the upper digit of the top word when it expects it
to be zero, but its test lets the word `2 ^ 32` through.
-/

open Radix V8Core.Bigint

namespace V8Core.Objects

variable {t : Target}

open MutableBigInt (new new_finish)

/-! ## From words -/

/-- The digits of one word. -/
def digitsOfWord : (t : Target) → BitVec 64 → List (BitVec t.kDigitBits)
  | .bits64, word => [word]
  | .bits32, word => [word.setWidth 32, (word >>> 32).setWidth 32]

/-- The result length of `FromWords64`, for at least one word. -/
def fromWords64Length (t : Target) (words : List (BitVec 64)) : Nat :=
  let length := 64 / t.kDigitBits * words.length
  if t.kDigitBits = 32 ∧ digit words (words.length - 1) ≤ BitVec.ofNat 64 (2 ^ 32) then length - 1 else length

def BigInt.fromWords64 (t : Target) (signBit : Bool) (words : List (BitVec 64)) : Except Fault (BigInt t) :=
  if words.length > kMaxLength t / (64 / t.kDigitBits) then .error .rangeError
  else if words.length = 0 then .ok (BigInt.zero t)
  else do
    let length := fromWords64Length t words
    let result ← new length
    result.finish signBit ((words.flatMap (digitsOfWord t)).take length)

theorem digitsOfWord_eq (t : Target) (words : List (BitVec 64)) :
    words.flatMap (digitsOfWord t) = split t.kDigitBits (64 / t.kDigitBits) words := by
  congr 1
  funext word
  cases t
  · rfl
  · simp [digitsOfWord, splitDigit, Target.kDigitBits]

theorem kDigitBits_mul_div (t : Target) : 64 = t.kDigitBits * (64 / t.kDigitBits) := by cases t <;> rfl

/-! ## To words -/

/-- `words[i / 2] = lo | (hi << 32)`, a missing upper digit read as zero. -/
def pairDigits : List (BitVec 32) → List (BitVec 64)
  | [] => []
  | [lo] => [lo.setWidth 64 ||| (0#64 <<< 32)]
  | lo :: hi :: rest => (lo.setWidth 64 ||| (hi.setWidth 64 <<< 32)) :: pairDigits rest

def BigInt.words64Count (x : BigInt t) : Nat :=
  x.length / (64 / t.kDigitBits) + if t.kDigitBits = 32 ∧ x.length % 2 = 1 then 1 else 0

/-- The words of `ToWordsArray64` before they are cut off at the available ones. -/
def wordsOfDigits : (t : Target) → List (BitVec t.kDigitBits) → List (BitVec 64)
  | .bits64, X => X
  | .bits32, X => pairDigits X

/-- `ToWordsArray64`: the sign, the word count, and the words written. -/
def BigInt.toWordsArray64 (x : BigInt t) (availableWords : Nat) : Bool × Nat × List (BitVec 64) :=
  (x.sign, x.words64Count, (wordsOfDigits t x.digits).take availableWords)

theorem toNat_pair (lo hi : BitVec 32) :
    (lo.setWidth 64 ||| (hi.setWidth 64 <<< 32)).toNat = lo.toNat + 2 ^ 32 * hi.toNat := by
  have hlo := lo.isLt
  rw [BitVec.toNat_or, BitVec.toNat_shiftLeft, BitVec.toNat_setWidth, BitVec.toNat_setWidth, Nat.shiftLeft_eq,
    Nat.mod_eq_of_lt (by omega), Nat.mod_eq_of_lt (by omega), Nat.mod_eq_of_lt (by omega), Nat.lor_comm,
    Nat.mul_comm, ← Nat.two_pow_add_eq_or_of_lt hlo, Nat.add_comm]

theorem value_pairDigits (X : List (BitVec 32)) : value (pairDigits X) = value X := by
  induction X using pairDigits.induct with
  | case1 => rfl
  | case2 lo =>
    simp [pairDigits]; omega
  | case3 lo hi rest ih => rw [pairDigits, value_cons, toNat_pair, ih, value_cons, value_cons]; ring

theorem length_pairDigits (X : List (BitVec 32)) : (pairDigits X).length = (X.length + 1) / 2 := by
  induction X using pairDigits.induct with
  | case1 => rfl
  | case2 lo => simp [pairDigits]
  | case3 lo hi rest ih => rw [pairDigits, List.length_cons, ih, List.length_cons, List.length_cons]; omega

/-- The words of a canonical BigInt are its number in base `2 ^ 64`, with no leading zero word. -/
theorem wordsOfDigits_spec (x : BigInt t) :
    value (wordsOfDigits t x.digits) = value x.digits ∧ (wordsOfDigits t x.digits).length = x.words64Count ∧
      IsDigitNormalized (wordsOfDigits t x.digits) := by
  have hn := x.normalized
  cases t with
  | bits64 => exact ⟨rfl, by simp [wordsOfDigits, BigInt.words64Count, BigInt.length, Target.kDigitBits], hn⟩
  | bits32 =>
    have hl : (wordsOfDigits .bits32 x.digits).length = (x.digits.length + 1) / 2 := length_pairDigits x.digits
    have hv : value (wordsOfDigits .bits32 x.digits) = value x.digits := value_pairDigits x.digits
    refine ⟨hv, ?_, isDigitNormalized_of_le fun hne => ?_⟩
    · rw [hl, BigInt.words64Count, BigInt.length]
      generalize x.digits.length = n
      simp only [Target.kDigitBits, true_and]
      split <;> omega
    · have hX : x.digits ≠ [] := fun h => hne (by rw [h]; rfl)
      rw [hv, hl]
      refine le_trans (Nat.pow_le_pow_right (by norm_num) ?_) (le_value_of_normalized hn hX)
      simp only [Target.kDigitBits]
      omega

/-! ## The round trip -/

variable {words : List (BitVec 64)}

theorem fromWords64Length_pos (t : Target) (h : words ≠ []) :
    0 < fromWords64Length t words := by
  have := List.length_pos_of_ne_nil h
  cases t with
  | bits64 => simpa [fromWords64Length, Target.kDigitBits] using this
  | bits32 => simp only [fromWords64Length, Target.kDigitBits]; split <;> omega

theorem fromWords64Length_le (t : Target) (words : List (BitVec 64)) :
    fromWords64Length t words ≤ 64 / t.kDigitBits * words.length := by
  simp only [fromWords64Length]
  split
  · exact Nat.sub_le _ _
  · exact le_refl _

/-- `FromWords64` keeps the digits it has room for. -/
theorem fromWords64_returns (t : Target) (signBit : Bool) (h : words ≠ [])
    (hmax : words.length ≤ kMaxLength t / (64 / t.kDigitBits)) :
    ∃ z, BigInt.fromWords64 t signBit words = .ok z ∧
      z.toInt = if signBit then -((value words % 2 ^ (t.kDigitBits * fromWords64Length t words) : Nat) : ℤ)
        else (value words % 2 ^ (t.kDigitBits * fromWords64Length t words) : Nat) := by
  have hle := fromWords64Length_le t words
  have hpos := fromWords64Length_pos t h
  have hlen : ((split t.kDigitBits (64 / t.kDigitBits) words).take (fromWords64Length t words)).length =
      fromWords64Length t words := by
    rw [List.length_take, split_length]; omega
  have hval := value_take (split t.kDigitBits (64 / t.kDigitBits) words) (fromWords64Length t words)
  rw [value_split _ (kDigitBits_mul_div t)] at hval
  rw [BigInt.fromWords64, if_neg (by omega), if_neg (by simpa using h), digitsOfWord_eq]
  refine new_finish ⟨by rw [signedValue, hval], hlen⟩ ?_ (fun h0 => by omega)
  exact le_trans hle (le_trans (Nat.mul_le_mul_left _ hmax) (Nat.mul_div_le _ _))

/-- There is room for all digits but those of a top word `2 ^ 32` on a 32-bit target. -/
theorem value_lt_fromWords64Length (t : Target) (h : words ≠ []) :
    value words < 2 ^ (t.kDigitBits * fromWords64Length t words) ↔
      ¬ (t = .bits32 ∧ words.getLast? = some (BitVec.ofNat 64 (2 ^ 32))) := by
  obtain ⟨low, top, rfl⟩ := (List.eq_nil_or_concat words).resolve_left h
  have hlow := value_lt low
  have htop := top.isLt
  have hlast : digit (low ++ [top]) (low.length + 1 - 1) = top := by simp [digit]
  have heq : top = BitVec.ofNat 64 (2 ^ 32) ↔ top.toNat = 2 ^ 32 := by
    rw [← BitVec.toNat_inj]; rfl
  simp only [List.concat_eq_append, fromWords64Length, hlast, value_concat, List.length_append, List.length_singleton,
    List.getLast?_concat, Option.some.injEq, heq, BitVec.le_def, BitVec.toNat_ofNat]
  cases t with
  | bits64 =>
    simp only [Target.kDigitBits, Nat.reduceEqDiff, false_and, if_false, reduceCtorEq, not_false_eq_true, iff_true]
    rw [show 64 * (64 / 64 * (low.length + 1)) = 64 * low.length + 64 by ring, Nat.pow_add]
    nlinarith
  | bits32 =>
    simp only [Target.kDigitBits, true_and]
    rw [show 64 / 32 * (low.length + 1) = 2 * low.length + 2 by omega]
    split
    · rw [show 32 * (2 * low.length + 2 - 1) = 64 * low.length + 32 by omega, Nat.pow_add]
      constructor
      · intro hlt heq32
        rw [heq32] at hlt
        omega
      · intro hne
        have : 2 ^ (64 * low.length) * (top.toNat + 1) ≤ 2 ^ (64 * low.length) * 2 ^ 32 :=
          Nat.mul_le_mul_left _ (by omega)
        rw [Nat.mul_succ] at this
        omega
    · rename_i hgt
      rw [show 32 * (2 * low.length + 2) = 64 * low.length + 64 by omega, Nat.pow_add]
      refine ⟨fun _ h32 => hgt (by omega), fun _ => ?_⟩
      nlinarith

/-- `FromWords64` returns the number of the words, and `ToWordsArray64` with
enough room gives back its sign and its words without leading zero words. -/
def WordsRoundTrip (t : Target) (signBit : Bool) (words : List (BitVec 64)) : Prop :=
  ∃ z : BigInt t, BigInt.fromWords64 t signBit words = .ok z ∧ z.toInt = signedValue signBit words ∧
    ∀ available, (normalize words).length ≤ available →
      z.toWordsArray64 available = (signBit && decide (value words ≠ 0), (normalize words).length, normalize words)

/-- A BigInt of the right value gives back the words. -/
theorem toWordsArray64_of_toInt {z : BigInt t} {signBit : Bool}
    (h : z.toInt = signedValue signBit words) (available : Nat) (ha : (normalize words).length ≤ available) :
    z.toWordsArray64 available = (signBit && decide (value words ≠ 0), (normalize words).length, normalize words) := by
  obtain ⟨h1, h2, h3⟩ := wordsOfDigits_spec z
  have hv : value z.digits = value words := by
    rw [← z.natAbs_toInt, h, signedValue]; split <;> simp
  have hw : wordsOfDigits t z.digits = normalize words :=
    eq_of_normalized h3 (isDigitNormalized_normalize words) (by rw [h1, hv, value_normalize])
  have hs : z.sign = (signBit && decide (value words ≠ 0)) := by
    have hneg := z.toInt_neg_iff
    rw [h, signedValue] at hneg
    cases signBit with
    | false =>
      rw [Bool.eq_iff_iff, ← hneg]
      simp
    | true =>
      rw [Bool.eq_iff_iff, ← hneg]
      simp [Nat.pos_iff_ne_zero]
  rw [BigInt.toWordsArray64, hs, ← h2, hw, List.take_of_length_le ha]

/-- The round trip holds for all words and signs, except for a top word
`2 ^ 32` on a target with 32-bit digits. -/
theorem words_roundTrip_iff (t : Target) (signBit : Bool) (words : List (BitVec 64))
    (hmax : words.length ≤ kMaxLength t / (64 / t.kDigitBits)) :
    WordsRoundTrip t signBit words ↔ ¬ (t = .bits32 ∧ words.getLast? = some (BitVec.ofNat 64 (2 ^ 32))) := by
  rcases eq_or_ne words [] with rfl | hne
  · have hz : (BigInt.zero t).toInt = signedValue signBit ([] : List (BitVec 64)) := by
      cases signBit <;> rfl
    simp only [List.getLast?_nil, reduceCtorEq, and_false, not_false_eq_true, iff_true]
    exact ⟨BigInt.zero t, rfl, hz, toWordsArray64_of_toInt hz⟩
  · obtain ⟨z, h1, h2⟩ := fromWords64_returns t signBit hne hmax
    rw [← value_lt_fromWords64Length t hne]
    constructor
    · rintro ⟨z', h1', h2', -⟩
      have hzz : z' = z := by rw [h1] at h1'; exact (Except.ok.inj h1').symm
      subst hzz
      have hv : value words = value words % 2 ^ (t.kDigitBits * fromWords64Length t words) := by
        have habs := h2'.symm.trans h2
        cases signBit
        · exact Int.ofNat_inj.1 habs
        · exact Int.ofNat_inj.1 (neg_injective habs)
      rw [hv]
      exact Nat.mod_lt _ (by positivity)
    · intro hlt
      rw [Nat.mod_eq_of_lt hlt] at h2
      exact ⟨z, h1, h2, toWordsArray64_of_toInt h2⟩

/-- The words 7 and 2^32 + 1 survive on a 32-bit target. -/
theorem words_roundTrip_iff_two_words :
    WordsRoundTrip .bits32 true [7#64, BitVec.ofNat 64 (2 ^ 32 + 1)] :=
  (words_roundTrip_iff .bits32 true [7#64, BitVec.ofNat 64 (2 ^ 32 + 1)]
    (by simp [kMaxLength, kMaxLengthBits, Target.kDigitBits])).2 (by decide)

/-- The single word 2^32 becomes the BigInt 0 on a 32-bit target. -/
theorem fromWords64_drops_digit :
    (∃ z : BigInt .bits32, BigInt.fromWords64 .bits32 false [BitVec.ofNat 64 (2 ^ 32)] = .ok z ∧ z.toInt = 0) ∧
      signedValue false [BitVec.ofNat 64 (2 ^ 32)] = 2 ^ 32 := by
  obtain ⟨z, h1, h2⟩ := fromWords64_returns .bits32 false (List.cons_ne_nil (BitVec.ofNat 64 (2 ^ 32)) [])
    (by simp [kMaxLength, kMaxLengthBits, Target.kDigitBits])
  exact ⟨⟨z, h1, h2.trans (by decide)⟩, by decide⟩

end V8Core.Objects
