import V8Core.Lib.Utf8
import Mathlib.Tactic.IntervalCases

/-!
# The UTF-8 automaton

`Utf8DfaDecoder` of `third_party/utf8-decoder/utf8-decoder.h` and the functions of
`strings/unicode-inl.h` and `strings/unicode.cc` that run it. A state of the automaton
stands for the encodings that begin with what has been read: `Pending` says which code
point every continuation gives that the state lets through.
-/

namespace V8Core.Strings

open Unicode

variable {c l : Nat} {part : List Nat} {x b : Nat}

/-! ## The automaton -/

/-- `Utf8DfaDecoder::State`. -/
inductive Utf8State
  | kReject
  | kAccept
  | kTwoByte
  | kThreeByte
  | kThreeByteLowMid
  | kFourByte
  | kFourByteLow
  | kThreeByteHigh
  | kFourByteMidHigh
  deriving DecidableEq, Repr

namespace Utf8DfaDecoder

/-- The table `transitions`, with its runs of equal entries. -/
def transitions : List Nat :=
  List.replicate 0x80 0 ++ List.replicate 0x10 1 ++ List.replicate 0x10 2 ++ List.replicate 0x20 3 ++
    [9, 9] ++ List.replicate 0x1E 4 ++
    [10, 5, 5, 5, 5, 5, 5, 5, 5, 5, 5, 5, 5, 6, 5, 5] ++
    [11, 7, 7, 7, 8, 9, 9, 9, 9, 9, 9, 9, 9, 9, 9, 9]

open Utf8State in
/-- The rows of the table `states`. -/
def states : Utf8State → List Utf8State
  | kReject =>
    [kReject, kReject, kReject, kReject, kReject, kReject, kReject, kReject, kReject, kReject, kReject, kReject]
  | kAccept =>
    [kAccept, kReject, kReject, kReject, kTwoByte, kThreeByte, kThreeByteLowMid, kFourByte, kFourByteLow, kReject,
      kThreeByteHigh, kFourByteMidHigh]
  | kTwoByte =>
    [kReject, kAccept, kAccept, kAccept, kReject, kReject, kReject, kReject, kReject, kReject, kReject, kReject]
  | kThreeByte =>
    [kReject, kTwoByte, kTwoByte, kTwoByte, kReject, kReject, kReject, kReject, kReject, kReject, kReject, kReject]
  | kThreeByteLowMid =>
    [kReject, kTwoByte, kTwoByte, kReject, kReject, kReject, kReject, kReject, kReject, kReject, kReject, kReject]
  | kFourByte =>
    [kReject, kThreeByte, kThreeByte, kThreeByte, kReject, kReject, kReject, kReject, kReject, kReject, kReject, kReject]
  | kFourByteLow =>
    [kReject, kThreeByte, kReject, kReject, kReject, kReject, kReject, kReject, kReject, kReject, kReject, kReject]
  | kThreeByteHigh =>
    [kReject, kReject, kReject, kTwoByte, kReject, kReject, kReject, kReject, kReject, kReject, kReject, kReject]
  | kFourByteMidHigh =>
    [kReject, kReject, kThreeByte, kThreeByte, kReject, kReject, kReject, kReject, kReject, kReject, kReject, kReject]

/-- `transitions[byte]`. -/
def typeOf (byte : Nat) : Nat := transitions.getD byte 0

/-- `states[state + transitions[byte]]`. -/
def next (byte : Nat) (state : Utf8State) : Utf8State := (states state).getD (typeOf byte) .kReject

/-- `Decode`: the state and the buffer afterwards. -/
def decode (byte : Nat) (state : Utf8State) (buffer : Nat) : Utf8State × Nat :=
  (next byte state, (buffer <<< 6) % 2 ^ 32 ||| byte &&& (0x7F >>> (typeOf byte >>> 1)))

end Utf8DfaDecoder

namespace Utf8

def kBadChar : Nat := 0xFFFD

def kBufferEmpty : Nat := 0x0

def kIncomplete : Nat := 0xFFFFFFFC

def kMaxOneByteChar : Nat := 0x7F

def kMaxTwoByteChar : Nat := 0x7FF

def kMaxThreeByteChar : Nat := 0xFFFF

/-- `ValueOfIncremental` at the byte `next`: the value, whether the cursor is moved behind the byte, the state and the
buffer. -/
def valueOfIncremental (next : Nat) (state : Utf8State) (buffer : Nat) : Nat × Bool × Utf8State × Nat :=
  if next ≤ kMaxOneByteChar ∧ state = .kAccept then (next, true, state, buffer)
  else
    match Utf8DfaDecoder.decode next state buffer with
    | (.kAccept, buffer) => (buffer, true, .kAccept, 0)
    | (.kReject, _) => (kBadChar, decide (state = .kAccept), .kAccept, 0)
    | (state, buffer) => (kIncomplete, true, state, buffer)

/-- `ValueOfIncrementalFinish`. -/
def valueOfIncrementalFinish (state : Utf8State) : Nat := if state = .kAccept then kBufferEmpty else kBadChar

/-- The loop of `CalculateValue`; it has at least one byte. -/
def calculateValueLoop : List Nat → Utf8State → Nat → Nat × Utf8State
  | [], state, _ => (kIncomplete, state)
  | byte :: rest, state, buffer =>
    let (t, _, state, buffer) := valueOfIncremental byte state buffer
    if rest ≠ [] ∧ t = kIncomplete then calculateValueLoop rest state buffer else (t, state)

/-- `CalculateValue`, without the cursor. -/
def calculateValue (str : List Nat) : Nat :=
  let (t, state) := calculateValueLoop str .kAccept 0
  if state = .kAccept then t else kBadChar

/-- `ValueOf`, without the cursor. -/
def valueOf (bytes : List Nat) : Nat :=
  match bytes with
  | [] => kBadChar
  | first :: _ => if first ≤ kMaxOneByteChar then first else calculateValue bytes

/-- `kMask` of `Encode`. -/
def kMask : Nat := 2 ^ 32 - 1 - 2 ^ 6

/-- `Encode` without a previous character and with `replace_invalid` not set. -/
def encode (c : Nat) : List Nat :=
  if c ≤ kMaxOneByteChar then [c % 256]
  else if c ≤ kMaxTwoByteChar then [(0xC0 ||| c >>> 6) % 256, (0x80 ||| c &&& kMask) % 256]
  else if c ≤ kMaxThreeByteChar then
    [(0xE0 ||| c >>> 12) % 256, (0x80 ||| (c >>> 6) &&& kMask) % 256, (0x80 ||| c &&& kMask) % 256]
  else
    [(0xF0 ||| c >>> 18) % 256, (0x80 ||| (c >>> 12) &&& kMask) % 256, (0x80 ||| (c >>> 6) &&& kMask) % 256,
      (0x80 ||| c &&& kMask) % 256]

end Utf8

namespace Utf16

def kMaxNonSurrogateCharCode : Nat := 0xFFFF

def isLeadSurrogate (code : Nat) : Bool := code &&& 0x1FFC00 == 0xD800

def isTrailSurrogate (code : Nat) : Bool := code &&& 0x1FFC00 == 0xDC00

def combineSurrogatePair (lead trail : Nat) : Nat := 0x10000 + ((lead &&& 0x3FF) <<< 10) + (trail &&& 0x3FF)

def leadSurrogate (charCode : Nat) : Nat := 0xD800 + (((charCode - 0x10000) >>> 10) &&& 0x3FF)

def trailSurrogate (charCode : Nat) : Nat := 0xDC00 + (charCode &&& 0x3FF)

end Utf16

/-! ## What the bytes do -/

variable {state : Utf8State}

variable {buffer : Nat}

namespace Utf8DfaDecoder

/-- The bits of a byte that belong to the code point. -/
def payload (b : Nat) : Nat := b &&& (0x7F >>> (typeOf b >>> 1))

theorem payload_tail (hx : x < 64) : payload (0x80 + x) = x := by
  revert x
  decide +kernel

theorem payload_two (h0 : 2 ≤ l) (h1 : l < 32) : payload (0xC0 + l) = l := by
  revert h0
  revert l
  decide +kernel

theorem payload_three (h : l < 16) : payload (0xE0 + l) = l := by
  revert l
  decide +kernel

theorem payload_four (h : l < 5) : payload (0xF0 + l) = l := by
  revert l
  decide +kernel

theorem decode_lead (b : Nat) (state : Utf8State) : decode b state 0 = (next b state, payload b) := by
  simp [decode, payload]

/-- A further byte adds its six bits. -/
theorem decode_tail (hx : x < 64) (hbuffer : buffer < 2 ^ 26) (state : Utf8State) :
    decode (0x80 + x) state buffer = (next (0x80 + x) state, buffer * 64 + x) := by
  have hshift : (buffer <<< 6) % 2 ^ 32 = buffer <<< 6 := by
    rw [Nat.shiftLeft_eq]
    omega
  have hvalue : buffer <<< 6 ||| x = buffer * 64 + x := by
    rw [← Nat.shiftLeft_add_eq_or_of_lt hx, Nat.shiftLeft_eq]
  rw [decode, hshift, ← hvalue]
  exact congrArg (_, buffer <<< 6 ||| ·) (payload_tail hx)

/-- Where a continuation byte leads. -/
theorem next_tail (hx : x < 64) :
    next (0x80 + x) .kTwoByte = .kAccept ∧ next (0x80 + x) .kThreeByte = .kTwoByte ∧
    next (0x80 + x) .kFourByte = .kThreeByte ∧
    next (0x80 + x) .kThreeByteLowMid = (if x < 0x20 then .kTwoByte else .kReject) ∧
    next (0x80 + x) .kThreeByteHigh = (if x < 0x20 then .kReject else .kTwoByte) ∧
    next (0x80 + x) .kFourByteLow = (if x < 0x10 then .kThreeByte else .kReject) ∧
    next (0x80 + x) .kFourByteMidHigh = (if x < 0x10 then .kReject else .kThreeByte) := by
  revert x
  decide +kernel

/-- Any other byte is rejected within a sequence. -/
theorem next_not_tail (hb : b < 256) (h : b < 0x80 ∨ 0xC0 ≤ b) (hstate : state ≠ .kAccept) :
    next b state = .kReject := by
  have hall : ∀ b < 256, (b < 0x80 ∨ 0xC0 ≤ b) → ∀ state ∈ [Utf8State.kReject, .kTwoByte, .kThreeByte, .kThreeByteLowMid,
      .kFourByte, .kFourByteLow, .kThreeByteHigh, .kFourByteMidHigh], next b state = .kReject := by
    decide +kernel
  exact hall b hb h state (by cases state <;> simp at hstate ⊢)

/-- Where the first byte of a sequence leads. -/
theorem next_kAccept (hb : b < 256) :
    next b .kAccept =
      if b < 0x80 then .kAccept else if b < 0xC2 then .kReject else if b < 0xE0 then .kTwoByte
      else if b = 0xE0 then .kThreeByteHigh else if b = 0xED then .kThreeByteLowMid else if b < 0xF0 then .kThreeByte
      else if b = 0xF0 then .kFourByteMidHigh else if b < 0xF4 then .kFourByte else if b = 0xF4 then .kFourByteLow
      else .kReject := by
  revert b
  decide +kernel

theorem next_kAccept_ne (hb : b < 256) (h : 0x80 ≤ b) : next b .kAccept ≠ .kAccept := by
  rw [next_kAccept hb, if_neg (by omega)]
  split_ifs <;> decide

/-! ## What a state stands for -/

/-- The bytes are the encoding of the code point. -/
def Encodes (bytes : List Nat) (c : Nat) : Prop := IsScalar c ∧ utf8 c = bytes

/-- Any `n` continuation bytes complete the encoding. -/
def After : Nat → List Nat → Nat → Prop
  | 0, part, c => Encodes part c
  | n + 1, part, c => ∀ x < 64, After n (part ++ [0x80 + x]) (c * 64 + x)

/-- The bytes `part` have been read within a sequence, and are `buffer` so far. -/
def Pending : Utf8State → List Nat → Nat → Prop
  | .kReject, _, _ => False
  | .kAccept, _, _ => False
  | .kTwoByte, part, buffer => After 1 part buffer
  | .kThreeByte, part, buffer => After 2 part buffer
  | .kFourByte, part, buffer => After 3 part buffer
  | .kThreeByteLowMid, part, buffer => ∀ x < 32, After 1 (part ++ [0x80 + x]) (buffer * 64 + x)
  | .kThreeByteHigh, part, buffer => ∀ x < 64, 32 ≤ x → After 1 (part ++ [0x80 + x]) (buffer * 64 + x)
  | .kFourByteLow, part, buffer => ∀ x < 16, After 2 (part ++ [0x80 + x]) (buffer * 64 + x)
  | .kFourByteMidHigh, part, buffer => ∀ x < 64, 16 ≤ x → After 2 (part ++ [0x80 + x]) (buffer * 64 + x)

/-- Some continuation completes the encoding, of a code point that begins with the buffer. -/
theorem After.completes {n : Nat} (h : After n part c) :
    ∃ rest d, Encodes (part ++ rest) d ∧ rest.length = n ∧ c ≤ d := by
  induction n generalizing part c with
  | zero => exact ⟨[], c, by simpa [After] using h, rfl, Nat.le_refl _⟩
  | succ n ih =>
    obtain ⟨rest, d, henc, hlen, hle⟩ := ih (h 0 (by omega))
    exact ⟨0x80 :: rest, d, by simpa using henc, by simp [hlen], by omega⟩

theorem Pending.completes (h : Pending state part buffer) :
    ∃ rest d, Encodes (part ++ rest) d ∧ rest ≠ [] ∧ buffer ≤ d := by
  have key : ∀ {n x : Nat}, After n (part ++ [0x80 + x]) (buffer * 64 + x) →
      ∃ rest d, Encodes (part ++ rest) d ∧ rest ≠ [] ∧ buffer ≤ d := by
    intro n x hafter
    obtain ⟨rest, d, henc, _, hle⟩ := hafter.completes
    exact ⟨(0x80 + x) :: rest, d, by simpa using henc, List.cons_ne_nil _ _, by omega⟩
  cases state with
  | kReject => exact h.elim
  | kAccept => exact h.elim
  | kTwoByte => exact key (h 0 (by omega))
  | kThreeByte => exact key (h 0 (by omega))
  | kFourByte => exact key (h 0 (by omega))
  | kThreeByteLowMid => exact key (h 0 (by omega))
  | kThreeByteHigh => exact key (h 32 (by omega) (by omega))
  | kFourByteLow => exact key (h 0 (by omega))
  | kFourByteMidHigh => exact key (h 16 (by omega) (by omega))

theorem Pending.buffer_lt (h : Pending state part buffer) : buffer < 2 ^ 26 := by
  obtain ⟨_, d, ⟨hd, _⟩, _, hle⟩ := h.completes
  unfold IsScalar at hd
  omega

theorem Pending.begins (h : Pending state part buffer) : Begins part := by
  obtain ⟨rest, d, ⟨hd, henc⟩, _, _⟩ := h.completes
  exact ⟨d, hd, henc ▸ List.prefix_append _ _⟩

/-- Nothing has been completed before. -/
theorem Pending.not_utf8 (h : Pending state part buffer) : ¬ utf8 c <+: part := by
  intro hbegin
  obtain ⟨rest, d, ⟨hd, henc⟩, hrest, _⟩ := h.completes
  have hcd : c = d := utf8_eq_of_begins (henc ▸ hbegin.trans (List.prefix_append _ _))
  subst hcd
  rw [henc] at hbegin
  have hlen := hbegin.length_le
  rw [List.length_append] at hlen
  exact hrest (List.length_eq_zero_iff.1 (by omega))

theorem encodes_two (hx : x < 64) (hlow : 2 ≤ l) (hhigh : l < 32) : Encodes [0xC0 + l, 0x80 + x] (l * 64 + x) := by
  refine ⟨.inl (by omega), ?_⟩
  rw [utf8, if_neg (by omega), if_pos (by omega)]
  simp only [List.cons.injEq, and_true]
  omega

theorem encodes_three {y : Nat} (hx : x < 64) (hy : y < 64) (hlow : 0x800 ≤ (l * 64 + x) * 64 + y) (hhigh : l < 16)
    (hscalar : l * 64 + x < 0x360 ∨ 0x37F < l * 64 + x) :
    Encodes [0xE0 + l, 0x80 + x, 0x80 + y] ((l * 64 + x) * 64 + y) := by
  refine ⟨by unfold IsScalar; omega, ?_⟩
  rw [utf8, if_neg (by omega), if_neg (by omega), if_pos (by omega)]
  simp only [List.cons.injEq, and_true]
  omega

theorem encodes_four {y z : Nat} (hx : x < 64) (hy : y < 64) (hz : z < 64) (hlow : 0x10 ≤ l * 64 + x)
    (hhigh : l * 64 + x ≤ 0x10F) :
    Encodes [0xF0 + l, 0x80 + x, 0x80 + y, 0x80 + z] (((l * 64 + x) * 64 + y) * 64 + z) := by
  refine ⟨.inr (by omega), ?_⟩
  rw [utf8, if_neg (by omega), if_neg (by omega), if_neg (by omega)]
  simp only [List.cons.injEq, and_true]
  omega

/-- The first byte of a sequence. -/
theorem pending_lead (hb : b < 256) (haccept : next b .kAccept ≠ .kAccept) (hreject : next b .kAccept ≠ .kReject) :
    Pending (next b .kAccept) [b] (payload b) := by
  rw [next_kAccept hb] at haccept hreject ⊢
  split_ifs at haccept hreject ⊢ with h1 h2 h3 h4 h5 h6 h7 h8 h9
  · exact absurd rfl haccept
  · exact absurd rfl hreject
  · obtain ⟨l, rfl⟩ : ∃ l, b = 0xC0 + l := ⟨b - 0xC0, by omega⟩
    rw [payload_two (by omega) (by omega)]
    exact fun x hx => encodes_two hx (by omega) (by omega)
  · obtain ⟨l, rfl⟩ : ∃ l, b = 0xE0 + l := ⟨b - 0xE0, by omega⟩
    rw [payload_three (by omega)]
    exact fun x hx hlow y hy => encodes_three hx hy (by omega) (by omega) (by omega)
  · obtain ⟨l, rfl⟩ : ∃ l, b = 0xE0 + l := ⟨b - 0xE0, by omega⟩
    rw [payload_three (by omega)]
    exact fun x hx y hy => encodes_three (by omega) hy (by omega) (by omega) (by omega)
  · obtain ⟨l, rfl⟩ : ∃ l, b = 0xE0 + l := ⟨b - 0xE0, by omega⟩
    rw [payload_three (by omega)]
    exact fun x hx y hy => encodes_three hx hy (by omega) (by omega) (by omega)
  · obtain ⟨l, rfl⟩ : ∃ l, b = 0xF0 + l := ⟨b - 0xF0, by omega⟩
    rw [payload_four (by omega)]
    exact fun x hx hlow y hy z hz => encodes_four hx hy hz (by omega) (by omega)
  · obtain ⟨l, rfl⟩ : ∃ l, b = 0xF0 + l := ⟨b - 0xF0, by omega⟩
    rw [payload_four (by omega)]
    exact fun x hx y hy z hz => encodes_four hx hy hz (by omega) (by omega)
  · obtain ⟨l, rfl⟩ : ∃ l, b = 0xF0 + l := ⟨b - 0xF0, by omega⟩
    rw [payload_four (by omega)]
    exact fun x hx y hy z hz => encodes_four (by omega) hy hz (by omega) (by omega)
  · exact absurd rfl hreject

/-- One more byte of a sequence: it completes the encoding, or does not belong to it, or more bytes are needed. -/
theorem pending_step (h : Pending state part buffer) (hb : b < 256) :
    (∃ c, decode b state buffer = (.kAccept, c) ∧ Encodes (part ++ [b]) c) ∨
    next b state = .kReject ∨
    ∃ state' buffer', decode b state buffer = (state', buffer') ∧ Pending state' (part ++ [b]) buffer' := by
  by_cases htail : 0x80 ≤ b ∧ b < 0xC0
  · obtain ⟨x, rfl⟩ : ∃ x, b = 0x80 + x := ⟨b - 0x80, by omega⟩
    have hx : x < 64 := by omega
    obtain ⟨hsecond, hthird, hfourth, hlowMid, hhigh, hlow, hmidHigh⟩ := next_tail hx
    rw [decode_tail hx h.buffer_lt]
    cases state with
    | kReject => exact h.elim
    | kAccept => exact h.elim
    | kTwoByte => exact .inl ⟨_, by rw [hsecond], h x (by omega)⟩
    | kThreeByte => exact .inr (.inr ⟨.kTwoByte, _, by rw [hthird], h x (by omega)⟩)
    | kFourByte => exact .inr (.inr ⟨.kThreeByte, _, by rw [hfourth], h x (by omega)⟩)
    | kThreeByteLowMid =>
      rw [hlowMid]
      split
      · exact .inr (.inr ⟨_, _, rfl, h x (by omega)⟩)
      · exact .inr (.inl rfl)
    | kThreeByteHigh =>
      rw [hhigh]
      split
      · exact .inr (.inl rfl)
      · exact .inr (.inr ⟨_, _, rfl, h x (by omega) (by omega)⟩)
    | kFourByteLow =>
      rw [hlow]
      split
      · exact .inr (.inr ⟨_, _, rfl, h x (by omega)⟩)
      · exact .inr (.inl rfl)
    | kFourByteMidHigh =>
      rw [hmidHigh]
      split
      · exact .inr (.inl rfl)
      · exact .inr (.inr ⟨_, _, rfl, h x (by omega) (by omega)⟩)
  · refine .inr (.inl (next_not_tail hb (by omega) ?_))
    rintro rfl
    exact h

/-- The state after some bytes, from between characters. -/
def run (bytes : List Nat) : Utf8State × Nat := bytes.foldl (fun s b => decode b s.1 s.2) (.kAccept, 0)

theorem run_snoc (part : List Nat) (b : Nat) : run (part ++ [b]) = decode b (run part).1 (run part).2 := by
  rw [run, List.foldl_append]
  rfl

/-- An encoding is accepted. -/
theorem run_utf8 (hc : IsScalar c) : run (utf8 c) = (.kAccept, c) := by
  unfold IsScalar at hc
  by_cases h1 : c < 0x80
  · have hall : ∀ c < 0x80, run (utf8 c) = (.kAccept, c) := by decide +kernel
    exact hall c h1
  have htail : ∀ n, n % 64 < 64 := fun n => Nat.mod_lt _ (by decide)
  by_cases h2 : c < 0x800
  · rw [utf8, if_neg h1, if_pos h2, run]
    simp only [List.foldl_cons, List.foldl_nil]
    have hlead : next (0xC0 + c / 64) .kAccept = .kTwoByte := by
      rw [next_kAccept (by omega), if_neg (by omega), if_neg (by omega), if_pos (by omega)]
    rw [decode_lead, hlead, payload_two (by omega) (by omega), decode_tail (htail c) (by omega),
      (next_tail (htail c)).1]
    congr 1
    omega
  by_cases h3 : c < 0x10000
  · rw [utf8, if_neg h1, if_neg h2, if_pos h3, run]
    simp only [List.foldl_cons, List.foldl_nil]
    have hsecond : next (0x80 + c / 64 % 64) (next (0xE0 + c / 4096) .kAccept) = .kTwoByte := by
      obtain ⟨_, hthree, _, hlowMid, hhigh, _, _⟩ := next_tail (htail (c / 64))
      rw [next_kAccept (by omega), if_neg (by omega), if_neg (by omega), if_neg (by omega)]
      split_ifs with he0 hed hef
      · rw [hhigh, if_neg (by omega)]
      · rw [hlowMid, if_pos (by omega)]
      · exact hthree
      all_goals omega
    rw [decode_lead, payload_three (by omega), decode_tail (htail (c / 64)) (by omega), hsecond, decode_tail (htail c) (by omega),
      (next_tail (htail c)).1]
    congr 1
    omega
  · rw [utf8, if_neg h1, if_neg h2, if_neg h3, run]
    simp only [List.foldl_cons, List.foldl_nil]
    have hsecond : next (0x80 + c / 4096 % 64) (next (0xF0 + c / 262144) .kAccept) = .kThreeByte := by
      obtain ⟨_, _, hfour, _, _, hlow, hmidHigh⟩ := next_tail (htail (c / 4096))
      rw [next_kAccept (by omega), if_neg (by omega), if_neg (by omega), if_neg (by omega), if_neg (by omega),
        if_neg (by omega), if_neg (by omega)]
      split_ifs with hf0 hf1 hf4
      · rw [hmidHigh, if_neg (by omega)]
      · exact hfour
      · rw [hlow, if_pos (by omega)]
      · omega
    rw [decode_lead, payload_four (by omega), decode_tail (htail (c / 4096)) (by omega), hsecond,
      decode_tail (htail (c / 64)) (by omega), (next_tail (htail (c / 64))).2.1, decode_tail (htail c) (by omega),
      (next_tail (htail c)).1]
    congr 1
    omega

theorem next_kReject (b : Nat) : next b .kReject = .kReject := by
  unfold next states
  rcases Nat.lt_or_ge (typeOf b) 12 with h | h
  · interval_cases typeOf b <;> rfl
  · rw [List.getD_eq_getElem?_getD, List.getElem?_eq_none (by simpa using h), Option.getD_none]

theorem foldl_kReject (bytes : List Nat) (buffer : Nat) :
    (bytes.foldl (fun s b => decode b s.1 s.2) (Utf8State.kReject, buffer)).1 = .kReject := by
  induction bytes generalizing buffer with
  | nil => rfl
  | cons b bytes ih =>
    rw [List.foldl_cons, show decode b .kReject buffer = (.kReject, (decode b .kReject buffer).2) from
      Prod.ext (next_kReject b) rfl]
    exact ih _

/-- What is rejected is not the beginning of an encoding. -/
theorem not_begins_of_kReject (h : (run part).1 = .kReject) : ¬ Begins part := by
  rintro ⟨c, hc, rest, hrest⟩
  have hrun := run_utf8 hc
  rw [← hrest, run, List.foldl_append, show part.foldl (fun s b => decode b s.1 s.2) (Utf8State.kAccept, 0) =
    (.kReject, (run part).2) from Prod.ext h rfl] at hrun
  have := foldl_kReject rest (run part).2
  rw [hrun] at this
  cases this

/-- A byte that does not belong to the sequence leaves nothing to decode at its beginning. -/
theorem Pending.not_utf8_of_kReject (h : Pending state part buffer) (hrun : run part = (state, buffer))
    (hreject : next b state = .kReject) (rest : List Nat) (hc : IsScalar c) : ¬ utf8 c <+: part ++ b :: rest := by
  have hnot : ¬ Begins (part ++ [b]) := by
    apply not_begins_of_kReject
    rw [run_snoc, hrun]
    exact hreject
  intro hbegin
  rcases List.prefix_or_prefix_of_prefix hbegin (show part ++ [b] <+: part ++ b :: rest from ⟨rest, by simp⟩) with hle | hle
  · -- the encoding would end with the byte at the latest
    rcases List.prefix_concat_iff.1 hle with heq | hpart
    · exact hnot ⟨c, hc, heq ▸ List.prefix_rfl⟩
    · exact h.not_utf8 hpart
  · exact hnot ⟨c, hc, hle⟩

/-! ## One byte -/

/-- What a byte does, in each of the loops. -/
inductive Step
  /-- It completes a character. -/
  | char (c : Nat)
  /-- It does not begin a sequence. -/
  | bad
  /-- It does not continue the sequence, and is read again. -/
  | again
  | more (state : Utf8State) (buffer : Nat)

def stepOf (b : Nat) (state : Utf8State) (buffer : Nat) : Step :=
  if b ≤ Utf8.kMaxOneByteChar ∧ state = .kAccept then .char b
  else
    match decode b state buffer with
    | (.kReject, _) => if state ≠ .kAccept then .again else .bad
    | (.kAccept, c) => .char c
    | (state, buffer) => .more state buffer

/-- The bytes `part` of a sequence have been read, or the cursor is between characters. -/
def Reading (part : List Nat) (state : Utf8State) (buffer : Nat) : Prop :=
  (part = [] ∧ state = .kAccept ∧ buffer = 0) ∨ (Pending state part buffer ∧ run part = (state, buffer))

theorem Reading.buffer_eq (h : Reading part state buffer) (hstate : state = .kAccept) : buffer = 0 := by
  rcases h with ⟨_, _, rfl⟩ | ⟨hpending, _⟩
  · rfl
  · subst hstate
    exact hpending.elim

theorem Reading.pending (h : Reading part state buffer) (hpart : part ≠ []) :
    Pending state part buffer := by
  rcases h with ⟨hnil, _⟩ | ⟨hpending, _⟩
  · exact absurd hnil hpart
  · exact hpending

/-- What a byte does, as the encodings have it. -/
theorem stepOf_cases (h : Reading part state buffer) (hb : b < 256) :
    (∃ c, stepOf b state buffer = .char c ∧ IsScalar c ∧ utf8 c = part ++ [b]) ∨
    (stepOf b state buffer = .bad ∧ part = [] ∧ ¬ Begins [b]) ∨
    (stepOf b state buffer = .again ∧ state ≠ .kAccept ∧ part ≠ [] ∧ Begins part ∧ ¬ Begins (part ++ [b]) ∧
      ∀ rest c, IsScalar c → ¬ utf8 c <+: part ++ b :: rest) ∨
    ∃ state' buffer', stepOf b state buffer = .more state' buffer' ∧ Reading (part ++ [b]) state' buffer' := by
  rcases h with ⟨rfl, rfl, rfl⟩ | ⟨hpending, hrun⟩
  · unfold stepOf
    by_cases hascii : b ≤ Utf8.kMaxOneByteChar
    · have hlt : b < 0x80 := Nat.lt_succ_of_le hascii
      rw [if_pos ⟨hascii, rfl⟩]
      exact .inl ⟨b, rfl, .inl (by omega), utf8_ascii hlt⟩
    · rw [if_neg (by simp [hascii]), decode_lead]
      have haccept := next_kAccept_ne hb (Nat.lt_of_not_le hascii)
      by_cases hreject : next b .kAccept = .kReject
      · rw [hreject]
        exact .inr (.inl ⟨by simp, rfl, not_begins_of_kReject (show (run [b]).1 = .kReject from hreject)⟩)
      · refine .inr (.inr (.inr ⟨_, _, ?_, .inr ⟨pending_lead hb haccept hreject, decode_lead b .kAccept⟩⟩))
        cases hnext : next b .kAccept <;> first | exact absurd hnext haccept | exact absurd hnext hreject | rfl
  · have hstate : state ≠ .kAccept := by
      rintro rfl
      exact hpending
    unfold stepOf
    rw [if_neg (by simp [hstate])]
    rcases pending_step hpending hb with ⟨c, hdecode, hc, henc⟩ | hreject | ⟨state', buffer', hdecode, hpending'⟩
    · rw [hdecode]
      exact .inl ⟨c, rfl, hc, henc⟩
    · rw [show decode b state buffer = (.kReject, (decode b state buffer).2) from Prod.ext hreject rfl]
      have hnot : ¬ Begins (part ++ [b]) := by
        apply not_begins_of_kReject
        rw [run_snoc, hrun]
        exact hreject
      have hpart : part ≠ [] := by
        rintro rfl
        exact hstate (congrArg Prod.fst hrun).symm
      refine .inr (.inr (.inl ⟨by simp [hstate], hstate, hpart, hpending.begins, hnot, fun rest c hc => ?_⟩))
      exact hpending.not_utf8_of_kReject hrun hreject rest hc
    · rw [hdecode]
      refine .inr (.inr (.inr ⟨state', buffer', ?_, .inr ⟨hpending', by rw [run_snoc, hrun, hdecode]⟩⟩))
      cases state' <;> first | exact hpending'.elim | rfl

end Utf8DfaDecoder

/-! ## Values -/

namespace Utf8

open Utf8DfaDecoder

theorem valueOfIncremental_eq (hbuffer : state = .kAccept → buffer = 0) :
    valueOfIncremental b state buffer =
      match stepOf b state buffer with
      | .char c => (c, true, .kAccept, 0)
      | .bad => (kBadChar, true, .kAccept, 0)
      | .again => (kBadChar, false, .kAccept, 0)
      | .more state buffer => (kIncomplete, true, state, buffer) := by
  rw [valueOfIncremental, stepOf]
  by_cases hascii : b ≤ kMaxOneByteChar ∧ state = .kAccept
  · obtain ⟨hle, rfl⟩ := hascii
    obtain rfl := hbuffer rfl
    simp [hle]
  · rw [if_neg hascii, if_neg hascii]
    rcases decode b state buffer with ⟨state', c⟩
    cases state' with
    | kReject => by_cases hstate : state = .kAccept <;> simp [hstate]
    | _ => rfl

theorem kIncomplete_ne (hc : IsScalar c) : c ≠ kIncomplete := by
  unfold IsScalar at hc
  unfold kIncomplete
  omega

/-- What `CalculateValue` makes of the result of its loop. -/
def finishValue (r : Nat × Utf8State) : Nat := if r.2 = .kAccept then r.1 else kBadChar

theorem calculateValueLoop_reading {rest : List Nat} (h : Reading part state buffer)
    (hrest : rest ≠ []) (hbytes : ∀ b ∈ rest, b < 256) :
    (∃ c rest', IsScalar c ∧ part ++ rest = utf8 c ++ rest' ∧ finishValue (calculateValueLoop rest state buffer) = c) ∨
    (finishValue (calculateValueLoop rest state buffer) = kBadChar ∧ ∀ c, IsScalar c → ¬ utf8 c <+: part ++ rest) := by
  induction rest generalizing state part buffer with
  | nil => exact absurd rfl hrest
  | cons b rest ih =>
    rw [calculateValueLoop, valueOfIncremental_eq h.buffer_eq]
    rcases stepOf_cases h (hbytes b List.mem_cons_self) with ⟨c, hstep, hc, henc⟩ | ⟨hstep, rfl, hnot⟩ |
      ⟨hstep, _, _, _, _, hnot⟩ | ⟨state', buffer', hstep, hreading⟩
    · left
      refine ⟨c, rest, hc, by rw [henc]; simp, ?_⟩
      rw [hstep]
      simp [kIncomplete_ne hc, finishValue]
    · right
      rw [hstep]
      refine ⟨by simp [kBadChar, kIncomplete, finishValue], fun c hc hbegin => hnot ⟨c, hc, ?_⟩⟩
      obtain ⟨d, t, hd⟩ := List.exists_cons_of_ne_nil (utf8_ne_nil c)
      rw [hd] at hbegin ⊢
      obtain rfl := (List.cons_prefix_cons.1 hbegin).1
      exact ⟨t, rfl⟩
    · right
      rw [hstep]
      exact ⟨by simp [kBadChar, kIncomplete, finishValue], hnot rest⟩
    · have hpending := hreading.pending (by simp)
      rw [hstep]
      by_cases hnil : rest = []
      · subst hnil
        right
        refine ⟨?_, fun c _ => hpending.not_utf8⟩
        simp only [ne_eq, not_true_eq_false, false_and, if_false, finishValue]
        rw [if_neg]
        rintro rfl
        exact hpending
      · have := ih hreading hnil fun b hb => hbytes b (List.mem_cons_of_mem _ hb)
        simpa [hnil] using this

/-- The value is that of the encoding at the beginning, if there is one. -/
theorem valueOf_cases {bytes : List Nat} (hbytes : ∀ b ∈ bytes, b < 256) :
    (∃ c rest, IsScalar c ∧ bytes = utf8 c ++ rest ∧ valueOf bytes = c) ∨
    (valueOf bytes = kBadChar ∧ ∀ c, IsScalar c → ¬ utf8 c <+: bytes) := by
  cases bytes with
  | nil => exact .inr ⟨rfl, fun c _ h => utf8_ne_nil c (List.prefix_nil.1 h)⟩
  | cons b rest =>
    rw [valueOf]
    by_cases hascii : b ≤ kMaxOneByteChar
    · have hlt : b < 0x80 := Nat.lt_succ_of_le hascii
      rw [if_pos hascii]
      exact .inl ⟨b, rest, .inl (by omega), by rw [utf8_ascii hlt]; rfl, rfl⟩
    · rw [if_neg hascii]
      exact calculateValueLoop_reading (.inl ⟨rfl, rfl, rfl⟩) (List.cons_ne_nil _ _) hbytes

/-! ## Encoding -/

theorem or_mask {n : Nat} : (0x80 ||| n &&& kMask) % 256 = 0x80 + n % 64 := by
  have hall : ∀ x < 256, (0x80 ||| x &&& kMask) % 256 = 0x80 + x % 64 := by decide +kernel
  have hmod : (0x80 ||| n &&& kMask) % 2 ^ 8 = (0x80 ||| n % 2 ^ 8 &&& kMask) % 2 ^ 8 := by
    simp only [Nat.or_mod_two_pow, Nat.and_mod_two_pow, Nat.mod_mod]
  have := hall (n % 256) (Nat.mod_lt _ (by decide))
  rw [show (256 : Nat) = 2 ^ 8 by decide] at *
  rw [hmod, this]
  omega

theorem encode_eq_utf8 (hc : c ≤ 0x10FFFF) : encode c = utf8 c := by
  have htwo : ∀ n < 32, (0xC0 ||| n) % 256 = 0xC0 + n := by decide
  have hthree : ∀ n < 16, (0xE0 ||| n) % 256 = 0xE0 + n := by decide
  have hfour : ∀ n < 8, (0xF0 ||| n) % 256 = 0xF0 + n := by decide
  unfold encode utf8 kMaxOneByteChar kMaxTwoByteChar kMaxThreeByteChar
  simp only [or_mask, Nat.shiftRight_eq_div_pow]
  by_cases h1 : c < 0x80
  · rw [if_pos (by omega), if_pos h1, Nat.mod_eq_of_lt (by omega)]
  rw [if_neg (by omega), if_neg h1]
  by_cases h2 : c < 0x800
  · rw [if_pos (by omega), if_pos h2, htwo _ (by omega)]
  rw [if_neg (by omega), if_neg h2]
  by_cases h3 : c < 0x10000
  · rw [if_pos (by omega), if_pos h3, hthree _ (by omega)]
  · rw [if_neg (by omega), if_neg h3, hfour _ (by omega)]

end Utf8

namespace Utf16

theorem and_mask (hc : c < 2 ^ 16) : c &&& 0x1FFC00 = c / 1024 * 1024 := by
  have hsplit : c &&& 0x1FFC00 = ((c >>> 10) &&& (2 ^ 11 - 1)) <<< 10 := by
    rw [show 0x1FFC00 = (2 ^ 11 - 1) <<< 10 by decide]
    apply Nat.eq_of_testBit_eq
    intro i
    simp only [Nat.testBit_and, Nat.testBit_shiftLeft, Nat.testBit_shiftRight]
    by_cases h : i ≥ 10
    · simp [h]
    · simp [h]
  rw [hsplit, Nat.and_two_pow_sub_one_eq_mod, Nat.shiftLeft_eq, Nat.shiftRight_eq_div_pow]
  omega

theorem isLeadSurrogate_iff (hc : c < 2 ^ 16) : isLeadSurrogate c = true ↔ IsLead c := by
  rw [isLeadSurrogate, and_mask hc, beq_iff_eq, IsLead]
  omega

theorem isTrailSurrogate_iff (hc : c < 2 ^ 16) : isTrailSurrogate c = true ↔ IsTrail c := by
  rw [isTrailSurrogate, and_mask hc, beq_iff_eq, IsTrail]
  omega

theorem and_low (c : Nat) : c &&& 0x3FF = c % 1024 := Nat.and_two_pow_sub_one_eq_mod c 10

/-- A pair stands for a code point whose code units it is. -/
theorem utf16_combineSurrogatePair {lead trail : Nat} (hlead : IsLead lead) (htrail : IsTrail trail) :
    IsScalar (combineSurrogatePair lead trail) ∧ utf16 (combineSurrogatePair lead trail) = [lead, trail] ∧
      0x10000 ≤ combineSurrogatePair lead trail := by
  unfold IsLead at hlead
  unfold IsTrail at htrail
  rw [combineSurrogatePair, and_low, and_low, Nat.shiftLeft_eq]
  refine ⟨.inr (by omega), ?_, by omega⟩
  rw [utf16, if_neg (by omega)]
  simp only [List.cons.injEq, and_true]
  omega

/-- The surrogates of a code point. -/
theorem utf16_eq_surrogates (hlow : 0x10000 ≤ c) (hc : c ≤ 0x10FFFF) :
    [leadSurrogate c, trailSurrogate c] = utf16 c := by
  rw [utf16, if_neg (by omega), leadSurrogate, trailSurrogate, and_low, and_low, Nat.shiftRight_eq_div_pow]
  simp only [List.cons.injEq, and_true]
  omega

end Utf16

end V8Core.Strings
