import V8Core.Strings.Utf8
import V8Core.Strings.Text

/-!
# Decoding UTF-8

`Utf8Decoder` of `strings/unicode-decoder.cc` goes over the bytes twice: the constructor
counts the code units and looks for the widest one, `Decode` writes them. Streams are
decoded with `ValueOfIncremental`, chunk by chunk. All three read the same code points, in
which every maximal subpart of an ill-formed sequence is replaced.
-/

namespace V8Core.Strings

open Unicode Utf8DfaDecoder

variable {c : Nat} {part cs : List Nat}

/-! ## The ASCII characters at the beginning -/

/-- `kIntptrSize`. -/
def kIntptrSize : Nat := 8

/-- The loop over the last bytes: how many are skipped. -/
def skipBytes : List Nat → Nat
  | [] => 0
  | b :: rest => if b > Utf8.kMaxOneByteChar then 0 else skipBytes rest + 1

/-- The loop over words. The mask has the highest bit of every byte. -/
def skipWords (chars : List Nat) : Nat :=
  if chars.length ≥ kIntptrSize then
    if (chars.take kIntptrSize).any (· > Utf8.kMaxOneByteChar) then 0 else skipWords (chars.drop kIntptrSize) + kIntptrSize
  else skipBytes chars
termination_by chars.length
decreasing_by
  rw [List.length_drop]
  unfold kIntptrSize at *
  omega

/-- The loop to the first aligned address. -/
def skipUnaligned : Nat → List Nat → Nat
  | _, [] => 0
  | address, b :: rest =>
    if address % kIntptrSize = 0 then skipWords (b :: rest)
    else if b > Utf8.kMaxOneByteChar then 0
    else skipUnaligned (address + 1) rest + 1

/-- `NonAsciiStart`, for bytes at an address. -/
def nonAsciiStart (address : Nat) (chars : List Nat) : Nat :=
  if chars.length ≥ kIntptrSize then skipUnaligned address chars else skipBytes chars

/-! ## The decoder -/

/-- `Utf8DecoderBase::Encoding`. -/
inductive Encoding
  | kAscii
  | kLatin1
  | kUtf16
  | kInvalid
  deriving DecidableEq, Repr

/-- `Latin1::kMaxChar`. -/
def Latin1.kMaxChar : Nat := 0xFF

structure Utf8Decoder where
  encoding : Encoding
  nonAsciiStart : Nat
  utf16Length : Nat
  deriving DecidableEq, Repr

variable {rest : List Nat} {state : Utf8State} {b buffer : Nat}

namespace Utf8Decoder

/-- How far the loops are, for termination: a byte that is rejected within a sequence is read again between characters. -/
def progress (rest : List Nat) (state : Utf8State) : Nat := 2 * rest.length + if state = .kAccept then 0 else 1

theorem progress_cons (b : Nat) (rest : List Nat) (state state' : Utf8State) :
    progress rest state' < progress (b :: rest) state := by
  unfold progress
  rw [List.length_cons]
  split <;> split <;> omega

theorem progress_again (h : state ≠ .kAccept) :
    progress rest .kAccept < progress rest state := by
  unfold progress
  rw [if_pos rfl, if_neg h]
  omega

/-- The loop of the constructor: the state at the end, whether all code units have one byte, and the length. -/
def countLoop (rest : List Nat) (state : Utf8State) (current : Nat) (isOneByte : Bool) (utf16Length : Nat) :
    Utf8State × Bool × Nat :=
  match rest with
  | [] => (state, isOneByte, utf16Length)
  | b :: rest =>
    if b ≤ Utf8.kMaxOneByteChar ∧ state = .kAccept then countLoop rest state current isOneByte (utf16Length + 1)
    else
      match decode b state current with
      | (.kReject, _) =>
        -- a sequence that is not continued: try this byte again
        if state ≠ .kAccept then countLoop (b :: rest) .kAccept 0 false (utf16Length + 1)
        else countLoop rest .kAccept 0 false (utf16Length + 1)
      | (.kAccept, current) =>
        let utf16Length := utf16Length + 1
        countLoop rest .kAccept 0 (isOneByte && decide (current ≤ Latin1.kMaxChar))
          (if current > Utf16.kMaxNonSurrogateCharCode then utf16Length + 1 else utf16Length)
      | (state, current) => countLoop rest state current isOneByte utf16Length
termination_by progress rest state
decreasing_by
  · exact progress_cons ..
  · exact progress_again ‹_›
  · exact progress_cons ..
  · exact progress_cons ..
  · exact progress_cons ..

/-- The constructor, for bytes at an address. -/
def new (address : Nat) (data : Text .oneByte) : Utf8Decoder :=
  let start := Strings.nonAsciiStart address data.chars
  if start = data.chars.length then ⟨.kAscii, start, start⟩
  else
    let (state, isOneByte, utf16Length) := countLoop (data.chars.drop start) .kAccept 0 true start
    if state = .kAccept then ⟨if isOneByte then .kLatin1 else .kUtf16, start, utf16Length⟩
    else ⟨.kUtf16, start, utf16Length + 1⟩

def isOneByte (d : Utf8Decoder) : Bool := d.encoding = .kAscii || d.encoding = .kLatin1

/-- What is written for a code point, with characters of the given type. -/
def write (w : CharWidth) (current : Nat) : List Nat :=
  if w.size = 1 ∨ current ≤ Utf16.kMaxNonSurrogateCharCode then [current % 256 ^ w.size]
  else [Utf16.leadSurrogate current, Utf16.trailSurrogate current]

/-- The loop of `Decode`: what is written, and the state at the end. -/
def decodeLoop (w : CharWidth) (rest : List Nat) (state : Utf8State) (current : Nat) : List Nat × Utf8State :=
  match rest with
  | [] => ([], state)
  | b :: rest =>
    if b ≤ Utf8.kMaxOneByteChar ∧ state = .kAccept then
      let (out, final) := decodeLoop w rest state current
      (b % 256 ^ w.size :: out, final)
    else
      match Utf8DfaDecoder.decode b state current with
      | (.kReject, _) =>
        if state ≠ .kAccept then
          let (out, final) := decodeLoop w (b :: rest) .kAccept 0
          (Utf8.kBadChar % 256 ^ w.size :: out, final)
        else
          let (out, final) := decodeLoop w rest .kAccept 0
          (Utf8.kBadChar % 256 ^ w.size :: out, final)
      | (.kAccept, current) =>
        let (out, final) := decodeLoop w rest .kAccept 0
        (write w current ++ out, final)
      | (state, current) => decodeLoop w rest state current
termination_by progress rest state
decreasing_by
  · exact progress_cons ..
  · exact progress_again ‹_›
  · exact progress_cons ..
  · exact progress_cons ..
  · exact progress_cons ..

/-- `Decode` to characters of the given type. -/
def decode (w : CharWidth) (d : Utf8Decoder) (data : Text .oneByte) : List Nat :=
  let (out, state) := decodeLoop w (data.chars.drop d.nonAsciiStart) .kAccept 0
  (data.chars.take d.nonAsciiStart).map (· % 256 ^ w.size) ++ out ++
    if state ≠ .kAccept then [Utf8.kBadChar % 256 ^ w.size] else []

end Utf8Decoder

/-! ## Streams -/

theorem Utf8.valueOfIncremental_again {t : Nat} {state' : Utf8State} {buffer' : Nat}
    (h : valueOfIncremental b state buffer = (t, false, state', buffer')) : state ≠ .kAccept ∧ state' = .kAccept := by
  unfold valueOfIncremental at h
  split at h
  · cases h
  · split at h
    · cases h
    · simp only [Prod.mk.injEq, decide_eq_false_iff_not] at h
      exact ⟨h.2.1, h.2.2.1.symm⟩
    · cases h

/-- The values that `ValueOfIncremental` gives for a chunk, with the state and the buffer behind it. -/
def incrementalValues (rest : List Nat) (state : Utf8State) (buffer : Nat) : List Nat × Utf8State × Nat :=
  match rest with
  | [] => ([], state, buffer)
  | b :: rest =>
    match _h : Utf8.valueOfIncremental b state buffer with
    | (t, true, state', buffer') =>
      let (values, final) := incrementalValues rest state' buffer'
      (if t = Utf8.kIncomplete then values else t :: values, final)
    | (t, false, state', buffer') =>
      let (values, final) := incrementalValues (b :: rest) state' buffer'
      (if t = Utf8.kIncomplete then values else t :: values, final)
termination_by Utf8Decoder.progress rest state
decreasing_by
  · exact Utf8Decoder.progress_cons ..
  · obtain ⟨hstate, rfl⟩ := Utf8.valueOfIncremental_again _h
    exact Utf8Decoder.progress_again hstate

/-- All chunks of a stream, and its end. -/
def streamValues : List (List Nat) → Utf8State → Nat → List Nat
  | [], state, _ =>
    let t := Utf8.valueOfIncrementalFinish state
    if t = Utf8.kBufferEmpty then [] else [t]
  | chunk :: chunks, state, buffer =>
    let (values, state, buffer) := incrementalValues chunk state buffer
    values ++ streamValues chunks state buffer

/-! ## The loops, byte by byte -/

section Loops
variable {b : Nat} {rest : List Nat} {state : Utf8State} {buffer : Nat} (hbuffer : state = .kAccept → buffer = 0)
include hbuffer

theorem countLoop_cons (isOneByte : Bool) (length : Nat) :
    Utf8Decoder.countLoop (b :: rest) state buffer isOneByte length =
      match stepOf b state buffer with
      | .char c => Utf8Decoder.countLoop rest .kAccept 0 (isOneByte && decide (c ≤ Latin1.kMaxChar))
          (if c > Utf16.kMaxNonSurrogateCharCode then length + 1 + 1 else length + 1)
      | .bad => Utf8Decoder.countLoop rest .kAccept 0 false (length + 1)
      | .again => Utf8Decoder.countLoop (b :: rest) .kAccept 0 false (length + 1)
      | .more state buffer => Utf8Decoder.countLoop rest state buffer isOneByte length := by
  rw [Utf8Decoder.countLoop, stepOf]
  by_cases hascii : b ≤ Utf8.kMaxOneByteChar ∧ state = .kAccept
  · obtain ⟨hle, rfl⟩ := hascii
    obtain rfl := hbuffer rfl
    have hone : b ≤ Latin1.kMaxChar := Nat.le_trans hle (by decide)
    have hbmp : ¬ b > Utf16.kMaxNonSurrogateCharCode := Nat.not_lt.2 (Nat.le_trans hle (by decide))
    simp only [hle, and_self, if_true, hone, decide_true, Bool.and_true, hbmp, if_false]
  · rw [if_neg hascii, if_neg hascii]
    rcases decode b state buffer with ⟨state', c⟩
    cases state' with
    | kReject =>
      simp only
      split <;> rfl
    | _ => rfl

theorem decodeLoop_cons (w : CharWidth) :
    Utf8Decoder.decodeLoop w (b :: rest) state buffer =
      match stepOf b state buffer with
      | .char c =>
        let (out, final) := Utf8Decoder.decodeLoop w rest .kAccept 0
        (Utf8Decoder.write w c ++ out, final)
      | .bad =>
        let (out, final) := Utf8Decoder.decodeLoop w rest .kAccept 0
        (Utf8.kBadChar % 256 ^ w.size :: out, final)
      | .again =>
        let (out, final) := Utf8Decoder.decodeLoop w (b :: rest) .kAccept 0
        (Utf8.kBadChar % 256 ^ w.size :: out, final)
      | .more state buffer => Utf8Decoder.decodeLoop w rest state buffer := by
  rw [Utf8Decoder.decodeLoop, stepOf]
  by_cases hascii : b ≤ Utf8.kMaxOneByteChar ∧ state = .kAccept
  · obtain ⟨hle, rfl⟩ := hascii
    obtain rfl := hbuffer rfl
    have hbmp : b ≤ Utf16.kMaxNonSurrogateCharCode := Nat.le_trans hle (by decide)
    simp only [hle, and_self, if_true, Utf8Decoder.write, hbmp, or_true, List.cons_append, List.nil_append]
  · rw [if_neg hascii, if_neg hascii]
    rcases decode b state buffer with ⟨state', c⟩
    cases state' with
    | kReject =>
      simp only
      split <;> rfl
    | _ => rfl

theorem incrementalValues_cons :
    incrementalValues (b :: rest) state buffer =
      match stepOf b state buffer with
      | .char c =>
        let (values, final) := incrementalValues rest .kAccept 0
        (if c = Utf8.kIncomplete then values else c :: values, final)
      | .bad =>
        let (values, final) := incrementalValues rest .kAccept 0
        (Utf8.kBadChar :: values, final)
      | .again =>
        let (values, final) := incrementalValues (b :: rest) .kAccept 0
        (Utf8.kBadChar :: values, final)
      | .more state buffer => incrementalValues rest state buffer := by
  have hvalue := @Utf8.valueOfIncremental_eq b _ _ hbuffer
  rw [incrementalValues]
  split
  · next t state' buffer' heq =>
    rw [hvalue] at heq
    cases hstep : stepOf b state buffer <;> simp only [hstep, Prod.mk.injEq, Bool.false_eq_true, false_and, and_false] at heq
    · obtain ⟨rfl, _, rfl, rfl⟩ := heq
      rfl
    · obtain ⟨rfl, _, rfl, rfl⟩ := heq
      rfl
    · obtain ⟨rfl, _, rfl, rfl⟩ := heq
      rfl
  · next t state' buffer' heq =>
    rw [hvalue] at heq
    cases hstep : stepOf b state buffer <;> simp only [hstep, Prod.mk.injEq, Bool.true_eq_false, false_and, and_false] at heq
    obtain ⟨rfl, _, rfl, rfl⟩ := heq
    rfl

end Loops

/-! ## What the loops read -/

/-- What stands for the bytes that are left at the end. -/
def ended (state : Utf8State) : List Nat := if state = .kAccept then [] else [replacement]

theorem maximalSubpart_again (rest : List Nat) (hbegins : Begins part) (hnot : ¬ Begins (part ++ [b]))
    (hpart : part ≠ []) : MaximalSubpart (part ++ b :: rest) part := by
  refine ⟨⟨List.prefix_append _ _, .inl hbegins⟩, fun other hother => ?_⟩
  by_contra hlonger
  obtain ⟨hbegin, hother | hother⟩ := hother
  · -- a longer beginning would contain the next byte
    have hnext : part ++ [b] <+: other :=
      List.prefix_of_prefix_length_le ⟨rest, by simp⟩ hbegin (by rw [List.length_append, List.length_singleton]; omega)
    exact hnot (hother.of_beginning hnext)
  · have := List.length_pos_iff.2 hpart
    omega

theorem maximalSubpart_bad (rest : List Nat) (hnot : ¬ Begins [b]) : MaximalSubpart (b :: rest) [b] := by
  refine ⟨⟨⟨rest, rfl⟩, .inr rfl⟩, fun other hother => ?_⟩
  by_contra hlonger
  simp only [List.length_singleton, not_le] at hlonger
  obtain ⟨hbegin, hother | hother⟩ := hother
  · have hnext : [b] <+: other :=
      List.prefix_of_prefix_length_le ⟨rest, rfl⟩ hbegin (by rw [List.length_singleton]; omega)
    exact hnot (hother.of_beginning hnext)
  · omega

/-- Bytes that end within a sequence. -/
theorem decodes_ended (h : Reading part state buffer) :
    Decodes part (ended state) := by
  rcases h with ⟨rfl, rfl, rfl⟩ | ⟨hpending, hrun⟩
  · exact .nil
  · have hpart : part ≠ [] := by
      rintro rfl
      cases hrun
      exact hpending
    rw [ended, if_neg (by rintro rfl; exact hpending)]
    have hreplaced := @Decodes.replaced part [] [] hpart
      (fun c _ h => hpending.not_utf8 (by simpa using h))
      ⟨⟨List.prefix_append _ _, .inl hpending.begins⟩, fun other hother => by simpa using hother.1.length_le⟩ .nil
    simpa using hreplaced

theorem length_utf16 (c : Nat) : (utf16 c).length = if c > Utf16.kMaxNonSurrogateCharCode then 2 else 1 := by
  unfold utf16 Utf16.kMaxNonSurrogateCharCode
  by_cases h : c < 0x10000
  · rw [if_pos h, if_neg (by omega)]
    rfl
  · rw [if_neg h, if_pos (by omega)]
    rfl

theorem length_utf16_replacement : (utf16 replacement).length = 1 := by decide

theorem all_replacement (isOneByte : Bool) (cs : List Nat) :
    (isOneByte && (replacement :: cs).all (· ≤ Latin1.kMaxChar)) = false := by
  rw [List.all_cons, show decide (replacement ≤ Latin1.kMaxChar) = false by decide, Bool.false_and, Bool.and_false]

theorem write_replacement (w : CharWidth) : Utf8Decoder.write w replacement = [Utf8.kBadChar % 256 ^ w.size] :=
  if_pos (.inr (by decide))

/-- All loops read the same code points, and these are what the bytes stand for. -/
theorem loops_decode (h : Reading part state buffer)
    (hbytes : ∀ b ∈ rest, b < 256) :
    ∃ cs final buffer', Decodes (part ++ rest) (cs ++ ended final) ∧ (∀ c ∈ cs, IsScalar c) ∧
      incrementalValues rest state buffer = (cs, final, buffer') ∧
      (∀ isOneByte length, Utf8Decoder.countLoop rest state buffer isOneByte length =
        (final, isOneByte && cs.all (· ≤ Latin1.kMaxChar), length + (cs.flatMap utf16).length)) ∧
      ∀ w, Utf8Decoder.decodeLoop w rest state buffer = (cs.flatMap (Utf8Decoder.write w), final) := by
  induction hn : Utf8Decoder.progress rest state using Nat.strongRecOn generalizing part rest state buffer with
  | ind n ih =>
    subst hn
    cases rest with
    | nil =>
      refine ⟨[], state, buffer, ?_, by simp, by rw [incrementalValues], ?_, ?_⟩
      · simpa using decodes_ended h
      · intro isOneByte length
        rw [Utf8Decoder.countLoop]
        simp
      · intro w
        rw [Utf8Decoder.decodeLoop]
        rfl
    | cons b rest =>
      have hrest : ∀ b ∈ rest, b < 256 := fun b hb => hbytes b (List.mem_cons_of_mem _ hb)
      rcases stepOf_cases h (hbytes b List.mem_cons_self) with ⟨c, hstep, hc, henc⟩ | ⟨hstep, rfl, hnot⟩ |
        ⟨hstep, hstate, hpart, hbegins, hnot, hnone⟩ | ⟨state', buffer', hstep, hreading⟩
      · obtain ⟨cs, final, buffer', hdecodes, hscalar, hvalues, hcount, hwritten⟩ :=
          ih _ (Utf8Decoder.progress_cons b rest state .kAccept) (.inl ⟨rfl, rfl, rfl⟩) hrest rfl
        refine ⟨c :: cs, final, buffer', ?_, ?_, ?_, ?_, ?_⟩
        · rw [show part ++ b :: rest = utf8 c ++ rest by rw [henc]; simp]
          exact .char hc hdecodes
        · exact List.forall_mem_cons.2 ⟨hc, hscalar⟩
        · rw [incrementalValues_cons h.buffer_eq, hstep]
          simp only [hvalues, if_neg (Utf8.kIncomplete_ne hc)]
        · intro isOneByte length
          rw [countLoop_cons h.buffer_eq, hstep]
          simp only [hcount, List.all_cons, Bool.and_assoc, List.flatMap_cons, List.length_append]
          simp only [length_utf16, Prod.mk.injEq, true_and]
          split <;> omega
        · intro w
          rw [decodeLoop_cons h.buffer_eq, hstep]
          simp only [hwritten, List.flatMap_cons]
      · obtain ⟨cs, final, buffer', hdecodes, hscalar, hvalues, hcount, hwritten⟩ :=
          ih _ (Utf8Decoder.progress_cons b rest state .kAccept) (.inl ⟨rfl, rfl, rfl⟩) hrest rfl
        have hnone : ∀ c, IsScalar c → ¬ utf8 c <+: [b] ++ rest := by
          intro c hc hbegin
          obtain ⟨d, t, hd⟩ := List.exists_cons_of_ne_nil (utf8_ne_nil c)
          rw [hd] at hbegin
          obtain rfl := (List.cons_prefix_cons.1 hbegin).1
          exact hnot ⟨c, hc, by rw [hd]; exact ⟨t, rfl⟩⟩
        refine ⟨replacement :: cs, final, buffer', ?_, ?_, ?_, ?_, ?_⟩
        · exact @Decodes.replaced [b] rest _ (List.cons_ne_nil _ _) hnone (maximalSubpart_bad rest hnot) hdecodes
        · exact List.forall_mem_cons.2 ⟨by decide, hscalar⟩
        · rw [incrementalValues_cons h.buffer_eq, hstep]
          simp only [hvalues]
          rfl
        · intro isOneByte length
          rw [countLoop_cons h.buffer_eq, hstep]
          simp only [hcount, Bool.false_and, List.flatMap_cons, List.length_append, all_replacement, length_utf16_replacement,
            Nat.add_assoc]
        · intro w
          rw [decodeLoop_cons h.buffer_eq, hstep]
          simp only [hwritten, List.flatMap_cons, write_replacement, List.cons_append, List.nil_append]
      · obtain ⟨cs, final, buffer', hdecodes, hscalar, hvalues, hcount, hwritten⟩ :=
          ih _ (Utf8Decoder.progress_again hstate) (.inl ⟨rfl, rfl, rfl⟩) hbytes rfl
        refine ⟨replacement :: cs, final, buffer', ?_, ?_, ?_, ?_, ?_⟩
        · exact .replaced hpart (hnone rest) (maximalSubpart_again rest hbegins hnot hpart) hdecodes
        · exact List.forall_mem_cons.2 ⟨by decide, hscalar⟩
        · rw [incrementalValues_cons h.buffer_eq, hstep]
          simp only [hvalues]
          rfl
        · intro isOneByte length
          rw [countLoop_cons h.buffer_eq, hstep]
          simp only [hcount, Bool.false_and, List.flatMap_cons, List.length_append, all_replacement, length_utf16_replacement,
            Nat.add_assoc]
        · intro w
          rw [decodeLoop_cons h.buffer_eq, hstep]
          simp only [hwritten, List.flatMap_cons, write_replacement, List.cons_append, List.nil_append]
      · obtain ⟨cs, final, buffer'', hdecodes, hscalar, hvalues, hcount, hwritten⟩ :=
          ih _ (Utf8Decoder.progress_cons b rest state state') hreading hrest rfl
        refine ⟨cs, final, buffer'', by simpa using hdecodes, hscalar, ?_, ?_, ?_⟩
        · rw [incrementalValues_cons h.buffer_eq, hstep]
          exact hvalues
        · intro isOneByte length
          rw [countLoop_cons h.buffer_eq, hstep]
          exact hcount _ _
        · intro w
          rw [decodeLoop_cons h.buffer_eq, hstep]
          exact hwritten w

/-! ## What is skipped -/

/-- The first `n` bytes are ASCII characters. -/
def AsciiUpTo (chars : List Nat) (n : Nat) : Prop := n ≤ chars.length ∧ ∀ b ∈ chars.take n, b < 0x80

theorem AsciiUpTo.cons {chars : List Nat} {n : Nat} (hb : b < 0x80) (h : AsciiUpTo chars n) :
    AsciiUpTo (b :: chars) (n + 1) := by
  refine ⟨Nat.succ_le_succ h.1, ?_⟩
  rw [List.take_succ_cons]
  exact List.forall_mem_cons.2 ⟨hb, h.2⟩

theorem asciiUpTo_zero (chars : List Nat) : AsciiUpTo chars 0 := ⟨Nat.zero_le _, by simp⟩

theorem asciiUpTo_skipBytes (chars : List Nat) : AsciiUpTo chars (skipBytes chars) := by
  induction chars with
  | nil => exact asciiUpTo_zero _
  | cons b rest ih =>
    rw [skipBytes]
    split
    · exact asciiUpTo_zero _
    · exact ih.cons (Nat.lt_succ_of_le (Nat.le_of_not_lt ‹_›))

theorem asciiUpTo_skipWords (chars : List Nat) : AsciiUpTo chars (skipWords chars) := by
  fun_induction skipWords chars with
  | case1 chars _ _ => exact asciiUpTo_zero _
  | case2 chars hlength hword ih =>
    refine ⟨by have := ih.1; rw [List.length_drop] at this; omega, ?_⟩
    rw [Nat.add_comm, List.take_add]
    intro b hb
    rcases List.mem_append.1 hb with hb | hb
    · have hle := hword
      simp only [List.any_eq_true, decide_eq_true_eq, not_exists, not_and, not_lt] at hle
      exact Nat.lt_succ_of_le (hle b hb)
    · exact ih.2 b hb
  | case3 chars _ => exact asciiUpTo_skipBytes chars

theorem asciiUpTo_skipUnaligned (address : Nat) (chars : List Nat) : AsciiUpTo chars (skipUnaligned address chars) := by
  induction chars generalizing address with
  | nil => exact asciiUpTo_zero _
  | cons b rest ih =>
    rw [skipUnaligned]
    split
    · exact asciiUpTo_skipWords _
    · split
      · exact asciiUpTo_zero _
      · exact (ih _).cons (Nat.lt_succ_of_le (Nat.le_of_not_lt ‹_›))

theorem asciiUpTo_nonAsciiStart (address : Nat) (chars : List Nat) : AsciiUpTo chars (nonAsciiStart address chars) := by
  unfold nonAsciiStart
  split
  · exact asciiUpTo_skipUnaligned address chars
  · exact asciiUpTo_skipBytes chars

theorem decodes_ascii {ascii : List Nat} (hascii : ∀ b ∈ ascii, b < 0x80) (h : Decodes rest cs) :
    Decodes (ascii ++ rest) (ascii ++ cs) := by
  induction ascii with
  | nil => exact h
  | cons b ascii ih =>
    obtain ⟨hb, hrest⟩ := List.forall_mem_cons.1 hascii
    have := Decodes.char (show IsScalar b from .inl (by omega)) (ih hrest)
    rwa [utf8_ascii hb] at this

theorem flatMap_utf16_ascii {ascii : List Nat} (hascii : ∀ b ∈ ascii, b < 0x80) : ascii.flatMap utf16 = ascii := by
  induction ascii with
  | nil => rfl
  | cons b ascii ih =>
    obtain ⟨hb, hrest⟩ := List.forall_mem_cons.1 hascii
    rw [List.flatMap_cons, ih hrest, utf16, if_pos (by omega)]
    rfl

/-! ## Streams do not depend on their chunks -/

theorem incrementalValues_append (xs ys : List Nat) (state : Utf8State) (buffer : Nat) :
    incrementalValues (xs ++ ys) state buffer =
      let (values, state, buffer) := incrementalValues xs state buffer
      let (values', final) := incrementalValues ys state buffer
      (values ++ values', final) := by
  fun_induction incrementalValues xs state buffer with
  | case1 state buffer => rfl
  | case2 state buffer b rest t state' buffer' h values final hrec ih =>
    rw [List.cons_append, incrementalValues]
    split
    · next heq =>
      rw [h] at heq
      cases heq
      simp only [ih, hrec]
      split <;> rfl
    · next heq =>
      rw [h] at heq
      cases heq
  | case3 state buffer b rest t state' buffer' h values final hrec ih =>
    rw [List.cons_append, incrementalValues]
    split
    · next heq =>
      rw [h] at heq
      cases heq
    · next heq =>
      rw [h] at heq
      cases heq
      rw [List.cons_append] at ih
      simp only [ih, hrec]
      split <;> rfl

theorem streamValues_eq (chunks : List (List Nat)) (state : Utf8State) (buffer : Nat) :
    streamValues chunks state buffer =
      (incrementalValues chunks.flatten state buffer).1 ++ ended (incrementalValues chunks.flatten state buffer).2.1 := by
  induction chunks generalizing state buffer with
  | nil =>
    rw [streamValues, List.flatten_nil, incrementalValues, ended, Utf8.valueOfIncrementalFinish]
    by_cases hstate : state = .kAccept
    · simp [hstate]
    · simp [hstate, Utf8.kBadChar, Utf8.kBufferEmpty, replacement]
  | cons chunk chunks ih =>
    rw [streamValues, List.flatten_cons, incrementalValues_append]
    simp only [ih, List.append_assoc]

/-! ## The decoder -/

theorem write_twoByte (hc : IsScalar c) : Utf8Decoder.write .twoByte c = utf16 c := by
  unfold IsScalar at hc
  unfold Utf8Decoder.write
  by_cases hbmp : c ≤ Utf16.kMaxNonSurrogateCharCode
  · have hlt : c < 0x10000 := Nat.lt_succ_of_le hbmp
    rw [if_pos (.inr hbmp), utf16, if_pos hlt, CharWidth.size, Nat.mod_eq_of_lt (by omega)]
  · rw [if_neg (by simp [hbmp, CharWidth.size]), Utf16.utf16_eq_surrogates (Nat.lt_of_not_le hbmp) (by omega)]

theorem write_oneByte (hc : c ≤ Latin1.kMaxChar) : Utf8Decoder.write .oneByte c = utf16 c := by
  have hlt : c < 256 := Nat.lt_succ_of_le hc
  rw [Utf8Decoder.write, if_pos (.inl rfl), utf16, if_pos (by omega), CharWidth.size, Nat.mod_eq_of_lt (by omega)]

theorem flatMap_write {w : CharWidth} (h : ∀ c ∈ cs, Utf8Decoder.write w c = utf16 c) :
    cs.flatMap (Utf8Decoder.write w) = cs.flatMap utf16 := List.flatMap_congr h

/-- `Decode` writes the code points, with any type of characters that has room for them. -/
theorem decode_eq {w : CharWidth} {d : Utf8Decoder} {data : Text .oneByte} {final : Utf8State}
    (hascii : AsciiUpTo data.chars d.nonAsciiStart)
    (hwritten : Utf8Decoder.decodeLoop w (data.chars.drop d.nonAsciiStart) .kAccept 0 = (cs.flatMap (Utf8Decoder.write w), final))
    (hroom : ∀ c ∈ cs ++ ended final, Utf8Decoder.write w c = utf16 c) :
    d.decode w data = (data.chars.take d.nonAsciiStart ++ (cs ++ ended final)).flatMap utf16 := by
  have hcopied : (data.chars.take d.nonAsciiStart).map (· % 256 ^ w.size) = data.chars.take d.nonAsciiStart := by
    conv_rhs => rw [← List.map_id (data.chars.take d.nonAsciiStart)]
    refine List.map_congr_left fun b hb => Nat.mod_eq_of_lt ?_
    have := hascii.2 b hb
    cases w <;> simp only [CharWidth.size] <;> omega
  have hended : (if final ≠ .kAccept then [Utf8.kBadChar % 256 ^ w.size] else []) =
      (ended final).flatMap (Utf8Decoder.write w) := by
    unfold ended
    by_cases hfinal : final = .kAccept
    · simp [hfinal]
    · simp [hfinal, write_replacement]
  rw [List.flatMap_append, flatMap_utf16_ascii hascii.2, ← flatMap_write hroom, List.flatMap_append, ← hended]
  unfold Utf8Decoder.decode
  simp only [hwritten, hcopied, List.append_assoc]

/-- What the constructor finds, when the loops read `cs`. -/
theorem new_cases {address : Nat} {data : Text .oneByte} {final : Utf8State}
    (hvalues : data.chars.drop (nonAsciiStart address data.chars) = [] → cs = [] ∧ final = .kAccept)
    (hcount : Utf8Decoder.countLoop (data.chars.drop (nonAsciiStart address data.chars)) .kAccept 0 true (nonAsciiStart address data.chars) = (final, cs.all (· ≤ Latin1.kMaxChar), nonAsciiStart address data.chars + (cs.flatMap utf16).length)) :
    ∃ encoding, Utf8Decoder.new address data = ⟨encoding, nonAsciiStart address data.chars,
        nonAsciiStart address data.chars + ((cs ++ ended final).flatMap utf16).length⟩ ∧
      ((encoding = .kAscii ∧ cs ++ ended final = []) ∨ (encoding = .kLatin1 ∧ ∀ c ∈ cs ++ ended final, c ≤ Latin1.kMaxChar) ∨
        encoding = .kUtf16) := by
  unfold Utf8Decoder.new
  by_cases hlength : nonAsciiStart address data.chars = data.chars.length
  · obtain ⟨rfl, rfl⟩ := hvalues (by rw [hlength, List.drop_length])
    simp only [if_pos hlength]
    exact ⟨.kAscii, rfl, .inl ⟨rfl, rfl⟩⟩
  · simp only [if_neg hlength, hcount]
    by_cases hfinal : final = .kAccept
    · subst hfinal
      simp only [if_true, ended, List.append_nil]
      cases hall : cs.all (· ≤ Latin1.kMaxChar) with
      | true => exact ⟨.kLatin1, rfl, .inr (.inl ⟨rfl, by simpa using hall⟩)⟩
      | false => exact ⟨.kUtf16, rfl, .inr (.inr rfl)⟩
    · refine ⟨.kUtf16, ?_, .inr (.inr rfl)⟩
      simp only [ended, if_neg hfinal, List.flatMap_append, List.length_append, List.flatMap_singleton,
        length_utf16_replacement, Nat.add_assoc]

theorem utf16_le (hc : c ≤ Latin1.kMaxChar) : ∀ u ∈ utf16 c, u ≤ Latin1.kMaxChar := by
  have hlt : c < 0x10000 := Nat.lt_of_le_of_lt hc (by decide)
  rw [utf16, if_pos hlt]
  simpa using hc

/-- The decoder and any stream of the bytes give the code points in which every maximal subpart of an ill-formed sequence
is replaced. The constructor counts their code units, and finds an encoding that has room for them. -/
theorem utf8Decoder_decodes (address : Nat) (data : Text .oneByte) :
    ∃ cs, Decodes data.chars cs ∧ (∀ ds, Decodes data.chars ds → ds = cs) ∧
      (Utf8Decoder.new address data).decode .twoByte data = cs.flatMap utf16 ∧
      ((Utf8Decoder.new address data).isOneByte = true →
        (Utf8Decoder.new address data).decode .oneByte data = cs.flatMap utf16) ∧
      (Utf8Decoder.new address data).utf16Length = (cs.flatMap utf16).length ∧
      ((Utf8Decoder.new address data).encoding = .kAscii → ∀ u ∈ cs.flatMap utf16, u ≤ Utf8.kMaxOneByteChar) ∧
      ((Utf8Decoder.new address data).encoding = .kLatin1 → ∀ u ∈ cs.flatMap utf16, u ≤ Latin1.kMaxChar) ∧
      ((Utf8Decoder.new address data).encoding ≠ .kInvalid ∧ ∀ u ∈ cs.flatMap utf16, u < 2 ^ 16) ∧
      ∀ chunks : List (List Nat), chunks.flatten = data.chars → streamValues chunks .kAccept 0 = cs := by
  have hbytes : ∀ b ∈ data.chars, b < 256 := fun b hb => by simpa [CharWidth.size] using data.bounded b hb
  have hascii := asciiUpTo_nonAsciiStart address data.chars
  obtain ⟨cs, final, buffer, hdecodes, hscalar, hvalues, hcount, hwritten⟩ :=
    @loops_decode [] (data.chars.drop (nonAsciiStart address data.chars)) .kAccept 0 (.inl ⟨rfl, rfl, rfl⟩)
      fun b hb => hbytes b (List.mem_of_mem_drop hb)
  have hempty : data.chars.drop (nonAsciiStart address data.chars) = [] → cs = [] ∧ final = .kAccept := by
    intro hdrop
    rw [hdrop, incrementalValues] at hvalues
    cases hvalues
    exact ⟨rfl, rfl⟩
  obtain ⟨encoding, hnew, hencoding⟩ := new_cases hempty (by simpa using hcount true _)
  have hall : Decodes data.chars (data.chars.take (nonAsciiStart address data.chars) ++ (cs ++ ended final)) := by
    have := decodes_ascii hascii.2 hdecodes
    rwa [List.nil_append, List.take_append_drop] at this
  have hscalars : ∀ c ∈ cs ++ ended final, IsScalar c := by
    intro c hc
    rcases List.mem_append.1 hc with hc | hc
    · exact hscalar c hc
    · unfold ended at hc
      split at hc
      · exact absurd hc List.not_mem_nil
      · rw [List.mem_singleton.1 hc]
        decide
  refine ⟨_, hall, fun ds hds => hds.unique hall, ?_⟩
  rw [hnew]
  dsimp only
  refine ⟨?_, ?_, ?_, ?_, ?_, ⟨?_, ?_⟩, ?_⟩
  · exact decode_eq hascii (hwritten .twoByte) fun c hc => write_twoByte (hscalars c hc)
  · intro hone
    refine decode_eq hascii (hwritten .oneByte) fun c hc => write_oneByte ?_
    rcases hencoding with ⟨rfl, hnil⟩ | ⟨rfl, hle⟩ | rfl
    · rw [hnil] at hc
      exact absurd hc List.not_mem_nil
    · exact hle c hc
    · cases hone
  · simp only [List.flatMap_append, List.length_append, flatMap_utf16_ascii hascii.2, List.length_take_of_le hascii.1]
  · rintro rfl u hu
    rcases hencoding with ⟨_, hnil⟩ | ⟨h, _⟩ | h
    · rw [hnil, List.append_nil, flatMap_utf16_ascii hascii.2] at hu
      exact Nat.le_of_lt_succ (hascii.2 u hu)
    · cases h
    · cases h
  · rintro rfl u hu
    rcases hencoding with ⟨h, _⟩ | ⟨_, hle⟩ | h
    · cases h
    · obtain ⟨c, hc, hu⟩ := List.mem_flatMap.1 hu
      refine utf16_le ?_ u hu
      rcases List.mem_append.1 hc with hc | hc
      · exact Nat.le_of_lt (Nat.lt_of_lt_of_le (hascii.2 c hc) (by decide))
      · exact hle c hc
    · cases h
  · rcases hencoding with ⟨rfl, _⟩ | ⟨rfl, _⟩ | rfl <;> decide
  · intro u hu
    obtain ⟨c, hc, hu⟩ := List.mem_flatMap.1 hu
    refine utf16_lt ?_ u hu
    rcases List.mem_append.1 hc with hc | hc
    · have := hascii.2 c hc
      exact .inl (by omega)
    · exact hscalars c hc
  · intro chunks hchunks
    rw [streamValues_eq, hchunks]
    obtain ⟨cs', final', buffer', hdecodes', _, hvalues', _⟩ := @loops_decode [] data.chars .kAccept 0 (.inl ⟨rfl, rfl, rfl⟩) hbytes
    rw [hvalues']
    exact hdecodes'.unique hall

/-- What `Encode` writes for scalar values is read back, however the bytes are cut into chunks. -/
theorem streamValues_encode {cs : List Nat} (hcs : ∀ c ∈ cs, IsScalar c) {chunks : List (List Nat)}
    (hchunks : chunks.flatten = cs.flatMap Utf8.encode) : streamValues chunks .kAccept 0 = cs := by
  have hencode : ∀ c ∈ cs, Utf8.encode c = utf8 c := by
    intro c hc
    apply Utf8.encode_eq_utf8
    have := hcs c hc
    unfold IsScalar at this
    omega
  rw [List.flatMap_congr hencode] at hchunks
  have hbytes : ∀ b ∈ cs.flatMap utf8, b < 256 := by
    intro b hb
    obtain ⟨c, hc, hb⟩ := List.mem_flatMap.1 hb
    exact utf8_lt (hcs c hc) b hb
  have hdecodes : Decodes (cs.flatMap utf8) cs := by
    clear hencode hchunks hbytes
    induction cs with
    | nil => exact .nil
    | cons c cs ih => exact .char (hcs c (List.mem_cons_self ..)) (ih fun d hd => hcs d (List.mem_cons_of_mem c hd))
  obtain ⟨ds, final, buffer, hloop, -, hvalues, -⟩ :=
    @loops_decode [] (cs.flatMap utf8) .kAccept 0 (.inl ⟨rfl, rfl, rfl⟩) hbytes
  rw [streamValues_eq, hchunks, hvalues]
  exact hloop.unique hdecodes

/-- The euro sign and an emoji, one byte at a time. -/
theorem streamValues_encode_bytes :
    streamValues [[0xE2], [0x82], [0xAC], [0xF0], [0x9F], [0x98], [0x80]] .kAccept 0 = [0x20AC, 0x1F600] :=
  streamValues_encode (by decide) (by decide)

end V8Core.Strings
