import V8Core.Wasm.StreamingDecoder

/-!
# Chunks do not matter to the streaming decoder

The decoder is a reader in the sense of `Chunks.Reader`: every state waits until its
buffer is full, and a variable-length integer that is decoded again with more bytes
gives back exactly what it read too much. So the calls to the processor, and whether the
stream fails, do not depend on the chunks.
-/

namespace V8Core.Wasm.Streaming

open Leb128 (Byte)

variable {xs : List Byte}

/-! ## Memory -/

section Memory
variable {dst src : Memory} {pos : Nat}

theorem length_memcpy (h : pos + src.length ≤ dst.length) : (memcpy dst pos src).length = dst.length := by
  simp only [memcpy, List.length_append, List.length_take, List.length_drop]
  omega

theorem take_memcpy (h : pos ≤ dst.length) : (memcpy dst pos src).take (pos + src.length) = dst.take pos ++ src := by
  apply List.take_left'
  simp only [List.length_append, List.length_take]
  omega

theorem memcpy_memcpy (h : pos ≤ dst.length) (more : Memory) :
    memcpy (memcpy dst pos src) (pos + src.length) more = memcpy dst pos (src ++ more) := by
  rw [memcpy, take_memcpy h, memcpy, memcpy, List.length_append, ← List.drop_drop,
    List.drop_left' (by simp only [List.length_append, List.length_take]; omega), List.drop_drop]
  simp only [List.append_assoc, Nat.add_assoc]

theorem written_eq_some_iff {m : Memory} {bs : List Byte} : written m = some bs ↔ m = bs.map some := by
  induction m generalizing bs with
  | nil => cases bs <;> simp [written]
  | cons b m ih =>
    cases b with
    | none => cases bs <;> simp [written]
    | some b =>
      cases bs with
      | nil => simp [written, Option.bind_eq_some_iff]
      | cons c bs =>
        simp only [written, Option.bind_eq_bind, Option.bind_some, Option.pure_def, Option.bind_eq_some_iff, Option.some.injEq,
          List.cons.injEq, List.map_cons, ih]
        constructor
        · rintro ⟨_, hm, rfl, rfl⟩
          exact ⟨rfl, hm⟩
        · rintro ⟨rfl, hm⟩
          exact ⟨_, hm, rfl, rfl⟩

end Memory

/-! ## Variable-length integers -/

variable {bytes : List Byte} {d : Decoding}

/-- Bytes without a last one are not a number yet; the others begin with one. -/
theorem exists_terminated_prefix (h : ∃ b ∈ bytes, b.toNat < 128) :
    ∃ t, t <+: bytes ∧ Leb128.Terminated t := by
  induction bytes with
  | nil => simp at h
  | cons b bytes ih =>
    by_cases hb : b.toNat < 128
    · exact ⟨[b], ⟨bytes, rfl⟩, hb⟩
    · obtain ⟨c, hc, hlt⟩ := h
      rcases List.mem_cons.1 hc with rfl | hc
      · exact absurd hlt hb
      · obtain ⟨t, ht, hterm⟩ := ih ⟨c, hc, hlt⟩
        exact ⟨b :: t, List.cons_prefix_cons.2 ⟨rfl, ht⟩, (Leb128.terminated_cons hterm.ne_nil).2 ⟨by omega, hterm⟩⟩

theorem exists_lt_of_terminated {t : List Byte} (h : Leb128.Terminated t) : ∃ b ∈ t, b.toNat < 128 := by
  induction t with
  | nil => exact h.elim
  | cons b t ih =>
    by_cases ht : t = []
    · subst ht
      exact ⟨b, by simp, h⟩
    · obtain ⟨c, hc, hlt⟩ := ih ((Leb128.terminated_cons ht).1 h).2
      exact ⟨c, List.mem_cons_of_mem _ hc, hlt⟩

/-- Behind bytes to be continued a number that is read ends at a new one, whatever follows; otherwise fewer than five
bytes are all to be continued. -/
theorem readLeb_u32_cases {pre : List Byte} (hcont : ∀ b ∈ pre, 128 ≤ b.toNat) (bytes : List Byte) :
    (∃ v n, pre.length < n ∧ n ≤ (pre ++ bytes).length ∧
        ∀ more, readLeb .u32 (pre ++ bytes ++ more) 0 = some ⟨v, n, none⟩) ∨
      (∃ error, readLeb .u32 (pre ++ bytes) 0 = some ⟨0, 0, some error⟩) ∧
        ((pre ++ bytes).length < 5 → ∀ b ∈ bytes, 128 ≤ b.toNat) := by
  obtain ⟨r, hr, ⟨t, v, ht, rfl, hv⟩ | ⟨hnone, pc, error, rfl⟩⟩ := readLeb_spec .u32 (pre ++ bytes) 0
  · left
    obtain ⟨hopen, henc⟩ := accepts_iff_encodes.1 ht
    refine ⟨v, t.length, ?_, hopen.length_le, fun more => ?_⟩
    · by_contra hle
      obtain ⟨b, hb, hlt⟩ := exists_lt_of_terminated ht.2.1
      have hpre := List.prefix_of_prefix_length_le hopen (List.prefix_append pre bytes) (by omega)
      have := hcont b (hpre.subset hb)
      omega
    · apply readLeb_of_encodes
      · rw [List.drop_zero]
        exact hopen.trans (List.prefix_append _ _)
      · rw [hv]
        exact henc
  · right
    refine ⟨⟨_, hr⟩, fun hlen b hb => ?_⟩
    by_contra hlt
    obtain ⟨t, ⟨u, hu⟩, hterm⟩ := exists_terminated_prefix ⟨b, List.mem_append_right pre hb, Nat.lt_of_not_le hlt⟩
    rw [← hu, List.length_append] at hlen
    refine hnone t ⟨⟨u, hu.symm⟩, hterm, show t.length ≤ 5 by omega, ?_⟩
    obtain ⟨init, c, rfl⟩ : ∃ init c, t = init ++ [c] := ⟨_, _, (List.dropLast_concat_getLast hterm.ne_nil).symm⟩
    rw [List.length_append, List.length_singleton] at hlen
    exact inRange_of_short (show _ < 5 by omega)

namespace VarInt32

/-- The state that waits for the rest of a number. -/
def kept (v : VarInt32) (pre bytes : List Byte) : VarInt32 :=
  ⟨memcpy v.byteBuffer pre.length (bytes.map some), v.maxValue, 0, v.bytesConsumed⟩

/-- As many new bytes as there is room for. -/
def fitting (pre bytes : List Byte) : List Byte := bytes.take (kMaxVarInt32Size - pre.length)

theorem length_fitting (pre bytes : List Byte) :
    (fitting pre bytes).length = min (kMaxVarInt32Size - pre.length) bytes.length := List.length_take

variable {v : VarInt32} {pre : List Byte} (hlen : v.byteBuffer.length = kMaxVarInt32Size)
  (hpre : v.byteBuffer.take pre.length = pre.map some) (hlt : pre.length < kMaxVarInt32Size)
include hlen hpre hlt

omit hpre in
theorem length_kept (hxs : xs.length ≤ kMaxVarInt32Size - pre.length) :
    (v.kept pre xs).byteBuffer.length = kMaxVarInt32Size := by
  rw [← hlen]
  apply length_memcpy
  rw [List.length_map]
  omega

omit hpre in
theorem length_kept_fitting (bytes : List Byte) : (v.kept pre (fitting pre bytes)).byteBuffer.length = kMaxVarInt32Size :=
  length_kept hlen hlt (List.length_take_le ..)

omit hlt in
theorem take_kept (xs : List Byte) :
    (v.kept pre xs).byteBuffer.take (pre ++ xs).length = (pre ++ xs).map some := by
  have hle : pre.length ≤ v.byteBuffer.length := by
    have := congrArg List.length hpre
    rw [List.length_take, List.length_map] at this
    omega
  have htake : (memcpy v.byteBuffer pre.length (xs.map some)).take _ = _ := take_memcpy hle
  rw [List.length_map, hpre] at htake
  rw [List.length_append, List.map_append, ← htake]
  rfl

/-- The bytes that are decoded are the ones of the buffer and the new ones. -/
theorem readBytes_eq (bytes : List Byte) :
    v.readBytes pre.length bytes = (readLeb .u32 (pre ++ fitting pre bytes) 0).map fun r =>
      let v' := { v.kept pre (fitting pre bytes) with value := r.value.toNat }
      if r.error.isSome then
        ⟨v', (pre ++ fitting pre bytes).length, (fitting pre bytes).length,
          decide ((fitting pre bytes).length = kMaxVarInt32Size - pre.length)⟩
      else ⟨{ v' with bytesConsumed := r.length }, kMaxVarInt32Size, r.length - pre.length, false⟩ := by
  have hmin : min bytes.length (kMaxVarInt32Size - pre.length) = (fitting pre bytes).length := by
    rw [length_fitting, Nat.min_comm]
  have htake : bytes.take (fitting pre bytes).length = fitting pre bytes := by
    rw [length_fitting, ← List.take_take, List.take_length]
    rfl
  have hmem := length_kept_fitting hlen hlt bytes
  have hbuf := written_eq_some_iff.2 (take_kept hlen hpre (fitting pre bytes))
  rw [List.length_append] at hbuf
  rw [kept] at hmem hbuf
  simp only [readBytes, hlen, hmin, htake, hmem, hbuf, List.length_append, Option.bind_eq_bind, Option.bind_some]
  cases readLeb .u32 (pre ++ fitting pre bytes) 0 with
  | none => rfl
  | some r =>
    simp only [Option.bind_some, Option.map_some]
    split <;> rfl

/-- What `DecodeVarInt32::ReadBytes` does after `pre`, which is to be continued: it finds a number, whose end is new, or
it keeps all bytes, which fails when there is no room for more. -/
theorem readBytes_cases (hcont : ∀ b ∈ pre, 128 ≤ b.toNat) (bytes : List Byte) :
    (∃ value n, pre.length < n ∧ n ≤ pre.length + bytes.length ∧ n ≤ kMaxVarInt32Size ∧
        ∀ more, v.readBytes pre.length (bytes ++ more) = some
          ⟨⟨(v.kept pre (fitting pre (bytes ++ more))).byteBuffer, v.maxValue, value, n⟩, kMaxVarInt32Size,
            n - pre.length, false⟩) ∨
      (v.readBytes pre.length bytes = some
          ⟨v.kept pre (fitting pre bytes), (pre ++ fitting pre bytes).length, (fitting pre bytes).length,
            decide ((fitting pre bytes).length = kMaxVarInt32Size - pre.length)⟩ ∧
        (bytes.length < kMaxVarInt32Size - pre.length → ∀ b ∈ bytes, 128 ≤ b.toNat)) := by
  have hfit := length_fitting pre bytes
  rcases readLeb_u32_cases hcont (fitting pre bytes) with ⟨value, n, hn, hle, hread⟩ | ⟨⟨error, hread⟩, hshort⟩
  · left
    rw [List.length_append] at hle
    refine ⟨value.toNat, n, hn, by omega, by omega, fun more => ?_⟩
    have happend : fitting pre (bytes ++ more) = fitting pre bytes ++ _ := List.take_append
    rw [readBytes_eq hlen hpre hlt, happend, ← List.append_assoc, hread]
    rfl
  · right
    refine ⟨by rw [readBytes_eq hlen hpre hlt, hread]; rfl, fun hroom b hb => hshort ?_ b ?_⟩
    · rw [List.length_append]
      unfold kMaxVarInt32Size at *
      omega
    · rwa [fitting, List.take_of_length_le (by omega)]

/-- Waiting for the rest of a number makes no difference. -/
theorem readBytes_append (hcont : ∀ b ∈ pre ++ xs, 128 ≤ b.toNat) (hxs : xs.length < kMaxVarInt32Size - pre.length)
    (ys : List Byte) :
    v.readBytes pre.length (xs ++ ys) = ((v.kept pre xs).readBytes (pre ++ xs).length ys).map fun r =>
      { r with newBytes := xs.length + r.newBytes } := by
  have hlen' : (pre ++ xs).length = pre.length + xs.length := List.length_append
  have hfit : fitting pre (xs ++ ys) = xs ++ fitting (pre ++ xs) ys := by
    rw [fitting, List.take_append, List.take_of_length_le (by omega), fitting, hlen', Nat.sub_add_eq]
  have hkept : (v.kept pre xs).kept (pre ++ xs) (fitting (pre ++ xs) ys) = v.kept pre (xs ++ fitting (pre ++ xs) ys) := by
    have : memcpy (memcpy v.byteBuffer pre.length (xs.map some)) _ _ = _ :=
      memcpy_memcpy (by omega) ((fitting (pre ++ xs) ys).map some)
    rw [List.length_map, ← List.map_append, ← hlen'] at this
    simp only [kept, this]
  rw [readBytes_eq hlen hpre hlt, readBytes_eq (length_kept hlen hlt (by omega)) (take_kept hlen hpre xs) (by omega),
    hfit, hkept, ← List.append_assoc]
  rcases readLeb_u32_cases hcont (fitting (pre ++ xs) ys) with ⟨value, n, hend, -, hread⟩ | ⟨⟨error, hread⟩, _⟩
  · have hread := hread []
    rw [List.append_nil] at hread
    rw [hread]
    simp only [Option.map_some, Option.isSome_none, Bool.false_eq_true, if_false, Option.some.injEq, VarIntRead.mk.injEq,
      true_and, and_true]
    omega
  · rw [hread]
    simp only [Option.map_some, Option.isSome_some, if_true, Option.some.injEq, VarIntRead.mk.injEq, true_and,
      List.length_append, decide_eq_decide]
    omega

end VarInt32

/-! ## The states -/

/-- A section buffer from which the section can be handed to the processor. -/
structure SectionBuffer.Named (sb : SectionBuffer) : Prop where
  code : ∃ c, sb.sectionCode = some c
  start : 0 < sb.payloadOffset

/-- The buffers are as long as they must be. -/
def StateKind.Shape : StateKind → Prop
  | decodeModuleHeader _ => True
  | decodeSectionID _ _ => True
  | decodeSectionLength v id _ => v.byteBuffer.length = kMaxVarInt32Size ∧ (SectionCode.ofByte id).isSome
  | decodeSectionPayload sb => sb.Named ∧ sb.payloadOffset ≤ sb.length
  | decodeNumberOfFunctions v sb => v.byteBuffer.length = kMaxVarInt32Size ∧ sb.payloadOffset ≤ sb.length
  | decodeFunctionLength v sb bufferOffset _ => v.byteBuffer.length = kMaxVarInt32Size ∧ bufferOffset ≤ sb.length
  | decodeFunctionBody sb bufferOffset length _ _ => bufferOffset + length ≤ sb.length

/-- The state waits for more bytes; the ones it has are written, and a number is not complete. -/
structure DecodingState.Valid (st : DecodingState) : Prop where
  waits : st.offset < st.kind.buffer.length
  filled : ∃ bs : List Byte, st.kind.buffer.take st.offset = bs.map some ∧
    (st.kind.varInt32.isSome → ∀ b ∈ bs, 128 ≤ b.toNat)
  shape : st.kind.Shape

/-- As long as the stream has not failed there is a state, and it is valid. -/
def Decoding.Valid (d : Decoding) : Prop := d.ok = true → ∃ st, d.state = some st ∧ st.Valid

/-- A new state is valid if its buffer is not empty. -/
theorem Decoding.valid_goTo {kind : StateKind} (hbuffer : 0 < kind.buffer.length) (hshape : kind.Shape) :
    (d.goTo kind).Valid := fun _ => ⟨_, rfl, hbuffer, ⟨[], by simp, by simp⟩, hshape⟩

theorem Decoding.valid_of_not_ok (h : d.ok = false) : d.Valid := fun hok => by simp [h] at hok

theorem Decoding.valid_nextSection (d : Decoding) : d.nextSection.Valid := by
  unfold Decoding.nextSection
  cases h : d.ok with
  | true => exact valid_goTo (by simp [StateKind.buffer]) trivial
  | false => exact valid_of_not_ok (by simp [Decoding.noState, h])

/-- The bytes of the state from which `Next` goes on: those of the buffer, or those of the number. -/
def StateKind.Complete (k : StateKind) : Prop :=
  match k.varInt32 with
  | some v => v.bytesConsumed ≤ v.byteBuffer.length ∧ ∃ bs : List Byte, v.byteBuffer.take v.bytesConsumed = bs.map some
  | none => ∃ bs : List Byte, k.buffer = bs.map some

variable {sb : SectionBuffer}

section Next
variable (flags : Flags) (processor : Processor)

theorem Decoding.processSection_some (d : Decoding) (hname : sb.Named)
    (hpayload : ∃ bs : List Byte, sb.payload = bs.map some) : ∃ d', d.processSection processor sb = some d' := by
  obtain ⟨c, hc⟩ := hname.code
  obtain ⟨bs, hbs⟩ := hpayload
  simp only [Decoding.processSection, hc, written_eq_some_iff.2 hbs]
  exact ⟨_, rfl⟩

namespace Decoding

/-- The invariant after `Next`. -/
def NextValid (r : Option Decoding) : Prop := ∃ d', r = some d' ∧ d'.Valid

theorem nextValid_toErrorState (d : Decoding) : NextValid (some d.toErrorState) := ⟨_, rfl, valid_of_not_ok rfl⟩

theorem nextValid_goTo {kind : StateKind} (hbuffer : 0 < kind.buffer.length) (hshape : kind.Shape) :
    NextValid (some (d.goTo kind)) := ⟨_, rfl, valid_goTo hbuffer hshape⟩

theorem nextValid_noState (h : ¬ d.ok = true) : NextValid (some d.noState) :=
  ⟨_, rfl, valid_of_not_ok (by simpa [noState] using h)⟩

theorem nextValid_sectionID (d : Decoding) : NextValid (some (d.goTo (.decodeSectionID (some 0#8) d.moduleOffset))) :=
  nextValid_goTo (by simp [StateKind.buffer]) trivial

theorem new_varInt32_length (n : Nat) : (VarInt32.new n).byteBuffer.length = kMaxVarInt32Size := by simp [VarInt32.new]

variable {v : VarInt32}

theorem nextValid_sectionLength (d : Decoding) {id : Byte} (moduleOffset : BitVec 32)
    (hid : (SectionCode.ofByte id).isSome) : NextValid (d.nextSectionLength flags processor v id moduleOffset) := by
  unfold nextSectionLength
  generalize hbuf : SectionBuffer.new moduleOffset id v.value (v.byteBuffer.take v.bytesConsumed) = buf
  have hname : buf.Named := by
    obtain ⟨c, hc⟩ := Option.isSome_iff_exists.1 hid
    subst hbuf
    exact ⟨⟨c, by simpa [SectionBuffer.sectionCode, SectionBuffer.new] using hc⟩, by simp [SectionBuffer.new]⟩
  have hpayload : buf.payload = List.replicate v.value none := by
    subst hbuf
    simp only [SectionBuffer.new]
    apply List.drop_left'
    simp [Nat.add_comm]
  have hle : buf.payloadOffset ≤ buf.length := by
    subst hbuf
    simp [SectionBuffer.new, SectionBuffer.length]
    omega
  dsimp only
  split
  · rename_i hzero
    split
    · exact nextValid_toErrorState d
    · obtain ⟨d', hd'⟩ := processSection_some processor d hname ⟨[], by simp [hpayload, hzero]⟩
      simp only [hd']
      exact ⟨_, rfl, valid_nextSection d'⟩
  · split
    · exact nextValid_goTo (by simp [StateKind.buffer, VarInt32.new, kMaxVarInt32Size]) ⟨new_varInt32_length _, hle⟩
    · refine nextValid_goTo ?_ ⟨hname, hle⟩
      simp only [StateKind.buffer, hpayload, List.length_replicate]
      omega

theorem nextValid_numberOfFunctions (d : Decoding) (hv : v.bytesConsumed ≤ v.byteBuffer.length)
    (hsb : sb.payloadOffset ≤ sb.length) : NextValid (d.nextNumberOfFunctions processor v sb) := by
  unfold nextNumberOfFunctions
  dsimp only
  split
  · exact nextValid_toErrorState d
  · have hlen : (memcpy sb.bytes sb.payloadOffset (v.byteBuffer.take v.bytesConsumed)).length = sb.bytes.length := by
      apply length_memcpy
      simp only [SectionBuffer.payload, SectionBuffer.length, List.length_drop, List.length_take] at *
      omega
    split
    · exact nextValid_noState (by assumption)
    · split
      · split
        · exact nextValid_toErrorState _
        · exact nextValid_sectionID _
      · refine nextValid_goTo (by simp [StateKind.buffer, VarInt32.new, kMaxVarInt32Size]) ⟨new_varInt32_length _, ?_⟩
        simp only [SectionBuffer.write, SectionBuffer.length, SectionBuffer.payload, List.length_drop] at *
        omega

theorem nextValid_functionLength (d : Decoding) {bufferOffset : Nat} (n : Nat) (hsb : bufferOffset ≤ sb.length) :
    NextValid (d.nextFunctionLength v sb bufferOffset n) := by
  unfold nextFunctionLength
  rw [if_neg (Nat.not_lt.2 hsb)]
  dsimp only
  split
  · exact nextValid_toErrorState d
  · split
    · exact nextValid_toErrorState d
    · split
      · exact nextValid_toErrorState d
      · rename_i hfit
        refine nextValid_goTo ?_ (Nat.le_of_not_lt hfit)
        simp only [StateKind.buffer, SectionBuffer.length, List.length_take, List.length_drop] at *
        omega

theorem nextValid_functionBody (d : Decoding) {bufferOffset length : Nat} (n : Nat) (moduleOffset : BitVec 32)
    (hsb : bufferOffset + length ≤ sb.length)
    (hbytes : ∃ bs : List Byte, (sb.bytes.drop bufferOffset).take length = bs.map some) :
    NextValid (d.nextFunctionBody processor sb bufferOffset length n moduleOffset) := by
  obtain ⟨bs, hbs⟩ := hbytes
  unfold nextFunctionBody
  rw [written_eq_some_iff.2 hbs]
  simp only [Option.bind_eq_bind, Option.bind_some]
  split
  · exact nextValid_noState (by assumption)
  · split
    · exact nextValid_goTo (by simp [StateKind.buffer, VarInt32.new, kMaxVarInt32Size]) ⟨new_varInt32_length _, hsb⟩
    · split
      · exact nextValid_toErrorState _
      · exact nextValid_sectionID _

theorem nextValid_sectionIDNext (d : Decoding) {id : Option Byte} (moduleOffset : BitVec 32) (hid : id.isSome) :
    NextValid (d.nextSectionID flags id moduleOffset) := by
  obtain ⟨id, rfl⟩ := Option.isSome_iff_exists.1 hid
  simp only [nextSectionID, Option.bind_eq_bind, Option.bind_some]
  cases hcode : SectionCode.ofByte id with
  | none => exact nextValid_toErrorState d
  | some c =>
    simp only
    split
    · exact nextValid_toErrorState d
    · exact nextValid_goTo (by simp [StateKind.buffer, VarInt32.new, kMaxVarInt32Size]) ⟨new_varInt32_length _, by simp [hcode]⟩

theorem nextValid_varInt32 (d : Decoding) (v : VarInt32) {r : Option Decoding} (h : NextValid r) :
    NextValid (d.nextVarInt32 v r) := by
  unfold nextVarInt32
  split
  · exact nextValid_noState (by assumption)
  · split
    · exact nextValid_toErrorState d
    · exact h

/-- `Next` is defined on a complete state and leads to a valid one. -/
theorem next_valid (d : Decoding) {k : StateKind} (hshape : k.Shape) (hcomplete : k.Complete) :
    NextValid (d.next flags processor k) := by
  cases k with
  | decodeModuleHeader byteBuffer =>
    obtain ⟨bs, hbs⟩ := hcomplete
    have hwritten : written byteBuffer = some bs := written_eq_some_iff.2 hbs
    simp only [next, nextModuleHeader, hwritten]
    exact ⟨_, rfl, valid_nextSection _⟩
  | decodeSectionID id moduleOffset =>
    obtain ⟨bs, hbs⟩ := hcomplete
    apply nextValid_sectionIDNext
    cases bs with
    | nil => simp [StateKind.buffer] at hbs
    | cons b bs =>
      have : id = some b := (List.cons.inj hbs).1
      simp [this]
  | decodeSectionLength v id moduleOffset =>
    exact nextValid_varInt32 d v (nextValid_sectionLength flags processor d moduleOffset hshape.2)
  | decodeSectionPayload sb =>
    obtain ⟨d', hd'⟩ := processSection_some processor d hshape.1 hcomplete
    simp only [next, nextSectionPayload, hd']
    exact ⟨_, rfl, valid_nextSection _⟩
  | decodeNumberOfFunctions v sb =>
    exact nextValid_varInt32 d v (nextValid_numberOfFunctions processor d hcomplete.1 hshape.2)
  | decodeFunctionLength v sb bufferOffset n =>
    exact nextValid_varInt32 d v (nextValid_functionLength d n hshape.2)
  | decodeFunctionBody sb bufferOffset length n moduleOffset =>
    exact nextValid_functionBody processor d n moduleOffset hshape hcomplete

/-- `Next` only looks at the bytes of the number. -/
theorem next_congr (d : Decoding) {k : StateKind} (hk : k.varInt32 = some v) {buf buf' : Memory}
    {maxValue value n : Nat} (h : buf.take n = buf'.take n) :
    d.next flags processor (k.setVarInt32 ⟨buf, maxValue, value, n⟩) =
      d.next flags processor (k.setVarInt32 ⟨buf', maxValue, value, n⟩) := by
  cases k with
  | decodeSectionLength v id moduleOffset => simp only [StateKind.setVarInt32, next, nextVarInt32, nextSectionLength, h]
  | decodeNumberOfFunctions v sb => simp only [StateKind.setVarInt32, next, nextVarInt32, nextNumberOfFunctions, h]
  | decodeFunctionLength v sb bufferOffset n => simp only [StateKind.setVarInt32, next, nextVarInt32, nextFunctionLength, h]
  | _ => cases hk

end Decoding

end Next

/-! ## Buffers as views -/

section Overwrite
variable {dst src src' : Memory} {pos : Nat} (h : pos ≤ dst.length)
include h

theorem take_pos_memcpy : (memcpy dst pos src).take pos = dst.take pos := by
  rw [memcpy, List.append_assoc]
  exact List.take_left' (List.length_take_of_le h)

theorem drop_pos_memcpy : (memcpy dst pos src).drop pos = src ++ dst.drop (pos + src.length) := by
  rw [memcpy, List.append_assoc]
  exact List.drop_left' (List.length_take_of_le h)

theorem memcpy_overwrite (hlen : src.length = src'.length) :
    memcpy (memcpy dst pos src) pos src' = memcpy dst pos src' := by
  rw [memcpy, take_pos_memcpy h, ← List.drop_drop, drop_pos_memcpy h, List.drop_left' hlen, hlen, memcpy]

end Overwrite

namespace StateKind
variable {k : StateKind} {buf buf' : Memory}

theorem buffer_setBuffer (hshape : k.Shape) (hk : k.varInt32 = none) (hlen : buf.length = k.buffer.length) :
    (k.setBuffer buf).buffer = buf := by
  cases k with
  | decodeModuleHeader byteBuffer => rfl
  | decodeSectionID id moduleOffset =>
    match buf, hlen with
    | [b], _ => rfl
  | decodeSectionPayload sb =>
    have hend : sb.bytes.drop (sb.payloadOffset + buf.length) = [] := by
      apply List.drop_eq_nil_of_le
      simp only [buffer, SectionBuffer.payload, List.length_drop] at hlen
      omega
    change (memcpy sb.bytes sb.payloadOffset buf).drop sb.payloadOffset = buf
    rw [drop_pos_memcpy hshape.2, hend, List.append_nil]
  | decodeFunctionBody sb bufferOffset length n moduleOffset =>
    have hle : bufferOffset + length ≤ sb.bytes.length := hshape
    have hbuf : buf.length = length := by
      simp only [buffer, List.length_take, List.length_drop] at hlen
      omega
    change ((memcpy sb.bytes bufferOffset buf).drop bufferOffset).take length = buf
    rw [drop_pos_memcpy (by omega)]
    exact List.take_left' hbuf
  | _ => cases hk

theorem setBuffer_setBuffer (hshape : k.Shape) (hlen : buf.length = k.buffer.length)
    (hlen' : buf'.length = k.buffer.length) : (k.setBuffer buf).setBuffer buf' = k.setBuffer buf' := by
  cases k with
  | decodeSectionID id moduleOffset =>
    match buf', hlen' with
    | [b], _ => rfl
  | decodeSectionPayload sb =>
    simp only [setBuffer, SectionBuffer.write, memcpy_overwrite hshape.2 (hlen.trans hlen'.symm)]
  | decodeFunctionBody sb bufferOffset length n moduleOffset =>
    have hle : bufferOffset ≤ sb.bytes.length := Nat.le_trans (Nat.le_add_right _ _) hshape
    simp only [setBuffer, SectionBuffer.write, memcpy_overwrite hle (hlen.trans hlen'.symm)]
  | _ => rfl

theorem shape_setBuffer (hshape : k.Shape) (hk : k.varInt32 = none) (hlen : buf.length = k.buffer.length) :
    (k.setBuffer buf).Shape := by
  cases k with
  | decodeModuleHeader byteBuffer => trivial
  | decodeSectionID id moduleOffset => trivial
  | decodeSectionPayload sb =>
    obtain ⟨⟨⟨c, hc⟩, hstart⟩, hle⟩ := hshape
    have hmem : (memcpy sb.bytes sb.payloadOffset buf).length = sb.bytes.length := by
      apply length_memcpy
      simp only [buffer, SectionBuffer.payload, SectionBuffer.length, List.length_drop] at *
      omega
    have hhead : (memcpy sb.bytes sb.payloadOffset buf).head? = sb.bytes.head? := by
      have := congrArg List.head? (take_pos_memcpy hle : (memcpy sb.bytes sb.payloadOffset buf).take _ = _)
      rwa [List.head?_take, List.head?_take, if_neg (by omega), if_neg (by omega)] at this
    refine ⟨⟨⟨c, ?_⟩, hstart⟩, ?_⟩
    · simpa only [SectionBuffer.sectionCode, SectionBuffer.write, hhead] using hc
    · simpa only [SectionBuffer.length, SectionBuffer.write, hmem] using hle
  | decodeFunctionBody sb bufferOffset length n moduleOffset =>
    have hle : bufferOffset + length ≤ sb.bytes.length := hshape
    have hmem : (memcpy sb.bytes bufferOffset buf).length = sb.bytes.length := by
      apply length_memcpy
      simp only [buffer, List.length_take] at hlen
      omega
    simpa only [setBuffer, Shape, SectionBuffer.length, SectionBuffer.write, hmem] using hle
  | _ => cases hk

theorem varInt32_setBuffer (hk : k.varInt32 = none) : (k.setBuffer buf).varInt32 = none := by
  cases k <;> first | rfl | simp [varInt32] at hk

section VarInt
variable {v v' : VarInt32} (hk : k.varInt32 = some v)
include hk

theorem buffer_of_varInt32 : k.buffer = v.byteBuffer := by
  cases k <;> simp_all [varInt32, buffer]

theorem varInt32_setVarInt32 : (k.setVarInt32 v').varInt32 = some v' := by
  cases k <;> simp_all [varInt32, setVarInt32]

theorem setVarInt32_setVarInt32 (v'' : VarInt32) : (k.setVarInt32 v').setVarInt32 v'' = k.setVarInt32 v'' := by
  cases k <;> simp_all [setVarInt32]

theorem length_of_shape (hshape : k.Shape) : v.byteBuffer.length = kMaxVarInt32Size := by
  cases k <;> simp_all [varInt32, Shape]

theorem shape_setVarInt32 (hshape : k.Shape) (hlen : v'.byteBuffer.length = kMaxVarInt32Size) : (k.setVarInt32 v').Shape := by
  cases k <;> simp_all [Shape, setVarInt32]

end VarInt

end StateKind

/-! ## The loop -/

namespace Decoding
variable (flags : Flags) (processor : Processor) {d : Decoding} {st : DecodingState}

/-- More bytes are read, and the state is taken. -/
def advance (d : Decoding) (n : Nat) : Decoding :=
  { d with state := none, moduleOffset := d.moduleOffset + BitVec.ofNat 32 n }

/-- The state waits for more. -/
def wait (d : Decoding) (n : Nat) (st : DecodingState) : Decoding := { d.advance n with state := some st }

theorem advance_wait (d : Decoding) (m n : Nat) (st : DecodingState) : (d.wait m st).advance n = d.advance (m + n) := by
  simp only [wait, advance]
  rw [BitVec.add_assoc, BitVec.ofNat_add]

theorem wait_wait (d : Decoding) (m n : Nat) (st st' : DecodingState) : (d.wait m st).wait n st' = d.wait (m + n) st' := by
  rw [wait, advance_wait]
  rfl

/-- The state after it has read the bytes. -/
def filledKind (st : DecodingState) (bytes : List Byte) : StateKind :=
  st.kind.setBuffer (memcpy st.kind.buffer st.offset (bytes.map some))

section Plain
variable (hk : st.kind.varInt32 = none) (hvalid : st.Valid) (bytes : List Byte)
  (hroom : bytes.length ≤ st.kind.buffer.length - st.offset)
include hvalid hroom

theorem length_filled : (memcpy st.kind.buffer st.offset (bytes.map some)).length = st.kind.buffer.length := by
  have := hvalid.waits
  apply length_memcpy
  rw [List.length_map]
  omega

include hk

theorem buffer_filledKind : (filledKind st bytes).buffer = memcpy st.kind.buffer st.offset (bytes.map some) :=
  StateKind.buffer_setBuffer hvalid.shape hk (length_filled hvalid bytes hroom)

theorem take_filledKind : ∃ bs : List Byte, (filledKind st bytes).buffer.take (st.offset + bytes.length) = bs.map some := by
  obtain ⟨bs, hbs, _⟩ := hvalid.filled
  have htake : (memcpy st.kind.buffer st.offset (bytes.map some)).take _ = _ := take_memcpy (Nat.le_of_lt hvalid.waits)
  refine ⟨bs ++ bytes, ?_⟩
  rw [buffer_filledKind hk hvalid bytes hroom, List.map_append, ← hbs, ← htake, List.length_map]

theorem valid_filled (hlt : bytes.length < st.kind.buffer.length - st.offset) :
    DecodingState.Valid ⟨filledKind st bytes, st.offset + bytes.length⟩ := by
  have hvar : (filledKind st bytes).varInt32 = none := StateKind.varInt32_setBuffer hk
  obtain ⟨bs, hbs⟩ := take_filledKind hk hvalid bytes hroom
  refine ⟨?_, ⟨bs, hbs, by simp [hvar]⟩, StateKind.shape_setBuffer hvalid.shape hk (length_filled hvalid bytes hroom)⟩
  rw [buffer_filledKind hk hvalid bytes hroom, length_filled hvalid bytes hroom]
  change st.offset + bytes.length < _
  omega

theorem complete_filled (heq : bytes.length = st.kind.buffer.length - st.offset) : (filledKind st bytes).Complete := by
  have hvar : (filledKind st bytes).varInt32 = none := StateKind.varInt32_setBuffer hk
  have hwaits := hvalid.waits
  obtain ⟨bs, hbs⟩ := take_filledKind hk hvalid bytes hroom
  unfold StateKind.Complete
  rw [hvar]
  refine ⟨bs, ?_⟩
  rw [← hbs]
  apply (List.take_of_length_le _).symm
  rw [buffer_filledKind hk hvalid bytes hroom, length_filled hvalid bytes hroom]
  omega

/-- Two reads are one. -/
theorem filledKind_append {more : List Byte} (hmore : (bytes ++ more).length ≤ st.kind.buffer.length - st.offset) :
    filledKind ⟨filledKind st bytes, st.offset + bytes.length⟩ more = filledKind st (bytes ++ more) := by
  have hmem : memcpy (memcpy st.kind.buffer st.offset (bytes.map some)) _ _ = _ :=
    memcpy_memcpy (Nat.le_of_lt hvalid.waits) (more.map some)
  rw [List.length_map, ← List.map_append] at hmem
  have heq : memcpy (filledKind st bytes).buffer (st.offset + bytes.length) (more.map some) =
      memcpy st.kind.buffer st.offset ((bytes ++ more).map some) := by
    rw [buffer_filledKind hk hvalid bytes hroom, hmem]
  change (filledKind st bytes).setBuffer (memcpy (filledKind st bytes).buffer (st.offset + bytes.length) (more.map some)) = _
  rw [heq]
  exact StateKind.setBuffer_setBuffer hvalid.shape (length_filled hvalid bytes hroom) (length_filled hvalid (bytes ++ more) hmore)

end Plain

/-- A state that does not decode a number waits or has all bytes it needs. -/
theorem step_plain (hst : d.state = some st) (hk : st.kind.varInt32 = none) (hvalid : st.Valid) (bytes : List Byte) :
    d.step flags processor bytes =
      if bytes.length < st.kind.buffer.length - st.offset then
        some (d.wait bytes.length ⟨filledKind st bytes, st.offset + bytes.length⟩, bytes.length)
      else ((d.advance (st.kind.buffer.length - st.offset)).next flags processor
        (filledKind st (bytes.take (st.kind.buffer.length - st.offset)))).map fun d' =>
          (d', st.kind.buffer.length - st.offset) := by
  obtain ⟨ok, state, processed, moduleOffset, calls⟩ := d
  obtain rfl : state = some st := hst
  have hwaits := hvalid.waits
  simp only [step, readBytes, hk, DecodingState.readBytes, Option.bind_eq_bind, Option.bind_some]
  by_cases hlt : bytes.length < st.kind.buffer.length - st.offset
  · have hlen := length_filled hvalid bytes (by omega)
    have hbuf := buffer_filledKind hk hvalid bytes (by omega)
    rw [filledKind] at hbuf
    rw [if_pos hlt, Nat.min_eq_left (by omega), List.take_length, if_neg]
    · rfl
    · rw [hbuf, hlen]
      omega
  · have hlen := length_filled hvalid (bytes.take (st.kind.buffer.length - st.offset)) (by simp)
    have hbuf := buffer_filledKind hk hvalid (bytes.take (st.kind.buffer.length - st.offset)) (by simp)
    rw [filledKind] at hbuf
    rw [if_neg hlt, Nat.min_eq_right (by omega), if_pos]
    · simp only [Option.map_eq_bind]
      rfl
    · rw [hbuf, hlen]
      omega

/-- The step of a state that does not decode a number, as `Chunks.Reader` asks for it. -/
theorem plain_progress (hst : d.state = some st) (hk : st.kind.varInt32 = none) (hvalid : st.Valid)
    (hbytes : bytes ≠ []) :
    ∃ d' n, d.step flags processor bytes = some (d', n) ∧ 0 < n ∧ n ≤ bytes.length ∧ d'.Valid := by
  have hpos := List.length_pos_of_ne_nil hbytes
  have hwaits := hvalid.waits
  rw [step_plain flags processor hst hk hvalid]
  by_cases hlt : bytes.length < st.kind.buffer.length - st.offset
  · rw [if_pos hlt]
    exact ⟨_, _, rfl, hpos, Nat.le_refl _, fun _ => ⟨_, rfl, valid_filled hk hvalid bytes (by omega) hlt⟩⟩
  · have hlen : (bytes.take (st.kind.buffer.length - st.offset)).length = st.kind.buffer.length - st.offset := by
      rw [List.length_take]
      omega
    obtain ⟨d', hnext, hd'⟩ := next_valid flags processor (d.advance (st.kind.buffer.length - st.offset))
      (StateKind.shape_setBuffer hvalid.shape hk (length_filled hvalid _ (Nat.le_of_eq hlen)))
      (complete_filled hk hvalid _ (Nat.le_of_eq hlen) hlen)
    rw [if_neg hlt, filledKind, hnext]
    exact ⟨d', _, rfl, by omega, by omega, hd'⟩

/-- The step on more bytes is the same, or it goes on where the first one has stopped. -/
def Splits (d : Decoding) (xs ys : List Byte) : Prop :=
  d.step flags processor (xs ++ ys) = d.step flags processor xs ∨
    ∃ d', d.step flags processor xs = some (d', xs.length) ∧ d'.ok = true ∧
      d.step flags processor (xs ++ ys) = (d'.step flags processor ys).map fun r => (r.1, xs.length + r.2)

theorem plain_split (hst : d.state = some st) (hk : st.kind.varInt32 = none) (hvalid : st.Valid) (hok : d.ok = true)
    (ys : List Byte) : Splits flags processor d xs ys := by
  have hwaits := hvalid.waits
  by_cases hlt : xs.length < st.kind.buffer.length - st.offset
  · -- the buffer is not full yet, and the next read goes on behind what is there
    right
    have hvar : (filledKind st xs).varInt32 = none := StateKind.varInt32_setBuffer hk
    refine ⟨d.wait xs.length _, by rw [step_plain flags processor hst hk hvalid, if_pos hlt], hok, ?_⟩
    rw [step_plain flags processor hst hk hvalid,
      step_plain flags processor rfl hvar (valid_filled hk hvalid xs (by omega) hlt)]
    simp only [buffer_filledKind hk hvalid xs (by omega), length_filled hvalid xs (by omega)]
    have hroom : st.kind.buffer.length - (st.offset + xs.length) = st.kind.buffer.length - st.offset - xs.length := by omega
    rw [hroom]
    by_cases hlt' : ys.length < st.kind.buffer.length - st.offset - xs.length
    · rw [if_pos (by rw [List.length_append]; omega), if_pos hlt', Option.map_some, wait_wait,
        filledKind_append hk hvalid xs (by omega) (by rw [List.length_append]; omega), List.length_append, Nat.add_assoc]
    · have hle : xs.length + (st.kind.buffer.length - st.offset - xs.length) = st.kind.buffer.length - st.offset := by omega
      rw [if_neg (by rw [List.length_append]; omega), if_neg hlt', advance_wait, filledKind_append hk hvalid xs (by omega)
        (by rw [List.length_append, List.length_take]; omega), hle, Option.map_map, List.take_append,
        List.take_of_length_le (by omega)]
      simp only [Function.comp_def, hle]
  · left
    rw [step_plain flags processor hst hk hvalid, step_plain flags processor hst hk hvalid, if_neg hlt,
      if_neg (by rw [List.length_append]; omega), List.take_append_of_le_length (by omega)]

/-! ### Numbers -/

/-- The state waits for the rest of a number, of which it has the bytes `pre`. -/
structure Waiting (k : StateKind) (v : VarInt32) (pre : List Byte) : Prop where
  kind : k.varInt32 = some v
  shape : k.Shape
  bytes : v.byteBuffer.take pre.length = pre.map some
  cont : ∀ b ∈ pre, 128 ≤ b.toNat
  lt : pre.length < kMaxVarInt32Size

section Number
variable {k : StateKind} {v : VarInt32} {pre : List Byte}

theorem waiting_of_valid (hvalid : st.Valid) (hk : st.kind.varInt32 = some v) :
    ∃ pre, st = ⟨st.kind, pre.length⟩ ∧ Waiting st.kind v pre := by
  obtain ⟨pre, hpre, hcont⟩ := hvalid.filled
  have hlen := StateKind.length_of_shape hk hvalid.shape
  have hwaits := hvalid.waits
  rw [StateKind.buffer_of_varInt32 hk] at hpre hwaits
  have heq := congrArg List.length hpre
  rw [List.length_take, List.length_map] at heq
  have hoffset : st.offset = pre.length := by omega
  rw [hoffset] at hpre hwaits
  exact ⟨pre, by rw [← hoffset], hk, hvalid.shape, hpre, hcont (by simp [hk]), by omega⟩

variable (hw : Waiting k v pre)
include hw

theorem Waiting.length : v.byteBuffer.length = kMaxVarInt32Size := StateKind.length_of_shape hw.kind hw.shape

theorem Waiting.valid : DecodingState.Valid ⟨k, pre.length⟩ := by
  refine ⟨?_, ⟨pre, ?_, fun _ => hw.cont⟩, hw.shape⟩
  · rw [StateKind.buffer_of_varInt32 hw.kind, hw.length]
    exact hw.lt
  · rw [StateKind.buffer_of_varInt32 hw.kind]
    exact hw.bytes

theorem Waiting.keep (hxs : xs.length < kMaxVarInt32Size - pre.length) (hcont : ∀ b ∈ xs, 128 ≤ b.toNat) :
    Waiting (k.setVarInt32 (v.kept pre xs)) (v.kept pre xs) (pre ++ xs) := by
  have hlt := hw.lt
  have hlen := VarInt32.length_kept hw.length hw.lt (Nat.le_of_lt hxs)
  refine ⟨StateKind.varInt32_setVarInt32 hw.kind, StateKind.shape_setVarInt32 hw.kind hw.shape hlen,
    VarInt32.take_kept hw.length hw.bytes xs, fun b hb => ?_, by rw [List.length_append]; omega⟩
  rcases List.mem_append.1 hb with hb | hb
  · exact hw.cont b hb
  · exact hcont b hb

/-- What follows `DecodeVarInt32::ReadBytes` in the loop. -/
def afterRead (d : Decoding) (k : StateKind) (r : VarIntRead) : Option (Decoding × Nat) :=
  let d' := (if r.failed then d.fail else d).advance r.newBytes
  if r.offset = r.v.byteBuffer.length then (d'.next flags processor (k.setVarInt32 r.v)).map fun d'' => (d'', r.newBytes)
  else some ({ d' with state := some ⟨k.setVarInt32 r.v, r.offset⟩ }, r.newBytes)

theorem step_number (hst : d.state = some ⟨k, pre.length⟩) (bytes : List Byte) :
    d.step flags processor bytes = (v.readBytes pre.length bytes).bind (afterRead flags processor d k) := by
  obtain ⟨ok, state, processed, moduleOffset, calls⟩ := d
  obtain rfl : state = some ⟨k, pre.length⟩ := hst
  simp only [step, readBytes, hw.kind, Option.bind_eq_bind, Option.bind_some]
  cases v.readBytes pre.length bytes with
  | none => rfl
  | some r =>
    simp only [Option.bind_some, afterRead, Option.pure_def, Option.map_eq_bind,
      StateKind.buffer_of_varInt32 (StateKind.varInt32_setVarInt32 hw.kind)]
    cases r.failed <;> rfl

theorem afterRead_wait (d : Decoding) (v' : VarInt32) (m : Nat) (st : DecodingState) (r : VarIntRead) :
    afterRead flags processor d k { r with newBytes := m + r.newBytes } =
      (afterRead flags processor (d.wait m st) (k.setVarInt32 v') r).map fun x => (x.1, m + x.2) := by
  have hadvance : (if r.failed then (d.wait m st).fail else d.wait m st).advance r.newBytes =
      (if r.failed then d.fail else d).advance (m + r.newBytes) := by
    cases r.failed
    · exact advance_wait d m _ st
    · exact advance_wait d.fail m _ st
  simp only [afterRead, hadvance, StateKind.setVarInt32_setVarInt32 hw.kind]
  split
  · rw [Option.map_map]
    rfl
  · rfl

/-- A failed stream has no state any more. -/
theorem next_not_ok (hok : d.ok = false) (v' : VarInt32) :
    d.next flags processor (k.setVarInt32 v') = some d.noState := by
  have hk := hw.kind
  cases k <;> simp_all [StateKind.varInt32, StateKind.setVarInt32, next, nextVarInt32]

/-- The bytes of a number that was found are those before its end, however many more were read. -/
theorem Waiting.take_found {n : Nat} (hn : n ≤ pre.length + bytes.length) (hn5 : n ≤ kMaxVarInt32Size)
    (more : List Byte) :
    (v.kept pre (VarInt32.fitting pre (bytes ++ more))).byteBuffer.take n = ((pre ++ bytes).take n).map some := by
  have hfit := VarInt32.length_fitting pre (bytes ++ more)
  rw [List.length_append] at hfit
  have htake := congrArg (List.take n) (VarInt32.take_kept hw.length hw.bytes (VarInt32.fitting pre (bytes ++ more)))
  rw [List.take_take, ← List.map_take, Nat.min_eq_left (by rw [List.length_append]; omega)] at htake
  have hsplit : ∀ bs : List Byte, (pre ++ bs).take n = pre.take n ++ bs.take (n - pre.length) := fun bs => List.take_append
  rw [htake, hsplit, hsplit, VarInt32.fitting, List.take_take, Nat.min_eq_left (by omega),
    List.take_append_of_le_length (by omega)]

theorem number_progress (hst : d.state = some ⟨k, pre.length⟩) (hbytes : bytes ≠ []) :
    ∃ d' n, d.step flags processor bytes = some (d', n) ∧ 0 < n ∧ n ≤ bytes.length ∧ d'.Valid := by
  have hpos := List.length_pos_of_ne_nil hbytes
  have hlt := hw.lt
  have hmem := VarInt32.length_kept_fitting hw.length hlt bytes
  rw [step_number flags processor hw hst]
  rcases VarInt32.readBytes_cases hw.length hw.bytes hw.lt hw.cont bytes with
    ⟨value, n, hn, hnb, hn5, hread⟩ | ⟨hread, hshort⟩
  · have hread := hread []
    have hfound := hw.take_found hnb hn5 []
    rw [List.append_nil] at hread hfound
    generalize (v.kept pre (VarInt32.fitting pre bytes)).byteBuffer = buf at *
    have hcomplete : (k.setVarInt32 ⟨buf, v.maxValue, value, n⟩).Complete := by
      unfold StateKind.Complete
      rw [StateKind.varInt32_setVarInt32 hw.kind]
      exact ⟨by rw [hmem]; exact hn5, _, hfound⟩
    obtain ⟨d', hnext, hd'⟩ := next_valid flags processor (d.advance (n - pre.length))
      (StateKind.shape_setVarInt32 hw.kind hw.shape hmem) hcomplete
    refine ⟨d', n - pre.length, ?_, by omega, by omega, hd'⟩
    rw [hread, Option.bind_some, afterRead, if_pos hmem.symm]
    simp only [Bool.false_eq_true, if_false, hnext]
    rfl
  · rw [hread, Option.bind_some, afterRead]
    rcases Nat.lt_or_ge bytes.length (kMaxVarInt32Size - pre.length) with hroom | hroom
    · have hall : VarInt32.fitting pre bytes = bytes := List.take_of_length_le (Nat.le_of_lt hroom)
      rw [hall] at hmem ⊢
      rw [if_neg (by simp; omega)]
      exact ⟨_, _, rfl, hpos, Nat.le_refl _, fun _ => ⟨_, rfl, (hw.keep hroom (hshort hroom)).valid⟩⟩
    · have hfull : (VarInt32.fitting pre bytes).length = kMaxVarInt32Size - pre.length := List.length_take_of_le hroom
      have hnext := next_not_ok flags processor hw (d := d.fail.advance (kMaxVarInt32Size - pre.length)) rfl
      simp only [hmem, hfull, List.length_append, decide_true, if_true, hnext]
      rw [if_pos (by omega)]
      exact ⟨_, _, rfl, by omega, hroom, valid_of_not_ok rfl⟩

theorem number_split (hst : d.state = some ⟨k, pre.length⟩) (hok : d.ok = true) (ys : List Byte) :
    Splits flags processor d xs ys := by
  have hlt := hw.lt
  rcases VarInt32.readBytes_cases hw.length hw.bytes hw.lt hw.cont xs with
    ⟨value, m, hm, hmb, hm5, hread⟩ | ⟨hread, hshort⟩
  · -- the number is complete: what follows it is given back
    left
    have hstep : ∀ more, d.step flags processor (xs ++ more) =
        ((d.advance (m - pre.length)).next flags processor (k.setVarInt32
          ⟨(v.kept pre (VarInt32.fitting pre (xs ++ more))).byteBuffer, v.maxValue, value, m⟩)).map
            fun d'' => (d'', m - pre.length) := fun more => by
      rw [step_number flags processor hw hst, hread more]
      simp only [Option.bind_some, afterRead, Bool.false_eq_true, if_false,
        VarInt32.length_kept_fitting hw.length hlt, if_true]
    have hnil := hstep []
    have hcongr := (hw.take_found hmb hm5 ys).trans (hw.take_found hmb hm5 []).symm
    rw [List.append_nil] at hnil hcongr
    rw [hstep ys, next_congr flags processor _ hw.kind hcongr, ← hnil]
  · rcases Nat.lt_or_ge xs.length (kMaxVarInt32Size - pre.length) with hroom | hroom
    · -- it is not, and is decoded again with more bytes
      right
      have hkeep := hw.keep hroom (hshort hroom)
      have hall : VarInt32.fitting pre xs = xs := List.take_of_length_le (Nat.le_of_lt hroom)
      refine ⟨d.wait xs.length ⟨k.setVarInt32 (v.kept pre xs), (pre ++ xs).length⟩, ?_, hok, ?_⟩
      · rw [step_number flags processor hw hst, hread, hall, Option.bind_some, afterRead,
          if_neg (by rw [hkeep.length]; simp only [List.length_append]; omega), if_neg (by simp; omega)]
        rfl
      · rw [step_number flags processor hw hst, step_number flags processor hkeep rfl,
          VarInt32.readBytes_append hw.length hw.bytes hw.lt hkeep.cont hroom]
        cases (v.kept pre xs).readBytes (pre ++ xs).length ys with
        | none => rfl
        | some r => exact afterRead_wait flags processor hw d _ _ _ r
    · -- there is no room for more
      left
      have hfull : VarInt32.fitting pre (xs ++ ys) = VarInt32.fitting pre xs := List.take_append_of_le_length hroom
      rw [step_number flags processor hw hst, step_number flags processor hw hst,
        VarInt32.readBytes_eq hw.length hw.bytes hw.lt, VarInt32.readBytes_eq hw.length hw.bytes hw.lt, hfull]

end Number

theorem step_progress (hvalid : d.Valid) (hok : d.ok = true) (hbytes : bytes ≠ []) :
    ∃ d' n, d.step flags processor bytes = some (d', n) ∧ 0 < n ∧ n ≤ bytes.length ∧ d'.Valid := by
  obtain ⟨st, hst, hst'⟩ := hvalid hok
  cases hk : st.kind.varInt32 with
  | none => exact plain_progress flags processor hst hk hst' hbytes
  | some v =>
    obtain ⟨pre, heq, hw⟩ := waiting_of_valid hst' hk
    exact number_progress flags processor hw (heq ▸ hst) hbytes

theorem step_split (hvalid : d.Valid) (hok : d.ok = true) (ys : List Byte) : Splits flags processor d xs ys := by
  obtain ⟨st, hst, hst'⟩ := hvalid hok
  cases hk : st.kind.varInt32 with
  | none => exact plain_split flags processor hst hk hst' hok ys
  | some v =>
    obtain ⟨pre, heq, hw⟩ := waiting_of_valid hst' hk
    exact number_split flags processor hw (heq ▸ hst) hok ys

/-- The decoder is a reader that does not see the chunks. -/
theorem reader : Chunks.Reader Decoding.ok (step flags processor) Valid where
  progress := fun hvalid hok hbytes => step_progress flags processor hvalid hok hbytes
  split := fun {d xs ys d' n} hvalid hok hxs hys h => by
    rcases step_split flags processor hvalid hok ys with heq | ⟨d₁, hstep, hok', heq⟩
    · exact .inl (heq.trans h)
    · obtain ⟨_, _, hstep', _, _, hvalid'⟩ := step_progress flags processor hvalid hok hxs
      cases hstep'.symm.trans hstep
      cases h.symm.trans hstep
      obtain ⟨d'', m, hmore, _⟩ := step_progress flags processor hvalid' hok' hys
      exact .inr ⟨rfl, hok', d'', m, hmore, by rw [heq, hmore]; rfl⟩

end Decoding

/-! ## The bytes that are kept -/

namespace FullWireBytes

/-- All bytes that were stored. -/
def all (w : FullWireBytes) : List Byte := ((w.front ++ [w.back]).map WireVector.bytes).flatten

theorem all_store (grow : Nat → Nat → Nat) (w : FullWireBytes) (bytes : List Byte) :
    (w.store grow bytes).all = w.all ++ bytes := by
  simp only [store]
  split
  · simp [all, WireVector.insert, WireVector.reserved]
  · have hle : bytes.length ≤ min (max w.back.capacity (16 * 1024) - w.back.bytes.length) bytes.length := by omega
    simp [all, WireVector.insert, List.take_of_length_le hle]

/-- Only the first vector may be empty. -/
def Valid (w : FullWireBytes) : Prop := w.back.bytes = [] → w.front = []

theorem valid_store (grow : Nat → Nat → Nat) {w : FullWireBytes} (hw : w.Valid) (bytes : List Byte) :
    (w.store grow bytes).Valid := by
  simp only [store]
  split
  · rename_i hlt
    intro h
    simp only [WireVector.insert, WireVector.reserved, List.nil_append, List.drop_eq_nil_iff] at h
    omega
  · intro h
    simp only [WireVector.insert, List.append_eq_nil_iff] at h
    exact hw h.1

theorem copy_eq_all {w : FullWireBytes} (hw : w.Valid) : w.copy = w.all := by
  unfold copy
  split
  · rfl
  · rename_i hback
    rw [ne_eq, not_not] at hback
    simp [all, hw hback, hback]

end FullWireBytes

/-! ## Streams -/

namespace AsyncStreamingDecoder
variable (flags : Flags) (processor : Processor) (grow : Nat → Nat → Nat)

/-- One chunk. -/
theorem onBytesReceived_spec {d : AsyncStreamingDecoder} (hd : d.toDecoding.Valid) (hw : d.fullWireBytes.Valid)
    (bytes : List Byte) :
    ∃ d', onBytesReceived flags processor grow d bytes = some d' ∧
      Chunks.drive Decoding.ok (Decoding.step flags processor) bytes.length d.toDecoding bytes = some d'.toDecoding ∧
      d'.toDecoding.Valid ∧ d'.fullWireBytes.Valid ∧ d'.fullWireBytes.all = d.fullWireBytes.all ++ bytes := by
  obtain ⟨_, decoding, hdrive, hvalid⟩ := (Decoding.reader flags processor).drive_fuel hd _ bytes (Nat.le_refl _)
  simp only [onBytesReceived, hdrive]
  exact ⟨_, rfl, rfl, hvalid, FullWireBytes.valid_store grow hw bytes, FullWireBytes.all_store grow _ bytes⟩

/-- A run over chunks is a run over all their bytes. -/
theorem foldlM_onBytesReceived {d : AsyncStreamingDecoder} (hd : d.toDecoding.Valid) (hw : d.fullWireBytes.Valid)
    (chunks : List (List Byte)) :
    ∃ d', chunks.foldlM (onBytesReceived flags processor grow) d = some d' ∧
      Chunks.drive Decoding.ok (Decoding.step flags processor) chunks.flatten.length d.toDecoding chunks.flatten =
        some d'.toDecoding ∧
      d'.toDecoding.Valid ∧ d'.fullWireBytes.Valid ∧ d'.fullWireBytes.all = d.fullWireBytes.all ++ chunks.flatten := by
  induction chunks generalizing d with
  | nil => exact ⟨d, rfl, by simp, hd, hw, by simp⟩
  | cons bytes chunks ih =>
    obtain ⟨d', hreceived, hdrive, hd', hw', hall⟩ := onBytesReceived_spec flags processor grow hd hw bytes
    obtain ⟨d'', hfold, hdrive', hd'', hw'', hall'⟩ := ih hd' hw'
    refine ⟨d'', ?_, ?_, hd'', hw'', ?_⟩
    · simp only [List.foldlM_cons, hreceived, Option.bind_eq_bind, Option.bind_some, hfold]
    · rw [List.flatten_cons, (Decoding.reader flags processor).drive_append hd, hdrive, Option.bind_some, hdrive']
    · rw [hall', hall, List.flatten_cons, List.append_assoc]

theorem new_valid : new.toDecoding.Valid := fun _ => ⟨_, rfl, by simp [StateKind.buffer], ⟨[], by simp, by simp⟩, trivial⟩

/-- What the processor receives from a stream depends on its bytes and not on the chunks in which they come: the calls
with their contents and offsets, whether the stream fails, and all bytes at the end. -/
theorem stream_eq_stream_flatten (grow' : Nat → Nat → Nat) (chunks : List (List Byte)) :
    ∃ r, stream flags processor grow chunks = some r ∧ stream flags processor grow' [chunks.flatten] = some r ∧
      r.bytes = chunks.flatten := by
  have hw : new.fullWireBytes.Valid := fun _ => rfl
  obtain ⟨d, hfold, hdrive, hd, hdw, hall⟩ := foldlM_onBytesReceived flags processor grow new_valid hw chunks
  obtain ⟨d', hfold', hdrive', hd', hdw', hall'⟩ := foldlM_onBytesReceived flags processor grow' new_valid hw [chunks.flatten]
  rw [List.flatten_singleton] at hdrive' hall'
  have hdecoding : d'.toDecoding = d.toDecoding := Option.some.inj (hdrive'.symm.trans hdrive)
  have hcopy : d.fullWireBytes.copy = chunks.flatten := by
    rw [FullWireBytes.copy_eq_all hdw, hall]
    rfl
  have hcopy' : d'.fullWireBytes.copy = chunks.flatten := by
    rw [FullWireBytes.copy_eq_all hdw', hall']
    rfl
  have hfinish : d'.finish = d.finish := by
    simp only [finish, hcopy, hcopy', hdecoding]
  have hsome : ∃ r, d.finish = some r ∧ r.bytes = chunks.flatten := by
    cases hok : d.ok with
    | true =>
      obtain ⟨st, hst, _⟩ := hd hok
      exact ⟨_, by simp [finish, hok, hst]; rfl, hcopy⟩
    | false => exact ⟨_, by simp [finish, hok]; rfl, hcopy⟩
  obtain ⟨r, hr, hbytes⟩ := hsome
  refine ⟨r, ?_, ?_, hbytes⟩
  · simp only [stream, hfold, Option.bind_eq_bind, Option.bind_some, hr]
  · simp only [stream, hfold', Option.bind_eq_bind, Option.bind_some, hfinish, hr]

-- the length of a section is written with two bytes, of which the second one comes with the next chunk
example : stream ⟨16, 1⟩ (fun _ => true) (fun _ n => n) [[0, 97, 115, 109, 1], [0, 0, 0, 0, 129], [0, 7, 1]] =
    some ⟨[.processModuleHeader [0, 97, 115, 109, 1, 0, 0, 0], .processSection .unknownSectionCode [7] 11],
      [0, 97, 115, 109, 1, 0, 0, 0, 0, 129, 0, 7, 1], true⟩ := by
  decide +kernel

end AsyncStreamingDecoder

end V8Core.Wasm.Streaming
