import V8Core.Lib.Chunks
import V8Core.Wasm.Leb

/-!
# The streaming decoder

`AsyncStreamingDecoder` of `wasm/streaming-decoder.cc` without deserialization: the
states with their buffers, `OnBytesReceived` and `Finish`. A byte of a buffer that was
allocated and not written yet is `none`, and so is the result of a run that would hand
such a byte to the processor, dereference the null state, or leave a buffer.

Every `section_buffer_` of a state is the last of `section_buffers_`, so that the states
carry it; the earlier ones are not used again. What the processor answers is a function
of the calls it received.
-/

namespace V8Core.Wasm.Streaming

open Leb128 (Byte)

/-- The sections with a code of their own. -/
inductive SectionCode
  | unknownSectionCode | typeSectionCode | importSectionCode | functionSectionCode | tableSectionCode | memorySectionCode
  | globalSectionCode | exportSectionCode | startSectionCode | elementSectionCode | codeSectionCode | dataSectionCode
  | dataCountSectionCode | tagSectionCode | stringRefSectionCode
  deriving DecidableEq, Repr

/-- The codes up to `kLastKnownModuleSection`, in order. -/
def sectionCodes : List SectionCode :=
  [.unknownSectionCode, .typeSectionCode, .importSectionCode, .functionSectionCode, .tableSectionCode, .memorySectionCode,
    .globalSectionCode, .exportSectionCode, .startSectionCode, .elementSectionCode, .codeSectionCode, .dataSectionCode,
    .dataCountSectionCode, .tagSectionCode, .stringRefSectionCode]

/-- `IsValidSectionCode`, and the code. -/
def SectionCode.ofByte (b : Byte) : Option SectionCode := sectionCodes[b.toNat]?

/-- Memory for bytes, written or not. -/
abbrev Memory := List (Option Byte)

def memcpy (dst : Memory) (pos : Nat) (src : Memory) : Memory := dst.take pos ++ src ++ dst.drop (pos + src.length)

/-- The bytes, if all of them were written. -/
def written : Memory → Option (List Byte)
  | [] => some []
  | b :: bs => do return (← b) :: (← written bs)

/-- The cast to `int`. -/
def toInt32 (n : Nat) : ℤ := (BitVec.ofNat 32 n).toInt

/-- All bytes of a section, with its id and length, and where the payload starts. -/
structure SectionBuffer where
  moduleOffset : BitVec 32
  bytes : Memory
  payloadOffset : Nat
  deriving DecidableEq, Repr

namespace SectionBuffer

def new (moduleOffset : BitVec 32) (id : Byte) (payloadLength : Nat) (lengthBytes : Memory) : SectionBuffer :=
  ⟨moduleOffset, some id :: lengthBytes ++ List.replicate payloadLength none, 1 + lengthBytes.length⟩

def sectionCode (sb : SectionBuffer) : Option SectionCode := do
  let id ← sb.bytes.head?
  SectionCode.ofByte (← id)

def payload (sb : SectionBuffer) : Memory := sb.bytes.drop sb.payloadOffset

def length (sb : SectionBuffer) : Nat := sb.bytes.length

/-- A `memcpy` into the buffer. -/
def write (sb : SectionBuffer) (pos : Nat) (src : Memory) : SectionBuffer := { sb with bytes := memcpy sb.bytes pos src }

end SectionBuffer

/-- The calls of a `StreamingProcessor` that it answers. -/
inductive Call
  | processModuleHeader (bytes : List Byte)
  | processSection (sectionCode : SectionCode) (bytes : List Byte) (offset : BitVec 32)
  | processCodeSectionHeader (numFunctions : ℤ) (offset : BitVec 32) (wireBytesStorage : SectionBuffer)
      (codeSectionStart codeSectionLength : ℤ)
  | processFunctionBody (bytes : List Byte) (offset : BitVec 32)
  deriving DecidableEq, Repr

/-- The answer to the last of the calls so far. -/
abbrev Processor := List Call → Bool

/-- The values of the flags that are limits here. -/
structure Flags where
  wasmMaxModuleSize : Nat
  maxWasmFunctions : Nat

/-- `std::clamp` between 16 and just below 2GB. -/
def maxModuleSize (flags : Flags) : Nat := max 16 (min flags.wasmMaxModuleSize 2147483640)

def kV8MaxWasmFunctionSize : Nat := 7654321

def kMaxVarInt32Size : Nat := 5

/-- The fields of `DecodeVarInt32`. -/
structure VarInt32 where
  byteBuffer : Memory
  maxValue : Nat
  value : Nat
  bytesConsumed : Nat
  deriving DecidableEq, Repr

def VarInt32.new (maxValue : Nat) : VarInt32 := ⟨List.replicate kMaxVarInt32Size none, maxValue, 0, 0⟩

/-- The classes of states with their fields. -/
inductive StateKind
  | decodeModuleHeader (byteBuffer : Memory)
  | decodeSectionID (id : Option Byte) (moduleOffset : BitVec 32)
  | decodeSectionLength (v : VarInt32) (sectionId : Byte) (moduleOffset : BitVec 32)
  | decodeSectionPayload (sectionBuffer : SectionBuffer)
  | decodeNumberOfFunctions (v : VarInt32) (sectionBuffer : SectionBuffer)
  | decodeFunctionLength (v : VarInt32) (sectionBuffer : SectionBuffer) (bufferOffset numRemainingFunctions : Nat)
  | decodeFunctionBody (sectionBuffer : SectionBuffer) (bufferOffset functionBodyLength numRemainingFunctions : Nat)
      (moduleOffset : BitVec 32)
  deriving DecidableEq, Repr

namespace StateKind

/-- `buffer()`. -/
def buffer : StateKind → Memory
  | decodeModuleHeader byteBuffer => byteBuffer
  | decodeSectionID id _ => [id]
  | decodeSectionLength v _ _ => v.byteBuffer
  | decodeSectionPayload sb => sb.payload
  | decodeNumberOfFunctions v _ => v.byteBuffer
  | decodeFunctionLength v _ _ _ => v.byteBuffer
  | decodeFunctionBody sb bufferOffset functionBodyLength _ _ => (sb.bytes.drop bufferOffset).take functionBodyLength

/-- The state after `buffer()` was overwritten. -/
def setBuffer : StateKind → Memory → StateKind
  | decodeModuleHeader _, buf => decodeModuleHeader buf
  | decodeSectionID id offset, buf => decodeSectionID (buf.headD id) offset
  | decodeSectionLength v id offset, buf => decodeSectionLength { v with byteBuffer := buf } id offset
  | decodeSectionPayload sb, buf => decodeSectionPayload (sb.write sb.payloadOffset buf)
  | decodeNumberOfFunctions v sb, buf => decodeNumberOfFunctions { v with byteBuffer := buf } sb
  | decodeFunctionLength v sb bufferOffset n, buf => decodeFunctionLength { v with byteBuffer := buf } sb bufferOffset n
  | decodeFunctionBody sb bufferOffset length n offset, buf =>
    decodeFunctionBody (sb.write bufferOffset buf) bufferOffset length n offset

/-- The fields of the base class `DecodeVarInt32`, for its subclasses. -/
def varInt32 : StateKind → Option VarInt32
  | decodeSectionLength v _ _ => some v
  | decodeNumberOfFunctions v _ => some v
  | decodeFunctionLength v _ _ _ => some v
  | _ => none

def setVarInt32 : StateKind → VarInt32 → StateKind
  | decodeSectionLength _ id offset, v => decodeSectionLength v id offset
  | decodeNumberOfFunctions _ sb, v => decodeNumberOfFunctions v sb
  | decodeFunctionLength _ sb bufferOffset n, v => decodeFunctionLength v sb bufferOffset n
  | k, _ => k

def isFinishingAllowed : StateKind → Bool
  | decodeSectionID _ _ => true
  | _ => false

end StateKind

structure DecodingState where
  kind : StateKind
  offset : Nat
  deriving DecidableEq, Repr

/-- `DecodingState::ReadBytes`. -/
def DecodingState.readBytes (st : DecodingState) (bytes : List Byte) : DecodingState × Nat :=
  let buf := st.kind.buffer
  let numBytes := min bytes.length (buf.length - st.offset)
  (⟨st.kind.setBuffer (memcpy buf st.offset ((bytes.take numBytes).map some)), st.offset + numBytes⟩, numBytes)

/-- What `DecodeVarInt32::ReadBytes` leaves: the state, the bytes it took, and whether the stream failed. -/
structure VarIntRead where
  v : VarInt32
  offset : Nat
  newBytes : Nat
  failed : Bool

/-- `DecodeVarInt32::ReadBytes`. -/
def VarInt32.readBytes (v : VarInt32) (offset : Nat) (bytes : List Byte) : Option VarIntRead := do
  let remaining := v.byteBuffer.length - offset
  let newBytes := min bytes.length remaining
  let byteBuffer := memcpy v.byteBuffer offset ((bytes.take newBytes).map some)
  let buf ← written (byteBuffer.take (offset + newBytes))
  let result ← readLeb .u32 buf 0
  let v := { v with byteBuffer := byteBuffer, value := result.value.toNat }
  if result.error.isSome then
    -- an error is only reported if all bytes were read
    return ⟨v, offset + newBytes, newBytes, decide (newBytes = remaining)⟩
  else
    -- what was read beyond the number is given back
    return ⟨{ v with bytesConsumed := result.length }, v.byteBuffer.length, result.length - offset, false⟩

/-- The fields of the decoder that decoding changes, and the calls made so far. -/
structure Decoding where
  ok : Bool
  state : Option DecodingState
  codeSectionProcessed : Bool
  moduleOffset : BitVec 32
  calls : List Call
  deriving DecidableEq, Repr

namespace Decoding

/-- `Fail`. -/
def fail (d : Decoding) : Decoding := { d with ok := false }

/-- `return nullptr`. -/
def noState (d : Decoding) : Decoding := { d with state := none }

def toErrorState (d : Decoding) : Decoding := d.fail.noState

def goTo (d : Decoding) (kind : StateKind) : Decoding := { d with state := some ⟨kind, 0⟩ }

/-- A call to the processor; its answer decides whether the stream fails. -/
def process (processor : Processor) (d : Decoding) (call : Call) : Decoding :=
  if d.ok then { d with calls := d.calls ++ [call], ok := processor (d.calls ++ [call]) } else d

def processSection (processor : Processor) (d : Decoding) (sb : SectionBuffer) : Option Decoding := do
  let sectionCode ← sb.sectionCode
  let payload ← written sb.payload
  return d.process processor (.processSection sectionCode payload (sb.moduleOffset + BitVec.ofNat 32 sb.payloadOffset))

/-- On to the next section, unless the processor made the stream fail. -/
def nextSection (d : Decoding) : Decoding :=
  if d.ok then d.goTo (.decodeSectionID (some 0#8) d.moduleOffset) else d.noState

variable (flags : Flags) (processor : Processor)

/-- `DecodeModuleHeader::Next`. -/
def nextModuleHeader (d : Decoding) (byteBuffer : Memory) : Option Decoding := do
  let bytes ← written byteBuffer
  return (d.process processor (.processModuleHeader bytes)).nextSection

/-- `DecodeSectionID::Next`. -/
def nextSectionID (d : Decoding) (id : Option Byte) (moduleOffset : BitVec 32) : Option Decoding := do
  let id ← id
  match SectionCode.ofByte id with
  | none => return d.toErrorState
  | some sectionCode =>
    if sectionCode = .codeSectionCode ∧ d.codeSectionProcessed then return d.toErrorState
    let d := if sectionCode = .codeSectionCode then { d with codeSectionProcessed := true } else d
    return d.goTo (.decodeSectionLength (.new (maxModuleSize flags)) id moduleOffset)

/-- `DecodeSectionLength::NextWithValue`. -/
def nextSectionLength (d : Decoding) (v : VarInt32) (sectionId : Byte) (moduleOffset : BitVec 32) : Option Decoding := do
  let buf := SectionBuffer.new moduleOffset sectionId v.value (v.byteBuffer.take v.bytesConsumed)
  let isCode := SectionCode.ofByte sectionId = some .codeSectionCode
  if v.value = 0 then
    if isCode then return d.toErrorState
    -- a section without payload is processed as well, and the next one follows immediately
    let d ← d.processSection processor buf
    return d.nextSection
  if isCode then return d.goTo (.decodeNumberOfFunctions (.new flags.maxWasmFunctions) buf)
  return d.goTo (.decodeSectionPayload buf)

/-- `DecodeSectionPayload::Next`. -/
def nextSectionPayload (d : Decoding) (sb : SectionBuffer) : Option Decoding := do
  let d ← d.processSection processor sb
  return d.nextSection

/-- `DecodeNumberOfFunctions::NextWithValue`. -/
def nextNumberOfFunctions (d : Decoding) (v : VarInt32) (sb : SectionBuffer) : Option Decoding := do
  let payloadSize := sb.payload.length
  if payloadSize < v.bytesConsumed then return d.toErrorState
  let sb := sb.write sb.payloadOffset (v.byteBuffer.take v.bytesConsumed)
  let codeSectionStart := toInt32 (sb.moduleOffset.toNat + sb.payloadOffset)
  let d := d.process processor
    (.processCodeSectionHeader (toInt32 v.value) (d.moduleOffset - 1) sb codeSectionStart (toInt32 payloadSize))
  if ¬ d.ok then return d.noState
  if v.value = 0 then
    if payloadSize ≠ v.bytesConsumed then return d.toErrorState
    return d.goTo (.decodeSectionID (some 0#8) d.moduleOffset)
  return d.goTo (.decodeFunctionLength (.new kV8MaxWasmFunctionSize) sb (sb.payloadOffset + v.bytesConsumed) (v.value - 1))

/-- `DecodeFunctionLength::NextWithValue`. -/
def nextFunctionLength (d : Decoding) (v : VarInt32) (sb : SectionBuffer) (bufferOffset numRemainingFunctions : Nat) :
    Option Decoding := do
  if sb.length < bufferOffset then none
  if sb.length - bufferOffset < v.bytesConsumed then return d.toErrorState
  let sb := sb.write bufferOffset (v.byteBuffer.take v.bytesConsumed)
  if v.value = 0 then return d.toErrorState
  if bufferOffset + v.bytesConsumed + v.value > sb.length then return d.toErrorState
  return d.goTo
    (.decodeFunctionBody sb (bufferOffset + v.bytesConsumed) v.value numRemainingFunctions d.moduleOffset)

/-- `DecodeFunctionBody::Next`. -/
def nextFunctionBody (d : Decoding) (sb : SectionBuffer) (bufferOffset functionBodyLength numRemainingFunctions : Nat)
    (moduleOffset : BitVec 32) : Option Decoding := do
  let bytes ← written ((sb.bytes.drop bufferOffset).take functionBodyLength)
  let d := d.process processor (.processFunctionBody bytes moduleOffset)
  if ¬ d.ok then return d.noState
  let endOffset := bufferOffset + functionBodyLength
  if numRemainingFunctions > 0 then
    return d.goTo (.decodeFunctionLength (.new kV8MaxWasmFunctionSize) sb endOffset (numRemainingFunctions - 1))
  -- that was the last function body
  if endOffset ≠ sb.length then return d.toErrorState
  return d.goTo (.decodeSectionID (some 0#8) d.moduleOffset)

/-- The check of `DecodeVarInt32::Next`, before `NextWithValue`. -/
def nextVarInt32 (d : Decoding) (v : VarInt32) (nextWithValue : Option Decoding) : Option Decoding :=
  if ¬ d.ok then some d.noState
  else if v.value > v.maxValue then some d.toErrorState
  else nextWithValue

/-- `Next`. -/
def next (d : Decoding) : StateKind → Option Decoding
  | .decodeModuleHeader byteBuffer => d.nextModuleHeader processor byteBuffer
  | .decodeSectionID id moduleOffset => d.nextSectionID flags id moduleOffset
  | .decodeSectionLength v sectionId moduleOffset =>
    d.nextVarInt32 v (d.nextSectionLength flags processor v sectionId moduleOffset)
  | .decodeSectionPayload sb => d.nextSectionPayload processor sb
  | .decodeNumberOfFunctions v sb => d.nextVarInt32 v (d.nextNumberOfFunctions processor v sb)
  | .decodeFunctionLength v sb bufferOffset n => d.nextVarInt32 v (d.nextFunctionLength v sb bufferOffset n)
  | .decodeFunctionBody sb bufferOffset length n moduleOffset =>
    d.nextFunctionBody processor sb bufferOffset length n moduleOffset

/-- The state once it has read from the bytes, how many it took, and whether the stream failed. -/
def readBytes (st : DecodingState) (bytes : List Byte) : Option (DecodingState × Nat × Bool) :=
  match st.kind.varInt32 with
  | some v => do
    let r ← v.readBytes st.offset bytes
    return (⟨st.kind.setVarInt32 r.v, r.offset⟩, r.newBytes, r.failed)
  | none => let (st, numBytes) := st.readBytes bytes; some (st, numBytes, false)

/-- The body of the loop of `OnBytesReceived`. The state is handed to `Next`, which replaces it in any case. -/
def step (d : Decoding) (bytes : List Byte) : Option (Decoding × Nat) := do
  let st ← d.state
  let (st, numBytes, failed) ← readBytes st bytes
  let d := if failed then d.fail else d
  let d := { d with state := none, moduleOffset := d.moduleOffset + BitVec.ofNat 32 numBytes }
  if st.offset = st.kind.buffer.length then return (← d.next flags processor st.kind, numBytes)
  return ({ d with state := some st }, numBytes)

end Decoding

/-- A `std::vector<uint8_t>`. -/
structure WireVector where
  bytes : List Byte
  capacity : Nat
  fits : bytes.length ≤ capacity

/-- `insert` at the end. When the vector has to grow, the library chooses the capacity. -/
def WireVector.insert (grow : Nat → Nat → Nat) (v : WireVector) (bytes : List Byte) : WireVector :=
  let size := v.bytes.length + bytes.length
  { bytes := v.bytes ++ bytes
    capacity := if size ≤ v.capacity then v.capacity else max size (grow v.capacity size)
    fits := by
      rw [List.length_append]
      split
      · assumption
      · exact Nat.le_max_left _ _ }

/-- An empty vector after `reserve`. -/
def WireVector.reserved (grow : Nat → Nat → Nat) (capacity : Nat) : WireVector :=
  ⟨[], max capacity (grow 0 capacity), Nat.zero_le _⟩

/-- `full_wire_bytes_`, of which the last vector is filled. -/
structure FullWireBytes where
  front : List WireVector
  back : WireVector

def FullWireBytes.new : FullWireBytes := ⟨[], ⟨[], 0, Nat.zero_le _⟩⟩

/-- The beginning of `OnBytesReceived`: the bytes are stored. -/
def FullWireBytes.store (grow : Nat → Nat → Nat) (w : FullWireBytes) (bytes : List Byte) : FullWireBytes :=
  let remainingCapacity := max w.back.capacity (16 * 1024) - w.back.bytes.length
  let bytesForExistingVector := min remainingCapacity bytes.length
  let back := w.back.insert grow (bytes.take bytesForExistingVector)
  if bytes.length > bytesForExistingVector then
    let newCapacity := max (bytes.length - bytesForExistingVector) (2 * back.capacity)
    ⟨w.front ++ [back], (WireVector.reserved grow newCapacity).insert grow (bytes.drop bytesForExistingVector)⟩
  else ⟨w.front, back⟩

/-- The copy of all bytes that `Finish` makes. -/
def FullWireBytes.copy (w : FullWireBytes) : List Byte :=
  if w.back.bytes ≠ [] then ((w.front ++ [w.back]).map WireVector.bytes).flatten else []

structure AsyncStreamingDecoder extends Decoding where
  fullWireBytes : FullWireBytes
  /-- The number of calls of `OnFinishedChunk`. -/
  finishedChunks : Nat

namespace AsyncStreamingDecoder

/-- A module always starts with a module header, of eight bytes. -/
def new : AsyncStreamingDecoder where
  ok := true
  state := some ⟨.decodeModuleHeader (List.replicate 8 none), 0⟩
  codeSectionProcessed := false
  moduleOffset := 0
  calls := []
  fullWireBytes := .new
  finishedChunks := 0

variable (flags : Flags) (processor : Processor) (grow : Nat → Nat → Nat)

def onBytesReceived (d : AsyncStreamingDecoder) (bytes : List Byte) : Option AsyncStreamingDecoder := do
  let fullWireBytes := d.fullWireBytes.store grow bytes
  let decoding ← Chunks.drive Decoding.ok (Decoding.step flags processor) bytes.length d.toDecoding bytes
  return ⟨decoding, fullWireBytes, if decoding.ok then d.finishedChunks + 1 else d.finishedChunks⟩

/-- What the processor has received at the end of the stream: the calls, and the arguments of `OnFinishedStream`. -/
structure Finished where
  calls : List Call
  bytes : List Byte
  afterError : Bool
  deriving DecidableEq, Repr

def finish (d : AsyncStreamingDecoder) : Option Finished := do
  let bytesCopy := d.fullWireBytes.copy
  let ok ← (if d.ok then d.state.map fun st => st.kind.isFinishingAllowed else some false)
  return ⟨d.calls, bytesCopy, !ok⟩

/-- A whole stream, received in chunks. -/
def stream (chunks : List (List Byte)) : Option Finished := do
  let d ← chunks.foldlM (onBytesReceived flags processor grow) new
  d.finish

end AsyncStreamingDecoder

end V8Core.Wasm.Streaming
