import PutValidator.Sdk.Ids
import PutValidator.Sdk.VersionedTransaction

/-! Signature verification of packets (`perf/src/sigverify.rs`). The verifier never decodes a
transaction: `do_get_packet_offsets` reads, from the raw bytes of a packet, where the signatures,
the message and the account keys start, with checked arithmetic and an error for every read that
falls outside the packet, and `verify_packet` then checks the signatures against the keys in
lockstep. The theorems compare those offsets with the transaction that the `Wire` codec reads
from the same bytes, and conclude that a packet that passes verification carries a transaction
whose every signature verifies. The signature check itself is a parameter. -/
namespace PutValidator

open Lib.Word Lib.Except Lib.Codec

/-- `PACKET_DATA_SIZE`. -/
def packetDataSize : Nat := 1280 - 40 - 8

/-- `Meta`: the size of the payload and the `DISCARD` and `SIMPLE_VOTE_TX` flags; the address
and the other flags are not read here. -/
structure Meta where
  size : Nat
  discard : Bool
  simpleVoteTx : Bool
deriving DecidableEq, Repr

/-- `Packet`; its `meta` is the field `packetMeta`. -/
structure Packet where
  buffer : Vector UInt8 packetDataSize
  packetMeta : Meta
deriving DecidableEq, Repr

namespace Packet

/-- `data(..)`: the first `meta.size` bytes of the buffer, and nothing for a discarded packet. -/
def payload (packet : Packet) : Option (List UInt8) :=
  if packet.packetMeta.discard then none
  else if packet.packetMeta.size ≤ packetDataSize then
    some (packet.buffer.toList.take packet.packetMeta.size)
  else none

/-- `data(index)`. -/
def dataAt (packet : Packet) (index : Nat) : Option UInt8 :=
  packet.payload.bind (·[index]?)

/-- `data(start..)`. -/
def dataFrom (packet : Packet) (start : Nat) : Option (List UInt8) :=
  packet.payload.bind fun bytes => if start ≤ bytes.length then some (bytes.drop start) else none

/-- `data(start..stop)`. -/
def dataRange (packet : Packet) (start stop : Nat) : Option (List UInt8) :=
  packet.payload.bind fun bytes =>
    if start ≤ stop ∧ stop ≤ bytes.length then some ((bytes.drop start).take (stop - start))
    else none

/-- `populate_packet` with the serialized data: the bytes at the front of a zeroed buffer. -/
def populate (data : List UInt8) : Option Packet :=
  if h : data.length ≤ packetDataSize then
    some ⟨⟨(data ++ List.replicate (packetDataSize - data.length) 0).toArray, by simp; omega⟩,
      ⟨data.length, false, false⟩⟩
  else none

variable {packet : Packet} {bytes : List UInt8}

theorem payload_eq_some : packet.payload = some bytes ↔
    packet.packetMeta.discard = false ∧ packet.packetMeta.size ≤ packetDataSize ∧
      bytes = packet.buffer.toList.take packet.packetMeta.size := by
  unfold payload
  split_ifs with hDiscard hSize
  · simp [hDiscard]
  · simp only [hDiscard, hSize, Option.some.injEq, true_and]
    exact eq_comm
  · simp [hSize]

theorem length_of_payload (h : packet.payload = some bytes) :
    bytes.length = packet.packetMeta.size := by
  obtain ⟨-, hSize, rfl⟩ := payload_eq_some.mp h
  simpa using hSize

section OfPayload

variable (hPayload : packet.payload = some bytes)
include hPayload

theorem dataAt_of_payload (index : Nat) : packet.dataAt index = bytes[index]? := by
  rw [dataAt, hPayload]
  rfl

theorem dataFrom_of_payload (start : Nat) :
    packet.dataFrom start = if start ≤ bytes.length then some (bytes.drop start) else none := by
  rw [dataFrom, hPayload]
  rfl

theorem dataRange_of_payload (start stop : Nat) :
    packet.dataRange start stop = if start ≤ stop ∧ stop ≤ bytes.length then
      some ((bytes.drop start).take (stop - start)) else none := by
  rw [dataRange, hPayload]
  rfl

end OfPayload

theorem dataFrom_eq_some {start : Nat} {r : List UInt8} (h : packet.dataFrom start = some r) :
    ∃ bytes, packet.payload = some bytes ∧ start ≤ bytes.length ∧ r = bytes.drop start := by
  simp only [dataFrom, Option.bind_eq_some_iff] at h
  obtain ⟨bytes, hPayload, hFrom⟩ := h
  split_ifs at hFrom with hStart
  cases hFrom
  exact ⟨bytes, hPayload, hStart, rfl⟩

theorem dataRange_eq_some {start stop : Nat} {r : List UInt8}
    (h : packet.dataRange start stop = some r) :
    ∃ bytes, packet.payload = some bytes ∧ start ≤ stop ∧ stop ≤ bytes.length ∧
      r = (bytes.drop start).take (stop - start) := by
  simp only [dataRange, Option.bind_eq_some_iff] at h
  obtain ⟨bytes, hPayload, hRange⟩ := h
  split_ifs at hRange with hBounds
  cases hRange
  exact ⟨bytes, hPayload, hBounds.1, hBounds.2, rfl⟩

end Packet

/-- `PacketOffsets`, each field a `u32`. -/
structure PacketOffsets where
  sigLen : Nat
  sigStart : Nat
  msgStart : Nat
  pubkeyStart : Nat
  pubkeyLen : Nat
deriving DecidableEq, Repr

inductive PacketError
  | invalidLen
  | invalidPubkeyLen
  | invalidShortVec
  | invalidSignatureLen
  | mismatchSignatureLen
  | payerNotWritable
  | invalidProgramIdIndex
  | invalidProgramLen
  | unsupportedVersion
deriving DecidableEq, Repr

/-- `size_of::<Signature>()`, `size_of::<Pubkey>()` and `size_of::<Hash>()`. -/
def sizeOfSignature : Nat := 64
def sizeOfPubkey : Nat := 32
def sizeOfHash : Nat := 32

/-- `u32::try_from(x)?`, its error read as `InvalidLen`. -/
def u32TryFrom (x : Nat) : Except PacketError Nat :=
  if x ≤ maxValue 32 then .ok x else .error .invalidLen

/-- `Signature::try_from(&[u8])`: a slice of exactly 64 bytes. -/
def signatureTryFrom (bytes : List UInt8) : Option Signature :=
  if h : bytes.length = 64 then some ⟨⟨bytes.toArray, by simpa using h⟩⟩ else none

/-- The block of `do_get_packet_offsets` that finds the message header: right after the prefix
byte of a version-0 message, and at the first byte of a legacy one. -/
def msgHeaderOffsetOf (packet : Packet) (msgStartOffset : Nat) : Except PacketError Nat := do
  failIf (packet.packetMeta.size ≤ msgStartOffset) .invalidSignatureLen
  let messagePrefix ← okOr (packet.dataAt msgStartOffset) .invalidSignatureLen
  if messagePrefix &&& messageVersionPrefix ≠ 0 then
    if messagePrefix &&& ~~~messageVersionPrefix = 0 then
      okOr (checkedAdd 64 msgStartOffset 1) .invalidLen
    else .error .unsupportedVersion
  else pure msgStartOffset

@[simp] theorem u32TryFrom_eq_ok {x y : Nat} : u32TryFrom x = .ok y ↔ x ≤ maxValue 32 ∧ x = y := by
  unfold u32TryFrom
  split <;> simp_all

/-- The header follows the prefix byte of a version-0 message and starts a legacy one. -/
theorem msgHeaderOffsetOf_eq_ok {packet : Packet} {bytes : List UInt8}
    (hPayload : packet.payload = some bytes) {msgStartOffset msgHeaderOffset : Nat}
    (h : msgHeaderOffsetOf packet msgStartOffset = .ok msgHeaderOffset) :
    msgStartOffset < bytes.length ∧
      (msgHeaderOffset = msgStartOffset ∧ (∃ b, bytes[msgStartOffset]? = some b ∧ b.toNat < 128) ∨
        msgHeaderOffset = msgStartOffset + 1 ∧ bytes[msgStartOffset]? = some messageVersionPrefix) := by
  simp only [msgHeaderOffsetOf, bind_eq_ok, failIf_eq_ok, okOr_eq_ok,
    Packet.dataAt_of_payload hPayload] at h
  obtain ⟨-, hFits, b, hb, hRest⟩ := h
  refine ⟨by rw [Packet.length_of_payload hPayload]; omega, ?_⟩
  split_ifs at hRest with hPrefix hVersion
  · rw [okOr_eq_ok, checkedAdd_eq_some] at hRest
    exact .inr ⟨hRest.2.symm, by rw [hb, Wire.eq_prefix_of_version_zero hPrefix hVersion]⟩
  · exact .inl ⟨(pure_eq_ok.mp hRest).symm, b, hb, (Wire.prefix_and_eq_zero_iff b).mp (not_not.mp hPrefix)⟩

/-- `do_get_packet_offsets`: where the signatures, the message and the account keys of the
transaction in a packet start, read from its bytes, each offset moved by `current_offset`. -/
def doGetPacketOffsets (packet : Packet) (currentOffset : Nat) :
    Except PacketError PacketOffsets := do
  let _ ← okOr ((checkedAdd 64 1 sizeOfSignature).filter (· ≤ packet.packetMeta.size)) .invalidLen
  let (sigLenUntrusted, sigSize) ← okOr (packet.payload.bind decodeShortu16Len) .invalidShortVec
  let msgStartOffset ← okOr ((checkedMul 64 sigLenUntrusted sizeOfSignature).bind
    (checkedAdd 64 · sigSize)) .invalidLen
  let msgHeaderOffset ← msgHeaderOffsetOf packet msgStartOffset
  let msgHeaderOffsetPlusOne ← okOr (checkedAdd 64 msgHeaderOffset 1) .invalidLen
  let _ ← okOr ((checkedAdd 64 msgHeaderOffsetPlusOne messageHeaderLength).filter
    (· ≤ packet.packetMeta.size)) .invalidSignatureLen
  let sigLenMaybeTrusted ← okOr (packet.dataAt msgHeaderOffset) .invalidSignatureLen
  let messageAccountKeysLenOffset ← okOr (checkedAdd 64 msgHeaderOffset messageHeaderLength)
    .invalidSignatureLen
  let readonlySignerOffset := msgHeaderOffsetPlusOne
  let readonlySigners ← okOr (packet.dataAt readonlySignerOffset) .invalidSignatureLen
  failIf (sigLenMaybeTrusted ≤ readonlySigners) .payerNotWritable
  failIf (sigLenMaybeTrusted.toNat ≠ sigLenUntrusted) .mismatchSignatureLen
  let (pubkeyLen, pubkeyLenSize) ←
    okOr ((packet.dataFrom messageAccountKeysLenOffset).bind decodeShortu16Len) .invalidShortVec
  let pubkeyStart ← okOr (checkedAdd 64 messageAccountKeysLenOffset pubkeyLenSize)
    .invalidPubkeyLen
  let _ ← okOr (((checkedMul 64 pubkeyLen sizeOfPubkey).bind (checkedAdd 64 · pubkeyStart)).filter
    (· ≤ packet.packetMeta.size)) .invalidPubkeyLen
  failIf (pubkeyLen < sigLenUntrusted) .invalidPubkeyLen
  let sigStart ← okOr (checkedAdd 64 currentOffset sigSize) .invalidLen
  let msgStart ← okOr (checkedAdd 64 currentOffset msgStartOffset) .invalidLen
  let pubkeyStart ← okOr (checkedAdd 64 currentOffset pubkeyStart) .invalidLen
  return ⟨← u32TryFrom sigLenUntrusted, ← u32TryFrom sigStart, ← u32TryFrom msgStart,
    ← u32TryFrom pubkeyStart, ← u32TryFrom pubkeyLen⟩

/-- What `do_get_packet_offsets` has read when it returns `o`: the payload, the signature count
at its front and the header that repeats it, a payer that is not read-only, the count of account
keys behind the header, and the keys inside the packet and at least as many as the
signatures. -/
theorem doGetPacketOffsets_eq_ok {packet : Packet} {currentOffset : Nat} {o : PacketOffsets}
    (h : doGetPacketOffsets packet currentOffset = .ok o) :
    ∃ bytes sigSize msgHeaderOffset pubkeyLenSize numRequired numReadonly,
      packet.payload = some bytes ∧
      decodeShortu16Len bytes = some (o.sigLen, sigSize) ∧
      o.sigStart = currentOffset + sigSize ∧
      o.msgStart = currentOffset + (o.sigLen * 64 + sigSize) ∧
      msgHeaderOffsetOf packet (o.sigLen * 64 + sigSize) = .ok msgHeaderOffset ∧
      msgHeaderOffset + 4 ≤ bytes.length ∧
      bytes[msgHeaderOffset]? = some numRequired ∧ bytes[msgHeaderOffset + 1]? = some numReadonly ∧
      numReadonly.toNat < numRequired.toNat ∧ numRequired.toNat = o.sigLen ∧
      decodeShortu16Len (bytes.drop (msgHeaderOffset + 3)) = some (o.pubkeyLen, pubkeyLenSize) ∧
      o.pubkeyStart = currentOffset + (msgHeaderOffset + 3 + pubkeyLenSize) ∧
      o.pubkeyLen * 32 + (msgHeaderOffset + 3 + pubkeyLenSize) ≤ bytes.length ∧
      o.sigLen ≤ o.pubkeyLen := by
  simp only [doGetPacketOffsets, bind_eq_ok, okOr_eq_ok, failIf_eq_ok, pure_eq_ok,
    Option.bind_eq_some_iff, Option.filter_eq_some_iff, checkedAdd_eq_some, checkedMul_eq_some,
    u32TryFrom_eq_ok, decide_eq_true_eq] at h
  -- the reads in the order of the source, a few at a time
  obtain ⟨_, -, ⟨sigLen, sigSize⟩, ⟨bytes, hPayload, hSigLen⟩, _, ⟨_, ⟨-, rfl⟩, -, rfl⟩, h⟩ := h
  obtain ⟨msgHeaderOffset, hHeader, _, ⟨-, rfl⟩, _, ⟨⟨-, rfl⟩, hHeaderFits⟩, numRequired,
    hNumRequired, h⟩ := h
  obtain ⟨_, ⟨-, rfl⟩, numReadonly, hNumReadonly, _, hPayer, _, hMismatch, h⟩ := h
  obtain ⟨⟨pubkeyLen, pubkeyLenSize⟩, ⟨keys, hKeysFrom, hPubkeyLen⟩, _, ⟨-, rfl⟩, _,
    ⟨⟨_, ⟨-, rfl⟩, -, rfl⟩, hKeysFit⟩, _, hEnough, h⟩ := h
  obtain ⟨_, ⟨-, rfl⟩, _, ⟨-, rfl⟩, _, ⟨-, rfl⟩, h⟩ := h
  obtain ⟨_, ⟨-, rfl⟩, _, ⟨-, rfl⟩, _, ⟨-, rfl⟩, _, ⟨-, rfl⟩, _, ⟨-, rfl⟩, rfl⟩ := h
  have hLength := Packet.length_of_payload hPayload
  rw [Packet.dataAt_of_payload hPayload] at hNumRequired hNumReadonly
  rw [Packet.dataFrom_of_payload hPayload] at hKeysFrom
  split_ifs at hKeysFrom with hKeysStart
  cases hKeysFrom
  simp only [messageHeaderLength, sizeOfSignature, sizeOfPubkey] at *
  refine ⟨bytes, sigSize, msgHeaderOffset, pubkeyLenSize, numRequired, numReadonly, hPayload,
    hSigLen, rfl, rfl, hHeader, by omega, hNumRequired, hNumReadonly, ?_, ?_, hPubkeyLen, rfl,
    by omega, by omega⟩
  · simpa [UInt8.le_iff_toNat_le] using hPayer
  · simpa using hMismatch

/-- The offsets that `do_get_packet_offsets` returns at offset `0`: at least one signature, the
message right after the signatures and inside the packet, the keys inside the packet and at least
as many as the signatures. -/
theorem doGetPacketOffsets_bounds {packet : Packet} {o : PacketOffsets}
    (h : doGetPacketOffsets packet 0 = .ok o) :
    1 ≤ o.sigLen ∧ o.msgStart = o.sigStart + 64 * o.sigLen ∧ o.msgStart < packet.packetMeta.size ∧
      o.pubkeyStart + 32 * o.pubkeyLen ≤ packet.packetMeta.size ∧ o.sigLen ≤ o.pubkeyLen := by
  obtain ⟨bytes, sigSize, msgHeaderOffset, pubkeyLenSize, numRequired, numReadonly, hPayload, -,
    hSigStart, hMsgStart, hHeader, -, -, -, hPayer, hRequired, -, hPubkeyStart, hKeysFit,
    hEnough⟩ := doGetPacketOffsets_eq_ok h
  have hLength := Packet.length_of_payload hPayload
  have hMsgFits := (msgHeaderOffsetOf_eq_ok hPayload hHeader).1
  omega

/-! ### The offsets of a transaction that the codec reads -/

/-- The header that the offsets point at is the message's: after the prefix byte of a versioned
message, at the first byte of a legacy one. -/
theorem drop_msgHeaderOffset {bytes : List UInt8} {msgStart msgHeaderOffset : Nat}
    {versionPrefix rest : List UInt8} {numRequired : UInt8}
    (hMessage : bytes.drop msgStart = versionPrefix ++ numRequired :: rest)
    (hPrefix : versionPrefix = [] ∧ numRequired.toNat < 128 ∨
      versionPrefix = [messageVersionPrefix])
    (hHeader : msgHeaderOffset = msgStart ∧ (∃ b, bytes[msgStart]? = some b ∧ b.toNat < 128) ∨
      msgHeaderOffset = msgStart + 1 ∧ bytes[msgStart]? = some messageVersionPrefix) :
    bytes.drop msgHeaderOffset = numRequired :: rest := by
  have hFirst : bytes[msgStart]? = (versionPrefix ++ numRequired :: rest)[0]? := by
    rw [← hMessage, List.getElem?_drop, Nat.add_zero]
  rcases hPrefix with ⟨rfl, hLegacy⟩ | rfl <;>
    rcases hHeader with ⟨rfl, b, hb, hSmall⟩ | ⟨rfl, hb⟩
  · exact hMessage
  · -- the first byte of a legacy header has its top bit clear
    rw [hb] at hFirst
    cases hFirst
    exact absurd hLegacy (by decide)
  · -- the first byte of a versioned message is the prefix
    rw [hb] at hFirst
    cases hFirst
    exact absurd hSmall (by decide)
  · rw [← List.drop_drop, hMessage]
    rfl

/-- Behind the header that the offsets point at, the count of static keys and the keys. -/
theorem drop_pubkeyStart_of_header {bytes : List UInt8} {m : VersionedMessage}
    {msgStart msgHeaderOffset pubkeyLen pubkeyLenSize : Nat}
    (hm : Wire.versionedMessage.Canonical m)
    (hMessage : bytes.drop msgStart = Wire.versionedMessage.encode m)
    (hHeader : msgHeaderOffset = msgStart ∧ (∃ b, bytes[msgStart]? = some b ∧ b.toNat < 128) ∨
      msgHeaderOffset = msgStart + 1 ∧ bytes[msgStart]? = some messageVersionPrefix)
    (hKeys : decodeShortu16Len (bytes.drop (msgHeaderOffset + 3)) = some (pubkeyLen, pubkeyLenSize)) :
    pubkeyLen = m.staticAccountKeys.length ∧ ∃ tail,
      bytes.drop (msgHeaderOffset + 3 + pubkeyLenSize) =
        m.staticAccountKeys.flatMap (·.bytes.toList) ++ tail := by
  obtain ⟨hKeyCount, versionPrefix, tail, hEncode, hPrefix⟩ :=
    Wire.versionedMessage_encode_header hm
  rw [hEncode] at hMessage
  simp only [List.append_assoc, List.cons_append, List.nil_append] at hMessage
  have hAtHeader := drop_msgHeaderOffset hMessage hPrefix hHeader
  have hAtKeys : bytes.drop (msgHeaderOffset + 3) = encodeShortU16 m.staticAccountKeys.length ++
      (m.staticAccountKeys.flatMap (·.bytes.toList) ++ tail) := by
    rw [← List.drop_drop, hAtHeader]
    rfl
  rw [hAtKeys, decodeShortu16Len_encode hKeyCount] at hKeys
  obtain ⟨rfl, rfl⟩ := Prod.mk.inj (Option.some.inj hKeys)
  refine ⟨rfl, tail, ?_⟩
  rw [← List.drop_drop, hAtKeys, List.drop_left' rfl]

/-- On the bytes of a transaction that the codec reads back to their end, the offsets are those
of its layout: the signatures right after their count, the message after the signatures, and the
static keys after the header of the message and their count. -/
theorem doGetPacketOffsets_of_decode {packet : Packet} {o : PacketOffsets}
    {tx : VersionedTransaction} (hOffsets : doGetPacketOffsets packet 0 = .ok o)
    (hDecode : Wire.versionedTransaction.decode
      (packet.buffer.toList.take packet.packetMeta.size) = some (tx, [])) :
    ∃ bytes, packet.payload = some bytes ∧ o.sigLen = tx.signatures.length ∧
      o.pubkeyLen = tx.message.staticAccountKeys.length ∧
      bytes.drop o.sigStart =
        tx.signatures.flatMap (·.bytes.toList) ++ Wire.versionedMessage.encode tx.message ∧
      bytes.drop o.msgStart = Wire.versionedMessage.encode tx.message ∧
      ∃ tail, bytes.drop o.pubkeyStart =
        tx.message.staticAccountKeys.flatMap (·.bytes.toList) ++ tail := by
  obtain ⟨bytes, sigSize, msgHeaderOffset, pubkeyLenSize, -, -, hPayload, hSigLen, hSigStart,
    hMsgStart, hHeader, -, -, -, -, -, hKeys, hPubkeyStart, -, -⟩ := doGetPacketOffsets_eq_ok hOffsets
  rw [← (Packet.payload_eq_some.mp hPayload).2.2] at hDecode
  obtain ⟨⟨⟨hSigCount, -⟩, hm⟩, hEncode⟩ := Wire.versionedTransaction.decode_sound hDecode
  rw [List.append_nil, Wire.versionedTransaction_encode, List.append_assoc] at hEncode
  -- the count of signatures is read back from its short-vec
  rw [hEncode, decodeShortu16Len_encode hSigCount] at hSigLen
  obtain ⟨hCount, hSigSize⟩ := Prod.mk.inj (Option.some.inj hSigLen)
  have hSignatures : (tx.signatures.flatMap (·.bytes.toList)).length = 64 * o.sigLen := by
    rw [length_flatMap_of_length_eq (fun _ => Vector.length_toList), hCount]
  have hAtSignatures : bytes.drop sigSize =
      tx.signatures.flatMap (·.bytes.toList) ++ Wire.versionedMessage.encode tx.message := by
    rw [hEncode, List.drop_left' hSigSize]
  have hAtMessage : bytes.drop o.msgStart = Wire.versionedMessage.encode tx.message := by
    rw [hMsgStart, Nat.zero_add, show o.sigLen * 64 + sigSize = sigSize + 64 * o.sigLen by omega,
      ← List.drop_drop, hAtSignatures, List.drop_left' hSignatures]
  have hMsgHeader := (msgHeaderOffsetOf_eq_ok hPayload hHeader).2
  rw [← Nat.zero_add (o.sigLen * 64 + _), ← hMsgStart] at hMsgHeader
  obtain ⟨hPubkeyLen, tail, hAtKeys⟩ := drop_pubkeyStart_of_header hm hAtMessage hMsgHeader hKeys
  refine ⟨bytes, hPayload, hCount.symm, hPubkeyLen, ?_, hAtMessage, tail, ?_⟩
  · rw [hSigStart, Nat.zero_add, hAtSignatures]
  · rw [hPubkeyStart, Nat.zero_add, hAtKeys]

/-- `check_for_simple_vote_transaction`: the packet with `SIMPLE_VOTE_TX` set when it holds a
legacy transaction of one or two signatures and one instruction, of the vote program. -/
def checkForSimpleVoteTransaction (packet : Packet) (packetOffsets : PacketOffsets)
    (currentOffset : Nat) : Except PacketError Packet := do
  failIf (2 < packetOffsets.sigLen) .invalidSignatureLen
  let msgStart ← okOr (checkedSub packetOffsets.msgStart currentOffset) .invalidLen
  let messagePrefix ← okOr (packet.dataAt msgStart) .invalidLen
  if messagePrefix &&& messageVersionPrefix ≠ 0 then
    return packet
  let pubkeyStart ← okOr (checkedSub packetOffsets.pubkeyStart currentOffset) .invalidLen
  let instructionsLenOffset ← okOr (((checkedMul 64 packetOffsets.pubkeyLen sizeOfPubkey).bind
    (checkedAdd 64 · pubkeyStart)).bind (checkedAdd 64 · sizeOfHash)) .invalidLen
  let _ ← okOr ((checkedAdd 64 instructionsLenOffset 1).filter (· ≤ packet.packetMeta.size))
    .invalidLen
  let (instructionLen, instructionLenSize) ←
    okOr ((packet.dataFrom instructionsLenOffset).bind decodeShortu16Len) .invalidLen
  failIf (instructionLen ≠ 1) .invalidProgramLen
  let instructionStart ← okOr (checkedAdd 64 instructionsLenOffset instructionLenSize) .invalidLen
  let _ ← okOr ((checkedAdd 64 instructionStart 1).filter (· ≤ packet.packetMeta.size))
    .invalidLen
  let instructionProgramIdIndex := (← okOr (packet.dataAt instructionStart) .invalidLen).toNat
  failIf (packetOffsets.pubkeyLen ≤ instructionProgramIdIndex) .invalidProgramIdIndex
  let instructionProgramIdStart ← okOr ((checkedMul 64 instructionProgramIdIndex sizeOfPubkey).bind
    (checkedAdd 64 · pubkeyStart)) .invalidLen
  let instructionProgramIdEnd ← okOr (checkedAdd 64 instructionProgramIdStart sizeOfPubkey)
    .invalidLen
  let programId ← okOr (packet.dataRange instructionProgramIdStart instructionProgramIdEnd)
    .invalidLen
  if programId = voteProgramId.bytes.toList then
    return { packet with packetMeta := { packet.packetMeta with simpleVoteTx := true } }
  return packet

/-- `check_for_simple_vote_transaction` sets at most the `SIMPLE_VOTE_TX` flag. -/
theorem checkForSimpleVoteTransaction_eq_ok {packet packet' : Packet}
    {packetOffsets : PacketOffsets} {currentOffset : Nat}
    (h : checkForSimpleVoteTransaction packet packetOffsets currentOffset = .ok packet') :
    packet' = packet ∨
      packet' = { packet with packetMeta := { packet.packetMeta with simpleVoteTx := true } } := by
  simp only [checkForSimpleVoteTransaction, bind_eq_ok, okOr_eq_ok, failIf_eq_ok] at h
  obtain ⟨_, -, _, -, _, -, hRest⟩ := h
  -- a versioned message returns early, before any read of the instruction
  split_ifs at hRest
  · exact .inl (pure_eq_ok.mp hRest).symm
  · simp only [bind_eq_ok, okOr_eq_ok, failIf_eq_ok] at hRest
    obtain ⟨_, -, _, -, _, -, _, -, _, -, _, -, _, -, _, -, _, -, _, -, _, -, _, -, hLast⟩ := hRest
    split_ifs at hLast
    · exact .inr (pure_eq_ok.mp hLast).symm
    · exact .inl (pure_eq_ok.mp hLast).symm

/-- `get_packet_offsets`: the offsets, with the packet as the vote check leaves it; all zero when
the offsets cannot be read, or when only vote transactions are let through and this is not
one. -/
def getPacketOffsets (packet : Packet) (currentOffset : Nat) (rejectNonVote : Bool) :
    PacketOffsets × Packet :=
  match doGetPacketOffsets packet currentOffset with
  | .ok offsets =>
      let packet := match checkForSimpleVoteTransaction packet offsets currentOffset with
        | .ok packet' => packet'
        | .error _ => packet
      if !rejectNonVote || packet.packetMeta.simpleVoteTx then (offsets, packet)
      else (⟨0, 0, 0, 0, 0⟩, packet)
  | .error _ => (⟨0, 0, 0, 0, 0⟩, packet)

/-- `get_packet_offsets` leaves the payload as it was. -/
theorem payload_getPacketOffsets (packet : Packet) (currentOffset : Nat) (rejectNonVote : Bool) :
    (getPacketOffsets packet currentOffset rejectNonVote).2.payload = packet.payload := by
  cases hOffsets : doGetPacketOffsets packet currentOffset with
  | error e => simp only [getPacketOffsets, hOffsets]
  | ok offsets =>
      cases hVote : checkForSimpleVoteTransaction packet offsets currentOffset with
      | error e =>
          simp only [getPacketOffsets, hOffsets, hVote]
          split_ifs <;> rfl
      | ok packet' =>
          simp only [getPacketOffsets, hOffsets, hVote]
          rcases checkForSimpleVoteTransaction_eq_ok hVote with rfl | rfl <;> split_ifs <;> rfl

/-- Offsets with a signature come from `do_get_packet_offsets`; the zeros it falls back to have
none. -/
theorem doGetPacketOffsets_of_getPacketOffsets {packet : Packet} {currentOffset : Nat}
    {rejectNonVote : Bool} (h : (getPacketOffsets packet currentOffset rejectNonVote).1.sigLen ≠ 0) :
    doGetPacketOffsets packet currentOffset =
      .ok (getPacketOffsets packet currentOffset rejectNonVote).1 := by
  cases hOffsets : doGetPacketOffsets packet currentOffset with
  | error e => simp [getPacketOffsets, hOffsets] at h
  | ok offsets =>
      simp only [getPacketOffsets, hOffsets] at h ⊢
      split_ifs at h ⊢
      · rfl
      · exact absurd rfl h

section Verify

-- `signature.verify(pubkey, message)`, the ed25519 check
variable (verify : Signature → List UInt8 → List UInt8 → Bool)

/-- The loop of `verify_packet`: `count` more signatures, the next at `sigStart` and its key at
`pubkeyStart`, each checked against the message from `msgStart` to the end of the packet. -/
def verifySignatures (packet : Packet) (msgStart : Nat) : Nat → Nat → Nat → Bool
  | 0, _, _ => true
  | count + 1, sigStart, pubkeyStart =>
      let pubkeyEnd := saturatingAdd 64 pubkeyStart sizeOfPubkey
      match checkedAdd 64 sigStart sizeOfSignature with
      | none => false
      | some sigEnd =>
          match (packet.dataRange sigStart sigEnd).bind signatureTryFrom,
            packet.dataRange pubkeyStart pubkeyEnd, packet.dataFrom msgStart with
          | some signature, some pubkey, some message =>
              verify signature pubkey message &&
                verifySignatures packet msgStart count sigEnd pubkeyEnd
          | _, _, _ => false

/-- `verify_packet`: whether every signature of the packet verifies, with the packet as
`get_packet_offsets` leaves it. -/
def verifyPacket (packet : Packet) (rejectNonVote : Bool) : Bool × Packet :=
  if packet.packetMeta.discard then (false, packet)
  else
    let (packetOffsets, packet) := getPacketOffsets packet 0 rejectNonVote
    if packetOffsets.sigLen = 0 then (false, packet)
    else if packet.packetMeta.size ≤ packetOffsets.msgStart then (false, packet)
    else (verifySignatures verify packet packetOffsets.msgStart packetOffsets.sigLen
      packetOffsets.sigStart packetOffsets.pubkeyStart, packet)

variable {verify}

/-- One turn of the loop: the first signature and its key lie inside the payload and verify, and
the loop goes on 64 and 32 bytes further. -/
theorem verifySignatures_succ_eq_true {packet : Packet} {msgStart count sigStart pubkeyStart : Nat}
    (h : verifySignatures verify packet msgStart (count + 1) sigStart pubkeyStart = true) :
    ∃ bytes signature, packet.payload = some bytes ∧ sigStart + 64 ≤ bytes.length ∧
      pubkeyStart + 32 ≤ bytes.length ∧ msgStart ≤ bytes.length ∧
      signatureTryFrom ((bytes.drop sigStart).take 64) = some signature ∧
      verify signature ((bytes.drop pubkeyStart).take 32) (bytes.drop msgStart) = true ∧
      verifySignatures verify packet msgStart count (sigStart + 64) (pubkeyStart + 32) = true := by
  simp only [verifySignatures, sizeOfSignature, sizeOfPubkey] at h
  split at h
  · cases h
  · rename_i sigEnd hSigEnd
    split at h
    · rename_i signature pubkey message hSignature hPubkey hMessage
      obtain ⟨-, rfl⟩ := checkedAdd_eq_some.mp hSigEnd
      obtain ⟨sigBytes, hSigRange, hSigFrom⟩ := Option.bind_eq_some_iff.mp hSignature
      obtain ⟨bytes, hPayload, -, hSigFits, rfl⟩ := Packet.dataRange_eq_some hSigRange
      obtain ⟨bytes', hPayload', -, hPubkeyFits, rfl⟩ := Packet.dataRange_eq_some hPubkey
      obtain ⟨bytes'', hPayload'', hMsgFits, rfl⟩ := Packet.dataFrom_eq_some hMessage
      obtain rfl : bytes = bytes' := Option.some.inj (hPayload.symm.trans hPayload')
      obtain rfl : bytes = bytes'' := Option.some.inj (hPayload.symm.trans hPayload'')
      have hLength : bytes.length ≤ packetDataSize := by
        rw [Packet.length_of_payload hPayload]
        exact (Packet.payload_eq_some.mp hPayload).2.1
      -- the key's end saturates only past `usize::MAX`, far beyond the packet
      have hPubkeyEnd : pubkeyStart + 32 ≤ bytes.length :=
        add_le_of_saturatingAdd_le hPubkeyFits (by unfold packetDataSize maxValue at *; omega)
      have hSaturated : saturatingAdd 64 pubkeyStart 32 = pubkeyStart + 32 :=
        saturatingAdd_of_le (by unfold packetDataSize maxValue at *; omega)
      rw [hSaturated] at h
      simp only [Bool.and_eq_true] at h
      refine ⟨bytes, signature, hPayload, hSigFits, hPubkeyEnd, hMsgFits, ?_, ?_, h.2⟩
      · simpa using hSigFrom
      · simpa using h.1
    · cases h

/-- A loop that returns `true` has checked each of its signatures: the `i`-th lies `64 * i`
bytes after the first and its key `32 * i` bytes after the first. -/
theorem verifySignatures_eq_true {packet : Packet} {msgStart count sigStart pubkeyStart : Nat}
    (h : verifySignatures verify packet msgStart count sigStart pubkeyStart = true) {i : Nat}
    (hi : i < count) :
    ∃ bytes signature, packet.payload = some bytes ∧ sigStart + 64 * i + 64 ≤ bytes.length ∧
      pubkeyStart + 32 * i + 32 ≤ bytes.length ∧ msgStart ≤ bytes.length ∧
      signatureTryFrom ((bytes.drop (sigStart + 64 * i)).take 64) = some signature ∧
      verify signature ((bytes.drop (pubkeyStart + 32 * i)).take 32) (bytes.drop msgStart) =
        true := by
  induction count generalizing sigStart pubkeyStart i with
  | zero => omega
  | succ count ih =>
      obtain ⟨bytes, signature, hPayload, hSigFits, hPubkeyFits, hMsgFits, hSignature, hVerify,
        hRest⟩ := verifySignatures_succ_eq_true h
      cases i with
      | zero => exact ⟨bytes, signature, hPayload, hSigFits, hPubkeyFits, hMsgFits, hSignature,
          hVerify⟩
      | succ i =>
          have hNext := ih hRest (Nat.lt_of_succ_lt_succ hi)
          rw [show sigStart + 64 + 64 * i = sigStart + 64 * (i + 1) by omega,
            show pubkeyStart + 32 + 32 * i = pubkeyStart + 32 * (i + 1) by omega] at hNext
          exact hNext

/-- A packet that passes `verify_packet` has offsets read by `do_get_packet_offsets`, with at
least one signature, and the loop over them returned `true` on a packet of the same payload. -/
theorem verifyPacket_eq_true {packet : Packet} {rejectNonVote : Bool}
    (h : (verifyPacket verify packet rejectNonVote).1 = true) :
    ∃ o packet', doGetPacketOffsets packet 0 = .ok o ∧ packet'.payload = packet.payload ∧
      0 < o.sigLen ∧ verifySignatures verify packet' o.msgStart o.sigLen o.sigStart o.pubkeyStart =
        true := by
  have hPayload := payload_getPacketOffsets packet 0 rejectNonVote
  have hOffsets := @doGetPacketOffsets_of_getPacketOffsets packet 0 rejectNonVote
  unfold verifyPacket at h
  generalize getPacketOffsets packet 0 rejectNonVote = result at h hPayload hOffsets
  obtain ⟨o, packet'⟩ := result
  dsimp only at h hPayload hOffsets
  split_ifs at h with hDiscard hZero hSize
  exact ⟨o, packet', hOffsets hZero, hPayload, Nat.pos_of_ne_zero hZero, h⟩

theorem signatureTryFrom_bytes (signature : Signature) :
    signatureTryFrom signature.bytes.toList = some signature := by
  rw [signatureTryFrom, dif_pos Vector.length_toList]
  rfl

/-- A packet that passes `verify_packet` and whose bytes the codec reads back as `tx` carries a
signature of each of the first keys of `tx` over its serialized message. -/
theorem verifyPacket_verifies {packet : Packet} {rejectNonVote : Bool} {tx : VersionedTransaction}
    (h : (verifyPacket verify packet rejectNonVote).1 = true)
    (hDecode : Wire.versionedTransaction.decode
      (packet.buffer.toList.take packet.packetMeta.size) = some (tx, []))
    (i : Nat) (hi : i < tx.signatures.length) :
    ∃ pubkey, tx.message.staticAccountKeys[i]? = some pubkey ∧
      verify tx.signatures[i] pubkey.bytes.toList (Wire.versionedMessage.encode tx.message) =
        true := by
  obtain ⟨o, packet', hOffsets, hSamePayload, -, hLoop⟩ := verifyPacket_eq_true h
  obtain ⟨bytes, hPayload, hSigLen, hPubkeyLen, hAtSignatures, hAtMessage, tail, hAtKeys⟩ :=
    doGetPacketOffsets_of_decode hOffsets hDecode
  have hEnough := (doGetPacketOffsets_bounds hOffsets).2.2.2.2
  obtain ⟨bytes', signature, hPayload', -, -, -, hSignature, hVerify⟩ :=
    verifySignatures_eq_true hLoop (hSigLen ▸ hi)
  obtain rfl : bytes = bytes' := Option.some.inj (hPayload.symm.trans (hSamePayload ▸ hPayload'))
  have hKey : i < tx.message.staticAccountKeys.length := by omega
  -- the `i`-th signature and key are the `i`-th records of their arrays
  have hSignatureBytes : (bytes.drop (o.sigStart + 64 * i)).take 64 =
      tx.signatures[i].bytes.toList := by
    rw [← List.drop_drop, hAtSignatures]
    exact drop_take_flatMap_of_length_eq (fun _ => Vector.length_toList) hi _
  have hPubkeyBytes : (bytes.drop (o.pubkeyStart + 32 * i)).take 32 =
      tx.message.staticAccountKeys[i].bytes.toList := by
    rw [← List.drop_drop, hAtKeys]
    exact drop_take_flatMap_of_length_eq (fun _ => Vector.length_toList) hKey _
  rw [hSignatureBytes, signatureTryFrom_bytes, Option.some.injEq] at hSignature
  subst hSignature
  rw [hPubkeyBytes, hAtMessage] at hVerify
  exact ⟨_, List.getElem?_eq_getElem hKey, hVerify⟩

end Verify

/-- Packet signature verification agrees with the transaction it admits. The offsets that
`do_get_packet_offsets` returns lie inside the packet; on bytes that the codec reads back to their
end as `tx` they point at the signatures of `tx`, its serialized message and its first static
keys; and a packet that passes `verify_packet` carries a transaction whose every signature
verifies against its key. -/
theorem verifyPacket_agrees_with_transaction (verify : Signature → List UInt8 → List UInt8 → Bool)
    (packet : Packet) :
    (∀ o, doGetPacketOffsets packet 0 = .ok o →
      1 ≤ o.sigLen ∧ o.msgStart = o.sigStart + 64 * o.sigLen ∧
        o.msgStart < packet.packetMeta.size ∧
        o.pubkeyStart + 32 * o.pubkeyLen ≤ packet.packetMeta.size ∧ o.sigLen ≤ o.pubkeyLen) ∧
    ∀ tx, Wire.versionedTransaction.decode
        (packet.buffer.toList.take packet.packetMeta.size) = some (tx, []) →
      (∀ o, doGetPacketOffsets packet 0 = .ok o →
        o.sigLen = tx.signatures.length ∧
        (packet.buffer.toList.take packet.packetMeta.size).drop o.msgStart =
          Wire.versionedMessage.encode tx.message ∧
        ((packet.buffer.toList.take packet.packetMeta.size).drop o.pubkeyStart).take
            (32 * o.sigLen) =
          (tx.message.staticAccountKeys.take o.sigLen).flatMap (·.bytes.toList)) ∧
      ∀ rejectNonVote, (verifyPacket verify packet rejectNonVote).1 = true →
        (∀ i (hi : i < tx.signatures.length), ∃ pubkey,
          tx.message.staticAccountKeys[i]? = some pubkey ∧
            verify tx.signatures[i] pubkey.bytes.toList
              (Wire.versionedMessage.encode tx.message) = true) ∧
        (tx.verifyWithResults verify).all id = true := by
  refine ⟨fun o h => doGetPacketOffsets_bounds h, fun tx hDecode =>
    ⟨fun o hOffsets => ?_, fun rejectNonVote h => ?_⟩⟩
  · obtain ⟨bytes, hPayload, hSigLen, hPubkeyLen, -, hAtMessage, tail, hAtKeys⟩ :=
      doGetPacketOffsets_of_decode hOffsets hDecode
    have hEnough := (doGetPacketOffsets_bounds hOffsets).2.2.2.2
    rw [← (Packet.payload_eq_some.mp hPayload).2.2]
    refine ⟨hSigLen, hAtMessage, ?_⟩
    rw [hAtKeys]
    exact take_flatMap_of_length_eq (fun _ => Vector.length_toList) (hPubkeyLen ▸ hEnough) tail
  · have hEach := verifyPacket_verifies h hDecode
    exact ⟨hEach, VersionedTransaction.verifyWithResults_all_eq_true hEach⟩

/-- A legacy vote transaction: one signature, from the first of two keys, and one instruction of
the vote program. -/
def oneSignatureVoteTransaction : VersionedTransaction :=
  ⟨[⟨Vector.replicate 64 7⟩],
    .legacy ⟨⟨1, 0, 1⟩, [⟨Vector.replicate 32 7⟩, voteProgramId], Hash.default, [⟨1, [], []⟩]⟩⟩

/-- The packet that holds its bytes. -/
def oneSignatureVotePacket : Packet :=
  let data := Wire.versionedTransaction.encode oneSignatureVoteTransaction
  ⟨⟨(data ++ List.replicate (packetDataSize - data.length) 0).toArray, by
    simp only [List.size_toArray, List.length_append, List.length_replicate]
    decide +kernel⟩, ⟨data.length, false, false⟩⟩

theorem verifyPacket_agrees_with_transaction_oneSignatureVote :
    (verifyPacket (fun signature pubkey _ => signature.bytes.toList.take 32 == pubkey)
      oneSignatureVotePacket true).1 = true ∧
    (oneSignatureVoteTransaction.verifyWithResults
      (fun signature pubkey _ => signature.bytes.toList.take 32 == pubkey)).all id = true := by
  have hVerify : (verifyPacket
      (fun signature pubkey _ => signature.bytes.toList.take 32 == pubkey)
      oneSignatureVotePacket true).1 = true := by decide +kernel
  exact ⟨hVerify, (((verifyPacket_agrees_with_transaction _ oneSignatureVotePacket).2
    oneSignatureVoteTransaction (by decide +kernel)).2 true hVerify).2⟩

end PutValidator
