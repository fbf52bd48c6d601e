import PutValidator.Sdk.Message
import PutValidator.Sdk.ShortVec

/-! The wire format of a transaction: `VersionedTransaction` and `VersionedMessage`
(`sdk/src/transaction/versioned/mod.rs`, `sdk/program/src/message/versions/mod.rs`) as bincode
writes and reads them. Each derived `Serialize`/`Deserialize` of the source is the codec of its
fields in order; keys, hashes and signatures are their bytes as they are, and every vector is a
`short_vec`. A versioned message starts with the byte `0x80` and the legacy message with its
header, so a legacy message is read back only when its first byte has the top bit clear. -/
namespace PutValidator

open Lib.Codec

/-- `VersionedMessage`. -/
inductive VersionedMessage
  | legacy (message : Legacy.Message)
  | v0 (message : V0.Message)
deriving DecidableEq, Repr

/-- `VersionedTransaction`. -/
structure VersionedTransaction where
  signatures : List Signature
  message : VersionedMessage
deriving DecidableEq, Repr

/-- `MESSAGE_VERSION_PREFIX`. -/
def messageVersionPrefix : UInt8 := 0x80

/-- `MESSAGE_HEADER_LENGTH`. -/
def messageHeaderLength : Nat := 3

namespace VersionedMessage

def header : VersionedMessage → MessageHeader
  | .legacy m => m.header
  | .v0 m => m.header

/-- `static_account_keys`. -/
def staticAccountKeys : VersionedMessage → List Pubkey
  | .legacy m => m.accountKeys
  | .v0 m => m.accountKeys

end VersionedMessage

namespace Wire

def pubkey : Codec Pubkey :=
  map (fixed 32) Pubkey.mk Pubkey.bytes (fun _ => rfl) (fun _ => rfl)

def hash : Codec Hash :=
  map (fixed 32) Hash.mk Hash.bytes (fun _ => rfl) (fun _ => rfl)

def signature : Codec Signature :=
  map (fixed 64) Signature.mk Signature.bytes (fun _ => rfl) (fun _ => rfl)

def messageHeader : Codec MessageHeader :=
  map (pair byte (pair byte byte)) (fun fields => ⟨fields.1, fields.2.1, fields.2.2⟩)
    (fun h => (h.numRequiredSignatures, h.numReadonlySignedAccounts,
      h.numReadonlyUnsignedAccounts))
    (fun _ => rfl) (fun _ => rfl)

def compiledInstruction : Codec CompiledInstruction :=
  map (pair byte (pair (shortVec byte) (shortVec byte)))
    (fun fields => ⟨fields.1, fields.2.1, fields.2.2⟩)
    (fun ix => (ix.programIdIndex, ix.accounts, ix.data)) (fun _ => rfl) (fun _ => rfl)

/-- `legacy::Message`. -/
def legacyMessage : Codec Legacy.Message :=
  map (pair messageHeader (pair (shortVec pubkey) (pair hash (shortVec compiledInstruction))))
    (fun fields => ⟨fields.1, fields.2.1, fields.2.2.1, fields.2.2.2⟩)
    (fun m => (m.header, m.accountKeys, m.recentBlockhash, m.instructions))
    (fun _ => rfl) (fun _ => rfl)

def messageAddressTableLookup : Codec V0.MessageAddressTableLookup :=
  map (pair pubkey (pair (shortVec byte) (shortVec byte)))
    (fun fields => ⟨fields.1, fields.2.1, fields.2.2⟩)
    (fun lookup => (lookup.accountKey, lookup.writableIndexes, lookup.readonlyIndexes))
    (fun _ => rfl) (fun _ => rfl)

/-- `v0::Message`. -/
def v0Message : Codec V0.Message :=
  map (pair messageHeader (pair (shortVec pubkey) (pair hash
      (pair (shortVec compiledInstruction) (shortVec messageAddressTableLookup)))))
    (fun fields => ⟨fields.1, fields.2.1, fields.2.2.1, fields.2.2.2.1, fields.2.2.2.2⟩)
    (fun m => (m.header, m.accountKeys, m.recentBlockhash, m.instructions,
      m.addressTableLookups))
    (fun _ => rfl) (fun _ => rfl)

theorem legacyMessage_encode (m : Legacy.Message) :
    legacyMessage.encode m =
      [m.header.numRequiredSignatures, m.header.numReadonlySignedAccounts,
        m.header.numReadonlyUnsignedAccounts] ++ encodeShortU16 m.accountKeys.length ++
        m.accountKeys.flatMap (·.bytes.toList) ++
        (hash.encode m.recentBlockhash ++ (shortVec compiledInstruction).encode m.instructions) := by
  simp [legacyMessage, messageHeader, map, pair, byte, shortVec, prefixed, shortU16, pubkey, fixed]

theorem v0Message_encode (m : V0.Message) :
    v0Message.encode m =
      [m.header.numRequiredSignatures, m.header.numReadonlySignedAccounts,
        m.header.numReadonlyUnsignedAccounts] ++ encodeShortU16 m.accountKeys.length ++
        m.accountKeys.flatMap (·.bytes.toList) ++
        (hash.encode m.recentBlockhash ++ (shortVec compiledInstruction).encode m.instructions ++
          (shortVec messageAddressTableLookup).encode m.addressTableLookups) := by
  simp [v0Message, messageHeader, map, pair, byte, shortVec, prefixed, shortU16, pubkey, fixed]

/-! ### The prefix byte -/

theorem prefix_and_eq_zero_iff (b : UInt8) : b &&& messageVersionPrefix = 0 ↔ b.toNat < 128 := by
  have hb := b.toNat_lt
  rw [← UInt8.toNat_inj, UInt8.toNat_and]
  revert hb
  generalize b.toNat = n
  revert n
  decide +kernel

/-- The only byte with the prefix bit and version `0` is the prefix itself. -/
theorem eq_prefix_of_version_zero {b : UInt8} (hPrefix : b &&& messageVersionPrefix ≠ 0)
    (hVersion : b &&& ~~~messageVersionPrefix = 0) : b = messageVersionPrefix := by
  have hb := b.toNat_lt
  have hPrefix' : b.toNat &&& 128 ≠ 0 := by
    intro h
    apply hPrefix
    apply UInt8.toNat_inj.mp
    simpa [messageVersionPrefix] using h
  have hVersion' : b.toNat &&& 127 = 0 := by
    simpa [messageVersionPrefix] using congrArg UInt8.toNat hVersion
  apply UInt8.toNat_inj.mp
  show b.toNat = 128
  revert hb hPrefix' hVersion'
  generalize b.toNat = n
  revert n
  decide +kernel

/-- `VersionedMessage`: a legacy message as it is, a version-0 message behind the prefix byte.
The deserializer reads the first byte: with the prefix bit set, its other bits are the version,
of which only `0` is read on; otherwise the byte is the first of a legacy header. -/
def versionedMessage : Codec VersionedMessage where
  encode
    | .legacy m => legacyMessage.encode m
    | .v0 m => messageVersionPrefix :: v0Message.encode m
  decode
    | [] => none
    | first :: rest =>
        if first &&& messageVersionPrefix ≠ 0 then
          if first &&& ~~~messageVersionPrefix = 0 then
            (v0Message.decode rest).bind fun read => some (.v0 read.1, read.2)
          else none
        else (legacyMessage.decode (first :: rest)).bind fun read => some (.legacy read.1, read.2)
  Canonical
    | .legacy m => legacyMessage.Canonical m ∧ m.header.numRequiredSignatures.toNat < 128
    | .v0 m => v0Message.Canonical m
  decode_encode := by
    intro msg rest hCanonical
    cases msg with
    | legacy m =>
        obtain ⟨hm, hFirst⟩ := hCanonical
        have hEncode := legacyMessage_encode m
        have hDecode := legacyMessage.decode_encode m rest hm
        dsimp only
        rw [hEncode] at hDecode ⊢
        simp only [List.cons_append, List.append_assoc] at hDecode ⊢
        rw [if_neg (by simpa [prefix_and_eq_zero_iff] using hFirst), hDecode]
        rfl
    | v0 m =>
        dsimp only
        simp only [List.cons_append]
        rw [if_pos (by decide), if_pos (by decide), v0Message.decode_encode m rest hCanonical]
        rfl
  decode_sound := by
    intro input msg rest h
    match input, h with
    | first :: rest', h =>
      simp only at h
      split_ifs at h with hPrefix hVersion
      · obtain ⟨⟨m, rest''⟩, hRead, hEq⟩ := Option.bind_eq_some_iff.mp h
        cases hEq
        obtain ⟨hm, rfl⟩ := v0Message.decode_sound hRead
        rw [eq_prefix_of_version_zero hPrefix hVersion]
        exact ⟨hm, rfl⟩
      · obtain ⟨⟨m, rest''⟩, hRead, hEq⟩ := Option.bind_eq_some_iff.mp h
        cases hEq
        obtain ⟨hm, hInput⟩ := legacyMessage.decode_sound hRead
        refine ⟨⟨hm, ?_⟩, hInput⟩
        -- the first byte read is the first byte of the header
        rw [legacyMessage_encode] at hInput
        simp only [List.cons_append, List.append_assoc, List.cons.injEq] at hInput
        rw [← hInput.1]
        exact (prefix_and_eq_zero_iff first).mp (not_not.mp hPrefix)

/-- `VersionedTransaction`: the signatures, then the message. -/
def versionedTransaction : Codec VersionedTransaction :=
  map (pair (shortVec signature) versionedMessage) (fun fields => ⟨fields.1, fields.2⟩)
    (fun tx => (tx.signatures, tx.message)) (fun _ => rfl) (fun _ => rfl)

/-- A message's bytes: the prefix byte of a versioned message, the header, the short-vec of
static keys, and the rest. A legacy message that the decoder reads back starts with a byte
whose top bit is clear, and the count of keys of a message it reads back fits a `u16`. -/
theorem versionedMessage_encode_header {m : VersionedMessage} (hm : versionedMessage.Canonical m) :
    m.staticAccountKeys.length < 2 ^ 16 ∧ ∃ versionPrefix tail, versionedMessage.encode m =
      versionPrefix ++ [m.header.numRequiredSignatures, m.header.numReadonlySignedAccounts,
        m.header.numReadonlyUnsignedAccounts] ++ encodeShortU16 m.staticAccountKeys.length ++
        m.staticAccountKeys.flatMap (·.bytes.toList) ++ tail ∧
      ((versionPrefix = [] ∧ m.header.numRequiredSignatures.toNat < 128) ∨
        versionPrefix = [messageVersionPrefix]) := by
  cases m with
  | legacy m =>
      refine ⟨hm.1.2.1.1, [], hash.encode m.recentBlockhash ++
        (shortVec compiledInstruction).encode m.instructions, ?_, .inl ⟨rfl, hm.2⟩⟩
      rw [List.nil_append]
      exact legacyMessage_encode m
  | v0 m =>
      refine ⟨hm.2.1.1, [messageVersionPrefix], hash.encode m.recentBlockhash ++
        (shortVec compiledInstruction).encode m.instructions ++
        (shortVec messageAddressTableLookup).encode m.addressTableLookups, ?_, .inr rfl⟩
      show messageVersionPrefix :: v0Message.encode m = _
      rw [v0Message_encode]
      rfl

theorem versionedTransaction_encode (tx : VersionedTransaction) :
    versionedTransaction.encode tx =
      encodeShortU16 tx.signatures.length ++ tx.signatures.flatMap (·.bytes.toList) ++
        versionedMessage.encode tx.message := by
  simp [versionedTransaction, map, pair, shortVec, prefixed, shortU16, signature, fixed]

end Wire

/-- `VersionedTransaction::_verify_with_results` on the serialized message: each signature
checked against the static key at its index, with `signature.verify(pubkey, message)` as the
parameter `verify`. -/
def VersionedTransaction.verifyWithResults (verify : Signature → List UInt8 → List UInt8 → Bool)
    (tx : VersionedTransaction) : List Bool :=
  (tx.signatures.zip tx.message.staticAccountKeys).map fun (signature, pubkey) =>
    verify signature pubkey.bytes.toList (Wire.versionedMessage.encode tx.message)

/-- Every result is `true` when each signature verifies against the static key at its index. -/
theorem VersionedTransaction.verifyWithResults_all_eq_true
    {verify : Signature → List UInt8 → List UInt8 → Bool} {tx : VersionedTransaction}
    (h : ∀ i (hi : i < tx.signatures.length), ∃ pubkey,
      tx.message.staticAccountKeys[i]? = some pubkey ∧
        verify tx.signatures[i] pubkey.bytes.toList (Wire.versionedMessage.encode tx.message) =
          true) :
    (tx.verifyWithResults verify).all id = true := by
  simp only [verifyWithResults, List.all_eq_true, List.mem_map, id]
  rintro _ ⟨⟨signature, pubkey⟩, hMem, rfl⟩
  obtain ⟨i, hi, hAt⟩ := List.getElem_of_mem hMem
  rw [List.getElem_zip] at hAt
  obtain ⟨rfl, rfl⟩ := Prod.mk.inj hAt
  rw [List.length_zip] at hi
  obtain ⟨pubkey, hKey, hVerify⟩ := h i (by omega)
  rw [List.getElem?_eq_getElem (by omega), Option.some.injEq] at hKey
  rw [hKey]
  exact hVerify

end PutValidator
