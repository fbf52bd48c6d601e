import PutValidator.Sdk.Ids
import PutValidator.Sdk.Errors
import PutValidator.Lib.Except
import PutValidator.Lib.Word

/-! Transaction messages of `sdk/program/src/message/`: the legacy and version-0 formats with
their `sanitize` checks, the keys a version-0 message loads from lookup tables
(`LoadedAddresses`, `AccountKeys`), and the writability and signer accessors. The
`is_writable_account_cache` that `LegacyMessage::new` and `LoadedMessage::new` fill holds
`is_writable` of each key; it is computed here where it is read. -/
namespace PutValidator

open Lib.Except Lib.Word

structure MessageHeader where
  numRequiredSignatures : UInt8
  numReadonlySignedAccounts : UInt8
  numReadonlyUnsignedAccounts : UInt8
deriving DecidableEq, Repr

structure CompiledInstruction where
  programIdIndex : UInt8
  accounts : List UInt8
  data : List UInt8
deriving DecidableEq, Repr

/-- `is_key_called_as_program` of both formats: the index fits a `u8` and some instruction
calls the key at it as its program. -/
def calledAsProgram (instructions : List CompiledInstruction) (keyIndex : Nat) : Bool :=
  if keyIndex < 256 then instructions.any fun ix => ix.programIdIndex.toNat == keyIndex
  else false

/-- `Message::has_duplicates` of the legacy format, `account_keys[i..].contains(&account_keys[i - 1])`
for `i` from 1, one key at a time from the front. -/
def hasDuplicateKeys : List Pubkey → Bool
  | [] => false
  | key :: rest => rest.contains key || hasDuplicateKeys rest

namespace Legacy

/-- `legacy::Message`. -/
structure Message where
  header : MessageHeader
  accountKeys : List Pubkey
  recentBlockhash : Hash
  instructions : List CompiledInstruction
deriving DecidableEq, Repr

namespace Message

/-- The checks of `sanitize` on one instruction, against `account_keys.len()`. -/
def sanitizeInstruction (numKeys : Nat) (ci : CompiledInstruction) : Except SanitizeError Unit := do
  failIf (numKeys ≤ ci.programIdIndex.toNat) .indexOutOfBounds
  -- a program cannot be the payer
  failIf (ci.programIdIndex = 0) .indexOutOfBounds
  ci.accounts.forM fun ai => failIf (numKeys ≤ ai.toNat) .indexOutOfBounds

/-- `impl Sanitize for Message`. The element-wise `sanitize` of the keys, the blockhash and the
instructions that ends it is the trait's default, which accepts. -/
def sanitize (m : Message) : Except SanitizeError Unit := do
  failIf (m.accountKeys.length <
    m.header.numRequiredSignatures.toNat + m.header.numReadonlyUnsignedAccounts.toNat)
    .indexOutOfBounds
  failIf (m.header.numRequiredSignatures ≤ m.header.numReadonlySignedAccounts) .indexOutOfBounds
  m.instructions.forM (sanitizeInstruction m.accountKeys.length)

def isKeyCalledAsProgram (m : Message) (keyIndex : Nat) : Bool :=
  calledAsProgram m.instructions keyIndex

def isUpgradeableLoaderPresent (m : Message) : Bool :=
  m.accountKeys.any (· == bpfLoaderUpgradeableId)

def demoteProgramId (m : Message) (i : Nat) : Bool :=
  m.isKeyCalledAsProgram i && !m.isUpgradeableLoaderPresent

/-- `is_writable(i)`, which indexes `account_keys[i]`. The header difference is `u8`
arithmetic; the `usize` difference cannot go below zero on a message that passed
`sanitize`, which is the only kind `LegacyMessage::new` is given. -/
def isWritable (m : Message) (i : Nat) (h : i < m.accountKeys.length) : Bool :=
  (decide (i < (m.header.numRequiredSignatures - m.header.numReadonlySignedAccounts).toNat) ||
      (decide (m.header.numRequiredSignatures.toNat ≤ i) &&
        decide (i < m.accountKeys.length - m.header.numReadonlyUnsignedAccounts.toNat))) &&
    !isBuiltinKeyOrSysvar m.accountKeys[i] && !m.demoteProgramId i

def isSigner (m : Message) (i : Nat) : Bool := decide (i < m.header.numRequiredSignatures.toNat)

def hasDuplicates (m : Message) : Bool := hasDuplicateKeys m.accountKeys

end Message

end Legacy

namespace V0

structure MessageAddressTableLookup where
  accountKey : Pubkey
  writableIndexes : List UInt8
  readonlyIndexes : List UInt8
deriving DecidableEq, Repr

/-- `v0::Message`. -/
structure Message where
  header : MessageHeader
  accountKeys : List Pubkey
  recentBlockhash : Hash
  instructions : List CompiledInstruction
  addressTableLookups : List MessageAddressTableLookup
deriving DecidableEq, Repr

namespace Message

/-- The loop over the lookups of `sanitize`: the total of their indexes, each lookup loading
at least one account. -/
def numDynamicAccountKeys (lookups : List MessageAddressTableLookup) :
    Except SanitizeError Nat :=
  List.foldlM (fun totalLookupKeys lookup => do
      let numLookupIndexes :=
        saturatingAdd 64 lookup.writableIndexes.length lookup.readonlyIndexes.length
      failIf (numLookupIndexes = 0) .invalidValue
      pure (saturatingAdd 64 totalLookupKeys numLookupIndexes))
    0 lookups

/-- The checks of `sanitize` on one instruction, against the largest program id index and
the largest account index. -/
def sanitizeInstruction (maxProgramIdIx maxAccountIx : Nat) (ci : CompiledInstruction) :
    Except SanitizeError Unit := do
  failIf (maxProgramIdIx < ci.programIdIndex.toNat) .indexOutOfBounds
  failIf (ci.programIdIndex = 0) .indexOutOfBounds
  ci.accounts.forM fun ai => failIf (maxAccountIx < ai.toNat) .indexOutOfBounds

/-- `sanitize(reject_dynamic_program_ids)`. Both `checked_sub(1).expect(..)` follow the check
that the message has a static key, so neither fails. -/
def sanitize (m : Message) (rejectDynamicProgramIds : Bool) : Except SanitizeError Unit := do
  let numStaticAccountKeys := m.accountKeys.length
  failIf (numStaticAccountKeys < saturatingAdd 64 m.header.numRequiredSignatures.toNat
    m.header.numReadonlyUnsignedAccounts.toNat) .indexOutOfBounds
  failIf (m.header.numRequiredSignatures ≤ m.header.numReadonlySignedAccounts) .invalidValue
  let numDynamic ← numDynamicAccountKeys m.addressTableLookups
  failIf (numStaticAccountKeys = 0) .invalidValue
  -- account indexes are `u8`
  let totalAccountKeys := saturatingAdd 64 numStaticAccountKeys numDynamic
  failIf (256 < totalAccountKeys) .indexOutOfBounds
  let maxAccountIx := totalAccountKeys - 1
  let maxProgramIdIx := if rejectDynamicProgramIds then numStaticAccountKeys - 1 else maxAccountIx
  m.instructions.forM (sanitizeInstruction maxProgramIdIx maxAccountIx)

/-- `is_writable_index`: the header's writable regions of the static keys, and the keys that
the lookups' writable indexes will load. -/
def isWritableIndex (m : Message) (keyIndex : Nat) : Bool :=
  let header := m.header
  let numAccountKeys := m.accountKeys.length
  let numSignedAccounts := header.numRequiredSignatures.toNat
  if numAccountKeys ≤ keyIndex then
    let loadedAddressesIndex := keyIndex - numAccountKeys
    let numWritableDynamicAddresses :=
      (m.addressTableLookups.map fun lookup => lookup.writableIndexes.length).sum
    decide (loadedAddressesIndex < numWritableDynamicAddresses)
  else if numSignedAccounts ≤ keyIndex then
    let numUnsignedAccounts := numAccountKeys - numSignedAccounts
    let numWritableUnsignedAccounts :=
      numUnsignedAccounts - header.numReadonlyUnsignedAccounts.toNat
    let unsignedAccountIndex := keyIndex - numSignedAccounts
    decide (unsignedAccountIndex < numWritableUnsignedAccounts)
  else
    let numWritableSignedAccounts := numSignedAccounts - header.numReadonlySignedAccounts.toNat
    decide (keyIndex < numWritableSignedAccounts)

def isKeyCalledAsProgram (m : Message) (keyIndex : Nat) : Bool :=
  calledAsProgram m.instructions keyIndex

def isUpgradeableLoaderInStaticKeys (m : Message) : Bool :=
  m.accountKeys.any (· == bpfLoaderUpgradeableId)

/-- `is_maybe_writable`: before the lookups are loaded, reserved ids can only be demoted among
the static keys, and program ids only by the loader among the static keys. -/
def isMaybeWritable (m : Message) (keyIndex : Nat) : Bool :=
  m.isWritableIndex keyIndex &&
    !(m.accountKeys[keyIndex]?.map isBuiltinKeyOrSysvar).getD false &&
    !(m.isKeyCalledAsProgram keyIndex && !m.isUpgradeableLoaderInStaticKeys)

end Message

/-- `LoadedAddresses`: the keys loaded from lookup tables, writable ones first. -/
structure LoadedAddresses where
  writable : List Pubkey
  readonly : List Pubkey
deriving DecidableEq, Repr

end V0

/-- `AccountKeys`: the static keys, then the loaded writable and readonly keys. -/
structure AccountKeys where
  staticKeys : List Pubkey
  dynamicKeys : Option V0.LoadedAddresses
deriving DecidableEq, Repr

namespace AccountKeys

/-- `key_segment_iter`; a message without loaded keys has two empty segments. -/
def keySegmentIter (k : AccountKeys) : List (List Pubkey) :=
  match k.dynamicKeys with
  | some dynamicKeys => [k.staticKeys, dynamicKeys.writable, dynamicKeys.readonly]
  | none => [k.staticKeys, [], []]

/-- The loop of `get` over the segments, the index lowered by each segment it passes. -/
def getIn : List (List Pubkey) → Nat → Option Pubkey
  | [], _ => none
  | segment :: rest, index =>
      if h : index < segment.length then some segment[index]
      else getIn rest (index - segment.length)

def get (k : AccountKeys) (index : Nat) : Option Pubkey := getIn k.keySegmentIter index

def len (k : AccountKeys) : Nat :=
  k.keySegmentIter.foldl (fun len segment => saturatingAdd 64 len segment.length) 0

def iter (k : AccountKeys) : List Pubkey := k.keySegmentIter.flatten

end AccountKeys

/-- `v0::LoadedMessage`: a version-0 message with the addresses its lookups loaded. -/
structure LoadedMessage where
  message : V0.Message
  loadedAddresses : V0.LoadedAddresses
deriving DecidableEq, Repr

namespace LoadedMessage

def accountKeys (m : LoadedMessage) : AccountKeys := ⟨m.message.accountKeys, some m.loadedAddresses⟩

/-- `has_duplicates`: some key is met twice while the keys are inserted into a set. -/
def hasDuplicates (m : LoadedMessage) : Bool := decide ¬m.accountKeys.iter.Nodup

/-- `is_writable_index`: the header's writable regions of the static keys, and the loaded
writable keys. -/
def isWritableIndex (m : LoadedMessage) (keyIndex : Nat) : Bool :=
  let header := m.message.header
  let numAccountKeys := m.message.accountKeys.length
  let numSignedAccounts := header.numRequiredSignatures.toNat
  if numAccountKeys ≤ keyIndex then
    decide (keyIndex - numAccountKeys < m.loadedAddresses.writable.length)
  else if numSignedAccounts ≤ keyIndex then
    let numUnsignedAccounts := numAccountKeys - numSignedAccounts
    let numWritableUnsignedAccounts :=
      numUnsignedAccounts - header.numReadonlyUnsignedAccounts.toNat
    decide (keyIndex - numSignedAccounts < numWritableUnsignedAccounts)
  else
    decide (keyIndex < numSignedAccounts - header.numReadonlySignedAccounts.toNat)

def isKeyCalledAsProgram (m : LoadedMessage) (keyIndex : Nat) : Bool :=
  calledAsProgram m.message.instructions keyIndex

/-- Unlike the legacy format, the loaded keys are searched too. -/
def isUpgradeableLoaderPresent (m : LoadedMessage) : Bool :=
  m.accountKeys.iter.any (· == bpfLoaderUpgradeableId)

def demoteProgramId (m : LoadedMessage) (i : Nat) : Bool :=
  m.isKeyCalledAsProgram i && !m.isUpgradeableLoaderPresent

def isWritableInternal (m : LoadedMessage) (keyIndex : Nat) : Bool :=
  if m.isWritableIndex keyIndex then
    match m.accountKeys.get keyIndex with
    | some key => !(isBuiltinKeyOrSysvar key || m.demoteProgramId keyIndex)
    | none => false
  else false

/-- The cache that `set_is_writable_account_cache` fills, one entry per key. -/
def isWritableAccountCache (m : LoadedMessage) : List Bool :=
  (List.range m.accountKeys.iter.length).map m.isWritableInternal

def isWritable (m : LoadedMessage) (keyIndex : Nat) : Bool :=
  m.isWritableAccountCache.getD keyIndex false

def isSigner (m : LoadedMessage) (i : Nat) : Bool :=
  decide (i < m.message.header.numRequiredSignatures.toNat)

end LoadedMessage

namespace LegacyMessage

/-- The cache that `LegacyMessage::new` fills, one entry per key. -/
def isWritableAccountCache (m : Legacy.Message) : List Bool :=
  List.ofFn fun i : Fin m.accountKeys.length => m.isWritable i i.isLt

def isWritable (m : Legacy.Message) (index : Nat) : Bool :=
  (isWritableAccountCache m).getD index false

end LegacyMessage

/-- `SanitizedMessage`. -/
inductive SanitizedMessage
  | legacy (message : Legacy.Message)
  | v0 (message : LoadedMessage)
deriving DecidableEq, Repr

namespace SanitizedMessage

def hasDuplicates : SanitizedMessage → Bool
  | .legacy m => m.hasDuplicates
  | .v0 m => m.hasDuplicates

def header : SanitizedMessage → MessageHeader
  | .legacy m => m.header
  | .v0 m => m.message.header

def instructions : SanitizedMessage → List CompiledInstruction
  | .legacy m => m.instructions
  | .v0 m => m.message.instructions

def accountKeys : SanitizedMessage → AccountKeys
  | .legacy m => ⟨m.accountKeys, none⟩
  | .v0 m => m.accountKeys

def isWritable : SanitizedMessage → Nat → Bool
  | .legacy m, index => LegacyMessage.isWritable m index
  | .v0 m, index => m.isWritable index

def isSigner (m : SanitizedMessage) (index : Nat) : Bool :=
  decide (index < m.header.numRequiredSignatures.toNat)

@[simp] theorem header_legacy (m : Legacy.Message) : (legacy m).header = m.header := rfl
@[simp] theorem header_v0 (m : LoadedMessage) : (v0 m).header = m.message.header := rfl
@[simp] theorem instructions_legacy (m : Legacy.Message) :
    (legacy m).instructions = m.instructions := rfl
@[simp] theorem instructions_v0 (m : LoadedMessage) :
    (v0 m).instructions = m.message.instructions := rfl
@[simp] theorem accountKeys_legacy (m : Legacy.Message) :
    (legacy m).accountKeys = ⟨m.accountKeys, none⟩ := rfl
@[simp] theorem accountKeys_v0 (m : LoadedMessage) : (v0 m).accountKeys = m.accountKeys := rfl

end SanitizedMessage

/-! ### What `sanitize` checks -/

/-- A legacy message that passes `sanitize`: the header's regions fit the keys with a writable
signer first, and every index of an instruction names a key, its program not the payer. -/
theorem Legacy.Message.sanitize_eq_ok {m : Legacy.Message} (h : m.sanitize = .ok ()) :
    m.header.numRequiredSignatures.toNat + m.header.numReadonlyUnsignedAccounts.toNat ≤
        m.accountKeys.length ∧
      m.header.numReadonlySignedAccounts.toNat < m.header.numRequiredSignatures.toNat ∧
      ∀ ix ∈ m.instructions, ix.programIdIndex.toNat < m.accountKeys.length ∧
        ix.programIdIndex ≠ 0 ∧ ∀ a ∈ ix.accounts, a.toNat < m.accountKeys.length := by
  simp only [Legacy.Message.sanitize, bind_eq_ok, failIf_eq_ok, forM_eq_ok] at h
  obtain ⟨_, hKeys, _, hPayer, hInstructions⟩ := h
  refine ⟨by omega, by simpa [UInt8.le_iff_toNat_le] using hPayer, fun ix hix => ?_⟩
  have hChecks := hInstructions ix hix
  simp only [Legacy.Message.sanitizeInstruction, bind_eq_ok, failIf_eq_ok, forM_eq_ok] at hChecks
  obtain ⟨_, hProgram, _, hNonzero, hAccounts⟩ := hChecks
  exact ⟨by omega, hNonzero, fun a ha => by simpa using hAccounts a ha⟩

/-- The converse of `Legacy.Message.sanitize_eq_ok`: a message that meets those conditions
passes `sanitize`. -/
theorem Legacy.Message.sanitize_of_checks {m : Legacy.Message}
    (hHeader : m.header.numRequiredSignatures.toNat + m.header.numReadonlyUnsignedAccounts.toNat ≤
      m.accountKeys.length)
    (hPayer : m.header.numReadonlySignedAccounts.toNat < m.header.numRequiredSignatures.toNat)
    (hInstructions : ∀ ix ∈ m.instructions, ix.programIdIndex.toNat < m.accountKeys.length ∧
      ix.programIdIndex ≠ 0 ∧ ∀ a ∈ ix.accounts, a.toNat < m.accountKeys.length) :
    m.sanitize = .ok () := by
  simp only [Legacy.Message.sanitize, bind_eq_ok, failIf_eq_ok, forM_eq_ok]
  refine ⟨(), by omega, (), by simpa [UInt8.le_iff_toNat_le] using hPayer, fun ix hix => ?_⟩
  obtain ⟨hProgram, hNonzero, hAccounts⟩ := hInstructions ix hix
  simp only [Legacy.Message.sanitizeInstruction, bind_eq_ok, failIf_eq_ok, forM_eq_ok]
  exact ⟨(), by omega, (), hNonzero, fun a ha => by simpa using hAccounts a ha⟩

/-- The loop over the lookups sums their indexes, up to `usize::MAX`. -/
theorem V0.Message.numDynamicAccountKeys_eq_ok {lookups : List V0.MessageAddressTableLookup}
    {n : Nat} (h : V0.Message.numDynamicAccountKeys lookups = .ok n) :
    n = min (lookups.map fun lookup =>
      lookup.writableIndexes.length + lookup.readonlyIndexes.length).sum (maxValue 64) := by
  let Total : List V0.MessageAddressTableLookup → Nat → Prop := fun pre total =>
    total = min (pre.map fun lookup =>
      lookup.writableIndexes.length + lookup.readonlyIndexes.length).sum (maxValue 64)
  have hStep : ∀ pre lookup total total', Total pre total →
      ((do
        let numLookupIndexes :=
          saturatingAdd 64 lookup.writableIndexes.length lookup.readonlyIndexes.length
        failIf (numLookupIndexes = 0) SanitizeError.invalidValue
        pure (saturatingAdd 64 total numLookupIndexes)) : Except SanitizeError Nat) =
          .ok total' → Total (pre ++ [lookup]) total' := by
    intro pre lookup total total' hTotal hLookup
    simp only [bind_eq_ok, failIf_eq_ok, pure_eq_ok] at hLookup
    obtain ⟨_, -, rfl⟩ := hLookup
    simp only [Total, List.map_append, List.sum_append, List.map_cons, List.map_nil,
      List.sum_cons, List.sum_nil] at hTotal ⊢
    unfold saturatingAdd
    omega
  have hTotal := foldlM_invariant Total hStep (show Total [] 0 by simp [Total]) h
  simpa [Total] using hTotal

/-- The loop over the lookups succeeds when every lookup loads some key. -/
theorem V0.Message.numDynamicAccountKeys_isOk {lookups : List V0.MessageAddressTableLookup}
    (h : ∀ lookup ∈ lookups, lookup.writableIndexes ++ lookup.readonlyIndexes ≠ []) :
    ∃ n, V0.Message.numDynamicAccountKeys lookups = .ok n := by
  unfold V0.Message.numDynamicAccountKeys
  refine foldlM_isOk (fun total lookup hLookup => ⟨saturatingAdd 64 total
    (saturatingAdd 64 lookup.writableIndexes.length lookup.readonlyIndexes.length), ?_⟩) 0
  have hNonzero : ¬saturatingAdd 64 lookup.writableIndexes.length
      lookup.readonlyIndexes.length = 0 := by
    have hNonempty := h lookup hLookup
    simp only [ne_eq, ← List.length_eq_zero_iff, List.length_append] at hNonempty
    unfold saturatingAdd maxValue
    omega
  simp only [failIf_of_not _ hNonzero, bind_ok]
  rfl

/-- A version-0 message that passes `sanitize`: as the legacy checks, with every index below
the count of static and looked-up keys, that count at most `256`, and the programs among the
static keys when dynamic program ids are refused. -/
theorem V0.Message.sanitize_eq_ok {m : V0.Message} {rejectDynamicProgramIds : Bool}
    (h : m.sanitize rejectDynamicProgramIds = .ok ()) :
    ∃ numDynamic, V0.Message.numDynamicAccountKeys m.addressTableLookups = .ok numDynamic ∧
      m.header.numRequiredSignatures.toNat + m.header.numReadonlyUnsignedAccounts.toNat ≤
        m.accountKeys.length ∧
      m.header.numReadonlySignedAccounts.toNat < m.header.numRequiredSignatures.toNat ∧
      m.accountKeys.length + numDynamic ≤ 256 ∧
      ∀ ix ∈ m.instructions,
        ix.programIdIndex.toNat < (if rejectDynamicProgramIds then m.accountKeys.length
          else m.accountKeys.length + numDynamic) ∧
        ix.programIdIndex ≠ 0 ∧ ∀ a ∈ ix.accounts, a.toNat < m.accountKeys.length + numDynamic := by
  simp only [V0.Message.sanitize, bind_eq_ok, failIf_eq_ok, forM_eq_ok] at h
  obtain ⟨_, hKeys, _, hPayer, numDynamic, hDynamic, _, hStatic, _, hTotal, hInstructions⟩ := h
  have hSum := add_le_of_saturatingAdd_le (Nat.le_of_not_lt hTotal) (by decide)
  have hHeader : m.header.numRequiredSignatures.toNat + m.header.numReadonlyUnsignedAccounts.toNat ≤
      m.accountKeys.length := by
    have hRequired := m.header.numRequiredSignatures.toNat_lt
    have hReadonly := m.header.numReadonlyUnsignedAccounts.toNat_lt
    rw [← @saturatingAdd_of_le 64 _ _ (by unfold maxValue; omega)]
    exact Nat.le_of_not_lt hKeys
  rw [@saturatingAdd_of_le 64 m.accountKeys.length numDynamic (by unfold maxValue; omega)]
    at hInstructions
  refine ⟨numDynamic, hDynamic, hHeader, by simpa [UInt8.le_iff_toNat_le] using hPayer, hSum,
    fun ix hix => ?_⟩
  have hChecks := hInstructions ix hix
  simp only [V0.Message.sanitizeInstruction, bind_eq_ok, failIf_eq_ok, forM_eq_ok] at hChecks
  obtain ⟨_, hProgram, _, hNonzero, hAccounts⟩ := hChecks
  refine ⟨?_, hNonzero, fun a ha => ?_⟩
  · split_ifs at hProgram ⊢ <;> omega
  · have hAccount := hAccounts a ha
    omega

/-- The converse of `V0.Message.sanitize_eq_ok`: a message that meets those conditions passes
`sanitize`. -/
theorem V0.Message.sanitize_of_checks {m : V0.Message} {rejectDynamicProgramIds : Bool}
    {numDynamic : Nat}
    (hDynamic : V0.Message.numDynamicAccountKeys m.addressTableLookups = .ok numDynamic)
    (hHeader : m.header.numRequiredSignatures.toNat + m.header.numReadonlyUnsignedAccounts.toNat ≤
      m.accountKeys.length)
    (hPayer : m.header.numReadonlySignedAccounts.toNat < m.header.numRequiredSignatures.toNat)
    (hTotal : m.accountKeys.length + numDynamic ≤ 256)
    (hInstructions : ∀ ix ∈ m.instructions,
      ix.programIdIndex.toNat < (if rejectDynamicProgramIds then m.accountKeys.length
        else m.accountKeys.length + numDynamic) ∧
      ix.programIdIndex ≠ 0 ∧ ∀ a ∈ ix.accounts, a.toNat < m.accountKeys.length + numDynamic) :
    m.sanitize rejectDynamicProgramIds = .ok () := by
  have hSum : saturatingAdd 64 m.accountKeys.length numDynamic = m.accountKeys.length + numDynamic :=
    @saturatingAdd_of_le 64 _ _ (by unfold maxValue; omega)
  have hSigned : saturatingAdd 64 m.header.numRequiredSignatures.toNat
      m.header.numReadonlyUnsignedAccounts.toNat =
      m.header.numRequiredSignatures.toNat + m.header.numReadonlyUnsignedAccounts.toNat := by
    have hRequired := m.header.numRequiredSignatures.toNat_lt
    have hReadonly := m.header.numReadonlyUnsignedAccounts.toNat_lt
    exact @saturatingAdd_of_le 64 _ _ (by unfold maxValue; omega)
  simp only [V0.Message.sanitize, bind_eq_ok, failIf_eq_ok, forM_eq_ok, hSigned]
  refine ⟨(), by omega, (), by simpa [UInt8.le_iff_toNat_le] using hPayer, numDynamic, hDynamic,
    (), by omega, (), by omega, fun ix hix => ?_⟩
  obtain ⟨hProgram, hNonzero, hAccounts⟩ := hInstructions ix hix
  simp only [V0.Message.sanitizeInstruction, bind_eq_ok, failIf_eq_ok, forM_eq_ok]
  refine ⟨(), ?_, (), hNonzero, fun a ha => ?_⟩
  · split_ifs at hProgram ⊢ <;> omega
  · have hAccount := hAccounts a ha
    omega

/-! ### Account keys -/

namespace AccountKeys

/-- The loop of `get` reads the keys of the segments laid end to end. -/
theorem getIn_eq_getElem?_flatten (segments : List (List Pubkey)) (index : Nat) :
    getIn segments index = segments.flatten[index]? := by
  induction segments generalizing index with
  | nil => rfl
  | cons segment rest ih =>
      rw [getIn, List.flatten_cons]
      split_ifs with hIndex
      · rw [List.getElem?_append_left hIndex, List.getElem?_eq_getElem hIndex]
      · rw [ih, List.getElem?_append_right (Nat.le_of_not_lt hIndex)]

theorem get_eq_getElem?_iter (k : AccountKeys) (index : Nat) : k.get index = k.iter[index]? :=
  getIn_eq_getElem?_flatten k.keySegmentIter index

/-- The saturating sum of the segment lengths, from a start below `usize::MAX`. -/
theorem foldl_saturatingAdd_length (segments : List (List Pubkey)) {start : Nat}
    (hStart : start ≤ maxValue 64) :
    segments.foldl (fun len segment => saturatingAdd 64 len segment.length) start =
      min (start + segments.flatten.length) (maxValue 64) := by
  induction segments generalizing start with
  | nil => simpa using hStart
  | cons segment rest ih =>
      rw [List.foldl_cons, ih (saturatingAdd_le_maxValue _ _ _), List.flatten_cons,
        List.length_append]
      unfold saturatingAdd
      omega

/-- `len` counts the keys, up to `usize::MAX`. -/
theorem len_eq_min (k : AccountKeys) : k.len = min k.iter.length (maxValue 64) := by
  rw [len, foldl_saturatingAdd_length _ (Nat.zero_le _), Nat.zero_add]
  rfl

theorem length_staticKeys_le (k : AccountKeys) : k.staticKeys.length ≤ k.iter.length := by
  unfold iter keySegmentIter
  split <;> simp

@[simp] theorem iter_mk_none (staticKeys : List Pubkey) :
    (AccountKeys.mk staticKeys none).iter = staticKeys := by
  simp [iter, keySegmentIter]

@[simp] theorem iter_mk_some (staticKeys : List Pubkey) (loaded : V0.LoadedAddresses) :
    (AccountKeys.mk staticKeys (some loaded)).iter =
      staticKeys ++ loaded.writable ++ loaded.readonly := by
  simp [iter, keySegmentIter]

end AccountKeys

/-! ### The writable cache and the fee payer -/

/-- No instruction runs the key at index `0`. -/
theorem calledAsProgram_zero {instructions : List CompiledInstruction}
    (h : ∀ ix ∈ instructions, ix.programIdIndex ≠ 0) : calledAsProgram instructions 0 = false := by
  rw [calledAsProgram, if_pos (by decide)]
  simp only [List.any_eq_false, beq_iff_eq]
  intro ix hix hZero
  exact h ix hix (UInt8.toNat_inj.mp hZero)

/-- The cache of `LegacyMessage::new` holds `is_writable` of each key. -/
theorem LegacyMessage.isWritable_of_lt {m : Legacy.Message} {i : Nat}
    (h : i < m.accountKeys.length) : LegacyMessage.isWritable m i = m.isWritable i h := by
  rw [LegacyMessage.isWritable, List.getD_eq_getElem?_getD, LegacyMessage.isWritableAccountCache,
    List.getElem?_ofFn, dif_pos h]
  rfl

/-- The cache of `LoadedMessage::new` holds `is_writable_internal` of each key. -/
theorem LoadedMessage.isWritable_of_lt {m : LoadedMessage} {i : Nat}
    (h : i < m.accountKeys.iter.length) : m.isWritable i = m.isWritableInternal i := by
  rw [LoadedMessage.isWritable, List.getD_eq_getElem?_getD, LoadedMessage.isWritableAccountCache,
    List.getElem?_map, List.getElem?_range h]
  rfl

section FeePayer

variable {header : MessageHeader}

/-- The first writable region of a header with a writable signer starts at index `0`. -/
theorem writableSigned_pos
    (hReadonly : header.numReadonlySignedAccounts.toNat < header.numRequiredSignatures.toNat) :
    0 < (header.numRequiredSignatures - header.numReadonlySignedAccounts).toNat := by
  rw [UInt8.toNat_sub_of_le _ _ (UInt8.le_iff_toNat_le.mpr (Nat.le_of_lt hReadonly))]
  omega

/-- The legacy fee payer is writable unless it is a builtin program or a sysvar. -/
theorem Legacy.Message.isWritable_zero {m : Legacy.Message}
    (hReadonly : m.header.numReadonlySignedAccounts.toNat < m.header.numRequiredSignatures.toNat)
    (hProgram : ∀ ix ∈ m.instructions, ix.programIdIndex ≠ 0) (h : 0 < m.accountKeys.length) :
    m.isWritable 0 h = !isBuiltinKeyOrSysvar m.accountKeys[0] := by
  simp [Legacy.Message.isWritable, writableSigned_pos hReadonly, Legacy.Message.demoteProgramId,
    Legacy.Message.isKeyCalledAsProgram, calledAsProgram_zero hProgram]

/-- The version-0 fee payer is writable unless it is a builtin program or a sysvar. -/
theorem LoadedMessage.isWritableInternal_zero {m : LoadedMessage}
    (hReadonly : m.message.header.numReadonlySignedAccounts.toNat <
      m.message.header.numRequiredSignatures.toNat)
    (hProgram : ∀ ix ∈ m.message.instructions, ix.programIdIndex ≠ 0)
    (h : 0 < m.message.accountKeys.length) :
    m.isWritableInternal 0 = !isBuiltinKeyOrSysvar m.message.accountKeys[0] := by
  have hIndex : m.isWritableIndex 0 = true := by
    simp only [LoadedMessage.isWritableIndex, if_neg (Nat.not_le_of_lt h),
      if_neg (Nat.not_le_of_lt (Nat.lt_of_le_of_lt (Nat.zero_le _) hReadonly))]
    simp only [decide_eq_true_eq]
    omega
  have hKey : m.accountKeys.get 0 = some m.message.accountKeys[0] := by
    rw [AccountKeys.get_eq_getElem?_iter, LoadedMessage.accountKeys, AccountKeys.iter_mk_some,
      List.append_assoc, List.getElem?_append_left h, List.getElem?_eq_getElem h]
  simp [LoadedMessage.isWritableInternal, hIndex, hKey, LoadedMessage.demoteProgramId,
    LoadedMessage.isKeyCalledAsProgram, calledAsProgram_zero hProgram]

end FeePayer

/-! ### Duplicate keys -/

theorem hasDuplicateKeys_eq_false_iff (keys : List Pubkey) :
    hasDuplicateKeys keys = false ↔ keys.Nodup := by
  induction keys with
  | nil => simp [hasDuplicateKeys]
  | cons key rest ih => simp [hasDuplicateKeys, ih]

/-- Without duplicates, the keys of a message are pairwise distinct. -/
theorem SanitizedMessage.nodup_of_hasDuplicates_eq_false {m : SanitizedMessage}
    (h : m.hasDuplicates = false) : m.accountKeys.iter.Nodup := by
  cases m with
  | legacy m =>
      have hKeys := (hasDuplicateKeys_eq_false_iff m.accountKeys).mp h
      simpa [accountKeys, AccountKeys.iter, AccountKeys.keySegmentIter] using hKeys
  | v0 m => simpa [hasDuplicates, LoadedMessage.hasDuplicates, accountKeys] using h

/-! ### The writable regions of a version-0 message -/

namespace V0.Message

/-- Among the static keys, the writable regions are the writable signers and the unsigned keys
before the readonly ones, on a header whose counts fit the static keys. -/
theorem isWritableIndex_of_lt {m : Message} {i : Nat} (hi : i < m.accountKeys.length)
    (hHeader : m.header.numRequiredSignatures.toNat + m.header.numReadonlyUnsignedAccounts.toNat ≤
      m.accountKeys.length) :
    m.isWritableIndex i = true ↔
      i < m.header.numRequiredSignatures.toNat - m.header.numReadonlySignedAccounts.toNat ∨
        m.header.numRequiredSignatures.toNat ≤ i ∧
          i < m.accountKeys.length - m.header.numReadonlyUnsignedAccounts.toNat := by
  simp only [isWritableIndex, if_neg (Nat.not_le_of_lt hi)]
  split_ifs with hSigned
  · simp only [decide_eq_true_eq]
    omega
  · simp only [decide_eq_true_eq]
    omega

/-- Past the static keys, the writable keys are the first keys the lookups load. -/
theorem isWritableIndex_of_le {m : Message} {i : Nat} (hi : m.accountKeys.length ≤ i) :
    m.isWritableIndex i = true ↔
      i - m.accountKeys.length <
        (m.addressTableLookups.map fun lookup => lookup.writableIndexes.length).sum := by
  simp [isWritableIndex, if_pos hi]

end V0.Message

end PutValidator
