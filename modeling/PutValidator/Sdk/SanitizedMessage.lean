import PutValidator.Sdk.Message
import PutValidator.Lib.List

/-! The accessors of `SanitizedMessage` (`sdk/program/src/message/sanitized.rs`) that index the
keys of a message. `fee_payer`, `program_instructions_iter` and `decompile_instructions` look a key
up by an index and panic with `expect` or `unwrap` when there is none; here they return `none`
there. `sanitize` checks exactly what keeps them from doing so: every index an instruction holds
names a key, and the header describes a signer at index `0` that no instruction runs as its
program. A version-0 message also has at most `256` keys; a legacy message is not bounded. -/
namespace PutValidator

open Lib.Word Lib.Except

/-- `BorrowedAccountMeta`. -/
structure BorrowedAccountMeta where
  pubkey : Pubkey
  isSigner : Bool
  isWritable : Bool
deriving DecidableEq, Repr

/-- `BorrowedInstruction`. -/
structure BorrowedInstruction where
  programId : Pubkey
  accounts : List BorrowedAccountMeta
  data : List UInt8
deriving DecidableEq, Repr

namespace SanitizedMessage

/-- `fee_payer`: the key at index `0`. -/
def feePayer (m : SanitizedMessage) : Option Pubkey :=
  m.accountKeys.get 0

/-- `program_instructions_iter`, collected: each instruction with the key of its program. -/
def programInstructionsIter (m : SanitizedMessage) :
    Option (List (Pubkey × CompiledInstruction)) :=
  m.instructions.mapM fun ix => (m.accountKeys.get ix.programIdIndex.toNat).map (·, ix)

/-- `decompile_instructions`: each instruction with its program and the key and privileges of
each of its accounts. -/
def decompileInstructions (m : SanitizedMessage) : Option (List BorrowedInstruction) := do
  let accountKeys := m.accountKeys
  let programInstructions ← m.programInstructionsIter
  programInstructions.mapM fun (programId, instruction) => do
    let accounts ← instruction.accounts.mapM fun accountIndex =>
      (accountKeys.get accountIndex.toNat).map fun pubkey =>
        ⟨pubkey, m.isSigner accountIndex.toNat, m.isWritable accountIndex.toNat⟩
    pure ⟨programId, accounts, instruction.data⟩

/-- `get_ix_signers`: the keys of the accounts of an instruction that signed. -/
def getIxSigners (m : SanitizedMessage) (ixIndex : Nat) : List Pubkey :=
  match m.instructions[ixIndex]? with
  | some ix => ((ix.accounts.map UInt8.toNat).filter m.isSigner).filterMap m.accountKeys.get
  | none => []

def loadedLookupTableAddresses : SanitizedMessage → Option V0.LoadedAddresses
  | .legacy _ => none
  | .v0 m => some m.loadedAddresses

/-- `num_readonly_accounts`. -/
def numReadonlyAccounts (m : SanitizedMessage) : Nat :=
  let loadedReadonlyAddresses := (m.loadedLookupTableAddresses.map (·.readonly.length)).getD 0
  saturatingAdd 64 (saturatingAdd 64 loadedReadonlyAddresses
    m.header.numReadonlySignedAccounts.toNat) m.header.numReadonlyUnsignedAccounts.toNat

/-- What `sanitize` establishes of the keys and indexes of a message, and all that its
accessors rely on. -/
structure Sanitized (m : SanitizedMessage) : Prop where
  header_le : m.header.numRequiredSignatures.toNat +
    m.header.numReadonlyUnsignedAccounts.toNat ≤ m.accountKeys.staticKeys.length
  readonlySigned_lt : m.header.numReadonlySignedAccounts.toNat <
    m.header.numRequiredSignatures.toNat
  programId_lt : ∀ ix ∈ m.instructions, ix.programIdIndex.toNat < m.accountKeys.iter.length
  programId_ne_zero : ∀ ix ∈ m.instructions, ix.programIdIndex ≠ 0
  account_lt : ∀ ix ∈ m.instructions, ∀ a ∈ ix.accounts, a.toNat < m.accountKeys.iter.length

/-- What the accessors give on a message: `fee_payer`, `program_instructions_iter` and
`decompile_instructions` return, every index of an instruction names a key and `get_ix_signers`
keeps every signer; the fee payer signs, is no instruction's program, and is writable unless it
is a builtin program or a sysvar; the writable regions of `is_writable` fit the header; and a
signer's index is below the count of required signatures, itself at most the count of keys. -/
structure AccessorsTotal (m : SanitizedMessage) : Prop where
  feePayer_isSome : m.feePayer.isSome
  programInstructionsIter_isSome : m.programInstructionsIter.isSome
  decompileInstructions_isSome : m.decompileInstructions.isSome
  programId_resolves : ∀ ix ∈ m.instructions, (m.accountKeys.get ix.programIdIndex.toNat).isSome
  account_resolves : ∀ ix ∈ m.instructions, ∀ a ∈ ix.accounts, (m.accountKeys.get a.toNat).isSome
  getIxSigners_length : ∀ ixIndex ix, m.instructions[ixIndex]? = some ix →
    (m.getIxSigners ixIndex).length = ((ix.accounts.map UInt8.toNat).filter m.isSigner).length
  feePayer_signer : m.isSigner 0 = true
  feePayer_not_program : ∀ ix ∈ m.instructions, ix.programIdIndex ≠ 0
  feePayer_writable : ∀ key, m.feePayer = some key → m.isWritable 0 = !isBuiltinKeyOrSysvar key
  writableRegions_fit : m.header.numReadonlySignedAccounts.toNat <
      m.header.numRequiredSignatures.toNat ∧
    m.header.numReadonlyUnsignedAccounts.toNat ≤ m.accountKeys.iter.length
  signer_lt : ∀ i, m.isSigner i = true →
    i < m.header.numRequiredSignatures.toNat ∧
      m.header.numRequiredSignatures.toNat ≤ m.accountKeys.len

/-! ### Lookups of a sanitized message -/

variable {m : SanitizedMessage}

theorem get_of_lt {i : Nat} (h : i < m.accountKeys.iter.length) :
    m.accountKeys.get i = some (m.accountKeys.iter.getD i default) := by
  rw [AccountKeys.get_eq_getElem?_iter, List.getD_eq_getElem?_getD, List.getElem?_eq_getElem h,
    Option.getD_some]

theorem programInstructionsIter_eq (h : m.Sanitized) :
    m.programInstructionsIter = some (m.instructions.map fun ix =>
      (m.accountKeys.iter.getD ix.programIdIndex.toNat default, ix)) :=
  Lib.List.mapM_eq_some_of_forall fun ix hix => by
    rw [get_of_lt (h.programId_lt ix hix), Option.map_some]

/-- `decompile_instructions` reads every instruction whole. -/
theorem decompileInstructions_eq (h : m.Sanitized) :
    m.decompileInstructions = some (m.instructions.map fun ix =>
      ⟨m.accountKeys.iter.getD ix.programIdIndex.toNat default,
        ix.accounts.map fun a =>
          ⟨m.accountKeys.iter.getD a.toNat default, m.isSigner a.toNat, m.isWritable a.toNat⟩,
        ix.data⟩) := by
  rw [decompileInstructions, programInstructionsIter_eq h]
  simp only [Option.bind_eq_bind, Option.bind_some, List.mapM_map]
  apply Lib.List.mapM_eq_some_of_forall
  intro ix hix
  have hAccounts : ix.accounts.mapM (fun accountIndex =>
      (m.accountKeys.get accountIndex.toNat).map fun pubkey =>
        (⟨pubkey, m.isSigner accountIndex.toNat, m.isWritable accountIndex.toNat⟩ :
          BorrowedAccountMeta)) =
      some (ix.accounts.map fun a =>
        ⟨m.accountKeys.iter.getD a.toNat default, m.isSigner a.toNat, m.isWritable a.toNat⟩) :=
    Lib.List.mapM_eq_some_of_forall fun a ha => by
      rw [get_of_lt (h.account_lt ix hix a ha), Option.map_some]
  simp [hAccounts]

/-! ### The accessors of a sanitized message -/

theorem Sanitized.staticKeys_length_pos (h : m.Sanitized) : 0 < m.accountKeys.staticKeys.length := by
  have := h.header_le
  have := h.readonlySigned_lt
  omega

theorem Sanitized.length_pos (h : m.Sanitized) : 0 < m.accountKeys.iter.length :=
  Nat.lt_of_lt_of_le h.staticKeys_length_pos m.accountKeys.length_staticKeys_le

theorem Sanitized.numRequiredSignatures_le_len (h : m.Sanitized) :
    m.header.numRequiredSignatures.toNat ≤ m.accountKeys.len := by
  have hHeader := h.header_le
  have hStatic := m.accountKeys.length_staticKeys_le
  have hByte := m.header.numRequiredSignatures.toNat_lt
  have hMax : 256 ≤ maxValue 64 := by decide
  rw [AccountKeys.len_eq_min]
  omega

/-- The fee payer is writable unless it is a builtin program or a sysvar. -/
theorem Sanitized.isWritable_zero (h : m.Sanitized) :
    m.isWritable 0 = !isBuiltinKeyOrSysvar (m.accountKeys.iter.getD 0 default) := by
  have hPos := h.length_pos
  cases m with
  | legacy m =>
      have hKeys : 0 < m.accountKeys.length := by simpa using hPos
      rw [isWritable, LegacyMessage.isWritable_of_lt hKeys,
        Legacy.Message.isWritable_zero h.readonlySigned_lt h.programId_ne_zero hKeys]
      simp [List.getD_eq_getElem?_getD, List.getElem?_eq_getElem hKeys]
  | v0 m =>
      have hStatic : 0 < m.message.accountKeys.length := h.staticKeys_length_pos
      rw [isWritable, LoadedMessage.isWritable_of_lt hPos,
        LoadedMessage.isWritableInternal_zero h.readonlySigned_lt h.programId_ne_zero hStatic]
      simp [LoadedMessage.accountKeys, List.getD_eq_getElem?_getD, List.append_assoc,
        List.getElem?_append_left hStatic, List.getElem?_eq_getElem hStatic]

/-- Sanitization makes the accessors total. -/
theorem Sanitized.accessorsTotal (h : m.Sanitized) : m.AccessorsTotal where
  feePayer_isSome := by rw [feePayer, get_of_lt h.length_pos]; rfl
  programInstructionsIter_isSome := by rw [programInstructionsIter_eq h]; rfl
  decompileInstructions_isSome := by rw [decompileInstructions_eq h]; rfl
  programId_resolves ix hix := by rw [get_of_lt (h.programId_lt ix hix)]; rfl
  account_resolves ix hix a ha := by rw [get_of_lt (h.account_lt ix hix a ha)]; rfl
  getIxSigners_length ixIndex ix hIx := by
    rw [getIxSigners, hIx, List.length_filterMap_eq_countP, List.countP_eq_length]
    intro i hi
    have hSigner := (List.mem_filter.mp hi).2
    have hBound := h.header_le
    have hStatic := m.accountKeys.length_staticKeys_le
    simp only [isSigner, decide_eq_true_eq] at hSigner
    rw [get_of_lt (by omega)]
    rfl
  feePayer_signer := by
    have := h.readonlySigned_lt
    simp only [isSigner, decide_eq_true_eq]
    omega
  feePayer_not_program := h.programId_ne_zero
  feePayer_writable key hKey := by
    rw [feePayer, get_of_lt h.length_pos, Option.some.injEq] at hKey
    rw [h.isWritable_zero, hKey]
  writableRegions_fit := ⟨h.readonlySigned_lt, by
    have := h.header_le
    have := m.accountKeys.length_staticKeys_le
    omega⟩
  signer_lt i hi := by
    simp only [isSigner, decide_eq_true_eq] at hi
    exact ⟨hi, h.numRequiredSignatures_le_len⟩

/-! ### What `sanitize` gives -/

theorem Sanitized.of_legacy {m : Legacy.Message} (h : m.sanitize = .ok ()) :
    (SanitizedMessage.legacy m).Sanitized := by
  obtain ⟨hHeader, hReadonly, hInstructions⟩ := Legacy.Message.sanitize_eq_ok h
  refine ⟨?_, hReadonly, fun ix hix => ?_, fun ix hix => (hInstructions ix hix).2.1,
    fun ix hix => ?_⟩
  · simpa [accountKeys] using hHeader
  · simpa [accountKeys] using (hInstructions ix hix).1
  · simpa [accountKeys] using (hInstructions ix hix).2.2

/-- The keys of a version-0 message whose lookups loaded as many keys as they ask for: at most
`256`, the count that `sanitize` bounds. -/
theorem length_iter_of_v0 {m : V0.Message} {loaded : V0.LoadedAddresses} {numDynamic : Nat}
    (hDynamic : V0.Message.numDynamicAccountKeys m.addressTableLookups = .ok numDynamic)
    (hTotal : m.accountKeys.length + numDynamic ≤ 256)
    (hWritable : loaded.writable.length =
      (m.addressTableLookups.map (·.writableIndexes.length)).sum)
    (hReadonly : loaded.readonly.length =
      (m.addressTableLookups.map (·.readonlyIndexes.length)).sum) :
    (SanitizedMessage.v0 ⟨m, loaded⟩).accountKeys.iter.length =
      m.accountKeys.length + numDynamic := by
  have hSum := V0.Message.numDynamicAccountKeys_eq_ok hDynamic
  rw [List.sum_map_add, ← hWritable, ← hReadonly] at hSum
  have hMax : 256 < maxValue 64 := by decide
  simp only [accountKeys, LoadedMessage.accountKeys, AccountKeys.iter_mk_some, List.length_append]
  omega

theorem Sanitized.of_v0 {m : V0.Message} {loaded : V0.LoadedAddresses}
    {rejectDynamicProgramIds : Bool} (h : m.sanitize rejectDynamicProgramIds = .ok ())
    (hWritable : loaded.writable.length =
      (m.addressTableLookups.map (·.writableIndexes.length)).sum)
    (hReadonly : loaded.readonly.length =
      (m.addressTableLookups.map (·.readonlyIndexes.length)).sum) :
    (SanitizedMessage.v0 ⟨m, loaded⟩).Sanitized := by
  obtain ⟨numDynamic, hDynamic, hHeader, hSigned, hTotal, hInstructions⟩ :=
    V0.Message.sanitize_eq_ok h
  have hLength := length_iter_of_v0 hDynamic hTotal hWritable hReadonly
  refine ⟨hHeader, hSigned, fun ix hix => ?_, fun ix hix => (hInstructions ix hix).2.1,
    fun ix hix a ha => ?_⟩
  · have hProgram := (hInstructions ix hix).1
    split_ifs at hProgram <;> omega
  · have hAccount := (hInstructions ix hix).2.2 a ha
    omega

/-- A version-0 message has at most `256` keys. -/
theorem len_v0_le {m : V0.Message} {loaded : V0.LoadedAddresses}
    {rejectDynamicProgramIds : Bool} (h : m.sanitize rejectDynamicProgramIds = .ok ())
    (hWritable : loaded.writable.length =
      (m.addressTableLookups.map (·.writableIndexes.length)).sum)
    (hReadonly : loaded.readonly.length =
      (m.addressTableLookups.map (·.readonlyIndexes.length)).sum) :
    (SanitizedMessage.v0 ⟨m, loaded⟩).accountKeys.len ≤ 256 := by
  obtain ⟨numDynamic, hDynamic, -, -, hTotal, -⟩ := V0.Message.sanitize_eq_ok h
  rw [AccountKeys.len_eq_min, length_iter_of_v0 hDynamic hTotal hWritable hReadonly]
  omega

/-- With dynamic program ids refused, every program is a static key. -/
theorem programId_lt_static {m : V0.Message} (h : m.sanitize true = .ok ()) :
    ∀ ix ∈ m.instructions, ix.programIdIndex.toNat < m.accountKeys.length := by
  obtain ⟨numDynamic, -, -, -, -, hInstructions⟩ := V0.Message.sanitize_eq_ok h
  intro ix hix
  simpa using (hInstructions ix hix).1

end SanitizedMessage

/-- Sanitization makes every accessor of a message total. A legacy message that passes
`sanitize`, and a version-0 message that passes `sanitize` with lookups that loaded as many keys
as they ask for, give accessors that never reach a missing key, a fee payer at index `0` that
signs, runs no instruction and is writable unless it is a builtin program or a sysvar, and
signers below the count of required signatures, itself at most the count of keys. A version-0
message has at most `256` keys and, with dynamic program ids refused, only static programs. -/
theorem sanitized_message_accessors_total :
    (∀ m : Legacy.Message, m.sanitize = .ok () → (SanitizedMessage.legacy m).AccessorsTotal) ∧
    ∀ (m : V0.Message) (loaded : V0.LoadedAddresses) (rejectDynamicProgramIds : Bool),
      m.sanitize rejectDynamicProgramIds = .ok () →
      loaded.writable.length = (m.addressTableLookups.map (·.writableIndexes.length)).sum →
      loaded.readonly.length = (m.addressTableLookups.map (·.readonlyIndexes.length)).sum →
      (SanitizedMessage.v0 ⟨m, loaded⟩).AccessorsTotal ∧
        (SanitizedMessage.v0 ⟨m, loaded⟩).accountKeys.len ≤ 256 ∧
        (rejectDynamicProgramIds = true →
          ∀ ix ∈ m.instructions, ix.programIdIndex.toNat < m.accountKeys.length) := by
  refine ⟨fun m h => (SanitizedMessage.Sanitized.of_legacy h).accessorsTotal, ?_⟩
  intro m loaded rejectDynamicProgramIds h hWritable hReadonly
  refine ⟨(SanitizedMessage.Sanitized.of_v0 h hWritable hReadonly).accessorsTotal,
    SanitizedMessage.len_v0_le h hWritable hReadonly, ?_⟩
  rintro rfl
  exact SanitizedMessage.programId_lt_static h

/-- A legacy message whose fee payer is the clock sysvar, with `257` keys. -/
def sysvarPayerMessage : Legacy.Message :=
  ⟨⟨1, 0, 0⟩, clockId :: List.replicate 256 Pubkey.default, Hash.default, []⟩

/-- `sanitize` accepts a legacy message with a read-only fee payer and more than `256` keys. -/
theorem sanitize_accepts_sysvar_payer_and_257_keys :
    sysvarPayerMessage.sanitize = .ok () ∧
      (SanitizedMessage.legacy sysvarPayerMessage).isWritable 0 = false ∧
      256 < (SanitizedMessage.legacy sysvarPayerMessage).accountKeys.len := by
  refine ⟨by decide +kernel, by decide +kernel, by decide +kernel⟩

/-- A version-0 message of two static keys and two looked-up keys, one instruction of the second
static key over the payer and both looked-up keys. -/
def lookupMessage : V0.Message :=
  ⟨⟨1, 0, 1⟩, [⟨Vector.replicate 32 9⟩, voteProgramId], Hash.default, [⟨1, [0, 2, 3], []⟩],
    [⟨⟨Vector.replicate 32 5⟩, [0], [1]⟩]⟩

theorem sanitized_message_accessors_total_examples :
    (SanitizedMessage.legacy sysvarPayerMessage).AccessorsTotal ∧
      (SanitizedMessage.v0 ⟨lookupMessage,
        ⟨[⟨Vector.replicate 32 6⟩], [⟨Vector.replicate 32 4⟩]⟩⟩).AccessorsTotal :=
  ⟨sanitized_message_accessors_total.1 sysvarPayerMessage (by decide +kernel),
    (sanitized_message_accessors_total.2 lookupMessage _ true (by decide +kernel) rfl rfl).1⟩

end PutValidator
