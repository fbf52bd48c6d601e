import PutValidator.AddressLookupTable.State
import PutValidator.SystemProgram.Processor
import PutValidator.Lib.Run

/-! The address lookup table program (`programs/address-lookup-table/src/processor.rs`) on the
table account. An instruction reads the table account, the authority and the payer (instruction
accounts 1 and 2, where the instruction has them) and the sysvars; a successful one leaves a new
table account, a failed one leaves nothing, as the transaction is rolled back. The system program
calls of `native_invoke` are their effect on the table: the transfer from the payer, the
allocation and the assignment to the program.

`TableInvariant` is what every run of the program keeps of the table account: an account the
program does not own, or the layout of a table within its bounds. `Extends` is how a table may
change along a run: its addresses only grow at the end, and a frozen or deactivated table does not
change at all. From the two follow the facts about lookups at later slots. -/
namespace PutValidator.AddressLookupTableProgram

open Lib.Codec Lib.Except

/-- `usize::MAX`. -/
def usizeMax : Nat := 2 ^ 64 - 1

/-- `checked_add` on `usize`. -/
def checkedAdd (a b : Nat) : Except InstructionError Nat :=
  if a + b ≤ usizeMax then .ok (a + b) else .error .arithmeticOverflow

/-- The payer of an instruction: its key, whether it signed, and its account. -/
structure Payer where
  key : Pubkey
  isSigner : Bool
  account : AccountSharedData

/-- What an instruction of the program reads besides the table account: the table's key, the
authority's key and signature, the payer, the clock's slot (a `u64`), the `SlotHashes` and
`Rent` sysvars, and whether `relax_authority_signer_check_for_lookup_table_creation` is active. -/
structure TableInvocation where
  tableKey : Pubkey
  authority : Option (Pubkey × Bool)
  payer : Option Payer
  slot : Nat
  slot_lt : slot < 2 ^ 64
  slotHashes : List (Nat × Hash)
  rent : Rent
  relaxAuthoritySignerCheckForLookupTableCreation : Bool

/-- `ProgramInstruction`, without `CloseLookupTable`. -/
inductive ProgramInstruction
  | createLookupTable (recentSlot : Nat) (bumpSeed : UInt8)
  | freezeLookupTable
  | extendLookupTable (newAddresses : List Pubkey)
  | deactivateLookupTable
deriving DecidableEq, Repr

/-! ### The system program's calls, on the table -/

/-- `system_instruction::transfer` of `lamports` from the payer to the table: the payer's checks
of `transfer_verified`, then the table's credit. A payer that is the table pays itself. -/
def transferToTable (inv : TableInvocation) (payer : Payer) (table : AccountSharedData)
    (lamports : Nat) : Except InstructionError AccountSharedData := do
  let fromAccount := if payer.key = inv.tableKey then table else payer.account
  failIf (fromAccount.data ≠ []) .invalidArgument
  failIf (fromAccount.lamports < lamports) SystemError.resultWithNegativeLamports.toInstructionError
  if payer.key = inv.tableKey then pure table
  else do
    failIf (2 ^ 128 ≤ table.lamports + lamports) .arithmeticOverflow
    pure { table with lamports := table.lamports + lamports }

/-- `system_instruction::allocate` of the table, which signs through the program. -/
def allocateTable (table : AccountSharedData) (space : Nat) :
    Except InstructionError AccountSharedData := do
  failIf (table.data ≠ [] ∨ table.owner ≠ systemProgramId)
    SystemError.accountAlreadyInUse.toInstructionError
  failIf (maxPermittedDataLength < space) SystemError.invalidAccountDataLength.toInstructionError
  pure { table with data := List.replicate space 0 }

/-- `system_instruction::assign` of the table to `owner`. -/
def assignTable (table : AccountSharedData) (owner : Pubkey) : AccountSharedData :=
  { table with owner }

/-- `set_state` of a program state on the table. -/
def setTableState (table : AccountSharedData) (state : ProgramState) :
    Except InstructionError AccountSharedData := do
  let serialized := Wire.programState.encode state
  failIf (table.data.length < serialized.length) .accountDataTooSmall
  pure { table with data := serialized ++ table.data.drop serialized.length }

/-- The transfer of the lamports the table lacks, when it lacks any. -/
def fundTable (inv : TableInvocation) (payer : Payer) (table : AccountSharedData)
    (requiredLamports : Nat) : Except InstructionError AccountSharedData :=
  if requiredLamports > 0 then transferToTable inv payer table requiredLamports else pure table

/-! ### The handlers -/

section Handlers

variable (sha256 : List UInt8 → Hash) (bytesAreCurvePoint : Hash → Bool)

/-- `create_lookup_table`. -/
def createLookupTable (inv : TableInvocation) (table : AccountSharedData)
    (untrustedRecentSlot : Nat) (bumpSeed : UInt8) : Except InstructionError AccountSharedData := do
  let relax := inv.relaxAuthoritySignerCheckForLookupTableCreation
  failIf (relax = false ∧ table.data ≠ []) .accountAlreadyInitialized
  let (authorityKey, authorityIsSigner) ← okOr inv.authority .notEnoughAccountKeys
  failIf (relax = false ∧ authorityIsSigner = false) .missingRequiredSignature
  let payer ← okOr inv.payer .notEnoughAccountKeys
  failIf (payer.isSigner = false) .missingRequiredSignature
  failIf (slotHashesPosition inv.slotHashes untrustedRecentSlot = none) .invalidInstructionData
  let derivationSlot := untrustedRecentSlot
  let derivedTableKey ← (createProgramAddress sha256 bytesAreCurvePoint
    [authorityKey.bytes.toList, encodeLE 8 derivationSlot, [bumpSeed]] addressLookupTableId).mapError
    PubkeyError.toInstructionError
  failIf (inv.tableKey ≠ derivedTableKey) .invalidArgument
  -- with the feature, a table the program already owns is left as it is
  if relax = true ∧ table.owner = addressLookupTableId then pure table
  else do
    let requiredLamports := max (inv.rent.minimumBalance lookupTableMetaSize) 1 - table.lamports
    let table ← fundTable inv payer table requiredLamports
    let table ← allocateTable table lookupTableMetaSize
    let table := assignTable table addressLookupTableId
    setTableState table (.lookupTable (LookupTableMeta.new authorityKey))

end Handlers

/-- The checks that freeze, extend and deactivate make, in this order, before their own: the table
is the program's, the authority signed, and the table deserializes and is neither frozen, nor
another authority's, nor deactivated. -/
def authorizedLookupTable (inv : TableInvocation) (table : AccountSharedData) :
    Except InstructionError AddressLookupTable := do
  failIf (table.owner ≠ addressLookupTableId) .invalidAccountOwner
  let (authorityKey, authorityIsSigner) ← okOr inv.authority .notEnoughAccountKeys
  failIf (authorityIsSigner = false) .missingRequiredSignature
  let lookupTable ← AddressLookupTable.deserialize table.data
  failIf (lookupTable.tableMeta.authority = none) .immutable
  failIf (lookupTable.tableMeta.authority ≠ some authorityKey) .incorrectAuthority
  failIf (lookupTable.tableMeta.deactivationSlot ≠ slotMax) .invalidArgument
  pure lookupTable

/-- `freeze_lookup_table`. -/
def freezeLookupTable (inv : TableInvocation) (table : AccountSharedData) :
    Except InstructionError AccountSharedData := do
  let lookupTable ← authorizedLookupTable inv table
  failIf (lookupTable.addresses = []) .invalidInstructionData
  let data ← AddressLookupTable.overwriteMetaData table.data
    { lookupTable.tableMeta with authority := none }
  pure { table with data }

/-- The metadata of an extension: the first extension in a slot records the slot, and the number
of addresses before it as a `u8`. -/
def extendedMeta (inv : TableInvocation) (lookupTable : AddressLookupTable) :
    Except InstructionError LookupTableMeta :=
  if inv.slot ≠ lookupTable.tableMeta.lastExtendedSlot then do
    failIf (2 ^ 8 ≤ lookupTable.addresses.length) .invalidAccountData
    pure { lookupTable.tableMeta with
      lastExtendedSlot := inv.slot
      lastExtendedSlotStartIndex := lookupTable.addresses.length }
  else pure lookupTable.tableMeta

/-- `extend_lookup_table`. -/
def extendLookupTable (inv : TableInvocation) (table : AccountSharedData)
    (newAddresses : List Pubkey) : Except InstructionError AccountSharedData := do
  let lookupTableLamports := table.lamports
  let lookupTable ← authorizedLookupTable inv table
  failIf (lookupTableMaxAddresses ≤ lookupTable.addresses.length) .invalidArgument
  failIf (newAddresses = []) .invalidInstructionData
  let newTableAddressesLen := min (lookupTable.addresses.length + newAddresses.length) usizeMax
  failIf (lookupTableMaxAddresses < newTableAddressesLen) .invalidInstructionData
  let lookupTableMeta ← extendedMeta inv lookupTable
  let newTableDataLen ← checkedAdd lookupTableMetaSize (min (newTableAddressesLen * 32) usizeMax)
  let data ← AddressLookupTable.overwriteMetaData table.data lookupTableMeta
  let table := { table with data := data ++ newAddresses.flatMap (·.bytes.toList) }
  let requiredLamports := max (inv.rent.minimumBalance newTableDataLen) 1 - lookupTableLamports
  if requiredLamports > 0 then do
    let payer ← okOr inv.payer .notEnoughAccountKeys
    failIf (payer.isSigner = false) .missingRequiredSignature
    transferToTable inv payer table requiredLamports
  else pure table

/-- `deactivate_lookup_table`. -/
def deactivateLookupTable (inv : TableInvocation) (table : AccountSharedData) :
    Except InstructionError AccountSharedData := do
  let lookupTable ← authorizedLookupTable inv table
  let data ← AddressLookupTable.overwriteMetaData table.data
    { lookupTable.tableMeta with deactivationSlot := inv.slot }
  pure { table with data }

/-- An instruction of the program with what it reads. -/
structure TableRequest where
  invocation : TableInvocation
  instruction : ProgramInstruction

/-- `process_instruction`, on the table account. -/
def processInstruction (sha256 : List UInt8 → Hash) (bytesAreCurvePoint : Hash → Bool)
    (table : AccountSharedData) (request : TableRequest) :
    Except InstructionError AccountSharedData :=
  match request.instruction with
  | .createLookupTable recentSlot bumpSeed =>
      createLookupTable sha256 bytesAreCurvePoint request.invocation table recentSlot bumpSeed
  | .freezeLookupTable => freezeLookupTable request.invocation table
  | .extendLookupTable newAddresses => extendLookupTable request.invocation table newAddresses
  | .deactivateLookupTable => deactivateLookupTable request.invocation table

/-- `Accounts::load_lookup_table_addresses` for one list of indexes: the account must be the
program's and deserialize. -/
def tableLookup (a : AccountSharedData) (currentSlot : Nat) (indexes : List UInt8)
    (slotHashes : List (Nat × Hash)) : Option (Except AddressLookupError (List Pubkey)) :=
  if a.owner = addressLookupTableId then
    match AddressLookupTable.deserialize a.data with
    | .ok lookupTable => lookupTable.lookup currentSlot indexes slotHashes
    | .error _ => some (.error .invalidAccountData)
  else some (.error .invalidAccountOwner)

/-- `Accounts::load_lookup_table_addresses`: the writable and the read-only addresses. -/
def loadLookupTableAddresses (a : AccountSharedData) (currentSlot : Nat)
    (writableIndexes readonlyIndexes : List UInt8) (slotHashes : List (Nat × Hash)) :
    Option (Except AddressLookupError (List Pubkey × List Pubkey)) :=
  match tableLookup a currentSlot writableIndexes slotHashes with
  | none => none
  | some (.error e) => some (.error e)
  | some (.ok writable) =>
      match tableLookup a currentSlot readonlyIndexes slotHashes with
      | none => none
      | some (.error e) => some (.error e)
      | some (.ok readonly) => some (.ok (writable, readonly))

end PutValidator.AddressLookupTableProgram

namespace PutValidator.AddressLookupTableProgram

open Lib.Codec Lib.Except AddressLookupTable

/-! ### Tables -/

/-- The account holds the table `t` in the program's layout. -/
structure IsTable (a : AccountSharedData) (t : AddressLookupTable) : Prop where
  owner : a.owner = addressLookupTableId
  data : a.data = tableData t
  fits : t.tableMeta.Fits

/-- A table within its bounds, last extended no later than `slot`. -/
structure ValidTable (slot : Nat) (a : AccountSharedData) (t : AddressLookupTable) : Prop
    extends IsTable a t where
  start_le : t.tableMeta.lastExtendedSlotStartIndex ≤ t.addresses.length
  length_le : t.addresses.length ≤ lookupTableMaxAddresses
  lastExtended_le : t.tableMeta.lastExtendedSlot ≤ slot

/-- What every run of the program keeps of an account that starts outside it: the program does
not own it, or it holds a table within its bounds. -/
def TableInvariant (slot : Nat) (a : AccountSharedData) : Prop :=
  a.owner ≠ addressLookupTableId ∨ ∃ t, ValidTable slot a t

theorem IsTable.deserialize_eq {a : AccountSharedData} {t : AddressLookupTable} (h : IsTable a t) :
    deserialize a.data = .ok t := by
  rw [h.data, deserialize_tableData h.fits]

/-- An account holds at most one table. -/
theorem IsTable.unique {a : AccountSharedData} {t u : AddressLookupTable} (ht : IsTable a t)
    (hu : IsTable a u) : t = u :=
  Except.ok.inj (ht.deserialize_eq.symm.trans hu.deserialize_eq)

theorem ValidTable.mono {s s' : Nat} {a : AccountSharedData} {t : AddressLookupTable}
    (h : ValidTable s a t) (hs : s ≤ s') : ValidTable s' a t :=
  { h with lastExtended_le := Nat.le_trans h.lastExtended_le hs }

theorem TableInvariant.mono {s s' : Nat} {a : AccountSharedData} (hs : s ≤ s')
    (h : TableInvariant s a) : TableInvariant s' a :=
  h.imp id fun ⟨t, ht⟩ => ⟨t, ht.mono hs⟩

/-! ### What a successful instruction did -/

section Steps

variable {inv : TableInvocation} {a b : AccountSharedData} {t : AddressLookupTable}

theorem authorizedLookupTable_eq_ok {lookupTable : AddressLookupTable}
    (h : authorizedLookupTable inv a = .ok lookupTable) :
    a.owner = addressLookupTableId ∧ deserialize a.data = .ok lookupTable ∧
      lookupTable.tableMeta.authority ≠ none ∧ lookupTable.tableMeta.deactivationSlot = slotMax := by
  simp only [authorizedLookupTable, bind_eq_ok, failIf_eq_ok, not_not, pure_eq_ok] at h
  obtain ⟨_, hOwner, _, -, _, -, lookupTable', hTable, _, hAuthority, _, -, _, hActive, rfl⟩ := h
  exact ⟨hOwner, hTable, hAuthority, hActive⟩

/-- The handlers of an existing table refuse an account the program does not own. -/
theorem authorizedLookupTable_owner {lookupTable : AddressLookupTable}
    (h : authorizedLookupTable inv a = .ok lookupTable) : a.owner = addressLookupTableId :=
  (authorizedLookupTable_eq_ok h).1

/-- What the handlers of an existing table read of a table they accept. -/
theorem authorizedLookupTable_of_isTable {lookupTable : AddressLookupTable} (ht : IsTable a t)
    (h : authorizedLookupTable inv a = .ok lookupTable) :
    lookupTable = t ∧ t.tableMeta.authority ≠ none ∧ t.tableMeta.deactivationSlot = slotMax := by
  obtain ⟨-, hTable, hAuthority, hActive⟩ := authorizedLookupTable_eq_ok h
  obtain rfl : lookupTable = t := Except.ok.inj (hTable.symm.trans ht.deserialize_eq)
  exact ⟨rfl, hAuthority, hActive⟩

theorem freezeLookupTable_eq_ok (ht : IsTable a t) (h : freezeLookupTable inv a = .ok b) :
    t.tableMeta.authority ≠ none ∧ t.tableMeta.deactivationSlot = slotMax ∧
      b = { a with data := tableData { t with tableMeta := { t.tableMeta with authority := none } } } := by
  simp only [freezeLookupTable, bind_eq_ok, failIf_eq_ok, pure_eq_ok] at h
  obtain ⟨lookupTable, hAuthorized, _, -, data, hData, rfl⟩ := h
  obtain ⟨rfl, hAuthority, hActive⟩ := authorizedLookupTable_of_isTable ht hAuthorized
  rw [ht.data, overwriteMetaData_tableData] at hData
  exact ⟨hAuthority, hActive, by rw [Except.ok.inj hData]⟩

theorem deactivateLookupTable_eq_ok (ht : IsTable a t) (h : deactivateLookupTable inv a = .ok b) :
    t.tableMeta.authority ≠ none ∧ t.tableMeta.deactivationSlot = slotMax ∧
      b = { a with data := tableData { t with tableMeta := { t.tableMeta with deactivationSlot := inv.slot } } } := by
  simp only [deactivateLookupTable, bind_eq_ok, pure_eq_ok] at h
  obtain ⟨lookupTable, hAuthorized, data, hData, rfl⟩ := h
  obtain ⟨rfl, hAuthority, hActive⟩ := authorizedLookupTable_of_isTable ht hAuthorized
  rw [ht.data, overwriteMetaData_tableData] at hData
  exact ⟨hAuthority, hActive, by rw [Except.ok.inj hData]⟩

/-- The system program's transfer only moves lamports. -/
theorem transferToTable_eq_ok {payer : Payer} {lamports : Nat}
    (h : transferToTable inv payer a lamports = .ok b) : b.owner = a.owner ∧ b.data = a.data := by
  simp only [transferToTable, bind_eq_ok, failIf_eq_ok] at h
  obtain ⟨_, -, _, -, h⟩ := h
  split at h
  · obtain rfl := pure_eq_ok.mp h
    exact ⟨rfl, rfl⟩
  · simp only [bind_eq_ok, failIf_eq_ok, pure_eq_ok] at h
    obtain ⟨_, -, rfl⟩ := h
    exact ⟨rfl, rfl⟩

theorem fundTable_eq_ok {payer : Payer} {requiredLamports : Nat}
    (h : fundTable inv payer a requiredLamports = .ok b) : b.owner = a.owner ∧ b.data = a.data := by
  unfold fundTable at h
  split at h
  · exact transferToTable_eq_ok h
  · obtain rfl := pure_eq_ok.mp h
    exact ⟨rfl, rfl⟩

/-- A table the program owns is left as it is by a creation, which needs the feature to pass its
first check and then returns early. -/
theorem createLookupTable_of_isTable {sha256 : List UInt8 → Hash} {bytesAreCurvePoint : Hash → Bool}
    {recentSlot : Nat} {bumpSeed : UInt8} (ht : IsTable a t)
    (h : createLookupTable sha256 bytesAreCurvePoint inv a recentSlot bumpSeed = .ok b) : b = a := by
  simp only [createLookupTable, bind_eq_ok, failIf_eq_ok] at h
  obtain ⟨_, hAllocated, _, -, _, -, _, -, _, -, _, -, _, -, _, -, h⟩ := h
  have hNonempty : a.data ≠ [] := by
    rw [ht.data]
    exact List.ne_nil_of_length_pos (by rw [length_tableData]; unfold lookupTableMetaSize; omega)
  have hRelax : inv.relaxAuthoritySignerCheckForLookupTableCreation = true := by
    simpa [hNonempty] using hAllocated
  rw [if_pos ⟨hRelax, ht.owner⟩] at h
  exact (pure_eq_ok.mp h).symm

theorem fits_new (authority : Pubkey) : (LookupTableMeta.new authority).Fits := by
  refine ⟨?_, ?_, ?_, ?_⟩ <;> simp [LookupTableMeta.new, LookupTableMeta.default, slotMax]

/-- A creation on an account the program does not own leaves an empty table of the authority. -/
theorem createLookupTable_eq_ok {sha256 : List UInt8 → Hash} {bytesAreCurvePoint : Hash → Bool}
    {recentSlot : Nat} {bumpSeed : UInt8} (hOwner : a.owner ≠ addressLookupTableId)
    (h : createLookupTable sha256 bytesAreCurvePoint inv a recentSlot bumpSeed = .ok b) :
    ∃ authority, IsTable b ⟨LookupTableMeta.new authority, []⟩ := by
  simp only [createLookupTable, bind_eq_ok, failIf_eq_ok] at h
  obtain ⟨_, -, ⟨authority, _⟩, -, _, -, _, -, _, -, _, -, _, -, _, -, h⟩ := h
  rw [if_neg fun hOwned => hOwner hOwned.2] at h
  simp only [bind_eq_ok] at h
  obtain ⟨funded, hFunded, allocated, hAllocated, hState⟩ := h
  simp only [allocateTable, bind_eq_ok, failIf_eq_ok, pure_eq_ok] at hAllocated
  obtain ⟨_, -, _, -, rfl⟩ := hAllocated
  simp only [setTableState, bind_eq_ok, pure_eq_ok, assignTable] at hState
  obtain ⟨_, -, rfl⟩ := hState
  refine ⟨authority, ⟨rfl, ?_, fits_new authority⟩⟩
  have hLength := Wire.length_encode_programState (LookupTableMeta.new authority)
  simp only [LookupTableMeta.new, Option.isSome_some, if_true] at hLength
  simp [tableData, metaData, LookupTableMeta.new, hLength, lookupTableMetaSize]

theorem extendedMeta_eq_ok {lookupTableMeta : LookupTableMeta}
    (h : extendedMeta inv t = .ok lookupTableMeta) :
    (inv.slot ≠ t.tableMeta.lastExtendedSlot ∧ t.addresses.length < 2 ^ 8 ∧
        lookupTableMeta = { t.tableMeta with
          lastExtendedSlot := inv.slot
          lastExtendedSlotStartIndex := t.addresses.length }) ∨
      (inv.slot = t.tableMeta.lastExtendedSlot ∧ lookupTableMeta = t.tableMeta) := by
  unfold extendedMeta at h
  split at h
  · rename_i hSlot
    simp only [bind_eq_ok, failIf_eq_ok, pure_eq_ok, not_le] at h
    obtain ⟨_, hCount, rfl⟩ := h
    exact .inl ⟨hSlot, hCount, rfl⟩
  · rename_i hSlot
    exact .inr ⟨not_not.mp hSlot, (pure_eq_ok.mp h).symm⟩

theorem extendLookupTable_eq_ok {newAddresses : List Pubkey} (ht : IsTable a t)
    (h : extendLookupTable inv a newAddresses = .ok b) :
    t.tableMeta.authority ≠ none ∧ t.tableMeta.deactivationSlot = slotMax ∧
      t.addresses.length + newAddresses.length ≤ lookupTableMaxAddresses ∧
      ∃ lookupTableMeta, extendedMeta inv t = .ok lookupTableMeta ∧ b.owner = a.owner ∧
        b.data = tableData ⟨lookupTableMeta, t.addresses ++ newAddresses⟩ := by
  simp only [extendLookupTable, bind_eq_ok, failIf_eq_ok] at h
  obtain ⟨lookupTable, hAuthorized, _, -, _, -, _, hFull, lookupTableMeta, hMeta, _, -, data,
    hData, h⟩ := h
  obtain ⟨rfl, hAuthority, hActive⟩ := authorizedLookupTable_of_isTable ht hAuthorized
  rw [ht.data, overwriteMetaData_tableData] at hData
  obtain rfl := Except.ok.inj hData
  -- what the table holds before the payer's transfer
  have hWritten : ∀ c : AccountSharedData, c.owner = a.owner →
      c.data = tableData { lookupTable with tableMeta := lookupTableMeta } ++
        newAddresses.flatMap (·.bytes.toList) →
      c.owner = a.owner ∧ c.data = tableData ⟨lookupTableMeta, lookupTable.addresses ++ newAddresses⟩ :=
    fun c hOwner hData => ⟨hOwner, by simp [hData, tableData, PutValidator.Wire.pubkey, map, fixed]⟩
  refine ⟨hAuthority, hActive, by unfold usizeMax lookupTableMaxAddresses at *; omega,
    lookupTableMeta, hMeta, ?_⟩
  split at h
  · simp only [bind_eq_ok, failIf_eq_ok] at h
    obtain ⟨_, -, _, -, hTransfer⟩ := h
    obtain ⟨hOwner, hData⟩ := transferToTable_eq_ok hTransfer
    exact hWritten b hOwner hData
  · obtain rfl := pure_eq_ok.mp h
    exact hWritten _ rfl rfl

end Steps

end PutValidator.AddressLookupTableProgram

namespace PutValidator.AddressLookupTableProgram

open Lib.Codec Lib.Except AddressLookupTable

/-! ### How a table changes along a run -/

/-- A frozen or deactivated table. -/
def AddressLookupTable.Settled (t : AddressLookupTable) : Prop :=
  t.tableMeta.authority = none ∨ t.tableMeta.deactivationSlot ≠ slotMax

/-- How the last extension of a table may move: it stays with its start index, or it moves to a
later slot with a start index past every address the table had. -/
def ExtensionAfter (t u : AddressLookupTable) : Prop :=
  (u.tableMeta.lastExtendedSlot = t.tableMeta.lastExtendedSlot ∧
      u.tableMeta.lastExtendedSlotStartIndex = t.tableMeta.lastExtendedSlotStartIndex) ∨
    (t.tableMeta.lastExtendedSlot < u.tableMeta.lastExtendedSlot ∧
      t.addresses.length ≤ u.tableMeta.lastExtendedSlotStartIndex)

/-- How a table changes along a run: it stays a table, its addresses only grow at the end, its
last extension only moves forward, and a frozen or deactivated table does not change at all. -/
def Extends (a b : AccountSharedData) : Prop :=
  ∀ t, IsTable a t → ∃ u, IsTable b u ∧ t.addresses <+: u.addresses ∧ ExtensionAfter t u ∧
    (t.Settled → b = a)

theorem ExtensionAfter.refl (t : AddressLookupTable) : ExtensionAfter t t := .inl ⟨rfl, rfl⟩

theorem ExtensionAfter.trans {t u w : AddressLookupTable} (hPrefix : t.addresses <+: u.addresses)
    (htu : ExtensionAfter t u) (huw : ExtensionAfter u w) : ExtensionAfter t w := by
  have hLength := hPrefix.length_le
  unfold ExtensionAfter at *
  omega

theorem Extends.refl (a : AccountSharedData) : Extends a a :=
  fun t ht => ⟨t, ht, List.prefix_refl _, .refl t, fun _ => rfl⟩

theorem Extends.trans {a b c : AccountSharedData} (hab : Extends a b) (hbc : Extends b c) :
    Extends a c := by
  intro t ht
  obtain ⟨u, hu, htu, hAfter, hSettled⟩ := hab t ht
  obtain ⟨w, hw, huw, hAfter', hSettled'⟩ := hbc u hu
  refine ⟨w, hw, htu.trans huw, hAfter.trans htu hAfter', fun hFixed => ?_⟩
  -- a settled table is left as it is, so the second part starts from the same table
  obtain rfl := hSettled hFixed
  obtain rfl := ht.unique hu
  exact hSettled' hFixed

/-- Every change of an account the program does not own is allowed. -/
theorem extends_of_owner_ne {a b : AccountSharedData} (h : a.owner ≠ addressLookupTableId) :
    Extends a b :=
  fun _ ht => absurd ht.owner h

/-- A change of an active table into a table that extends it. -/
theorem extends_of_isTable {a b : AccountSharedData} {t u : AddressLookupTable} (ht : IsTable a t)
    (hu : IsTable b u) (hPrefix : t.addresses <+: u.addresses) (hAfter : ExtensionAfter t u)
    (hAuthority : t.tableMeta.authority ≠ none) (hActive : t.tableMeta.deactivationSlot = slotMax) :
    Extends a b := by
  intro t' ht'
  obtain rfl := ht.unique ht'
  refine ⟨u, hu, hPrefix, hAfter, fun hSettled => ?_⟩
  exact absurd hSettled (by simp [AddressLookupTable.Settled, hAuthority, hActive])

/-! ### One step -/

section Step

variable {sha256 : List UInt8 → Hash} {bytesAreCurvePoint : Hash → Bool}
  {inv : TableInvocation} {a b : AccountSharedData} {t : AddressLookupTable} {s : Nat}

theorem freeze_step (ht : ValidTable s a t) (hs : s ≤ inv.slot)
    (h : freezeLookupTable inv a = .ok b) : TableInvariant inv.slot b ∧ Extends a b := by
  obtain ⟨hAuthority, hActive, rfl⟩ := freezeLookupTable_eq_ok ht.toIsTable h
  have hu : ValidTable inv.slot { a with data := tableData { t with tableMeta :=
      { t.tableMeta with authority := none } } } { t with tableMeta := { t.tableMeta with authority := none } } :=
    { owner := ht.owner, data := rfl, fits := ht.fits, start_le := ht.start_le,
      length_le := ht.length_le, lastExtended_le := Nat.le_trans ht.lastExtended_le hs }
  exact ⟨.inr ⟨_, hu⟩, extends_of_isTable ht.toIsTable hu.toIsTable (List.prefix_refl _)
    (.inl ⟨rfl, rfl⟩) hAuthority hActive⟩

theorem deactivate_step (ht : ValidTable s a t) (hs : s ≤ inv.slot)
    (h : deactivateLookupTable inv a = .ok b) : TableInvariant inv.slot b ∧ Extends a b := by
  obtain ⟨hAuthority, hActive, rfl⟩ := deactivateLookupTable_eq_ok ht.toIsTable h
  have hu : ValidTable inv.slot { a with data := tableData { t with tableMeta :=
      { t.tableMeta with deactivationSlot := inv.slot } } }
      { t with tableMeta := { t.tableMeta with deactivationSlot := inv.slot } } :=
    { owner := ht.owner, data := rfl,
      fits := ⟨inv.slot_lt, ht.fits.2.1, ht.fits.2.2.1, ht.fits.2.2.2⟩,
      start_le := ht.start_le, length_le := ht.length_le,
      lastExtended_le := Nat.le_trans ht.lastExtended_le hs }
  exact ⟨.inr ⟨_, hu⟩, extends_of_isTable ht.toIsTable hu.toIsTable (List.prefix_refl _)
    (.inl ⟨rfl, rfl⟩) hAuthority hActive⟩

/-- An extension leaves the table with the new addresses at the end and its metadata updated as
`extendedMeta` says, within its bounds. -/
theorem extendLookupTable_valid {newAddresses : List Pubkey} (ht : ValidTable s a t)
    (hs : s ≤ inv.slot) (h : extendLookupTable inv a newAddresses = .ok b) :
    t.tableMeta.authority ≠ none ∧ t.tableMeta.deactivationSlot = slotMax ∧
      ∃ lookupTableMeta, extendedMeta inv t = .ok lookupTableMeta ∧
        ValidTable inv.slot b ⟨lookupTableMeta, t.addresses ++ newAddresses⟩ ∧
        ExtensionAfter t ⟨lookupTableMeta, t.addresses ++ newAddresses⟩ := by
  obtain ⟨hAuthority, hActive, hRoom, lookupTableMeta, hMeta, hOwner, hData⟩ :=
    extendLookupTable_eq_ok ht.toIsTable h
  refine ⟨hAuthority, hActive, lookupTableMeta, hMeta, ?_⟩
  have hLast := ht.lastExtended_le
  have hStart := ht.start_le
  have hFits := ht.fits
  -- the first extension in a slot moves the last extension forward; a later one keeps it
  rcases extendedMeta_eq_ok hMeta with ⟨hSlot, hCount, rfl⟩ | ⟨hSlot, rfl⟩
  · refine ⟨⟨⟨hOwner.trans ht.owner, hData, ?_⟩, ?_, ?_, le_refl _⟩, .inr ⟨?_, le_refl _⟩⟩
    · exact ⟨hFits.1, inv.slot_lt, hCount, hFits.2.2.2⟩
    · simp
    · simpa using hRoom
    · show t.tableMeta.lastExtendedSlot < inv.slot
      omega
  · refine ⟨⟨⟨hOwner.trans ht.owner, hData, hFits⟩, ?_, ?_, ?_⟩, .inl ⟨rfl, rfl⟩⟩
    · simp only [List.length_append]
      omega
    · simpa using hRoom
    · show t.tableMeta.lastExtendedSlot ≤ inv.slot
      omega

theorem extend_step {newAddresses : List Pubkey} (ht : ValidTable s a t) (hs : s ≤ inv.slot)
    (h : extendLookupTable inv a newAddresses = .ok b) : TableInvariant inv.slot b ∧ Extends a b := by
  obtain ⟨hAuthority, hActive, _, -, hu, hAfter⟩ := extendLookupTable_valid ht hs h
  exact ⟨.inr ⟨_, hu⟩, extends_of_isTable ht.toIsTable hu.toIsTable (List.prefix_append _ _)
    hAfter hAuthority hActive⟩

theorem create_step {recentSlot : Nat} {bumpSeed : UInt8} (hInv : TableInvariant s a)
    (hs : s ≤ inv.slot) (h : createLookupTable sha256 bytesAreCurvePoint inv a recentSlot bumpSeed = .ok b) :
    TableInvariant inv.slot b ∧ Extends a b := by
  rcases hInv with hOwner | ⟨t, ht⟩
  · obtain ⟨authority, hNew⟩ := createLookupTable_eq_ok hOwner h
    exact ⟨.inr ⟨_, ⟨hNew, le_refl _, Nat.zero_le _, Nat.zero_le _⟩⟩, extends_of_owner_ne hOwner⟩
  · obtain rfl := createLookupTable_of_isTable ht.toIsTable h
    exact ⟨.inr ⟨t, ht.mono hs⟩, .refl b⟩

/-- The step lemma: an instruction at a slot no earlier than the table's keeps the invariant and
changes the table as a run may. -/
theorem processInstruction_step {request : TableRequest} (hInv : TableInvariant s a)
    (hs : s ≤ request.invocation.slot)
    (h : processInstruction sha256 bytesAreCurvePoint a request = .ok b) :
    TableInvariant request.invocation.slot b ∧ Extends a b := by
  unfold processInstruction at h
  split at h
  · exact create_step hInv hs h
  all_goals
    rcases hInv with hOwner | ⟨t, ht⟩
    -- the handlers of an existing table refuse an account the program does not own
    · simp only [freezeLookupTable, extendLookupTable, deactivateLookupTable, bind_eq_ok] at h
      obtain ⟨_, hAuthorized, -⟩ := h
      exact absurd (authorizedLookupTable_owner hAuthorized) hOwner
  · exact freeze_step ht hs h
  · exact extend_step ht hs h
  · exact deactivate_step ht hs h

end Step

end PutValidator.AddressLookupTableProgram

namespace PutValidator.AddressLookupTableProgram

open Lib.Codec Lib.Except Lib.Run AddressLookupTable

/-! ### Runs -/

/-- The number of addresses of the table an account holds; none for an account the program does
not own. -/
def addressCount (a : AccountSharedData) : Nat :=
  if a.owner = addressLookupTableId then
    match deserialize a.data with
    | .ok t => t.addresses.length
    | .error _ => 0
  else 0

theorem addressCount_of_isTable {a : AccountSharedData} {t : AddressLookupTable} (ht : IsTable a t) :
    addressCount a = t.addresses.length := by
  simp [addressCount, ht.owner, ht.deserialize_eq]

/-- Seen from slot `s`, a table that had `n` addresses before `s`: an account the program does not
own only for `n = 0`; a table not yet extended in `s`, with its `n` addresses; a table extended in
`s`, with a start index of at most `n`. -/
def SeenFrom (s n : Nat) (a : AccountSharedData) : Prop :=
  (a.owner ≠ addressLookupTableId → n = 0) ∧ ∀ t, IsTable a t →
    (t.tableMeta.lastExtendedSlot < s ∧ t.addresses.length = n) ∨
      (t.tableMeta.lastExtendedSlot = s ∧ t.tableMeta.lastExtendedSlotStartIndex ≤ n)

theorem SeenFrom.of_isTable {s n : Nat} {b : AccountSharedData} {u : AddressLookupTable}
    (hu : IsTable b u)
    (h : (u.tableMeta.lastExtendedSlot < s ∧ u.addresses.length = n) ∨
      (u.tableMeta.lastExtendedSlot = s ∧ u.tableMeta.lastExtendedSlotStartIndex ≤ n)) :
    SeenFrom s n b :=
  ⟨fun hOwner => absurd hu.owner hOwner, fun _ hu' => hu.unique hu' ▸ h⟩

section Runs

variable {sha256 : List UInt8 → Hash} {bytesAreCurvePoint : Hash → Bool}
  {a b : AccountSharedData} {n : Nat}

/-- An instruction at slot `s` keeps what a lookup at `s` sees: the first extension in `s` records
the addresses the table had, and later ones keep that start. -/
theorem seenFrom_step {request : TableRequest} (hInv : TableInvariant request.invocation.slot a)
    (hSeen : SeenFrom request.invocation.slot n a)
    (h : processInstruction sha256 bytesAreCurvePoint a request = .ok b) :
    SeenFrom request.invocation.slot n b := by
  unfold processInstruction at h
  split at h
  · rcases hInv with hOwner | ⟨t, ht⟩
    · -- a new table was last extended at slot 0 and has no addresses
      obtain ⟨authority, hNew⟩ := createLookupTable_eq_ok hOwner h
      have hn := hSeen.1 hOwner
      refine SeenFrom.of_isTable hNew ?_
      simp only [LookupTableMeta.new, LookupTableMeta.default, List.length_nil, hn, and_true,
        le_refl]
      omega
    · rw [createLookupTable_of_isTable ht.toIsTable h]
      exact hSeen
  all_goals
    rcases hInv with hOwner | ⟨t, ht⟩
    · simp only [freezeLookupTable, extendLookupTable, deactivateLookupTable, bind_eq_ok] at h
      obtain ⟨_, hAuthorized, -⟩ := h
      exact absurd (authorizedLookupTable_owner hAuthorized) hOwner
  · obtain ⟨-, -, rfl⟩ := freezeLookupTable_eq_ok ht.toIsTable h
    exact SeenFrom.of_isTable ⟨ht.owner, rfl, ht.fits⟩ (hSeen.2 t ht.toIsTable)
  · obtain ⟨-, -, lookupTableMeta, hMeta, hu, -⟩ := extendLookupTable_valid ht (le_refl _) h
    have hBefore := hSeen.2 t ht.toIsTable
    refine SeenFrom.of_isTable hu.toIsTable ?_
    rcases extendedMeta_eq_ok hMeta with ⟨hSlot, -, rfl⟩ | ⟨hSlot, rfl⟩
    · dsimp only
      omega
    · dsimp only
      omega
  · obtain ⟨-, -, rfl⟩ := deactivateLookupTable_eq_ok ht.toIsTable h
    exact SeenFrom.of_isTable ⟨ht.owner, rfl, ⟨request.invocation.slot_lt, ht.fits.2⟩⟩
      (hSeen.2 t ht.toIsTable)

/-- The run lemma: along a run whose clock never goes back, starting no earlier than the table's
last extension, the invariant holds at every slot that bounds the run, and the table changes only
as `Extends` allows. -/
theorem run_extends {s : Nat} {reqs : List TableRequest} (hInv : TableInvariant s a)
    (hAfter : ∀ r ∈ reqs, s ≤ r.invocation.slot)
    (hSorted : reqs.Pairwise (fun q r => q.invocation.slot ≤ r.invocation.slot))
    (hRun : runAll (processInstruction sha256 bytesAreCurvePoint) a reqs = .ok b) :
    Extends a b ∧ ∀ u, s ≤ u → (∀ r ∈ reqs, r.invocation.slot ≤ u) → TableInvariant u b :=
  runAll_clock_invariant (P := TableInvariant) (R := Extends) (fun r : TableRequest => r.invocation.slot)
    Extends.refl (fun _ _ _ => Extends.trans) (fun _ _ _ hs => TableInvariant.mono hs)
    (fun _ _ _ _ hP hs h => processInstruction_step hP hs h) hInv hAfter hSorted hRun

/-- The instructions of one slot keep what a lookup in that slot sees. -/
theorem run_seenFrom {s : Nat} {reqs : List TableRequest} (hInv : TableInvariant s a)
    (hSeen : SeenFrom s n a) (hSlots : ∀ r ∈ reqs, r.invocation.slot = s)
    (hRun : runAll (processInstruction sha256 bytesAreCurvePoint) a reqs = .ok b) :
    SeenFrom s n b := by
  have hBoth := runAll_invariant_on (P := fun x => TableInvariant s x ∧ SeenFrom s n x)
    (Q := fun r : TableRequest => r.invocation.slot = s) (fun x r y hSlot hx hStep => by
      subst hSlot
      exact ⟨(processInstruction_step hx.1 (le_refl _) hStep).1, seenFrom_step hx.1 hx.2 hStep⟩)
    hSlots ⟨hInv, hSeen⟩ hRun
  exact hBoth.2

/-- Some slot bounds every request. -/
theorem exists_slot_bound (reqs : List TableRequest) :
    ∃ u, ∀ r ∈ reqs, r.invocation.slot ≤ u := by
  induction reqs with
  | nil => exact ⟨0, by simp⟩
  | cons r rest ih =>
      obtain ⟨u, hu⟩ := ih
      refine ⟨max r.invocation.slot u, fun q hq => ?_⟩
      rcases List.mem_cons.mp hq with rfl | hq
      · exact le_max_left _ _
      · exact le_trans (hu q hq) (le_max_right _ _)

end Runs

/-! ### Tables along a run -/

/-- What a run of the program guarantees of one table account, for a run that reaches `A` through
the instructions `first` and then `B` through `second`: `A` holds a table in the program's layout
within its bounds; the table's addresses only grow at the end; a frozen or deactivated table does
not change; a lookup keeps its result at later slots while the table is active; and a lookup at a
slot sees no address appended in that slot. -/
structure StableResolution (A B : AccountSharedData) (first second : List TableRequest) : Prop where
  layout : A.owner = addressLookupTableId → ∃ t, deserialize A.data = .ok t ∧
    t.tableMeta.lastExtendedSlotStartIndex ≤ t.addresses.length ∧
    t.addresses.length ≤ lookupTableMaxAddresses ∧
    A.data.length = lookupTableMetaSize + 32 * t.addresses.length
  appended : ∀ t, A.owner = addressLookupTableId → deserialize A.data = .ok t →
    B.owner = addressLookupTableId ∧ ∃ u, deserialize B.data = .ok u ∧ t.addresses <+: u.addresses
  settled : ∀ t, A.owner = addressLookupTableId → deserialize A.data = .ok t →
    t.tableMeta.authority = none ∨ t.tableMeta.deactivationSlot ≠ slotMax → B = A
  stable : ∀ (s₁ s₂ : Nat) (slotHashes₁ slotHashes₂ : List (Nat × Hash)) (indexes : List UInt8)
    (found : List Pubkey), s₁ ≤ s₂ → (∀ r ∈ first, r.invocation.slot ≤ s₁) →
    (∀ r ∈ second, s₁ ≤ r.invocation.slot ∧ r.invocation.slot ≤ s₂) →
    tableLookup A s₁ indexes slotHashes₁ = some (.ok found) →
    (∀ u, deserialize B.data = .ok u → u.tableMeta.isActive s₂ slotHashes₂ = true) →
    tableLookup B s₂ indexes slotHashes₂ = some (.ok found)
  unseen : ∀ (s : Nat) (slotHashes : List (Nat × Hash)) (indexes : List UInt8) (found : List Pubkey),
    (∀ r ∈ first, r.invocation.slot < s) → (∀ r ∈ second, r.invocation.slot = s) →
    tableLookup B s indexes slotHashes = some (.ok found) → ∀ i ∈ indexes, i.toNat < addressCount A

section Resolution

variable {sha256 : List UInt8 → Hash} {bytesAreCurvePoint : Hash → Bool}
  {A B : AccountSharedData}

/-- A lookup that succeeded reads a table the program owns. -/
theorem tableLookup_eq_ok {a : AccountSharedData} {currentSlot : Nat} {indexes : List UInt8}
    {slotHashes : List (Nat × Hash)} {found : List Pubkey}
    (h : tableLookup a currentSlot indexes slotHashes = some (.ok found)) :
    a.owner = addressLookupTableId ∧ ∃ t, deserialize a.data = .ok t ∧
      t.lookup currentSlot indexes slotHashes = some (.ok found) := by
  unfold tableLookup at h
  split at h
  · rename_i hOwner
    split at h
    · rename_i t hTable
      exact ⟨hOwner, t, hTable, h⟩
    · cases h
  · cases h

/-- The table of an account the invariant holds for. -/
theorem TableInvariant.validTable {s : Nat} {a : AccountSharedData} (h : TableInvariant s a)
    (hOwner : a.owner = addressLookupTableId) : ∃ t, ValidTable s a t :=
  h.resolve_left (not_not.mpr hOwner)

/-- The number of addresses a lookup sees can only grow from a table to one that extends it, from
a slot to a later one. -/
theorem activeLen_le {t u : AddressLookupTable} {s₁ s₂ : Nat} (hs : s₁ ≤ s₂)
    (hPrefix : t.addresses <+: u.addresses) (hAfter : ExtensionAfter t u)
    (hStart : t.tableMeta.lastExtendedSlotStartIndex ≤ t.addresses.length) :
    (if s₁ > t.tableMeta.lastExtendedSlot then t.addresses.length
      else t.tableMeta.lastExtendedSlotStartIndex) ≤
    (if s₂ > u.tableMeta.lastExtendedSlot then u.addresses.length
      else u.tableMeta.lastExtendedSlotStartIndex) := by
  have hLength := hPrefix.length_le
  unfold ExtensionAfter at hAfter
  split_ifs <;> omega

theorem lookup_tables_resolve_stably {a₀ : AccountSharedData} {first second : List TableRequest}
    (hFresh : a₀.owner ≠ addressLookupTableId)
    (hSorted : (first ++ second).Pairwise (fun q r => q.invocation.slot ≤ r.invocation.slot))
    (hFirst : runAll (processInstruction sha256 bytesAreCurvePoint) a₀ first = .ok A)
    (hSecond : runAll (processInstruction sha256 bytesAreCurvePoint) A second = .ok B) :
    StableResolution A B first second := by
  obtain ⟨hSortedFirst, hSortedSecond, hCross⟩ := List.pairwise_append.mp hSorted
  obtain ⟨-, hA⟩ := run_extends (.inl hFresh) (fun _ _ => Nat.zero_le _) hSortedFirst hFirst
  -- every state the first part reaches holds a valid table once the program owns it
  have hValid : A.owner = addressLookupTableId → ∃ s t, ValidTable s A t := fun hOwner => by
    obtain ⟨u, hu⟩ := exists_slot_bound first
    obtain ⟨t, ht⟩ := (hA u (Nat.zero_le _) hu).validTable hOwner
    exact ⟨u, t, ht⟩
  have hExtends : Extends A B := by
    cases second with
    | nil =>
        obtain rfl := Except.ok.inj hSecond
        exact .refl A
    | cons r rest =>
        have hStart : TableInvariant r.invocation.slot A :=
          hA _ (Nat.zero_le _) fun q hq => hCross q hq r List.mem_cons_self
        refine (run_extends hStart (fun q hq => ?_) hSortedSecond hSecond).1
        rcases List.mem_cons.mp hq with rfl | hq
        exacts [le_refl _, List.rel_of_pairwise_cons hSortedSecond hq]
  refine ⟨fun hOwner => ?_, fun t hOwner hTable => ?_, fun t hOwner hTable hSettled => ?_,
    fun s₁ s₂ slotHashes₁ slotHashes₂ indexes found hs h₁ h₂ hLookup hActive => ?_,
    fun s slotHashes indexes found h₁ h₂ hLookup => ?_⟩
  · -- the layout
    obtain ⟨_, t, ht⟩ := hValid hOwner
    refine ⟨t, ht.deserialize_eq, ht.start_le, ht.length_le, ?_⟩
    rw [ht.data, length_tableData]
  · -- the addresses only grow
    obtain ⟨_, t', ht'⟩ := hValid hOwner
    obtain rfl : t' = t := Except.ok.inj (ht'.deserialize_eq.symm.trans hTable)
    obtain ⟨u, hu, hPrefix, -⟩ := hExtends t' ht'.toIsTable
    exact ⟨hu.owner, u, hu.deserialize_eq, hPrefix⟩
  · -- a frozen or deactivated table does not change
    obtain ⟨_, t', ht'⟩ := hValid hOwner
    obtain rfl : t' = t := Except.ok.inj (ht'.deserialize_eq.symm.trans hTable)
    obtain ⟨u, -, -, -, hFixed⟩ := hExtends t' ht'.toIsTable
    exact hFixed hSettled
  · -- a lookup keeps its result at a later slot
    obtain ⟨hOwner, t, hTable, hLookupT⟩ := tableLookup_eq_ok hLookup
    have hInvA : TableInvariant s₁ A := hA s₁ (Nat.zero_le _) h₁
    obtain ⟨t', ht'⟩ := hInvA.validTable hOwner
    obtain rfl : t' = t := Except.ok.inj (ht'.deserialize_eq.symm.trans hTable)
    obtain ⟨hExtendsAB, hB⟩ := run_extends hInvA (fun r hr => (h₂ r hr).1) hSortedSecond hSecond
    obtain ⟨u, hu, hPrefix, hAfter, -⟩ := hExtendsAB t' ht'.toIsTable
    obtain ⟨u', hu'⟩ := (hB s₂ hs fun r hr => (h₂ r hr).2).validTable hu.owner
    obtain rfl : u' = u := hu'.unique hu
    have hActiveLen := getActiveAddressesLen_eq_ok.mpr ⟨hActive u' hu.deserialize_eq, rfl⟩
    have hStartU := hu'.start_le
    have hLookupU := lookup_of_prefix hLookupT hPrefix hActiveLen (by split_ifs <;> omega)
      fun n' hn' => (getActiveAddressesLen_eq_ok.mp hn').2 ▸ activeLen_le hs hPrefix hAfter ht'.start_le
    simp [tableLookup, hu.owner, hu.deserialize_eq, hLookupU]
  · -- a lookup at a slot sees no address appended in that slot
    have hInvA : TableInvariant s A := hA s (Nat.zero_le _) fun r hr => (h₁ r hr).le
    have hSeenA : SeenFrom s (addressCount A) A := by
      by_cases hOwner : A.owner = addressLookupTableId
      · -- the program owns the table only after a creation in the first part, before `s`
        have hNonempty : first ≠ [] := by
          rintro rfl
          exact hFresh ((Except.ok.inj hFirst) ▸ hOwner)
        obtain ⟨r, hr⟩ := List.exists_mem_of_ne_nil first hNonempty
        have hBefore : TableInvariant (s - 1) A :=
          hA (s - 1) (Nat.zero_le _) fun q hq => by have := h₁ q hq; omega
        obtain ⟨t, ht⟩ := hBefore.validTable hOwner
        have hr' := h₁ r hr
        refine SeenFrom.of_isTable ht.toIsTable (.inl ⟨?_, (addressCount_of_isTable ht.toIsTable).symm⟩)
        have := ht.lastExtended_le
        omega
      · exact ⟨fun _ => by simp [addressCount, hOwner], fun t ht => absurd ht.owner hOwner⟩
    have hSeenB := run_seenFrom hInvA hSeenA h₂ hSecond
    obtain ⟨hOwner, u, hTable, hLookupU⟩ := tableLookup_eq_ok hLookup
    obtain ⟨-, hB⟩ := run_extends hInvA (fun r hr => (h₂ r hr).ge) hSortedSecond hSecond
    obtain ⟨u', hu'⟩ := (hB s (le_refl _) fun r hr => (h₂ r hr).le).validTable hOwner
    obtain rfl : u' = u := Except.ok.inj (hu'.deserialize_eq.symm.trans hTable)
    obtain ⟨n, hActiveLen, hIndexes⟩ := lt_of_lookup hLookupU
    have hn := (getActiveAddressesLen_eq_ok.mp hActiveLen).2
    intro i hi
    have := hIndexes i hi
    rcases hSeenB.2 u' hu'.toIsTable with ⟨hLast, hCount⟩ | ⟨hLast, hStart⟩
    · rw [if_pos hLast] at hn
      omega
    · rw [if_neg (by omega)] at hn
      omega

/-- A request in `slot` on the table `⟨7, ..⟩` from the authority and payer `⟨1, ..⟩`, both
signing, under the default rent and with slot 0 in `SlotHashes`. -/
def signedRequest (slot : Fin (2 ^ 64)) (instruction : ProgramInstruction) : TableRequest :=
  ⟨⟨⟨Vector.replicate 32 7⟩, some (⟨Vector.replicate 32 1⟩, true),
    some ⟨⟨Vector.replicate 32 1⟩, true, ⟨1000000000, [], systemProgramId, false, 0⟩⟩, slot,
    slot.isLt, [(0, default)], ⟨3480, .finite 2 0, 50⟩, false⟩, instruction⟩

/-- A table created and extended in slot 1 and extended again in slot 2, the payer funding each
step: the address of slot 1 resolves from slot 2 on, and a lookup in slot 2 sees only it. -/
theorem lookup_tables_resolve_stably_extended :
    ∃ A B, runAll (processInstruction (fun _ => ⟨Vector.replicate 32 7⟩) fun _ => false)
        ⟨0, [], systemProgramId, false, 0⟩
        [signedRequest 1 (.createLookupTable 0 255),
          signedRequest 1 (.extendLookupTable [⟨Vector.replicate 32 9⟩])] = .ok A ∧
      runAll (processInstruction (fun _ => ⟨Vector.replicate 32 7⟩) fun _ => false) A
        [signedRequest 2 (.extendLookupTable [⟨Vector.replicate 32 10⟩])] = .ok B ∧
      StableResolution A B
        [signedRequest 1 (.createLookupTable 0 255),
          signedRequest 1 (.extendLookupTable [⟨Vector.replicate 32 9⟩])]
        [signedRequest 2 (.extendLookupTable [⟨Vector.replicate 32 10⟩])] := by
  have hFirst := eq_ok_toOption_getD (x := runAll (processInstruction (fun _ => ⟨Vector.replicate 32 7⟩)
      fun _ => false) ⟨0, [], systemProgramId, false, 0⟩
    [signedRequest 1 (.createLookupTable 0 255),
      signedRequest 1 (.extendLookupTable [⟨Vector.replicate 32 9⟩])]) (by decide +kernel) ⟨0, [], systemProgramId, false, 0⟩
  -- the second run starts from the table the first one leaves
  refine ⟨_, _, hFirst, eq_ok_toOption_getD (by decide +kernel) ⟨0, [], systemProgramId, false, 0⟩, ?_⟩
  exact lookup_tables_resolve_stably (by decide) (by decide) hFirst
    (eq_ok_toOption_getD (by decide +kernel) ⟨0, [], systemProgramId, false, 0⟩)

end Resolution

end PutValidator.AddressLookupTableProgram
