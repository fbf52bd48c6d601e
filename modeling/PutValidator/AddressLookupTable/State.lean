import PutValidator.Sdk.VersionedTransaction
import PutValidator.Sdk.TransactionContext
import PutValidator.Lib.List

/-! The state of an address lookup table (`programs/address-lookup-table/src/state.rs`). A table
account holds the bincode `ProgramState` of its metadata in its first `LOOKUP_TABLE_META_SIZE`
bytes, zero padded, and its addresses after them, 32 bytes each. A lookup at a slot sees every
address when the table was last extended in an earlier slot, and only those before the start
index of that extension otherwise; a deactivated table is seen while its deactivation slot is
still among the recent slot hashes.

`tableData` is the layout the program keeps; `deserialize_tableData` and
`overwriteMetaData_tableData` say that the reader and the writer of the source agree with it. -/
namespace PutValidator.AddressLookupTableProgram

open Lib.Codec Lib.Except

/-- `address_lookup_table::program::id()`, `AddressLookupTab1e1111111111111111111111111`. -/
def addressLookupTableId : Pubkey := ⟨#v[2, 119, 166, 175, 151, 51, 155, 122, 200, 141, 24, 146, 201,
    4, 70, 245, 0, 2, 48, 146, 102, 246, 46, 83, 193, 24, 36, 73, 130, 0, 0, 0]⟩

/-- `LOOKUP_TABLE_MAX_ADDRESSES`. -/
def lookupTableMaxAddresses : Nat := 256

/-- `LOOKUP_TABLE_META_SIZE`. -/
def lookupTableMetaSize : Nat := 56

/-- `Slot::MAX`. -/
def slotMax : Nat := 2 ^ 64 - 1

/-- `slot_hashes::MAX_ENTRIES`. -/
def maxEntries : Nat := 512

/-- `LookupTableMeta`; the start index is a `u8` and the padding a `u16`. -/
structure LookupTableMeta where
  deactivationSlot : Nat
  lastExtendedSlot : Nat
  lastExtendedSlotStartIndex : Nat
  authority : Option Pubkey
  padding : Nat
deriving DecidableEq, Repr

/-- `ProgramState`. -/
inductive ProgramState
  | uninitialized
  | lookupTable (lookupTableMeta : LookupTableMeta)
deriving DecidableEq, Repr

/-- `LookupTableStatus`. -/
inductive LookupTableStatus
  | activated
  | deactivating (remainingBlocks : Nat)
  | deactivated
deriving DecidableEq, Repr

/-- `AddressLookupError`. -/
inductive AddressLookupError
  | lookupTableAccountNotFound
  | invalidAccountOwner
  | invalidAccountData
  | invalidLookupIndex
deriving DecidableEq, Repr

/-- `SlotHashes::position`: the index of the entry of `slot`. The sysvar keeps its slots
distinct and newest first, where the binary search of the source finds exactly this entry. -/
def slotHashesPosition (slotHashes : List (Nat × Hash)) (slot : Nat) : Option Nat :=
  slotHashes.findIdx? (·.1 == slot)

namespace LookupTableMeta

/-- `LookupTableMeta::default`. -/
def default : LookupTableMeta := ⟨slotMax, 0, 0, none, 0⟩

/-- `LookupTableMeta::new`. -/
def new (authority : Pubkey) : LookupTableMeta := { default with authority := some authority }

/-- The fields fit their Rust integer types. -/
def Fits (m : LookupTableMeta) : Prop :=
  m.deactivationSlot < 2 ^ 64 ∧ m.lastExtendedSlot < 2 ^ 64 ∧ m.lastExtendedSlotStartIndex < 2 ^ 8 ∧
    m.padding < 2 ^ 16

/-- `LookupTableMeta::status`. -/
def status (m : LookupTableMeta) (currentSlot : Nat) (slotHashes : List (Nat × Hash)) :
    LookupTableStatus :=
  if m.deactivationSlot = slotMax then .activated
  else if m.deactivationSlot = currentSlot then .deactivating (maxEntries + 1)
  else
    match slotHashesPosition slotHashes m.deactivationSlot with
    | some slotHashPosition => .deactivating (maxEntries - slotHashPosition)
    | none => .deactivated

/-- `LookupTableMeta::is_active`. -/
def isActive (m : LookupTableMeta) (currentSlot : Nat) (slotHashes : List (Nat × Hash)) : Bool :=
  match m.status currentSlot slotHashes with
  | .activated => true
  | .deactivating _ => true
  | .deactivated => false

end LookupTableMeta

/-- `AddressLookupTable`; `tableMeta` is the source's `meta`, a keyword here. -/
structure AddressLookupTable where
  tableMeta : LookupTableMeta
  addresses : List Pubkey
deriving DecidableEq, Repr

namespace Wire

/-- `Option<Pubkey>`: a tag byte, then the key. -/
def optionPubkey : Codec (Option Pubkey) :=
  map (sum (uintLE 1) unit PutValidator.Wire.pubkey)
    (fun | .inl () => none | .inr key => some key)
    (fun | none => .inl () | some key => .inr key)
    (fun | .inl () => rfl | .inr _ => rfl) (fun | none => rfl | some _ => rfl)

def lookupTableMeta : Codec LookupTableMeta :=
  map (pair (uintLE 8) (pair (uintLE 8) (pair (uintLE 1) (pair optionPubkey (uintLE 2)))))
    (fun fields => ⟨fields.1, fields.2.1, fields.2.2.1, fields.2.2.2.1, fields.2.2.2.2⟩)
    (fun m => (m.deactivationSlot, m.lastExtendedSlot, m.lastExtendedSlotStartIndex, m.authority,
      m.padding))
    (fun _ => rfl) (fun _ => rfl)

/-- `ProgramState`, a bincode enum: the `u32` index of the variant, then its fields. -/
def programState : Codec ProgramState :=
  map (sum (uintLE 4) unit lookupTableMeta)
    (fun | .inl () => .uninitialized | .inr m => .lookupTable m)
    (fun | .uninitialized => .inl () | .lookupTable m => .inr m)
    (fun | .inl () => rfl | .inr _ => rfl) (fun | .uninitialized => rfl | .lookupTable _ => rfl)

/-- The metadata the layout writes and reads back are those whose fields fit. -/
theorem programState_canonical {m : LookupTableMeta} :
    programState.Canonical (.lookupTable m) ↔ m.Fits := by
  rcases m with ⟨_, _, _, _ | _, _⟩ <;>
    simp [programState, lookupTableMeta, optionPubkey, PutValidator.Wire.pubkey, map, sum, pair,
      uintLE, unit, fixed, LookupTableMeta.Fits]

/-- The metadata takes 24 bytes, and 56 with an authority. -/
theorem length_encode_programState (m : LookupTableMeta) :
    (programState.encode (.lookupTable m)).length = if m.authority.isSome then 56 else 24 := by
  rcases m with ⟨_, _, _, _ | _, _⟩ <;>
    simp [programState, lookupTableMeta, optionPubkey, PutValidator.Wire.pubkey, map, sum, pair,
      uintLE, unit, fixed]

theorem length_encode_programState_le (m : LookupTableMeta) :
    (programState.encode (.lookupTable m)).length ≤ lookupTableMetaSize := by
  rw [length_encode_programState]
  split <;> decide

end Wire

namespace AddressLookupTable

/-- `overwrite_meta_data`: the metadata over the zeroed first `LOOKUP_TABLE_META_SIZE` bytes. -/
def overwriteMetaData (data : List UInt8) (lookupTableMeta : LookupTableMeta) :
    Except InstructionError (List UInt8) := do
  failIf (data.length < lookupTableMetaSize) .invalidAccountData
  let serialized := Wire.programState.encode (.lookupTable lookupTableMeta)
  -- `serialize_into` the slice fails when the slice is too short
  failIf (lookupTableMetaSize < serialized.length) .genericError
  pure (serialized ++ List.replicate (lookupTableMetaSize - serialized.length) 0 ++
    data.drop lookupTableMetaSize)

/-- `get_active_addresses_len`. -/
def getActiveAddressesLen (t : AddressLookupTable) (currentSlot : Nat)
    (slotHashes : List (Nat × Hash)) : Except AddressLookupError Nat := do
  failIf (t.tableMeta.isActive currentSlot slotHashes = false) .lookupTableAccountNotFound
  pure (if currentSlot > t.tableMeta.lastExtendedSlot then t.addresses.length
    else t.tableMeta.lastExtendedSlotStartIndex)

/-- `lookup`, `none` where slicing the active addresses panics. -/
def lookup (t : AddressLookupTable) (currentSlot : Nat) (indexes : List UInt8)
    (slotHashes : List (Nat × Hash)) : Option (Except AddressLookupError (List Pubkey)) :=
  match t.getActiveAddressesLen currentSlot slotHashes with
  | .error e => some (.error e)
  | .ok activeAddressesLen =>
      if t.addresses.length < activeAddressesLen then none
      else
        let activeAddresses := t.addresses.take activeAddressesLen
        some (okOr (indexes.mapM fun idx => activeAddresses[idx.toNat]?) .invalidLookupIndex)

/-- `deserialize`: the metadata as bincode reads it, trailing bytes allowed, and the addresses
after `LOOKUP_TABLE_META_SIZE` as `bytemuck` casts them. -/
def deserialize (data : List UInt8) : Except InstructionError AddressLookupTable := do
  let programState ← okOr ((Wire.programState.decode data).map (·.1)) .invalidAccountData
  let lookupTableMeta ← match programState with
    | .lookupTable lookupTableMeta => pure lookupTableMeta
    | .uninitialized => throw .uninitializedAccount
  failIf (data.length < lookupTableMetaSize) .invalidAccountData
  let rawAddressesData := data.drop lookupTableMetaSize
  failIf (rawAddressesData.length % 32 ≠ 0) .invalidAccountData
  let addresses ← okOr ((decodeCount PutValidator.Wire.pubkey.decode (rawAddressesData.length / 32)
    rawAddressesData).map (·.1)) .invalidAccountData
  pure ⟨lookupTableMeta, addresses⟩

/-! ### The layout the program keeps -/

/-- The metadata, zero padded to `LOOKUP_TABLE_META_SIZE`. -/
def metaData (lookupTableMeta : LookupTableMeta) : List UInt8 :=
  Wire.programState.encode (.lookupTable lookupTableMeta) ++
    List.replicate (lookupTableMetaSize - (Wire.programState.encode (.lookupTable lookupTableMeta)).length) 0

/-- The data of a table account: the padded metadata, then the addresses. -/
def tableData (t : AddressLookupTable) : List UInt8 :=
  metaData t.tableMeta ++ t.addresses.flatMap PutValidator.Wire.pubkey.encode

@[simp] theorem length_metaData (lookupTableMeta : LookupTableMeta) :
    (metaData lookupTableMeta).length = lookupTableMetaSize := by
  have := Wire.length_encode_programState_le lookupTableMeta
  simp only [metaData, List.length_append, List.length_replicate]
  omega

theorem length_addressBytes (addresses : List Pubkey) :
    (addresses.flatMap PutValidator.Wire.pubkey.encode).length = 32 * addresses.length := by
  have hKey : ∀ key, (PutValidator.Wire.pubkey.encode key).length = 32 := fun key => by
    simp [PutValidator.Wire.pubkey, map, fixed]
  rw [length_flatMap_of_length_eq hKey, Nat.mul_comm]

theorem length_tableData (t : AddressLookupTable) :
    (tableData t).length = lookupTableMetaSize + 32 * t.addresses.length := by
  rw [tableData, List.length_append, length_metaData, length_addressBytes]

/-- The reader reads back the layout. -/
theorem deserialize_tableData {t : AddressLookupTable} (hFits : t.tableMeta.Fits) :
    deserialize (tableData t) = .ok t := by
  have hDecode : Wire.programState.decode (tableData t) =
      some (.lookupTable t.tableMeta, List.replicate (lookupTableMetaSize -
        (Wire.programState.encode (.lookupTable t.tableMeta)).length) 0 ++
        t.addresses.flatMap PutValidator.Wire.pubkey.encode) := by
    simp only [tableData, metaData, List.append_assoc]
    exact Wire.programState.decode_encode _ _ (Wire.programState_canonical.mpr hFits)
  have hDrop : (tableData t).drop lookupTableMetaSize =
      t.addresses.flatMap PutValidator.Wire.pubkey.encode := by
    rw [tableData, List.drop_left' (length_metaData _)]
  have hAddresses : decodeCount PutValidator.Wire.pubkey.decode t.addresses.length
      (t.addresses.flatMap PutValidator.Wire.pubkey.encode) = some (t.addresses, []) := by
    simpa using PutValidator.Wire.pubkey.decodeCount_encode (l := t.addresses)
      (fun _ _ => by simp [PutValidator.Wire.pubkey, map, fixed]) []
  simp [deserialize, hDecode, hDrop, length_tableData, length_addressBytes, hAddresses,
    -List.length_flatMap]

/-- The writer of the metadata keeps the layout. -/
theorem overwriteMetaData_tableData (t : AddressLookupTable) (lookupTableMeta : LookupTableMeta) :
    overwriteMetaData (tableData t) lookupTableMeta =
      .ok (tableData { t with tableMeta := lookupTableMeta }) := by
  have hDrop : (tableData t).drop lookupTableMetaSize =
      t.addresses.flatMap PutValidator.Wire.pubkey.encode := by
    rw [tableData, List.drop_left' (length_metaData _)]
  have hLength : ¬(tableData t).length < lookupTableMetaSize := by
    rw [length_tableData]
    omega
  have hFits : ¬lookupTableMetaSize < (Wire.programState.encode (.lookupTable lookupTableMeta)).length :=
    Nat.not_lt.mpr (Wire.length_encode_programState_le _)
  simp only [overwriteMetaData, failIf_of_not _ hLength, failIf_of_not _ hFits, bind_ok, hDrop]
  rfl

/-! ### What a lookup sees -/

theorem getActiveAddressesLen_eq_ok {t : AddressLookupTable} {currentSlot n : Nat}
    {slotHashes : List (Nat × Hash)} :
    t.getActiveAddressesLen currentSlot slotHashes = .ok n ↔
      t.tableMeta.isActive currentSlot slotHashes = true ∧
        n = if currentSlot > t.tableMeta.lastExtendedSlot then t.addresses.length
          else t.tableMeta.lastExtendedSlotStartIndex := by
  unfold getActiveAddressesLen
  by_cases hActive : t.tableMeta.isActive currentSlot slotHashes = true
  · simp [hActive, failIf, eq_comm]
  · simp [hActive, failIf]

/-- An index read among the first `n₁` addresses of `xs` reads the same address among the first
`n₂ ≥ n₁` addresses of any list that extends `xs`. -/
theorem getElem?_take_of_prefix {xs ys : List Pubkey} {n₁ n₂ i : Nat} {v : Pubkey}
    (hPrefix : xs <+: ys) (hn : n₁ ≤ n₂) (h : (xs.take n₁)[i]? = some v) :
    (ys.take n₂)[i]? = some v := by
  rw [List.getElem?_take] at h ⊢
  split at h
  · rename_i hi
    obtain ⟨zs, rfl⟩ := hPrefix
    rw [if_pos (by omega), List.getElem?_append_left (List.getElem?_eq_some_iff.mp h).1, h]
  · cases h

/-- A lookup that succeeded on `t` succeeds with the same addresses on a table `u` whose
addresses extend those of `t` and that sees at least as many of them. -/
theorem lookup_of_prefix {t u : AddressLookupTable} {currentSlot currentSlot' n : Nat}
    {slotHashes slotHashes' : List (Nat × Hash)} {indexes : List UInt8} {found : List Pubkey}
    (hLookup : t.lookup currentSlot indexes slotHashes = some (.ok found))
    (hPrefix : t.addresses <+: u.addresses)
    (hActive : u.getActiveAddressesLen currentSlot' slotHashes' = .ok n) (hn : n ≤ u.addresses.length)
    (hMore : ∀ n', t.getActiveAddressesLen currentSlot slotHashes = .ok n' → n' ≤ n) :
    u.lookup currentSlot' indexes slotHashes' = some (.ok found) := by
  unfold lookup at hLookup
  split at hLookup
  · cases hLookup
  · rename_i n' hActive'
    split at hLookup
    · cases hLookup
    · simp only [Option.some.injEq, okOr_eq_ok, Lib.List.mapM_eq_some] at hLookup
      simp only [lookup, hActive, if_neg (Nat.not_lt.mpr hn), Option.some.injEq, okOr_eq_ok,
        Lib.List.mapM_eq_some]
      exact hLookup.imp fun _ _ hIdx => getElem?_take_of_prefix hPrefix (hMore n' hActive') hIdx

/-- A lookup reads only indexes below the number of addresses it sees. -/
theorem lt_of_lookup {t : AddressLookupTable} {currentSlot : Nat} {indexes : List UInt8}
    {slotHashes : List (Nat × Hash)} {found : List Pubkey}
    (hLookup : t.lookup currentSlot indexes slotHashes = some (.ok found)) :
    ∃ n, t.getActiveAddressesLen currentSlot slotHashes = .ok n ∧ ∀ i ∈ indexes, i.toNat < n := by
  unfold lookup at hLookup
  split at hLookup
  · cases hLookup
  · rename_i n hActive
    split at hLookup
    · cases hLookup
    · simp only [Option.some.injEq, okOr_eq_ok, Lib.List.mapM_eq_some] at hLookup
      refine ⟨n, hActive, fun i hi => ?_⟩
      obtain ⟨v, hv⟩ := Lib.List.exists_of_forall₂_of_mem hLookup i hi
      rw [List.getElem?_take] at hv
      split at hv
      · assumption
      · cases hv

end AddressLookupTable

end PutValidator.AddressLookupTableProgram
