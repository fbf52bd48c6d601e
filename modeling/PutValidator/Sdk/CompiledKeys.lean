import PutValidator.Sdk.Message
import PutValidator.Sdk.Instruction
import PutValidator.Lib.SortedMap
import PutValidator.Lib.List

/-! Message compilation of `sdk/program/src/message/`. `CompiledKeys` (`compiled_keys.rs`)
gathers the keys of a list of instructions in an ordered map with their signer, writable and
invoked flags, drains keys found in address lookup tables, and splits the rest into the four
regions of a message header. `v0::Message::try_compile` indexes the instructions' keys through
`AccountKeys::try_compile_instructions`; the legacy `Message::new_with_blockhash` indexes them
by position, truncated to a byte. -/
namespace PutValidator

open Lib Lib.Except Lib.Word

/-- `Instruction` of `sdk/program/src/instruction.rs`. -/
structure Instruction where
  programId : Pubkey
  accounts : List AccountMeta
  data : List UInt8
deriving DecidableEq, Repr

/-- `AddressLookupTableAccount`: a table's address and the addresses it holds. -/
structure AddressLookupTableAccount where
  key : Pubkey
  addresses : List Pubkey
deriving DecidableEq, Repr

inductive CompileError
  | accountIndexOverflow
  | addressTableLookupIndexOverflow
  | unknownInstructionKey (key : Pubkey)
deriving DecidableEq, Repr

structure CompiledKeyMeta where
  isSigner : Bool
  isWritable : Bool
  isInvoked : Bool
deriving DecidableEq, Repr

/-- The derived `Default` of `CompiledKeyMeta`. -/
def CompiledKeyMeta.default : CompiledKeyMeta := ⟨false, false, false⟩

structure CompiledKeys where
  payer : Option Pubkey
  keyMetaMap : SortedMap Pubkey CompiledKeyMeta

/-- `u8::try_from(num)`, failing with the error the caller maps to. -/
def u8TryFrom (num : Nat) (err : CompileError) : Except CompileError UInt8 :=
  if num < 256 then .ok (UInt8.ofNat num) else .error err

@[simp] theorem u8TryFrom_eq_ok {num : Nat} {err : CompileError} {b : UInt8} :
    u8TryFrom num err = .ok b ↔ num < 256 ∧ UInt8.ofNat num = b := by
  unfold u8TryFrom
  split_ifs with h <;> simp [h]

namespace CompiledKeys

/-- One turn of the loop of `compile`: the instruction's program id is marked invoked, then
each account's signer and writable flags are or-ed into its entry. -/
def compileInstructionKeys (keyMetaMap : SortedMap Pubkey CompiledKeyMeta) (ix : Instruction) :
    SortedMap Pubkey CompiledKeyMeta :=
  let keyMetaMap := keyMetaMap.alter ix.programId fun keyMeta =>
    { keyMeta.getD .default with isInvoked := true }
  ix.accounts.foldl (fun keyMetaMap accountMeta =>
      keyMetaMap.alter accountMeta.pubkey fun keyMeta =>
        let keyMeta := keyMeta.getD .default
        { keyMeta with
          isSigner := keyMeta.isSigner || accountMeta.isSigner
          isWritable := keyMeta.isWritable || accountMeta.isWritable })
    keyMetaMap

def compile (instructions : List Instruction) (payer : Option Pubkey) : CompiledKeys :=
  let keyMetaMap := instructions.foldl compileInstructionKeys SortedMap.empty
  let keyMetaMap := match payer with
    | some payer => keyMetaMap.alter payer fun keyMeta =>
        { keyMeta.getD .default with isSigner := true, isWritable := true }
    | none => keyMetaMap
  ⟨payer, keyMetaMap⟩

/-- The keys of one region of a message header, in key order: those whose signer and writable
flags are the given ones. Each of the four `filter_map`s of `try_into_message_components`. -/
def regionKeys (keyMetaMap : SortedMap Pubkey CompiledKeyMeta) (isSigner isWritable : Bool) :
    List Pubkey :=
  keyMetaMap.keysWhere fun keyMeta => keyMeta.isSigner == isSigner && keyMeta.isWritable == isWritable

def tryIntoMessageComponents (c : CompiledKeys) :
    Except CompileError (MessageHeader × List Pubkey) := do
  let tryIntoU8 := fun num => u8TryFrom num .accountIndexOverflow
  let keyMetaMap := match c.payer with
    | some payer => c.keyMetaMap.erase payer
    | none => c.keyMetaMap
  let writableSignerKeys := c.payer.toList ++ regionKeys keyMetaMap true true
  let readonlySignerKeys := regionKeys keyMetaMap true false
  let writableNonSignerKeys := regionKeys keyMetaMap false true
  let readonlyNonSignerKeys := regionKeys keyMetaMap false false
  let signersLen := saturatingAdd 64 writableSignerKeys.length readonlySignerKeys.length
  let header : MessageHeader := {
    numRequiredSignatures := ← tryIntoU8 signersLen
    numReadonlySignedAccounts := ← tryIntoU8 readonlySignerKeys.length
    numReadonlyUnsignedAccounts := ← tryIntoU8 readonlyNonSignerKeys.length }
  pure (header,
    writableSignerKeys ++ readonlySignerKeys ++ writableNonSignerKeys ++ readonlyNonSignerKeys)

/-- One turn of the loop of `try_drain_keys_found_in_lookup_table`: the first position of the
search key in the table, if any, is recorded with the key. -/
def drainKey (lookupTableAddresses : List Pubkey) (found : List UInt8 × List Pubkey)
    (searchKey : Pubkey) : Except CompileError (List UInt8 × List Pubkey) :=
  let (lookupTableIndexes, drainedKeys) := found
  match lookupTableAddresses.findIdx? (· == searchKey) with
  | some keyIndex => do
      let lookupTableIndex ← u8TryFrom keyIndex .addressTableLookupIndexOverflow
      pure (lookupTableIndexes ++ [lookupTableIndex], drainedKeys ++ [searchKey])
  | none => pure (lookupTableIndexes, drainedKeys)

/-- `try_drain_keys_found_in_lookup_table`: the keys passing the filter that the table holds,
with their positions in it, are removed from the map. -/
def tryDrainKeysFoundInLookupTable (c : CompiledKeys) (lookupTableAddresses : List Pubkey)
    (keyMetaFilter : CompiledKeyMeta → Bool) :
    Except CompileError (CompiledKeys × List UInt8 × List Pubkey) := do
  let (lookupTableIndexes, drainedKeys) ← (c.keyMetaMap.keysWhere keyMetaFilter).foldlM
    (drainKey lookupTableAddresses) ([], [])
  let keyMetaMap := drainedKeys.foldl SortedMap.erase c.keyMetaMap
  pure ({ c with keyMetaMap }, lookupTableIndexes, drainedKeys)

/-- `try_extract_table_lookup`: writable then readonly keys that are neither signers nor
invoked are drained from the table; a table that holds none of them gives no lookup. -/
def tryExtractTableLookup (c : CompiledKeys) (lookupTableAccount : AddressLookupTableAccount) :
    Except CompileError
      (CompiledKeys × Option (V0.MessageAddressTableLookup × V0.LoadedAddresses)) := do
  let (c, writableIndexes, drainedWritableKeys) ←
    c.tryDrainKeysFoundInLookupTable lookupTableAccount.addresses fun keyMeta =>
      !keyMeta.isSigner && !keyMeta.isInvoked && keyMeta.isWritable
  let (c, readonlyIndexes, drainedReadonlyKeys) ←
    c.tryDrainKeysFoundInLookupTable lookupTableAccount.addresses fun keyMeta =>
      !keyMeta.isSigner && !keyMeta.isInvoked && !keyMeta.isWritable
  if writableIndexes.isEmpty && readonlyIndexes.isEmpty then
    return (c, none)
  pure (c, some (⟨lookupTableAccount.key, writableIndexes, readonlyIndexes⟩,
    ⟨drainedWritableKeys, drainedReadonlyKeys⟩))

end CompiledKeys

/-- `impl FromIterator<LoadedAddresses> for LoadedAddresses`: the writable keys of all lookups,
then the readonly ones. -/
def V0.LoadedAddresses.fromIter (loadedAddressesList : List V0.LoadedAddresses) :
    V0.LoadedAddresses :=
  ⟨loadedAddressesList.flatMap (·.writable), loadedAddressesList.flatMap (·.readonly)⟩

namespace AccountKeys

/-- One turn of the first loop of `try_compile_instructions`: the key gets its position, which
must fit a byte. -/
def insertAccountIndex (accountIndexMap : SortedMap Pubkey UInt8) (entry : Pubkey × Nat) :
    Except CompileError (SortedMap Pubkey UInt8) := do
  let (key, index) := entry
  let index ← u8TryFrom index .accountIndexOverflow
  pure (accountIndexMap.insert key index)

/-- The closure `get_account_index` of `try_compile_instructions`. -/
def getAccountIndex (accountIndexMap : SortedMap Pubkey UInt8) (key : Pubkey) :
    Except CompileError UInt8 :=
  okOr (accountIndexMap.get? key) (.unknownInstructionKey key)

/-- `try_compile_instructions`: every key gets its position among the keys, which must fit a
byte, and each instruction's keys are replaced by their positions. -/
def tryCompileInstructions (k : AccountKeys) (instructions : List Instruction) :
    Except CompileError (List CompiledInstruction) := do
  let accountIndexMap ← k.iter.zipIdx.foldlM insertAccountIndex SortedMap.empty
  instructions.mapM fun ix => do
    let accounts ← ix.accounts.mapM fun accountMeta =>
      getAccountIndex accountIndexMap accountMeta.pubkey
    pure ⟨← getAccountIndex accountIndexMap ix.programId, accounts, ix.data⟩

end AccountKeys

namespace V0.Message

/-- One turn of the loop of `try_compile` over the lookup tables. -/
def extractTableLookup
    (state : CompiledKeys × List MessageAddressTableLookup × List LoadedAddresses)
    (lookupTableAccount : AddressLookupTableAccount) :
    Except CompileError (CompiledKeys × List MessageAddressTableLookup × List LoadedAddresses) := do
  let (compiledKeys, addressTableLookups, loadedAddressesList) := state
  let (compiledKeys, extracted) ← compiledKeys.tryExtractTableLookup lookupTableAccount
  match extracted with
  | some (lookup, loadedAddresses) =>
      pure (compiledKeys, addressTableLookups ++ [lookup], loadedAddressesList ++ [loadedAddresses])
  | none => pure (compiledKeys, addressTableLookups, loadedAddressesList)

/-- `v0::Message::try_compile`. -/
def tryCompile (payer : Pubkey) (instructions : List Instruction)
    (addressLookupTableAccounts : List AddressLookupTableAccount) (recentBlockhash : Hash) :
    Except CompileError Message := do
  let compiledKeys := CompiledKeys.compile instructions (some payer)
  let (compiledKeys, addressTableLookups, loadedAddressesList) ←
    addressLookupTableAccounts.foldlM extractTableLookup (compiledKeys, [], [])
  let (header, staticKeys) ← compiledKeys.tryIntoMessageComponents
  let dynamicKeys := LoadedAddresses.fromIter loadedAddressesList
  let accountKeys : AccountKeys := ⟨staticKeys, some dynamicKeys⟩
  let instructions ← accountKeys.tryCompileInstructions instructions
  pure ⟨header, staticKeys, recentBlockhash, instructions, addressTableLookups⟩

end V0.Message

namespace Legacy

/-- `position`: the first position of the key, `unwrap`ped and cast with `as u8`, which keeps
its low byte. -/
def position (keys : List Pubkey) (key : Pubkey) : Option UInt8 :=
  (keys.findIdx? (· == key)).map UInt8.ofNat

def compileInstruction (ix : Instruction) (keys : List Pubkey) : Option CompiledInstruction := do
  let accounts ← ix.accounts.mapM fun accountMeta => position keys accountMeta.pubkey
  pure ⟨← position keys ix.programId, accounts, ix.data⟩

def compileInstructions (ixs : List Instruction) (keys : List Pubkey) :
    Option (List CompiledInstruction) :=
  ixs.mapM fun ix => compileInstruction ix keys

/-- `Message::new_with_blockhash`; `none` where it panics, at the `expect` on a header count
that does not fit a byte. -/
def Message.newWithBlockhash (instructions : List Instruction) (payer : Option Pubkey)
    (blockhash : Hash) : Option Message := do
  let compiledKeys := CompiledKeys.compile instructions payer
  let (header, accountKeys) ← compiledKeys.tryIntoMessageComponents.toOption
  let instructions ← compileInstructions instructions accountKeys
  pure ⟨header, accountKeys, blockhash, instructions⟩

end Legacy

/-! ### What `compile` records of a key -/

/-- Some account of the instructions marks the key a signer. -/
def MarkedSigner (instructions : List Instruction) (key : Pubkey) : Prop :=
  ∃ ix ∈ instructions, ∃ accountMeta ∈ ix.accounts,
    accountMeta.pubkey = key ∧ accountMeta.isSigner = true

/-- Some account of the instructions marks the key writable. -/
def MarkedWritable (instructions : List Instruction) (key : Pubkey) : Prop :=
  ∃ ix ∈ instructions, ∃ accountMeta ∈ ix.accounts,
    accountMeta.pubkey = key ∧ accountMeta.isWritable = true

/-- Some instruction invokes the key as its program. -/
def Invoked (instructions : List Instruction) (key : Pubkey) : Prop :=
  ∃ ix ∈ instructions, ix.programId = key

/-- The key is the program or an account of some instruction. -/
def Mentioned (instructions : List Instruction) (key : Pubkey) : Prop :=
  ∃ ix ∈ instructions, ix.programId = key ∨ ∃ accountMeta ∈ ix.accounts, accountMeta.pubkey = key

namespace CompiledKeyMeta

/-- Flags or-ed field by field: how `compile` accumulates what it learns of a key. -/
def merge (a b : CompiledKeyMeta) : CompiledKeyMeta :=
  ⟨a.isSigner || b.isSigner, a.isWritable || b.isWritable, a.isInvoked || b.isInvoked⟩

/-- A flag of the merge of a run of flags is set when it is set in one of them. -/
theorem foldl_merge {α : Type} (flag : CompiledKeyMeta → Bool)
    (hFlag : ∀ a b, flag (merge a b) = (flag a || flag b)) (f : α → CompiledKeyMeta) :
    ∀ (l : List α) (init : CompiledKeyMeta),
      flag (l.foldl (fun acc e => merge acc (f e)) init) = (flag init || l.any fun e => flag (f e))
  | [], _ => by simp
  | e :: rest, init => by
      rw [List.foldl_cons, foldl_merge flag hFlag f rest, hFlag, List.any_cons, Bool.or_assoc]

end CompiledKeyMeta

namespace CompiledKeys

open CompiledKeyMeta

/-- The flags an instruction gives its keys, in the order `compile` visits them. -/
def instructionKeyFlags (ix : Instruction) : List (Pubkey × CompiledKeyMeta) :=
  (ix.programId, ⟨false, false, true⟩) :: ix.accounts.map fun accountMeta =>
    (accountMeta.pubkey, ⟨accountMeta.isSigner, accountMeta.isWritable, false⟩)

/-- Every flag `compile` merges into its map, in order. -/
def keyFlags (instructions : List Instruction) (payer : Option Pubkey) :
    List (Pubkey × CompiledKeyMeta) :=
  instructions.flatMap instructionKeyFlags ++ payer.toList.map fun p => (p, ⟨true, true, false⟩)

/-- One merge of a key's flags into the map. -/
def mergeFlags (keyMetaMap : SortedMap Pubkey CompiledKeyMeta) (e : Pubkey × CompiledKeyMeta) :
    SortedMap Pubkey CompiledKeyMeta :=
  keyMetaMap.alter e.1 fun keyMeta => merge (keyMeta.getD .default) e.2

theorem merge_invoked (keyMeta : CompiledKeyMeta) :
    merge keyMeta ⟨false, false, true⟩ = { keyMeta with isInvoked := true } := by
  cases keyMeta
  simp [merge]

theorem merge_account (keyMeta : CompiledKeyMeta) (isSigner isWritable : Bool) :
    merge keyMeta ⟨isSigner, isWritable, false⟩ =
      { keyMeta with
        isSigner := keyMeta.isSigner || isSigner
        isWritable := keyMeta.isWritable || isWritable } := by
  cases keyMeta
  simp [merge]

theorem merge_payer (keyMeta : CompiledKeyMeta) :
    merge keyMeta ⟨true, true, false⟩ = { keyMeta with isSigner := true, isWritable := true } := by
  cases keyMeta
  simp [merge]

theorem compileInstructionKeys_eq (keyMetaMap : SortedMap Pubkey CompiledKeyMeta)
    (ix : Instruction) :
    compileInstructionKeys keyMetaMap ix = (instructionKeyFlags ix).foldl mergeFlags keyMetaMap := by
  simp only [compileInstructionKeys, instructionKeyFlags, mergeFlags, List.foldl_cons,
    List.foldl_map, merge_invoked, merge_account]

theorem compile_keyMetaMap (instructions : List Instruction) (payer : Option Pubkey) :
    (compile instructions payer).keyMetaMap =
      (keyFlags instructions payer).foldl mergeFlags SortedMap.empty := by
  have hStep : compileInstructionKeys =
      fun keyMetaMap ix => (instructionKeyFlags ix).foldl mergeFlags keyMetaMap := by
    funext keyMetaMap ix
    exact compileInstructionKeys_eq keyMetaMap ix
  cases payer with
  | none =>
      simp only [compile, keyFlags, Option.toList_none, List.map_nil, List.append_nil,
        List.foldl_flatMap, hStep]
  | some payer =>
      simp only [compile, keyFlags, Option.toList_some, List.map_cons, List.map_nil,
        List.foldl_append, List.foldl_flatMap, List.foldl_cons, List.foldl_nil, hStep, mergeFlags,
        merge_payer]

/-- The map `compile` builds holds each key it met, with each flag set when some flag it
merged for the key was. -/
theorem get?_compile (instructions : List Instruction) (payer : Option Pubkey) (key : Pubkey) :
    (compile instructions payer).keyMetaMap.get? key =
      if key ∈ (keyFlags instructions payer).map Prod.fst then
        some (((keyFlags instructions payer).filter (·.1 == key)).foldl
          (fun acc e => merge acc e.2) .default)
      else none := by
  rw [compile_keyMetaMap]
  exact SortedMap.get?_foldl_alter merge .default _ _ key

theorem mem_keys_keyFlags {instructions : List Instruction} {payer : Option Pubkey}
    {key : Pubkey} :
    key ∈ (keyFlags instructions payer).map Prod.fst ↔ payer = some key ∨ Mentioned instructions key := by
  simp only [keyFlags, instructionKeyFlags, Mentioned, List.map_append, List.map_flatMap,
    List.mem_append, List.mem_flatMap, List.map_cons, List.map_map, List.mem_cons, List.mem_map,
    Option.mem_toList, Function.comp_def]
  constructor
  · rintro (⟨ix, hix, hKey⟩ | ⟨p, hp, rfl⟩)
    · exact .inr ⟨ix, hix, hKey.imp Eq.symm fun ⟨am, ham, hEq⟩ => ⟨am, ham, hEq⟩⟩
    · exact .inl hp
  · rintro (hp | ⟨ix, hix, hKey⟩)
    · exact .inr ⟨key, hp, rfl⟩
    · exact .inl ⟨ix, hix, hKey.imp Eq.symm fun ⟨am, ham, hEq⟩ => ⟨am, ham, hEq⟩⟩

/-- A flag `compile` merges for a key is set by the payer's, the program's or an account's
flags for it. -/
theorem any_keyFlags {instructions : List Instruction} {payer : Option Pubkey} {key : Pubkey}
    (flag : CompiledKeyMeta → Bool) :
    (keyFlags instructions payer).any (fun e => e.1 == key && flag e.2) = true ↔
      (payer = some key ∧ flag ⟨true, true, false⟩ = true) ∨
        ∃ ix ∈ instructions, (ix.programId = key ∧ flag ⟨false, false, true⟩ = true) ∨
          ∃ accountMeta ∈ ix.accounts, accountMeta.pubkey = key ∧
            flag ⟨accountMeta.isSigner, accountMeta.isWritable, false⟩ = true := by
  simp only [keyFlags, instructionKeyFlags, List.any_append, List.any_flatMap, List.any_cons,
    List.any_map, Bool.or_eq_true, List.any_eq_true, Bool.and_eq_true, beq_iff_eq,
    Function.comp_def]
  cases payer with
  | none => simp
  | some p =>
      simp only [Option.toList_some, List.mem_singleton, exists_eq_left, Option.some.injEq]
      exact or_comm

/-- `compile` keeps the payer and every key of the instructions, and no other key. -/
theorem isSome_get?_compile {instructions : List Instruction} {payer : Option Pubkey}
    {key : Pubkey} :
    ((compile instructions payer).keyMetaMap.get? key).isSome ↔
      payer = some key ∨ Mentioned instructions key := by
  rw [get?_compile, ← mem_keys_keyFlags]
  split_ifs with hKey <;> simp [hKey]

/-- A flag of what `compile` records for a key is set when the payer's, the program's or an
account's flag for it is. -/
theorem flag_of_get?_compile {instructions : List Instruction} {payer : Option Pubkey}
    {key : Pubkey} {keyMeta : CompiledKeyMeta} (flag : CompiledKeyMeta → Bool)
    (hFlag : ∀ a b, flag (merge a b) = (flag a || flag b)) (hDefault : flag .default = false)
    (h : (compile instructions payer).keyMetaMap.get? key = some keyMeta) :
    flag keyMeta = true ↔
      (payer = some key ∧ flag ⟨true, true, false⟩ = true) ∨
        ∃ ix ∈ instructions, (ix.programId = key ∧ flag ⟨false, false, true⟩ = true) ∨
          ∃ accountMeta ∈ ix.accounts, accountMeta.pubkey = key ∧
            flag ⟨accountMeta.isSigner, accountMeta.isWritable, false⟩ = true := by
  rw [get?_compile] at h
  split_ifs at h
  cases h
  rw [foldl_merge flag hFlag Prod.snd, hDefault, Bool.false_or, List.any_filter]
  exact any_keyFlags flag

/-- What `compile` records of a key: a signer exactly when it is the payer or some account
marks it signer, writable likewise, and invoked when some instruction invokes it. -/
theorem compile_flags {instructions : List Instruction} {payer : Option Pubkey} {key : Pubkey}
    {keyMeta : CompiledKeyMeta}
    (h : (compile instructions payer).keyMetaMap.get? key = some keyMeta) :
    (keyMeta.isSigner = true ↔ payer = some key ∨ MarkedSigner instructions key) ∧
      (keyMeta.isWritable = true ↔ payer = some key ∨ MarkedWritable instructions key) ∧
      (keyMeta.isInvoked = true ↔ Invoked instructions key) := by
  refine ⟨?_, ?_, ?_⟩
  · rw [flag_of_get?_compile CompiledKeyMeta.isSigner (fun _ _ => rfl) rfl h]
    simp [MarkedSigner]
  · rw [flag_of_get?_compile CompiledKeyMeta.isWritable (fun _ _ => rfl) rfl h]
    simp [MarkedWritable]
  · rw [flag_of_get?_compile CompiledKeyMeta.isInvoked (fun _ _ => rfl) rfl h]
    simp [Invoked]

/-! ### The header regions -/

/-- The key is in the map with the given signer and writable flags. -/
def HasFlags (keyMetaMap : SortedMap Pubkey CompiledKeyMeta) (key : Pubkey)
    (isSigner isWritable : Bool) : Prop :=
  ∃ keyMeta, keyMetaMap.get? key = some keyMeta ∧ keyMeta.isSigner = isSigner ∧
    keyMeta.isWritable = isWritable

section Regions

variable {keyMetaMap : SortedMap Pubkey CompiledKeyMeta} {payer key : Pubkey}

theorem HasFlags.unique {s w s' w' : Bool} (h : HasFlags keyMetaMap key s w)
    (h' : HasFlags keyMetaMap key s' w') : s' = s ∧ w' = w := by
  obtain ⟨keyMeta, hKeyMeta, rfl, rfl⟩ := h
  obtain ⟨keyMeta', hKeyMeta', rfl, rfl⟩ := h'
  rw [hKeyMeta] at hKeyMeta'
  cases hKeyMeta'
  exact ⟨rfl, rfl⟩

theorem hasFlags_erase {s w : Bool} :
    HasFlags (keyMetaMap.erase payer) key s w ↔ key ≠ payer ∧ HasFlags keyMetaMap key s w := by
  by_cases hKey : key = payer <;> simp [HasFlags, hKey]

theorem mem_regionKeys {s w : Bool} :
    key ∈ regionKeys keyMetaMap s w ↔ HasFlags keyMetaMap key s w := by
  simp [regionKeys, SortedMap.mem_keysWhere, HasFlags]

/-- The regions of the static keys for a payer: the other keys by their flags, the payer leading
the writable signers. -/
def layoutRegion (keyMetaMap : SortedMap Pubkey CompiledKeyMeta) (payer : Pubkey) :
    Bool → Bool → List Pubkey
  | true, true => payer :: regionKeys (keyMetaMap.erase payer) true true
  | s, w => regionKeys (keyMetaMap.erase payer) s w

theorem nodup_layoutRegion (s w : Bool) : (layoutRegion keyMetaMap payer s w).Nodup := by
  have hRegion : ∀ s w, (regionKeys (keyMetaMap.erase payer) s w).Nodup := fun s w =>
    SortedMap.nodup_keysWhere _ _
  cases s <;> cases w
  · exact hRegion _ _
  · exact hRegion _ _
  · exact hRegion _ _
  · refine List.nodup_cons.mpr ⟨fun hMem => ?_, hRegion _ _⟩
    exact (hasFlags_erase.mp (mem_regionKeys.mp hMem)).1 rfl

variable (hPayer : HasFlags keyMetaMap payer true true)
include hPayer

theorem mem_layoutRegion {s w : Bool} :
    key ∈ layoutRegion keyMetaMap payer s w ↔ HasFlags keyMetaMap key s w := by
  have hOther : ∀ {s w : Bool}, (s = true → w = false) →
      (key ∈ regionKeys (keyMetaMap.erase payer) s w ↔ HasFlags keyMetaMap key s w) := by
    intro s w hNot
    rw [mem_regionKeys, hasFlags_erase]
    refine ⟨And.right, fun hKey => ⟨?_, hKey⟩⟩
    rintro rfl
    obtain ⟨rfl, rfl⟩ := hPayer.unique hKey
    simp at hNot
  cases s <;> cases w
  · exact hOther (by simp)
  · exact hOther (by simp)
  · exact hOther (by simp)
  · rw [layoutRegion, List.mem_cons, mem_regionKeys, hasFlags_erase]
    by_cases hKey : key = payer
    · subst hKey
      simp [hPayer]
    · simp [hKey]

/-- Regions of different flags share no key. -/
theorem disjoint_layoutRegion {s w s' w' : Bool} (hNe : ¬(s' = s ∧ w' = w)) :
    (layoutRegion keyMetaMap payer s w).Disjoint (layoutRegion keyMetaMap payer s' w') :=
  fun _ ha hb => hNe (((mem_layoutRegion hPayer).mp ha).unique ((mem_layoutRegion hPayer).mp hb))

theorem nodup_layout :
    (layoutRegion keyMetaMap payer true true ++ layoutRegion keyMetaMap payer true false ++
      layoutRegion keyMetaMap payer false true ++ layoutRegion keyMetaMap payer false false).Nodup := by
  have hFlatten : layoutRegion keyMetaMap payer true true ++ layoutRegion keyMetaMap payer true false ++
      layoutRegion keyMetaMap payer false true ++ layoutRegion keyMetaMap payer false false =
      [layoutRegion keyMetaMap payer true true, layoutRegion keyMetaMap payer true false,
        layoutRegion keyMetaMap payer false true, layoutRegion keyMetaMap payer false false].flatten := by
    simp
  rw [hFlatten, List.nodup_flatten]
  refine ⟨by simp [nodup_layoutRegion], ?_⟩
  simp only [List.pairwise_cons, List.mem_cons, forall_eq_or_imp, List.not_mem_nil,
    IsEmpty.forall_iff, implies_true, List.Pairwise.nil, and_true]
  refine ⟨⟨?_, ?_, ?_⟩, ⟨?_, ?_⟩, ?_⟩ <;> exact disjoint_layoutRegion hPayer (by decide)

end Regions

theorem tryIntoMessageComponents_eq_ok {c : CompiledKeys} {payer : Pubkey}
    {header : MessageHeader} {staticKeys : List Pubkey} (hPayer : c.payer = some payer)
    (h : c.tryIntoMessageComponents = .ok (header, staticKeys)) :
    staticKeys = layoutRegion c.keyMetaMap payer true true ++ layoutRegion c.keyMetaMap payer true false ++
        layoutRegion c.keyMetaMap payer false true ++ layoutRegion c.keyMetaMap payer false false ∧
      header.numRequiredSignatures.toNat = (layoutRegion c.keyMetaMap payer true true).length +
        (layoutRegion c.keyMetaMap payer true false).length ∧
      header.numReadonlySignedAccounts.toNat = (layoutRegion c.keyMetaMap payer true false).length ∧
      header.numReadonlyUnsignedAccounts.toNat =
        (layoutRegion c.keyMetaMap payer false false).length := by
  simp only [tryIntoMessageComponents, hPayer, Option.toList_some, bind_eq_ok, u8TryFrom_eq_ok,
    pure_eq_ok, Prod.mk.injEq] at h
  obtain ⟨_, ⟨hReqLt, rfl⟩, _, ⟨hRosLt, rfl⟩, _, ⟨hRouLt, rfl⟩, rfl, rfl⟩ := h
  have hFits : ∀ {n : Nat}, n < 256 → (UInt8.ofNat n).toNat = n := fun hn => by
    simp [Nat.mod_eq_of_lt hn]
  have hSum := add_lt_of_saturatingAdd_lt hReqLt (by unfold maxValue; omega)
  refine ⟨by simp [layoutRegion], ?_, hFits hRosLt, hFits hRouLt⟩
  rw [hFits hReqLt, @saturatingAdd_of_le 64 _ _ (by unfold maxValue; omega)]
  simp [layoutRegion]

/-- What the static keys and the header of a compiled message say of the keys of the map they
were made from: each key once and every key there, the payer first, the signers exactly in
the signed region and the writable keys exactly in the two writable regions. -/
structure StaticLayout (keyMetaMap : SortedMap Pubkey CompiledKeyMeta) (payer : Pubkey)
    (header : MessageHeader) (staticKeys : List Pubkey) : Prop where
  nodup : staticKeys.Nodup
  payer_first : staticKeys[0]? = some payer
  mem_iff : ∀ key, key ∈ staticKeys ↔ (keyMetaMap.get? key).isSome
  readonlySigned_lt :
    header.numReadonlySignedAccounts.toNat < header.numRequiredSignatures.toNat
  header_le : header.numRequiredSignatures.toNat + header.numReadonlyUnsignedAccounts.toNat ≤
    staticKeys.length
  signer_iff : ∀ i (hi : i < staticKeys.length),
    i < header.numRequiredSignatures.toNat ↔ ∃ w, HasFlags keyMetaMap staticKeys[i] true w
  writable_iff : ∀ i (hi : i < staticKeys.length),
    (i < header.numRequiredSignatures.toNat - header.numReadonlySignedAccounts.toNat ∨
        header.numRequiredSignatures.toNat ≤ i ∧
          i < staticKeys.length - header.numReadonlyUnsignedAccounts.toNat) ↔
      ∃ s, HasFlags keyMetaMap staticKeys[i] s true

theorem staticLayout_of_tryIntoMessageComponents {c : CompiledKeys} {payer : Pubkey}
    {header : MessageHeader} {staticKeys : List Pubkey} (hPayer : c.payer = some payer)
    (hPayerFlags : HasFlags c.keyMetaMap payer true true)
    (h : c.tryIntoMessageComponents = .ok (header, staticKeys)) :
    StaticLayout c.keyMetaMap payer header staticKeys := by
  obtain ⟨rfl, hReq, hRos, hRou⟩ := tryIntoMessageComponents_eq_ok hPayer h
  clear h
  have hNodup := nodup_layout hPayerFlags
  have hMem : ∀ s w key, key ∈ layoutRegion c.keyMetaMap payer s w ↔
      HasFlags c.keyMetaMap key s w := fun _ _ _ => mem_layoutRegion hPayerFlags
  have hPayerFirst : (layoutRegion c.keyMetaMap payer true true).head? = some payer := rfl
  generalize layoutRegion c.keyMetaMap payer = region at *
  -- every static key has flags, and the region that holds it is the one of its flags
  have hFlags : ∀ key, key ∈ region true true ++ region true false ++ region false true ++
      region false false ↔ ∃ s w, HasFlags c.keyMetaMap key s w := by
    intro key
    simp only [List.mem_append, hMem]
    constructor
    · rintro (((h | h) | h) | h) <;> exact ⟨_, _, h⟩
    · rintro ⟨s, w, h⟩
      cases s <;> cases w <;> simp [h]
  have hRegionOf : ∀ {key s₀ w₀}, HasFlags c.keyMetaMap key s₀ w₀ →
      ∀ s w, key ∈ region s w ↔ s = s₀ ∧ w = w₀ := fun hKey s w =>
    (hMem s w _).trans ⟨fun h' => hKey.unique h', fun h => h.1 ▸ h.2 ▸ hKey⟩
  have hPayerIn : payer ∈ region true true := by
    cases hTT : region true true with
    | nil => simp [hTT] at hPayerFirst
    | cons k rest =>
        rw [hTT, List.head?_cons, Option.some.injEq] at hPayerFirst
        exact hPayerFirst ▸ List.mem_cons_self
  refine ⟨hNodup, ?_, ?_, ?_, ?_, ?_, ?_⟩
  · cases hTT : region true true with
    | nil => simp [hTT] at hPayerFirst
    | cons k rest =>
        rw [hTT, List.head?_cons] at hPayerFirst
        simp [hPayerFirst]
  · intro key
    rw [hFlags]
    constructor
    · rintro ⟨s, w, keyMeta, hKeyMeta, -⟩
      simp [hKeyMeta]
    · intro hSome
      obtain ⟨keyMeta, hKeyMeta⟩ := Option.isSome_iff_exists.mp hSome
      exact ⟨_, _, keyMeta, hKeyMeta, rfl, rfl⟩
  · rw [hReq, hRos]
    have := List.length_pos_of_mem hPayerIn
    omega
  · rw [hReq, hRou]
    simp only [List.length_append]
    omega
  · intro i hi
    obtain ⟨s₀, w₀, hKey⟩ := (hFlags _).mp (List.getElem_mem hi)
    have hSigned := Lib.List.getElem_mem_left_iff_of_nodup
      (show _ = (region true true ++ region true false) ++ (region false true ++ region false false)
        by simp only [List.append_assoc]) hNodup hi
    rw [hReq, ← List.length_append, ← hSigned, List.mem_append, hRegionOf hKey, hRegionOf hKey]
    constructor
    · rintro (⟨rfl, -⟩ | ⟨rfl, -⟩) <;> exact ⟨w₀, hKey⟩
    · rintro ⟨w, hw⟩
      obtain ⟨rfl, rfl⟩ := hKey.unique hw
      cases w <;> simp
  · intro i hi
    obtain ⟨s₀, w₀, hKey⟩ := (hFlags _).mp (List.getElem_mem hi)
    have hFirst := Lib.List.getElem_mem_left_iff_of_nodup
      (show _ = region true true ++ (region true false ++ region false true ++ region false false)
        by simp only [List.append_assoc]) hNodup hi
    have hSigned := Lib.List.getElem_mem_left_iff_of_nodup
      (show _ = (region true true ++ region true false) ++ (region false true ++ region false false)
        by simp only [List.append_assoc]) hNodup hi
    have hWritable := Lib.List.getElem_mem_left_iff_of_nodup
      (show _ = (region true true ++ region true false ++ region false true) ++ region false false
        from rfl) hNodup hi
    simp only [List.length_append] at hFirst hSigned hWritable hi
    simp only [List.mem_append, hRegionOf hKey] at hFirst hSigned hWritable
    have hWritableFlag : (∃ s, HasFlags c.keyMetaMap _ s true) ↔ w₀ = true :=
      ⟨fun h => h.elim fun _ hs => (hKey.unique hs).2.symm, fun hw => ⟨s₀, hw ▸ hKey⟩⟩
    rw [hReq, hRos, hRou, hWritableFlag]
    -- the cuts between the regions place the key by its flags
    cases s₀ <;> cases w₀ <;> simp_all <;> omega

theorem StaticLayout.flags_of_mem {keyMetaMap : SortedMap Pubkey CompiledKeyMeta}
    {payer : Pubkey} {header : MessageHeader} {staticKeys : List Pubkey}
    (hLayout : StaticLayout keyMetaMap payer header staticKeys) {key : Pubkey}
    (hKey : key ∈ staticKeys) : ∃ s w, HasFlags keyMetaMap key s w := by
  obtain ⟨keyMeta, hKeyMeta⟩ := Option.isSome_iff_exists.mp ((hLayout.mem_iff key).mp hKey)
  exact ⟨_, _, keyMeta, hKeyMeta, rfl, rfl⟩

/-! ### Draining keys found in a lookup table -/

theorem drainKey_eq_ok {addresses : List Pubkey} {found found' : List UInt8 × List Pubkey}
    {searchKey : Pubkey} (h : drainKey addresses found searchKey = .ok found') :
    (searchKey ∉ addresses ∧ found' = found) ∨
      ∃ keyIndex < 256, addresses[keyIndex]? = some searchKey ∧
        found' = (found.1 ++ [UInt8.ofNat keyIndex], found.2 ++ [searchKey]) := by
  obtain ⟨indexes, drained⟩ := found
  simp only [drainKey] at h
  cases hFind : addresses.findIdx? (· == searchKey) with
  | some keyIndex =>
      simp only [hFind, bind_eq_ok, u8TryFrom_eq_ok, pure_eq_ok] at h
      obtain ⟨_, ⟨hLt, rfl⟩, rfl⟩ := h
      obtain ⟨hIdx, hAt, -⟩ := List.findIdx?_eq_some_iff_getElem.mp hFind
      refine .inr ⟨keyIndex, hLt, ?_, rfl⟩
      rw [List.getElem?_eq_getElem hIdx, beq_iff_eq.mp hAt]
  | none =>
      simp only [hFind, pure_eq_ok] at h
      refine .inl ⟨fun hMem => ?_, h.symm⟩
      have hNone := List.findIdx?_eq_none_iff.mp hFind searchKey hMem
      simp at hNone

/-- The loop of `try_drain_keys_found_in_lookup_table` keeps, in order, the search keys the
table holds, each with a position in the table that holds it. -/
theorem foldlM_drainKey_eq_ok {addresses searchKeys : List Pubkey} {indexes : List UInt8}
    {drained : List Pubkey}
    (h : searchKeys.foldlM (drainKey addresses) ([], []) = .ok (indexes, drained)) :
    drained = searchKeys.filter (· ∈ addresses) ∧
      indexes.map (fun i => addresses[i.toNat]?) = drained.map some := by
  let Found : List Pubkey → List UInt8 × List Pubkey → Prop := fun pre found =>
    found.2 = pre.filter (· ∈ addresses) ∧
      found.1.map (fun i => addresses[i.toNat]?) = found.2.map some
  have hStep : ∀ pre searchKey found found', Found pre found →
      drainKey addresses found searchKey = .ok found' → Found (pre ++ [searchKey]) found' := by
    rintro pre searchKey ⟨is, ds⟩ found' ⟨hDrained, hIndexes⟩ hDrain
    rcases drainKey_eq_ok hDrain with ⟨hNotMem, rfl⟩ | ⟨keyIndex, hLt, hAt, rfl⟩
    · simp_all [Found, List.filter_append]
    · have hMem : searchKey ∈ addresses := List.mem_of_getElem? hAt
      simp_all [Found, List.filter_append, Nat.mod_eq_of_lt hLt]
  simpa [Found] using foldlM_invariant Found hStep (show Found [] ([], []) by simp [Found]) h

/-- `try_drain_keys_found_in_lookup_table` removes from the map exactly the keys it drains:
the keys passing the filter that the table holds, each once, with their positions in it. -/
theorem tryDrainKeysFoundInLookupTable_eq_ok {c c' : CompiledKeys} {addresses : List Pubkey}
    {keyMetaFilter : CompiledKeyMeta → Bool} {indexes : List UInt8} {drained : List Pubkey}
    (h : c.tryDrainKeysFoundInLookupTable addresses keyMetaFilter = .ok (c', indexes, drained)) :
    c'.payer = c.payer ∧
      (∀ key, c'.keyMetaMap.get? key =
        if key ∈ drained then none else c.keyMetaMap.get? key) ∧
      (∀ key ∈ drained, key ∈ addresses ∧
        ∃ keyMeta, c.keyMetaMap.get? key = some keyMeta ∧ keyMetaFilter keyMeta = true) ∧
      drained.Nodup ∧
      indexes.map (fun i => addresses[i.toNat]?) = drained.map some := by
  simp only [tryDrainKeysFoundInLookupTable, bind_eq_ok, pure_eq_ok, Prod.mk.injEq] at h
  obtain ⟨⟨indexes', drained'⟩, hFold, rfl, rfl, rfl⟩ := h
  obtain ⟨rfl, hIndexes⟩ := foldlM_drainKey_eq_ok hFold
  refine ⟨rfl, fun key => SortedMap.get?_foldl_erase _ _ key, ?_, ?_, hIndexes⟩
  · intro key hKey
    rw [List.mem_filter, decide_eq_true_eq, SortedMap.mem_keysWhere] at hKey
    exact ⟨hKey.2, hKey.1⟩
  · exact (SortedMap.nodup_keysWhere _ _).filter _

/-- A lookup loads the given addresses from a table: it names the table, and its indexes point,
in order, at the addresses. -/
def LoadsFrom (table : AddressLookupTableAccount) (lookup : V0.MessageAddressTableLookup)
    (loaded : V0.LoadedAddresses) : Prop :=
  lookup.accountKey = table.key ∧
    lookup.writableIndexes.map (fun i => table.addresses[i.toNat]?) = loaded.writable.map some ∧
    lookup.readonlyIndexes.map (fun i => table.addresses[i.toNat]?) = loaded.readonly.map some

/-- A key the map lets a table load: neither a signer nor invoked, and writable or not as
asked. -/
def Loadable (keyMetaMap : SortedMap Pubkey CompiledKeyMeta) (isWritable : Bool)
    (key : Pubkey) : Prop :=
  ∃ keyMeta, keyMetaMap.get? key = some keyMeta ∧ keyMeta.isSigner = false ∧
    keyMeta.isInvoked = false ∧ keyMeta.isWritable = isWritable

theorem Loadable.hasFlags {keyMetaMap : SortedMap Pubkey CompiledKeyMeta} {w : Bool}
    {key : Pubkey} (h : Loadable keyMetaMap w key) : HasFlags keyMetaMap key false w := by
  obtain ⟨keyMeta, hKeyMeta, hSigner, -, hWritable⟩ := h
  exact ⟨keyMeta, hKeyMeta, hSigner, hWritable⟩

/-- `try_extract_table_lookup` drains, from the map, loadable keys that the table holds, each
once, and a lookup is made exactly when some are drained; it loads them from the table. -/
theorem tryExtractTableLookup_eq_ok {c c' : CompiledKeys} {table : AddressLookupTableAccount}
    {extracted : Option (V0.MessageAddressTableLookup × V0.LoadedAddresses)}
    (h : c.tryExtractTableLookup table = .ok (c', extracted)) :
    ∃ loaded : V0.LoadedAddresses,
      c'.payer = c.payer ∧
      (∀ key, c'.keyMetaMap.get? key =
        if key ∈ loaded.writable ++ loaded.readonly then none else c.keyMetaMap.get? key) ∧
      (∀ key ∈ loaded.writable, Loadable c.keyMetaMap true key) ∧
      (∀ key ∈ loaded.readonly, Loadable c.keyMetaMap false key) ∧
      (loaded.writable ++ loaded.readonly).Nodup ∧
      ((extracted = none ∧ loaded = ⟨[], []⟩) ∨
        ∃ lookup, extracted = some (lookup, loaded) ∧ LoadsFrom table lookup loaded ∧
          lookup.writableIndexes ++ lookup.readonlyIndexes ≠ []) := by
  simp only [tryExtractTableLookup, bind_eq_ok] at h
  obtain ⟨⟨c₁, writableIndexes, writableKeys⟩, hWritable, h⟩ := h
  obtain ⟨⟨c₂, readonlyIndexes, readonlyKeys⟩, hReadonly, h⟩ := h
  obtain ⟨hPayer₁, hGet₁, hMem₁, hNodup₁, hIndexes₁⟩ :=
    tryDrainKeysFoundInLookupTable_eq_ok hWritable
  obtain ⟨hPayer₂, hGet₂, hMem₂, hNodup₂, hIndexes₂⟩ :=
    tryDrainKeysFoundInLookupTable_eq_ok hReadonly
  -- a key drained second was still in the map after the first drain
  have hReadonlyMem : ∀ key ∈ readonlyKeys, key ∉ writableKeys ∧ Loadable c.keyMetaMap false key := by
    intro key hKey
    obtain ⟨-, keyMeta, hKeyMeta, hFilter⟩ := hMem₂ key hKey
    rw [hGet₁] at hKeyMeta
    split_ifs at hKeyMeta with hIn
    simp only [Bool.and_eq_true, Bool.not_eq_true'] at hFilter
    exact ⟨hIn, keyMeta, hKeyMeta, hFilter.1.1, hFilter.1.2, hFilter.2⟩
  have hWritableMem : ∀ key ∈ writableKeys, Loadable c.keyMetaMap true key := by
    intro key hKey
    obtain ⟨-, keyMeta, hKeyMeta, hFilter⟩ := hMem₁ key hKey
    simp only [Bool.and_eq_true, Bool.not_eq_true'] at hFilter
    exact ⟨keyMeta, hKeyMeta, hFilter.1.1, hFilter.1.2, hFilter.2⟩
  have hGet : ∀ key, c₂.keyMetaMap.get? key =
      if key ∈ writableKeys ++ readonlyKeys then none else c.keyMetaMap.get? key := by
    intro key
    simp only [hGet₂, hGet₁, List.mem_append]
    by_cases hW : key ∈ writableKeys <;> by_cases hR : key ∈ readonlyKeys <;> simp [hW, hR]
  have hNodup : (writableKeys ++ readonlyKeys).Nodup :=
    List.nodup_append.mpr ⟨hNodup₁, hNodup₂, fun a ha b hb hab =>
      (hReadonlyMem b hb).1 (hab ▸ ha)⟩
  refine ⟨⟨writableKeys, readonlyKeys⟩, ?_⟩
  split_ifs at h with hEmpty
  · simp only [pure_eq_ok, Prod.mk.injEq] at h
    obtain ⟨rfl, rfl⟩ := h
    simp only [Bool.and_eq_true, List.isEmpty_iff] at hEmpty
    obtain ⟨rfl, rfl⟩ := hEmpty
    have hW : writableKeys = [] := by simpa using hIndexes₁.symm
    have hR : readonlyKeys = [] := by simpa using hIndexes₂.symm
    subst hW hR
    exact ⟨hPayer₂.trans hPayer₁, hGet, by simp, by simp, by simp, .inl ⟨rfl, rfl⟩⟩
  · simp only [pure_eq_ok, Prod.mk.injEq] at h
    obtain ⟨rfl, rfl⟩ := h
    refine ⟨hPayer₂.trans hPayer₁, hGet, hWritableMem, fun key hKey => (hReadonlyMem key hKey).2,
      hNodup, .inr ⟨_, rfl, ⟨rfl, hIndexes₁, hIndexes₂⟩, ?_⟩⟩
    simp only [Bool.and_eq_true, List.isEmpty_iff, not_and] at hEmpty
    simp only [ne_eq, List.append_eq_nil_iff, not_and]
    exact hEmpty

/-- A loadable key of a map stays loadable in the map it came from. -/
theorem Loadable.of_get? {keyMetaMap keyMetaMap₀ : SortedMap Pubkey CompiledKeyMeta}
    {drained : List Pubkey} {isWritable : Bool} {key : Pubkey}
    (hGet : ∀ key, keyMetaMap.get? key = if key ∈ drained then none else keyMetaMap₀.get? key)
    (h : Loadable keyMetaMap isWritable key) : key ∉ drained ∧ Loadable keyMetaMap₀ isWritable key := by
  obtain ⟨keyMeta, hKeyMeta, hFlags⟩ := h
  rw [hGet] at hKeyMeta
  split_ifs at hKeyMeta with hIn
  exact ⟨hIn, keyMeta, hKeyMeta, hFlags⟩

end CompiledKeys

namespace V0.Message

open CompiledKeys

/-- What the loop of `try_compile` over the tables keeps, against the map `compile` made: the
map has lost exactly the keys loaded so far, which are loadable keys of that map, each once,
and each lookup loads its keys from one of the tables seen. -/
structure ExtractInvariant (c₀ : CompiledKeys) (tables : List AddressLookupTableAccount)
    (state : CompiledKeys × List MessageAddressTableLookup × List LoadedAddresses) : Prop where
  payer : state.1.payer = c₀.payer
  get? : ∀ key, state.1.keyMetaMap.get? key =
    if key ∈ (LoadedAddresses.fromIter state.2.2).writable ++
        (LoadedAddresses.fromIter state.2.2).readonly
      then none else c₀.keyMetaMap.get? key
  nodup : ((LoadedAddresses.fromIter state.2.2).writable ++
    (LoadedAddresses.fromIter state.2.2).readonly).Nodup
  writable : ∀ key ∈ (LoadedAddresses.fromIter state.2.2).writable,
    Loadable c₀.keyMetaMap true key
  readonly : ∀ key ∈ (LoadedAddresses.fromIter state.2.2).readonly,
    Loadable c₀.keyMetaMap false key
  loads : List.Forall₂ (fun lookup loaded => ∃ table ∈ tables, LoadsFrom table lookup loaded ∧
    lookup.writableIndexes ++ lookup.readonlyIndexes ≠ []) state.2.1 state.2.2

@[simp] theorem fromIter_nil : LoadedAddresses.fromIter [] = ⟨[], []⟩ := rfl

@[simp] theorem fromIter_append_singleton (loadedAddressesList : List LoadedAddresses)
    (loaded : LoadedAddresses) :
    LoadedAddresses.fromIter (loadedAddressesList ++ [loaded]) =
      ⟨(LoadedAddresses.fromIter loadedAddressesList).writable ++ loaded.writable,
        (LoadedAddresses.fromIter loadedAddressesList).readonly ++ loaded.readonly⟩ := by
  simp [LoadedAddresses.fromIter]

theorem ExtractInvariant.init (c₀ : CompiledKeys) : ExtractInvariant c₀ [] (c₀, [], []) where
  payer := rfl
  get? := by simp
  nodup := by simp
  writable := by simp
  readonly := by simp
  loads := .nil

/-- One table keeps the invariant: what it drains was still in the map, so it was loadable in
the map `compile` made and was not loaded before. -/
theorem ExtractInvariant.step {c₀ : CompiledKeys} {tables : List AddressLookupTableAccount}
    {state state' : CompiledKeys × List MessageAddressTableLookup × List LoadedAddresses}
    {table : AddressLookupTableAccount} (hInv : ExtractInvariant c₀ tables state)
    (h : extractTableLookup state table = .ok state') :
    ExtractInvariant c₀ (tables ++ [table]) state' := by
  obtain ⟨c, lookups, loadedList⟩ := state
  simp only [extractTableLookup, bind_eq_ok] at h
  obtain ⟨⟨c', extracted⟩, hExtract, h⟩ := h
  obtain ⟨loaded, hPayer, hGet, hWritable, hReadonly, hNodup, hCase⟩ :=
    tryExtractTableLookup_eq_ok hExtract
  have hLoads : List.Forall₂ (fun lookup loaded => ∃ table' ∈ tables ++ [table],
      LoadsFrom table' lookup loaded ∧ lookup.writableIndexes ++ lookup.readonlyIndexes ≠ [])
      lookups loadedList :=
    hInv.loads.imp fun _ _ h => h.imp fun _ hFrom => ⟨List.mem_append_left _ hFrom.1, hFrom.2⟩
  rcases hCase with ⟨rfl, rfl⟩ | ⟨lookup, rfl, hFrom, hNonempty⟩
  · simp only [pure_eq_ok] at h
    subst h
    refine ⟨hPayer.trans hInv.payer, fun key => ?_, hInv.nodup, hInv.writable, hInv.readonly,
      hLoads⟩
    simpa [hInv.get? key] using hGet key
  · simp only [pure_eq_ok] at h
    subst h
    have hLoadable : ∀ {w key}, Loadable c.keyMetaMap w key →
        key ∉ (LoadedAddresses.fromIter loadedList).writable ++
          (LoadedAddresses.fromIter loadedList).readonly ∧ Loadable c₀.keyMetaMap w key :=
      fun h => Loadable.of_get? hInv.get? h
    refine ⟨hPayer.trans hInv.payer, fun key => ?_, ?_, ?_, ?_, ?_⟩
    · simp only [fromIter_append_singleton, hGet key, hInv.get? key, List.mem_append]
      by_cases h₁ : key ∈ loaded.writable <;> by_cases h₂ : key ∈ loaded.readonly <;>
        simp [h₁, h₂, or_comm]
    · simp only [fromIter_append_singleton]
      apply Lib.List.nodup_append_swap
      refine List.nodup_append.mpr ⟨hInv.nodup, hNodup, fun a ha b hb hab => ?_⟩
      subst hab
      rcases List.mem_append.mp hb with hb | hb
      · exact (hLoadable (hWritable a hb)).1 ha
      · exact (hLoadable (hReadonly a hb)).1 ha
    · simp only [fromIter_append_singleton, List.mem_append]
      rintro key (hKey | hKey)
      · exact hInv.writable key hKey
      · exact (hLoadable (hWritable key hKey)).2
    · simp only [fromIter_append_singleton, List.mem_append]
      rintro key (hKey | hKey)
      · exact hInv.readonly key hKey
      · exact (hLoadable (hReadonly key hKey)).2
    · exact List.rel_append hLoads (.cons ⟨table, by simp, hFrom, hNonempty⟩ .nil)

theorem foldlM_extractTableLookup {c₀ : CompiledKeys} {tables : List AddressLookupTableAccount}
    {state : CompiledKeys × List MessageAddressTableLookup × List LoadedAddresses}
    (h : tables.foldlM extractTableLookup (c₀, [], []) = .ok state) :
    ExtractInvariant c₀ tables state := by
  simpa using foldlM_invariant (ExtractInvariant c₀)
    (fun _ _ _ _ hInv hStep => hInv.step hStep) (ExtractInvariant.init c₀) h

end V0.Message

/-! ### Indexing the instructions' keys -/

/-- A compiled instruction resolves, through a key list, to an instruction: to its program, to
its accounts in order, and to its data. -/
def Resolves (keys : List Pubkey) (ix : Instruction) (compiled : CompiledInstruction) : Prop :=
  keys[compiled.programIdIndex.toNat]? = some ix.programId ∧
    compiled.accounts.map (fun index => keys[index.toNat]?) =
      ix.accounts.map (fun accountMeta => some accountMeta.pubkey) ∧
    compiled.data = ix.data

instance (keys : List Pubkey) (ix : Instruction) (compiled : CompiledInstruction) :
    Decidable (Resolves keys ix compiled) :=
  inferInstanceAs (Decidable (_ ∧ _ ∧ _))

/-- The indexes of a compiled instruction that resolves are in range, and its program index
is not the payer's position when the program is not the payer. -/
theorem Resolves.indexes_lt {keys : List Pubkey} {ix : Instruction}
    {compiled : CompiledInstruction} {payer : Pubkey} (h : Resolves keys ix compiled)
    (hFirst : keys[0]? = some payer) (hNotPayer : ix.programId ≠ payer) :
    compiled.programIdIndex.toNat < keys.length ∧ compiled.programIdIndex ≠ 0 ∧
      ∀ a ∈ compiled.accounts, a.toNat < keys.length := by
  obtain ⟨hProgram, hAccounts, -⟩ := h
  refine ⟨(List.getElem?_eq_some_iff.mp hProgram).1, fun hZero => ?_, fun a ha => ?_⟩
  · rw [hZero] at hProgram
    exact hNotPayer (Option.some.inj (hProgram.symm.trans hFirst))
  · have hMem : keys[a.toNat]? ∈ compiled.accounts.map fun index => keys[index.toNat]? :=
      List.mem_map_of_mem ha
    rw [hAccounts] at hMem
    obtain ⟨accountMeta, -, hEq⟩ := List.mem_map.mp hMem
    exact (List.getElem?_eq_some_iff.mp hEq.symm).1

/-- What a compiled message's key list and header say of the instructions' keys: each key once,
the payer first, the signers exactly the payer and the keys some account marks signer, and the
keys in a writable region exactly the payer and the keys some account marks writable. -/
structure KeysFaithful (payer : Pubkey) (instructions : List Instruction) (keys : List Pubkey)
    (header : MessageHeader) (writableRegion : Nat → Prop) : Prop where
  nodup : keys.Nodup
  payer_first : keys[0]? = some payer
  signer_iff : ∀ i (hi : i < keys.length),
    i < header.numRequiredSignatures.toNat ↔ keys[i] = payer ∨ MarkedSigner instructions keys[i]
  writable_iff : ∀ i (hi : i < keys.length),
    writableRegion i ↔ keys[i] = payer ∨ MarkedWritable instructions keys[i]

namespace AccountKeys

/-- The first loop of `try_compile_instructions` succeeds only on at most 256 keys, and maps
each key to a position that holds it. -/
theorem foldlM_insertAccountIndex_eq_ok {keys : List Pubkey}
    {accountIndexMap : SortedMap Pubkey UInt8}
    (h : keys.zipIdx.foldlM insertAccountIndex SortedMap.empty = .ok accountIndexMap) :
    keys.length ≤ 256 ∧
      ∀ key index, accountIndexMap.get? key = some index → keys[index.toNat]? = some key := by
  let Indexed : List (Pubkey × Nat) → SortedMap Pubkey UInt8 → Prop := fun pre m =>
    (∀ key index, m.get? key = some index → (key, index.toNat) ∈ pre) ∧ ∀ e ∈ pre, e.2 < 256
  have hStep : ∀ pre entry m m', Indexed pre m → insertAccountIndex m entry = .ok m' →
      Indexed (pre ++ [entry]) m' := by
    rintro pre ⟨key, index⟩ m m' ⟨hGet, hLt⟩ hInsert
    simp only [insertAccountIndex, bind_eq_ok, u8TryFrom_eq_ok, pure_eq_ok] at hInsert
    obtain ⟨_, ⟨hIndex, rfl⟩, rfl⟩ := hInsert
    refine ⟨fun key' index' hKey => ?_, ?_⟩
    · rw [SortedMap.get?_insert] at hKey
      split_ifs at hKey with hEq
      · cases hKey
        simp [hEq, Nat.mod_eq_of_lt hIndex]
      · exact List.mem_append_left _ (hGet key' index' hKey)
    · intro e he
      rcases List.mem_append.mp he with he | he
      · exact hLt e he
      · rw [List.mem_singleton.mp he]
        exact hIndex
  obtain ⟨hGet, hLt⟩ := foldlM_invariant Indexed hStep (show Indexed [] SortedMap.empty by
    simp [Indexed]) h
  refine ⟨Nat.le_of_not_lt fun hLong => ?_, fun key index hKey => ?_⟩
  · have hMem : (keys[256], 256) ∈ keys.zipIdx := List.mem_zipIdx_iff_getElem?.mpr (by simp)
    exact Nat.lt_irrefl 256 (hLt _ (by simpa using hMem))
  · exact List.mem_zipIdx_iff_getElem?.mp (by simpa using hGet key index hKey)

/-- `try_compile_instructions` succeeds only on at most 256 keys, and each instruction it
compiles resolves through the keys to the instruction it was compiled from. -/
theorem tryCompileInstructions_eq_ok {k : AccountKeys} {instructions : List Instruction}
    {compiled : List CompiledInstruction}
    (h : k.tryCompileInstructions instructions = .ok compiled) :
    k.iter.length ≤ 256 ∧ List.Forall₂ (Resolves k.iter) instructions compiled := by
  simp only [tryCompileInstructions, bind_eq_ok] at h
  obtain ⟨accountIndexMap, hMap, h⟩ := h
  obtain ⟨hLength, hIndex⟩ := foldlM_insertAccountIndex_eq_ok hMap
  have hGetIndex : ∀ {key index}, getAccountIndex accountIndexMap key = .ok index →
      k.iter[index.toNat]? = some key := fun hKey =>
    hIndex _ _ (okOr_eq_ok.mp hKey)
  refine ⟨hLength, (mapM_eq_ok.mp h).imp fun ix compiledIx hIx => ?_⟩
  simp only [bind_eq_ok, pure_eq_ok] at hIx
  obtain ⟨accounts, hAccounts, programIdIndex, hProgram, rfl⟩ := hIx
  refine ⟨hGetIndex hProgram, ?_, rfl⟩
  exact Lib.List.map_eq_map_of_forall₂ ((mapM_eq_ok.mp hAccounts).imp fun _ _ h => hGetIndex h)

end AccountKeys

/-! ### Compiling a version-0 message -/

namespace CompiledKeys

/-- `compile` with a payer records the payer as a writable signer. -/
theorem hasFlags_payer_compile (instructions : List Instruction) (payer : Pubkey) :
    HasFlags (compile instructions (some payer)).keyMetaMap payer true true := by
  obtain ⟨keyMeta, hKeyMeta⟩ := Option.isSome_iff_exists.mp
    (isSome_get?_compile.mpr (.inl rfl) :
      ((compile instructions (some payer)).keyMetaMap.get? payer).isSome)
  obtain ⟨hSigner, hWritable, -⟩ := compile_flags hKeyMeta
  exact ⟨keyMeta, hKeyMeta, hSigner.mpr (.inl rfl), hWritable.mpr (.inl rfl)⟩

/-- The flags `compile` records: a key signs, or is writable, exactly when it is the payer or an
instruction marks it so. -/
theorem hasFlags_compile {instructions : List Instruction} {payer key : Pubkey} {s w : Bool}
    (h : HasFlags (compile instructions (some payer)).keyMetaMap key s w) :
    (s = true ↔ key = payer ∨ MarkedSigner instructions key) ∧
      (w = true ↔ key = payer ∨ MarkedWritable instructions key) := by
  obtain ⟨keyMeta, hKeyMeta, rfl, rfl⟩ := h
  obtain ⟨hSigner, hWritable, -⟩ := compile_flags hKeyMeta
  simp only [Option.some.injEq, @eq_comm _ payer] at hSigner hWritable
  exact ⟨hSigner, hWritable⟩

/-- A key that was not drained keeps the flags it had. -/
theorem hasFlags_of_not_mem {keyMetaMap keyMetaMap₀ : SortedMap Pubkey CompiledKeyMeta}
    {drained : List Pubkey} {key : Pubkey} {s w : Bool}
    (hGet : ∀ key, keyMetaMap.get? key = if key ∈ drained then none else keyMetaMap₀.get? key)
    (hKey : key ∉ drained) : HasFlags keyMetaMap key s w ↔ HasFlags keyMetaMap₀ key s w := by
  simp only [HasFlags, hGet key, hKey, if_false]

/-- Read through the flags `compile` gave the static keys, the static layout's signers are
exactly the payer and the keys the instructions mark as signers, and its writable keys exactly
the payer and the keys they mark writable. -/
theorem StaticLayout.iff_marked {keyMetaMap : SortedMap Pubkey CompiledKeyMeta}
    {instructions : List Instruction} {payer : Pubkey} {header : MessageHeader}
    {staticKeys : List Pubkey} (hLayout : StaticLayout keyMetaMap payer header staticKeys)
    (hFlags : ∀ key ∈ staticKeys, ∀ s w, HasFlags keyMetaMap key s w →
      HasFlags (compile instructions (some payer)).keyMetaMap key s w)
    {i : Nat} (hi : i < staticKeys.length) :
    (i < header.numRequiredSignatures.toNat ↔
        staticKeys[i] = payer ∨ MarkedSigner instructions staticKeys[i]) ∧
      ((i < header.numRequiredSignatures.toNat - header.numReadonlySignedAccounts.toNat ∨
          header.numRequiredSignatures.toNat ≤ i ∧
            i < staticKeys.length - header.numReadonlyUnsignedAccounts.toNat) ↔
        staticKeys[i] = payer ∨ MarkedWritable instructions staticKeys[i]) := by
  obtain ⟨s, w, hKey⟩ := hLayout.flags_of_mem (List.getElem_mem hi)
  obtain ⟨hSigner, hWritable⟩ := hasFlags_compile (hFlags _ (List.getElem_mem hi) s w hKey)
  rw [hLayout.signer_iff i hi, hLayout.writable_iff i hi, ← hSigner, ← hWritable]
  exact ⟨⟨fun ⟨_, h⟩ => (hKey.unique h).1.symm, fun hs => ⟨w, hs ▸ hKey⟩⟩,
    ⟨fun ⟨_, h⟩ => (hKey.unique h).2.symm, fun hw => ⟨s, hw ▸ hKey⟩⟩⟩

end CompiledKeys

namespace V0.Message

open CompiledKeys

/-- The runs of the three steps of `try_compile` that made a message: the loop over the tables
from the map `compile` made, the header regions of what it left, and the indexing of the
instructions' keys through the static and loaded keys. -/
theorem tryCompile_eq_ok_parts {payer : Pubkey} {instructions : List Instruction}
    {tables : List AddressLookupTableAccount} {recentBlockhash : Hash} {m : Message}
    (h : tryCompile payer instructions tables recentBlockhash = .ok m) :
    ∃ (c : CompiledKeys) (loadedList : List LoadedAddresses),
      ExtractInvariant (compile instructions (some payer)) tables
        (c, m.addressTableLookups, loadedList) ∧
      StaticLayout c.keyMetaMap payer m.header m.accountKeys ∧
      (AccountKeys.mk m.accountKeys (some (LoadedAddresses.fromIter loadedList))).iter.length ≤
        256 ∧
      List.Forall₂ (Resolves (AccountKeys.mk m.accountKeys
        (some (LoadedAddresses.fromIter loadedList))).iter) instructions m.instructions := by
  simp only [tryCompile, bind_eq_ok, pure_eq_ok] at h
  obtain ⟨⟨c, lookups, loadedList⟩, hFold, ⟨header, staticKeys⟩, hComponents, compiled,
    hCompiled, rfl⟩ := h
  have hInv := foldlM_extractTableLookup hFold
  -- the payer is a signer, so no table drained it
  have hPayerFlags : HasFlags c.keyMetaMap payer true true := by
    have hNotDrained : payer ∉ (LoadedAddresses.fromIter loadedList).writable ++
        (LoadedAddresses.fromIter loadedList).readonly := by
      intro hMem
      have hFlags := hasFlags_payer_compile instructions payer
      rcases List.mem_append.mp hMem with hMem | hMem
      · obtain ⟨keyMeta, hKeyMeta, hSigner, -⟩ := hInv.writable payer hMem
        obtain ⟨keyMeta', hKeyMeta', hSigner', -⟩ := hFlags
        simp_all
      · obtain ⟨keyMeta, hKeyMeta, hSigner, -⟩ := hInv.readonly payer hMem
        obtain ⟨keyMeta', hKeyMeta', hSigner', -⟩ := hFlags
        simp_all
    exact (hasFlags_of_not_mem hInv.get? hNotDrained).mpr (hasFlags_payer_compile _ _)
  exact ⟨c, loadedList, hInv, staticLayout_of_tryIntoMessageComponents hInv.payer hPayerFlags
    hComponents, AccountKeys.tryCompileInstructions_eq_ok hCompiled⟩

/-- The lookups load, between them, as many writable keys as their writable indexes. -/
theorem sum_writableIndexes_length {tables : List AddressLookupTableAccount}
    {lookups : List MessageAddressTableLookup} {loadedList : List LoadedAddresses}
    (hLoads : List.Forall₂ (fun lookup loaded => ∃ table ∈ tables, LoadsFrom table lookup loaded ∧
      lookup.writableIndexes ++ lookup.readonlyIndexes ≠ []) lookups loadedList) :
    (lookups.map fun lookup => lookup.writableIndexes.length).sum =
      (LoadedAddresses.fromIter loadedList).writable.length := by
  induction hLoads with
  | nil => rfl
  | cons hHead _ ih =>
      obtain ⟨_, -, ⟨-, hWritable, -⟩, -⟩ := hHead
      have hLength := congrArg List.length hWritable
      simp only [List.length_map] at hLength
      simp only [List.map_cons, List.sum_cons, ih, LoadedAddresses.fromIter, List.flatMap_cons,
        List.length_append, hLength]

/-- The lookups load, between them, as many readonly keys as their readonly indexes. -/
theorem sum_readonlyIndexes_length {tables : List AddressLookupTableAccount}
    {lookups : List MessageAddressTableLookup} {loadedList : List LoadedAddresses}
    (hLoads : List.Forall₂ (fun lookup loaded => ∃ table ∈ tables, LoadsFrom table lookup loaded ∧
      lookup.writableIndexes ++ lookup.readonlyIndexes ≠ []) lookups loadedList) :
    (lookups.map fun lookup => lookup.readonlyIndexes.length).sum =
      (LoadedAddresses.fromIter loadedList).readonly.length := by
  induction hLoads with
  | nil => rfl
  | cons hHead _ ih =>
      obtain ⟨_, -, ⟨-, -, hReadonly⟩, -⟩ := hHead
      have hLength := congrArg List.length hReadonly
      simp only [List.length_map] at hLength
      simp only [List.map_cons, List.sum_cons, ih, LoadedAddresses.fromIter, List.flatMap_cons,
        List.length_append, hLength]

/-- No key a table loads is invoked, marked signer, or the payer: each was a loadable key of
the map `compile` made. -/
theorem ExtractInvariant.not_marked {payer : Pubkey} {instructions : List Instruction}
    {tables : List AddressLookupTableAccount}
    {state : CompiledKeys × List MessageAddressTableLookup × List LoadedAddresses}
    (hInv : ExtractInvariant (compile instructions (some payer)) tables state) :
    ∀ key ∈ (LoadedAddresses.fromIter state.2.2).writable ++
        (LoadedAddresses.fromIter state.2.2).readonly,
      ¬Invoked instructions key ∧ ¬MarkedSigner instructions key ∧ key ≠ payer := by
  intro key hKey
  have hLoadable : ∃ w, Loadable (compile instructions (some payer)).keyMetaMap w key := by
    rcases List.mem_append.mp hKey with h | h
    · exact ⟨true, hInv.writable key h⟩
    · exact ⟨false, hInv.readonly key h⟩
  obtain ⟨w, keyMeta, hKeyMeta, hSigner, hInvoked, -⟩ := hLoadable
  obtain ⟨hSignerIff, -, hInvokedIff⟩ := compile_flags hKeyMeta
  simp only [hSigner, hInvoked, Bool.false_eq_true, false_iff, not_or, Option.some.injEq]
    at hSignerIff hInvokedIff
  exact ⟨hInvokedIff, hSignerIff.2, fun hEq => hSignerIff.1 hEq.symm⟩

section Faithful

variable {payer : Pubkey} {instructions : List Instruction}
  {tables : List AddressLookupTableAccount} {m : Message} {c : CompiledKeys}
  {loadedList : List LoadedAddresses}
  (hInv : ExtractInvariant (compile instructions (some payer)) tables
    (c, m.addressTableLookups, loadedList))
  (hLayout : StaticLayout c.keyMetaMap payer m.header m.accountKeys)
include hInv hLayout

/-- A static key was not drained, and keeps the flags `compile` gave it. -/
theorem hasFlags_static {key : Pubkey} (hKey : key ∈ m.accountKeys) {s w : Bool} :
    HasFlags c.keyMetaMap key s w ↔ HasFlags (compile instructions (some payer)).keyMetaMap key s w := by
  refine hasFlags_of_not_mem hInv.get? fun hDrained => ?_
  have hSome := (hLayout.mem_iff key).mp hKey
  rw [hInv.get? key, if_pos hDrained] at hSome
  exact Bool.false_ne_true hSome

/-- The keys `try_compile` resolves indexes through: each once, the payer first, the signers and
the writable keys exactly where the message's header and lookups put them. -/
theorem keysFaithful_of_parts :
    KeysFaithful payer instructions (m.accountKeys ++ (LoadedAddresses.fromIter loadedList).writable ++
      (LoadedAddresses.fromIter loadedList).readonly) m.header
      (fun i => m.isWritableIndex i = true) := by
  set loaded := LoadedAddresses.fromIter loadedList
  have hStaticNotDrained : ∀ key ∈ m.accountKeys, key ∉ loaded.writable ++ loaded.readonly := by
    intro key hKey hDrained
    have hSome := (hLayout.mem_iff key).mp hKey
    rw [hInv.get? key, if_pos hDrained] at hSome
    exact Bool.false_ne_true hSome
  have hKeys : m.accountKeys ++ loaded.writable ++ loaded.readonly =
      m.accountKeys ++ (loaded.writable ++ loaded.readonly) := List.append_assoc _ _ _
  have hNonempty : 0 < m.accountKeys.length := by
    have := hLayout.payer_first
    rw [List.getElem?_eq_some_iff] at this
    exact this.1
  -- the static keys kept the flags `compile` gave them
  have hStaticFlags : ∀ key ∈ m.accountKeys, ∀ s w, HasFlags c.keyMetaMap key s w →
      HasFlags (compile instructions (some payer)).keyMetaMap key s w :=
    fun _ hKey _ _ h => (hasFlags_static hInv hLayout hKey).mp h
  have hLoaded : ∀ key ∈ loaded.writable ++ loaded.readonly,
      ¬(key = payer ∨ MarkedSigner instructions key) ∧
        (key ∈ loaded.writable ↔ key = payer ∨ MarkedWritable instructions key) := by
    intro key hKey
    have hNotBoth : key ∈ loaded.writable → key ∉ loaded.readonly := fun hw hr =>
      List.disjoint_of_nodup_append hInv.nodup hw hr
    rcases List.mem_append.mp hKey with hw | hr
    · have hMarked := hasFlags_compile (hInv.writable key hw).hasFlags
      simp only [Bool.false_eq_true, false_iff, true_iff] at hMarked
      exact ⟨hMarked.1, iff_of_true hw hMarked.2⟩
    · have hMarked := hasFlags_compile (hInv.readonly key hr).hasFlags
      simp only [Bool.false_eq_true, false_iff] at hMarked
      exact ⟨hMarked.1, iff_of_false (fun hw => hNotBoth hw hr) hMarked.2⟩
  have hLoadedAt : ∀ i (hi : i < (m.accountKeys ++ loaded.writable ++ loaded.readonly).length),
      m.accountKeys.length ≤ i →
        (m.accountKeys ++ loaded.writable ++ loaded.readonly)[i] ∈ loaded.writable ++ loaded.readonly := by
    intro i hi hLe
    simp only [hKeys, List.getElem_append_right hLe]
    exact List.getElem_mem _
  refine ⟨?_, ?_, ?_, ?_⟩
  · rw [hKeys]
    refine List.nodup_append.mpr ⟨hLayout.nodup, hInv.nodup, fun a ha b hb hab => ?_⟩
    exact hStaticNotDrained a ha (hab ▸ hb)
  · rw [hKeys, List.getElem?_append_left hNonempty]
    exact hLayout.payer_first
  · intro i hi
    by_cases hStaticIdx : i < m.accountKeys.length
    · simp only [hKeys, List.getElem_append_left hStaticIdx]
      exact (hLayout.iff_marked hStaticFlags hStaticIdx).1
    · have hHeader := hLayout.header_le
      exact iff_of_false (by omega) (hLoaded _ (hLoadedAt i hi (by omega))).1
  · intro i hi
    have hHeader := hLayout.header_le
    by_cases hStaticIdx : i < m.accountKeys.length
    · simp only [hKeys, List.getElem_append_left hStaticIdx]
      exact (isWritableIndex_of_lt hStaticIdx hHeader).trans
        (hLayout.iff_marked hStaticFlags hStaticIdx).2
    · have hLoadedIdx : i - m.accountKeys.length < (loaded.writable ++ loaded.readonly).length := by
        simp only [List.length_append] at hi ⊢
        omega
      have hPosition := Lib.List.getElem_mem_left_iff_of_nodup rfl hInv.nodup hLoadedIdx
      simp only [hKeys, List.getElem_append_right (Nat.le_of_not_lt hStaticIdx)]
      rw [← (hLoaded _ (List.getElem_mem _)).2, hPosition,
        isWritableIndex_of_le (Nat.le_of_not_lt hStaticIdx), sum_writableIndexes_length hInv.loads]

end Faithful

/-- A message `try_compile` made passes `sanitize`, either way it is asked, when the payer is
no instruction's program: the header fits, every lookup loads a key, at most 256 keys are
indexed, and each program is a static key other than the payer. -/
theorem sanitize_of_parts {payer : Pubkey} {instructions : List Instruction}
    {tables : List AddressLookupTableAccount} {m : Message} {c : CompiledKeys}
    {loadedList : List LoadedAddresses}
    (hInv : ExtractInvariant (compile instructions (some payer)) tables
      (c, m.addressTableLookups, loadedList))
    (hLayout : StaticLayout c.keyMetaMap payer m.header m.accountKeys)
    (hLength : (m.accountKeys ++ (LoadedAddresses.fromIter loadedList).writable ++
      (LoadedAddresses.fromIter loadedList).readonly).length ≤ 256)
    (hResolves : List.Forall₂ (Resolves (m.accountKeys ++ (LoadedAddresses.fromIter loadedList).writable ++
      (LoadedAddresses.fromIter loadedList).readonly)) instructions m.instructions)
    (hNotPayer : ∀ ix ∈ instructions, ix.programId ≠ payer) (rejectDynamicProgramIds : Bool) :
    m.sanitize rejectDynamicProgramIds = .ok () := by
  have hLoads : List.Forall₂ _ m.addressTableLookups loadedList := hInv.loads
  obtain ⟨numDynamic, hDynamic⟩ := numDynamicAccountKeys_isOk fun lookup hLookup => by
    obtain ⟨_, -, _, -, -, hNonempty⟩ := Lib.List.forall₂_exists_of_mem_left hLoads hLookup
    exact hNonempty
  have hNumDynamic : numDynamic = (LoadedAddresses.fromIter loadedList).writable.length +
      (LoadedAddresses.fromIter loadedList).readonly.length := by
    rw [numDynamicAccountKeys_eq_ok hDynamic, List.sum_map_add,
      sum_writableIndexes_length hLoads, sum_readonlyIndexes_length hLoads]
    simp only [List.length_append] at hLength
    unfold maxValue
    omega
  set loaded := LoadedAddresses.fromIter loadedList
  set keys := m.accountKeys ++ loaded.writable ++ loaded.readonly with hKeysDef
  have hKeys : keys = m.accountKeys ++ (loaded.writable ++ loaded.readonly) := List.append_assoc _ _ _
  have hNonempty : m.accountKeys ≠ [] := by
    intro hNil
    simpa [hNil] using hLayout.payer_first
  have hTotal : keys.length = m.accountKeys.length + numDynamic := by
    simp [hKeysDef, hNumDynamic]
  refine sanitize_of_checks hDynamic hLayout.header_le hLayout.readonlySigned_lt (by omega)
    fun compiled hCompiled => ?_
  obtain ⟨ix, hix, hResolvesIx⟩ := Lib.List.forall₂_exists_of_mem_right hResolves hCompiled
  have hFirst : keys[0]? = some payer := by
    rw [hKeys, List.getElem?_append_left (List.length_pos_of_ne_nil hNonempty)]
    exact hLayout.payer_first
  obtain ⟨hIndex, hNonzero, hAccounts⟩ := hResolvesIx.indexes_lt hFirst (hNotPayer ix hix)
  -- the program is invoked, so it is no loaded key: its index is a static one
  have hStatic : compiled.programIdIndex.toNat < m.accountKeys.length := by
    by_contra hLoaded
    have hMem : keys[compiled.programIdIndex.toNat] ∈ loaded.writable ++ loaded.readonly := by
      simp only [hKeys, List.getElem_append_right (Nat.le_of_not_lt hLoaded)]
      exact List.getElem_mem _
    have hAt := (List.getElem?_eq_some_iff.mp hResolvesIx.1).2
    exact (hInv.not_marked _ hMem).1 ⟨ix, hix, hAt.symm⟩
  refine ⟨?_, hNonzero, fun a ha => ?_⟩
  · split_ifs <;> omega
  · have := hAccounts a ha
    omega

/-- What a message `try_compile` made says of the instructions it was compiled from, through the
keys its lookups load from the tables: each key once, the payer first, every instruction
resolving to the one it was compiled from, the signers and the writable keys exactly the
payer and the keys the instructions mark, no loaded key invoked or a signer, and, when the
payer is no instruction's program, a message that passes `sanitize`. -/
theorem tryCompile_eq_ok {payer : Pubkey} {instructions : List Instruction}
    {tables : List AddressLookupTableAccount} {recentBlockhash : Hash} {m : Message}
    (h : tryCompile payer instructions tables recentBlockhash = .ok m) :
    ∃ loadedList : List LoadedAddresses,
      List.Forall₂ (fun lookup loaded => ∃ table ∈ tables, LoadsFrom table lookup loaded)
        m.addressTableLookups loadedList ∧
      KeysFaithful payer instructions (m.accountKeys ++ (LoadedAddresses.fromIter loadedList).writable ++
        (LoadedAddresses.fromIter loadedList).readonly) m.header (fun i => m.isWritableIndex i = true) ∧
      List.Forall₂ (Resolves (m.accountKeys ++ (LoadedAddresses.fromIter loadedList).writable ++
        (LoadedAddresses.fromIter loadedList).readonly)) instructions m.instructions ∧
      (∀ key ∈ (LoadedAddresses.fromIter loadedList).writable ++
          (LoadedAddresses.fromIter loadedList).readonly,
        ¬Invoked instructions key ∧ ¬MarkedSigner instructions key) ∧
      ((∀ ix ∈ instructions, ix.programId ≠ payer) →
        ∀ rejectDynamicProgramIds, m.sanitize rejectDynamicProgramIds = .ok ()) := by
  obtain ⟨c, loadedList, hInv, hLayout, hLength, hResolves⟩ := tryCompile_eq_ok_parts h
  rw [AccountKeys.iter_mk_some] at hLength hResolves
  refine ⟨loadedList, hInv.loads.imp fun _ _ ⟨table, hTable, hFrom, _⟩ => ⟨table, hTable, hFrom⟩,
    keysFaithful_of_parts hInv hLayout, hResolves,
    fun key hKey => ⟨(hInv.not_marked key hKey).1, (hInv.not_marked key hKey).2.1⟩,
    fun hNotPayer => sanitize_of_parts hInv hLayout hLength hResolves hNotPayer⟩

end V0.Message

/-! ### Compiling a legacy message -/

namespace Legacy

/-- The writable regions of a legacy message's header: the writable signers, and the unsigned
keys before the readonly ones. The first conjunct of `is_writable`, its `u8` difference taken
in `Nat`, where the two agree on a header with fewer readonly signers than signers. -/
def Message.InWritableRegion (m : Message) (i : Nat) : Prop :=
  i < m.header.numRequiredSignatures.toNat - m.header.numReadonlySignedAccounts.toNat ∨
    m.header.numRequiredSignatures.toNat ≤ i ∧
      i < m.accountKeys.length - m.header.numReadonlyUnsignedAccounts.toNat

/-- Among at most 256 keys, `position` finds a position that holds the key. -/
theorem position_eq_some {keys : List Pubkey} {key : Pubkey} {index : UInt8}
    (h : position keys key = some index) (hLength : keys.length ≤ 256) :
    keys[index.toNat]? = some key := by
  simp only [position, Option.map_eq_some_iff] at h
  obtain ⟨i, hFind, rfl⟩ := h
  obtain ⟨hi, hAt, -⟩ := List.findIdx?_eq_some_iff_getElem.mp hFind
  have hToNat : (UInt8.ofNat i).toNat = i := by
    simp [Nat.mod_eq_of_lt (Nat.lt_of_lt_of_le hi hLength)]
  rw [hToNat, List.getElem?_eq_getElem hi, beq_iff_eq.mp hAt]

theorem compileInstruction_eq_some {ix : Instruction} {keys : List Pubkey}
    {compiled : CompiledInstruction} (h : compileInstruction ix keys = some compiled)
    (hLength : keys.length ≤ 256) : Resolves keys ix compiled := by
  simp only [compileInstruction, Option.bind_eq_bind, Option.bind_eq_some_iff,
    Option.pure_def, Option.some.injEq] at h
  obtain ⟨accounts, hAccounts, programIdIndex, hProgram, rfl⟩ := h
  refine ⟨position_eq_some hProgram hLength, ?_, rfl⟩
  exact Lib.List.map_eq_map_of_forall₂
    ((Lib.List.mapM_eq_some.mp hAccounts).imp fun _ _ h => position_eq_some h hLength)

/-- `new_with_blockhash` returns the message of the compiled keys' components and of the
instructions compiled against its keys. -/
theorem newWithBlockhash_eq_some_iff {instructions : List Instruction} {payer : Option Pubkey}
    {blockhash : Hash} {m : Message} :
    Message.newWithBlockhash instructions payer blockhash = some m ↔
      (CompiledKeys.compile instructions payer).tryIntoMessageComponents =
          .ok (m.header, m.accountKeys) ∧
        compileInstructions instructions m.accountKeys = some m.instructions ∧
        m.recentBlockhash = blockhash := by
  simp only [Message.newWithBlockhash, Option.bind_eq_bind, Option.bind_eq_some_iff,
    Option.pure_def, Option.some.injEq]
  cases hComponents : (CompiledKeys.compile instructions payer).tryIntoMessageComponents with
  | error e => simp [Except.toOption]
  | ok components =>
      obtain ⟨header, keys⟩ := components
      obtain ⟨header', keys', blockhash', compiled'⟩ := m
      simp only [Except.toOption, Option.some.injEq, Except.ok.injEq, Prod.mk.injEq,
        Message.mk.injEq, exists_eq_left']
      constructor
      · rintro ⟨compiled, hCompiled, rfl, rfl, rfl, rfl⟩
        exact ⟨⟨rfl, rfl⟩, hCompiled, rfl⟩
      · rintro ⟨⟨rfl, rfl⟩, hCompiled, rfl⟩
        exact ⟨compiled', hCompiled, rfl, rfl, rfl, rfl⟩

/-- What a message `new_with_blockhash` made says of the instructions it was compiled from:
each key once, the payer first, the signers and the keys of the writable regions exactly the
payer and the keys the instructions mark. On at most 256 keys, also every instruction resolves
to the one it was compiled from, and, when the payer is no instruction's program, the message
passes `sanitize`; past 256, `position`'s cast to `u8` wraps. -/
theorem newWithBlockhash_eq_some {instructions : List Instruction} {payer : Pubkey}
    {blockhash : Hash} {m : Message}
    (h : Message.newWithBlockhash instructions (some payer) blockhash = some m) :
    KeysFaithful payer instructions m.accountKeys m.header m.InWritableRegion ∧
      (m.accountKeys.length ≤ 256 →
        List.Forall₂ (Resolves m.accountKeys) instructions m.instructions ∧
        ((∀ ix ∈ instructions, ix.programId ≠ payer) → m.sanitize = .ok ())) := by
  obtain ⟨hComponents, hCompiled, -⟩ := newWithBlockhash_eq_some_iff.mp h
  have hLayout := CompiledKeys.staticLayout_of_tryIntoMessageComponents rfl
    (CompiledKeys.hasFlags_payer_compile instructions payer) hComponents
  have hMarked := fun i (hi : i < m.accountKeys.length) =>
    hLayout.iff_marked (fun _ _ _ _ hFlags => hFlags) hi
  refine ⟨⟨hLayout.nodup, hLayout.payer_first, fun i hi => (hMarked i hi).1,
    fun i hi => (hMarked i hi).2⟩, fun hLength => ?_⟩
  have hResolves : List.Forall₂ (Resolves m.accountKeys) instructions m.instructions :=
    (Lib.List.mapM_eq_some.mp hCompiled).imp fun _ _ h => compileInstruction_eq_some h hLength
  refine ⟨hResolves, fun hNotPayer => Message.sanitize_of_checks hLayout.header_le
    hLayout.readonlySigned_lt fun compiled hMem => ?_⟩
  obtain ⟨ix, hix, hResolvesIx⟩ := Lib.List.forall₂_exists_of_mem_right hResolves hMem
  exact hResolvesIx.indexes_lt hLayout.payer_first (hNotPayer ix hix)

end Legacy

/-- Compiling a message keeps its instructions and their privileges: a version-0 message is
`V0.Message.tryCompile_eq_ok`, a legacy one `Legacy.newWithBlockhash_eq_some`, whose
resolution and `sanitize` parts hold on at most 256 keys. -/
theorem compiled_message_preserves_instructions (payer : Pubkey) (instructions : List Instruction) :
    (∀ (tables : List AddressLookupTableAccount) (recentBlockhash : Hash) (m : V0.Message),
      V0.Message.tryCompile payer instructions tables recentBlockhash = .ok m →
      ∃ loadedList : List V0.LoadedAddresses,
        List.Forall₂ (fun lookup loaded => ∃ table ∈ tables, CompiledKeys.LoadsFrom table lookup loaded)
          m.addressTableLookups loadedList ∧
        KeysFaithful payer instructions (m.accountKeys ++
          (V0.LoadedAddresses.fromIter loadedList).writable ++
          (V0.LoadedAddresses.fromIter loadedList).readonly) m.header
          (fun i => m.isWritableIndex i = true) ∧
        List.Forall₂ (Resolves (m.accountKeys ++ (V0.LoadedAddresses.fromIter loadedList).writable ++
          (V0.LoadedAddresses.fromIter loadedList).readonly)) instructions m.instructions ∧
        (∀ key ∈ (V0.LoadedAddresses.fromIter loadedList).writable ++
            (V0.LoadedAddresses.fromIter loadedList).readonly,
          ¬Invoked instructions key ∧ ¬MarkedSigner instructions key) ∧
        ((∀ ix ∈ instructions, ix.programId ≠ payer) →
          ∀ rejectDynamicProgramIds, m.sanitize rejectDynamicProgramIds = .ok ())) ∧
    (∀ (blockhash : Hash) (m : Legacy.Message),
      Legacy.Message.newWithBlockhash instructions (some payer) blockhash = some m →
      KeysFaithful payer instructions m.accountKeys m.header m.InWritableRegion ∧
        (m.accountKeys.length ≤ 256 →
          List.Forall₂ (Resolves m.accountKeys) instructions m.instructions ∧
          ((∀ ix ∈ instructions, ix.programId ≠ payer) → m.sanitize = .ok ()))) :=
  ⟨fun _ _ _ h => V0.Message.tryCompile_eq_ok h, fun _ _ h => Legacy.newWithBlockhash_eq_some h⟩

/-- An instruction of a program over a writable and a readonly account, both held by
`lookupTransferTable`. -/
def lookupTransfer : Instruction :=
  ⟨⟨Vector.replicate 32 2⟩,
    [⟨⟨Vector.replicate 32 3⟩, false, true⟩, ⟨⟨Vector.replicate 32 4⟩, false, false⟩], [7]⟩

def lookupTransferTable : AddressLookupTableAccount :=
  ⟨⟨Vector.replicate 32 5⟩, [⟨Vector.replicate 32 3⟩, ⟨Vector.replicate 32 4⟩]⟩

theorem compiled_message_preserves_instructions_lookupTransfer :
    ∃ m : V0.Message, V0.Message.tryCompile ⟨Vector.replicate 32 1⟩ [lookupTransfer]
        [lookupTransferTable] Hash.default = .ok m ∧
      m.addressTableLookups ≠ [] ∧ m.sanitize true = .ok () ∧
    ∃ m : Legacy.Message, Legacy.Message.newWithBlockhash [lookupTransfer]
        (some ⟨Vector.replicate 32 1⟩) Hash.default = some m ∧
      List.Forall₂ (Resolves m.accountKeys) [lookupTransfer] m.instructions ∧
      m.sanitize = .ok () := by
  obtain ⟨hV0, hLegacy⟩ :=
    compiled_message_preserves_instructions ⟨Vector.replicate 32 1⟩ [lookupTransfer]
  have hNotPayer : ∀ ix ∈ [lookupTransfer], ix.programId ≠ ⟨Vector.replicate 32 1⟩ := by
    decide
  have hCompile : V0.Message.tryCompile ⟨Vector.replicate 32 1⟩ [lookupTransfer]
      [lookupTransferTable] Hash.default =
      .ok ⟨⟨1, 0, 1⟩, [⟨Vector.replicate 32 1⟩, ⟨Vector.replicate 32 2⟩], Hash.default,
        [⟨1, [2, 3], [7]⟩], [⟨⟨Vector.replicate 32 5⟩, [0], [1]⟩]⟩ := by
    decide +kernel
  obtain ⟨-, -, -, -, -, hSanitize⟩ := hV0 _ _ _ hCompile
  have hNew : Legacy.Message.newWithBlockhash [lookupTransfer] (some ⟨Vector.replicate 32 1⟩)
      Hash.default =
      some ⟨⟨1, 0, 2⟩, [⟨Vector.replicate 32 1⟩, ⟨Vector.replicate 32 3⟩,
        ⟨Vector.replicate 32 2⟩, ⟨Vector.replicate 32 4⟩], Hash.default, [⟨2, [1, 3], [7]⟩]⟩ := by
    decide +kernel
  obtain ⟨-, hSmall⟩ := hLegacy _ _ hNew
  obtain ⟨hResolves, hLegacySanitize⟩ := hSmall (by decide)
  exact ⟨_, hCompile, List.cons_ne_nil _ _, hSanitize hNotPayer true, _, hNew, hResolves,
    hLegacySanitize hNotPayer⟩

/-- The key of the bytes \x7bj, j, ..\x7d. -/
def wideKey (j : Nat) : Pubkey := ⟨Vector.replicate 32 (UInt8.ofNat j)⟩

/-- An instruction over the 255 writable accounts \x7b0, 0, ..\x7d to \x7b254, 254, ..\x7d, of a
program just below the payer \x7b255, 255, ..\x7d: with the payer, 257 keys, the program last. -/
def wideTransfer : Instruction :=
  ⟨⟨(Vector.replicate 32 255).set 31 254⟩,
    (List.range 255).reverse.map fun j => ⟨wideKey j, false, true⟩, []⟩

set_option maxRecDepth 8000 in
/-- Past 256 keys, a legacy message's program index wraps to the payer's: the instruction no
longer resolves, and the message fails `sanitize` though the payer is no program. -/
theorem newWithBlockhash_wraps_program_index_to_payer :
    ∃ m : Legacy.Message, Legacy.Message.newWithBlockhash [wideTransfer]
        (some ⟨Vector.replicate 32 255⟩) Hash.default = some m ∧
      m.accountKeys.length = 257 ∧ wideTransfer.programId ≠ ⟨Vector.replicate 32 255⟩ ∧
      m.instructions.map (fun ix => ix.programIdIndex) = [0] ∧
      ¬List.Forall₂ (Resolves m.accountKeys) [wideTransfer] m.instructions ∧
      m.sanitize ≠ .ok () := by
  -- the payer, the accounts in order, and the program, the only readonly key
  let keys : List Pubkey :=
    ⟨Vector.replicate 32 255⟩ :: ((List.range 255).map wideKey ++ [wideTransfer.programId])
  have hComponents : (CompiledKeys.compile [wideTransfer]
      (some ⟨Vector.replicate 32 255⟩)).tryIntoMessageComponents = .ok (⟨1, 0, 1⟩, keys) := by
    rfl
  have hProgram : Legacy.position keys wideTransfer.programId = some 0 := by
    decide +kernel
  -- the accounts' positions are not computed: each account is among the keys
  obtain ⟨accounts, hAccounts⟩ : ∃ accounts, wideTransfer.accounts.mapM
      (fun accountMeta => Legacy.position keys accountMeta.pubkey) = some accounts := by
    refine Lib.List.exists_mapM_eq_some fun accountMeta hMem => ?_
    obtain ⟨j, hj, rfl⟩ := List.mem_map.mp hMem
    simp only [Legacy.position, Option.isSome_map, List.findIdx?_isSome, List.any_eq_true,
      beq_iff_eq]
    exact ⟨wideKey j, .tail _ (List.mem_append_left _ (List.mem_map_of_mem (List.mem_reverse.mp hj))),
      rfl⟩
  have hIx : Legacy.compileInstruction wideTransfer keys = some ⟨0, accounts, []⟩ := by
    simp only [Legacy.compileInstruction, hAccounts, hProgram, Option.bind_eq_bind,
      Option.bind_some, Option.pure_def]
    rfl
  have hNew : Legacy.Message.newWithBlockhash [wideTransfer] (some ⟨Vector.replicate 32 255⟩)
      Hash.default = some ⟨⟨1, 0, 1⟩, keys, Hash.default, [⟨0, accounts, []⟩]⟩ :=
    Legacy.newWithBlockhash_eq_some_iff.mpr
      ⟨hComponents, Lib.List.mapM_eq_some.mpr (.cons hIx .nil), rfl⟩
  have hLength : keys.length = 257 := by
    simp only [keys, List.length_cons, List.length_append, List.length_map, List.length_range,
      List.length_nil]
  refine ⟨_, hNew, hLength, by decide, rfl, fun hResolves => ?_, fun hOk => ?_⟩
  · -- position 0 holds the payer, not the program
    have hAt : keys[0]? = some wideTransfer.programId := (List.forall₂_cons.mp hResolves).1.1
    simp only [keys, List.getElem?_cons_zero, Option.some.injEq] at hAt
    exact absurd hAt (by decide)
  · exact ((Legacy.Message.sanitize_eq_ok hOk).2.2 _ List.mem_cons_self).2.1 rfl

end PutValidator
