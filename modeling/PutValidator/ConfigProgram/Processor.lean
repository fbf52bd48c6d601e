import PutValidator.Sdk.BorrowedAccount
import PutValidator.Sdk.VersionedTransaction
import PutValidator.Sdk.Ids
import PutValidator.Perf.Sigverify
import PutValidator.Lib.List

/-! The config program (`programs/config/src/config_processor.rs`). A config account holds a
`ConfigKeys` list of keys, each flagged whether it must sign, followed by the config data. An
update carries a new key list and data; it is accepted when every signer-flagged key of the new
list signed (the config account's own key on the config account's signature, the others at the
instruction-account position of their rank), every such key other than the config account's
is a stored signer once the account holds keys, and the new list has at least as many signers
as the stored one. The check counts signers, so the config account's own key can take the place
of a stored signer. -/
namespace PutValidator

open Lib.Codec Lib.Except

/-- `ConfigKeys`: the keys behind a `short_vec` length, each with its signer flag. -/
def configKeys : Codec (List (Pubkey × Bool)) := shortVec (pair Wire.pubkey Lib.Codec.bool)

/-- `limited_deserialize` with its `PACKET_DATA_SIZE` limit: bincode refuses to read past the
limit, and any failure is `InvalidInstructionData`. -/
def limitedDeserialize {α : Type} (c : Codec α) (data : List UInt8) : Except InstructionError α :=
  match c.decode data with
  | some (a, rest) =>
      if data.length - rest.length ≤ packetDataSize then .ok a else .error .invalidInstructionData
  | none => .error .invalidInstructionData

/-- The keys of a key list flagged as signers, in order. -/
def signerKeys (keys : List (Pubkey × Bool)) : List Pubkey := (keys.filter (·.2)).map (·.1)

/-- The check of the `counter`-th signer entry `signer` of the new key list: the config account's
own key needs the config account's signature; any other key must sign as the instruction account
at position `counter` and, once the account holds keys, be a stored signer. -/
def checkSigner (ic : InstructionContext) (tc : TransactionContext) (configAccountKey : Pubkey)
    (isConfigAccountSigner : Bool) (currentData : List (Pubkey × Bool))
    (currentSignerKeys : List Pubkey) (entry : Pubkey × Nat) : Except InstructionError Unit :=
  let (signer, counter) := entry
  if signer ≠ configAccountKey then do
    let signerAccount ← (ic.tryBorrowInstructionAccount tc counter).mapError
      fun _ => .missingRequiredSignature
    failIf (signerAccount.isSigner = false) .missingRequiredSignature
    failIf (signerAccount.getKey ≠ signer) .missingRequiredSignature
    failIf (currentData ≠ [] ∧ signer ∉ currentSignerKeys) .missingRequiredSignature
  else failIf (isConfigAccountSigner = false) .missingRequiredSignature

/-- The write of the update: the instruction data over the front of the account's data. -/
def writeConfigData (data : List UInt8) : BorrowedAccountM Unit := do
  liftExcept (failIf ((← get).getData.length < data.length) InstructionError.invalidInstructionData)
  let current ← BorrowedAccount.getDataMut
  modify fun b => { b with account := { b.account with data := data ++ current.drop data.length } }

/-- `process_instruction`. -/
def ConfigProgram.processInstruction (tc : TransactionContext) :
    Except InstructionError TransactionContext := do
  let ic ← tc.getCurrentInstructionContext
  let data := ic.instructionData
  let keyList ← limitedDeserialize configKeys data
  let configAccountKey ← tc.getKeyOfAccountAtIndex (← ic.getIndexOfInstructionAccountInTransaction 0)
  let configAccount ← ic.tryBorrowInstructionAccount tc 0
  let isConfigAccountSigner := configAccount.isSigner
  failIf (configAccount.getOwner ≠ configProgramId) .invalidAccountOwner
  let currentData ← okOr ((configKeys.decode configAccount.getData).map (·.1)) .invalidAccountData
  let currentSignerKeys := signerKeys currentData
  failIf (currentSignerKeys = [] ∧ isConfigAccountSigner = false) .missingRequiredSignature
  ((signerKeys keyList).zipIdx 1).forM
    (checkSigner ic tc configAccountKey isConfigAccountSigner currentData currentSignerKeys)
  let counter := (signerKeys keyList).length
  failIf (keyList.dedup.length ≠ keyList.length) .invalidArgument
  failIf (currentSignerKeys.length > counter) .missingRequiredSignature
  let ((), tc) ← ic.withBorrowedInstructionAccount tc 0 (writeConfigData data)
  pure tc

/-! ### What an accepted update checked -/

/-- What an accepted update says of the signatures and of the account it leaves, for the config
account `account` at the instruction account `ia` (its key `configKey` below), the new key list
`keys` and the stored one `stored`. A stored signer may be missing only where a signer entry names
the config account, and then only one. -/
structure AcceptedUpdate (tc : TransactionContext) (ic : InstructionContext)
    (ia : InstructionAccount) (account : AccountSharedData) (keys stored : List (Pubkey × Bool))
    (tc' : TransactionContext) : Prop where
  owned : account.owner = configProgramId
  entry_signed : ∀ r k, (signerKeys keys)[r]? = some k →
    k ≠ (tc.accountKeys[ia.indexInTransaction]?).getD default →
    signedAt tc ic (r + 1) k = true ∧ (stored ≠ [] → k ∈ signerKeys stored)
  config_signed : (tc.accountKeys[ia.indexInTransaction]?).getD default ∈ signerKeys keys ∨
    signerKeys stored = [] → signedAt tc ic 0 ((tc.accountKeys[ia.indexInTransaction]?).getD default) = true
  stored_signed : (tc.accountKeys[ia.indexInTransaction]?).getD default ∉ signerKeys keys →
    ∀ k ∈ signerKeys stored, Signed tc ic k
  one_unsigned : ∀ k₁ ∈ signerKeys stored, ∀ k₂ ∈ signerKeys stored, k₁ ≠ k₂ →
    Signed tc ic k₁ ∨ Signed tc ic k₂
  nodup : keys.Nodup
  fits : ic.instructionData.length ≤ account.data.length
  written : tc' = { tc with accounts := tc.accounts.set ia.indexInTransaction ({ account with
    data := ic.instructionData ++ account.data.drop ic.instructionData.length }) }

section Accepted

variable {tc tc' : TransactionContext} {ic : InstructionContext}

/-- A signer entry that passed its check: a key other than the config account's signed at its
position and, once the account holds keys, is a stored signer; the config account's own key
passed on the config account's signature. -/
theorem checkSigner_eq_ok {configAccountKey signer : Pubkey} {isConfigAccountSigner : Bool}
    {currentData : List (Pubkey × Bool)} {currentSignerKeys : List Pubkey} {counter : Nat}
    (h : checkSigner ic tc configAccountKey isConfigAccountSigner currentData currentSignerKeys
      (signer, counter) = .ok ()) :
    (signer ≠ configAccountKey → signedAt tc ic counter signer = true ∧
      (currentData ≠ [] → signer ∈ currentSignerKeys)) ∧
    (signer = configAccountKey → isConfigAccountSigner = true) := by
  -- the entry is a pair literal, so only the key comparison is left to split on
  dsimp only [checkSigner] at h
  split at h
  · rename_i hNe
    simp only [bind_eq_ok, mapError_eq_ok, failIf_eq_ok] at h
    obtain ⟨b, hBorrow, -, hSigner, -, hKey, hStored⟩ := h
    have hSigned := signedAt_of_borrow hBorrow (by simpa using hSigner)
    rw [not_not.mp hKey] at hSigned
    exact ⟨fun _ => ⟨hSigned, fun hData => by simpa [hData] using hStored⟩, fun hEq => absurd hEq hNe⟩
  · rename_i hEq
    rw [failIf_eq_ok] at h
    exact ⟨fun hNe => absurd (not_not.mp hEq) hNe, fun _ => by simpa using h⟩

/-- What `limited_deserialize` accepted is a decoding of the data. -/
theorem limitedDeserialize_eq_ok {α : Type} {c : Codec α} {data : List UInt8} {a : α}
    (h : limitedDeserialize c data = .ok a) : ∃ rest, c.decode data = some (a, rest) := by
  unfold limitedDeserialize at h
  split at h
  · rename_i a' rest hDecode
    split at h
    · cases h
      exact ⟨rest, hDecode⟩
    · cases h
  · cases h

/-- The write of an update that returned: the data fit the account, and the account holds it
over the front of its old data. -/
theorem writeConfigData_eq_ok {data : List UInt8} {b b' : BorrowedAccount} {u : Unit}
    (h : (writeConfigData data).run b = .ok u b') :
    data.length ≤ b.account.data.length ∧
      b' = { b with account := { b.account with data := data ++ b.account.data.drop data.length } } := by
  simp only [writeConfigData, Lib.EState.run_bind_eq_ok, EStateM.run_get, Lib.EState.run_liftExcept_eq_ok,
    failIf_eq_ok, EStateM.Result.ok.injEq] at h
  obtain ⟨_, _, ⟨rfl, rfl⟩, _, _, ⟨hFits, rfl⟩, data', b₁, hData, h⟩ := h
  obtain ⟨rfl, rfl⟩ := BorrowedAccount.getDataMut_eq_ok hData
  simp only [EStateM.run_modify, EStateM.Result.ok.injEq] at h
  obtain ⟨-, rfl⟩ := h
  exact ⟨Nat.le_of_not_lt hFits, rfl⟩

/-- An accepted update, read off `process_instruction` with the frame, the config account and both
key lists named: the owner check, the check of the config account's signature for an empty stored
list, every signer entry's check, the duplicate and count checks, and the write. -/
theorem ConfigProgram.processInstruction_eq_ok {ia : InstructionAccount} {account : AccountSharedData}
    {keys stored : List (Pubkey × Bool)} {rest storedRest : List UInt8}
    (hIc : tc.instructionStack.getLast? = some ic) (hConfig : ic.instructionAccounts[0]? = some ia)
    (hAccount : tc.accounts[ia.indexInTransaction]? = some account)
    (hKeys : configKeys.decode ic.instructionData = some (keys, rest))
    (hStored : configKeys.decode account.data = some (stored, storedRest))
    (hOk : ConfigProgram.processInstruction tc = .ok tc') :
    account.owner = configProgramId ∧ ¬(signerKeys stored = [] ∧ ia.isSigner = false) ∧
      (∀ e ∈ (signerKeys keys).zipIdx 1, checkSigner ic tc
        ((tc.accountKeys[ia.indexInTransaction]?).getD default) ia.isSigner stored
        (signerKeys stored) e = .ok ()) ∧
      keys.dedup.length = keys.length ∧ (signerKeys stored).length ≤ (signerKeys keys).length ∧
      ic.instructionData.length ≤ account.data.length ∧
      tc' = { tc with accounts := tc.accounts.set ia.indexInTransaction ({ account with
        data := ic.instructionData ++ account.data.drop ic.instructionData.length }) } := by
  unfold ConfigProgram.processInstruction at hOk
  simp only [bind_eq_ok] at hOk
  -- the frame, the new key list and the config account the program read are the ones named
  obtain ⟨ic', hIc', keyList, hKeyList, configIndex, hIndex, configKey, hKey, configAccount,
    hBorrow, hOk⟩ := hOk
  obtain rfl : ic = ic' :=
    Option.some.inj (hIc.symm.trans (TransactionContext.getCurrentInstructionContext_eq_ok.mp hIc'))
  obtain ⟨rest', hKeys'⟩ := limitedDeserialize_eq_ok hKeyList
  obtain rfl : keys = keyList := (Prod.mk.inj (Option.some.inj (hKeys.symm.trans hKeys'))).1
  obtain ⟨ia', hia', hAccount', hb⟩ := tryBorrowInstructionAccount_eq_ok hBorrow
  obtain rfl : ia = ia' := Option.some.inj (hConfig.symm.trans hia')
  obtain rfl : configAccount.account = account := Option.some.inj (hAccount'.symm.trans hAccount)
  have hIsSigner : configAccount.isSigner = ia.isSigner := by
    obtain ⟨ia'', hia'', -, hIsSigner, -⟩ := InstructionContext.tryBorrowInstructionAccount_eq_ok hBorrow
    rwa [Option.some.inj (hConfig.symm.trans hia'')]
  have hConfigKey : configKey = (tc.accountKeys[ia.indexInTransaction]?).getD default := by
    simp only [InstructionContext.getIndexOfInstructionAccountInTransaction, hConfig, okOr_some,
      map_eq_ok, Except.ok.injEq] at hIndex
    obtain ⟨_, rfl, rfl⟩ := hIndex
    simp [okOr_eq_ok.mp hKey]
  subst hConfigKey
  -- the checks, in the order the program makes them
  obtain ⟨_, hOwner, currentData, hCurrent, _, hEmpty, _, hLoop, _, hDup, _, hCount, ⟨⟨⟩, tcw⟩,
    hWrite, hPure⟩ := hOk
  obtain rfl : currentData = stored := by
    simpa [BorrowedAccount.getData, hStored] using hCurrent.symm
  obtain rfl : tcw = tc' := pure_eq_ok.mp hPure
  obtain ⟨b, b', hBorrow', hRun, rfl⟩ := InstructionContext.withBorrowedInstructionAccount_eq_ok hWrite
  obtain rfl : configAccount = b := Except.ok.inj (hBorrow.symm.trans hBorrow')
  obtain ⟨hFits, rfl⟩ := writeConfigData_eq_ok hRun
  rw [← hIsSigner]
  refine ⟨by simpa [BorrowedAccount.getOwner] using failIf_eq_ok.mp hOwner, failIf_eq_ok.mp hEmpty,
    forM_eq_ok.mp hLoop, by simpa using failIf_eq_ok.mp hDup, by simpa using failIf_eq_ok.mp hCount,
    hFits, ?_⟩
  rw [hb]

/-- The signer entries of a list without duplicates are distinct keys. -/
theorem signerKeys_nodup {keys : List (Pubkey × Bool)} (h : keys.Nodup) : (signerKeys keys).Nodup := by
  refine (h.filter _).map_on fun x hx y hy hxy => Prod.ext hxy ?_
  rw [(List.mem_filter.mp hx).2, (List.mem_filter.mp hy).2]

/-- The count behind the signer check. Signer entries `entries` without duplicates, each of them
other than `c` a signed stored signer, and at least as many as the stored signers `stored`: then
stored signers that did not sign number at most the entries naming `c`. -/
theorem length_unsigned_add_length_erase_le {entries stored unsigned : List Pubkey}
    {signed : Pubkey → Prop} {c : Pubkey} (hEntries : entries.Nodup)
    (hCount : stored.length ≤ entries.length)
    (hSigned : ∀ e ∈ entries, e ≠ c → signed e ∧ e ∈ stored) (hUnsigned : unsigned.Nodup)
    (hStored : ∀ x ∈ unsigned, x ∈ stored ∧ ¬signed x) :
    unsigned.length + (entries.erase c).length ≤ entries.length := by
  have hErase : ∀ e ∈ entries.erase c, signed e ∧ e ∈ stored := fun e he =>
    hSigned e ((hEntries.mem_erase_iff.mp he).2) (hEntries.mem_erase_iff.mp he).1
  have hLe := Lib.List.length_add_length_le_length_dedup (hEntries.erase c) hUnsigned
    (fun x hx hxUnsigned => (hStored x hxUnsigned).2 (hErase x hx).1)
    (fun x hx => (hErase x hx).2) (fun x hx => (hStored x hx).1)
  have hDedup : stored.dedup.length ≤ stored.length := (List.dedup_sublist stored).length_le
  omega

/-- An accepted update to a config account: the checks of `process_instruction`, and what they
give of the stored signers by counting. -/
theorem accepted_config_update_signers {ia : InstructionAccount} {account : AccountSharedData}
    {keys stored : List (Pubkey × Bool)} {rest storedRest : List UInt8}
    (hIc : tc.instructionStack.getLast? = some ic) (hConfig : ic.instructionAccounts[0]? = some ia)
    (hAccount : tc.accounts[ia.indexInTransaction]? = some account)
    (hKeys : configKeys.decode ic.instructionData = some (keys, rest))
    (hStored : configKeys.decode account.data = some (stored, storedRest))
    (hOk : ConfigProgram.processInstruction tc = .ok tc') :
    AcceptedUpdate tc ic ia account keys stored tc' := by
  obtain ⟨hOwner, hEmpty, hLoop, hDup, hCount, hFits, hWritten⟩ :=
    ConfigProgram.processInstruction_eq_ok hIc hConfig hAccount hKeys hStored hOk
  set configKey := (tc.accountKeys[ia.indexInTransaction]?).getD default
  have hNodup : keys.Nodup := (List.dedup_sublist keys).eq_of_length hDup ▸ List.nodup_dedup keys
  have hEntry : ∀ r k, (signerKeys keys)[r]? = some k → checkSigner ic tc configKey ia.isSigner
      stored (signerKeys stored) (k, r + 1) = .ok () := fun r k hk =>
    hLoop _ (List.mk_mem_zipIdx_iff_le_and_getElem?_sub.mpr ⟨by omega, by simpa using hk⟩)
  have hConfigSigned : ia.isSigner = true → signedAt tc ic 0 configKey = true := fun h => by
    simp [signedAt, hConfig, h, configKey]
  -- once the account holds keys, every signer entry other than the config account's is a signed
  -- stored signer
  have hSigned : stored ≠ [] → ∀ e ∈ signerKeys keys, e ≠ configKey →
      Signed tc ic e ∧ e ∈ signerKeys stored := by
    intro hStored e he hNe
    obtain ⟨r, hr⟩ := List.mem_iff_getElem?.mp he
    obtain ⟨hAt, hMem⟩ := (checkSigner_eq_ok (hEntry r e hr)).1 hNe
    exact ⟨⟨r + 1, hAt⟩, hMem hStored⟩
  have hNonempty : ∀ k ∈ signerKeys stored, stored ≠ [] := by
    rintro k hk rfl
    simp [signerKeys] at hk
  refine ⟨hOwner, fun r k hk hNe => (checkSigner_eq_ok (hEntry r k hk)).1 hNe, ?_, ?_, ?_, hNodup,
    hFits, hWritten⟩
  · rintro (hMem | hNil)
    · obtain ⟨r, hr⟩ := List.mem_iff_getElem?.mp hMem
      exact hConfigSigned ((checkSigner_eq_ok (hEntry r _ hr)).2 rfl)
    · exact hConfigSigned (by simpa [hNil] using hEmpty)
  · -- with no entry naming the config account, no stored signer can be missing
    intro hNotMem k hk
    by_contra hUnsigned
    have hOne : [k].Nodup := List.nodup_singleton k
    have hLe := length_unsigned_add_length_erase_le (signerKeys_nodup hNodup) hCount
      (hSigned (hNonempty k hk)) hOne (by simpa using ⟨hk, hUnsigned⟩)
    rw [List.erase_of_not_mem hNotMem, List.length_singleton] at hLe
    omega
  · -- an entry naming the config account makes room for one missing stored signer, not two
    intro k₁ hk₁ k₂ hk₂ hNe
    by_contra hBoth
    rw [not_or] at hBoth
    have hTwo : [k₁, k₂].Nodup := by simpa using hNe
    have hLe := length_unsigned_add_length_erase_le (signerKeys_nodup hNodup) hCount
      (hSigned (hNonempty k₁ hk₁)) hTwo (by simp [hk₁, hk₂, hBoth])
    have hErase := List.length_erase (a := configKey) (l := signerKeys keys)
    simp only [List.length_cons, List.length_nil] at hLe
    split_ifs at hErase <;> omega

end Accepted

/-! ### A stored signer replaced by the config account's key

The config account's key `replacingConfigKey`, stored signers `storedSigner₁` and `storedSigner₂`,
and an update whose new key list names `storedSigner₁` and the config account as signers. The
config account and `storedSigner₁` sign; `storedSigner₂` signs nothing. -/

def replacingConfigKey : Pubkey := ⟨Vector.replicate 32 1⟩

def storedSigner₁ : Pubkey := ⟨Vector.replicate 32 2⟩

def storedSigner₂ : Pubkey := ⟨Vector.replicate 32 3⟩

def replacingConfigAccount : AccountSharedData :=
  ⟨1, configKeys.encode [(storedSigner₁, true), (storedSigner₂, true)], configProgramId, false, 0⟩

def replacingFrame : InstructionContext :=
  ⟨0, 0, [], [⟨0, 0, 0, true, true⟩, ⟨1, 1, 1, true, false⟩],
    configKeys.encode [(storedSigner₁, true), (replacingConfigKey, true)]⟩

def replacingUpdate : TransactionContext :=
  ⟨[replacingConfigKey, storedSigner₁], [replacingConfigAccount, ⟨1, [], configProgramId, false, 0⟩],
    64, 64, [replacingFrame], 1, 0, none, false⟩

/-- The update as the program leaves it: the new key list over the old one. -/
def replacedUpdate : TransactionContext :=
  { replacingUpdate with accounts := replacingUpdate.accounts.set 0 ({ replacingConfigAccount with
      data := replacingFrame.instructionData ++
        replacingConfigAccount.data.drop replacingFrame.instructionData.length }) }

theorem accepted_config_update_signers_replacing :
    ConfigProgram.processInstruction replacingUpdate = .ok replacedUpdate ∧
      AcceptedUpdate replacingUpdate replacingFrame ⟨0, 0, 0, true, true⟩ replacingConfigAccount
        [(storedSigner₁, true), (replacingConfigKey, true)]
        [(storedSigner₁, true), (storedSigner₂, true)] replacedUpdate := by
  have hKeys : configKeys.decode replacingFrame.instructionData =
      some ([(storedSigner₁, true), (replacingConfigKey, true)], []) := by decide
  have hStored : configKeys.decode replacingConfigAccount.data =
      some ([(storedSigner₁, true), (storedSigner₂, true)], []) := by decide
  exact ⟨rfl, accepted_config_update_signers rfl rfl rfl hKeys hStored rfl⟩

/-- The update is accepted, the stored key list flags `storedSigner₂` as a signer, and
`storedSigner₂` did not sign. -/
theorem config_key_replaces_stored_signer :
    (ConfigProgram.processInstruction replacingUpdate).toBool = true ∧
      configKeys.decode replacingConfigAccount.data =
        some ([(storedSigner₁, true), (storedSigner₂, true)], []) ∧
      ¬Signed replacingUpdate replacingFrame storedSigner₂ := by
  refine ⟨by decide, by decide, ?_⟩
  rintro ⟨i, hi⟩
  obtain ⟨ia, hia, -, hKey⟩ := signedAt_eq_true.mp hi
  have hOthers : ∀ ia ∈ replacingFrame.instructionAccounts,
      (replacingUpdate.accountKeys[ia.indexInTransaction]?).getD default ≠ storedSigner₂ := by
    decide
  exact hOthers ia (List.mem_of_getElem? hia) hKey


end PutValidator
