import PutValidator.SystemProgram.Processor
import PutValidator.Lib.List

/-! What each handler of the system program leaves behind when it returns: one lemma per
handler, stated on the account it borrowed, with every check it passed, and the frame lemmas
that carry a borrow's writes back to the transaction. A nonce account is read through
`nonceVersionsOf`, the decoding `get_state` makes of its data. -/
namespace PutValidator

open Lib.EState BorrowedAccount

/-- The nonce versions an account's data holds, as `get_state` reads them; `none` when the data
does not decode. -/
def nonceVersionsOf (account : AccountSharedData) : Option Nonce.Versions :=
  (Wire.nonceVersions.decode account.data).map (·.1)

/-- The account after `set_state` of `versions`: the encoding overwrites the front of the
data. -/
def AccountSharedData.withNonceVersions (account : AccountSharedData)
    (versions : Nonce.Versions) : AccountSharedData :=
  { account with data := Wire.nonceVersions.encode versions ++
      account.data.drop (Wire.nonceVersions.encode versions).length }

/-- `set_state` of `versions` took the account from `a` to `a'`: the encoding fit in the data. -/
def WritesNonce (versions : Nonce.Versions) (a a' : AccountSharedData) : Prop :=
  (Wire.nonceVersions.encode versions).length ≤ a.data.length ∧ a' = a.withNonceVersions versions

namespace AccountSharedData

variable {a a' : AccountSharedData} {versions : Nonce.Versions}

@[simp] theorem withNonceVersions_lamports : (a.withNonceVersions versions).lamports = a.lamports :=
  rfl

@[simp] theorem withNonceVersions_owner : (a.withNonceVersions versions).owner = a.owner := rfl

theorem nonceVersionsOf_withNonceVersions (h : versions.state.FeeFits) :
    nonceVersionsOf (a.withNonceVersions versions) = some versions := by
  simp [nonceVersionsOf, withNonceVersions,
    Wire.nonceVersions.decode_encode _ _ (Wire.nonceVersions_canonical.mpr h)]

/-- A balance change leaves the data, and so the nonce, as it was. -/
@[simp] theorem nonceVersionsOf_lamports (lamports : Nat) :
    nonceVersionsOf { a with lamports } = nonceVersionsOf a :=
  rfl

theorem feeFits_of_nonceVersionsOf (h : nonceVersionsOf a = some versions) :
    versions.state.FeeFits := by
  simp only [nonceVersionsOf, Option.map_eq_some_iff] at h
  obtain ⟨⟨_, _⟩, hDecode, rfl⟩ := h
  exact Wire.nonceVersions_canonical.mp (Wire.nonceVersions.decode_sound hDecode).1

/-- Empty data holds no nonce: the enum's index needs four bytes. -/
theorem nonceVersionsOf_eq_none_of_data (h : a.data = []) : nonceVersionsOf a = none := by
  simp [nonceVersionsOf, h, Wire.nonceVersions, Lib.Codec.map, Lib.Codec.sum, Lib.Codec.uintLE,
    Lib.Codec.decodeLE]

end AccountSharedData

namespace WritesNonce

variable {a a' : AccountSharedData} {versions : Nonce.Versions}

theorem length_eq (h : WritesNonce versions a a') : a'.data.length = a.data.length := by
  obtain ⟨hFits, rfl⟩ := h
  simp only [AccountSharedData.withNonceVersions, List.length_append, List.length_drop]
  omega

theorem lamports_eq (h : WritesNonce versions a a') : a'.lamports = a.lamports := by
  rw [h.2, AccountSharedData.withNonceVersions_lamports]

theorem nonceVersionsOf_eq (h : WritesNonce versions a a') (hFits : versions.state.FeeFits) :
    nonceVersionsOf a' = some versions := by
  rw [h.2, AccountSharedData.nonceVersionsOf_withNonceVersions hFits]

end WritesNonce

theorem getState_nonceVersions_eq_ok {b : BorrowedAccount} {versions : Nonce.Versions} :
    b.getState Wire.nonceVersions = .ok versions ↔ nonceVersionsOf b.account = some versions := by
  simp [BorrowedAccount.getState, nonceVersionsOf]

/-! ### Addresses and signers -/

section Addresses

variable (sha256 : List UInt8 → Hash)

/-- The key signs through `signers`: it is one of them or, with a seed, the address the seed
derives from a base that is. This is what `Address::is_signer` of the address `Address::create`
made of the key tells. -/
def AddressSigned (signers : List Pubkey) (key : Pubkey) :
    Option (Pubkey × List UInt8 × Pubkey) → Prop
  | some (base, seed, owner) => base ∈ signers ∧ Pubkey.createWithSeed sha256 base seed owner = .ok key
  | none => key ∈ signers

variable {sha256} {tc : TransactionContext} {ic : InstructionContext}

theorem Address.addressSigned_of_create {key : Pubkey}
    {withSeed : Option (Pubkey × List UInt8 × Pubkey)} {address : Address} {signers : List Pubkey}
    (h : Address.create sha256 key withSeed = .ok address) (hSigned : address.isSigner signers = true) :
    AddressSigned sha256 signers key withSeed := by
  rcases withSeed with _ | ⟨base, seed, owner⟩
  · simp only [Address.create, Lib.Except.bind_eq_ok, Lib.Except.pure_eq_ok] at h
    obtain ⟨_, rfl, rfl⟩ := h
    simpa [Address.isSigner, AddressSigned] using hSigned
  · simp only [Address.create, Lib.Except.bind_eq_ok, Lib.Except.pure_eq_ok,
      Lib.Except.mapError_eq_ok, Lib.Except.failIf_eq_ok, not_not] at h
    obtain ⟨derived, hDerived, -, rfl, _, rfl, rfl⟩ := h
    exact ⟨by simpa [Address.isSigner] using hSigned, hDerived⟩

theorem instructionAccountKey_eq_ok {i : Nat} {key : Pubkey}
    (h : instructionAccountKey tc ic i = .ok key) :
    ∃ ia, ic.instructionAccounts[i]? = some ia ∧ tc.accountKeys[ia.indexInTransaction]? = some key := by
  simp only [instructionAccountKey, InstructionContext.getIndexOfInstructionAccountInTransaction,
    TransactionContext.getKeyOfAccountAtIndex, Lib.Except.bind_eq_ok, Lib.Except.map_eq_ok,
    Lib.Except.okOr_eq_ok] at h
  obtain ⟨_, ⟨ia, hIa, rfl⟩, hKey⟩ := h
  exact ⟨ia, hIa, hKey⟩

/-- The key of a signer instruction account is among the frame's signers. -/
theorem mem_of_getSigners {signers : List Pubkey} (h : ic.getSigners tc = .ok signers) {i : Nat}
    {ia : InstructionAccount} {key : Pubkey} (hIa : ic.instructionAccounts[i]? = some ia)
    (hSigner : ia.isSigner = true) (hKey : tc.accountKeys[ia.indexInTransaction]? = some key) :
    key ∈ signers := by
  have hMem : ia ∈ ic.instructionAccounts.filter (·.isSigner) :=
    List.mem_filter.mpr ⟨List.mem_of_getElem? hIa, hSigner⟩
  obtain ⟨key', hMem', hKey'⟩ :=
    Lib.List.forall₂_exists_of_mem_left (Lib.Except.mapM_eq_ok.mp h) hMem
  simp only [TransactionContext.getKeyOfAccountAtIndex, Lib.Except.okOr_eq_ok, hKey,
    Option.some.injEq] at hKey'
  exact hKey' ▸ hMem'

end Addresses

/-! ### The handlers on the borrowed account -/

section Borrowed

variable {sha256 : List UInt8 → Hash} {b b' : BorrowedAccount} {u : Unit}
  {signers : List Pubkey} {invokeContext : SystemInvokeContext} {rent : Rent}

theorem setNonceState_eq_ok {versions : Nonce.Versions}
    (h : (setNonceState versions).run b = .ok u b') : WritesNonce versions b.account b'.account :=
  setState_eq_ok h

theorem advanceNonceAccount_eq_ok
    (h : (advanceNonceAccount sha256 signers invokeContext).run b = .ok u b') :
    b.isWritable = true ∧ ∃ versions data, nonceVersionsOf b.account = some versions ∧
      versions.state = .initialized data ∧ data.authority ∈ signers ∧
      data.durableNonce ≠ DurableNonce.fromBlockhash sha256 invokeContext.blockhash ∧
      WritesNonce (.new (.initialized ⟨data.authority,
        DurableNonce.fromBlockhash sha256 invokeContext.blockhash,
        invokeContext.lamportsPerSignature⟩)) b.account b'.account := by
  simp only [advanceNonceAccount, run_bind_eq_ok, EStateM.run_get, EStateM.Result.ok.injEq,
    run_failIf_eq_ok, run_liftExcept_eq_ok, getState_nonceVersions_eq_ok] at h
  obtain ⟨_, _, ⟨rfl, rfl⟩, _, _, ⟨hWritable, rfl⟩, versions, _, ⟨hVersions, rfl⟩, h⟩ := h
  refine ⟨by simpa using hWritable, versions, ?_⟩
  split at h
  · rename_i data hState
    simp only [run_bind_eq_ok, run_failIf_eq_ok] at h
    obtain ⟨_, _, ⟨hSigned, rfl⟩, _, _, ⟨hFresh, rfl⟩, h⟩ := h
    exact ⟨data, hVersions, hState, not_not.mp hSigned, hFresh, setNonceState_eq_ok h⟩
  · exact absurd h run_throw_ne_ok

theorem initializeNonceAccount_eq_ok {nonceAuthority : Pubkey}
    (h : (initializeNonceAccount sha256 nonceAuthority rent invokeContext).run b = .ok u b') :
    b.isWritable = true ∧ ∃ versions, nonceVersionsOf b.account = some versions ∧
      versions.state = .uninitialized ∧
      rent.minimumBalance b.account.data.length ≤ b.account.lamports ∧
      WritesNonce (.new (.initialized ⟨nonceAuthority,
        DurableNonce.fromBlockhash sha256 invokeContext.blockhash,
        invokeContext.lamportsPerSignature⟩)) b.account b'.account := by
  simp only [initializeNonceAccount, run_bind_eq_ok, EStateM.run_get, EStateM.Result.ok.injEq,
    run_failIf_eq_ok, run_liftExcept_eq_ok, getState_nonceVersions_eq_ok] at h
  obtain ⟨_, _, ⟨rfl, rfl⟩, _, _, ⟨hWritable, rfl⟩, versions, _, ⟨hVersions, rfl⟩, h⟩ := h
  refine ⟨by simpa using hWritable, versions, hVersions, ?_⟩
  split at h
  · rename_i hState
    simp only [run_bind_eq_ok, run_failIf_eq_ok] at h
    obtain ⟨_, _, ⟨hFunded, rfl⟩, h⟩ := h
    exact ⟨hState, Nat.le_of_not_lt hFunded, setNonceState_eq_ok h⟩
  · exact absurd h run_throw_ne_ok

theorem authorizeNonceAccount_eq_ok {nonceAuthority : Pubkey}
    (h : (authorizeNonceAccount nonceAuthority signers).run b = .ok u b') :
    b.isWritable = true ∧ ∃ versions authorized, nonceVersionsOf b.account = some versions ∧
      versions.authorize signers nonceAuthority = .ok authorized ∧
      WritesNonce authorized b.account b'.account := by
  simp only [authorizeNonceAccount, run_bind_eq_ok, EStateM.run_get, EStateM.Result.ok.injEq,
    run_failIf_eq_ok, run_liftExcept_eq_ok, getState_nonceVersions_eq_ok] at h
  obtain ⟨_, _, ⟨rfl, rfl⟩, _, _, ⟨hWritable, rfl⟩, versions, _, ⟨hVersions, rfl⟩, h⟩ := h
  refine ⟨by simpa using hWritable, versions, ?_⟩
  split at h
  · rename_i authorized hAuthorized
    exact ⟨authorized, hVersions, hAuthorized, setNonceState_eq_ok h⟩
  · exact absurd h run_throw_ne_ok
  · exact absurd h run_throw_ne_ok

theorem upgradeNonceAccount_eq_ok (h : (upgradeNonceAccount sha256).run b = .ok u b') :
    b.account.owner = systemProgramId ∧ b.isWritable = true ∧
      ∃ versions upgraded, nonceVersionsOf b.account = some versions ∧
        versions.upgrade sha256 = some upgraded ∧ WritesNonce upgraded b.account b'.account := by
  simp only [upgradeNonceAccount, run_bind_eq_ok, EStateM.run_get, EStateM.Result.ok.injEq,
    run_failIf_eq_ok, run_liftExcept_eq_ok, getState_nonceVersions_eq_ok] at h
  obtain ⟨_, _, ⟨rfl, rfl⟩, _, _, ⟨hOwner, rfl⟩, _, _, ⟨hWritable, rfl⟩, versions, _,
    ⟨hVersions, rfl⟩, h⟩ := h
  refine ⟨by simpa using hOwner, by simpa using hWritable, versions, ?_⟩
  split at h
  · exact absurd h run_throw_ne_ok
  · rename_i upgraded hUpgraded
    exact ⟨upgraded, hVersions, hUpgraded, setNonceState_eq_ok h⟩

/-- The debit of `withdraw_nonce_account`, by the state of the nonce: an uninitialized account
signs for itself; an initialized one is emptied only when its nonce is not the current
blockhash's, and otherwise keeps its rent-exempt minimum. -/
theorem withdrawNonceAccountFrom_eq_ok {lamports : Nat}
    (h : (withdrawNonceAccountFrom sha256 lamports rent signers invokeContext).run b = .ok u b') :
    b.isWritable = true ∧ ∃ versions, nonceVersionsOf b.account = some versions ∧
      ((versions.state = .uninitialized ∧ lamports ≤ b.account.lamports ∧ b.getKey ∈ signers ∧
          b'.account = { b.account with lamports := b.account.lamports - lamports }) ∨
        ∃ data, versions.state = .initialized data ∧ data.authority ∈ signers ∧
          ((lamports = b.account.lamports ∧
              data.durableNonce ≠ DurableNonce.fromBlockhash sha256 invokeContext.blockhash ∧
              ∃ a₁, WritesNonce (.new .uninitialized) b.account a₁ ∧
                b'.account = { a₁ with lamports := 0 }) ∨
            (lamports ≠ b.account.lamports ∧
              lamports + rent.minimumBalance b.account.data.length ≤ b.account.lamports ∧
              b'.account = { b.account with lamports := b.account.lamports - lamports }))) := by
  simp only [withdrawNonceAccountFrom, run_bind_eq_ok, EStateM.run_get, EStateM.Result.ok.injEq,
    run_failIf_eq_ok, run_liftExcept_eq_ok, getState_nonceVersions_eq_ok] at h
  obtain ⟨_, _, ⟨rfl, rfl⟩, _, _, ⟨hWritable, rfl⟩, versions, _, ⟨hVersions, rfl⟩, h⟩ := h
  refine ⟨by simpa using hWritable, versions, hVersions, ?_⟩
  split at h
  · -- an uninitialized account pays from its own key
    rename_i hState
    simp only [run_bind_eq_ok, run_failIf_eq_ok, pure_bind] at h
    obtain ⟨_, _, ⟨hCovered, rfl⟩, _, _, ⟨hSigned, rfl⟩, h⟩ := h
    exact .inl ⟨hState, Nat.le_of_not_lt hCovered, not_not.mp hSigned,
      (checkedSubLamports_eq_ok h).2⟩
  · rename_i data hState
    refine .inr ⟨data, hState, ?_⟩
    split at h
    · -- withdrawing everything closes the nonce
      rename_i hAll
      simp only [run_bind_eq_ok, run_failIf_eq_ok, pure_bind] at h
      obtain ⟨_, _, ⟨hFresh, rfl⟩, _, b₁, hWrite, _, _, ⟨hSigned, rfl⟩, h⟩ := h
      have hWrites := setNonceState_eq_ok hWrite
      refine ⟨not_not.mp hSigned, .inl ⟨hAll, hFresh, _, hWrites, ?_⟩⟩
      rw [(checkedSubLamports_eq_ok h).2, hWrites.lamports_eq, hAll, getLamports_eq, Nat.sub_self]
    · rename_i hPartial
      simp only [run_bind_eq_ok, run_liftExcept_eq_ok, run_failIf_eq_ok, pure_bind,
        Lib.Except.okOr_eq_ok, Lib.Word.checkedAdd_eq_some] at h
      obtain ⟨_, _, ⟨⟨-, rfl⟩, rfl⟩, _, _, ⟨hFunded, rfl⟩, _, _, ⟨hSigned, rfl⟩, h⟩ := h
      exact ⟨not_not.mp hSigned, .inr ⟨hPartial, Nat.le_of_not_lt hFunded,
        (checkedSubLamports_eq_ok h).2⟩⟩

theorem transferVerifiedFrom_eq_ok {lamports : Nat}
    (h : (transferVerifiedFrom lamports).run b = .ok u b') :
    b.account.data = [] ∧ lamports ≤ b.account.lamports ∧
      b'.account = { b.account with lamports := b.account.lamports - lamports } := by
  simp only [transferVerifiedFrom, run_bind_eq_ok, EStateM.run_get, EStateM.Result.ok.injEq,
    run_failIf_eq_ok] at h
  obtain ⟨_, _, ⟨rfl, rfl⟩, _, _, ⟨hEmpty, rfl⟩, _, _, ⟨-, rfl⟩, h⟩ := h
  obtain ⟨hCovered, hDebit⟩ := checkedSubLamports_eq_ok h
  exact ⟨by simpa using hEmpty, hCovered, hDebit⟩

theorem allocate_eq_ok {address : Address} {space : Nat}
    (h : (allocate address space signers).run b = .ok u b') :
    address.isSigner signers = true ∧ b.account.data = [] ∧ b.account.owner = systemProgramId ∧
      space ≤ maxPermittedDataLength ∧ b'.account = { b.account with data := List.replicate space 0 } := by
  simp only [allocate, run_bind_eq_ok, EStateM.run_get, EStateM.Result.ok.injEq,
    run_failIf_eq_ok] at h
  obtain ⟨_, _, ⟨hSigned, rfl⟩, _, _, ⟨rfl, rfl⟩, _, _, ⟨hUnused, rfl⟩, _, _, ⟨hSpace, rfl⟩, h⟩ := h
  simp only [getData_eq, getOwner_eq, ne_eq, not_or, not_not] at hUnused
  obtain ⟨hEmpty, hOwner⟩ := hUnused
  refine ⟨by simpa using hSigned, hEmpty, hOwner, Nat.le_of_not_lt hSpace, ?_⟩
  rw [(setDataLength_eq_ok h).2.2, hEmpty]
  simp

/-- `assign` that returned gave the account the new owner; when the owner changes, the address
signed and, with early verification, `set_owner` checked the rules of an owner change. -/
theorem assign_eq_ok {address : Address} {owner : Pubkey}
    (h : (assign address owner signers).run b = .ok u b') :
    b'.account = { b.account with owner } ∧ (b.account.owner ≠ owner →
      address.isSigner signers = true ∧
        (b.transactionContext.isEarlyVerificationOfAccountModificationsEnabled = true →
          b.isOwnedByCurrentProgram = true ∧ isZeroed b.account.data = true)) := by
  simp only [assign, run_bind_eq_ok, EStateM.run_get, EStateM.Result.ok.injEq] at h
  obtain ⟨_, _, ⟨rfl, rfl⟩, h⟩ := h
  split at h
  · -- the account already has the owner
    rename_i hSame
    simp only [EStateM.run_pure, EStateM.Result.ok.injEq] at h
    obtain ⟨-, rfl⟩ := h
    exact ⟨by simp [← hSame], fun hChanged => absurd hSame hChanged⟩
  · simp only [run_bind_eq_ok, run_failIf_eq_ok] at h
    obtain ⟨_, _, ⟨hSigned, rfl⟩, h⟩ := h
    obtain ⟨hChecked, hOwner⟩ := setOwner_eq_ok h
    exact ⟨hOwner, fun _ => ⟨by simpa using hSigned, fun hEarly =>
      ⟨(hChecked hEarly).1, (hChecked hEarly).2.2.2⟩⟩⟩

theorem allocateAndAssign_eq_ok {address : Address} {space : Nat} {owner : Pubkey}
    (h : (allocateAndAssign address space owner signers).run b = .ok u b') :
    address.isSigner signers = true ∧ b.account.data = [] ∧ b.account.owner = systemProgramId ∧
      space ≤ maxPermittedDataLength ∧
      b'.account = { b.account with data := List.replicate space 0, owner } := by
  simp only [allocateAndAssign, run_bind_eq_ok] at h
  obtain ⟨_, b₁, hAllocate, hAssign⟩ := h
  obtain ⟨hSigned, hEmpty, hOwner, hSpace, hAllocated⟩ := allocate_eq_ok hAllocate
  refine ⟨hSigned, hEmpty, hOwner, hSpace, ?_⟩
  rw [(assign_eq_ok hAssign).1, hAllocated]

end Borrowed

/-! ### Borrows of the frame's accounts -/

section Frame

variable {tc tc' : TransactionContext} {ic : InstructionContext} {b : BorrowedAccount}

/-- A borrow that returned wrote back the account it left, and nothing else of the accounts. -/
theorem borrowAndRun_eq_ok {i : Nat} {f : BorrowedAccountM Unit}
    (h : borrowAndRun tc ic i f = .ok tc') :
    ∃ b b', ic.tryBorrowInstructionAccount tc i = .ok b ∧ f.run b = .ok () b' ∧
      tc' = { tc with accounts := tc.accounts.set b.indexInTransaction b'.account
                      accountsResizeDelta := b'.transactionContext.accountsResizeDelta } := by
  simp only [borrowAndRun, InstructionContext.withBorrowedInstructionAccount,
    Lib.Except.map_eq_ok, Lib.Except.bind_eq_ok] at h
  obtain ⟨⟨_, _⟩, ⟨b, hBorrow, hRun⟩, rfl⟩ := h
  split at hRun
  · rename_i a b' hOk
    cases hRun
    exact ⟨b, b', hBorrow, hOk, rfl⟩
  · cases hRun

/-- What a borrow at instruction account `i` did to the account at index `k` of the transaction:
nothing, or the borrowed computation's work on that very account. -/
theorem borrowAndRun_account {i k : Nat} {f : BorrowedAccountM Unit} {a : AccountSharedData}
    (h : borrowAndRun tc ic i f = .ok tc') (hk : tc.accounts[k]? = some a) :
    tc'.accountKeys = tc.accountKeys ∧ ∃ a', tc'.accounts[k]? = some a' ∧
      (a' = a ∨ ∃ b b', ic.tryBorrowInstructionAccount tc i = .ok b ∧ b.indexInTransaction = k ∧
        b.account = a ∧ f.run b = .ok () b' ∧ a' = b'.account) := by
  obtain ⟨b, b', hBorrow, hRun, rfl⟩ := borrowAndRun_eq_ok h
  refine ⟨rfl, ?_⟩
  by_cases hIndex : b.indexInTransaction = k
  · obtain ⟨ia, -, hAccount, hb⟩ := tryBorrowInstructionAccount_eq_ok hBorrow
    have hAt : b.indexInTransaction = ia.indexInTransaction := by rw [hb]
    have hSame : b.account = a := by
      rw [hAt] at hIndex
      rw [hIndex] at hAccount
      exact Option.some.inj (hAccount.symm.trans hk)
    refine ⟨b'.account, ?_, .inr ⟨b, b', hBorrow, hIndex, hSame, hRun, rfl⟩⟩
    have hLt : k < tc.accounts.length := (List.getElem?_eq_some_iff.mp hk).1
    simp [hIndex, hLt]
  · exact ⟨a, by rw [List.getElem?_set_ne hIndex, hk], .inl rfl⟩

end Frame

end PutValidator
