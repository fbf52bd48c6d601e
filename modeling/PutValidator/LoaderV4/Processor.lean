import PutValidator.LoaderV4.State
import PutValidator.SystemProgram.AccountSafety

/-! The instructions of loader-v4 to itself (`programs/loader-v4/src/lib.rs`): `Write`,
`Truncate`, `Deploy`, `Retract` and `TransferAuthority` of a program account. Each handler borrows
the program (instruction account 0) and holds it while it borrows a payer, a recipient or a source
(instruction account 2); a second borrow of one transaction account fails, so the two are distinct
accounts. A method on a held account writes through to the transaction at once, so the model
runs each method on the transaction as it stands (`onAccount`). The instruction arrives decoded,
the compute units it consumes are not modelled, and the rent and clock sysvars are arguments; the
ELF loader and verifier that `Deploy` runs is a parameter `loads` of the program's bytes. The
other branch of `process_instruction_inner`, which runs a deployed program, is not modelled. -/
namespace PutValidator.LoaderV4

open Lib.Except Lib.EState Lib.Word Lib.List BorrowedAccount

/-- `LoaderV4Instruction` (`sdk/program/src/loader_v4_instruction.rs`). -/
inductive LoaderV4Instruction
  | write (offset : UInt32) (bytes : List UInt8)
  | truncate (offset : UInt32)
  | deploy
  | retract
  | transferAuthority
deriving DecidableEq, Repr

/-! ### Accounts held by a handler -/

/-- A method called on an instruction account the handler holds, on the transaction as it
stands: the account and the resize delta it leaves are the transaction's. -/
def onAccount (ic : InstructionContext) (instructionAccountIndex : Nat) (f : BorrowedAccountM Unit)
    (tc : TransactionContext) : Except InstructionError TransactionContext :=
  (ic.withBorrowedInstructionAccount tc instructionAccountIndex f).map (·.2)

/-- A second instruction account borrowed while the program, `held`, is: the `RefCell` of a
transaction account refuses a second borrow with `AccountBorrowFailed`. -/
def tryBorrowBeside (ic : InstructionContext) (tc : TransactionContext) (held : BorrowedAccount)
    (instructionAccountIndex : Nat) : Except InstructionError BorrowedAccount := do
  let b ← ic.tryBorrowInstructionAccount tc instructionAccountIndex
  failIf (b.indexInTransaction = held.indexInTransaction) .accountBorrowFailed
  pure b

/-- `get_data_mut()?`, a sub-slice of it that must reach `needed` bytes (`get_mut(..).ok_or` and
`get_state_mut` refuse a shorter one with `AccountDataTooSmall`), and `write` through it. -/
def writeThroughDataMut (needed : Nat) (write : List UInt8 → List UInt8) :
    BorrowedAccountM Unit := do
  let data ← getDataMut
  liftExcept (failIf (data.length < needed) InstructionError.accountDataTooSmall)
  modify fun b => { b with account := { b.account with data := write data } }

/-- `get_state_mut(program.get_data_mut()?)?` and the assignments `write` to its fields. -/
def updateState (write : List UInt8 → List UInt8) : BorrowedAccountM Unit :=
  writeThroughDataMut programDataOffset write

/-! ### The handlers -/

/-- `check_program_account`: a writable program of the loader, initialised, whose authority
is instruction account 1 and signed. -/
def checkProgramAccount (ic : InstructionContext) (program : BorrowedAccount)
    (authorityAddress : Pubkey) : Except InstructionError LoaderV4State := do
  failIf (program.getOwner ≠ loaderV4Id) .invalidAccountOwner
  failIf program.getData.isEmpty .invalidAccountData
  let state ← getState program.getData
  failIf (program.isWritable = false) .invalidArgument
  failIf ((← ic.isInstructionAccountSigner 1) = false) .missingRequiredSignature
  failIf state.authorityAddress.isNone .immutable
  failIf (state.authorityAddress ≠ some authorityAddress) .incorrectAuthority
  pure state

/-- The checks of `Write` on the program: for the initialising write (at offset 0 into empty
data) a writable account of the loader and the signature of instruction account 1, and for any
other `check_program_account` and a retracted program. -/
def checkWrite (ic : InstructionContext) (program : BorrowedAccount) (authorityAddress : Pubkey)
    (isInitialization : Bool) : Except InstructionError Unit :=
  if isInitialization then do
    failIf (program.getOwner ≠ loaderV4Id) .invalidAccountOwner
    failIf (program.isWritable = false) .invalidArgument
    failIf ((← ic.isInstructionAccountSigner 1) = false) .missingRequiredSignature
  else do
    let state ← checkProgramAccount ic program authorityAddress
    failIf state.isDeployed .invalidArgument

/-- The checks of the optional payer of `Write`: it signed and is writable. -/
def checkPayer (ic : InstructionContext) (hasPayer : Bool) : Except InstructionError Unit :=
  if hasPayer then do
    failIf ((← ic.isInstructionAccountSigner 2) = false) .missingRequiredSignature
    failIf ((← ic.isInstructionAccountWritable 2) = false) .invalidArgument
  else pure ()

/-- `payer.filter(..)` when lamports are missing: the payer must hold them, or the write fails
with `InsufficientFunds`. -/
def fundingPayer (payer : Option BorrowedAccount) (transferLamports : Nat) :
    Except InstructionError (Option BorrowedAccount) :=
  if 0 < transferLamports then
    okOr ((payer.filter (transferLamports ≤ ·.getLamports)).map some) .insufficientFunds
  else pure payer

/-- `process_instruction_write`. -/
def processInstructionWrite (rent : Rent) (clockSlot : Nat) (offset : UInt32)
    (bytes : List UInt8) (tc : TransactionContext) :
    Except InstructionError TransactionContext := do
  let ic ← tc.getCurrentInstructionContext
  let program ← ic.tryBorrowInstructionAccount tc 0
  let authorityAddress ← instructionAccountKey tc ic 1
  let payer := (tryBorrowBeside ic tc program 2).toOption
  let isInitialization := offset == 0 && program.getData.isEmpty
  checkWrite ic program authorityAddress isInitialization
  checkPayer ic payer.isSome
  let programSize := program.getData.length - programDataOffset
  failIf (programSize < offset.toNat) .accountDataTooSmall
  let endOffset := saturatingAdd 64 offset.toNat bytes.length
  let requiredLamports := rent.minimumBalance (saturatingAdd 64 programDataOffset endOffset)
  let transferLamports := requiredLamports - program.getLamports
  let payer ← fundingPayer payer transferLamports
  let tc ← (if programSize < endOffset then
      onAccount ic 0 (setDataLength (saturatingAdd 64 programDataOffset endOffset)) tc
    else pure tc)
  let tc ← (if payer.isSome then
      onAccount ic 2 (checkedSubLamports transferLamports) tc >>=
        onAccount ic 0 (checkedAddLamports transferLamports)
    else pure tc)
  let tc ← (if isInitialization then
      onAccount ic 0 (updateState (initializeState clockSlot authorityAddress)) tc
    else pure tc)
  onAccount ic 0 (writeThroughDataMut (saturatingAdd 64 programDataOffset endOffset)
    (overwrite (saturatingAdd 64 programDataOffset offset.toNat) bytes)) tc

/-- `process_instruction_truncate`. The recipient is borrowed, with its failures, before the
program is checked. After `set_data_length` the program's data is as long as asked, which is the
length whose rent the program keeps. -/
def processInstructionTruncate (rent : Rent) (offset : UInt32) (tc : TransactionContext) :
    Except InstructionError TransactionContext := do
  let ic ← tc.getCurrentInstructionContext
  let program ← ic.tryBorrowInstructionAccount tc 0
  let authorityAddress ← instructionAccountKey tc ic 1
  let _ ← tryBorrowBeside ic tc program 2
  let state ← checkProgramAccount ic program authorityAddress
  failIf state.isDeployed .invalidArgument
  let programSize := program.getData.length - programDataOffset
  failIf (programSize < offset.toNat) .accountDataTooSmall
  let newLength := if offset = 0 then 0 else saturatingAdd 64 programDataOffset offset.toNat
  let tc ← onAccount ic 0 (setDataLength newLength) tc
  let requiredLamports := if offset = 0 then 0 else rent.minimumBalance newLength
  let transferLamports := program.getLamports - requiredLamports
  let tc ← onAccount ic 0 (checkedSubLamports transferLamports) tc
  onAccount ic 2 (checkedAddLamports transferLamports) tc

/-- The account whose data `Deploy` loads: the source program, retracted and of the same
authority, or else the program itself. -/
def deployBuffer (ic : InstructionContext) (program : BorrowedAccount)
    (sourceProgram : Option BorrowedAccount) (authorityAddress : Pubkey) :
    Except InstructionError BorrowedAccount :=
  match sourceProgram with
  | some source => do
      let sourceState ← checkProgramAccount ic source authorityAddress
      failIf sourceState.isDeployed .invalidArgument
      pure source
  | none => pure program

/-- `load_program_from_account`: the state, then the loader and verifier `loads` on the program's
bytes; a program they refuse is `InvalidAccountData`. -/
def loadProgramFromAccount (loads : List UInt8 → Bool) (program : BorrowedAccount) :
    Except InstructionError Unit := do
  let _ ← getState program.getData
  failIf (loads (program.getData.drop programDataOffset) = false) .invalidAccountData

/-- The source's data and lamports moved into the program by `Deploy`: the program's data becomes
the source's, the source is truncated to nothing, and the source pays the program what the
program holds beyond the rent of its own data before the copy. -/
def takeSourceProgram (rent : Rent) (ic : InstructionContext) (program source : BorrowedAccount)
    (tc : TransactionContext) : Except InstructionError TransactionContext := do
  let requiredLamports := rent.minimumBalance program.getData.length
  let transferLamports := program.getLamports - requiredLamports
  let tc ← onAccount ic 0 (setDataFromSlice source.getData) tc
  let tc ← onAccount ic 2 (setDataLength 0) tc
  let tc ← onAccount ic 2 (checkedSubLamports transferLamports) tc
  onAccount ic 0 (checkedAddLamports transferLamports) tc

/-- `process_instruction_deploy`. -/
def processInstructionDeploy (loads : List UInt8 → Bool) (rent : Rent) (clockSlot : Nat)
    (tc : TransactionContext) : Except InstructionError TransactionContext := do
  let ic ← tc.getCurrentInstructionContext
  let program ← ic.tryBorrowInstructionAccount tc 0
  let authorityAddress ← instructionAccountKey tc ic 1
  let sourceProgram := (tryBorrowBeside ic tc program 2).toOption
  let state ← checkProgramAccount ic program authorityAddress
  let currentSlot := clockSlot
  failIf (currentSlot < saturatingAdd 64 state.slot deploymentCooldownInSlots) .invalidArgument
  failIf state.isDeployed .invalidArgument
  let buffer ← deployBuffer ic program sourceProgram authorityAddress
  loadProgramFromAccount loads buffer
  let tc ← (match sourceProgram with
    | some source => takeSourceProgram rent ic program source tc
    | none => pure tc)
  onAccount ic 0 (updateState fun data => writeIsDeployed true (writeSlot currentSlot data)) tc

/-- `process_instruction_retract`. The stored slot stays the one of the last deployment. -/
def processInstructionRetract (clockSlot : Nat) (tc : TransactionContext) :
    Except InstructionError TransactionContext := do
  let ic ← tc.getCurrentInstructionContext
  let program ← ic.tryBorrowInstructionAccount tc 0
  let authorityAddress ← instructionAccountKey tc ic 1
  let state ← checkProgramAccount ic program authorityAddress
  let currentSlot := clockSlot
  failIf (currentSlot < saturatingAdd 64 state.slot deploymentCooldownInSlots) .invalidArgument
  failIf (state.isDeployed = false) .invalidArgument
  onAccount ic 0 (updateState (writeIsDeployed false)) tc

/-- The check of the new authority of `TransferAuthority`, when there is one: it signed. -/
def checkNewAuthority (ic : InstructionContext) (hasNewAuthority : Bool) :
    Except InstructionError Unit :=
  if hasNewAuthority then do
    failIf ((← ic.isInstructionAccountSigner 2) = false) .missingRequiredSignature
  else pure ()

/-- `process_instruction_transfer_authority`. Without instruction account 2 the program is
finalized. -/
def processInstructionTransferAuthority (tc : TransactionContext) :
    Except InstructionError TransactionContext := do
  let ic ← tc.getCurrentInstructionContext
  let program ← ic.tryBorrowInstructionAccount tc 0
  let authorityAddress ← instructionAccountKey tc ic 1
  let newAuthorityAddress := (instructionAccountKey tc ic 2).toOption
  let _ ← checkProgramAccount ic program authorityAddress
  checkNewAuthority ic newAuthorityAddress.isSome
  onAccount ic 0 (updateState (writeAuthorityAddress newAuthorityAddress)) tc

/-- The branch of `process_instruction_inner` for an instruction to the loader itself, after
`limited_deserialize`. -/
def processInstruction (loads : List UInt8 → Bool) (rent : Rent) (clockSlot : Nat) :
    LoaderV4Instruction → TransactionContext → Except InstructionError TransactionContext
  | .write offset bytes => processInstructionWrite rent clockSlot offset bytes
  | .truncate offset => processInstructionTruncate rent offset
  | .deploy => processInstructionDeploy loads rent clockSlot
  | .retract => processInstructionRetract clockSlot
  | .transferAuthority => processInstructionTransferAuthority

/-! ### What a handler does to the accounts -/

/-- Instruction account `i` of the frame is the transaction's account `p`, which holds `a`. -/
def AccountAt (ic : InstructionContext) (tc : TransactionContext) (i p : Nat)
    (a : AccountSharedData) : Prop :=
  ∃ ia, ic.instructionAccounts[i]? = some ia ∧ ia.indexInTransaction = p ∧ tc.accounts[p]? = some a

/-- `tc'` is `tc` with the accounts `accounts`: a handler changes nothing else of the transaction
but the resize delta. -/
def WithAccounts (tc : TransactionContext) (accounts : List AccountSharedData)
    (tc' : TransactionContext) : Prop :=
  tc' = { tc with accounts, accountsResizeDelta := tc'.accountsResizeDelta }

/-- The accounts with the one instruction account 2 points at, when a handler rewrote it,
replaced: `(q, b, b')` says the account at `q` went from `b` to `b'`. -/
def setOther : Option (Nat × AccountSharedData × AccountSharedData) → List AccountSharedData →
    List AccountSharedData
  | none, accounts => accounts
  | some (q, _, b'), accounts => accounts.set q b'

/-- The shape of every handler's effect: the program, instruction account 0 at `p`, went from `a`
to `a'`; when `other` is `(q, b, b')`, instruction account 2, at `q ≠ p`, went from `b` to `b'`;
and nothing else of the transaction changed but the resize delta. -/
structure Rewrite (ic : InstructionContext) (tc tc' : TransactionContext) (p : Nat)
    (a a' : AccountSharedData) (other : Option (Nat × AccountSharedData × AccountSharedData)) :
    Prop where
  program : AccountAt ic tc 0 p a
  other_at : ∀ q b b', other = some (q, b, b') → AccountAt ic tc 2 q b ∧ q ≠ p
  accounts : WithAccounts tc (setOther other (tc.accounts.set p a')) tc'

section Accounts

variable {ic : InstructionContext} {tc tc₁ tc' : TransactionContext} {i p q : Nat}
  {a a' b : AccountSharedData} {accounts accounts' : List AccountSharedData}

theorem WithAccounts.refl (tc : TransactionContext) : WithAccounts tc tc.accounts tc := rfl

theorem WithAccounts.trans (h₁ : WithAccounts tc accounts tc₁)
    (h₂ : WithAccounts tc₁ accounts' tc') : WithAccounts tc accounts' tc' := by
  unfold WithAccounts at h₁ h₂ ⊢
  rw [h₂, h₁]

theorem WithAccounts.accounts_eq (h : WithAccounts tc accounts tc') : tc'.accounts = accounts := by
  rw [h]

theorem WithAccounts.accountKeys_eq (h : WithAccounts tc accounts tc') :
    tc'.accountKeys = tc.accountKeys := by
  rw [h]

theorem AccountAt.unique (h₁ : AccountAt ic tc i p a) (h₂ : AccountAt ic tc i q b) :
    p = q ∧ a = b := by
  obtain ⟨ia, hia, rfl, ha⟩ := h₁
  obtain ⟨ia', hia', rfl, hb⟩ := h₂
  obtain rfl : ia = ia' := Option.some.inj (hia.symm.trans hia')
  exact ⟨rfl, Option.some.inj (ha.symm.trans hb)⟩

theorem AccountAt.lt_length (h : AccountAt ic tc i p a) : p < tc.accounts.length := by
  obtain ⟨-, -, -, ha⟩ := h
  exact (List.getElem?_eq_some_iff.mp ha).1

/-- Rewriting the account an instruction account points at leaves it pointing at the new one. -/
theorem AccountAt.set_self (h : AccountAt ic tc i p a)
    (hW : WithAccounts tc (tc.accounts.set p a') tc₁) : AccountAt ic tc₁ i p a' := by
  have hLt := h.lt_length
  obtain ⟨ia, hia, hIndex, -⟩ := h
  exact ⟨ia, hia, hIndex, by rw [hW.accounts_eq, List.getElem?_set_self hLt]⟩

theorem AccountAt.set_ne (h : AccountAt ic tc i q b) (hne : q ≠ p)
    (hW : WithAccounts tc (tc.accounts.set p a') tc₁) : AccountAt ic tc₁ i q b := by
  obtain ⟨ia, hia, hIndex, hb⟩ := h
  exact ⟨ia, hia, hIndex, by rw [hW.accounts_eq, List.getElem?_set_ne (Ne.symm hne), hb]⟩

theorem AccountAt.set_eq (h : AccountAt ic tc i p a) : tc.accounts.set p a = tc.accounts := by
  obtain ⟨-, -, -, ha⟩ := h
  obtain ⟨hLt, rfl⟩ := List.getElem?_eq_some_iff.mp ha
  exact List.set_getElem_self hLt

theorem accountAt_of_tryBorrow {b : BorrowedAccount}
    (h : ic.tryBorrowInstructionAccount tc i = .ok b) :
    AccountAt ic tc i b.indexInTransaction b.account := by
  obtain ⟨ia, hia, hAccount, hb⟩ := tryBorrowInstructionAccount_eq_ok h
  have hIndex : b.indexInTransaction = ia.indexInTransaction := by rw [hb]
  exact ⟨ia, hia, hIndex.symm, hIndex ▸ hAccount⟩

/-- A method that returned on instruction account `i`: the account it points at passed `P` and
became `g` of itself. -/
theorem onAccount_eq_ok {f : BorrowedAccountM Unit} {g : AccountSharedData → AccountSharedData}
    {P : AccountSharedData → Prop}
    (hf : ∀ {b b' : BorrowedAccount}, f.run b = .ok () b' → P b.account ∧ b'.account = g b.account)
    (h : onAccount ic i f tc = .ok tc') :
    ∃ p a, AccountAt ic tc i p a ∧ P a ∧ WithAccounts tc (tc.accounts.set p (g a)) tc' := by
  obtain ⟨⟨u, tc''⟩, hBorrowed, rfl⟩ := map_eq_ok.mp h
  obtain ⟨b, b', hBorrow, hRun, rfl⟩ :=
    InstructionContext.withBorrowedInstructionAccount_eq_ok hBorrowed
  obtain ⟨hP, hAccount⟩ := hf hRun
  exact ⟨_, _, accountAt_of_tryBorrow hBorrow, hP, by rw [hAccount]; rfl⟩

theorem onAccount_at_eq_ok {f : BorrowedAccountM Unit} {g : AccountSharedData → AccountSharedData}
    {P : AccountSharedData → Prop} (hAt : AccountAt ic tc i p a)
    (hf : ∀ {b b' : BorrowedAccount}, f.run b = .ok () b' → P b.account ∧ b'.account = g b.account)
    (h : onAccount ic i f tc = .ok tc') :
    P a ∧ WithAccounts tc (tc.accounts.set p (g a)) tc' := by
  obtain ⟨p', a'', hAt', hP, hW⟩ := onAccount_eq_ok hf h
  obtain ⟨rfl, rfl⟩ := hAt.unique hAt'
  exact ⟨hP, hW⟩

theorem AccountAt.of_withAccounts (h : AccountAt ic tc i p a) (hW : WithAccounts tc accounts tc₁)
    (hp : accounts[p]? = some a') : AccountAt ic tc₁ i p a' := by
  obtain ⟨ia, hia, hIndex, -⟩ := h
  exact ⟨ia, hia, hIndex, by rw [hW.accounts_eq, hp]⟩

/-! Methods one after the other on the program, and on instruction account 2 beside it, add up to
one rewrite of each. -/

theorem WithAccounts.onAccount_set {f : BorrowedAccountM Unit}
    {g : AccountSharedData → AccountSharedData} {P : AccountSharedData → Prop}
    (hAt : AccountAt ic tc i p a) (hW : WithAccounts tc (tc.accounts.set p a') tc₁)
    (hf : ∀ {b b' : BorrowedAccount}, f.run b = .ok () b' → P b.account ∧ b'.account = g b.account)
    (h : onAccount ic i f tc₁ = .ok tc') :
    P a' ∧ WithAccounts tc (tc.accounts.set p (g a')) tc' := by
  obtain ⟨hP, hW'⟩ := onAccount_at_eq_ok (hAt.set_self hW) hf h
  rw [hW.accounts_eq, List.set_set] at hW'
  exact ⟨hP, hW.trans hW'⟩

theorem WithAccounts.onAccount_set_ne {f : BorrowedAccountM Unit}
    {g : AccountSharedData → AccountSharedData} {P : AccountSharedData → Prop} {j : Nat}
    (hAt : AccountAt ic tc j q b) (hne : q ≠ p) (hW : WithAccounts tc (tc.accounts.set p a') tc₁)
    (hf : ∀ {b b' : BorrowedAccount}, f.run b = .ok () b' → P b.account ∧ b'.account = g b.account)
    (h : onAccount ic j f tc₁ = .ok tc') :
    P b ∧ WithAccounts tc ((tc.accounts.set p a').set q (g b)) tc' := by
  obtain ⟨hP, hW'⟩ := onAccount_at_eq_ok (hAt.set_ne hne hW) hf h
  rw [hW.accounts_eq] at hW'
  exact ⟨hP, hW.trans hW'⟩

theorem WithAccounts.onAccount_set₂_left {f : BorrowedAccountM Unit}
    {g : AccountSharedData → AccountSharedData} {P : AccountSharedData → Prop} {b' : AccountSharedData}
    (hAt : AccountAt ic tc i p a) (hne : q ≠ p)
    (hW : WithAccounts tc ((tc.accounts.set p a').set q b') tc₁)
    (hf : ∀ {b b' : BorrowedAccount}, f.run b = .ok () b' → P b.account ∧ b'.account = g b.account)
    (h : onAccount ic i f tc₁ = .ok tc') :
    P a' ∧ WithAccounts tc ((tc.accounts.set p (g a')).set q b') tc' := by
  have hp : ((tc.accounts.set p a').set q b')[p]? = some a' := by
    rw [List.getElem?_set_ne hne, List.getElem?_set_self hAt.lt_length]
  obtain ⟨hP, hW'⟩ := onAccount_at_eq_ok (hAt.of_withAccounts hW hp) hf h
  rw [hW.accounts_eq, List.set_comm _ _ (Ne.symm hne), List.set_set, List.set_comm _ _ hne] at hW'
  exact ⟨hP, hW.trans hW'⟩

theorem WithAccounts.onAccount_set₂_right {f : BorrowedAccountM Unit}
    {g : AccountSharedData → AccountSharedData} {P : AccountSharedData → Prop}
    {b' : AccountSharedData} {j : Nat} (hAt : AccountAt ic tc j q b)
    (hW : WithAccounts tc ((tc.accounts.set p a').set q b') tc₁)
    (hf : ∀ {b b' : BorrowedAccount}, f.run b = .ok () b' → P b.account ∧ b'.account = g b.account)
    (h : onAccount ic j f tc₁ = .ok tc') :
    P b' ∧ WithAccounts tc ((tc.accounts.set p a').set q (g b')) tc' := by
  have hq : ((tc.accounts.set p a').set q b')[q]? = some b' :=
    List.getElem?_set_self (by simpa using hAt.lt_length)
  obtain ⟨hP, hW'⟩ := onAccount_at_eq_ok (hAt.of_withAccounts hW hq) hf h
  rw [hW.accounts_eq, List.set_set] at hW'
  exact ⟨hP, hW.trans hW'⟩

/-- A method on instruction account `i`, the program, after a rewrite of instruction account 2. -/
theorem WithAccounts.onAccount_setOther {f : BorrowedAccountM Unit}
    {g : AccountSharedData → AccountSharedData} {P : AccountSharedData → Prop}
    {other : Option (Nat × AccountSharedData × AccountSharedData)} (hAt : AccountAt ic tc i p a)
    (hOther : ∀ q b b', other = some (q, b, b') → q ≠ p)
    (hW : WithAccounts tc (setOther other (tc.accounts.set p a')) tc₁)
    (hf : ∀ {b b' : BorrowedAccount}, f.run b = .ok () b' → P b.account ∧ b'.account = g b.account)
    (h : onAccount ic i f tc₁ = .ok tc') :
    P a' ∧ WithAccounts tc (setOther other (tc.accounts.set p (g a'))) tc' := by
  match other, hOther, hW with
  | none, _, hW => exact hW.onAccount_set hAt hf h
  | some (q, b, b'), hOther, hW => exact hW.onAccount_set₂_left hAt (hOther q b b' rfl) hf h

theorem ite_onAccount_setOther {c : Prop} [Decidable c] {f : BorrowedAccountM Unit}
    {g : AccountSharedData → AccountSharedData} {P : AccountSharedData → Prop}
    {other : Option (Nat × AccountSharedData × AccountSharedData)} (hAt : AccountAt ic tc i p a)
    (hOther : ∀ q b b', other = some (q, b, b') → q ≠ p)
    (hW : WithAccounts tc (setOther other (tc.accounts.set p a')) tc₁)
    (hf : ∀ {b b' : BorrowedAccount}, f.run b = .ok () b' → P b.account ∧ b'.account = g b.account)
    (h : (if c then onAccount ic i f tc₁ else pure tc₁) = .ok tc') :
    (c → P a') ∧ WithAccounts tc (setOther other (tc.accounts.set p (if c then g a' else a'))) tc' := by
  split at h
  · rename_i hc
    obtain ⟨hP, hW'⟩ := hW.onAccount_setOther hAt hOther hf h
    exact ⟨fun _ => hP, by rwa [if_pos hc]⟩
  · rename_i hc
    cases h
    exact ⟨fun hc' => absurd hc' hc, by rwa [if_neg hc]⟩

/-- A conditional rewrite of an account's data rewrites its data by a conditional. -/
theorem ite_with_data {c : Prop} [Decidable c] (a : AccountSharedData)
    (f : List UInt8 → List UInt8) :
    (if c then { a with data := f a.data } else a) =
      { a with data := if c then f a.data else a.data } := by
  split_ifs <;> rfl

/-- A method under a condition. -/
theorem ite_onAccount_eq_ok {c : Prop} [Decidable c] {f : BorrowedAccountM Unit}
    {g : AccountSharedData → AccountSharedData} {P : AccountSharedData → Prop}
    (hAt : AccountAt ic tc i p a) (hW : WithAccounts tc (tc.accounts.set p a') tc₁)
    (hf : ∀ {b b' : BorrowedAccount}, f.run b = .ok () b' → P b.account ∧ b'.account = g b.account)
    (h : (if c then onAccount ic i f tc₁ else pure tc₁) = .ok tc') :
    (c → P a') ∧ WithAccounts tc (tc.accounts.set p (if c then g a' else a')) tc' := by
  split at h
  · rename_i hc
    obtain ⟨hP, hW'⟩ := hW.onAccount_set hAt hf h
    exact ⟨fun _ => hP, by rwa [if_pos hc]⟩
  · rename_i hc
    cases h
    exact ⟨fun hc' => absurd hc' hc, by rwa [if_neg hc]⟩

end Accounts

/-! What each method a handler calls does to the account. -/

section Methods

variable {b b' : BorrowedAccount}

theorem setDataLength_effect {n : Nat} (h : (setDataLength n).run b = .ok () b') :
    True ∧ b'.account = { b.account with data := resized n b.account.data } :=
  ⟨trivial, (setDataLength_eq_ok h).2.2⟩

theorem setDataFromSlice_effect {data : List UInt8}
    (h : (setDataFromSlice data).run b = .ok () b') :
    True ∧ b'.account = { b.account with data } :=
  ⟨trivial, setData_eq_ok h⟩

theorem checkedAddLamports_effect {lamports : Nat}
    (h : (checkedAddLamports lamports).run b = .ok () b') :
    b.account.lamports + lamports ≤ maxValue 128 ∧
      b'.account = { b.account with lamports := b.account.lamports + lamports } :=
  checkedAddLamports_eq_ok h

theorem checkedSubLamports_effect {lamports : Nat}
    (h : (checkedSubLamports lamports).run b = .ok () b') :
    lamports ≤ b.account.lamports ∧
      b'.account = { b.account with lamports := b.account.lamports - lamports } :=
  checkedSubLamports_eq_ok h

theorem writeThroughDataMut_effect {needed : Nat} {write : List UInt8 → List UInt8}
    (h : (writeThroughDataMut needed write).run b = .ok () b') :
    needed ≤ b.account.data.length ∧ b'.account = { b.account with data := write b.account.data } := by
  simp only [writeThroughDataMut, run_bind_eq_ok, run_liftExcept_eq_ok, failIf_eq_ok,
    EStateM.run_modify, EStateM.Result.ok.injEq] at h
  obtain ⟨data, b₁, hData, h⟩ := h
  obtain ⟨rfl, rfl⟩ := getDataMut_eq_ok hData
  obtain ⟨-, b₂, ⟨hLength, hSame⟩, -, hb'⟩ := h
  subst hSame hb'
  exact ⟨Nat.le_of_not_lt hLength, rfl⟩

end Methods

/-! ### The checks that passed -/

section Checks

variable {ic : InstructionContext} {tc : TransactionContext} {program b : BorrowedAccount}
  {k : Pubkey} {st : LoaderV4State}

/-- The key of an instruction account that signed is a signature at its position. -/
theorem signedAt_of_key {i : Nat} (hKey : instructionAccountKey tc ic i = .ok k)
    (hSigner : ic.isInstructionAccountSigner i = .ok true) : signedAt tc ic i k = true := by
  obtain ⟨ia, hia, hk⟩ := instructionAccountKey_eq_ok hKey
  simp only [InstructionContext.isInstructionAccountSigner, map_eq_ok, okOr_eq_ok] at hSigner
  obtain ⟨ia', hia', hSigned⟩ := hSigner
  obtain rfl : ia = ia' := Option.some.inj (hia.symm.trans hia')
  simp [hia, hSigned, hk]

/-- A borrowed instruction account that signed is a signature of its key. -/
theorem signedAt_of_accountAt {i p : Nat} {a : AccountSharedData} (hAt : AccountAt ic tc i p a)
    (hSigner : ic.isInstructionAccountSigner i = .ok true) :
    signedAt tc ic i ((tc.accountKeys[p]?).getD default) = true := by
  obtain ⟨ia, hia, rfl, -⟩ := hAt
  simp only [InstructionContext.isInstructionAccountSigner, map_eq_ok, okOr_eq_ok] at hSigner
  obtain ⟨ia', hia', hSigned⟩ := hSigner
  obtain rfl : ia = ia' := Option.some.inj (hia.symm.trans hia')
  simp [hia, hSigned]

theorem checkProgramAccount_eq_ok (h : checkProgramAccount ic program k = .ok st) :
    program.getOwner = loaderV4Id ∧ getState program.getData = .ok st ∧
      ic.isInstructionAccountSigner 1 = .ok true ∧ st.authorityAddress = some k := by
  simp only [checkProgramAccount, bind_eq_ok, failIf_eq_ok, pure_eq_ok] at h
  obtain ⟨-, hOwner, -, -, st', hState, -, -, signer, hSigner, -, hSigned, -, -, -, hAuthority,
    rfl⟩ := h
  obtain rfl : signer = true := by simpa using hSigned
  exact ⟨not_not.mp hOwner, hState, hSigner, not_not.mp hAuthority⟩

theorem tryBorrowBeside_eq_ok {i : Nat} (h : tryBorrowBeside ic tc program i = .ok b) :
    ic.tryBorrowInstructionAccount tc i = .ok b ∧ b.indexInTransaction ≠ program.indexInTransaction := by
  simp only [tryBorrowBeside, bind_eq_ok, failIf_eq_ok, pure_eq_ok] at h
  obtain ⟨b', hBorrow, -, hne, rfl⟩ := h
  exact ⟨hBorrow, hne⟩

/-- The payer the write goes on with is the one it borrowed, and it holds the lamports that are
missing. -/
theorem fundingPayer_eq_ok {payer payer' : Option BorrowedAccount} {t : Nat}
    (h : fundingPayer payer t = .ok payer') :
    payer' = payer ∧ (0 < t → ∃ p, payer = some p ∧ t ≤ p.getLamports) := by
  unfold fundingPayer at h
  split at h
  · simp only [okOr_eq_ok, Option.map_eq_some_iff] at h
    obtain ⟨p, hFilter, rfl⟩ := h
    obtain ⟨rfl, hEnough⟩ := Option.filter_eq_some_iff.mp hFilter
    exact ⟨rfl, fun _ => ⟨p, rfl, of_decide_eq_true hEnough⟩⟩
  · rename_i hZero
    cases h
    exact ⟨rfl, fun hPos => absurd hPos hZero⟩

theorem checkWrite_eq_ok {isInitialization : Bool}
    (h : checkWrite ic program k isInitialization = .ok ()) :
    program.getOwner = loaderV4Id ∧ ic.isInstructionAccountSigner 1 = .ok true ∧
      (isInitialization = false → ∃ st, getState program.getData = .ok st ∧
        st.authorityAddress = some k ∧ st.isDeployed = false) := by
  unfold checkWrite at h
  cases isInitialization with
  | true =>
      simp only [if_true, bind_eq_ok, failIf_eq_ok] at h
      obtain ⟨-, hOwner, -, -, signer, hSigner, hSigned⟩ := h
      obtain rfl : signer = true := by simpa using hSigned
      exact ⟨not_not.mp hOwner, hSigner, fun h => absurd h (by decide)⟩
  | false =>
      simp only [Bool.false_eq_true, if_false, bind_eq_ok, failIf_eq_ok] at h
      obtain ⟨st, hCheck, hDeployed⟩ := h
      obtain ⟨hOwner, hState, hSigner, hAuthority⟩ := checkProgramAccount_eq_ok hCheck
      exact ⟨hOwner, hSigner, fun _ => ⟨st, hState, hAuthority, by simpa using hDeployed⟩⟩

/-- What `check_program_account` establishes of the program `a` under the authority `k`,
instruction account 1: the loader owns it, its state `st` reads, and `k` signed and is the
state's authority. -/
structure ProgramChecked (ic : InstructionContext) (tc : TransactionContext)
    (a : AccountSharedData) (k : Pubkey) (st : LoaderV4State) : Prop where
  key : instructionAccountKey tc ic 1 = .ok k
  signed : signedAt tc ic 1 k = true
  owner : a.owner = loaderV4Id
  state : getState a.data = .ok st
  authority : st.authorityAddress = some k

theorem programChecked_of_check (hKey : instructionAccountKey tc ic 1 = .ok k)
    (h : checkProgramAccount ic program k = .ok st) : ProgramChecked ic tc program.account k st :=
  have hChecked := checkProgramAccount_eq_ok h
  ⟨hKey, signedAt_of_key hKey hChecked.2.2.1, hChecked.1, hChecked.2.1, hChecked.2.2.2⟩

/-- A payer that passed its checks signed. -/
theorem checkPayer_eq_ok (h : checkPayer ic true = .ok ()) :
    ic.isInstructionAccountSigner 2 = .ok true := by
  simp only [checkPayer, if_true, bind_eq_ok, failIf_eq_ok] at h
  obtain ⟨signer, hSigner, -, hSigned, -⟩ := h
  obtain rfl : signer = true := by simpa using hSigned
  exact hSigner

/-- A new authority that passed its check signed. -/
theorem checkNewAuthority_eq_ok (h : checkNewAuthority ic true = .ok ()) :
    ic.isInstructionAccountSigner 2 = .ok true := by
  simp only [checkNewAuthority, if_true, bind_eq_ok, failIf_eq_ok] at h
  obtain ⟨signer, hSigner, hSigned⟩ := h
  obtain rfl : signer = true := by simpa using hSigned
  exact hSigner

/-- The source `Deploy` loads from is a retracted program of the same authority. -/
theorem deployBuffer_some_eq_ok {source buffer : BorrowedAccount}
    (h : deployBuffer ic program (some source) k = .ok buffer) :
    ∃ st, checkProgramAccount ic source k = .ok st ∧ st.isDeployed = false := by
  simp only [deployBuffer, bind_eq_ok, failIf_eq_ok, pure_eq_ok] at h
  obtain ⟨st, hCheck, -, hDeployed, -⟩ := h
  exact ⟨st, hCheck, by simpa using hDeployed⟩

end Checks

/-! ### What each handler did -/

section Handlers

variable {rent : Rent} {clockSlot : Nat} {tc tc' : TransactionContext}

/-- The payer's part of a `Write`: with a payer, instruction account 2 at `q` beside the program,
which signed and holds `t`, `t` moves from it to the program; without one nothing is missing. -/
theorem writePayer_eq_ok {ic : InstructionContext} {program : BorrowedAccount} {t : Nat}
    {a₁ : AccountSharedData} {tc₁ tc₂ : TransactionContext}
    (hAt : AccountAt ic tc 0 program.indexInTransaction program.account)
    (hPayerCheck : checkPayer ic (tryBorrowBeside ic tc program 2).toOption.isSome = .ok ())
    (hFunded : 0 < t → ∃ p, (tryBorrowBeside ic tc program 2).toOption = some p ∧ t ≤ p.getLamports)
    (hW₁ : WithAccounts tc (tc.accounts.set program.indexInTransaction a₁) tc₁)
    (hPay : (if (tryBorrowBeside ic tc program 2).toOption.isSome = true then
        onAccount ic 2 (checkedSubLamports t) tc₁ >>= onAccount ic 0 (checkedAddLamports t)
      else pure tc₁) = .ok tc₂) :
    ∃ other, (∀ q b b', other = some (q, b, b') → AccountAt ic tc 2 q b ∧
        q ≠ program.indexInTransaction) ∧
      WithAccounts tc (setOther other (tc.accounts.set program.indexInTransaction
        { a₁ with lamports := a₁.lamports + t })) tc₂ ∧
      (other = none ∧ t = 0 ∨ ∃ q b, other = some (q, b, { b with lamports := b.lamports - t }) ∧
        signedAt tc ic 2 ((tc.accountKeys[q]?).getD default) = true ∧ t ≤ b.lamports) := by
  cases hBeside : tryBorrowBeside ic tc program 2 with
  | error e =>
      -- no payer: the rent was already covered
      have ht : t = 0 := by
        by_contra hPos
        obtain ⟨p, hp, -⟩ := hFunded (Nat.pos_of_ne_zero hPos)
        simp [hBeside, Except.toOption] at hp
      simp only [hBeside, Except.toOption, Option.isSome_none, Bool.false_eq_true, if_false,
        pure_eq_ok] at hPay
      subst hPay ht
      exact ⟨none, (fun _ _ _ h => by cases h), hW₁, .inl ⟨rfl, rfl⟩⟩
  | ok payer =>
      obtain ⟨hBorrow, hne⟩ := tryBorrowBeside_eq_ok hBeside
      have hAtPayer := accountAt_of_tryBorrow hBorrow
      have hSigned := signedAt_of_accountAt hAtPayer
        (checkPayer_eq_ok (by simpa [hBeside, Except.toOption] using hPayerCheck))
      simp only [hBeside, Except.toOption, Option.isSome_some, if_true, bind_eq_ok] at hPay
      obtain ⟨tc₁', hSub, hAdd⟩ := hPay
      obtain ⟨hEnough, hW₁'⟩ := hW₁.onAccount_set_ne (P := fun b => t ≤ b.lamports)
        (g := fun b => { b with lamports := b.lamports - t }) hAtPayer hne
        (fun h => checkedSubLamports_effect h) hSub
      obtain ⟨-, hW₂⟩ := hW₁'.onAccount_set₂_left (P := fun a => a.lamports + t ≤ maxValue 128)
        (g := fun a => { a with lamports := a.lamports + t }) hAt hne
        (fun h => checkedAddLamports_effect h) hAdd
      exact ⟨some (_, _, _), (fun q b b' h => by cases h; exact ⟨hAtPayer, hne⟩), hW₂,
        .inr ⟨_, _, rfl, hSigned, hEnough⟩⟩

/-- A `Write` that returned. The program, instruction account 0 at `p`, is the loader's. Either
it was empty, for an initialising write at offset 0 that leaves the state of the clock's slot,
retracted, with the signer of instruction account 1 as authority; or it was a retracted program
of that authority, whose state the write keeps. It gains what the rent of the written length asks
beyond its balance, from the payer, instruction account 2, which signed. -/
theorem processInstructionWrite_eq_ok {offset : UInt32} {bytes : List UInt8}
    (hClock : clockSlot < 2 ^ 64)
    (h : processInstructionWrite rent clockSlot offset bytes tc = .ok tc') :
    ∃ ic p a k t data other, tc.getCurrentInstructionContext = .ok ic ∧
      Rewrite ic tc tc' p a { a with lamports := a.lamports + t, data } other ∧
      instructionAccountKey tc ic 1 = .ok k ∧ signedAt tc ic 1 k = true ∧ a.owner = loaderV4Id ∧
      rent.minimumBalance (saturatingAdd 64 programDataOffset
        (saturatingAdd 64 offset.toNat bytes.length)) ≤ a.lamports + t ∧
      ((offset = 0 ∧ a.data = [] ∧ getState data = .ok ⟨clockSlot, false, some k⟩) ∨
        ∃ st, getState a.data = .ok st ∧ st.authorityAddress = some k ∧ st.isDeployed = false ∧
          getState data = .ok st) ∧
      (other = none ∧ t = 0 ∨ ∃ q b, other = some (q, b, { b with lamports := b.lamports - t }) ∧
        signedAt tc ic 2 ((tc.accountKeys[q]?).getD default) = true ∧ t ≤ b.lamports) := by
  simp only [processInstructionWrite, bind_eq_ok] at h
  obtain ⟨ic, hIc, program, hProgram, k, hKey, ⟨⟩, hCheck, ⟨⟩, hPayerCheck, ⟨⟩, hBound, payer,
    hFund, tc₁, hResize, tc₂, hPay, tc₃, hInit, hCopy⟩ := h
  set n := saturatingAdd 64 programDataOffset (saturatingAdd 64 offset.toNat bytes.length) with hn
  set o := saturatingAdd 64 programDataOffset offset.toNat with ho
  set t := rent.minimumBalance n - program.getLamports with ht
  have hAt := accountAt_of_tryBorrow hProgram
  obtain ⟨hOwner, hSigner, hRetracted⟩ := checkWrite_eq_ok hCheck
  obtain ⟨rfl, hFunded⟩ := fundingPayer_eq_ok hFund
  -- the resize to the written length, the payer's transfer, the initial state, the bytes
  have hW₀ : WithAccounts tc (tc.accounts.set program.indexInTransaction program.account) tc := by
    rw [hAt.set_eq]
    exact WithAccounts.refl tc
  obtain ⟨-, hW₁⟩ := ite_onAccount_eq_ok (P := fun _ => True)
    (g := fun a => { a with data := resized n a.data }) hAt hW₀ (fun h => setDataLength_effect h)
    hResize
  rw [ite_with_data] at hW₁
  obtain ⟨other, hOther, hW₂, hPaid⟩ := writePayer_eq_ok hAt hPayerCheck hFunded hW₁ hPay
  have hOtherNe : ∀ q b b', other = some (q, b, b') → q ≠ program.indexInTransaction :=
    fun q b b' h => (hOther q b b' h).2
  obtain ⟨hInitFits, hW₃⟩ := ite_onAccount_setOther
    (P := fun a => programDataOffset ≤ a.data.length)
    (g := fun a => { a with data := initializeState clockSlot k a.data }) hAt hOtherNe hW₂
    (fun h => writeThroughDataMut_effect h) hInit
  rw [ite_with_data] at hW₃
  obtain ⟨hFits, hW₄⟩ := hW₃.onAccount_setOther (P := fun a => n ≤ a.data.length)
    (g := fun a => { a with data := overwrite o bytes a.data }) hAt hOtherNe
    (fun h => writeThroughDataMut_effect h) hCopy
  refine ⟨ic, program.indexInTransaction, program.account, k, t, _, other, hIc,
    ⟨hAt, hOther, hW₄⟩, hKey, signedAt_of_key hKey hSigner, hOwner, ?_, ?_, hPaid⟩
  · rw [ht, BorrowedAccount.getLamports]
    omega
  -- the written bytes start after the header, and the header survives the resize
  have hOffset : offset.toNat < 2 ^ 32 := offset.toNat_lt
  have ho₄₈ : programDataOffset ≤ o := le_saturatingAdd _ (by decide)
  have hon : o ≤ n := saturatingAdd_mono_right (le_saturatingAdd _ (by simp [maxValue]; omega))
  dsimp only at hFits hInitFits ⊢
  cases hInit : (offset == 0 && program.getData.isEmpty) with
  | true =>
      -- an initialising write: the resize made room for the header the write puts there
      have hRoom := hInitFits hInit
      obtain ⟨hZero, hEmpty⟩ : offset = 0 ∧ program.getData = [] := by simpa using hInit
      simp only [hInit, if_true] at hFits ⊢
      rw [length_initializeState hRoom] at hFits
      exact .inl ⟨hZero, hEmpty, getState_overwrite (getState_initializeState hRoom hClock k) ho₄₈
        (by rw [length_initializeState hRoom]; omega) bytes⟩
  | false =>
      obtain ⟨st, hState, hAuthority, hRetracted⟩ := hRetracted hInit
      simp only [hInit, Bool.false_eq_true, if_false] at hFits ⊢
      refine .inr ⟨st, hState, hAuthority, hRetracted, getState_overwrite ?_ ho₄₈ (by omega) bytes⟩
      split_ifs
      · exact getState_resized hState (ho₄₈.trans hon)
      · exact hState

/-- The length `Truncate` leaves: nothing for offset 0, else the header and `offset` bytes. -/
def truncatedLength (offset : UInt32) : Nat :=
  if offset = 0 then 0 else saturatingAdd 64 programDataOffset offset.toNat

/-- A `Truncate` that returned. The program, a retracted one of the signing authority, is cut to
`truncatedLength offset`, and pays what it holds beyond the rent of that length (all it holds for
offset 0) to the recipient, instruction account 2 beside it. -/
theorem processInstructionTruncate_eq_ok {offset : UInt32}
    (h : processInstructionTruncate rent offset tc = .ok tc') :
    ∃ ic p a k st q b t, tc.getCurrentInstructionContext = .ok ic ∧
      ProgramChecked ic tc a k st ∧ st.isDeployed = false ∧
      offset.toNat ≤ a.data.length - programDataOffset ∧
      t = a.lamports - (if offset = 0 then 0 else rent.minimumBalance (truncatedLength offset)) ∧
      Rewrite ic tc tc' p a
        { a with lamports := a.lamports - t, data := resized (truncatedLength offset) a.data }
        (some (q, b, { b with lamports := b.lamports + t })) := by
  simp only [processInstructionTruncate, bind_eq_ok] at h
  obtain ⟨ic, hIc, program, hProgram, k, hKey, recipient, hRecipient, st, hCheck, ⟨⟩,
    hDeployed, ⟨⟩, hBound, tc₁, hResize, tc₂, hSub, hAdd⟩ := h
  have hAt := accountAt_of_tryBorrow hProgram
  obtain ⟨hBorrow, hne⟩ := tryBorrowBeside_eq_ok hRecipient
  have hAtRecipient := accountAt_of_tryBorrow hBorrow
  -- the cut, the debit of the program, the credit of the recipient
  obtain ⟨-, hW₁⟩ := onAccount_at_eq_ok (P := fun _ => True)
    (g := fun a => { a with data := resized (truncatedLength offset) a.data }) hAt
    (fun h => setDataLength_effect h) hResize
  obtain ⟨-, hW₂⟩ := hW₁.onAccount_set (P := fun a => _ ≤ a.lamports)
    (g := fun a => { a with lamports := a.lamports - _ }) hAt
    (fun h => checkedSubLamports_effect h) hSub
  obtain ⟨-, hW₃⟩ := hW₂.onAccount_set_ne (P := fun b => b.lamports + _ ≤ maxValue 128)
    (g := fun b => { b with lamports := b.lamports + _ }) hAtRecipient hne
    (fun h => checkedAddLamports_effect h) hAdd
  exact ⟨ic, _, _, k, st, _, _, _, hIc, programChecked_of_check hKey hCheck,
    by simpa using hDeployed, Nat.le_of_not_lt (failIf_eq_ok.mp hBound), rfl,
    hAt, (fun q b b' h => by cases h; exact ⟨hAtRecipient, hne⟩), hW₃⟩

/-- A `Deploy` that returned. The program, a retracted one of the signing authority whose
cooldown since its stored slot has passed, is marked deployed at the clock's slot. With a source
program beside it, retracted and of the same authority, the program takes the source's data, and
the source, cut to nothing, pays it what it held beyond the rent of its own data before. -/
theorem processInstructionDeploy_eq_ok {loads : List UInt8 → Bool}
    (h : processInstructionDeploy loads rent clockSlot tc = .ok tc') :
    ∃ ic p a k st, tc.getCurrentInstructionContext = .ok ic ∧ ProgramChecked ic tc a k st ∧
      st.isDeployed = false ∧ saturatingAdd 64 st.slot deploymentCooldownInSlots ≤ clockSlot ∧
      (Rewrite ic tc tc' p a { a with data := writeIsDeployed true (writeSlot clockSlot a.data) }
          none ∨
        ∃ q b stSource t, ProgramChecked ic tc b k stSource ∧ stSource.isDeployed = false ∧
          t = a.lamports - rent.minimumBalance a.data.length ∧ t ≤ b.lamports ∧
          Rewrite ic tc tc' p a
            { a with
              lamports := a.lamports + t
              data := writeIsDeployed true (writeSlot clockSlot b.data) }
            (some (q, b, { b with lamports := b.lamports - t, data := [] }))) := by
  simp only [processInstructionDeploy, bind_eq_ok] at h
  obtain ⟨ic, hIc, program, hProgram, k, hKey, st, hCheck, ⟨⟩, hCooldown, ⟨⟩, hDeployed, buffer,
    hBuffer, ⟨⟩, -, tc₁, hTake, hUpdate⟩ := h
  have hAt := accountAt_of_tryBorrow hProgram
  have hMark : ∀ {b b' : BorrowedAccount},
      (updateState fun data => writeIsDeployed true (writeSlot clockSlot data)).run b = .ok () b' →
      programDataOffset ≤ b.account.data.length ∧
        b'.account =
          { b.account with data := writeIsDeployed true (writeSlot clockSlot b.account.data) } :=
    fun h => writeThroughDataMut_effect h
  refine ⟨ic, program.indexInTransaction, _, k, st, hIc, programChecked_of_check hKey hCheck,
    by simpa using hDeployed,
    Nat.le_of_not_lt (failIf_eq_ok.mp hCooldown), ?_⟩
  cases hSource : tryBorrowBeside ic tc program 2 with
  | error e =>
      -- no source: only the program's header changes
      simp only [hSource, Except.toOption, pure_eq_ok] at hTake
      subst hTake
      obtain ⟨-, hW⟩ := onAccount_at_eq_ok (P := fun a => programDataOffset ≤ a.data.length)
        (g := fun a => { a with data := writeIsDeployed true (writeSlot clockSlot a.data) }) hAt hMark
        hUpdate
      exact .inl ⟨hAt, (fun _ _ _ h => by cases h), hW⟩
  | ok source =>
      simp only [hSource, Except.toOption] at hTake hBuffer
      obtain ⟨stSource, hCheckSource, hDeployedSource⟩ := deployBuffer_some_eq_ok hBuffer
      obtain ⟨hBorrow, hne⟩ := tryBorrowBeside_eq_ok hSource
      have hAtSource := accountAt_of_tryBorrow hBorrow
      simp only [takeSourceProgram, bind_eq_ok] at hTake
      obtain ⟨tc₂, hCopy, tc₃, hCut, tc₄, hSub, hAdd⟩ := hTake
      -- the copy into the program, the cut of the source, the transfer, the header
      obtain ⟨-, hW₁⟩ := onAccount_at_eq_ok (P := fun _ => True)
        (g := fun a => { a with data := source.account.data }) hAt
        (fun h => setDataFromSlice_effect h) hCopy
      obtain ⟨-, hW₂⟩ := hW₁.onAccount_set_ne (P := fun _ => True)
        (g := fun b => { b with data := resized 0 b.data }) hAtSource hne
        (fun h => setDataLength_effect h) hCut
      rw [resized_zero] at hW₂
      obtain ⟨hEnough, hW₃⟩ := hW₂.onAccount_set₂_right (P := fun b => _ ≤ b.lamports)
        (g := fun b => { b with lamports := b.lamports - _ }) hAtSource
        (fun h => checkedSubLamports_effect h) hSub
      obtain ⟨-, hW₄⟩ := hW₃.onAccount_set₂_left (P := fun a => a.lamports + _ ≤ maxValue 128)
        (g := fun a => { a with lamports := a.lamports + _ }) hAt hne
        (fun h => checkedAddLamports_effect h) hAdd
      obtain ⟨-, hW₅⟩ := hW₄.onAccount_set₂_left (P := fun a => programDataOffset ≤ a.data.length)
        (g := fun a => { a with data := writeIsDeployed true (writeSlot clockSlot a.data) }) hAt hne
        hMark hUpdate
      exact .inr ⟨_, _, stSource, _, programChecked_of_check hKey hCheckSource,
        by simpa using hDeployedSource, rfl, hEnough, hAt,
        (fun q b b' h => by cases h; exact ⟨hAtSource, hne⟩), hW₅⟩

/-- A `Retract` that returned: the program, a deployed one of the signing authority whose
cooldown has passed, is marked retracted. -/
theorem processInstructionRetract_eq_ok (h : processInstructionRetract clockSlot tc = .ok tc') :
    ∃ ic p a k st, tc.getCurrentInstructionContext = .ok ic ∧ ProgramChecked ic tc a k st ∧
      st.isDeployed = true ∧ saturatingAdd 64 st.slot deploymentCooldownInSlots ≤ clockSlot ∧
      Rewrite ic tc tc' p a { a with data := writeIsDeployed false a.data } none := by
  simp only [processInstructionRetract, bind_eq_ok] at h
  obtain ⟨ic, hIc, program, hProgram, k, hKey, st, hCheck, ⟨⟩, hCooldown, ⟨⟩, hDeployed,
    hUpdate⟩ := h
  have hAt := accountAt_of_tryBorrow hProgram
  obtain ⟨-, hW⟩ := onAccount_at_eq_ok (P := fun a => programDataOffset ≤ a.data.length)
    (g := fun a => { a with data := writeIsDeployed false a.data }) hAt
    (fun h => writeThroughDataMut_effect h) hUpdate
  exact ⟨ic, _, _, k, st, hIc, programChecked_of_check hKey hCheck, by simpa using hDeployed,
    Nat.le_of_not_lt (failIf_eq_ok.mp hCooldown), hAt, (fun _ _ _ h => by cases h), hW⟩

/-- A `TransferAuthority` that returned: the program's authority, which signed, becomes the key of
instruction account 2, which signed too, or nothing when there is no such account. -/
theorem processInstructionTransferAuthority_eq_ok
    (h : processInstructionTransferAuthority tc = .ok tc') :
    ∃ ic p a k st newAuthority, tc.getCurrentInstructionContext = .ok ic ∧
      ProgramChecked ic tc a k st ∧
      (∀ k', newAuthority = some k' →
        instructionAccountKey tc ic 2 = .ok k' ∧ signedAt tc ic 2 k' = true) ∧
      Rewrite ic tc tc' p a { a with data := writeAuthorityAddress newAuthority a.data } none := by
  simp only [processInstructionTransferAuthority, bind_eq_ok] at h
  obtain ⟨ic, hIc, program, hProgram, k, hKey, st, hCheck, ⟨⟩, hNew, hUpdate⟩ := h
  have hAt := accountAt_of_tryBorrow hProgram
  obtain ⟨-, hW⟩ := onAccount_at_eq_ok (P := fun a => programDataOffset ≤ a.data.length)
    (g := fun a => { a with data := writeAuthorityAddress _ a.data }) hAt
    (fun h => writeThroughDataMut_effect h) hUpdate
  refine ⟨ic, _, _, k, st, _, hIc, programChecked_of_check hKey hCheck, fun k' hk' => ?_, hAt,
    (fun _ _ _ h => by cases h), hW⟩
  -- the new authority is the key of instruction account 2, which passed its check
  cases hKey₂ : instructionAccountKey tc ic 2 with
  | error e => simp [hKey₂, Except.toOption] at hk'
  | ok key =>
      simp only [hKey₂, Except.toOption, Option.some.injEq] at hk'
      subst hk'
      simp only [hKey₂, Except.toOption, Option.isSome_some] at hNew
      exact ⟨rfl, signedAt_of_key hKey₂ (checkNewAuthority_eq_ok hNew)⟩

end Handlers

end PutValidator.LoaderV4
