import PutValidator.SystemProgram.Handlers

/-! The account instructions of the system program (`CreateAccount`, `Assign`, `Allocate`,
`Transfer` and their seeded forms) keep the lamports of the instruction's accounts, and change
an account only as far as its key, or the base of its seed, signed for it. What one borrow may
do to an account is said once, by `StepAuthorized`; the debit and the credit of a transfer
follow a borrow by `StepAuthorized.trans`; and the runtime's check of an owner change, made as
the change happens or after the instruction, completes a step to `ChangeAuthorized`. -/
namespace PutValidator

open Lib.Except

/-- `CreateAccount`, `Assign`, `Allocate`, `Transfer` and their seeded forms. -/
def SystemInstruction.isAccountInstruction : SystemInstruction → Bool
  | .createAccount .. | .createAccountWithSeed .. | .assign _ | .assignWithSeed ..
  | .allocate _ | .allocateWithSeed .. | .transfer _ | .transferWithSeed .. => true
  | _ => false

def SystemInstruction.isCreate : SystemInstruction → Bool
  | .createAccount .. | .createAccountWithSeed .. => true
  | _ => false

/-- The seed from which an instruction derives the address of the account it creates, allocates
or assigns. -/
def SystemInstruction.addressSeed : SystemInstruction → Option (Pubkey × List UInt8 × Pubkey)
  | .createAccountWithSeed base seed _ _ owner | .allocateWithSeed base seed _ owner
  | .assignWithSeed base seed owner => some (base, seed, owner)
  | _ => none

/-! ### The lamports of a frame -/

section Sums

variable {accounts : List AccountSharedData} {ic : InstructionContext} {a : AccountSharedData}
  {i k : Nat}

/-- The balance of the account at index `k`, and `0` past the last account. -/
def lamportsAt (accounts : List AccountSharedData) (k : Nat) : Nat :=
  (accounts[k]?.map (·.lamports)).getD 0

/-- The transaction indices of a frame's instruction accounts, each once. -/
def InstructionContext.indicesInTransaction (ic : InstructionContext) : Finset Nat :=
  (ic.instructionAccounts.map (·.indexInTransaction)).toFinset

/-- The lamports of a frame's accounts, each counted once, as `instruction_accounts_lamport_sum`
adds them up. -/
def InstructionContext.lamportSum (ic : InstructionContext) (accounts : List AccountSharedData) :
    Nat :=
  ∑ k ∈ ic.indicesInTransaction, lamportsAt accounts k

theorem lamportsAt_of_getElem? (h : accounts[k]? = some a) : lamportsAt accounts k = a.lamports := by
  simp [lamportsAt, h]

theorem lamportsAt_set_ne (h : i ≠ k) : lamportsAt (accounts.set k a) i = lamportsAt accounts i := by
  simp [lamportsAt, List.getElem?_set_ne (Ne.symm h)]

theorem mem_indicesInTransaction {ia : InstructionAccount}
    (h : ic.instructionAccounts[i]? = some ia) : ia.indexInTransaction ∈ ic.indicesInTransaction :=
  List.mem_toFinset.mpr (List.mem_map_of_mem (List.mem_of_getElem? h))

/-- Writing one account of the frame changes the frame's lamports by the new balance less the
old. -/
theorem lamportSum_set (hk : k ∈ ic.indicesInTransaction) (hLt : k < accounts.length) :
    ic.lamportSum (accounts.set k a) + lamportsAt accounts k = ic.lamportSum accounts + a.lamports := by
  have hRest : ∑ j ∈ ic.indicesInTransaction.erase k, lamportsAt (accounts.set k a) j =
      ∑ j ∈ ic.indicesInTransaction.erase k, lamportsAt accounts j :=
    Finset.sum_congr rfl fun j hj => lamportsAt_set_ne (Finset.ne_of_mem_erase hj)
  have hSelf : lamportsAt (accounts.set k a) k = a.lamports :=
    lamportsAt_of_getElem? (List.getElem?_set_self hLt)
  unfold InstructionContext.lamportSum
  rw [← Finset.add_sum_erase _ _ hk, ← Finset.add_sum_erase _ _ hk, hSelf, hRest]
  omega

end Sums

/-! ### What an instruction may do to one account -/

section Authorized

variable (sha256 : List UInt8 → Hash) (signers : List Pubkey) (instruction : SystemInstruction)
  (key : Pubkey)

/-- What a debit of the account with key `key` needs signed: the account itself or, for
`TransferWithSeed`, the base its address derives from. -/
def DebitSigned : Prop :=
  match instruction with
  | .transferWithSeed _ fromSeed fromOwner =>
      ∃ base ∈ signers, Pubkey.createWithSeed sha256 base fromSeed fromOwner = .ok key
  | _ => key ∈ signers

/-- What a borrow by the instruction may do to the account with key `key`, in a transaction
whose early verification is `early`: debit an account without data, signed for; give the account
a new owner, signed for by its address and, with early verification, checked by `set_owner`;
give data to a system account that had none, signed for by its address. -/
structure StepAuthorized (early : Bool) (a a' : AccountSharedData) : Prop where
  debit : a'.lamports < a.lamports → a.data = [] ∧ DebitSigned sha256 signers instruction key
  owner : a'.owner ≠ a.owner → AddressSigned sha256 signers key instruction.addressSeed ∧
    (early = true → a.owner = systemProgramId ∧ isZeroed a.data = true)
  data : a'.data ≠ a.data → a.owner = systemProgramId ∧ a.data = [] ∧
    a'.data.length ≤ maxPermittedDataLength ∧ AddressSigned sha256 signers key instruction.addressSeed

/-- How an account instruction may change the account with key `key`: lamports leave an account
without data that signed for the debit; the owner changes on a system account with zero data,
signed for by its address; the data length changes on a system account that had no data, within
the permitted length, signed for by its address. -/
structure ChangeAuthorized (a a' : AccountSharedData) : Prop where
  debit : a'.lamports < a.lamports → a.data = [] ∧ DebitSigned sha256 signers instruction key
  owner : a'.owner ≠ a.owner → a.owner = systemProgramId ∧ isZeroed a.data = true ∧
    AddressSigned sha256 signers key instruction.addressSeed
  dataLength : a'.data.length ≠ a.data.length → a.owner = systemProgramId ∧ a.data = [] ∧
    a'.data.length ≤ maxPermittedDataLength ∧ AddressSigned sha256 signers key instruction.addressSeed

variable {sha256 signers instruction key} {early : Bool} {a a₁ a' : AccountSharedData}

theorem ChangeAuthorized.refl : ChangeAuthorized sha256 signers instruction key a a :=
  ⟨fun h => absurd h (lt_irrefl _), fun h => absurd rfl h, fun h => absurd rfl h⟩

namespace StepAuthorized

theorem refl : StepAuthorized sha256 signers instruction key early a a :=
  ⟨fun h => absurd h (lt_irrefl _), fun h => absurd rfl h, fun h => absurd rfl h⟩

/-- The debit of a transfer. -/
theorem of_debit {lamports : Nat} (hData : a.data = [])
    (hSigned : DebitSigned sha256 signers instruction key) :
    StepAuthorized sha256 signers instruction key early a { a with lamports := a.lamports - lamports } :=
  ⟨fun _ => ⟨hData, hSigned⟩, fun h => absurd rfl h, fun h => absurd rfl h⟩

/-- The credit of a transfer. -/
theorem of_credit {lamports : Nat} :
    StepAuthorized sha256 signers instruction key early a { a with lamports := a.lamports + lamports } :=
  ⟨fun h => absurd h (Nat.not_lt.mpr (Nat.le_add_right _ _)), fun h => absurd rfl h,
    fun h => absurd rfl h⟩

/-- A borrow that moved only lamports, after one that may have done more. -/
theorem trans (h₁ : StepAuthorized sha256 signers instruction key early a a₁)
    (h₂ : StepAuthorized sha256 signers instruction key early a₁ a') (hOwner : a'.owner = a₁.owner)
    (hData : a'.data = a₁.data) : StepAuthorized sha256 signers instruction key early a a' := by
  refine ⟨fun hLess => ?_, fun hChanged => h₁.owner (hOwner ▸ hChanged), fun hChanged => ?_⟩
  · by_cases hFirst : a₁.lamports < a.lamports
    · exact h₁.debit hFirst
    · -- the second borrow took the lamports, from data the first left as it was or had none
      obtain ⟨hEmpty, hSigned⟩ := h₂.debit (by omega)
      refine ⟨?_, hSigned⟩
      by_cases hSame : a₁.data = a.data
      · exact hSame ▸ hEmpty
      · exact (h₁.data hSame).2.1
  · rw [hData] at hChanged ⊢
    exact h₁.data hChanged

/-- With the runtime's check of an owner change, made as it happens (early verification) or by
`PreAccount::verify` after the instruction, a step is a change the instruction may make. -/
theorem changeAuthorized (h : StepAuthorized sha256 signers instruction key early a a')
    (hVerified : early = true ∨
      ∃ isWritable rent, PreAccount.verify systemProgramId isWritable rent a a' = .ok ()) :
    ChangeAuthorized sha256 signers instruction key a a' := by
  refine ⟨h.debit, fun hChanged => ?_,
    fun hLength => h.data fun hSame => hLength (congrArg List.length hSame)⟩
  obtain ⟨hSigned, hEarly⟩ := h.owner hChanged
  rcases hVerified with hOn | ⟨isWritable, rent, hCheck⟩
  · exact ⟨(hEarly hOn).1, (hEarly hOn).2, hSigned⟩
  · -- the check after the instruction saw a system account whose data is zero now
    obtain ⟨hProgram, hZeroed⟩ := PreAccount.verify_owner hCheck (Ne.symm hChanged)
    refine ⟨hProgram.symm, ?_, hSigned⟩
    by_cases hSame : a'.data = a.data
    · exact hSame ▸ hZeroed
    · rw [(h.data hSame).2.1]
      rfl

end StepAuthorized

end Authorized

/-! ### The handlers' steps -/

section Borrowed

open BorrowedAccount

variable {sha256 : List UInt8 → Hash} {signers : List Pubkey} {instruction : SystemInstruction}
  {key : Pubkey} {early : Bool} {b b' : BorrowedAccount} {u : Unit} {address : Address}

theorem allocate_stepAuthorized {space : Nat} (h : (allocate address space signers).run b = .ok u b')
    (hSigned : address.isSigner signers = true →
      AddressSigned sha256 signers key instruction.addressSeed) :
    b'.account.lamports = b.account.lamports ∧
      StepAuthorized sha256 signers instruction key early b.account b'.account := by
  obtain ⟨hAddress, hEmpty, hOwner, hSpace, hAccount⟩ := allocate_eq_ok h
  rw [hAccount]
  exact ⟨rfl, ⟨fun hLess => absurd hLess (lt_irrefl _), fun hChanged => absurd rfl hChanged,
    fun _ => ⟨hOwner, hEmpty, by simpa using hSpace, hSigned hAddress⟩⟩⟩

/-- `assign` under early verification: the owner may change only on an account of the frame's
program, which `hOwned` says is the system program. -/
theorem assign_stepAuthorized {owner : Pubkey} (h : (assign address owner signers).run b = .ok u b')
    (hSigned : address.isSigner signers = true →
      AddressSigned sha256 signers key instruction.addressSeed)
    (hOwned : b.isOwnedByCurrentProgram = true → b.account.owner = systemProgramId) :
    b'.account.lamports = b.account.lamports ∧
      StepAuthorized sha256 signers instruction key
        b.transactionContext.isEarlyVerificationOfAccountModificationsEnabled b.account b'.account := by
  obtain ⟨hAccount, hChecked⟩ := assign_eq_ok h
  rw [hAccount]
  refine ⟨rfl, ⟨fun hLess => absurd hLess (lt_irrefl _), fun hChanged => ?_,
    fun hChanged => absurd rfl hChanged⟩⟩
  obtain ⟨hAddress, hEarly⟩ := hChecked (Ne.symm hChanged)
  exact ⟨hSigned hAddress, fun hOn => ⟨hOwned (hEarly hOn).1, (hEarly hOn).2⟩⟩

theorem allocateAndAssign_stepAuthorized {space : Nat} {owner : Pubkey}
    (h : (allocateAndAssign address space owner signers).run b = .ok u b')
    (hSigned : address.isSigner signers = true →
      AddressSigned sha256 signers key instruction.addressSeed) :
    b'.account.lamports = b.account.lamports ∧
      StepAuthorized sha256 signers instruction key early b.account b'.account := by
  obtain ⟨hAddress, hEmpty, hOwner, hSpace, hAccount⟩ := allocateAndAssign_eq_ok h
  rw [hAccount]
  exact ⟨rfl, ⟨fun hLess => absurd hLess (lt_irrefl _),
    fun _ => ⟨hSigned hAddress, fun _ => ⟨hOwner, by rw [hEmpty]; rfl⟩⟩,
    fun _ => ⟨hOwner, hEmpty, by simpa using hSpace, hSigned hAddress⟩⟩⟩

/-- The borrow of the new account in `create_account`: it held no lamports, and was allocated
and assigned. -/
theorem createAccountTo_eq_ok {space : Nat} {owner : Pubkey}
    (h : (do
      Lib.EState.failIf (0 < (← get).getLamports) SystemError.accountAlreadyInUse.toInstructionError
      allocateAndAssign address space owner signers : BorrowedAccountM Unit).run b = .ok u b') :
    b.account.lamports = 0 ∧ (allocateAndAssign address space owner signers).run b = .ok u b' := by
  simp only [Lib.EState.run_bind_eq_ok, EStateM.run_get, EStateM.Result.ok.injEq,
    Lib.EState.run_failIf_eq_ok] at h
  obtain ⟨_, _, ⟨rfl, rfl⟩, _, _, ⟨hEmpty, rfl⟩, h⟩ := h
  exact ⟨by simpa using hEmpty, h⟩

end Borrowed

/-! ### The frame -/

section Frame

variable {sha256 : List UInt8 → Hash} {signers : List Pubkey} {instruction : SystemInstruction}
  {early : Bool} {tc tc₁ tc' : TransactionContext} {ic : InstructionContext} {b : BorrowedAccount}
  {f : BorrowedAccountM Unit} {i k : Nat} {a : AccountSharedData} {key : Pubkey}

/-- A borrow whose every run on the account at index `k` is a step of `P`, for a reflexive `P`,
took that account along `P`. -/
theorem borrowAndRun_step {P : AccountSharedData → AccountSharedData → Prop} (hRefl : ∀ a, P a a)
    (h : borrowAndRun tc ic i f = .ok tc') (hAccount : tc.accounts[k]? = some a)
    (hf : ∀ b b', ic.tryBorrowInstructionAccount tc i = .ok b → b.indexInTransaction = k →
      f.run b = .ok () b' → P b.account b'.account) :
    ∃ a', tc'.accounts[k]? = some a' ∧ P a a' := by
  obtain ⟨-, a', hAt, hSame | ⟨b, b', hBorrow, hIndex, rfl, hRun, rfl⟩⟩ :=
    borrowAndRun_account h hAccount
  · exact ⟨a', hAt, hSame ▸ hRefl a⟩
  · exact ⟨_, hAt, hf b b' hBorrow hIndex hRun⟩

theorem borrowAndRun_keys (h : borrowAndRun tc ic i f = .ok tc') : tc'.accountKeys = tc.accountKeys := by
  obtain ⟨b, b', -, -, rfl⟩ := borrowAndRun_eq_ok h
  rfl

/-- A borrow writes an account of the frame only. -/
theorem borrowAndRun_untouched (h : borrowAndRun tc ic i f = .ok tc')
    (hk : k ∉ ic.indicesInTransaction) : tc'.accounts[k]? = tc.accounts[k]? := by
  obtain ⟨b, b', hBorrow, -, rfl⟩ := borrowAndRun_eq_ok h
  obtain ⟨ia, hIa, -, hb⟩ := tryBorrowInstructionAccount_eq_ok hBorrow
  have hIndex : b.indexInTransaction = ia.indexInTransaction := by rw [hb]
  have hNe : b.indexInTransaction ≠ k := fun hEq =>
    hk (hEq ▸ hIndex ▸ mem_indicesInTransaction hIa)
  exact List.getElem?_set_ne hNe

/-- A borrow changes the frame's lamports by the borrowed account's new balance less its old. -/
theorem borrowAndRun_lamportSum (h : borrowAndRun tc ic i f = .ok tc') :
    ∃ b b', ic.tryBorrowInstructionAccount tc i = .ok b ∧ f.run b = .ok () b' ∧
      ic.lamportSum tc'.accounts + b.account.lamports =
        ic.lamportSum tc.accounts + b'.account.lamports := by
  obtain ⟨b, b', hBorrow, hRun, rfl⟩ := borrowAndRun_eq_ok h
  obtain ⟨ia, hIa, hAccount, hb⟩ := tryBorrowInstructionAccount_eq_ok hBorrow
  have hIndex : b.indexInTransaction = ia.indexInTransaction := by rw [hb]
  have hSet := lamportSum_set (a := b'.account) (mem_indicesInTransaction hIa)
    (List.getElem?_eq_some_iff.mp hAccount).1
  rw [lamportsAt_of_getElem? hAccount] at hSet
  refine ⟨b, b', hBorrow, hRun, ?_⟩
  rw [hIndex]
  exact hSet

/-- The key at the index a borrow of instruction account `i` took is that account's key. -/
theorem accountKey_of_tryBorrow (hBorrow : ic.tryBorrowInstructionAccount tc i = .ok b)
    (hKey₀ : instructionAccountKey tc ic i = .ok key) :
    tc.accountKeys[b.indexInTransaction]? = some key := by
  obtain ⟨ia, hIa, -, hb⟩ := tryBorrowInstructionAccount_eq_ok hBorrow
  obtain ⟨ia', hIa', hKey⟩ := instructionAccountKey_eq_ok hKey₀
  have hSame : ia' = ia := Option.some.inj (hIa'.symm.trans hIa)
  have hIndex : b.indexInTransaction = ia.indexInTransaction := by rw [hb]
  rw [hIndex, ← hSame, hKey]

/-- The address an instruction made of the key of its `i`-th account signs, through `signers`,
for the account a borrow of it took. -/
theorem addressSigned_of_tryBorrow {address : Address} {key₀ : Pubkey}
    {withSeed : Option (Pubkey × List UInt8 × Pubkey)}
    (hKey₀ : instructionAccountKey tc ic i = .ok key₀)
    (hAddress : Address.create sha256 key₀ withSeed = .ok address)
    (hBorrow : ic.tryBorrowInstructionAccount tc i = .ok b)
    (hKey : tc.accountKeys[b.indexInTransaction]? = some key)
    (hSigned : address.isSigner signers = true) : AddressSigned sha256 signers key withSeed := by
  have hSame : key = key₀ := Option.some.inj (hKey.symm.trans (accountKey_of_tryBorrow hBorrow hKey₀))
  exact hSame ▸ Address.addressSigned_of_create hAddress hSigned

/-- An account borrowed from the frame of a program is owned by the current program when it is
that program's. -/
theorem owner_of_isOwnedByCurrentProgram {program : Pubkey}
    (hProgram : ic.getLastProgramKey tc = .ok program)
    (hBorrow : ic.tryBorrowInstructionAccount tc i = .ok b) :
    b.isOwnedByCurrentProgram = true → b.account.owner = program := by
  obtain ⟨ia, -, -, hb⟩ := tryBorrowInstructionAccount_eq_ok hBorrow
  have hFrame : b.instructionContext.getLastProgramKey b.transactionContext = .ok program := by
    rw [hb]
    exact hProgram
  exact (BorrowedAccount.isOwnedByCurrentProgram_iff hFrame).mp

theorem early_of_tryBorrow (hBorrow : ic.tryBorrowInstructionAccount tc i = .ok b) :
    b.transactionContext.isEarlyVerificationOfAccountModificationsEnabled =
      tc.isEarlyVerificationOfAccountModificationsEnabled := by
  obtain ⟨ia, -, -, hb⟩ := tryBorrowInstructionAccount_eq_ok hBorrow
  rw [hb]

theorem transfer_eq_ok {fromIndex toIndex lamports : Nat}
    (h : transfer fromIndex toIndex lamports tc ic = .ok tc') :
    ∃ ia, ic.instructionAccounts[fromIndex]? = some ia ∧ ia.isSigner = true ∧
      transferVerified fromIndex toIndex lamports tc ic = .ok tc' := by
  simp only [transfer, bind_eq_ok, failIf_eq_ok, InstructionContext.isInstructionAccountSigner,
    map_eq_ok, okOr_eq_ok] at h
  obtain ⟨_, ⟨ia, hIa, rfl⟩, -, hSigner, h⟩ := h
  exact ⟨ia, hIa, by simpa using hSigner, h⟩

theorem transferWithSeed_eq_ok {fromIndex fromBaseIndex toIndex lamports : Nat}
    {fromSeed : List UInt8} {fromOwner : Pubkey}
    (h : transferWithSeed sha256 fromIndex fromBaseIndex fromSeed fromOwner toIndex lamports tc ic =
      .ok tc') :
    ∃ iaBase base, ic.instructionAccounts[fromBaseIndex]? = some iaBase ∧ iaBase.isSigner = true ∧
      tc.accountKeys[iaBase.indexInTransaction]? = some base ∧
      ∃ key, instructionAccountKey tc ic fromIndex = .ok key ∧
        Pubkey.createWithSeed sha256 base fromSeed fromOwner = .ok key ∧
        transferVerified fromIndex toIndex lamports tc ic = .ok tc' := by
  simp only [transferWithSeed, bind_eq_ok, failIf_eq_ok, InstructionContext.isInstructionAccountSigner,
    map_eq_ok, okOr_eq_ok, mapError_eq_ok, not_not] at h
  obtain ⟨_, ⟨iaBase, hIaBase, rfl⟩, -, hSigner, base, hBase, derived, hDerived, key, hKey, -,
    hMatch, h⟩ := h
  obtain ⟨ia, hIa, hBaseKey⟩ := instructionAccountKey_eq_ok hBase
  obtain rfl : ia = iaBase := Option.some.inj (hIa.symm.trans hIaBase)
  exact ⟨ia, base, hIa, by simpa using hSigner, hBaseKey, key, hKey, hMatch ▸ hDerived, h⟩

/-- What an account instruction did to the transaction, short of the check of owner changes:
the keys stay, the frame keeps its lamports, the accounts outside the frame are untouched, and
every account took a step the instruction may take. -/
structure AccountEffects (sha256 : List UInt8 → Hash) (signers : List Pubkey)
    (instruction : SystemInstruction) (early : Bool) (ic : InstructionContext)
    (tc tc' : TransactionContext) : Prop where
  keys : tc'.accountKeys = tc.accountKeys
  lamportSum : ic.lamportSum tc'.accounts = ic.lamportSum tc.accounts
  untouched : ∀ k ∉ ic.indicesInTransaction, tc'.accounts[k]? = tc.accounts[k]?
  step : ∀ (k : Nat) (a : AccountSharedData) (key : Pubkey), tc.accounts[k]? = some a →
    tc.accountKeys[k]? = some key →
    ∃ a', tc'.accounts[k]? = some a' ∧ StepAuthorized sha256 signers instruction key early a a'

/-- Between the two transactions only balances changed. -/
def LamportsOnly (tc tc' : TransactionContext) : Prop :=
  ∀ (k : Nat) (a a' : AccountSharedData), tc.accounts[k]? = some a → tc'.accounts[k]? = some a' →
    a'.owner = a.owner ∧ a'.data = a.data

/-- Effects that moved only lamports, after effects that may have done more. -/
theorem AccountEffects.trans (h₁ : AccountEffects sha256 signers instruction early ic tc tc₁)
    (h₂ : AccountEffects sha256 signers instruction early ic tc₁ tc') (hOnly : LamportsOnly tc₁ tc') :
    AccountEffects sha256 signers instruction early ic tc tc' := by
  refine ⟨h₂.keys.trans h₁.keys, h₂.lamportSum.trans h₁.lamportSum,
    fun k hk => (h₂.untouched k hk).trans (h₁.untouched k hk), fun k a key hAccount hKey => ?_⟩
  obtain ⟨a₁, hAt₁, hStep₁⟩ := h₁.step k a key hAccount hKey
  obtain ⟨a', hAt, hStep₂⟩ := h₂.step k a₁ key hAt₁ (h₁.keys ▸ hKey)
  obtain ⟨hOwner, hData⟩ := hOnly k a₁ a' hAt₁ hAt
  exact ⟨a', hAt, hStep₁.trans hStep₂ hOwner hData⟩

/-- One borrow that keeps the balance and takes an authorized step. -/
theorem borrowAndRun_accountEffects (h : borrowAndRun tc ic i f = .ok tc')
    (hKeep : ∀ b b', ic.tryBorrowInstructionAccount tc i = .ok b → f.run b = .ok () b' →
      b'.account.lamports = b.account.lamports)
    (hStep : ∀ b b' key, ic.tryBorrowInstructionAccount tc i = .ok b →
      tc.accountKeys[b.indexInTransaction]? = some key → f.run b = .ok () b' →
      StepAuthorized sha256 signers instruction key early b.account b'.account) :
    AccountEffects sha256 signers instruction early ic tc tc' := by
  refine ⟨borrowAndRun_keys h, ?_, fun k hk => borrowAndRun_untouched h hk,
    fun k a key hAccount hKey => ?_⟩
  · obtain ⟨b, b', hBorrow, hRun, hSum⟩ := borrowAndRun_lamportSum h
    rw [hKeep b b' hBorrow hRun] at hSum
    omega
  · exact borrowAndRun_step (fun _ => .refl) h hAccount fun b b' hBorrow hIndex hRun =>
      hStep b b' key hBorrow (hIndex ▸ hKey) hRun

/-- `transfer_verified`: the payer is debited, then the payee credited, by the same amount. -/
theorem transferVerified_accountEffects {fromIndex toIndex lamports : Nat}
    (h : transferVerified fromIndex toIndex lamports tc ic = .ok tc')
    (hSigned : ∀ ia key, ic.instructionAccounts[fromIndex]? = some ia →
      tc.accountKeys[ia.indexInTransaction]? = some key → DebitSigned sha256 signers instruction key) :
    AccountEffects sha256 signers instruction early ic tc tc' ∧ LamportsOnly tc tc' := by
  simp only [transferVerified, bind_eq_ok] at h
  obtain ⟨tc₁, hFrom, hTo⟩ := h
  have hKeys₁ := borrowAndRun_keys hFrom
  -- each account is debited if it pays, then credited if it is paid
  have hAccountStep : ∀ (k : Nat) (a : AccountSharedData), tc.accounts[k]? = some a →
      ∃ a', tc'.accounts[k]? = some a' ∧
      a'.owner = a.owner ∧ a'.data = a.data ∧ ∀ key, tc.accountKeys[k]? = some key →
        StepAuthorized sha256 signers instruction key early a a' := by
    intro k a hAccount
    obtain ⟨a₁, hAt₁, hOwner₁, hData₁, hStep₁⟩ := borrowAndRun_step
      (P := fun a a' => a'.owner = a.owner ∧ a'.data = a.data ∧ ∀ key,
        tc.accountKeys[k]? = some key → StepAuthorized sha256 signers instruction key early a a')
      (fun _ => ⟨rfl, rfl, fun _ _ => .refl⟩) hFrom hAccount fun b b' hBorrow hIndex hRun => by
        obtain ⟨hData, -, hDebit⟩ := transferVerifiedFrom_eq_ok hRun
        obtain ⟨ia, hIa, -, hb⟩ := tryBorrowInstructionAccount_eq_ok hBorrow
        have hAt : b.indexInTransaction = ia.indexInTransaction := by rw [hb]
        rw [hDebit]
        exact ⟨rfl, rfl, fun key hKey =>
          .of_debit hData (hSigned ia key hIa (hAt ▸ hIndex ▸ hKey))⟩
    obtain ⟨a', hAt, hOwner, hData, hStep₂⟩ := borrowAndRun_step
      (P := fun a a' => a'.owner = a.owner ∧ a'.data = a.data ∧ ∀ key,
        tc.accountKeys[k]? = some key → StepAuthorized sha256 signers instruction key early a a')
      (fun _ => ⟨rfl, rfl, fun _ _ => .refl⟩) hTo hAt₁ fun _ _ _ _ hRun => by
        rw [(BorrowedAccount.checkedAddLamports_eq_ok hRun).2]
        exact ⟨rfl, rfl, fun _ _ => .of_credit⟩
    exact ⟨a', hAt, hOwner.trans hOwner₁, hData.trans hData₁, fun key hKey =>
      (hStep₁ key hKey).trans (hStep₂ key hKey) hOwner hData⟩
  refine ⟨⟨(borrowAndRun_keys hTo).trans hKeys₁, ?_,
    fun k hk => (borrowAndRun_untouched hTo hk).trans (borrowAndRun_untouched hFrom hk),
    fun k a key hAccount hKey => ?_⟩, fun k a a' hAccount hAt => ?_⟩
  · -- the debit and the credit are of one amount
    obtain ⟨b, b', -, hRun, hSum₁⟩ := borrowAndRun_lamportSum hFrom
    obtain ⟨c, c', -, hRun', hSum₂⟩ := borrowAndRun_lamportSum hTo
    obtain ⟨-, hCovered, hDebit⟩ := transferVerifiedFrom_eq_ok hRun
    obtain ⟨-, hCredit⟩ := BorrowedAccount.checkedAddLamports_eq_ok hRun'
    rw [hDebit] at hSum₁
    rw [hCredit] at hSum₂
    dsimp only at hSum₁ hSum₂
    omega
  · obtain ⟨a', hAt, -, -, hStep⟩ := hAccountStep k a hAccount
    exact ⟨a', hAt, hStep key hKey⟩
  · obtain ⟨a'', hAt', hOwner, hData, -⟩ := hAccountStep k a hAccount
    obtain rfl : a'' = a' := Option.some.inj (hAt'.symm.trans hAt)
    exact ⟨hOwner, hData⟩

/-- `create_account`: the new account, which held no lamports, is allocated and assigned, then
funded by a signed transfer. -/
theorem createAccount_accountEffects {fromIndex toIndex lamports space : Nat} {address : Address}
    {owner : Pubkey}
    (h : createAccount fromIndex toIndex address lamports space owner signers tc ic = .ok tc')
    (hAddress : ∀ b key, ic.tryBorrowInstructionAccount tc toIndex = .ok b →
      tc.accountKeys[b.indexInTransaction]? = some key → address.isSigner signers = true →
      AddressSigned sha256 signers key instruction.addressSeed)
    (hSigned : ∀ ia key, ic.instructionAccounts[fromIndex]? = some ia → ia.isSigner = true →
      tc.accountKeys[ia.indexInTransaction]? = some key → DebitSigned sha256 signers instruction key) :
    AccountEffects sha256 signers instruction early ic tc tc' ∧
      ∃ ia a, ic.instructionAccounts[toIndex]? = some ia ∧ tc.accounts[ia.indexInTransaction]? = some a ∧
        a.lamports = 0 := by
  simp only [createAccount, bind_eq_ok] at h
  obtain ⟨tc₁, hTo, hTransfer⟩ := h
  have hEffects₁ : AccountEffects sha256 signers instruction early ic tc tc₁ :=
    borrowAndRun_accountEffects hTo
      (fun b b' _ hRun => by rw [(allocateAndAssign_eq_ok (createAccountTo_eq_ok hRun).2).2.2.2.2])
      fun b b' key hBorrow hKey hRun => (allocateAndAssign_stepAuthorized
        (createAccountTo_eq_ok hRun).2 (hAddress b key hBorrow hKey)).2
  obtain ⟨b, b', hBorrow, hRun, -⟩ := borrowAndRun_eq_ok hTo
  obtain ⟨ia, hIa, hAccount, -⟩ := tryBorrowInstructionAccount_eq_ok hBorrow
  obtain ⟨iaFrom, hIaFrom, hSigner, hVerified⟩ := transfer_eq_ok hTransfer
  obtain ⟨hEffects₂, hOnly⟩ : AccountEffects sha256 signers instruction early ic tc₁ tc' ∧
      LamportsOnly tc₁ tc' := transferVerified_accountEffects hVerified
    fun ia' key hIa' hKey => by
      obtain rfl : iaFrom = ia' := Option.some.inj (hIaFrom.symm.trans hIa')
      exact hSigned iaFrom key hIaFrom hSigner (hEffects₁.keys ▸ hKey)
  exact ⟨hEffects₁.trans hEffects₂ hOnly, ia, b.account, hIa, hAccount,
    (createAccountTo_eq_ok hRun).1⟩

/-- What an account instruction that returned did, by the shape of its handler: one borrow of
its account (`Allocate`, `Assign` and their seeded forms), a transfer, or the creation of an
account and its funding. -/
theorem processInstruction_accountEffects {invokeContext : SystemInvokeContext}
    (hInstruction : instruction.isAccountInstruction = true)
    (hIc : tc.getCurrentInstructionContext = .ok ic) (hSigners : ic.getSigners tc = .ok signers)
    (hProgram : ic.getLastProgramKey tc = .ok systemProgramId)
    (h : processInstruction sha256 invokeContext instruction tc = .ok tc') :
    AccountEffects sha256 signers instruction tc.isEarlyVerificationOfAccountModificationsEnabled
        ic tc tc' ∧
      (instruction.isCreate = true → ∃ ia a, ic.instructionAccounts[1]? = some ia ∧
        tc.accounts[ia.indexInTransaction]? = some a ∧ a.lamports = 0) := by
  simp only [processInstruction, bind_eq_ok] at h
  obtain ⟨ic', hIc', signers', hSigners', h⟩ := h
  obtain rfl : ic = ic' := Except.ok.inj (hIc.symm.trans hIc')
  obtain rfl : signers = signers' := Except.ok.inj (hSigners.symm.trans hSigners')
  -- the payer of a transfer signs for its debit
  have hPayer : ∀ ia key, ic.instructionAccounts[0]? = some ia → ia.isSigner = true →
      tc.accountKeys[ia.indexInTransaction]? = some key → key ∈ signers :=
    fun ia key hIa hSigner hKey => mem_of_getSigners hSigners hIa hSigner hKey
  -- the one borrow of `Allocate` and `Assign` keeps the balance
  have hAssign : ∀ {address : Address} {owner : Pubkey} {key₀ : Pubkey},
      instructionAccountKey tc ic 0 = .ok key₀ →
      Address.create sha256 key₀ instruction.addressSeed = .ok address →
      borrowAndRun tc ic 0 (assign address owner signers) = .ok tc' →
      AccountEffects sha256 signers instruction tc.isEarlyVerificationOfAccountModificationsEnabled
        ic tc tc' := fun hKey₀ hAddress h =>
    borrowAndRun_accountEffects h (fun b b' _ hRun => by rw [(assign_eq_ok hRun).1])
      fun b b' key hBorrow hKey hRun => early_of_tryBorrow hBorrow ▸ (assign_stepAuthorized hRun
        (addressSigned_of_tryBorrow hKey₀ hAddress hBorrow hKey)
        (owner_of_isOwnedByCurrentProgram hProgram hBorrow)).2
  cases instruction
  -- the plain and seeded forms differ only in how the address is derived
  case createAccount lamports space owner | createAccountWithSeed base seed lamports space owner =>
    simp only [bind_eq_ok] at h
    obtain ⟨-, -, key₀, hKey₀, address, hAddress, h⟩ := h
    refine And.imp_right (fun hZero _ => hZero) ?_
    exact createAccount_accountEffects h
      (fun b key hBorrow hKey => addressSigned_of_tryBorrow hKey₀ hAddress hBorrow hKey) hPayer
  case assign owner | assignWithSeed base seed owner =>
    simp only [bind_eq_ok] at h
    obtain ⟨-, -, -, -, key₀, hKey₀, address, hAddress, h⟩ := h
    exact ⟨hAssign hKey₀ hAddress h, by simp [SystemInstruction.isCreate]⟩
  case allocate space =>
    simp only [bind_eq_ok] at h
    obtain ⟨-, -, -, -, key₀, hKey₀, address, hAddress, h⟩ := h
    refine ⟨borrowAndRun_accountEffects h
      (fun b b' _ hRun => by rw [(allocate_eq_ok hRun).2.2.2.2]) fun b b' key hBorrow hKey hRun =>
        (allocate_stepAuthorized hRun (addressSigned_of_tryBorrow hKey₀ hAddress hBorrow hKey)).2,
      by simp [SystemInstruction.isCreate]⟩
  case allocateWithSeed base seed space owner =>
    simp only [bind_eq_ok] at h
    obtain ⟨-, -, -, -, key₀, hKey₀, address, hAddress, h⟩ := h
    refine ⟨borrowAndRun_accountEffects h
      (fun b b' _ hRun => by rw [(allocateAndAssign_eq_ok hRun).2.2.2.2])
      fun b b' key hBorrow hKey hRun => (allocateAndAssign_stepAuthorized hRun
        (addressSigned_of_tryBorrow hKey₀ hAddress hBorrow hKey)).2,
      by simp [SystemInstruction.isCreate]⟩
  case transfer lamports =>
    simp only [bind_eq_ok] at h
    obtain ⟨-, -, h⟩ := h
    obtain ⟨ia, hIa, hSigner, hVerified⟩ := transfer_eq_ok h
    refine ⟨(transferVerified_accountEffects hVerified fun ia' key hIa' hKey => ?_).1,
      by simp [SystemInstruction.isCreate]⟩
    obtain rfl : ia = ia' := Option.some.inj (hIa.symm.trans hIa')
    exact hPayer ia key hIa hSigner hKey
  case transferWithSeed lamports fromSeed fromOwner =>
    simp only [bind_eq_ok] at h
    obtain ⟨-, -, h⟩ := h
    obtain ⟨iaBase, base, hIaBase, hBaseSigner, hBaseKey, key₀, hKey₀, hDerived, hVerified⟩ :=
      transferWithSeed_eq_ok h
    refine ⟨(transferVerified_accountEffects hVerified fun ia key hIa hKey => ?_).1,
      by simp [SystemInstruction.isCreate]⟩
    -- the payer's key is the address its seed derives from the signing base
    obtain ⟨ia', hIa', hKey'⟩ := instructionAccountKey_eq_ok hKey₀
    obtain rfl : ia = ia' := Option.some.inj (hIa.symm.trans hIa')
    obtain rfl : key = key₀ := Option.some.inj (hKey.symm.trans hKey')
    exact ⟨base, mem_of_getSigners hSigners hIaBase hBaseSigner hBaseKey, hDerived⟩
  all_goals simp [SystemInstruction.isAccountInstruction] at hInstruction

end Frame

/-! ### The check after the instruction, and what an instruction that passes it did -/

/-- The runtime's check of a frame's accounts once its program returned: with early verification
every change was checked as it was made; without, `PreAccount::verify` under the frame's program
passed for each account of the frame, through one of its entries. -/
def AccountsVerified (programId : Pubkey) (rent : Rent) (ic : InstructionContext)
    (tc tc' : TransactionContext) : Prop :=
  tc.isEarlyVerificationOfAccountModificationsEnabled = true ∨
    ∀ k ∈ ic.indicesInTransaction, ∃ ia ∈ ic.instructionAccounts, ia.indexInTransaction = k ∧
      ∀ pre post, tc.accounts[k]? = some pre → tc'.accounts[k]? = some post →
        PreAccount.verify programId ia.isWritable rent pre post = .ok ()

/-- The account instructions of the system program conserve lamports and act only with the
owner's signature. `CreateAccount`, `Assign`, `Allocate`, `Transfer` or a seeded form, run by the
system program on the current frame, with signers `signers`, that returned and passed the
runtime's check of its accounts: (a) the frame's accounts keep their lamports; (b) to (d) every
account changed only as `ChangeAuthorized` allows; (e) the account a creation funds held no
lamports. -/
theorem account_instructions_conserve_and_sign {sha256 : List UInt8 → Hash}
    {invokeContext : SystemInvokeContext} {instruction : SystemInstruction}
    {tc tc' : TransactionContext} {ic : InstructionContext} {signers : List Pubkey} {rent : Rent}
    (hInstruction : instruction.isAccountInstruction = true)
    (hIc : tc.getCurrentInstructionContext = .ok ic) (hSigners : ic.getSigners tc = .ok signers)
    (hProgram : ic.getLastProgramKey tc = .ok systemProgramId)
    (h : processInstruction sha256 invokeContext instruction tc = .ok tc')
    (hVerified : AccountsVerified systemProgramId rent ic tc tc') :
    ic.lamportSum tc'.accounts = ic.lamportSum tc.accounts ∧
      (∀ (k : Nat) (a a' : AccountSharedData) (key : Pubkey), tc.accounts[k]? = some a →
        tc'.accounts[k]? = some a' →
        tc.accountKeys[k]? = some key → ChangeAuthorized sha256 signers instruction key a a') ∧
      (instruction.isCreate = true → ∃ ia a, ic.instructionAccounts[1]? = some ia ∧
        tc.accounts[ia.indexInTransaction]? = some a ∧ a.lamports = 0) := by
  obtain ⟨hEffects, hCreate⟩ :=
    processInstruction_accountEffects hInstruction hIc hSigners hProgram h
  refine ⟨hEffects.lamportSum, fun k a a' key hAccount hAt hKey => ?_, hCreate⟩
  obtain ⟨a₁, hAt₁, hStep⟩ := hEffects.step k a key hAccount hKey
  have hSame : a₁ = a' := Option.some.inj (hAt₁.symm.trans hAt)
  rw [← hSame]
  by_cases hk : k ∈ ic.indicesInTransaction
  · refine hStep.changeAuthorized ?_
    rcases hVerified with hOn | hChecked
    · exact .inl hOn
    · obtain ⟨ia, -, -, hCheck⟩ := hChecked k hk
      exact .inr ⟨ia.isWritable, rent, hCheck a a₁ hAccount hAt₁⟩
  · -- an account outside the frame is untouched
    have hUntouched : a₁ = a :=
      Option.some.inj (hAt₁.symm.trans ((hEffects.untouched k hk).trans hAccount))
    rw [hUntouched]
    exact .refl

/-- A key of 32 equal bytes. -/
def uniformKey (byte : UInt8) : Pubkey := ⟨Vector.replicate 32 byte⟩

/-- A system frame over a payer, signing, with 500 lamports, and an empty payee, under early
verification. -/
def transferContext : TransactionContext :=
  ⟨[uniformKey 1, uniformKey 2, systemProgramId],
    [⟨500, [], systemProgramId, false, 0⟩, ⟨0, [], systemProgramId, false, 0⟩,
      ⟨1, [], nativeLoaderId, true, 0⟩], 64, 64,
    [⟨0, 0, [2], [⟨0, 0, 0, true, true⟩, ⟨1, 1, 1, false, true⟩], []⟩], 1, 0,
    some ⟨3480, .finite 2 0, 50⟩, false⟩

def transferFrame : InstructionContext :=
  ⟨0, 0, [2], [⟨0, 0, 0, true, true⟩, ⟨1, 1, 1, false, true⟩], []⟩

def transferInvokeContext : SystemInvokeContext :=
  ⟨⟨Vector.replicate 32 0⟩, 5000, by decide, none, none⟩

/-- The frame after `Transfer` of 100 lamports. -/
def transferAfter : TransactionContext :=
  (processInstruction (fun _ => ⟨Vector.replicate 32 0⟩) transferInvokeContext (.transfer 100)
    transferContext).toOption.getD transferContext

theorem account_instructions_conserve_and_sign_transfer :
    (SystemInstruction.transfer 100).isAccountInstruction = true ∧
    transferContext.getCurrentInstructionContext = .ok transferFrame ∧
    transferFrame.getSigners transferContext = .ok [uniformKey 1] ∧
    transferFrame.getLastProgramKey transferContext = .ok systemProgramId ∧
    processInstruction (fun _ => ⟨Vector.replicate 32 0⟩) transferInvokeContext (.transfer 100)
      transferContext = .ok transferAfter ∧
    AccountsVerified systemProgramId ⟨3480, .finite 2 0, 50⟩ transferFrame transferContext transferAfter ∧
    (transferFrame.lamportSum transferAfter.accounts = transferFrame.lamportSum transferContext.accounts ∧
      (∀ (k : Nat) (a a' : AccountSharedData) (key : Pubkey), transferContext.accounts[k]? = some a →
        transferAfter.accounts[k]? = some a' →
        transferContext.accountKeys[k]? = some key →
          ChangeAuthorized (fun _ => ⟨Vector.replicate 32 0⟩) [uniformKey 1] (.transfer 100) key a a') ∧
      ((SystemInstruction.transfer 100).isCreate = true → ∃ ia a,
        transferFrame.instructionAccounts[1]? = some ia ∧
        transferContext.accounts[ia.indexInTransaction]? = some a ∧ a.lamports = 0)) := by
  have h : processInstruction (fun _ => ⟨Vector.replicate 32 0⟩) transferInvokeContext
      (.transfer 100) transferContext = .ok transferAfter :=
    Lib.Except.eq_ok_toOption_getD (by decide +kernel) _
  have hVerified : AccountsVerified systemProgramId ⟨3480, .finite 2 0, 50⟩ transferFrame transferContext
      transferAfter := .inl rfl
  exact ⟨rfl, rfl, rfl, rfl, h, hVerified,
    account_instructions_conserve_and_sign rfl rfl rfl rfl h hVerified⟩

end PutValidator
