import PutValidator.Sdk.Errors
import PutValidator.Sdk.Primitives
import PutValidator.Lib.Binary64
import PutValidator.Lib.Except
import PutValidator.Lib.Word

/-! The accounts of a transaction and the stack of instruction frames over them
(`sdk/src/transaction_context.rs`). A frame (`InstructionContext`) names its program accounts and
its instruction accounts by their index in the transaction, with the signer and writable flags
the frame grants them. The source keeps every frame ever pushed in `instruction_trace` and the
indices of the live ones in `instruction_stack`; the model keeps the live frames themselves,
oldest first, and the number of frames pushed so far. A `BorrowedAccount` is an account taken
out of the transaction together with the frame that borrowed it; borrow conflicts of the
`RefCell`s are not modelled. -/
namespace PutValidator

open Lib.Except Lib.Word Lib.Binary64

/-- `AccountSharedData` (`sdk/src/account.rs`); lamports are `u128`. -/
structure AccountSharedData where
  lamports : Nat
  data : List UInt8
  owner : Pubkey
  executable : Bool
  rentEpoch : Nat
deriving DecidableEq, Repr

/-- `Rent` (`sdk/program/src/rent.rs`), with a non-negative `f64` exemption threshold. -/
structure Rent where
  lamportsPerByteYear : Nat
  exemptionThreshold : F64
  burnPercent : UInt8

/-- `ACCOUNT_STORAGE_OVERHEAD`. -/
def accountStorageOverhead : Nat := 128

/-- `Rent::minimum_balance`: the `u128` product, through an `f64`, back to `u128`. -/
def Rent.minimumBalance (rent : Rent) (dataLen : Nat) : Nat :=
  (F64.ofNat ((accountStorageOverhead + dataLen) * rent.lamportsPerByteYear % 2 ^ 128) *
    rent.exemptionThreshold).toNatSat 128

def Rent.isExempt (rent : Rent) (balance dataLen : Nat) : Bool :=
  decide (rent.minimumBalance dataLen ≤ balance)

/-- `MAX_PERMITTED_DATA_LENGTH` (`sdk/program/src/system_instruction.rs`). -/
def maxPermittedDataLength : Nat := 10 * 1024 * 1024

/-- `MAX_PERMITTED_ACCOUNTS_DATA_ALLOCATIONS_PER_TRANSACTION`. -/
def maxPermittedAccountsDataAllocationsPerTransaction : Int := maxPermittedDataLength * 2

/-- `is_zeroed`. The source compares the data with a buffer of zeros 1024 bytes at a time and
then the remainder; both compare every byte with zero. -/
def isZeroed (buf : List UInt8) : Bool := buf.all (· == 0)

structure InstructionAccount where
  indexInTransaction : Nat
  indexInCaller : Nat
  indexInCallee : Nat
  isSigner : Bool
  isWritable : Bool
deriving DecidableEq, Repr

/-- Where an instruction account points: its index in the transaction and in the caller's
frame. -/
def InstructionAccount.indices (ia : InstructionAccount) : Nat × Nat :=
  (ia.indexInTransaction, ia.indexInCaller)

structure InstructionContext where
  nestingLevel : Nat
  instructionAccountsLamportSum : Nat
  programAccounts : List Nat
  instructionAccounts : List InstructionAccount
  instructionData : List UInt8
deriving DecidableEq, Repr

/-- `InstructionContext::configure` on the empty context the trace keeps for the next
instruction. -/
def InstructionContext.configure (programAccounts : List Nat)
    (instructionAccounts : List InstructionAccount) (instructionData : List UInt8) :
    InstructionContext :=
  ⟨0, 0, programAccounts, instructionAccounts, instructionData⟩

structure TransactionContext where
  accountKeys : List Pubkey
  accounts : List AccountSharedData
  instructionStackCapacity : Nat
  instructionTraceCapacity : Nat
  /-- The live frames, the current one last. -/
  instructionStack : List InstructionContext
  /-- `get_instruction_trace_length()`: the frames pushed so far. -/
  instructionTraceLength : Nat
  accountsResizeDelta : Int
  rent : Option Rent
  isCapAccountsDataAllocationsPerTransactionEnabled : Bool

namespace InstructionContext

variable (ic : InstructionContext) (tc : TransactionContext)

def getNumberOfProgramAccounts : Nat := ic.programAccounts.length

def getNumberOfInstructionAccounts : Nat := ic.instructionAccounts.length

/-- `find_index_of_instruction_account`: the first instruction account with this key. -/
def findIndexOfInstructionAccount (pubkey : Pubkey) : Option Nat :=
  ic.instructionAccounts.findIdx? fun ia => tc.accountKeys[ia.indexInTransaction]? == some pubkey

def getIndexOfProgramAccountInTransaction (programAccountIndex : Nat) :
    Except InstructionError Nat :=
  okOr ic.programAccounts[programAccountIndex]? .notEnoughAccountKeys

def getIndexOfInstructionAccountInTransaction (instructionAccountIndex : Nat) :
    Except InstructionError Nat :=
  (okOr ic.instructionAccounts[instructionAccountIndex]? .notEnoughAccountKeys).map
    (·.indexInTransaction)

/-- `is_instruction_account_duplicate`: the index of the first occurrence, for a later one. -/
def isInstructionAccountDuplicate (instructionAccountIndex : Nat) :
    Except InstructionError (Option Nat) := do
  let ia ← okOr ic.instructionAccounts[instructionAccountIndex]? .notEnoughAccountKeys
  pure (if ia.indexInCallee = instructionAccountIndex then none else some ia.indexInCallee)

def isInstructionAccountSigner (instructionAccountIndex : Nat) : Except InstructionError Bool :=
  (okOr ic.instructionAccounts[instructionAccountIndex]? .missingAccount).map (·.isSigner)

def isInstructionAccountWritable (instructionAccountIndex : Nat) : Except InstructionError Bool :=
  (okOr ic.instructionAccounts[instructionAccountIndex]? .missingAccount).map (·.isWritable)

end InstructionContext

namespace TransactionContext

variable (tc : TransactionContext)

def getNumberOfAccounts : Nat := tc.accounts.length

def getKeyOfAccountAtIndex (indexInTransaction : Nat) : Except InstructionError Pubkey :=
  okOr tc.accountKeys[indexInTransaction]? .notEnoughAccountKeys

def getAccountAtIndex (indexInTransaction : Nat) : Except InstructionError AccountSharedData :=
  okOr tc.accounts[indexInTransaction]? .notEnoughAccountKeys

/-- `find_index_of_account`: the first account with this key. -/
def findIndexOfAccount (pubkey : Pubkey) : Option Nat :=
  tc.accountKeys.findIdx? (· == pubkey)

def getInstructionContextStackHeight : Nat := tc.instructionStack.length

def getInstructionContextAtNestingLevel (nestingLevel : Nat) :
    Except InstructionError InstructionContext :=
  okOr tc.instructionStack[nestingLevel]? .callDepth

def getCurrentInstructionContext : Except InstructionError InstructionContext :=
  okOr tc.instructionStack.getLast? .callDepth

def isEarlyVerificationOfAccountModificationsEnabled : Bool := tc.rent.isSome

/-- `instruction_accounts_lamport_sum`: the lamports of the frame's accounts, each counted
once, as a checked `u128` sum; `0` without early verification. -/
def instructionAccountsLamportSum (ic : InstructionContext) : Except InstructionError Nat :=
  if !tc.isEarlyVerificationOfAccountModificationsEnabled then pure 0
  else
    List.foldlM (fun sum index => do
        match ← ic.isInstructionAccountDuplicate index with
        | some _ => pure sum
        | none =>
            let indexInTransaction ← ic.getIndexOfInstructionAccountInTransaction index
            let account ← tc.getAccountAtIndex indexInTransaction
            okOr (checkedAdd 128 account.lamports sum) .arithmeticOverflow)
      0 (List.range ic.getNumberOfInstructionAccounts)

/-- `TransactionContext::push` of the configured context `next`: the lamports of the caller's
accounts must not have changed since it was pushed, and the trace and the stack must have
room. -/
def push (next : InstructionContext) : Except InstructionError TransactionContext := do
  let nestingLevel := tc.getInstructionContextStackHeight
  let calleeInstructionAccountsLamportSum ← tc.instructionAccountsLamportSum next
  if !tc.instructionStack.isEmpty && tc.isEarlyVerificationOfAccountModificationsEnabled then
    let caller ← tc.getCurrentInstructionContext
    let current ← tc.instructionAccountsLamportSum caller
    failIf (caller.instructionAccountsLamportSum ≠ current) .unbalancedInstruction
  let indexInTrace := tc.instructionTraceLength
  failIf (tc.instructionTraceCapacity ≤ indexInTrace) .maxInstructionTraceLengthExceeded
  failIf (tc.instructionStackCapacity ≤ nestingLevel) .callDepth
  pure { tc with
    instructionStack := tc.instructionStack ++
      [{ next with nestingLevel := nestingLevel
                   instructionAccountsLamportSum := calleeInstructionAccountsLamportSum }]
    instructionTraceLength := indexInTrace + 1 }

/-- `TransactionContext::pop`: with early verification, the frame's lamports must balance.
The source pops in every case and returns the error after; an error ends the transaction, so
the model returns it alone. -/
def pop : Except InstructionError TransactionContext := do
  failIf (tc.instructionStack.isEmpty = true) .callDepth
  let detectedAnUnbalancedInstruction ←
    if tc.isEarlyVerificationOfAccountModificationsEnabled then do
      let ic ← tc.getCurrentInstructionContext
      let sum ← tc.instructionAccountsLamportSum ic
      pure (decide (ic.instructionAccountsLamportSum ≠ sum))
    else pure false
  failIf (detectedAnUnbalancedInstruction = true) .unbalancedInstruction
  pure { tc with instructionStack := tc.instructionStack.dropLast }

end TransactionContext

/-- An account borrowed through a frame: its index in the transaction, its index in the frame
(program accounts first), and the account itself. -/
structure BorrowedAccount where
  transactionContext : TransactionContext
  instructionContext : InstructionContext
  indexInTransaction : Nat
  indexInInstruction : Nat
  account : AccountSharedData

namespace InstructionContext

variable (ic : InstructionContext) (tc : TransactionContext)

def tryBorrowAccount (indexInTransaction indexInInstruction : Nat) :
    Except InstructionError BorrowedAccount := do
  let account ← okOr tc.accounts[indexInTransaction]? .missingAccount
  pure ⟨tc, ic, indexInTransaction, indexInInstruction, account⟩

def tryBorrowProgramAccount (programAccountIndex : Nat) :
    Except InstructionError BorrowedAccount := do
  let indexInTransaction ← ic.getIndexOfProgramAccountInTransaction programAccountIndex
  ic.tryBorrowAccount tc indexInTransaction programAccountIndex

def tryBorrowLastProgramAccount : Except InstructionError BorrowedAccount :=
  ic.tryBorrowProgramAccount tc (ic.getNumberOfProgramAccounts - 1)

def tryBorrowInstructionAccount (instructionAccountIndex : Nat) :
    Except InstructionError BorrowedAccount := do
  let indexInTransaction ← ic.getIndexOfInstructionAccountInTransaction instructionAccountIndex
  ic.tryBorrowAccount tc indexInTransaction
    (ic.getNumberOfProgramAccounts + instructionAccountIndex)

/-- `check_number_of_instruction_accounts`. -/
def checkNumberOfInstructionAccounts (expectedAtLeast : Nat) : Except InstructionError Unit :=
  failIf (ic.getNumberOfInstructionAccounts < expectedAtLeast) .notEnoughAccountKeys

/-- `get_signers`: the keys of the signer instruction accounts, as a set. -/
def getSigners : Except InstructionError (List Pubkey) :=
  (ic.instructionAccounts.filter (·.isSigner)).mapM fun ia =>
    tc.getKeyOfAccountAtIndex ia.indexInTransaction

/-- `get_last_program_key`. -/
def getLastProgramKey : Except InstructionError Pubkey := do
  let indexInTransaction ←
    ic.getIndexOfProgramAccountInTransaction (ic.getNumberOfProgramAccounts - 1)
  tc.getKeyOfAccountAtIndex indexInTransaction

end InstructionContext

namespace BorrowedAccount

variable (b : BorrowedAccount)

/-- `get_key`, which unwraps the key lookup: the keys and the accounts of a transaction are the
two halves of one list, so a borrowed account has a key. -/
def getKey : Pubkey := (b.transactionContext.accountKeys[b.indexInTransaction]?).getD default

def getOwner : Pubkey := b.account.owner

def getLamports : Nat := b.account.lamports

def getData : List UInt8 := b.account.data

def isExecutable : Bool := b.account.executable

def isSigner : Bool :=
  if b.indexInInstruction < b.instructionContext.getNumberOfProgramAccounts then false
  else
    match b.instructionContext.isInstructionAccountSigner
        (b.indexInInstruction - b.instructionContext.getNumberOfProgramAccounts) with
    | .ok isSigner => isSigner
    | .error _ => false

def isWritable : Bool :=
  if b.indexInInstruction < b.instructionContext.getNumberOfProgramAccounts then false
  else
    match b.instructionContext.isInstructionAccountWritable
        (b.indexInInstruction - b.instructionContext.getNumberOfProgramAccounts) with
    | .ok isWritable => isWritable
    | .error _ => false

/-- `is_owned_by_current_program`: the owner is the frame's last program. -/
def isOwnedByCurrentProgram : Bool :=
  match b.instructionContext.getLastProgramKey b.transactionContext with
  | .ok key => key == b.getOwner
  | .error _ => false

end BorrowedAccount


/-! ### What the frame operations do -/

namespace TransactionContext

variable {tc tc' : TransactionContext}

@[simp] theorem getCurrentInstructionContext_eq_ok {ic : InstructionContext} :
    tc.getCurrentInstructionContext = .ok ic ↔ tc.instructionStack.getLast? = some ic :=
  okOr_eq_ok

/-- A successful push appends the configured frame and changes nothing else that the frames
read. -/
theorem push_eq_ok {next : InstructionContext} (h : tc.push next = .ok tc') :
    ∃ sum, tc' = { tc with
      instructionStack := tc.instructionStack ++
        [{ next with nestingLevel := tc.instructionStack.length
                     instructionAccountsLamportSum := sum }]
      instructionTraceLength := tc.instructionTraceLength + 1 } := by
  unfold push at h
  simp only [bind_eq_ok] at h
  obtain ⟨sum, -, h⟩ := h
  refine ⟨sum, ?_⟩
  -- the lamport check of the caller only refuses
  split at h
  · simp only [bind_eq_ok, pure_eq_ok] at h
    obtain ⟨-, -, -, -, -, -, -, -, -, -, rfl⟩ := h
    rfl
  · simp only [bind_eq_ok, pure_eq_ok] at h
    obtain ⟨-, -, -, -, rfl⟩ := h
    rfl

/-- A successful pop drops the current frame. -/
theorem pop_eq_ok (h : tc.pop = .ok tc') :
    tc' = { tc with instructionStack := tc.instructionStack.dropLast } := by
  unfold pop at h
  simp only [bind_eq_ok] at h
  obtain ⟨-, -, h⟩ := h
  -- the balance check only refuses
  split at h
  · simp only [bind_eq_ok, pure_eq_ok] at h
    obtain ⟨-, -, -, -, -, -, -, -, rfl⟩ := h
    rfl
  · simp only [bind_eq_ok, pure_eq_ok] at h
    obtain ⟨-, -, -, -, rfl⟩ := h
    rfl

/-- The index `find_index_of_account` returns holds the key. -/
theorem findIndexOfAccount_eq_some {key : Pubkey} {i : Nat}
    (h : tc.findIndexOfAccount key = some i) : tc.accountKeys[i]? = some key := by
  obtain ⟨hi, hKey, -⟩ := List.findIdx?_eq_some_iff_getElem.mp h
  rw [List.getElem?_eq_some_iff]
  exact ⟨hi, beq_iff_eq.mp hKey⟩

end TransactionContext

/-- The index `find_index_of_instruction_account` returns names an account of the frame with
the key. -/
theorem InstructionContext.findIndexOfInstructionAccount_eq_some {ic : InstructionContext}
    {tc : TransactionContext} {key : Pubkey} {i : Nat}
    (h : ic.findIndexOfInstructionAccount tc key = some i) :
    ∃ ia, ic.instructionAccounts[i]? = some ia ∧ tc.accountKeys[ia.indexInTransaction]? = some key := by
  obtain ⟨hi, hKey, -⟩ := List.findIdx?_eq_some_iff_getElem.mp h
  exact ⟨_, List.getElem?_eq_getElem hi, beq_iff_eq.mp hKey⟩

/-- The last program of a frame depends on the transaction's keys only. -/
theorem InstructionContext.getLastProgramKey_congr {ic : InstructionContext}
    {tc tc' : TransactionContext} (h : tc'.accountKeys = tc.accountKeys) :
    ic.getLastProgramKey tc' = ic.getLastProgramKey tc := by
  simp [getLastProgramKey, TransactionContext.getKeyOfAccountAtIndex, h]

/-- Borrowing the `i`-th instruction account of a frame: the borrow carries that account's
flags and its key. -/
theorem InstructionContext.tryBorrowInstructionAccount_eq_ok {ic : InstructionContext}
    {tc : TransactionContext} {i : Nat} {b : BorrowedAccount}
    (h : ic.tryBorrowInstructionAccount tc i = .ok b) :
    ∃ ia, ic.instructionAccounts[i]? = some ia ∧ b.isWritable = ia.isWritable ∧
      b.isSigner = ia.isSigner ∧ b.getKey = (tc.accountKeys[ia.indexInTransaction]?).getD default := by
  simp only [tryBorrowInstructionAccount, tryBorrowAccount, getIndexOfInstructionAccountInTransaction,
    bind_eq_ok, pure_eq_ok] at h
  obtain ⟨indexInTransaction, hIndex, account, -, rfl⟩ := h
  obtain ⟨ia, hia, rfl⟩ := map_eq_ok.mp hIndex
  refine ⟨ia, okOr_eq_ok.mp hia, ?_, ?_, rfl⟩
  · simp [BorrowedAccount.isWritable, isInstructionAccountWritable, okOr_eq_ok.mp hia, okOr,
      Except.map]
  · simp [BorrowedAccount.isSigner, isInstructionAccountSigner, okOr_eq_ok.mp hia, okOr,
      Except.map]

/-- Borrowing the `i`-th instruction account of a frame: the borrow is that account of the
transaction, at its index. -/
theorem tryBorrowInstructionAccount_eq_ok {ic : InstructionContext} {tc : TransactionContext}
    {i : Nat} {b : BorrowedAccount} (h : ic.tryBorrowInstructionAccount tc i = .ok b) :
    ∃ ia, ic.instructionAccounts[i]? = some ia ∧ tc.accounts[ia.indexInTransaction]? = some b.account ∧
      b = ⟨tc, ic, ia.indexInTransaction, ic.getNumberOfProgramAccounts + i, b.account⟩ := by
  simp only [InstructionContext.tryBorrowInstructionAccount,
    InstructionContext.getIndexOfInstructionAccountInTransaction,
    InstructionContext.tryBorrowAccount, bind_eq_ok, map_eq_ok, okOr_eq_ok, pure_eq_ok] at h
  obtain ⟨_, ⟨ia, hIa, rfl⟩, account, hAccount, rfl⟩ := h
  exact ⟨ia, hIa, hAccount, rfl⟩

/-! ### Signatures of a frame -/

/-- Whether the instruction account at position `i` signed and carries the key `k`. -/
def signedAt (tc : TransactionContext) (ic : InstructionContext) (i : Nat) (k : Pubkey) : Bool :=
  match ic.instructionAccounts[i]? with
  | some ia => ia.isSigner && (tc.accountKeys[ia.indexInTransaction]?).getD default == k
  | none => false

/-- Whether `k` signed: some instruction account with the key signed. -/
def Signed (tc : TransactionContext) (ic : InstructionContext) (k : Pubkey) : Prop :=
  ∃ i, signedAt tc ic i k = true

section Signatures

variable {tc : TransactionContext} {ic : InstructionContext}

@[simp] theorem signedAt_eq_true {i : Nat} {k : Pubkey} :
    signedAt tc ic i k = true ↔ ∃ ia, ic.instructionAccounts[i]? = some ia ∧ ia.isSigner = true ∧
      (tc.accountKeys[ia.indexInTransaction]?).getD default = k := by
  unfold signedAt
  split <;> simp_all

/-- A borrowed instruction account that signed is a signature of its key at its position. -/
theorem signedAt_of_borrow {i : Nat} {b : BorrowedAccount}
    (h : ic.tryBorrowInstructionAccount tc i = .ok b) (hSigner : b.isSigner = true) :
    signedAt tc ic i b.getKey = true := by
  obtain ⟨ia, hia, -, hIsSigner, hKey⟩ := InstructionContext.tryBorrowInstructionAccount_eq_ok h
  simp [signedAt, hia, ← hIsSigner, hSigner, hKey]

end Signatures

end PutValidator
