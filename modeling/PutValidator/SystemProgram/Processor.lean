import PutValidator.Sdk.BorrowedAccount
import PutValidator.Sdk.Nonce
import PutValidator.Sdk.Ids
import PutValidator.Sdk.Instruction

/-! The system program (`programs/system/src/system_processor.rs` and
`system_instruction.rs`): account creation, allocation, assignment and transfers, with their
optional seed-derived addresses, and the durable-nonce instructions. Every handler works on
the accounts of the current frame through `BorrowedAccount`, so the account rules of the
runtime apply to each write. The instruction arrives decoded; `limited_deserialize` is not
modelled. The SHA-256 hash of seed-derived addresses and durable nonces is a parameter. -/
namespace PutValidator

/-- `SystemError`. -/
inductive SystemError
  | accountAlreadyInUse
  | resultWithNegativeLamports
  | invalidProgramId
  | invalidAccountDataLength
  | maxSeedLengthExceeded
  | addressWithSeedMismatch
  | nonceNoRecentBlockhashes
  | nonceBlockhashNotExpired
  | nonceUnexpectedBlockhashValue
deriving DecidableEq, Repr

/-- `impl From<T: ToPrimitive> for InstructionError`: a small enum value becomes `Custom` of
its index. -/
def SystemError.toInstructionError : SystemError → InstructionError
  | .accountAlreadyInUse => .custom 0
  | .resultWithNegativeLamports => .custom 1
  | .invalidProgramId => .custom 2
  | .invalidAccountDataLength => .custom 3
  | .maxSeedLengthExceeded => .custom 4
  | .addressWithSeedMismatch => .custom 5
  | .nonceNoRecentBlockhashes => .custom 6
  | .nonceBlockhashNotExpired => .custom 7
  | .nonceUnexpectedBlockhashValue => .custom 8

/-- The same conversion for `PubkeyError`. -/
def PubkeyError.toInstructionError : PubkeyError → InstructionError
  | .maxSeedLengthExceeded => .custom 0
  | .invalidSeeds => .custom 1
  | .illegalOwner => .custom 2

/-- The system instructions. -/
inductive SystemInstruction
  | createAccount (lamports space : Nat) (owner : Pubkey)
  | assign (owner : Pubkey)
  | transfer (lamports : Nat)
  | createAccountWithSeed (base : Pubkey) (seed : List UInt8) (lamports space : Nat)
      (owner : Pubkey)
  | advanceNonceAccount
  | withdrawNonceAccount (lamports : Nat)
  | initializeNonceAccount (authorized : Pubkey)
  | authorizeNonceAccount (nonceAuthority : Pubkey)
  | allocate (space : Nat)
  | allocateWithSeed (base : Pubkey) (seed : List UInt8) (space : Nat) (owner : Pubkey)
  | assignWithSeed (base : Pubkey) (seed : List UInt8) (owner : Pubkey)
  | transferWithSeed (lamports : Nat) (fromSeed : List UInt8) (fromOwner : Pubkey)
  | upgradeNonceAccount
deriving DecidableEq, Repr

/-- What the system program reads of `InvokeContext`: the bank's blockhash and lamports per
signature (a `u128`), and the `RecentBlockhashes` and `Rent` of the sysvar cache, `none` where
the cache holds none. Of the recent blockhashes only their emptiness is read. -/
structure SystemInvokeContext where
  blockhash : Hash
  lamportsPerSignature : Nat
  lamportsPerSignature_lt : lamportsPerSignature < 2 ^ 128
  recentBlockhashes : Option (List Hash)
  rent : Option Rent

/-- An address that may have been derived from a seed, and then signs through its base. -/
structure Address where
  address : Pubkey
  base : Option Pubkey
deriving DecidableEq, Repr

section Addresses

open Lib.Except

variable (sha256 : List UInt8 → Hash)

/-- `Pubkey::create_with_seed`. -/
def Pubkey.createWithSeed (base : Pubkey) (seed : List UInt8) (owner : Pubkey) :
    Except PubkeyError Pubkey := do
  failIf (maxSeedLen < seed.length) .maxSeedLengthExceeded
  failIf (owner.bytes.toList.drop (32 - pdaMarker.length) = pdaMarker) .illegalOwner
  pure ⟨(sha256 (base.bytes.toList ++ seed ++ owner.bytes.toList)).bytes⟩

def Address.isSigner (address : Address) (signers : List Pubkey) : Bool :=
  match address.base with
  | some base => decide (base ∈ signers)
  | none => decide (address.address ∈ signers)

/-- `Address::create`: a derived address must be the one the seed gives. -/
def Address.create (address : Pubkey) (withSeed : Option (Pubkey × List UInt8 × Pubkey)) :
    Except InstructionError Address := do
  let base ← match withSeed with
    | some (base, seed, owner) => do
        let addressWithSeed ←
          (Pubkey.createWithSeed sha256 base seed owner).mapError PubkeyError.toInstructionError
        failIf (address ≠ addressWithSeed) SystemError.addressWithSeedMismatch.toInstructionError
        pure (some base)
    | none => pure none
  pure ⟨address, base⟩

/-- The key of an instruction account. -/
def instructionAccountKey (tc : TransactionContext) (ic : InstructionContext)
    (instructionAccountIndex : Nat) : Except InstructionError Pubkey := do
  tc.getKeyOfAccountAtIndex (← ic.getIndexOfInstructionAccountInTransaction instructionAccountIndex)

/-- `get_sysvar_with_account_check`'s `check_sysvar_account`. -/
def checkSysvarAccount (tc : TransactionContext) (ic : InstructionContext)
    (instructionAccountIndex : Nat) (sysvarId : Pubkey) : Except InstructionError Unit := do
  failIf ((← instructionAccountKey tc ic instructionAccountIndex) ≠ sysvarId) .invalidArgument

def getRecentBlockhashes (invokeContext : SystemInvokeContext) (tc : TransactionContext)
    (ic : InstructionContext) (instructionAccountIndex : Nat) :
    Except InstructionError (List Hash) := do
  checkSysvarAccount tc ic instructionAccountIndex recentBlockhashesId
  okOr invokeContext.recentBlockhashes .unsupportedSysvar

def getRent (invokeContext : SystemInvokeContext) (tc : TransactionContext)
    (ic : InstructionContext) (instructionAccountIndex : Nat) : Except InstructionError Rent := do
  checkSysvarAccount tc ic instructionAccountIndex rentId
  okOr invokeContext.rent .unsupportedSysvar

end Addresses

/-! ### The handlers on one borrowed account -/

section Borrowed

open Lib.EState BorrowedAccount

variable (sha256 : List UInt8 → Hash)

/-- `set_state` of a nonce state. -/
def setNonceState (versions : Nonce.Versions) : BorrowedAccountM Unit :=
  setState (some (Wire.nonceVersions.encode versions))

def allocate (address : Address) (space : Nat) (signers : List Pubkey) :
    BorrowedAccountM Unit := do
  failIf (address.isSigner signers = false) .missingRequiredSignature
  let account ← get
  -- the account looks in use
  failIf (account.getData ≠ [] ∨ account.getOwner ≠ systemProgramId)
    SystemError.accountAlreadyInUse.toInstructionError
  failIf (maxPermittedDataLength < space) SystemError.invalidAccountDataLength.toInstructionError
  setDataLength space

def assign (address : Address) (owner : Pubkey) (signers : List Pubkey) :
    BorrowedAccountM Unit := do
  if (← get).getOwner = owner then return
  failIf (address.isSigner signers = false) .missingRequiredSignature
  setOwner owner

def allocateAndAssign (address : Address) (space : Nat) (owner : Pubkey)
    (signers : List Pubkey) : BorrowedAccountM Unit := do
  allocate address space signers
  assign address owner signers

def advanceNonceAccount (signers : List Pubkey) (invokeContext : SystemInvokeContext) :
    BorrowedAccountM Unit := do
  let account ← get
  failIf (account.isWritable = false) .invalidArgument
  let state ← liftExcept (account.getState Wire.nonceVersions)
  match state.state with
  | .initialized data =>
      failIf (data.authority ∉ signers) .missingRequiredSignature
      let nextDurableNonce := DurableNonce.fromBlockhash sha256 invokeContext.blockhash
      failIf (data.durableNonce = nextDurableNonce)
        SystemError.nonceBlockhashNotExpired.toInstructionError
      setNonceState (.new (.initialized
        ⟨data.authority, nextDurableNonce, invokeContext.lamportsPerSignature⟩))
  | .uninitialized => throw .invalidAccountData

def initializeNonceAccount (nonceAuthority : Pubkey) (rent : Rent)
    (invokeContext : SystemInvokeContext) : BorrowedAccountM Unit := do
  let account ← get
  failIf (account.isWritable = false) .invalidArgument
  match (← liftExcept (account.getState Wire.nonceVersions)).state with
  | .uninitialized =>
      let minBalance := rent.minimumBalance account.getData.length
      failIf (account.getLamports < minBalance) .insufficientFunds
      let durableNonce := DurableNonce.fromBlockhash sha256 invokeContext.blockhash
      setNonceState (.new (.initialized
        ⟨nonceAuthority, durableNonce, invokeContext.lamportsPerSignature⟩))
  | .initialized _ => throw .invalidAccountData

def authorizeNonceAccount (nonceAuthority : Pubkey) (signers : List Pubkey) :
    BorrowedAccountM Unit := do
  let account ← get
  failIf (account.isWritable = false) .invalidArgument
  match (← liftExcept (account.getState Wire.nonceVersions)).authorize signers nonceAuthority with
  | .ok versions => setNonceState versions
  | .error .uninitialized => throw .invalidAccountData
  | .error (.missingRequiredSignature _) => throw .missingRequiredSignature

/-- The `UpgradeNonceAccount` arm of `process_instruction`. -/
def upgradeNonceAccount : BorrowedAccountM Unit := do
  let nonceAccount ← get
  failIf (nonceAccount.getOwner ≠ systemProgramId) .invalidAccountOwner
  failIf (nonceAccount.isWritable = false) .invalidArgument
  let nonceVersions ← liftExcept (nonceAccount.getState Wire.nonceVersions)
  match nonceVersions.upgrade sha256 with
  | none => throw .invalidArgument
  | some nonceVersions => setNonceState nonceVersions

/-- The part of `withdraw_nonce_account` done while `from` is borrowed: the checks, and the
debit. -/
def withdrawNonceAccountFrom (lamports : Nat) (rent : Rent) (signers : List Pubkey)
    (invokeContext : SystemInvokeContext) : BorrowedAccountM Unit := do
  let account ← get
  failIf (account.isWritable = false) .invalidArgument
  let signer ← match (← liftExcept (account.getState Wire.nonceVersions)).state with
    | .uninitialized => do
        failIf (account.getLamports < lamports) .insufficientFunds
        pure account.getKey
    | .initialized data => do
        if lamports = account.getLamports then
          -- withdrawing everything closes the nonce, never in the slot it was advanced in
          let durableNonce := DurableNonce.fromBlockhash sha256 invokeContext.blockhash
          failIf (data.durableNonce = durableNonce)
            SystemError.nonceBlockhashNotExpired.toInstructionError
          setNonceState (.new .uninitialized)
        else
          let minBalance := rent.minimumBalance account.getData.length
          let amount ← liftExcept (Lib.Except.okOr (Lib.Word.checkedAdd 128 lamports minBalance)
            InstructionError.insufficientFunds)
          failIf (account.getLamports < amount) .insufficientFunds
        pure data.authority
  failIf (signer ∉ signers) .missingRequiredSignature
  checkedSubLamports lamports

/-- The part of `transfer_verified` done while `from` is borrowed. -/
def transferVerifiedFrom (lamports : Nat) : BorrowedAccountM Unit := do
  let account ← get
  failIf (account.getData ≠ []) .invalidArgument
  failIf (account.getLamports < lamports) SystemError.resultWithNegativeLamports.toInstructionError
  checkedSubLamports lamports

end Borrowed

/-! ### The handlers on the frame -/

section Frame

open Lib.Except

variable (sha256 : List UInt8 → Hash)

/-- `try_borrow_instruction_account` followed by `f`, for a handler that needs nothing back. -/
def borrowAndRun (tc : TransactionContext) (ic : InstructionContext) (index : Nat)
    (f : BorrowedAccountM Unit) : Except InstructionError TransactionContext :=
  (ic.withBorrowedInstructionAccount tc index f).map (·.2)

def transferVerified (fromAccountIndex toAccountIndex lamports : Nat)
    (tc : TransactionContext) (ic : InstructionContext) :
    Except InstructionError TransactionContext := do
  let tc ← borrowAndRun tc ic fromAccountIndex (transferVerifiedFrom lamports)
  borrowAndRun tc ic toAccountIndex (BorrowedAccount.checkedAddLamports lamports)

def transfer (fromAccountIndex toAccountIndex lamports : Nat) (tc : TransactionContext)
    (ic : InstructionContext) : Except InstructionError TransactionContext := do
  failIf ((← ic.isInstructionAccountSigner fromAccountIndex) = false) .missingRequiredSignature
  transferVerified fromAccountIndex toAccountIndex lamports tc ic

def transferWithSeed (fromAccountIndex fromBaseAccountIndex : Nat) (fromSeed : List UInt8)
    (fromOwner : Pubkey) (toAccountIndex lamports : Nat) (tc : TransactionContext)
    (ic : InstructionContext) : Except InstructionError TransactionContext := do
  failIf ((← ic.isInstructionAccountSigner fromBaseAccountIndex) = false)
    .missingRequiredSignature
  let addressFromSeed ← (Pubkey.createWithSeed sha256
    (← instructionAccountKey tc ic fromBaseAccountIndex) fromSeed fromOwner).mapError
      PubkeyError.toInstructionError
  failIf ((← instructionAccountKey tc ic fromAccountIndex) ≠ addressFromSeed)
    SystemError.addressWithSeedMismatch.toInstructionError
  transferVerified fromAccountIndex toAccountIndex lamports tc ic

def createAccount (fromAccountIndex toAccountIndex : Nat) (toAddress : Address)
    (lamports space : Nat) (owner : Pubkey) (signers : List Pubkey) (tc : TransactionContext)
    (ic : InstructionContext) : Except InstructionError TransactionContext := do
  let tc ← borrowAndRun tc ic toAccountIndex (do
    -- the account looks in use
    Lib.EState.failIf (0 < (← get).getLamports) SystemError.accountAlreadyInUse.toInstructionError
    allocateAndAssign toAddress space owner signers)
  transfer fromAccountIndex toAccountIndex lamports tc ic

def withdrawNonceAccount (fromAccountIndex lamports toAccountIndex : Nat) (rent : Rent)
    (signers : List Pubkey) (invokeContext : SystemInvokeContext) (tc : TransactionContext)
    (ic : InstructionContext) : Except InstructionError TransactionContext := do
  let tc ← borrowAndRun tc ic fromAccountIndex
    (withdrawNonceAccountFrom sha256 lamports rent signers invokeContext)
  borrowAndRun tc ic toAccountIndex (BorrowedAccount.checkedAddLamports lamports)

/-- `process_instruction` of the system program, on the current frame. -/
def processInstruction (invokeContext : SystemInvokeContext) (instruction : SystemInstruction)
    (tc : TransactionContext) : Except InstructionError TransactionContext := do
  let ic ← tc.getCurrentInstructionContext
  let signers ← ic.getSigners tc
  match instruction with
  | .createAccount lamports space owner => do
      ic.checkNumberOfInstructionAccounts 2
      let toAddress ← Address.create sha256 (← instructionAccountKey tc ic 1) none
      createAccount 0 1 toAddress lamports space owner signers tc ic
  | .createAccountWithSeed base seed lamports space owner => do
      ic.checkNumberOfInstructionAccounts 2
      let toAddress ← Address.create sha256 (← instructionAccountKey tc ic 1) (some (base, seed, owner))
      createAccount 0 1 toAddress lamports space owner signers tc ic
  | .assign owner => do
      ic.checkNumberOfInstructionAccounts 1
      let _ ← ic.tryBorrowInstructionAccount tc 0
      let address ← Address.create sha256 (← instructionAccountKey tc ic 0) none
      borrowAndRun tc ic 0 (assign address owner signers)
  | .transfer lamports => do
      ic.checkNumberOfInstructionAccounts 2
      transfer 0 1 lamports tc ic
  | .transferWithSeed lamports fromSeed fromOwner => do
      ic.checkNumberOfInstructionAccounts 3
      transferWithSeed sha256 0 1 fromSeed fromOwner 2 lamports tc ic
  | .advanceNonceAccount => do
      ic.checkNumberOfInstructionAccounts 1
      let _ ← ic.tryBorrowInstructionAccount tc 0
      let recentBlockhashes ← getRecentBlockhashes invokeContext tc ic 1
      failIf (recentBlockhashes = []) SystemError.nonceNoRecentBlockhashes.toInstructionError
      borrowAndRun tc ic 0 (advanceNonceAccount sha256 signers invokeContext)
  | .withdrawNonceAccount lamports => do
      ic.checkNumberOfInstructionAccounts 2
      let _ ← getRecentBlockhashes invokeContext tc ic 2
      let rent ← getRent invokeContext tc ic 3
      withdrawNonceAccount sha256 0 lamports 1 rent signers invokeContext tc ic
  | .initializeNonceAccount authorized => do
      ic.checkNumberOfInstructionAccounts 1
      let _ ← ic.tryBorrowInstructionAccount tc 0
      let recentBlockhashes ← getRecentBlockhashes invokeContext tc ic 1
      failIf (recentBlockhashes = []) SystemError.nonceNoRecentBlockhashes.toInstructionError
      let rent ← getRent invokeContext tc ic 2
      borrowAndRun tc ic 0 (initializeNonceAccount sha256 authorized rent invokeContext)
  | .authorizeNonceAccount nonceAuthority => do
      ic.checkNumberOfInstructionAccounts 1
      borrowAndRun tc ic 0 (authorizeNonceAccount nonceAuthority signers)
  | .upgradeNonceAccount => do
      ic.checkNumberOfInstructionAccounts 1
      borrowAndRun tc ic 0 (upgradeNonceAccount sha256)
  | .allocate space => do
      ic.checkNumberOfInstructionAccounts 1
      let _ ← ic.tryBorrowInstructionAccount tc 0
      let address ← Address.create sha256 (← instructionAccountKey tc ic 0) none
      borrowAndRun tc ic 0 (allocate address space signers)
  | .allocateWithSeed base seed space owner => do
      ic.checkNumberOfInstructionAccounts 1
      let _ ← ic.tryBorrowInstructionAccount tc 0
      let address ← Address.create sha256 (← instructionAccountKey tc ic 0) (some (base, seed, owner))
      borrowAndRun tc ic 0 (allocateAndAssign address space owner signers)
  | .assignWithSeed base seed owner => do
      ic.checkNumberOfInstructionAccounts 1
      let _ ← ic.tryBorrowInstructionAccount tc 0
      let address ← Address.create sha256 (← instructionAccountKey tc ic 0) (some (base, seed, owner))
      borrowAndRun tc ic 0 (assign address owner signers)

end Frame

end PutValidator
