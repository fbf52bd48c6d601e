import Mathlib

/-! The error enums that the modelled runtime paths return: `InstructionError` of
`sdk/program/src/instruction.rs`, `TransactionError` of `sdk/src/transaction/error.rs` and
`SanitizeError` of `sdk/program/src/sanitize.rs`, each with every variant of the source, in
its order. -/
namespace PutValidator

inductive InstructionError
  | genericError
  | invalidArgument
  | invalidInstructionData
  | invalidAccountData
  | accountDataTooSmall
  | insufficientFunds
  | incorrectProgramId
  | missingRequiredSignature
  | accountAlreadyInitialized
  | uninitializedAccount
  | unbalancedInstruction
  | modifiedProgramId
  | externalAccountLamportSpend
  | externalAccountDataModified
  | readonlyLamportChange
  | readonlyDataModified
  | duplicateAccountIndex
  | executableModified
  | rentEpochModified
  | notEnoughAccountKeys
  | accountDataSizeChanged
  | accountNotExecutable
  | accountBorrowFailed
  | accountBorrowOutstanding
  | duplicateAccountOutOfSync
  | custom (code : UInt32)
  | invalidError
  | executableDataModified
  | executableLamportChange
  | executableAccountNotRentExempt
  | unsupportedProgramId
  | callDepth
  | missingAccount
  | reentrancyNotAllowed
  | maxSeedLengthExceeded
  | invalidSeeds
  | invalidRealloc
  | computationalBudgetExceeded
  | privilegeEscalation
  | programEnvironmentSetupFailure
  | programFailedToComplete
  | programFailedToCompile
  | immutable
  | incorrectAuthority
  | borshIoError (message : String)
  | accountNotRentExempt
  | invalidAccountOwner
  | arithmeticOverflow
  | unsupportedSysvar
  | illegalOwner
  | maxAccountsDataAllocationsExceeded
  | maxAccountsExceeded
  | maxInstructionTraceLengthExceeded
  | builtinProgramsMustConsumeComputeUnits
deriving DecidableEq, Repr

inductive TransactionError
  | accountInUse
  | accountLoadedTwice
  | accountNotFound
  | programAccountNotFound
  | insufficientFundsForFee
  | invalidAccountForFee
  | alreadyProcessed
  | blockhashNotFound
  | instructionError (index : UInt8) (error : InstructionError)
  | callChainTooDeep
  | missingSignatureForFee
  | invalidAccountIndex
  | signatureFailure
  | invalidProgramForExecution
  | sanitizeFailure
  | clusterMaintenance
  | accountBorrowOutstanding
  | wouldExceedMaxBlockCostLimit
  | unsupportedVersion
  | invalidWritableAccount
  | wouldExceedMaxAccountCostLimit
  | wouldExceedAccountDataBlockLimit
  | tooManyAccountLocks
  | addressLookupTableNotFound
  | invalidAddressLookupTableOwner
  | invalidAddressLookupTableData
  | invalidAddressLookupTableIndex
  | invalidRentPayingAccount
  | wouldExceedMaxVoteCostLimit
  | wouldExceedAccountDataTotalLimit
  | duplicateInstruction (index : UInt8)
  | insufficientFundsForRent (accountIndex : UInt8)
  | maxLoadedAccountsDataSizeExceeded
  | invalidLoadedAccountsDataSizeLimit
  | resanitizationNeeded
deriving DecidableEq, Repr

inductive SanitizeError
  | indexOutOfBounds
  | valueOutOfBounds
  | invalidValue
deriving DecidableEq, Repr

/-- `impl From<SanitizeError> for TransactionError`. -/
def TransactionError.ofSanitizeError (_ : SanitizeError) : TransactionError := .sanitizeFailure

end PutValidator
