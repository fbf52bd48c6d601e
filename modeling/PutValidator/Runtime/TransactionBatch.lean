import PutValidator.Runtime.AccountLocks

/-! Batches of `runtime/src/transaction_batch.rs` and the bank functions that lock and release
them (`runtime/src/bank.rs`): `prepare_sanitized_batch`, `prepare_sanitized_batch_with_results`
and `unlock_accounts`, which the `Drop` of a batch calls. The banking threads share the bank's
account locks; their calls interleave in any order, which `LockState.step` models one call at
a time. The lock limit is the bank's `get_transaction_account_lock_limit()`, taken as an
argument of each call. -/
namespace PutValidator.Runtime

/-- `TransactionBatch`: the lock result of each of its transactions. -/
structure TransactionBatch where
  lockResults : List (Except TransactionError Unit)
  sanitizedTxs : List SanitizedTransaction
  needsUnlock : Bool

/-- `TransactionBatch::new`; `none` is the panic of its `assert_eq!` of one lock result per
transaction. -/
def TransactionBatch.new (lockResults : List (Except TransactionError Unit))
    (sanitizedTxs : List SanitizedTransaction) : Option TransactionBatch :=
  if lockResults.length = sanitizedTxs.length then some ⟨lockResults, sanitizedTxs, true⟩
  else none

/-- `Bank::prepare_sanitized_batch`: the bank's locks after the batch took its locks, and the
batch. -/
def prepareSanitizedBatch (accountLocks : AccountLocks) (txs : List SanitizedTransaction)
    (txAccountLockLimit : Nat) : Option (AccountLocks × TransactionBatch) :=
  let (accountLocks, lockResults) := lockAccounts accountLocks txs txAccountLockLimit
  (TransactionBatch.new lockResults txs).map (accountLocks, ·)

def prepareSanitizedBatchWithResults (accountLocks : AccountLocks)
    (transactions : List SanitizedTransaction)
    (transactionResults : List (Except TransactionError Unit)) (txAccountLockLimit : Nat) :
    Option (AccountLocks × TransactionBatch) :=
  let (accountLocks, lockResults) :=
    lockAccountsWithResults accountLocks transactions transactionResults txAccountLockLimit
  (TransactionBatch.new lockResults transactions).map (accountLocks, ·)

/-- `Bank::unlock_accounts`, which releases a batch once. -/
def unlockBatch (accountLocks : AccountLocks) (batch : TransactionBatch) :
    AccountLocks × TransactionBatch :=
  if batch.needsUnlock then
    (unlockAccounts accountLocks batch.sanitizedTxs batch.lockResults,
      { batch with needsUnlock := false })
  else (accountLocks, batch)

theorem prepareSanitizedBatch_eq_some {l l' : AccountLocks} {txs : List SanitizedTransaction}
    {limit : Nat} {batch : TransactionBatch}
    (h : prepareSanitizedBatch l txs limit = some (l', batch)) :
    l' = (lockAccounts l txs limit).1 ∧ batch = ⟨(lockAccounts l txs limit).2, txs, true⟩ := by
  simp only [prepareSanitizedBatch, TransactionBatch.new] at h
  split_ifs at h
  · simp only [Option.map_some, Option.some.injEq, Prod.mk.injEq] at h
    exact ⟨h.1.symm, h.2.symm⟩
  · simp at h

theorem prepareSanitizedBatchWithResults_eq_some {l l' : AccountLocks}
    {txs : List SanitizedTransaction} {results : List (Except TransactionError Unit)}
    {limit : Nat} {batch : TransactionBatch}
    (h : prepareSanitizedBatchWithResults l txs results limit = some (l', batch)) :
    l' = (lockAccountsWithResults l txs results limit).1 ∧
      batch = ⟨(lockAccountsWithResults l txs results limit).2, txs, true⟩ ∧
      (lockAccountsWithResults l txs results limit).2.length = txs.length := by
  simp only [prepareSanitizedBatchWithResults, TransactionBatch.new] at h
  split_ifs at h with hLen
  · simp only [Option.map_some, Option.some.injEq, Prod.mk.injEq] at h
    exact ⟨h.1.symm, h.2.symm, hLen⟩
  · simp at h

/-- The bank's account locks and the batches prepared and not yet dropped, oldest first. -/
structure LockState where
  accountLocks : AccountLocks
  batches : List TransactionBatch

def LockState.initial : LockState := ⟨AccountLocks.default, []⟩

/-- What a banking thread does to the locks: prepare a batch, with or without the results of
earlier checks, or drop one of the live batches. -/
inductive BatchEvent
  | prepare (txs : List SanitizedTransaction) (txAccountLockLimit : Nat)
  | prepareWithResults (txs : List SanitizedTransaction)
      (results : List (Except TransactionError Unit)) (txAccountLockLimit : Nat)
  | drop (index : Nat)

namespace LockState

/-- One call; `none` for a panic, or for a drop of a batch that is not live. -/
def step (s : LockState) : BatchEvent → Option LockState
  | .prepare txs limit =>
      (prepareSanitizedBatch s.accountLocks txs limit).map fun (locks, batch) =>
        ⟨locks, s.batches ++ [batch]⟩
  | .prepareWithResults txs results limit =>
      (prepareSanitizedBatchWithResults s.accountLocks txs results limit).map fun (locks, batch) =>
        ⟨locks, s.batches ++ [batch]⟩
  | .drop index =>
      s.batches[index]?.map fun batch =>
        ⟨(unlockBatch s.accountLocks batch).1, s.batches.eraseIdx index⟩

/-- The calls one after another. -/
def run (s : LockState) (events : List BatchEvent) : Option LockState :=
  events.foldlM step s

theorem run_cons (s : LockState) (event : BatchEvent) (events : List BatchEvent) :
    s.run (event :: events) = (s.step event).bind fun s' => s'.run events := by
  simp [run, List.foldlM_cons, Option.bind_eq_bind]

end LockState

end PutValidator.Runtime
