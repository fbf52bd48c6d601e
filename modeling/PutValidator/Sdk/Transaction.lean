import PutValidator.Sdk.Message

/-! `SanitizedTransaction` of `sdk/src/transaction/sanitized.rs` and the account locks it asks
for. Each key of the message is locked for writing when the message makes it writable and for
reading otherwise; `get_account_locks` first refuses a message with a duplicate key or with
more keys than the bank's limit. -/
namespace PutValidator

structure SanitizedTransaction where
  message : SanitizedMessage
  messageHash : Hash
  isSimpleVoteTx : Bool
  signatures : List Signature
deriving DecidableEq, Repr

/-- `TransactionAccountLocks`. -/
structure TransactionAccountLocks where
  readonly : List Pubkey
  writable : List Pubkey
deriving DecidableEq, Repr

/-- `MAX_TX_ACCOUNT_LOCKS`. -/
def maxTxAccountLocks : Nat := 128

namespace SanitizedTransaction

/-- `get_account_locks_unchecked`: each key in order goes to the writable list when the
message makes it writable, and to the readonly list otherwise. -/
def getAccountLocksUnchecked (tx : SanitizedTransaction) : TransactionAccountLocks :=
  let indexed := tx.message.accountKeys.iter.zipIdx
  { writable := (indexed.filter fun key => tx.message.isWritable key.2).map Prod.fst
    readonly := (indexed.filter fun key => !tx.message.isWritable key.2).map Prod.fst }

def validateAccountLocks (message : SanitizedMessage) (txAccountLockLimit : Nat) :
    Except TransactionError Unit :=
  if message.hasDuplicates then .error .accountLoadedTwice
  else if txAccountLockLimit < message.accountKeys.len then .error .tooManyAccountLocks
  else .ok ()

def getAccountLocks (tx : SanitizedTransaction) (txAccountLockLimit : Nat) :
    Except TransactionError TransactionAccountLocks := do
  validateAccountLocks tx.message txAccountLockLimit
  pure tx.getAccountLocksUnchecked

/-- The two lists split the keys of the message. -/
theorem getAccountLocksUnchecked_perm (tx : SanitizedTransaction) :
    List.Perm (tx.getAccountLocksUnchecked.writable ++ tx.getAccountLocksUnchecked.readonly)
      tx.message.accountKeys.iter := by
  have hSplit := List.filter_append_perm (fun key : Pubkey × Nat => tx.message.isWritable key.2)
    tx.message.accountKeys.iter.zipIdx
  have hMap := hSplit.map Prod.fst
  rw [List.map_append, List.zipIdx_map_fst] at hMap
  exact hMap

/-- What `get_account_locks` returns, when it returns, is the unchecked split of a message
without duplicate keys. -/
theorem getAccountLocks_eq_ok {tx : SanitizedTransaction} {limit : Nat}
    {locks : TransactionAccountLocks} (h : tx.getAccountLocks limit = .ok locks) :
    locks = tx.getAccountLocksUnchecked ∧ tx.message.hasDuplicates = false := by
  unfold getAccountLocks validateAccountLocks at h
  split_ifs at h with hDup hLimit
  · cases h
  · cases h
  · exact ⟨(Except.ok.inj h).symm, by simpa using hDup⟩

end SanitizedTransaction

namespace TransactionAccountLocks

/-- Locks whose keys are pairwise distinct, none asked for both writing and reading. -/
def Distinct (locks : TransactionAccountLocks) : Prop := (locks.writable ++ locks.readonly).Nodup

theorem Distinct.writable_nodup {locks : TransactionAccountLocks} (h : locks.Distinct) :
    locks.writable.Nodup :=
  (List.nodup_append.mp h).1

theorem Distinct.readonly_nodup {locks : TransactionAccountLocks} (h : locks.Distinct) :
    locks.readonly.Nodup :=
  (List.nodup_append.mp h).2.1

theorem Distinct.not_mem_readonly {locks : TransactionAccountLocks} (h : locks.Distinct)
    {key : Pubkey} (hw : key ∈ locks.writable) : key ∉ locks.readonly :=
  fun hr => (List.nodup_append.mp h).2.2 key hw key hr rfl

end TransactionAccountLocks

/-- The locks of a transaction that `get_account_locks` accepts have distinct keys. -/
theorem SanitizedTransaction.distinct_of_getAccountLocks {tx : SanitizedTransaction}
    {limit : Nat} {locks : TransactionAccountLocks} (h : tx.getAccountLocks limit = .ok locks) :
    locks.Distinct := by
  obtain ⟨rfl, hDup⟩ := getAccountLocks_eq_ok h
  exact (getAccountLocksUnchecked_perm tx).nodup_iff.mpr
    (SanitizedMessage.nodup_of_hasDuplicates_eq_false hDup)

end PutValidator
