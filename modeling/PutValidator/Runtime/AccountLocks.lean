import PutValidator.Sdk.Transaction

/-! The account locks of `runtime/src/accounts.rs`: a set of write-locked keys and a count of
read locks per key, taken for a whole batch of transactions by `lock_accounts` (or
`lock_accounts_with_results`, which passes earlier errors through) and released by
`unlock_accounts`. A transaction is locked only when none of its writable keys is locked and
none of its readonly keys is write-locked. `unlock_accounts` decides what to release from the
lock result alone: every transaction is unlocked except those whose result is one of nine
errors. The read counts are `u64` in the source and are kept as `Nat`, which is the source's
count while it stays below `2^64`: a count never exceeds the number of live transactions that
read the key, so a run that submits fewer than `2^64` transactions never wraps one. -/
namespace PutValidator.Runtime

open Lib.Except

/-- `AccountLocks`. A key without read locks has no entry in the source's map; here its count
is 0. -/
structure AccountLocks where
  writeLocks : Pubkey → Bool
  readonlyLocks : Pubkey → Nat

namespace AccountLocks

/-- `AccountLocks::default()`. -/
protected def default : AccountLocks := ⟨fun _ => false, fun _ => 0⟩

def isLockedReadonly (l : AccountLocks) (key : Pubkey) : Bool := decide (0 < l.readonlyLocks key)

def isLockedWrite (l : AccountLocks) (key : Pubkey) : Bool := l.writeLocks key

/-- `insert_new_readonly`. Its `assert!` that the key had no entry holds at its one call site,
right after `lock_readonly` found none. -/
def insertNewReadonly (l : AccountLocks) (key : Pubkey) : AccountLocks :=
  { l with readonlyLocks := Function.update l.readonlyLocks key 1 }

/-- `lock_readonly`: one more read lock on a key that has an entry; `false` for a key
without one. -/
def lockReadonly (l : AccountLocks) (key : Pubkey) : Bool × AccountLocks :=
  if 0 < l.readonlyLocks key then
    (true, { l with readonlyLocks := Function.update l.readonlyLocks key (l.readonlyLocks key + 1) })
  else (false, l)

/-- `unlock_readonly`: one read lock fewer, the entry removed at 0; a key without an entry is
left alone. -/
def unlockReadonly (l : AccountLocks) (key : Pubkey) : AccountLocks :=
  if 0 < l.readonlyLocks key then
    { l with readonlyLocks := Function.update l.readonlyLocks key (l.readonlyLocks key - 1) }
  else l

def unlockWrite (l : AccountLocks) (key : Pubkey) : AccountLocks :=
  { l with writeLocks := Function.update l.writeLocks key false }

/-- `write_locks.insert(k)`, the body of the first loop of `lock_account` that takes locks. -/
def insertWrite (l : AccountLocks) (key : Pubkey) : AccountLocks :=
  { l with writeLocks := Function.update l.writeLocks key true }

/-- The body of the second loop of `lock_account` that takes locks: `lock_readonly`, or
`insert_new_readonly` when the key had no read lock. -/
def takeReadonly (l : AccountLocks) (key : Pubkey) : AccountLocks :=
  match l.lockReadonly key with
  | (true, l) => l
  | (false, l) => l.insertNewReadonly key

end AccountLocks

/-- `Accounts::lock_account`: every check is made before any lock is taken, so a refused
transaction leaves the locks as they were. -/
def lockAccount (accountLocks : AccountLocks) (writableKeys readonlyKeys : List Pubkey) :
    Except TransactionError AccountLocks := do
  writableKeys.forM fun k =>
    failIf (accountLocks.isLockedWrite k || accountLocks.isLockedReadonly k) .accountInUse
  readonlyKeys.forM fun k => failIf (accountLocks.isLockedWrite k) .accountInUse
  let accountLocks := writableKeys.foldl AccountLocks.insertWrite accountLocks
  pure (readonlyKeys.foldl AccountLocks.takeReadonly accountLocks)

/-- `Accounts::unlock_account`. -/
def unlockAccount (accountLocks : AccountLocks) (writableKeys readonlyKeys : List Pubkey) :
    AccountLocks :=
  readonlyKeys.foldl AccountLocks.unlockReadonly (writableKeys.foldl AccountLocks.unlockWrite accountLocks)

/-- `lock_accounts_inner`: each transaction in order, against the locks the earlier ones of the
batch took. -/
def lockAccountsInner (accountLocks : AccountLocks) :
    List (Except TransactionError TransactionAccountLocks) →
      AccountLocks × List (Except TransactionError Unit)
  | [] => (accountLocks, [])
  | .ok txAccountLocks :: rest =>
      match lockAccount accountLocks txAccountLocks.writable txAccountLocks.readonly with
      | .ok accountLocks' =>
          let (final, results) := lockAccountsInner accountLocks' rest
          (final, .ok () :: results)
      | .error err =>
          let (final, results) := lockAccountsInner accountLocks rest
          (final, .error err :: results)
  | .error err :: rest =>
      let (final, results) := lockAccountsInner accountLocks rest
      (final, .error err :: results)

def lockAccounts (accountLocks : AccountLocks) (txs : List SanitizedTransaction)
    (txAccountLockLimit : Nat) : AccountLocks × List (Except TransactionError Unit) :=
  lockAccountsInner accountLocks (txs.map (·.getAccountLocks txAccountLockLimit))

/-- `lock_accounts_with_results`: a transaction with an earlier error keeps it and is not
locked. -/
def lockAccountsWithResults (accountLocks : AccountLocks) (txs : List SanitizedTransaction)
    (results : List (Except TransactionError Unit)) (txAccountLockLimit : Nat) :
    AccountLocks × List (Except TransactionError Unit) :=
  lockAccountsInner accountLocks ((txs.zip results).map fun (tx, result) =>
    match result with
    | .ok () => tx.getAccountLocks txAccountLockLimit
    | .error err => .error err)

/-- The results whose transaction `unlock_accounts` unlocks: all but nine errors. -/
def isUnlockedResult : Except TransactionError Unit → Bool
  | .error .accountLoadedTwice | .error .accountInUse | .error .sanitizeFailure
  | .error .tooManyAccountLocks | .error .wouldExceedMaxBlockCostLimit
  | .error .wouldExceedMaxVoteCostLimit | .error .wouldExceedMaxAccountCostLimit
  | .error .wouldExceedAccountDataBlockLimit | .error .wouldExceedAccountDataTotalLimit => false
  | _ => true

/-- `unlock_accounts`: the locks of every transaction whose result is not one of the nine
errors are released, whether or not it was locked. -/
def unlockAccounts (accountLocks : AccountLocks) (txs : List SanitizedTransaction)
    (results : List (Except TransactionError Unit)) : AccountLocks :=
  let keys := (txs.zip results).filterMap fun (tx, res) =>
    if isUnlockedResult res then some tx.getAccountLocksUnchecked else none
  keys.foldl (fun l keys => unlockAccount l keys.writable keys.readonly) accountLocks

/-! ### What each operation does to the locks -/

namespace AccountLocks

variable (l : AccountLocks) (key k : Pubkey)

@[simp] theorem insertWrite_writeLocks :
    (l.insertWrite key).writeLocks k = true ↔ l.writeLocks k = true ∨ k = key := by
  by_cases h : k = key <;> simp [insertWrite, h]

@[simp] theorem insertWrite_readonlyLocks : (l.insertWrite key).readonlyLocks = l.readonlyLocks :=
  rfl

@[simp] theorem takeReadonly_writeLocks : (l.takeReadonly key).writeLocks = l.writeLocks := by
  unfold takeReadonly lockReadonly
  split_ifs <;> rfl

theorem takeReadonly_readonlyLocks :
    (l.takeReadonly key).readonlyLocks k = l.readonlyLocks k + if k = key then 1 else 0 := by
  unfold takeReadonly lockReadonly
  by_cases hPos : 0 < l.readonlyLocks key
  · by_cases h : k = key <;> simp [hPos, h]
  · -- a key without read locks gets its first
    have hZero : l.readonlyLocks key = 0 := Nat.eq_zero_of_not_pos hPos
    by_cases h : k = key <;> simp [insertNewReadonly, h, hZero]

@[simp] theorem unlockWrite_writeLocks :
    (l.unlockWrite key).writeLocks k = true ↔ l.writeLocks k = true ∧ k ≠ key := by
  by_cases h : k = key <;> simp [unlockWrite, h]

@[simp] theorem unlockWrite_readonlyLocks : (l.unlockWrite key).readonlyLocks = l.readonlyLocks :=
  rfl

@[simp] theorem unlockReadonly_writeLocks : (l.unlockReadonly key).writeLocks = l.writeLocks := by
  unfold unlockReadonly
  split_ifs <;> rfl

theorem unlockReadonly_readonlyLocks :
    (l.unlockReadonly key).readonlyLocks k = l.readonlyLocks k - if k = key then 1 else 0 := by
  unfold unlockReadonly
  by_cases hPos : 0 < l.readonlyLocks key
  · by_cases h : k = key <;> simp [hPos, h]
  · have hZero : l.readonlyLocks key = 0 := Nat.eq_zero_of_not_pos hPos
    by_cases h : k = key <;> simp [h, hZero]

end AccountLocks

/-- A loop whose body leaves a field alone leaves it alone. -/
theorem foldl_field {γ : Type} (g : AccountLocks → γ) {f : AccountLocks → Pubkey → AccountLocks}
    (hf : ∀ l k, g (f l k) = g l) (keys : List Pubkey) (l : AccountLocks) :
    g (keys.foldl f l) = g l := by
  induction keys generalizing l with
  | nil => rfl
  | cons k rest ih => rw [List.foldl_cons, ih, hf]

namespace AccountLocks

variable (keys : List Pubkey) (l : AccountLocks) (k : Pubkey)

theorem foldl_insertWrite_writeLocks :
    (keys.foldl insertWrite l).writeLocks k = true ↔ l.writeLocks k = true ∨ k ∈ keys := by
  induction keys generalizing l with
  | nil => simp
  | cons key rest ih =>
      rw [List.foldl_cons, ih, insertWrite_writeLocks, List.mem_cons]
      tauto

theorem foldl_takeReadonly_readonlyLocks :
    (keys.foldl takeReadonly l).readonlyLocks k = l.readonlyLocks k + keys.count k := by
  induction keys generalizing l with
  | nil => simp
  | cons key rest ih =>
      rw [List.foldl_cons, ih, takeReadonly_readonlyLocks, List.count_cons]
      by_cases h : k = key
      · subst h
        simp
        omega
      · simp [h, Ne.symm h]

theorem foldl_unlockWrite_writeLocks :
    (keys.foldl unlockWrite l).writeLocks k = true ↔ l.writeLocks k = true ∧ k ∉ keys := by
  induction keys generalizing l with
  | nil => simp
  | cons key rest ih =>
      rw [List.foldl_cons, ih, unlockWrite_writeLocks, List.mem_cons]
      tauto

theorem foldl_unlockReadonly_readonlyLocks :
    (keys.foldl unlockReadonly l).readonlyLocks k = l.readonlyLocks k - keys.count k := by
  induction keys generalizing l with
  | nil => simp
  | cons key rest ih =>
      rw [List.foldl_cons, ih, unlockReadonly_readonlyLocks, List.count_cons, Nat.sub_sub]
      by_cases h : k = key
      · subst h
        simp
        omega
      · simp [h, Ne.symm h]

end AccountLocks

/-- Inversion of `lock_account`: it succeeds exactly when no writable key is locked and no
readonly key is write-locked, and then takes a write lock on each writable key and one read
lock for each occurrence of a readonly key. -/
theorem lockAccount_eq_ok {l l' : AccountLocks} {writableKeys readonlyKeys : List Pubkey} :
    lockAccount l writableKeys readonlyKeys = .ok l' ↔
      (∀ k ∈ writableKeys, l.writeLocks k = false ∧ l.readonlyLocks k = 0) ∧
      (∀ k ∈ readonlyKeys, l.writeLocks k = false) ∧
      l' = readonlyKeys.foldl AccountLocks.takeReadonly
        (writableKeys.foldl AccountLocks.insertWrite l) := by
  simp only [lockAccount, bind_eq_ok, forM_eq_ok, failIf_eq_ok, pure_eq_ok]
  simp only [AccountLocks.isLockedWrite, AccountLocks.isLockedReadonly, Bool.or_eq_true,
    decide_eq_true_eq, not_or, not_lt, Bool.not_eq_true, Nat.le_zero]
  constructor
  · rintro ⟨⟨⟩, hW, ⟨⟩, hR, rfl⟩
    exact ⟨hW, hR, rfl⟩
  · rintro ⟨hW, hR, rfl⟩
    exact ⟨(), hW, (), hR, rfl⟩

/-- `lock_account` fails only on a lock in use. -/
theorem lockAccount_eq_error {l : AccountLocks} {writableKeys readonlyKeys : List Pubkey}
    {err : TransactionError} (h : lockAccount l writableKeys readonlyKeys = .error err) :
    err = .accountInUse := by
  simp only [lockAccount, bind_eq_error] at h
  rcases h with hW | ⟨_, -, hR | ⟨_, -, hPure⟩⟩
  · exact forM_failIf_eq_error hW
  · exact forM_failIf_eq_error hR
  · simp [pure, Except.pure] at hPure

/-- `lock_account` refuses without touching the locks. -/
theorem lockAccount_error_or_ok (l : AccountLocks) (writableKeys readonlyKeys : List Pubkey) :
    (∃ err, lockAccount l writableKeys readonlyKeys = .error err) ∨
      lockAccount l writableKeys readonlyKeys =
        .ok (readonlyKeys.foldl AccountLocks.takeReadonly
          (writableKeys.foldl AccountLocks.insertWrite l)) := by
  cases h : lockAccount l writableKeys readonlyKeys with
  | error err => exact Or.inl ⟨err, rfl⟩
  | ok l' => exact Or.inr (congrArg Except.ok (lockAccount_eq_ok.mp h).2.2)

end PutValidator.Runtime
