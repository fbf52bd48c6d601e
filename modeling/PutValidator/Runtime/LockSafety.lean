import PutValidator.Runtime.TransactionBatch

/-! Account locks over every interleaving of the banking stage's batches. A batch is prepared
by `Bank::prepare_sanitized_batch` or `prepare_sanitized_batch_with_results`, which lock its
transactions, and released by the `Drop` of its `TransactionBatch`, which calls
`unlock_accounts` with the lock results. The lock table accounts for the live batches
(`Accounted`) as long as every error a batch carries is one that `unlock_accounts` skips;
an earlier error outside those nine, such as `ResanitizationNeeded`, makes the drop release
the locks of a transaction that never took them. -/
namespace PutValidator.Runtime

/-! ### The locks that transactions hold -/

/-- Two lock sets that can be held at once: no key one of them writes is used by the other. -/
def Compatible (a b : TransactionAccountLocks) : Prop :=
  (∀ k ∈ a.writable, k ∉ b.writable ∧ k ∉ b.readonly) ∧ ∀ k ∈ b.writable, k ∉ a.readonly

theorem Compatible.symm {a b : TransactionAccountLocks} (h : Compatible a b) : Compatible b a :=
  ⟨fun k hk => ⟨fun ha => (h.1 k ha).1 hk, h.2 k hk⟩, fun k hk => (h.1 k hk).2⟩

/-- The lock table accounts exactly for the locks `held` by the transactions that hold any:
their keys are distinct, no two of them conflict, a key is write-locked when one of them
writes it, and its read count is the number of them that read it. -/
structure Accounted (l : AccountLocks) (held : List TransactionAccountLocks) : Prop where
  distinct : ∀ h ∈ held, h.Distinct
  compatible : held.Pairwise Compatible
  write_locks : ∀ k, l.writeLocks k = true ↔ ∃ h ∈ held, k ∈ h.writable
  readonly_locks : ∀ k, l.readonlyLocks k = held.countP fun h => k ∈ h.readonly

namespace Accounted

variable {l : AccountLocks} {held : List TransactionAccountLocks}

theorem default : Accounted AccountLocks.default [] where
  distinct := by simp
  compatible := List.Pairwise.nil
  write_locks := by simp [AccountLocks.default]
  readonly_locks := by simp [AccountLocks.default]

/-- Only the collection of held locks matters, not its order. -/
theorem perm (h : Accounted l held) {held' : List TransactionAccountLocks}
    (hp : held.Perm held') : Accounted l held' where
  distinct t ht := h.distinct t (hp.mem_iff.mpr ht)
  compatible := (hp.pairwise_iff fun hab => hab.symm).mp h.compatible
  write_locks k := by
    rw [h.write_locks k]
    exact ⟨fun ⟨t, ht, hk⟩ => ⟨t, hp.mem_iff.mp ht, hk⟩, fun ⟨t, ht, hk⟩ => ⟨t, hp.mem_iff.mpr ht, hk⟩⟩
  readonly_locks k := by
    rw [h.readonly_locks k]
    exact hp.countP_eq _

/-- No key is locked for writing and for reading at once. -/
theorem readonlyLocks_eq_zero (h : Accounted l held) {k : Pubkey} (hw : l.writeLocks k = true) :
    l.readonlyLocks k = 0 := by
  obtain ⟨t, ht, hkt⟩ := (h.write_locks k).mp hw
  rw [h.readonly_locks k, List.countP_eq_zero]
  intro u hu hku
  simp only [decide_eq_true_eq] at hku
  -- `u` reads `k`: it is another holder than `t`, which writes `k`
  obtain ⟨pre, post, rfl⟩ := List.append_of_mem ht
  rcases List.mem_append.mp hu with hu | hu
  · exact ((List.pairwise_append.mp h.compatible).2.2 u hu t List.mem_cons_self).2 k hkt hku
  · rcases List.mem_cons.mp hu with rfl | hu
    · exact (h.distinct u ht).not_mem_readonly hkt hku
    · have hPair := (List.pairwise_append.mp h.compatible).2.1
      exact ((List.pairwise_cons.mp hPair).1 u hu).1 k hkt |>.2 hku

/-- Step lemma for `lock_account`: the transaction's locks join the held ones. -/
theorem lockAccount (h : Accounted l held) {locks : TransactionAccountLocks}
    (hDistinct : locks.Distinct) {l' : AccountLocks}
    (hLock : Runtime.lockAccount l locks.writable locks.readonly = .ok l') :
    Accounted l' (held ++ [locks]) := by
  obtain ⟨hFree, hNotWritten, rfl⟩ := lockAccount_eq_ok.mp hLock
  -- what the checks say about the holders
  have hNoWriter : ∀ k, l.writeLocks k = false → ∀ t ∈ held, k ∉ t.writable := by
    intro k hk t ht hkt
    have := (h.write_locks k).mpr ⟨t, ht, hkt⟩
    simp [hk] at this
  have hNoReader : ∀ k, l.readonlyLocks k = 0 → ∀ t ∈ held, k ∉ t.readonly := by
    intro k hk t ht hkt
    rw [h.readonly_locks k, List.countP_eq_zero] at hk
    exact hk t ht (by simpa using hkt)
  refine ⟨?_, ?_, fun k => ?_, fun k => ?_⟩
  · intro t ht
    rcases List.mem_append.mp ht with ht | ht
    · exact h.distinct t ht
    · rw [List.mem_singleton.mp ht]
      exact hDistinct
  · refine List.pairwise_append.mpr ⟨h.compatible, List.pairwise_singleton _ _, ?_⟩
    intro t ht u hu
    rw [List.mem_singleton.mp hu]
    refine ⟨fun k hkt => ⟨fun hku => ?_, fun hku => ?_⟩, fun k hku hkt => ?_⟩
    · exact hNoWriter k (hFree k hku).1 t ht hkt
    · exact hNoWriter k (hNotWritten k hku) t ht hkt
    · exact hNoReader k (hFree k hku).2 t ht hkt
  · rw [foldl_field AccountLocks.writeLocks
      (fun l k => AccountLocks.takeReadonly_writeLocks l k),
      AccountLocks.foldl_insertWrite_writeLocks, h.write_locks k]
    simp only [List.mem_append, List.mem_singleton]
    constructor
    · rintro (⟨t, ht, hkt⟩ | hk)
      · exact ⟨t, Or.inl ht, hkt⟩
      · exact ⟨locks, Or.inr rfl, hk⟩
    · rintro ⟨t, ht | rfl, hkt⟩
      · exact Or.inl ⟨t, ht, hkt⟩
      · exact Or.inr hkt
  · rw [AccountLocks.foldl_takeReadonly_readonlyLocks,
      foldl_field AccountLocks.readonlyLocks
        (fun l k => AccountLocks.insertWrite_readonlyLocks l k),
      h.readonly_locks k, List.countP_append]
    -- a readonly key occurs once in the transaction's locks
    by_cases hk : k ∈ locks.readonly
    · simp [hk, List.count_eq_one_of_mem hDistinct.readonly_nodup hk]
    · simp [hk, List.count_eq_zero_of_not_mem hk]

/-- Step lemma for `unlock_account`: releasing a holder's locks leaves the other holders. -/
theorem unlockAccount {locks : TransactionAccountLocks} (h : Accounted l (locks :: held)) :
    Accounted (Runtime.unlockAccount l locks.writable locks.readonly) held := by
  have hOthers : ∀ t ∈ held, Compatible locks t := (List.pairwise_cons.mp h.compatible).1
  refine ⟨fun t ht => h.distinct t (List.mem_cons_of_mem _ ht),
    (List.pairwise_cons.mp h.compatible).2, fun k => ?_, fun k => ?_⟩
  · rw [Runtime.unlockAccount, foldl_field AccountLocks.writeLocks
      (fun l k => AccountLocks.unlockReadonly_writeLocks l k),
      AccountLocks.foldl_unlockWrite_writeLocks, h.write_locks k]
    constructor
    · rintro ⟨⟨t, ht, hkt⟩, hk⟩
      rcases List.mem_cons.mp ht with rfl | ht
      · exact absurd hkt hk
      · exact ⟨t, ht, hkt⟩
    · rintro ⟨t, ht, hkt⟩
      -- no other holder writes a key the released transaction writes
      exact ⟨⟨t, List.mem_cons_of_mem _ ht, hkt⟩, fun hk => ((hOthers t ht).1 k hk).1 hkt⟩
  · rw [Runtime.unlockAccount, AccountLocks.foldl_unlockReadonly_readonlyLocks,
      foldl_field AccountLocks.readonlyLocks
        (fun l k => AccountLocks.unlockWrite_readonlyLocks l k),
      h.readonly_locks k, List.countP_cons]
    have hNodup := (h.distinct locks List.mem_cons_self).readonly_nodup
    by_cases hk : k ∈ locks.readonly
    · simp [hk, List.count_eq_one_of_mem hNodup hk]
    · simp [hk, List.count_eq_zero_of_not_mem hk]

/-- Run lemma for the loop of `unlock_accounts`: releasing the locks of some holders, in
order, leaves the others. -/
theorem unlockAll (keys : List TransactionAccountLocks) :
    ∀ {l : AccountLocks}, Accounted l (keys ++ held) →
      Accounted (keys.foldl (fun l keys => Runtime.unlockAccount l keys.writable keys.readonly) l)
        held := by
  induction keys with
  | nil => exact fun h => h
  | cons locks rest ih => exact fun h => ih h.unlockAccount

end Accounted

/-! ### Batches -/

/-- The locks a batch holds: those of each transaction whose lock result is `Ok`. -/
def heldLocks (txs : List SanitizedTransaction) (results : List (Except TransactionError Unit)) :
    List TransactionAccountLocks :=
  ((txs.zip results).filter fun p => p.2.isOk).map fun p => p.1.getAccountLocksUnchecked

@[simp] theorem heldLocks_cons_ok (tx : SanitizedTransaction) (txs : List SanitizedTransaction)
    (results : List (Except TransactionError Unit)) :
    heldLocks (tx :: txs) (.ok () :: results) = tx.getAccountLocksUnchecked :: heldLocks txs results :=
  rfl

@[simp] theorem heldLocks_cons_error (tx : SanitizedTransaction) (txs : List SanitizedTransaction)
    (err : TransactionError) (results : List (Except TransactionError Unit)) :
    heldLocks (tx :: txs) (.error err :: results) = heldLocks txs results :=
  rfl

/-- A batch holds at most one lock set per transaction. -/
theorem heldLocks_length_le (txs : List SanitizedTransaction)
    (results : List (Except TransactionError Unit)) : (heldLocks txs results).length ≤ txs.length :=
  calc (heldLocks txs results).length ≤ (txs.zip results).length := by
        simpa only [heldLocks, List.length_map] using List.length_filter_le _ _
    _ ≤ txs.length := by simp

/-- Run lemma for `lock_accounts_inner`: every transaction it reports `Ok` joins the holders,
and it reports one result per transaction. The transactions come from `items` through
`toTx`, and `f` gives the lock request of each. -/
theorem Accounted.lockAccountsInner {β : Type} (toTx : β → SanitizedTransaction)
    (f : β → Except TransactionError TransactionAccountLocks)
    (hf : ∀ x locks, f x = .ok locks →
      locks = (toTx x).getAccountLocksUnchecked ∧ locks.Distinct) :
    ∀ (items : List β) {l : AccountLocks} {held : List TransactionAccountLocks},
      Accounted l held →
        Accounted (Runtime.lockAccountsInner l (items.map f)).1
          (held ++ heldLocks (items.map toTx) (Runtime.lockAccountsInner l (items.map f)).2) ∧
        (Runtime.lockAccountsInner l (items.map f)).2.length = items.length
  | [], _, _, h => by simpa [Runtime.lockAccountsInner, heldLocks] using h
  | x :: rest, l, held, h => by
      -- a transaction that is not locked leaves the locks to the rest of the batch
      have hSkip : ∀ err, Accounted (Runtime.lockAccountsInner l (rest.map f)).1
          (held ++ heldLocks ((x :: rest).map toTx)
            (.error err :: (Runtime.lockAccountsInner l (rest.map f)).2)) ∧
          (.error err :: (Runtime.lockAccountsInner l (rest.map f)).2).length =
            (x :: rest).length := by
        intro err
        obtain ⟨hAcc, hLen⟩ := Accounted.lockAccountsInner toTx f hf rest h
        exact ⟨by simpa using hAcc, by simpa using hLen⟩
      cases hfx : f x with
      | error err => simpa [Runtime.lockAccountsInner, hfx] using hSkip err
      | ok locks =>
          obtain ⟨rfl, hDistinct⟩ := hf x locks hfx
          rcases lockAccount_error_or_ok l (toTx x).getAccountLocksUnchecked.writable
              (toTx x).getAccountLocksUnchecked.readonly with ⟨err, hErr⟩ | hOk
          · simpa [Runtime.lockAccountsInner, hfx, hErr] using hSkip err
          · obtain ⟨hAcc, hLen⟩ := Accounted.lockAccountsInner toTx f hf rest
              (h.lockAccount hDistinct hOk)
            simp only [List.map_cons, Runtime.lockAccountsInner, hfx, hOk, List.length_cons]
            exact ⟨by simpa using hAcc, by simpa using hLen⟩

/-- What `lock_accounts_inner` reports: `Ok`, `AccountInUse`, or an error it was given. -/
theorem lockAccountsInner_result (l : AccountLocks) :
    ∀ (inputs : List (Except TransactionError TransactionAccountLocks)),
      ∀ r ∈ (Runtime.lockAccountsInner l inputs).2,
        r = .ok () ∨ r = .error .accountInUse ∨ ∃ err, r = .error err ∧ .error err ∈ inputs
  | [], r, hr => by simp [Runtime.lockAccountsInner] at hr
  | input :: rest, r, hr => by
      have hRest : ∀ l', ∀ r ∈ (Runtime.lockAccountsInner l' rest).2,
          r = .ok () ∨ r = .error .accountInUse ∨
            ∃ err, r = .error err ∧ .error err ∈ input :: rest := by
        intro l' r hr
        rcases lockAccountsInner_result l' rest r hr with h | h | ⟨err, rfl, hMem⟩
        · exact Or.inl h
        · exact Or.inr (Or.inl h)
        · exact Or.inr (Or.inr ⟨err, rfl, List.mem_cons_of_mem _ hMem⟩)
      cases input with
      | error err =>
          simp only [Runtime.lockAccountsInner, List.mem_cons] at hr
          rcases hr with rfl | hr
          · exact Or.inr (Or.inr ⟨err, rfl, List.mem_cons_self⟩)
          · exact hRest l r hr
      | ok locks =>
          cases hLock : Runtime.lockAccount l locks.writable locks.readonly with
          | error err =>
              simp only [Runtime.lockAccountsInner, hLock, List.mem_cons] at hr
              rcases hr with rfl | hr
              · exact Or.inr (Or.inl (by rw [lockAccount_eq_error hLock]))
              · exact hRest l r hr
          | ok l' =>
              simp only [Runtime.lockAccountsInner, hLock, List.mem_cons] at hr
              rcases hr with rfl | hr
              · exact Or.inl rfl
              · exact hRest l' r hr

/-- With every error among the nine it skips, `unlock_accounts` releases exactly the
transactions whose result is `Ok`. -/
theorem unlockAccounts_eq_of_skipped (l : AccountLocks) :
    ∀ (txs : List SanitizedTransaction) (results : List (Except TransactionError Unit)),
      (∀ r ∈ results, isUnlockedResult r = r.isOk) →
        unlockAccounts l txs results = (heldLocks txs results).foldl
          (fun l keys => Runtime.unlockAccount l keys.writable keys.readonly) l := by
  intro txs results hSkipped
  unfold unlockAccounts
  dsimp only
  congr 1
  induction txs generalizing results with
  | nil => rfl
  | cons tx rest ih =>
      cases results with
      | nil => rfl
      | cons r results =>
          have hRest := ih results fun r' hr' => hSkipped r' (List.mem_cons_of_mem _ hr')
          have hr := hSkipped r List.mem_cons_self
          cases r with
          | ok u =>
              cases u
              have hUnlocked : isUnlockedResult (.ok ()) = true := rfl
              simp [List.zip_cons_cons, hUnlocked, hRest]
          | error err =>
              have hSkip : isUnlockedResult (.error err) = false := hr
              simp [List.zip_cons_cons, hSkip, hRest]

/-- A live batch is listed once; taking it out of the list is a permutation. -/
theorem perm_cons_eraseIdx {α : Type} {l : List α} {i : Nat} {a : α} (h : l[i]? = some a) :
    l.Perm (a :: l.eraseIdx i) := by
  obtain ⟨hi, rfl⟩ := List.getElem?_eq_some_iff.mp h
  rw [List.eraseIdx_eq_take_drop_succ]
  have hSplit : l = l.take i ++ l[i] :: l.drop (i + 1) := by
    rw [← List.drop_eq_getElem_cons hi, List.take_append_drop]
  have hMiddle : List.Perm (l.take i ++ l[i] :: l.drop (i + 1))
      (l[i] :: (l.take i ++ l.drop (i + 1))) := List.perm_middle
  rw [← hSplit] at hMiddle
  exact hMiddle

/-! ### Runs of batches -/

/-- The locks the live batches hold. -/
def LockState.held (s : LockState) : List TransactionAccountLocks :=
  s.batches.flatMap fun b => heldLocks b.sanitizedTxs b.lockResults

/-- The locks held before a drop: those of the dropped batch and those of the others. -/
theorem LockState.held_perm_of_getElem_eq {s : LockState} {index : Nat} {batch : TransactionBatch}
    (hBatch : s.batches[index]? = some batch) :
    s.held.Perm (heldLocks batch.sanitizedTxs batch.lockResults ++
      (s.batches.eraseIdx index).flatMap fun b => heldLocks b.sanitizedTxs b.lockResults) := by
  simpa [LockState.held] using (perm_cons_eraseIdx hBatch).flatMap_right
    (fun b => heldLocks b.sanitizedTxs b.lockResults)

/-- The transactions a call submits. -/
def BatchEvent.txCount : BatchEvent → Nat
  | .prepare txs _ => txs.length
  | .prepareWithResults txs _ _ => txs.length
  | .drop _ => 0

/-- Step lemma: a call adds at most one lock set per transaction it submits. -/
theorem LockState.held_length_step {s s' : LockState} {event : BatchEvent}
    (hStep : s.step event = some s') : s'.held.length ≤ s.held.length + event.txCount := by
  cases event with
  | prepare txs limit =>
      obtain ⟨⟨locks, batch⟩, hPrep, rfl⟩ := Option.map_eq_some_iff.mp hStep
      obtain ⟨-, rfl⟩ := prepareSanitizedBatch_eq_some hPrep
      simpa [LockState.held, List.flatMap_append, BatchEvent.txCount] using heldLocks_length_le txs _
  | prepareWithResults txs results limit =>
      obtain ⟨⟨locks, batch⟩, hPrep, rfl⟩ := Option.map_eq_some_iff.mp hStep
      obtain ⟨-, rfl, -⟩ := prepareSanitizedBatchWithResults_eq_some hPrep
      simpa [LockState.held, List.flatMap_append, BatchEvent.txCount] using heldLocks_length_le txs _
  | drop index =>
      obtain ⟨batch, hBatch, rfl⟩ := Option.map_eq_some_iff.mp hStep
      have hLen := (LockState.held_perm_of_getElem_eq hBatch).length_eq
      simp only [LockState.held, List.length_append] at hLen ⊢
      simp only [BatchEvent.txCount]
      omega

/-- Run lemma: the live lock sets never outnumber the transactions submitted. -/
theorem LockState.held_length_run {s s' : LockState} {events : List BatchEvent}
    (hRun : s.run events = some s') :
    s'.held.length ≤ s.held.length + (events.map BatchEvent.txCount).sum := by
  induction events generalizing s with
  | nil =>
      cases hRun
      simp
  | cons event rest ih =>
      rw [LockState.run_cons, Option.bind_eq_some_iff] at hRun
      obtain ⟨mid, hMid, hRest⟩ := hRun
      have hFirst := LockState.held_length_step hMid
      have hLater := ih hRest
      rw [List.map_cons, List.sum_cons]
      omega

/-- A batch whose drop releases exactly what it holds: it has not been released yet, and
each of its errors is one of the nine that `unlock_accounts` skips. -/
def TransactionBatch.ReleasesHeld (b : TransactionBatch) : Prop :=
  b.needsUnlock = true ∧ ∀ r ∈ b.lockResults, isUnlockedResult r = r.isOk

/-- The run invariant: the lock table accounts for the live batches, and each of them releases
what it holds. -/
structure LockState.Sound (s : LockState) : Prop where
  accounted : Accounted s.accountLocks s.held
  releases : ∀ b ∈ s.batches, b.ReleasesHeld

/-- A call whose earlier errors, if it has any, are among the nine that `unlock_accounts`
skips. -/
def BatchEvent.SkippedErrors : BatchEvent → Prop
  | .prepareWithResults _ results _ => ∀ r ∈ results, isUnlockedResult r = r.isOk
  | _ => True

/-- The errors of `get_account_locks` are among the nine. -/
theorem getAccountLocks_error_skipped {tx : SanitizedTransaction} {limit : Nat}
    {err : TransactionError} (h : tx.getAccountLocks limit = .error err) :
    isUnlockedResult (.error err) = false := by
  unfold SanitizedTransaction.getAccountLocks SanitizedTransaction.validateAccountLocks at h
  split_ifs at h
  · simp only [Lib.Except.bind_error, Except.error.injEq] at h
    rw [← h]
    rfl
  · simp only [Lib.Except.bind_error, Except.error.injEq] at h
    rw [← h]
    rfl
  · simp [pure, Except.pure] at h

/-- Every result a batch gets carries an error among the nine, or is `Ok`, when the earlier
results it was given do. -/
theorem lockAccountsInner_skipped (l : AccountLocks)
    (inputs : List (Except TransactionError TransactionAccountLocks))
    (hInputs : ∀ err, .error err ∈ inputs → isUnlockedResult (.error err) = false) :
    ∀ r ∈ (Runtime.lockAccountsInner l inputs).2, isUnlockedResult r = r.isOk := by
  intro r hr
  rcases lockAccountsInner_result l inputs r hr with rfl | rfl | ⟨err, rfl, hMem⟩
  · rfl
  · rfl
  · exact hInputs err hMem

namespace LockState.Sound

variable {s s' : LockState}

theorem initial : LockState.initial.Sound :=
  ⟨by simpa [LockState.held, LockState.initial] using Accounted.default, by simp [LockState.initial]⟩

/-- A new batch joins the live ones. -/
theorem of_append (h : s.Sound) {locks : AccountLocks} {batch : TransactionBatch}
    (hAcc : Accounted locks (s.held ++ heldLocks batch.sanitizedTxs batch.lockResults))
    (hReleases : batch.ReleasesHeld) : (⟨locks, s.batches ++ [batch]⟩ : LockState).Sound where
  accounted := by simpa [LockState.held, List.flatMap_append] using hAcc
  releases b hb := by
    rcases List.mem_append.mp hb with hb | hb
    · exact h.releases b hb
    · rw [List.mem_singleton.mp hb]
      exact hReleases

/-- Step lemma for `prepare_sanitized_batch`. -/
theorem prepare (h : s.Sound) {txs : List SanitizedTransaction} {limit : Nat}
    (hStep : s.step (.prepare txs limit) = some s') : s'.Sound := by
  obtain ⟨⟨locks, batch⟩, hPrep, rfl⟩ := Option.map_eq_some_iff.mp hStep
  obtain ⟨rfl, rfl⟩ := prepareSanitizedBatch_eq_some hPrep
  have hf : ∀ (tx : SanitizedTransaction) (locks : TransactionAccountLocks),
      tx.getAccountLocks limit = .ok locks →
        locks = (id tx).getAccountLocksUnchecked ∧ locks.Distinct := fun _ _ hLocks =>
    ⟨(SanitizedTransaction.getAccountLocks_eq_ok hLocks).1,
      SanitizedTransaction.distinct_of_getAccountLocks hLocks⟩
  have hAcc := (h.accounted.lockAccountsInner id (·.getAccountLocks limit) hf txs).1
  rw [List.map_id] at hAcc
  refine h.of_append hAcc ⟨rfl, lockAccountsInner_skipped _ _ fun err hMem => ?_⟩
  obtain ⟨tx, -, hErr⟩ := List.mem_map.mp hMem
  exact getAccountLocks_error_skipped hErr

/-- Step lemma for `prepare_sanitized_batch_with_results`, given earlier errors among the
nine. -/
theorem prepareWithResults (h : s.Sound) {txs : List SanitizedTransaction}
    {results : List (Except TransactionError Unit)} {limit : Nat}
    (hResults : ∀ r ∈ results, isUnlockedResult r = r.isOk)
    (hStep : s.step (.prepareWithResults txs results limit) = some s') : s'.Sound := by
  obtain ⟨⟨locks, batch⟩, hPrep, rfl⟩ := Option.map_eq_some_iff.mp hStep
  obtain ⟨rfl, rfl, hLen⟩ := prepareSanitizedBatchWithResults_eq_some hPrep
  let f : SanitizedTransaction × Except TransactionError Unit →
      Except TransactionError TransactionAccountLocks := fun x =>
    x.2.bind fun _ => x.1.getAccountLocks limit
  have hf : ∀ x locks, f x = .ok locks →
      locks = x.1.getAccountLocksUnchecked ∧ locks.Distinct := by
    rintro ⟨tx, result⟩ locks hLocks
    cases result with
    | error err => cases hLocks
    | ok u =>
        exact ⟨(SanitizedTransaction.getAccountLocks_eq_ok hLocks).1,
          SanitizedTransaction.distinct_of_getAccountLocks hLocks⟩
  have hEq : lockAccountsWithResults s.accountLocks txs results limit =
      Runtime.lockAccountsInner s.accountLocks ((txs.zip results).map f) := by
    unfold lockAccountsWithResults
    congr 2
    funext x
    obtain ⟨tx, _ | _⟩ := x <;> rfl
  rw [hEq] at hLen ⊢
  obtain ⟨hAcc, hCount⟩ := h.accounted.lockAccountsInner Prod.fst f hf (txs.zip results)
  -- one result per transaction: no transaction was cut off by the `zip`
  have hTxs : (txs.zip results).map Prod.fst = txs := by
    apply List.map_fst_zip
    rw [hLen, List.length_zip] at hCount
    omega
  rw [hTxs] at hAcc
  refine h.of_append hAcc ⟨rfl, lockAccountsInner_skipped _ _ fun err hMem => ?_⟩
  obtain ⟨⟨tx, result⟩, hPair, hErr⟩ := List.mem_map.mp hMem
  cases result with
  | ok u => exact getAccountLocks_error_skipped hErr
  | error err' =>
      cases hErr
      exact hResults _ (List.of_mem_zip hPair).2

/-- Step lemma for the drop of a live batch: `unlock_accounts` releases exactly what the batch
holds. -/
theorem drop (h : s.Sound) {index : Nat} (hStep : s.step (.drop index) = some s') : s'.Sound := by
  obtain ⟨batch, hBatch, rfl⟩ := Option.map_eq_some_iff.mp hStep
  obtain ⟨hNeeds, hSkipped⟩ := h.releases batch (List.mem_of_getElem? hBatch)
  have hPerm := LockState.held_perm_of_getElem_eq hBatch
  refine ⟨?_, fun b hb => h.releases b (List.mem_of_mem_eraseIdx hb)⟩
  simp only [unlockBatch, hNeeds, if_true]
  rw [unlockAccounts_eq_of_skipped _ _ _ hSkipped]
  exact (h.accounted.perm hPerm).unlockAll _

/-- Step lemma for any call whose earlier errors are among the nine. -/
theorem step (h : s.Sound) {event : BatchEvent} (hEvent : event.SkippedErrors)
    (hStep : s.step event = some s') : s'.Sound := by
  cases event with
  | prepare txs limit => exact h.prepare hStep
  | prepareWithResults txs results limit => exact h.prepareWithResults hEvent hStep
  | drop index => exact h.drop hStep

/-- Run lemma: induction on the calls. -/
theorem run (h : s.Sound) {events : List BatchEvent} (hEvents : ∀ e ∈ events, e.SkippedErrors)
    (hRun : s.run events = some s') : s'.Sound := by
  induction events generalizing s with
  | nil =>
      cases hRun
      exact h
  | cons event rest ih =>
      rw [LockState.run_cons, Option.bind_eq_some_iff] at hRun
      obtain ⟨mid, hMid, hRest⟩ := hRun
      exact ih (h.step (hEvents event List.mem_cons_self) hMid)
        (fun e he => hEvents e (List.mem_cons_of_mem _ he)) hRest

end LockState.Sound

/-- Over every interleaving of batches from the bank's initial locks whose earlier errors are
among the nine that `unlock_accounts` skips, the lock table at every point is the locks the
live transactions hold: a key is write-locked exactly when one of them writes it, its read
count is the number of them that read it, no key is locked both ways, and no two of them share
a key that either writes. A run that submits fewer than `2^64` transactions keeps every read
count below `2^64`, so the source's `u64` count never wraps. -/
theorem run_locks_exclusive {events : List BatchEvent} {s : LockState}
    (hEvents : ∀ e ∈ events, e.SkippedErrors) (hRun : LockState.initial.run events = some s)
    (hSubmitted : (events.map BatchEvent.txCount).sum < 2 ^ 64) :
    (∀ k, s.accountLocks.writeLocks k = true ↔ ∃ h ∈ s.held, k ∈ h.writable) ∧
      (∀ k, s.accountLocks.readonlyLocks k = s.held.countP fun h => k ∈ h.readonly) ∧
      (∀ k, s.accountLocks.writeLocks k = true → s.accountLocks.readonlyLocks k = 0) ∧
      s.held.Pairwise Compatible ∧
      ∀ k, s.accountLocks.readonlyLocks k < 2 ^ 64 := by
  have hSound := LockState.Sound.initial.run hEvents hRun
  have hHeld := LockState.held_length_run hRun
  have hCount : ∀ k, s.accountLocks.readonlyLocks k < 2 ^ 64 := fun k =>
    calc s.accountLocks.readonlyLocks k = s.held.countP (fun h => k ∈ h.readonly) :=
          hSound.accounted.readonly_locks k
      _ ≤ s.held.length := List.countP_le_length
      _ < 2 ^ 64 := by
        have hInitial : LockState.initial.held.length = 0 := rfl
        omega
  exact ⟨hSound.accounted.write_locks, hSound.accounted.readonly_locks,
    fun _ hw => hSound.accounted.readonlyLocks_eq_zero hw, hSound.accounted.compatible, hCount⟩

/-- A transaction that writes its fee payer and reads one other key. -/
def payerReaderTx (payer reader : Pubkey) (recentBlockhash : Hash) : SanitizedTransaction :=
  ⟨.legacy ⟨⟨1, 0, 1⟩, [payer, reader], recentBlockhash, []⟩, Hash.default, false, []⟩

/-- Two batches that read one key, the first of them then dropped. -/
def sharedReaderEvents : List BatchEvent :=
  [.prepare [payerReaderTx ⟨Vector.replicate 32 1⟩ ⟨Vector.replicate 32 3⟩ Hash.default]
      maxTxAccountLocks,
    .prepare [payerReaderTx ⟨Vector.replicate 32 2⟩ ⟨Vector.replicate 32 3⟩ Hash.default]
      maxTxAccountLocks,
    .drop 0]

/-- After those calls the shared key keeps the read lock of the batch still live. -/
theorem run_locks_exclusive_shared_reader :
    ∃ s, LockState.initial.run sharedReaderEvents = some s ∧
      s.accountLocks.readonlyLocks ⟨Vector.replicate 32 3⟩ = 1 ∧
      ∀ k, s.accountLocks.readonlyLocks k < 2 ^ 64 :=
  ⟨_, rfl, by decide +kernel,
    (@run_locks_exclusive sharedReaderEvents _ (by simp [sharedReaderEvents, BatchEvent.SkippedErrors])
      rfl (by simp [sharedReaderEvents, BatchEvent.txCount])).2.2.2.2⟩

/-! ### An earlier error that `unlock_accounts` does not skip -/

/-- A transaction whose only key is its fee payer, which it writes. -/
def payerOnlyTx (payer : Pubkey) (recentBlockhash : Hash) : SanitizedTransaction :=
  ⟨.legacy ⟨⟨1, 0, 0⟩, [payer], recentBlockhash, []⟩, Hash.default, false, []⟩

/-- A batch prepared with the earlier result `ResanitizationNeeded` never locks its transaction,
yet its drop releases that transaction's keys: here the write lock of a live batch on the same
fee payer. A third transaction writing that key is then locked while the first still holds
it. -/
theorem drop_releases_lock_of_live_batch :
    ∃ s s', LockState.initial.run
        [.prepare [payerOnlyTx ⟨Vector.replicate 32 1⟩ ⟨Vector.replicate 32 1⟩] maxTxAccountLocks,
          .prepareWithResults [payerOnlyTx ⟨Vector.replicate 32 1⟩ ⟨Vector.replicate 32 2⟩]
            [.error .resanitizationNeeded] maxTxAccountLocks,
          .drop 1] = some s ∧
      s.step (.prepare [payerOnlyTx ⟨Vector.replicate 32 1⟩ ⟨Vector.replicate 32 3⟩]
        maxTxAccountLocks) = some s' ∧
      (∃ h ∈ s.held, (⟨Vector.replicate 32 1⟩ : Pubkey) ∈ h.writable) ∧
      s.accountLocks.writeLocks ⟨Vector.replicate 32 1⟩ = false ∧
      s'.held.countP (fun h => (⟨Vector.replicate 32 1⟩ : Pubkey) ∈ h.writable) = 2 := by
  refine ⟨_, _, rfl, rfl, ?_, ?_, ?_⟩
  · decide +kernel
  · decide +kernel
  · decide +kernel

end PutValidator.Runtime
