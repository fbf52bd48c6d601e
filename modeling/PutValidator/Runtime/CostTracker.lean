import PutValidator.Sdk.Primitives
import PutValidator.Lib.EState
import PutValidator.Lib.Except
import PutValidator.Lib.List
import PutValidator.Lib.Word

/-! The block cost tracker (`runtime/src/cost_tracker.rs`): the compute units a block has taken
in all, in simple votes and per writable account, the account data it has allocated and the
transactions it holds. `try_add` admits a transaction when `would_fit` finds room for its cost
under every limit, and then adds the cost everywhere; `remove` takes it out again. The tracker is
for keeping these totals exact and within the limits: `Accounts` says the fields are the totals
of the transactions accepted, `WithinLimits` that they are under the limits, and
`tryAddEach_accounts` carries both over any sequence of `try_add` calls. -/
namespace PutValidator

open Lib.Word Lib.Except

/-- `MAX_BLOCK_REPLAY_TIME_US`. -/
def maxBlockReplayTimeUs : Nat := 400000

/-- `COMPUTE_UNIT_TO_US_RATIO`. -/
def computeUnitToUsRatio : Nat := 30

/-- `MAX_CONCURRENCY`. -/
def maxConcurrency : Nat := 4

/-- `MAX_BLOCK_UNITS`. -/
def maxBlockUnits : Nat := maxBlockReplayTimeUs * computeUnitToUsRatio * maxConcurrency

/-- `MAX_WRITABLE_ACCOUNT_UNITS`. -/
def maxWritableAccountUnits : Nat := maxBlockReplayTimeUs * computeUnitToUsRatio

/-- `MAX_VOTE_UNITS`, `(MAX_BLOCK_UNITS as f64 * 0.75) as u64`: three quarters of
`MAX_BLOCK_UNITS`, which the float computes exactly. -/
def maxVoteUnits : Nat := maxBlockUnits * 3 / 4

/-- `MAX_BLOCK_ACCOUNTS_DATA_SIZE_DELTA`. -/
def maxBlockAccountsDataSizeDelta : Nat := 100000000

/-- `TransactionCost`, as `CostModel::calculate_cost` fills it in. -/
structure TransactionCost where
  writableAccounts : List Pubkey
  signatureCost : Nat
  writeLockCost : Nat
  dataBytesCost : Nat
  builtinsExecutionCost : Nat
  bpfExecutionCost : Nat
  accountDataSize : Nat
  isSimpleVote : Bool
deriving DecidableEq, Repr

/-- `TransactionCost::default()`: no writable account, no cost and no data. -/
def TransactionCost.default : TransactionCost := ⟨[], 0, 0, 0, 0, 0, 0, false⟩

/-- `TransactionCost::sum`. -/
def TransactionCost.sum (txCost : TransactionCost) : Nat :=
  saturatingAdd 64 (saturatingAdd 64 (saturatingAdd 64 (saturatingAdd 64 txCost.signatureCost
    txCost.writeLockCost) txCost.dataBytesCost) txCost.builtinsExecutionCost)
    txCost.bpfExecutionCost

/-- `CostTrackerError`. -/
inductive CostTrackerError
  | wouldExceedBlockMaxLimit
  | wouldExceedVoteMaxLimit
  | wouldExceedAccountMaxLimit
  | wouldExceedAccountDataBlockLimit
  | wouldExceedAccountDataTotalLimit
deriving DecidableEq, Repr

structure CostTracker where
  accountCostLimit : Nat
  blockCostLimit : Nat
  voteCostLimit : Nat
  /-- `cost_by_writable_accounts`, a `HashMap` that the tracker reads and updates by key. -/
  costByWritableAccounts : Pubkey → Option Nat
  blockCost : Nat
  voteCost : Nat
  transactionCount : Nat
  accountDataSize : Nat
  accountDataSizeLimit : Option Nat

namespace CostTracker

/-- `CostTracker::default`. -/
def default : CostTracker :=
  ⟨maxWritableAccountUnits, maxBlockUnits, maxVoteUnits, fun _ => none, 0, 0, 0, 0, none⟩

/-- `new_with_account_data_size_limit`. -/
def newWithAccountDataSizeLimit (accountDataSizeLimit : Option Nat) : CostTracker :=
  { default with accountDataSizeLimit }

/-- `set_limits`. -/
def setLimits (c : CostTracker) (accountCostLimit blockCostLimit voteCostLimit : Nat) :
    CostTracker :=
  { c with accountCostLimit, blockCostLimit, voteCostLimit }

/-- `would_fit`: room for the transaction's cost in the block, in the votes, in the transaction's
own account limit and in each writable account already charged, and for its data under the
total and the block limits, in the source's order of checks. -/
def wouldFit (c : CostTracker) (txCost : TransactionCost) : Except CostTrackerError Unit := do
  let cost := txCost.sum
  let voteCost := if txCost.isSimpleVote then cost else 0
  failIf (c.blockCostLimit < saturatingAdd 64 c.blockCost cost) .wouldExceedBlockMaxLimit
  failIf (c.voteCostLimit < saturatingAdd 64 c.voteCost voteCost) .wouldExceedVoteMaxLimit
  failIf (c.accountCostLimit < cost) .wouldExceedAccountMaxLimit
  let accountDataSize := saturatingAdd 64 c.accountDataSize txCost.accountDataSize
  (match c.accountDataSizeLimit with
    | some accountDataSizeLimit =>
        failIf (accountDataSizeLimit < accountDataSize) .wouldExceedAccountDataTotalLimit
    | none => pure ())
  failIf (maxBlockAccountsDataSizeDelta < accountDataSize) .wouldExceedAccountDataBlockLimit
  -- an account not yet in the map is covered by the check of `cost` alone
  txCost.writableAccounts.forM fun accountKey =>
    match c.costByWritableAccounts accountKey with
    | some chainedCost =>
        failIf (c.accountCostLimit < saturatingAdd 64 chainedCost cost)
          .wouldExceedAccountMaxLimit
    | none => pure ()

/-- The loop of `add_transaction_execution_cost` and `sub_transaction_execution_cost`: the cost
of each writable account, `entry(..).or_insert(0)`, then the block cost and the vote cost of a
simple vote, each moved by `adjustment` through `op`. -/
def applyExecutionCost (op : Nat → Nat → Nat) (c : CostTracker) (txCost : TransactionCost)
    (adjustment : Nat) : CostTracker :=
  { c with
    costByWritableAccounts := txCost.writableAccounts.foldl
      (fun costs accountKey =>
        Function.update costs accountKey (some (op ((costs accountKey).getD 0) adjustment)))
      c.costByWritableAccounts
    blockCost := op c.blockCost adjustment
    voteCost := if txCost.isSimpleVote then op c.voteCost adjustment else c.voteCost }

/-- `add_transaction_execution_cost`. -/
def addTransactionExecutionCost (c : CostTracker) (txCost : TransactionCost)
    (adjustment : Nat) : CostTracker :=
  applyExecutionCost (saturatingAdd 64) c txCost adjustment

/-- `sub_transaction_execution_cost`: `saturating_sub`, the subtraction of `Nat`. -/
def subTransactionExecutionCost (c : CostTracker) (txCost : TransactionCost)
    (adjustment : Nat) : CostTracker :=
  applyExecutionCost (· - ·) c txCost adjustment

/-- `add_transaction_cost`. -/
def addTransactionCost (c : CostTracker) (txCost : TransactionCost) : CostTracker :=
  let c := c.addTransactionExecutionCost txCost txCost.sum
  { c with
    accountDataSize := saturatingAdd 64 c.accountDataSize txCost.accountDataSize
    transactionCount := saturatingAdd 64 c.transactionCount 1 }

/-- `remove_transaction_cost`. -/
def removeTransactionCost (c : CostTracker) (txCost : TransactionCost) : CostTracker :=
  let cost := txCost.sum
  let c := c.subTransactionExecutionCost txCost cost
  { c with
    accountDataSize := c.accountDataSize - txCost.accountDataSize
    transactionCount := c.transactionCount - 1 }

/-- `update_execution_cost`: the difference between the actual and the estimated execution units,
added or taken away. -/
def updateExecutionCost (c : CostTracker) (estimatedTxCost : TransactionCost)
    (actualExecutionUnits : Nat) : CostTracker :=
  let estimatedExecutionUnits := estimatedTxCost.bpfExecutionCost
  if estimatedExecutionUnits < actualExecutionUnits then
    c.addTransactionExecutionCost estimatedTxCost (actualExecutionUnits - estimatedExecutionUnits)
  else if actualExecutionUnits < estimatedExecutionUnits then
    c.subTransactionExecutionCost estimatedTxCost (estimatedExecutionUnits - actualExecutionUnits)
  else c

/-- `try_add`, a `&mut self` method: the block cost after the transaction. -/
def tryAdd (txCost : TransactionCost) : EStateM CostTrackerError CostTracker Nat := do
  liftExcept ((← get).wouldFit txCost)
  modify (·.addTransactionCost txCost)
  return (← get).blockCost

/-- `remove`. -/
def remove (c : CostTracker) (txCost : TransactionCost) : CostTracker :=
  c.removeTransactionCost txCost

/-- `try_add` on each transaction in turn, whatever the last one returned: the tracker at the
end, and the transactions accepted, in order. -/
def tryAddEach : List TransactionCost → CostTracker → CostTracker × List TransactionCost
  | [], c => (c, [])
  | txCost :: rest, c =>
      match (tryAdd txCost).run c with
      | .ok _ c' => ((tryAddEach rest c').1, txCost :: (tryAddEach rest c').2)
      | .error _ c' => tryAddEach rest c'

/-! ### What `would_fit` admits

Under limits below `u64::MAX`, a saturating sum that `would_fit` lets through is under its
limit and so is the sum itself. -/

theorem default_eq_newWithAccountDataSizeLimit : default = newWithAccountDataSizeLimit none :=
  rfl

/-- The three cost limits are below `u64::MAX`. -/
structure LimitsFit (c : CostTracker) : Prop where
  accountCostLimit : c.accountCostLimit < maxValue 64
  blockCostLimit : c.blockCostLimit < maxValue 64
  voteCostLimit : c.voteCostLimit < maxValue 64

/-- The checks of `would_fit`, with every sum taken in the naturals. -/
structure Fits (c : CostTracker) (txCost : TransactionCost) : Prop where
  blockCost : c.blockCost + txCost.sum ≤ c.blockCostLimit
  voteCost : c.voteCost + (if txCost.isSimpleVote then txCost.sum else 0) ≤ c.voteCostLimit
  accountCost : ∀ k ∈ txCost.writableAccounts,
    (c.costByWritableAccounts k).getD 0 + txCost.sum ≤ c.accountCostLimit
  accountDataSizeLimit : ∀ limit, c.accountDataSizeLimit = some limit →
    c.accountDataSize + txCost.accountDataSize ≤ limit
  accountDataSize : c.accountDataSize + txCost.accountDataSize ≤ maxBlockAccountsDataSizeDelta

theorem maxBlockAccountsDataSizeDelta_lt : maxBlockAccountsDataSizeDelta < maxValue 64 := by
  decide

theorem fits_of_wouldFit {c : CostTracker} {txCost : TransactionCost} (hLim : LimitsFit c)
    (h : c.wouldFit txCost = .ok ()) : Fits c txCost := by
  simp only [wouldFit, bind_eq_ok, failIf_eq_ok, forM_eq_ok, Nat.not_lt] at h
  obtain ⟨_, hBlock, _, hVote, _, hTxCost, _, hLimit, _, hDelta, hAccounts⟩ := h
  -- the block limit on data is below `u64::MAX`, so the data size is added exactly
  have hDeltaFit := maxBlockAccountsDataSizeDelta_lt
  have hData := add_le_of_saturatingAdd_le hDelta hDeltaFit
  refine ⟨add_le_of_saturatingAdd_le hBlock hLim.blockCostLimit,
    add_le_of_saturatingAdd_le hVote hLim.voteCostLimit, ?_, ?_, hData⟩
  · intro k hk
    have hChained := hAccounts k hk
    cases hCost : c.costByWritableAccounts k with
    | none =>
        -- an account not yet charged is held to the cost of the transaction alone
        rw [Option.getD_none, Nat.zero_add]
        exact hTxCost
    | some chainedCost =>
        simp only [hCost, failIf_eq_ok, Nat.not_lt] at hChained
        exact add_le_of_saturatingAdd_le hChained hLim.accountCostLimit
  · intro limit hL
    simp only [hL, failIf_eq_ok, Nat.not_lt] at hLimit
    rw [← saturatingAdd_of_le (show _ ≤ maxValue 64 by omega)]
    exact hLimit

/-! ### Adding and taking out a transaction's cost -/

section Apply

variable (c : CostTracker) (txCost : TransactionCost)

/-- Over duplicate-free writable accounts, the loop moves the cost of each of them once. -/
theorem costByWritableAccounts_applyExecutionCost (op : Nat → Nat → Nat)
    (hNodup : txCost.writableAccounts.Nodup) (adjustment : Nat) (k : Pubkey) :
    (c.applyExecutionCost op txCost adjustment).costByWritableAccounts k =
      if k ∈ txCost.writableAccounts then
        some (op ((c.costByWritableAccounts k).getD 0) adjustment)
      else c.costByWritableAccounts k := by
  have hLoop := Lib.List.foldl_update_apply (fun cost => some (op (cost.getD 0) adjustment))
    txCost.writableAccounts c.costByWritableAccounts k
  refine hLoop.trans ?_
  by_cases hk : k ∈ txCost.writableAccounts
  · rw [List.count_eq_one_of_mem hNodup hk, if_pos hk]
    rfl
  · rw [List.count_eq_zero_of_not_mem hk, if_neg hk]
    rfl

@[simp] theorem blockCost_addTransactionCost :
    (c.addTransactionCost txCost).blockCost = saturatingAdd 64 c.blockCost txCost.sum := rfl

@[simp] theorem voteCost_addTransactionCost :
    (c.addTransactionCost txCost).voteCost =
      if txCost.isSimpleVote then saturatingAdd 64 c.voteCost txCost.sum else c.voteCost := rfl

theorem costByWritableAccounts_addTransactionCost :
    (c.addTransactionCost txCost).costByWritableAccounts =
      (c.applyExecutionCost (saturatingAdd 64) txCost txCost.sum).costByWritableAccounts := rfl

@[simp] theorem accountDataSize_addTransactionCost :
    (c.addTransactionCost txCost).accountDataSize =
      saturatingAdd 64 c.accountDataSize txCost.accountDataSize := rfl

@[simp] theorem transactionCount_addTransactionCost :
    (c.addTransactionCost txCost).transactionCount = saturatingAdd 64 c.transactionCount 1 := rfl

/-- Adding a transaction's cost leaves the limits as they were. -/
@[simp] theorem limits_addTransactionCost :
    (c.addTransactionCost txCost).accountCostLimit = c.accountCostLimit ∧
      (c.addTransactionCost txCost).blockCostLimit = c.blockCostLimit ∧
      (c.addTransactionCost txCost).voteCostLimit = c.voteCostLimit ∧
      (c.addTransactionCost txCost).accountDataSizeLimit = c.accountDataSizeLimit :=
  ⟨rfl, rfl, rfl, rfl⟩

@[simp] theorem blockCost_removeTransactionCost :
    (c.removeTransactionCost txCost).blockCost = c.blockCost - txCost.sum := rfl

@[simp] theorem voteCost_removeTransactionCost :
    (c.removeTransactionCost txCost).voteCost =
      if txCost.isSimpleVote then c.voteCost - txCost.sum else c.voteCost := rfl

theorem costByWritableAccounts_removeTransactionCost :
    (c.removeTransactionCost txCost).costByWritableAccounts =
      (c.applyExecutionCost (· - ·) txCost txCost.sum).costByWritableAccounts := rfl

@[simp] theorem accountDataSize_removeTransactionCost :
    (c.removeTransactionCost txCost).accountDataSize = c.accountDataSize - txCost.accountDataSize :=
  rfl

@[simp] theorem transactionCount_removeTransactionCost :
    (c.removeTransactionCost txCost).transactionCount = c.transactionCount - 1 := rfl

end Apply

/-! ### A transaction that fits

What `would_fit` admits is added exactly, and `remove_transaction_cost` takes out what
`add_transaction_cost` put in. -/

section Exact

variable {c : CostTracker} {txCost : TransactionCost}

theorem Fits.addTransactionCost_blockCost (hLim : LimitsFit c) (hFit : Fits c txCost) :
    (c.addTransactionCost txCost).blockCost = c.blockCost + txCost.sum := by
  have := hFit.blockCost
  have := hLim.blockCostLimit
  rw [blockCost_addTransactionCost]
  exact saturatingAdd_of_le (by omega)

theorem Fits.addTransactionCost_voteCost (hLim : LimitsFit c) (hFit : Fits c txCost) :
    (c.addTransactionCost txCost).voteCost =
      c.voteCost + if txCost.isSimpleVote then txCost.sum else 0 := by
  have hVote := hFit.voteCost
  have := hLim.voteCostLimit
  cases hSimple : txCost.isSimpleVote
  · simp [hSimple]
  · simp only [hSimple, if_true] at hVote
    simp only [voteCost_addTransactionCost, hSimple, if_true]
    exact saturatingAdd_of_le (by omega)

theorem Fits.addTransactionCost_accountCost (hLim : LimitsFit c) (hFit : Fits c txCost)
    (hNodup : txCost.writableAccounts.Nodup) (k : Pubkey) :
    ((c.addTransactionCost txCost).costByWritableAccounts k).getD 0 =
      (c.costByWritableAccounts k).getD 0 +
        if k ∈ txCost.writableAccounts then txCost.sum else 0 := by
  rw [costByWritableAccounts_addTransactionCost,
    costByWritableAccounts_applyExecutionCost _ _ _ hNodup]
  by_cases hk : k ∈ txCost.writableAccounts
  · have := hFit.accountCost k hk
    have := hLim.accountCostLimit
    rw [if_pos hk, if_pos hk, Option.getD_some]
    exact saturatingAdd_of_le (by omega)
  · rw [if_neg hk, if_neg hk, Nat.add_zero]

theorem Fits.addTransactionCost_accountDataSize (hFit : Fits c txCost) :
    (c.addTransactionCost txCost).accountDataSize = c.accountDataSize + txCost.accountDataSize := by
  have := hFit.accountDataSize
  have := maxBlockAccountsDataSizeDelta_lt
  rw [accountDataSize_addTransactionCost]
  exact saturatingAdd_of_le (by omega)

/-- Two trackers hold the same totals: costs, data size, count and the cost of every account,
`0` for one not in the map. -/
structure SameTotals (c c' : CostTracker) : Prop where
  blockCost : c'.blockCost = c.blockCost
  voteCost : c'.voteCost = c.voteCost
  accountCost : ∀ k, (c'.costByWritableAccounts k).getD 0 = (c.costByWritableAccounts k).getD 0
  accountDataSize : c'.accountDataSize = c.accountDataSize
  transactionCount : c'.transactionCount = c.transactionCount

/-- Taking out a transaction that fitted restores every total, the count as long as it had not
reached `u64::MAX`. -/
theorem Fits.sameTotals_removeTransactionCost (hLim : LimitsFit c) (hFit : Fits c txCost)
    (hNodup : txCost.writableAccounts.Nodup) (hCount : c.transactionCount < maxValue 64) :
    SameTotals c ((c.addTransactionCost txCost).removeTransactionCost txCost) := by
  refine ⟨?_, ?_, fun k => ?_, ?_, ?_⟩
  · rw [blockCost_removeTransactionCost, hFit.addTransactionCost_blockCost hLim,
      Nat.add_sub_cancel]
  · rw [voteCost_removeTransactionCost, hFit.addTransactionCost_voteCost hLim]
    cases txCost.isSimpleVote <;> simp
  · rw [costByWritableAccounts_removeTransactionCost,
      costByWritableAccounts_applyExecutionCost _ _ _ hNodup]
    by_cases hk : k ∈ txCost.writableAccounts
    · rw [if_pos hk, Option.getD_some, hFit.addTransactionCost_accountCost hLim hNodup, if_pos hk,
        Nat.add_sub_cancel]
    · rw [if_neg hk, costByWritableAccounts_addTransactionCost,
        costByWritableAccounts_applyExecutionCost _ _ _ hNodup, if_neg hk]
  · rw [accountDataSize_removeTransactionCost, hFit.addTransactionCost_accountDataSize,
      Nat.add_sub_cancel]
  · rw [transactionCount_removeTransactionCost, transactionCount_addTransactionCost,
      saturatingAdd_of_le (by omega), Nat.add_sub_cancel]

end Exact

/-! ### The totals a tracker keeps -/

/-- The compute units of the transactions `accepted`, summed in the naturals. -/
def blockTotal (accepted : List TransactionCost) : Nat :=
  (accepted.map TransactionCost.sum).sum

/-- The compute units of the simple votes among them. -/
def voteTotal (accepted : List TransactionCost) : Nat :=
  ((accepted.filter (·.isSimpleVote)).map TransactionCost.sum).sum

/-- The compute units of those that write account `k`. -/
def accountTotal (accepted : List TransactionCost) (k : Pubkey) : Nat :=
  ((accepted.filter (fun txCost => k ∈ txCost.writableAccounts)).map TransactionCost.sum).sum

/-- The account data they allocate. -/
def dataTotal (accepted : List TransactionCost) : Nat :=
  (accepted.map (·.accountDataSize)).sum

section Totals

variable (accepted : List TransactionCost) (txCost : TransactionCost)

@[simp] theorem blockTotal_append_singleton :
    blockTotal (accepted ++ [txCost]) = blockTotal accepted + txCost.sum := by
  simp [blockTotal]

@[simp] theorem voteTotal_append_singleton :
    voteTotal (accepted ++ [txCost]) =
      voteTotal accepted + if txCost.isSimpleVote then txCost.sum else 0 := by
  cases h : txCost.isSimpleVote <;> simp [voteTotal, h]

@[simp] theorem accountTotal_append_singleton (k : Pubkey) :
    accountTotal (accepted ++ [txCost]) k =
      accountTotal accepted k + if k ∈ txCost.writableAccounts then txCost.sum else 0 := by
  by_cases hk : k ∈ txCost.writableAccounts <;> simp [accountTotal, hk]

@[simp] theorem dataTotal_append_singleton :
    dataTotal (accepted ++ [txCost]) = dataTotal accepted + txCost.accountDataSize := by
  simp [dataTotal]

end Totals

/-- The tracker holds the totals of the transactions `accepted`, and their number up to
`u64::MAX`, where `transaction_count` saturates. -/
structure Accounts (c : CostTracker) (accepted : List TransactionCost) : Prop where
  blockCost : c.blockCost = blockTotal accepted
  voteCost : c.voteCost = voteTotal accepted
  accountCost : ∀ k, (c.costByWritableAccounts k).getD 0 = accountTotal accepted k
  accountDataSize : c.accountDataSize = dataTotal accepted
  transactionCount : c.transactionCount = min accepted.length (maxValue 64)

/-- Every total is under its limit. -/
structure WithinLimits (c : CostTracker) : Prop where
  blockCost : c.blockCost ≤ c.blockCostLimit
  voteCost : c.voteCost ≤ c.voteCostLimit
  accountCost : ∀ k, (c.costByWritableAccounts k).getD 0 ≤ c.accountCostLimit
  accountDataSizeLimit : ∀ limit, c.accountDataSizeLimit = some limit →
    c.accountDataSize ≤ limit
  accountDataSize : c.accountDataSize ≤ maxBlockAccountsDataSizeDelta

section Step

variable {c : CostTracker} {txCost : TransactionCost}

theorem LimitsFit.addTransactionCost (hLim : LimitsFit c) :
    LimitsFit (c.addTransactionCost txCost) :=
  ⟨hLim.accountCostLimit, hLim.blockCostLimit, hLim.voteCostLimit⟩

/-- Step lemma: adding a transaction that fits adds it to the totals. -/
theorem Accounts.addTransactionCost {accepted : List TransactionCost} (hAcc : Accounts c accepted)
    (hLim : LimitsFit c) (hFit : Fits c txCost) (hNodup : txCost.writableAccounts.Nodup) :
    Accounts (c.addTransactionCost txCost) (accepted ++ [txCost]) := by
  refine ⟨?_, ?_, fun k => ?_, ?_, ?_⟩
  · rw [hFit.addTransactionCost_blockCost hLim, hAcc.blockCost, blockTotal_append_singleton]
  · rw [hFit.addTransactionCost_voteCost hLim, hAcc.voteCost, voteTotal_append_singleton]
  · rw [hFit.addTransactionCost_accountCost hLim hNodup, hAcc.accountCost,
      accountTotal_append_singleton]
  · rw [hFit.addTransactionCost_accountDataSize, hAcc.accountDataSize,
      dataTotal_append_singleton]
  · -- the count saturates, and stays at `u64::MAX` once there
    rw [transactionCount_addTransactionCost, hAcc.transactionCount, List.length_append,
      List.length_singleton]
    unfold saturatingAdd
    omega

/-- Step lemma: a transaction that fits keeps every total under its limit. -/
theorem WithinLimits.addTransactionCost (hWithin : WithinLimits c) (hLim : LimitsFit c)
    (hFit : Fits c txCost) (hNodup : txCost.writableAccounts.Nodup) :
    WithinLimits (c.addTransactionCost txCost) := by
  refine ⟨?_, ?_, fun k => ?_, fun limit hLimit => ?_, ?_⟩
  · rw [hFit.addTransactionCost_blockCost hLim]
    exact hFit.blockCost
  · rw [hFit.addTransactionCost_voteCost hLim]
    exact hFit.voteCost
  · rw [hFit.addTransactionCost_accountCost hLim hNodup]
    by_cases hk : k ∈ txCost.writableAccounts
    · rw [if_pos hk]
      exact hFit.accountCost k hk
    · rw [if_neg hk, Nat.add_zero]
      exact hWithin.accountCost k
  · rw [hFit.addTransactionCost_accountDataSize]
    exact hFit.accountDataSizeLimit limit hLimit
  · rw [hFit.addTransactionCost_accountDataSize]
    exact hFit.accountDataSize

end Step

/-! ### Runs of `try_add` -/

theorem run_tryAdd (txCost : TransactionCost) (c : CostTracker) :
    (tryAdd txCost).run c =
      match c.wouldFit txCost with
      | .ok _ => .ok (c.addTransactionCost txCost).blockCost (c.addTransactionCost txCost)
      | .error e => .error e c := by
  unfold tryAdd
  rw [Lib.EState.run_get_bind]
  cases hFit : c.wouldFit txCost <;> rfl

/-- A `try_add` that fails leaves the tracker as it was. -/
theorem tryAdd_error {txCost : TransactionCost} {c c' : CostTracker} {e : CostTrackerError}
    (h : (tryAdd txCost).run c = .error e c') : c' = c := by
  rw [run_tryAdd] at h
  cases hFit : c.wouldFit txCost <;> rw [hFit] at h <;> cases h
  rfl

/-- A `try_add` that succeeds found the transaction to fit and added its cost. -/
theorem tryAdd_ok {txCost : TransactionCost} {c c' : CostTracker} {blockCost : Nat}
    (h : (tryAdd txCost).run c = .ok blockCost c') :
    c.wouldFit txCost = .ok () ∧ c' = c.addTransactionCost txCost := by
  rw [run_tryAdd] at h
  cases hFit : c.wouldFit txCost <;> rw [hFit] at h <;> cases h
  exact ⟨rfl, rfl⟩

theorem tryAddEach_cons (txCost : TransactionCost) (rest : List TransactionCost)
    (c : CostTracker) :
    tryAddEach (txCost :: rest) c =
      match c.wouldFit txCost with
      | .ok _ => ((tryAddEach rest (c.addTransactionCost txCost)).1,
          txCost :: (tryAddEach rest (c.addTransactionCost txCost)).2)
      | .error _ => tryAddEach rest c := by
  rw [tryAddEach, run_tryAdd]
  cases c.wouldFit txCost <;> rfl

/-- A run of `try_add` calls leaves the limits as they were. -/
theorem tryAddEach_limits (ts : List TransactionCost) (c : CostTracker) :
    (tryAddEach ts c).1.accountCostLimit = c.accountCostLimit ∧
      (tryAddEach ts c).1.blockCostLimit = c.blockCostLimit ∧
      (tryAddEach ts c).1.voteCostLimit = c.voteCostLimit ∧
      (tryAddEach ts c).1.accountDataSizeLimit = c.accountDataSizeLimit := by
  induction ts generalizing c with
  | nil => exact ⟨rfl, rfl, rfl, rfl⟩
  | cons txCost rest ih =>
      rw [tryAddEach_cons]
      cases c.wouldFit txCost with
      | ok _ => exact ih _
      | error _ => exact ih c

/-- Run lemma: over any run of `try_add` calls on duplicate-free writable accounts, under
limits below `u64::MAX`, the tracker keeps the totals of the transactions it accepted, each
under its limit. -/
theorem tryAddEach_accounts (ts : List TransactionCost)
    (hNodup : ∀ txCost ∈ ts, txCost.writableAccounts.Nodup) {c : CostTracker}
    {accepted : List TransactionCost} (hLim : LimitsFit c) (hAcc : Accounts c accepted)
    (hWithin : WithinLimits c) :
    Accounts (tryAddEach ts c).1 (accepted ++ (tryAddEach ts c).2) ∧
      WithinLimits (tryAddEach ts c).1 := by
  induction ts generalizing c accepted with
  | nil => exact ⟨by simpa [tryAddEach] using hAcc, hWithin⟩
  | cons txCost rest ih =>
      have hRest : ∀ t ∈ rest, t.writableAccounts.Nodup :=
        fun t ht => hNodup t (List.mem_cons_of_mem _ ht)
      have hHead := hNodup txCost List.mem_cons_self
      rw [tryAddEach_cons]
      cases hFits : c.wouldFit txCost with
      | error _ => exact ih hRest hLim hAcc hWithin
      | ok _ =>
          -- the accepted transaction joins the list between the earlier ones and the later
          have hFit := fits_of_wouldFit hLim hFits
          have := ih hRest hLim.addTransactionCost (hAcc.addTransactionCost hLim hFit hHead)
            (hWithin.addTransactionCost hLim hFit hHead)
          simpa using this

/-- A tracker as `new_with_account_data_size_limit` and `set_limits` leave it holds the totals of
no transaction, under every limit. -/
theorem accounts_setLimits (L : Option Nat) (a b v : Nat) :
    Accounts ((newWithAccountDataSizeLimit L).setLimits a b v) [] ∧
      WithinLimits ((newWithAccountDataSizeLimit L).setLimits a b v) :=
  ⟨⟨rfl, rfl, fun _ => rfl, rfl, (Nat.zero_min _).symm⟩,
    ⟨Nat.zero_le _, Nat.zero_le _, fun _ => Nat.zero_le _, fun _ _ => Nat.zero_le _,
      Nat.zero_le _⟩⟩

/-- From `new_with_account_data_size_limit(L)` and `set_limits(a, b, v)` with limits below
`u64::MAX`, over any run of `try_add` calls on duplicate-free writable accounts, the block, the
vote and every account hold the exact sum of the costs accepted, each under its limit, the data
size the exact sum of the data under `L` and the block limit on data, and the count the number
accepted up to `u64::MAX`. From where the run ends, a `try_add` that fails changes nothing, and
one that succeeds is undone by `remove` while the count is below `u64::MAX`. -/
theorem try_add_keeps_exact_accounts_within_limits (L : Option Nat) {a b v : Nat}
    (ha : a < maxValue 64) (hb : b < maxValue 64) (hv : v < maxValue 64)
    (ts : List TransactionCost) (hNodup : ∀ txCost ∈ ts, txCost.writableAccounts.Nodup) :
    let r := tryAddEach ts ((newWithAccountDataSizeLimit L).setLimits a b v)
    (r.1.blockCost = blockTotal r.2 ∧ blockTotal r.2 ≤ b) ∧
      (r.1.voteCost = voteTotal r.2 ∧ voteTotal r.2 ≤ v) ∧
      (∀ k, (r.1.costByWritableAccounts k).getD 0 = accountTotal r.2 k ∧
        accountTotal r.2 k ≤ a) ∧
      (r.1.accountDataSize = dataTotal r.2 ∧ dataTotal r.2 ≤ maxBlockAccountsDataSizeDelta ∧
        ∀ limit, L = some limit → dataTotal r.2 ≤ limit) ∧
      r.1.transactionCount = min r.2.length (maxValue 64) ∧
      (∀ txCost e c', (tryAdd txCost).run r.1 = .error e c' → c' = r.1) ∧
      (∀ txCost blockCost c', txCost.writableAccounts.Nodup →
        (tryAdd txCost).run r.1 = .ok blockCost c' → r.1.transactionCount < maxValue 64 →
        SameTotals r.1 (c'.remove txCost)) := by
  intro r
  obtain ⟨hAcc₀, hWithin₀⟩ := accounts_setLimits L a b v
  have hLim₀ : LimitsFit ((newWithAccountDataSizeLimit L).setLimits a b v) := ⟨ha, hb, hv⟩
  obtain ⟨hAcc, hWithin⟩ := tryAddEach_accounts ts hNodup hLim₀ hAcc₀ hWithin₀
  obtain ⟨hAccountLimit, hBlockLimit, hVoteLimit, hDataLimit⟩ :=
    tryAddEach_limits ts ((newWithAccountDataSizeLimit L).setLimits a b v)
  rw [List.nil_append] at hAcc
  -- the limits at the end are those set at the start
  have hLim : LimitsFit r.1 :=
    ⟨hAccountLimit ▸ ha, hBlockLimit ▸ hb, hVoteLimit ▸ hv⟩
  refine ⟨⟨hAcc.blockCost, ?_⟩, ⟨hAcc.voteCost, ?_⟩,
    fun k => ⟨hAcc.accountCost k, ?_⟩,
    ⟨hAcc.accountDataSize, ?_, fun limit hL => ?_⟩, hAcc.transactionCount,
    fun _ _ _ h => tryAdd_error h, fun txCost _ c' hTx h hCount => ?_⟩
  · rw [← hAcc.blockCost]
    exact hWithin.blockCost.trans_eq hBlockLimit
  · rw [← hAcc.voteCost]
    exact hWithin.voteCost.trans_eq hVoteLimit
  · rw [← hAcc.accountCost k]
    exact (hWithin.accountCost k).trans_eq hAccountLimit
  · rw [← hAcc.accountDataSize]
    exact hWithin.accountDataSize
  · rw [← hAcc.accountDataSize]
    exact hWithin.accountDataSizeLimit limit (hDataLimit.trans hL)
  · obtain ⟨hFits, rfl⟩ := tryAdd_ok h
    exact (fits_of_wouldFit hLim hFits).sameTotals_removeTransactionCost hLim hTx hCount

/-- A simple vote that writes one account. -/
def simpleVoteCost : TransactionCost :=
  { TransactionCost.default with
    writableAccounts := [Pubkey.default], signatureCost := 720, isSimpleVote := true }

theorem try_add_keeps_exact_accounts_within_limits_vote :
    let r := tryAddEach [simpleVoteCost]
      ((newWithAccountDataSizeLimit (some 10)).setLimits maxWritableAccountUnits maxBlockUnits
        maxVoteUnits)
    r.1.voteCost = voteTotal r.2 ∧ voteTotal r.2 ≤ maxVoteUnits :=
  (try_add_keeps_exact_accounts_within_limits (some 10) (by decide) (by decide) (by decide)
    [simpleVoteCost] (by decide)).2.1

/-! ### The count saturates

`transaction_count` is added to with `saturating_add`: transactions of no cost are admitted
without end, and past `u64::MAX` of them the count no longer grows, nor does `remove` restore
it. -/

/-- The default tracker, with `m` transactions counted. -/
theorem wouldFit_default_counted (m : Nat) :
    wouldFit { default with transactionCount := m } TransactionCost.default = .ok () :=
  rfl

theorem addTransactionCost_default_counted (m : Nat) :
    addTransactionCost { default with transactionCount := m } TransactionCost.default =
      { default with transactionCount := saturatingAdd 64 m 1 } :=
  rfl

/-- Run lemma: transactions of no cost are all admitted, and counted up to `u64::MAX`. -/
theorem tryAddEach_replicate_default (n : Nat) {m : Nat} (hm : m ≤ maxValue 64) :
    tryAddEach (List.replicate n TransactionCost.default) { default with transactionCount := m } =
      ({ default with transactionCount := min (m + n) (maxValue 64) },
        List.replicate n TransactionCost.default) := by
  induction n generalizing m with
  | zero => rw [Nat.add_zero, Nat.min_eq_left hm]; rfl
  | succ n ih =>
      have hNext : saturatingAdd 64 m 1 ≤ maxValue 64 := saturatingAdd_le_maxValue _ _ _
      rw [List.replicate_succ, tryAddEach_cons, wouldFit_default_counted]
      simp only
      rw [addTransactionCost_default_counted, ih hNext]
      -- one more at the saturated count leaves it where it was
      have hCount :
          min (saturatingAdd 64 m 1 + n) (maxValue 64) = min (m + (n + 1)) (maxValue 64) := by
        unfold saturatingAdd
        omega
      rw [hCount]

theorem try_add_count_saturates :
    let c := (newWithAccountDataSizeLimit none).setLimits maxWritableAccountUnits maxBlockUnits
      maxVoteUnits
    let r := tryAddEach (List.replicate (maxValue 64 + 1) TransactionCost.default) c
    r.2.length = maxValue 64 + 1 ∧ r.1.transactionCount = maxValue 64 ∧
      ∃ blockCost c', (tryAdd TransactionCost.default).run
          (tryAddEach (List.replicate (maxValue 64) TransactionCost.default) c).1 =
            .ok blockCost c' ∧
        (c'.remove TransactionCost.default).transactionCount ≠
          (tryAddEach (List.replicate (maxValue 64) TransactionCost.default)
            c).1.transactionCount := by
  intro c r
  have hStart : c = { default with transactionCount := 0 } := rfl
  have hAll := tryAddEach_replicate_default (maxValue 64 + 1) (Nat.zero_le (maxValue 64))
  have hMax := tryAddEach_replicate_default (maxValue 64) (Nat.zero_le (maxValue 64))
  rw [← hStart] at hAll hMax
  refine ⟨?_, ?_, ?_⟩
  · rw [show r = _ from hAll, List.length_replicate]
  · rw [show r = _ from hAll]
    show min (0 + (maxValue 64 + 1)) (maxValue 64) = maxValue 64
    omega
  · rw [hMax, run_tryAdd, wouldFit_default_counted]
    refine ⟨_, _, rfl, ?_⟩
    rw [addTransactionCost_default_counted]
    -- at `u64::MAX` the count stays, and `remove` takes one off it
    show saturatingAdd 64 (min (0 + maxValue 64) (maxValue 64)) 1 - 1 ≠
      min (0 + maxValue 64) (maxValue 64)
    unfold saturatingAdd
    have : 0 < maxValue 64 := by decide
    omega

end CostTracker

end PutValidator
