import PutValidator.Sdk.TransactionContext
import PutValidator.Sdk.EpochSchedule
import PutValidator.Lib.Share

/-! Rent (`runtime/src/rent_collector.rs`, `sdk/program/src/rent.rs`, `Bank::distribute_rent` of
`runtime/src/bank.rs`). The collector takes the rent due from an account that pays rent, or all
of its lamports, resetting it, when they do not cover the rent; at the end of a slot the bank
burns a percentage of what it collected and pays the rest to the validators in proportion to
their stake, each share rounded down and the shortfall paid one lamport at a time from the
largest stake on. Arithmetic that overflows wraps, as in the release build, and a panic (an
`unwrap`, an `assert!`, a division by zero) is `none`. The rate and the years are `f64` as in
the source, and nothing below depends on their values. -/
namespace PutValidator

open Lib.Word

/-- `AccountSharedData::default()`, what `std::mem::take` leaves. -/
def AccountSharedData.default : AccountSharedData := ⟨0, [], Pubkey.default, false, 0⟩

/-- `RENT_EXEMPT_RENT_EPOCH`. -/
def rentExemptRentEpoch : Nat := maxValue 64

/-- `incinerator::id()`, `1nc1nerator11111111111111111111111111111111`. -/
def incineratorId : Pubkey := ⟨#v[0, 51, 144, 114, 141, 52, 17, 96, 121, 189, 201, 17, 191, 255, 0, 219,
    212, 77, 46, 205, 204, 247, 156, 166, 225, 0, 56, 225, 0, 0, 0, 0]⟩

/-- `filler_prefix_bytes`: a `u32` unique id and a `u64` rent partition prefix. -/
def fillerPrefixBytes : Nat := 4 + 8

/-- `AccountsDb::is_filler_account_helper`: the bytes after the prefix are the suffix's. -/
def isFillerAccountHelper (pubkey : Pubkey) (fillerAccountSuffix : Option Pubkey) : Bool :=
  (fillerAccountSuffix.map fun suffix =>
    pubkey.bytes.toList.drop fillerPrefixBytes == suffix.bytes.toList.drop fillerPrefixBytes).getD false

inductive RentDue
  | exempt
  | paying (due : Nat)
deriving DecidableEq, Repr

inductive RentResult
  | exempt
  | noRentCollectionNow
  | collectRent (newRentEpoch rentDue : Nat)
deriving DecidableEq, Repr

structure CollectedInfo where
  rentAmount : Nat
  accountDataLenReclaimed : Nat
deriving DecidableEq, Repr

/-- `Rent::due_amount`, for an account known not to be exempt. -/
def Rent.dueAmount (rent : Rent) (dataLen : Nat) (yearsElapsed : Float) : Nat :=
  let actualDataLen := dataLen + accountStorageOverhead
  let lamportsPerYear := rent.lamportsPerByteYear * actualDataLen % 2 ^ 128
  floatAs 128 (Float.ofNat lamportsPerYear * yearsElapsed)

/-- `Rent::calculate_burn`: the burned portion, and what is left to distribute. -/
def Rent.calculateBurn (rent : Rent) (rentCollected : Nat) : Nat × Nat :=
  let burnedPortion := rentCollected * rent.burnPercent.toNat % 2 ^ 128 / 100
  (burnedPortion, wrappingSub 128 rentCollected burnedPortion)

structure RentCollector where
  epoch : Nat
  epochSchedule : EpochSchedule
  slotsPerYear : Float
  rent : Rent

namespace RentCollector

variable (rc : RentCollector)

/-- `should_collect_rent`, which reads nothing of the collector: an executable account must be
exempt, and the incinerator burns. -/
def shouldCollectRent (address : Pubkey) (account : AccountSharedData) : Bool :=
  !(account.executable || address == incineratorId)

/-- `get_rent_due`: the slots from the account's rent epoch to the next epoch, in years. -/
def getRentDue (account : AccountSharedData) : RentDue :=
  if rc.rent.isExempt account.lamports account.data.length then .exempt
  else
    let slotsElapsed :=
      ((List.range' account.rentEpoch (rc.epoch + 1 - account.rentEpoch)).map fun epoch =>
        rc.epochSchedule.getSlotsInEpoch ((epoch + 1) % 2 ^ 64)).sum % 2 ^ 64
    -- avoid infinite rent in rust 1.45
    let yearsElapsed := if rc.slotsPerYear != 0.0 then Float.ofNat slotsElapsed / rc.slotsPerYear else 0.0
    .paying (rc.rent.dueAmount account.data.length yearsElapsed)

/-- `calculate_rent_result`. -/
def calculateRentResult (address : Pubkey) (account : AccountSharedData)
    (fillerAccountSuffix : Option Pubkey) : RentResult :=
  if account.rentEpoch = rentExemptRentEpoch ∨ rc.epoch < account.rentEpoch then .noRentCollectionNow
  else if !shouldCollectRent address account ||
      isFillerAccountHelper address fillerAccountSuffix then .exempt
  else
    match rc.getRentDue account with
    | .exempt => .exempt
    | .paying 0 => .noRentCollectionNow
    | .paying rentDue => .collectRent ((rc.epoch + 1) % 2 ^ 64) rentDue

/-- `collect_from_existing_account`: what was collected, and the account after. -/
def collectFromExistingAccount (address : Pubkey) (account : AccountSharedData)
    (fillerAccountSuffix : Option Pubkey) (setExemptRentEpochMax : Bool) :
    CollectedInfo × AccountSharedData :=
  match rc.calculateRentResult address account fillerAccountSuffix with
  | .exempt =>
      (⟨0, 0⟩, if setExemptRentEpochMax then { account with rentEpoch := rentExemptRentEpoch }
        else account)
  | .noRentCollectionNow => (⟨0, 0⟩, account)
  | .collectRent newRentEpoch rentDue =>
      match checkedSub account.lamports rentDue with
      | none | some 0 => (⟨account.lamports, account.data.length⟩, AccountSharedData.default)
      | some lamports => (⟨rentDue, 0⟩, { account with lamports, rentEpoch := newRentEpoch })

end RentCollector

/-! ### Distribution -/

/-- An entry of `vote_accounts()`: the stake delegated to it, and the node of its vote state
where that deserialises. Nothing else of the vote account is read. -/
structure StakedVoteAccount where
  staked : Nat
  nodePubkey : Option Pubkey
deriving DecidableEq, Repr

/-- What the distribution reads and writes of the bank: its capitalization, the accounts of the
fixed root, and the rewards it records (node, lamports, balance after). -/
structure RentBank where
  capitalization : Nat
  accounts : Pubkey → Option AccountSharedData
  rewards : List (Pubkey × Nat × Nat)

/-- One entry of the `filter_map` of `distribute_rent_to_validators`: the total stake grows
before the `?` that drops an entry whose vote state does not deserialise. -/
def collectValidatorStake (state : Nat × List (Pubkey × Nat)) (entry : StakedVoteAccount) :
    Nat × List (Pubkey × Nat) :=
  let (totalStaked, validatorStakes) := state
  if entry.staked = 0 then (totalStaked, validatorStakes)
  else
    let totalStaked := (totalStaked + entry.staked) % 2 ^ 128
    match entry.nodePubkey with
    | some nodePubkey => (totalStaked, validatorStakes ++ [(nodePubkey, entry.staked)])
    | none => (totalStaked, validatorStakes)

/-- The total stake and the stake of each node. -/
def collectValidatorStakes (voteAccounts : List StakedVoteAccount) : Nat × List (Pubkey × Nat) :=
  voteAccounts.foldl collectValidatorStake (0, [])

/-- The order of the `sort_by`: the larger stake first, then the larger node. -/
def validatorStakeLe (a b : Pubkey × Nat) : Bool :=
  decide (b.2 < a.2) || (a.2 == b.2 && !decide (a.1 < b.1))

/-- A validator's share in `U256`, converted back with `try_into().unwrap()`. -/
def rentShare (totalStaked rentToBeDistributed staked : Nat) : Option Nat := do
  let product := staked * rentToBeDistributed
  guard (product < 2 ^ 256)
  guard (totalStaked ≠ 0)
  let share := product / totalStaked
  guard (share < 2 ^ 128)
  pure share

/-- The first `map` of the shares. -/
def validatorRentShare (totalStaked rentToBeDistributed : Nat) (entry : Pubkey × Nat) :
    Option (Pubkey × Nat) := do
  let share ← rentShare totalStaked rentToBeDistributed entry.2
  pure (entry.1, share)

/-- The credit of `rent_to_be_paid` to a validator's account; a credit that would overflow the
account is burned from the capitalization instead. -/
def creditRent (bank : RentBank) (pubkey : Pubkey) (rentToBePaid : Nat) : RentBank :=
  if 0 < rentToBePaid then
    let account := (bank.accounts pubkey).getD AccountSharedData.default
    match checkedAdd 128 account.lamports rentToBePaid with
    | none => { bank with capitalization := wrappingSub 128 bank.capitalization rentToBePaid }
    | some lamports =>
        { bank with
          accounts := Function.update bank.accounts pubkey (some { account with lamports })
          rewards := bank.rewards ++ [(pubkey, rentToBePaid, lamports)] }
  else bank

/-- One validator of the second pass: its share, one lamport more while some are left over. -/
def payRentShare (state : RentBank × Nat) (entry : Pubkey × Nat) : RentBank × Nat :=
  let (bank, leftoverLamports) := state
  let (pubkey, rentShare) := entry
  let (rentToBePaid, leftoverLamports) :=
    if 0 < leftoverLamports then (rentShare + 1, leftoverLamports - 1)
    else (rentShare, leftoverLamports)
  (creditRent bank pubkey rentToBePaid, leftoverLamports)

/-- `Bank::distribute_rent_to_validators`. -/
def distributeRentToValidators (bank : RentBank) (voteAccounts : List StakedVoteAccount)
    (rentToBeDistributed : Nat) : Option RentBank := do
  let (totalStaked, validatorStakes) := collectValidatorStakes voteAccounts
  guard (!validatorStakes.isEmpty)
  let validatorStakes := validatorStakes.mergeSort validatorStakeLe
  let validatorRentShares ←
    validatorStakes.mapM (validatorRentShare totalStaked rentToBeDistributed)
  let rentDistributedInInitialRound := (validatorRentShares.map (·.2)).sum % 2 ^ 128
  let leftoverLamports := wrappingSub 128 rentToBeDistributed rentDistributedInInitialRound
  let (bank, leftoverLamports) := validatorRentShares.foldl payRentShare (bank, leftoverLamports)
  guard (leftoverLamports = 0)
  pure bank

/-- `Bank::distribute_rent` of the rent collected in the slot. -/
def distributeRent (rent : Rent) (bank : RentBank) (totalRentCollected : Nat)
    (voteAccounts : List StakedVoteAccount) : Option RentBank := do
  let (burnedPortion, rentToBeDistributed) := rent.calculateBurn totalRentCollected
  let bank := { bank with capitalization := wrappingSub 128 bank.capitalization burnedPortion }
  if rentToBeDistributed = 0 then return bank
  distributeRentToValidators bank voteAccounts rentToBeDistributed

/-! ### Collecting from one account -/

/-- What collecting rent from an account keeps: the rent collected is what the account loses,
and the account is reset exactly where the collector decided to collect a rent its lamports do
not exceed; otherwise only its lamports and its rent epoch change. -/
structure RentCollected (account : AccountSharedData) (result : RentResult) (info : CollectedInfo)
    (account' : AccountSharedData) : Prop where
  rent_le : info.rentAmount ≤ account.lamports
  conserves : account'.lamports + info.rentAmount = account.lamports
  reset : ∀ newRentEpoch rentDue, result = .collectRent newRentEpoch rentDue →
    account.lamports ≤ rentDue → account' = AccountSharedData.default
  kept : (∀ newRentEpoch rentDue, result = .collectRent newRentEpoch rentDue →
    rentDue < account.lamports) →
      account' = { account with lamports := account'.lamports, rentEpoch := account'.rentEpoch }

namespace RentCollector

variable (rc : RentCollector)

/-- An account left alone, or only marked exempt, loses nothing. -/
theorem rentCollected_untouched {account account' : AccountSharedData} {result : RentResult}
    (hResult : ∀ newRentEpoch rentDue, result ≠ .collectRent newRentEpoch rentDue)
    (hLamports : account'.lamports = account.lamports)
    (hKept : account' = { account with lamports := account'.lamports, rentEpoch := account'.rentEpoch }) :
    RentCollected account result ⟨0, 0⟩ account' where
  rent_le := Nat.zero_le _
  conserves := hLamports
  reset := fun newRentEpoch rentDue hCollect => absurd hCollect (hResult newRentEpoch rentDue)
  kept := fun _ => hKept

/-- The spec of `collect_from_existing_account`, by the result the collector computed. -/
theorem collectFromExistingAccount_rentCollected (address : Pubkey) (account : AccountSharedData)
    (fillerAccountSuffix : Option Pubkey) (setExemptRentEpochMax : Bool) :
    RentCollected account (rc.calculateRentResult address account fillerAccountSuffix)
      (rc.collectFromExistingAccount address account fillerAccountSuffix setExemptRentEpochMax).1
      (rc.collectFromExistingAccount address account fillerAccountSuffix setExemptRentEpochMax).2 := by
  unfold collectFromExistingAccount
  rcases hResult : rc.calculateRentResult address account fillerAccountSuffix with
    _ | _ | ⟨newRentEpoch, rentDue⟩
  · -- exempt: at most the rent epoch is marked
    cases setExemptRentEpochMax <;>
      exact rentCollected_untouched (by simp) rfl rfl
  · exact rentCollected_untouched (by simp) rfl rfl
  · -- rent is due: all the lamports where they do not exceed it, else the rent
    dsimp only
    rcases hSub : checkedSub account.lamports rentDue with _ | lamports
    · have hLt : account.lamports < rentDue := by
        simp only [checkedSub] at hSub
        split_ifs at hSub with h
        omega
      exact ⟨le_rfl, by simp [AccountSharedData.default], fun _ _ _ _ => rfl,
        fun hCovered => absurd (hCovered _ _ rfl) (by omega)⟩
    obtain ⟨hLe, hLamports⟩ := checkedSub_eq_some.mp hSub
    rcases lamports with _ | lamports
    · -- nothing would be left: the account is reset
      exact ⟨le_rfl, by simp [AccountSharedData.default], fun _ _ _ _ => rfl,
        fun hCovered => absurd (hCovered _ _ rfl) (by omega)⟩
    · -- the rent is taken and the rest stays
      refine ⟨show rentDue ≤ account.lamports by omega,
        show lamports + 1 + rentDue = account.lamports by omega,
        fun _ _ hCollect hDue => ?_, fun _ => rfl⟩
      cases hCollect
      exact absurd hDue (by omega)

end RentCollector

/-! ### What the distribution pays -/

/-- The node and stake of each entry that has stake and a vote state that deserialises. -/
def positiveValidatorStakes (voteAccounts : List StakedVoteAccount) : List (Pubkey × Nat) :=
  voteAccounts.filterMap fun entry =>
    if entry.staked = 0 then none else entry.nodePubkey.map (·, entry.staked)

/-- The stake of all the vote accounts. -/
def totalStake (voteAccounts : List StakedVoteAccount) : Nat :=
  (voteAccounts.map (·.staked)).sum

/-- The validators in the order of the sort. -/
def sortedValidatorStakes (voteAccounts : List StakedVoteAccount) : List (Pubkey × Nat) :=
  (positiveValidatorStakes voteAccounts).mergeSort validatorStakeLe

/-- Each validator's share of `rentToBeDistributed` in proportion to its stake, rounded down. -/
def validatorRentShares (voteAccounts : List StakedVoteAccount) (rentToBeDistributed : Nat) :
    List (Pubkey × Nat) :=
  (sortedValidatorStakes voteAccounts).map fun entry =>
    (entry.1, Lib.Share.share (totalStake voteAccounts) rentToBeDistributed entry.2)

/-- What the rounding of the shares leaves over. -/
def rentLeftover (voteAccounts : List StakedVoteAccount) (rentToBeDistributed : Nat) : Nat :=
  rentToBeDistributed - ((validatorRentShares voteAccounts rentToBeDistributed).map (·.2)).sum

/-- The credits of a list of payments, one after the other. -/
def creditRentPayments (bank : RentBank) (payments : List (Pubkey × Nat)) : RentBank :=
  payments.foldl (fun bank payment => creditRent bank payment.1 payment.2) bank

/-- The burned portion: `burn_percent` percent of the collected rent, rounded down. -/
def burnedRent (rent : Rent) (rentCollected : Nat) : Nat :=
  rentCollected * rent.burnPercent.toNat / 100

/-- The payments of the second pass: each share, one lamport more while `leftover` lasts. -/
def rentPayments : Nat → List (Pubkey × Nat) → List (Pubkey × Nat)
  | _, [] => []
  | leftover, (pubkey, share) :: rest =>
      (pubkey, if 0 < leftover then share + 1 else share) :: rentPayments (leftover - 1) rest

/-- What the validators are paid of `rentToBeDistributed`. -/
def validatorRentPayments (voteAccounts : List StakedVoteAccount) (rentToBeDistributed : Nat) :
    List (Pubkey × Nat) :=
  rentPayments (rentLeftover voteAccounts rentToBeDistributed)
    (validatorRentShares voteAccounts rentToBeDistributed)

/-- The payment at rank `k` is the share there, one more for the first `leftover` ranks. -/
theorem rentPayments_getElem? (leftover : Nat) (shares : List (Pubkey × Nat)) (k : Nat) :
    (rentPayments leftover shares)[k]? =
      shares[k]?.map fun entry => (entry.1, entry.2 + if k < leftover then 1 else 0) := by
  induction shares generalizing leftover k with
  | nil => rfl
  | cons entry rest ih =>
      obtain ⟨pubkey, share⟩ := entry
      cases k with
      | zero => by_cases h : 0 < leftover <;> simp [rentPayments, h]
      | succ k =>
          simp only [rentPayments, List.getElem?_cons_succ, ih]
          -- rank `k + 1` here is rank `k` of the rest, with one lamport fewer left over
          by_cases h : k + 1 < leftover
          · have h' : k < leftover - 1 := by omega
            simp [h, h']
          · have h' : ¬k < leftover - 1 := by omega
            simp [h, h']

/-- The payments add up to the shares and the lamports left over, as far as there are ranks. -/
theorem sum_rentPayments (leftover : Nat) (shares : List (Pubkey × Nat)) :
    ((rentPayments leftover shares).map (·.2)).sum =
      (shares.map (·.2)).sum + min leftover shares.length := by
  induction shares generalizing leftover with
  | nil => simp [rentPayments]
  | cons entry rest ih =>
      obtain ⟨pubkey, share⟩ := entry
      simp only [rentPayments, List.map_cons, List.sum_cons, ih, List.length_cons]
      split_ifs with h <;> omega

/-- The counter of the second pass hands out the payments of `rentPayments`. -/
theorem foldl_payRentShare (shares : List (Pubkey × Nat)) (bank : RentBank) (leftover : Nat) :
    shares.foldl payRentShare (bank, leftover) =
      (creditRentPayments bank (rentPayments leftover shares), leftover - shares.length) := by
  induction shares generalizing bank leftover with
  | nil => rfl
  | cons entry rest ih =>
      obtain ⟨pubkey, share⟩ := entry
      by_cases h : 0 < leftover
      · simp only [List.foldl_cons, payRentShare, h, if_true, rentPayments, ih, List.length_cons,
          creditRentPayments]
        congr 1
        omega
      · obtain rfl : leftover = 0 := Nat.eq_zero_of_not_pos h
        simp only [List.foldl_cons, payRentShare, Nat.lt_irrefl, if_false, rentPayments, ih,
          List.length_cons, Nat.zero_sub, creditRentPayments]

/-- A credit records a reward, or burns the payment, or, of a payment of nothing, does
nothing. -/
theorem creditRent_cases (bank : RentBank) (pubkey : Pubkey) (amount : Nat) :
    (∃ lamports, (creditRent bank pubkey amount).rewards =
        bank.rewards ++ [(pubkey, amount, lamports)] ∧
      (creditRent bank pubkey amount).capitalization = bank.capitalization) ∨
    ((creditRent bank pubkey amount).rewards = bank.rewards ∧
      (creditRent bank pubkey amount).capitalization =
        wrappingSub 128 bank.capitalization amount) ∨
    (amount = 0 ∧ creditRent bank pubkey amount = bank) := by
  unfold creditRent
  split_ifs with hPos
  · dsimp only
    rcases checkedAdd 128 ((bank.accounts pubkey).getD AccountSharedData.default).lamports amount
      with _ | lamports
    · exact .inr (.inl ⟨rfl, rfl⟩)
    · exact .inl ⟨lamports, rfl, rfl⟩
  · exact .inr (.inr ⟨by omega, rfl⟩)

/-- The credits record each payment made as a reward, and burn the rest from the
capitalization. -/
theorem foldl_creditRent (payments : List (Pubkey × Nat)) (bank : RentBank) :
    ∃ newRewards burned,
      (creditRentPayments bank payments).rewards = bank.rewards ++ newRewards ∧
      (newRewards.map (·.2.1)).sum + burned = (payments.map (·.2)).sum ∧
      ((creditRentPayments bank payments).capitalization + burned) % 2 ^ 128 =
        bank.capitalization % 2 ^ 128 := by
  unfold creditRentPayments
  induction payments generalizing bank with
  | nil => exact ⟨[], 0, by simp, by simp, rfl⟩
  | cons payment rest ih =>
      obtain ⟨pubkey, amount⟩ := payment
      obtain ⟨newRewards, burned, hRewards, hSum, hCapitalization⟩ :=
        ih (creditRent bank pubkey amount)
      simp only [List.foldl_cons, List.map_cons, List.sum_cons]
      rcases creditRent_cases bank pubkey amount with
        ⟨lamports, hReward, hSame⟩ | ⟨hNoReward, hBurned⟩ | ⟨rfl, hNothing⟩
      · -- a reward
        refine ⟨(pubkey, amount, lamports) :: newRewards, burned, ?_, ?_, ?_⟩
        · rw [hRewards, hReward, List.append_assoc, List.singleton_append]
        · simp only [List.map_cons, List.sum_cons]
          omega
        · rw [hCapitalization, hSame]
      · -- an overflow: the payment is burned
        refine ⟨newRewards, burned + amount, by rw [hRewards, hNoReward], by omega, ?_⟩
        rw [← Nat.add_assoc, Nat.add_mod, hCapitalization, hBurned, ← Nat.add_mod,
          wrappingSub_add_mod]
      · rw [hNothing] at hRewards hCapitalization
        exact ⟨newRewards, burned, hRewards, by omega, hCapitalization⟩

/-! ### The stakes and the shares -/

@[simp] theorem totalStake_nil : totalStake [] = 0 := rfl

@[simp] theorem totalStake_cons (entry : StakedVoteAccount) (rest : List StakedVoteAccount) :
    totalStake (entry :: rest) = entry.staked + totalStake rest := by
  simp [totalStake]

/-- The first pass adds up the stake of every entry, modulo `2^128`, and keeps the positive
stakes with a node. -/
theorem foldl_collectValidatorStake (voteAccounts : List StakedVoteAccount) {totalStaked : Nat}
    (hLt : totalStaked < 2 ^ 128) (validatorStakes : List (Pubkey × Nat)) :
    voteAccounts.foldl collectValidatorStake (totalStaked, validatorStakes) =
      ((totalStaked + totalStake voteAccounts) % 2 ^ 128,
        validatorStakes ++ positiveValidatorStakes voteAccounts) := by
  induction voteAccounts generalizing totalStaked validatorStakes with
  | nil =>
      simp only [List.foldl_nil, totalStake_nil, Nat.add_zero, Nat.mod_eq_of_lt hLt,
        positiveValidatorStakes, List.filterMap_nil, List.append_nil]
  | cons entry rest ih =>
      simp only [List.foldl_cons, collectValidatorStake, totalStake_cons]
      by_cases hZero : entry.staked = 0
      · simp only [hZero, if_true, ih hLt, Nat.zero_add]
        simp [positiveValidatorStakes, hZero]
      · simp only [hZero, if_false]
        -- the total wraps at each step, which the final remainder absorbs
        have hWrapped : (totalStaked + entry.staked) % 2 ^ 128 < 2 ^ 128 :=
          Nat.mod_lt _ (Nat.two_pow_pos 128)
        have hMod : ((totalStaked + entry.staked) % 2 ^ 128 + totalStake rest) % 2 ^ 128 =
            (totalStaked + (entry.staked + totalStake rest)) % 2 ^ 128 := by
          rw [Nat.mod_add_mod, Nat.add_assoc]
        rcases hNode : entry.nodePubkey with _ | nodePubkey
        · simp only [ih hWrapped, hMod]
          simp [positiveValidatorStakes, hZero, hNode]
        · simp only [ih hWrapped, hMod]
          simp [positiveValidatorStakes, hZero, hNode]

theorem collectValidatorStakes_eq (voteAccounts : List StakedVoteAccount) :
    collectValidatorStakes voteAccounts =
      (totalStake voteAccounts % 2 ^ 128, positiveValidatorStakes voteAccounts) := by
  have hFold := foldl_collectValidatorStake voteAccounts (Nat.two_pow_pos 128) []
  rw [Nat.zero_add, List.nil_append] at hFold
  exact hFold

/-- Where every entry with stake has a node, the validators hold all the stake. -/
theorem sum_positiveValidatorStakes {voteAccounts : List StakedVoteAccount}
    (hNodes : ∀ entry ∈ voteAccounts, 0 < entry.staked → entry.nodePubkey.isSome) :
    ((positiveValidatorStakes voteAccounts).map (·.2)).sum = totalStake voteAccounts := by
  induction voteAccounts with
  | nil => rfl
  | cons entry rest ih =>
      have hRest := ih fun e he => hNodes e (List.mem_cons_of_mem _ he)
      by_cases hZero : entry.staked = 0
      · simp [positiveValidatorStakes, hZero] at hRest ⊢
        exact hRest
      · obtain ⟨nodePubkey, hNode⟩ := Option.isSome_iff_exists.mp
          (hNodes entry List.mem_cons_self (Nat.pos_of_ne_zero hZero))
        simp only [positiveValidatorStakes] at hRest
        simp [positiveValidatorStakes, hZero, hNode, hRest]

theorem le_totalStake_of_mem {voteAccounts : List StakedVoteAccount} {entry : Pubkey × Nat}
    (h : entry ∈ positiveValidatorStakes voteAccounts) : entry.2 ≤ totalStake voteAccounts := by
  obtain ⟨account, hAccount, hEntry⟩ := List.mem_filterMap.mp h
  have hStake : entry.2 = account.staked := by
    split_ifs at hEntry
    obtain ⟨nodePubkey, -, rfl⟩ := Option.map_eq_some_iff.mp hEntry
    rfl
  rw [hStake]
  exact List.le_sum_of_mem (List.mem_map_of_mem hAccount)

theorem positiveValidatorStakes_ne_nil {voteAccounts : List StakedVoteAccount}
    (hStaked : ∃ entry ∈ voteAccounts, 0 < entry.staked)
    (hNodes : ∀ entry ∈ voteAccounts, 0 < entry.staked → entry.nodePubkey.isSome) :
    positiveValidatorStakes voteAccounts ≠ [] := by
  obtain ⟨entry, hEntry, hPos⟩ := hStaked
  obtain ⟨nodePubkey, hNode⟩ := Option.isSome_iff_exists.mp (hNodes entry hEntry hPos)
  intro hNil
  have hMem : (nodePubkey, entry.staked) ∈ positiveValidatorStakes voteAccounts :=
    List.mem_filterMap.mpr ⟨entry, hEntry, by simp [Nat.pos_iff_ne_zero.mp hPos, hNode]⟩
  rw [hNil] at hMem
  exact List.not_mem_nil hMem

/-- A share of a stake within the total is its rounded-down proportion, with no panic. -/
theorem rentShare_eq {totalStaked rentToBeDistributed staked : Nat} (hPos : 0 < totalStaked)
    (hTotal : totalStaked < 2 ^ 128) (hRent : rentToBeDistributed < 2 ^ 128)
    (hLe : staked ≤ totalStaked) :
    rentShare totalStaked rentToBeDistributed staked =
      some (Lib.Share.share totalStaked rentToBeDistributed staked) := by
  have hProduct : staked * rentToBeDistributed < 2 ^ 256 :=
    calc staked * rentToBeDistributed ≤ totalStaked * rentToBeDistributed :=
          Nat.mul_le_mul_right _ hLe
      _ < 2 ^ 128 * 2 ^ 128 := Nat.mul_lt_mul'' hTotal hRent
      _ = 2 ^ 256 := (Nat.pow_add 2 128 128).symm
  have hShare : staked * rentToBeDistributed / totalStaked < 2 ^ 128 :=
    calc staked * rentToBeDistributed / totalStaked ≤ rentToBeDistributed :=
          Nat.div_le_of_le_mul (Nat.mul_le_mul_right _ hLe)
      _ < 2 ^ 128 := hRent
  simp only [rentShare, hProduct, ne_eq, Nat.pos_iff_ne_zero.mp hPos, not_false_eq_true, hShare,
    Lib.Share.share]
  rfl

/-- A zero total, where the stakes wrapped around `u128`, divides by zero. -/
theorem rentShare_zero (rentToBeDistributed staked : Nat) :
    rentShare 0 rentToBeDistributed staked = none := by
  simp [rentShare]

theorem mapM_validatorRentShare {totalStaked rentToBeDistributed : Nat} (hPos : 0 < totalStaked)
    (hTotal : totalStaked < 2 ^ 128) (hRent : rentToBeDistributed < 2 ^ 128)
    {stakes : List (Pubkey × Nat)} (hLe : ∀ entry ∈ stakes, entry.2 ≤ totalStaked) :
    stakes.mapM (validatorRentShare totalStaked rentToBeDistributed) =
      some (stakes.map fun entry =>
        (entry.1, Lib.Share.share totalStaked rentToBeDistributed entry.2)) := by
  induction stakes with
  | nil => rfl
  | cons entry rest ih =>
      have hRest := ih fun e he => hLe e (List.mem_cons_of_mem _ he)
      simp [List.mapM_cons, validatorRentShare,
        rentShare_eq hPos hTotal hRent (hLe entry List.mem_cons_self), hRest]

/-! ### The distribution -/

section Distribution

variable {voteAccounts : List StakedVoteAccount} {rentToBeDistributed : Nat}

/-- The sort only reorders the validators. -/
theorem sortedValidatorStakes_perm (voteAccounts : List StakedVoteAccount) :
    (sortedValidatorStakes voteAccounts).Perm (positiveValidatorStakes voteAccounts) :=
  List.mergeSort_perm _ _

/-- The shares are the proportions of the sorted stakes. -/
theorem validatorRentShares_map_snd (voteAccounts : List StakedVoteAccount) (rentToBeDistributed : Nat) :
    (validatorRentShares voteAccounts rentToBeDistributed).map (·.2) =
      ((sortedValidatorStakes voteAccounts).map (·.2)).map
        (Lib.Share.share (totalStake voteAccounts) rentToBeDistributed) := by
  simp [validatorRentShares, Function.comp_def]

theorem totalStake_pos (hStaked : ∃ entry ∈ voteAccounts, 0 < entry.staked) :
    0 < totalStake voteAccounts := by
  obtain ⟨entry, hEntry, hPos⟩ := hStaked
  exact Nat.lt_of_lt_of_le hPos (List.le_sum_of_mem (List.mem_map_of_mem hEntry))

section Backed

variable (hNodes : ∀ entry ∈ voteAccounts, 0 < entry.staked → entry.nodePubkey.isSome)
include hNodes

/-- The sorted validators hold all the stake. -/
theorem sum_sortedValidatorStakes :
    ((sortedValidatorStakes voteAccounts).map (·.2)).sum = totalStake voteAccounts := by
  rw [((sortedValidatorStakes_perm voteAccounts).map _).sum_eq]
  exact sum_positiveValidatorStakes hNodes

/-- The shares add up to at most the rent. -/
theorem sum_validatorRentShares_le :
    ((validatorRentShares voteAccounts rentToBeDistributed).map (·.2)).sum ≤ rentToBeDistributed := by
  rw [validatorRentShares_map_snd]
  exact Lib.Share.sum_share_le (sum_sortedValidatorStakes hNodes)

/-- What the rounding leaves over is less than one lamport per validator, so the second pass
hands all of it out. -/
theorem rentLeftover_lt (hStaked : ∃ entry ∈ voteAccounts, 0 < entry.staked) :
    rentLeftover voteAccounts rentToBeDistributed < (sortedValidatorStakes voteAccounts).length := by
  have hTotalPos := totalStake_pos hStaked
  have hShort : rentToBeDistributed <
      (((sortedValidatorStakes voteAccounts).map (·.2)).map
        (Lib.Share.share (totalStake voteAccounts) rentToBeDistributed)).sum +
      ((sortedValidatorStakes voteAccounts).map (·.2)).length :=
    Lib.Share.lt_sum_share_add_length (sum_sortedValidatorStakes hNodes) hTotalPos
  rw [List.length_map, ← validatorRentShares_map_snd] at hShort
  have hLe : ((validatorRentShares voteAccounts rentToBeDistributed).map (·.2)).sum ≤
      rentToBeDistributed :=
    sum_validatorRentShares_le hNodes
  unfold rentLeftover
  omega

/-- The spec of `distribute_rent_to_validators` where every entry with stake has a node, some
entry has stake and the total stake fits in `u128`: the validators are paid `rentPayments`, and
nothing panics. -/
theorem distributeRentToValidators_eq (bank : RentBank) (hRent : rentToBeDistributed < 2 ^ 128)
    (hStaked : ∃ entry ∈ voteAccounts, 0 < entry.staked)
    (hTotal : totalStake voteAccounts < 2 ^ 128) :
    distributeRentToValidators bank voteAccounts rentToBeDistributed =
      some (creditRentPayments bank (validatorRentPayments voteAccounts rentToBeDistributed)) := by
  have hTotalPos := totalStake_pos hStaked
  have hSortedLe : ∀ entry ∈ sortedValidatorStakes voteAccounts, entry.2 ≤ totalStake voteAccounts :=
    fun entry hEntry => le_totalStake_of_mem ((sortedValidatorStakes_perm voteAccounts).mem_iff.mp hEntry)
  have hShares : (sortedValidatorStakes voteAccounts).mapM
      (validatorRentShare (totalStake voteAccounts) rentToBeDistributed) =
        some (validatorRentShares voteAccounts rentToBeDistributed) :=
    mapM_validatorRentShare hTotalPos hTotal hRent hSortedLe
  have hLe : ((validatorRentShares voteAccounts rentToBeDistributed).map (·.2)).sum ≤
      rentToBeDistributed :=
    sum_validatorRentShares_le hNodes
  have hInitial : ((validatorRentShares voteAccounts rentToBeDistributed).map (·.2)).sum % 2 ^ 128 =
      ((validatorRentShares voteAccounts rentToBeDistributed).map (·.2)).sum :=
    Nat.mod_eq_of_lt (Nat.lt_of_le_of_lt hLe hRent)
  have hLeftover : wrappingSub 128 rentToBeDistributed
      ((validatorRentShares voteAccounts rentToBeDistributed).map (·.2)).sum =
        rentLeftover voteAccounts rentToBeDistributed :=
    wrappingSub_of_le hLe hRent
  -- the second pass hands out all that is left over
  have hDone : rentLeftover voteAccounts rentToBeDistributed -
      (validatorRentShares voteAccounts rentToBeDistributed).length = 0 := by
    have hLt : rentLeftover voteAccounts rentToBeDistributed <
        (sortedValidatorStakes voteAccounts).length :=
      rentLeftover_lt hNodes hStaked
    simp only [validatorRentShares, List.length_map]
    omega
  have hNonempty : (positiveValidatorStakes voteAccounts).isEmpty = false :=
    List.isEmpty_eq_false_iff.mpr (positiveValidatorStakes_ne_nil hStaked hNodes)
  simp only [distributeRentToValidators, collectValidatorStakes_eq, Nat.mod_eq_of_lt hTotal,
    hNonempty]
  rw [show (positiveValidatorStakes voteAccounts).mergeSort validatorStakeLe =
    sortedValidatorStakes voteAccounts from rfl, hShares]
  simp only [Option.bind_eq_bind, Option.bind_some, hInitial, hLeftover, foldl_payRentShare, hDone]
  simp [validatorRentPayments]

end Backed

end Distribution

/-! ### Burning and paying out -/

/-- Without lamports left over, the payments are the shares. -/
theorem rentPayments_zero (shares : List (Pubkey × Nat)) : rentPayments 0 shares = shares := by
  induction shares with
  | nil => rfl
  | cons entry rest ih =>
      obtain ⟨pubkey, share⟩ := entry
      simp [rentPayments, ih]

/-- Payments of nothing credit nothing. -/
theorem creditRentPayments_of_zero (bank : RentBank) {payments : List (Pubkey × Nat)}
    (hZero : ∀ payment ∈ payments, payment.2 = 0) : creditRentPayments bank payments = bank := by
  induction payments with
  | nil => rfl
  | cons payment rest ih =>
      have hHead : creditRent bank payment.1 payment.2 = bank := by
        simp [creditRent, hZero payment List.mem_cons_self]
      simp only [creditRentPayments, List.foldl_cons, hHead]
      exact ih fun p hp => hZero p (List.mem_cons_of_mem _ hp)

/-- Of no rent, every validator is paid nothing. -/
theorem validatorRentPayments_zero (voteAccounts : List StakedVoteAccount) :
    ∀ payment ∈ validatorRentPayments voteAccounts 0, payment.2 = 0 := by
  have hShares : ∀ entry ∈ validatorRentShares voteAccounts 0, entry.2 = 0 := by
    intro entry hEntry
    obtain ⟨stake, -, rfl⟩ := List.mem_map.mp hEntry
    simp [Lib.Share.share]
  have hLeftover : rentLeftover voteAccounts 0 = 0 := Nat.zero_sub _
  rw [validatorRentPayments, hLeftover, rentPayments_zero]
  exact hShares

theorem calculateBurn_eq {rent : Rent} {rentCollected : Nat}
    (hBurnPercent : rent.burnPercent.toNat ≤ 100) (hCollected : rentCollected < 2 ^ 128)
    (hProduct : rentCollected * rent.burnPercent.toNat < 2 ^ 128) :
    rent.calculateBurn rentCollected =
      (burnedRent rent rentCollected, rentCollected - burnedRent rent rentCollected) := by
  have hBurned : burnedRent rent rentCollected ≤ rentCollected :=
    Nat.div_le_of_le_mul (by rw [Nat.mul_comm 100]; exact Nat.mul_le_mul_left _ hBurnPercent)
  simp only [Rent.calculateBurn, Nat.mod_eq_of_lt hProduct]
  show (burnedRent rent rentCollected, wrappingSub 128 rentCollected (burnedRent rent rentCollected)) = _
  rw [wrappingSub_of_le hBurned hCollected]

section Backed

variable {voteAccounts : List StakedVoteAccount}
  (hNodes : ∀ entry ∈ voteAccounts, 0 < entry.staked → entry.nodePubkey.isSome)
  (hStaked : ∃ entry ∈ voteAccounts, 0 < entry.staked)
  (hTotal : totalStake voteAccounts < 2 ^ 128)
include hNodes hStaked hTotal

/-- The spec of `distribute_rent`: the burned portion leaves the capitalization, and the
validators are paid the rest. -/
theorem distributeRent_eq {rent : Rent} (bank : RentBank) {rentCollected : Nat}
    (hBurnPercent : rent.burnPercent.toNat ≤ 100) (hCollected : rentCollected < 2 ^ 128)
    (hProduct : rentCollected * rent.burnPercent.toNat < 2 ^ 128) :
    distributeRent rent bank rentCollected voteAccounts =
      some (creditRentPayments
        { bank with capitalization := wrappingSub 128 bank.capitalization (burnedRent rent rentCollected) }
        (validatorRentPayments voteAccounts (rentCollected - burnedRent rent rentCollected))) := by
  simp only [distributeRent, calculateBurn_eq hBurnPercent hCollected hProduct]
  by_cases hZero : rentCollected - burnedRent rent rentCollected = 0
  · -- nothing to distribute: the payments are all nothing
    rw [if_pos hZero, hZero, creditRentPayments_of_zero _ (validatorRentPayments_zero voteAccounts)]
    rfl
  · rw [if_neg hZero]
    exact distributeRentToValidators_eq hNodes _ (Nat.lt_of_le_of_lt (Nat.sub_le _ _) hCollected)
      hStaked hTotal

omit hTotal in
/-- The payments add up to the rent distributed. -/
theorem sum_validatorRentPayments (rentToBeDistributed : Nat) :
    ((validatorRentPayments voteAccounts rentToBeDistributed).map (·.2)).sum = rentToBeDistributed := by
  have hLe : ((validatorRentShares voteAccounts rentToBeDistributed).map (·.2)).sum ≤
      rentToBeDistributed :=
    sum_validatorRentShares_le hNodes
  have hLt : rentLeftover voteAccounts rentToBeDistributed <
      (sortedValidatorStakes voteAccounts).length :=
    rentLeftover_lt hNodes hStaked
  rw [validatorRentPayments, sum_rentPayments]
  simp only [validatorRentShares, List.length_map] at hLe ⊢
  unfold rentLeftover at hLt ⊢
  simp only [validatorRentShares] at hLt ⊢
  omega

end Backed

/-! ### Rent conserves lamports -/

/-- Collecting rent from an account loses no lamports and resets the account exactly where its
lamports do not exceed the rent the collector decided to collect; and where every staked vote
account has a node, some has stake and the stake fits in `u128`, the distribution of a slot's
rent does not panic, burns `burn_percent` percent, and credits, in rank order, the validator
at rank `k` its share rounded down and one lamport more for the first `leftover` ranks, with `leftover` below the
number of validators, and takes from the capitalization exactly the burned portion and the
payments that would overflow their account. -/
theorem rent_collection_and_distribution_conserve_lamports {rent : Rent} {bank : RentBank}
    {rentCollected : Nat} {voteAccounts : List StakedVoteAccount}
    (hBurnPercent : rent.burnPercent.toNat ≤ 100) (hCollected : rentCollected < 2 ^ 128)
    (hProduct : rentCollected * rent.burnPercent.toNat < 2 ^ 128)
    (hStaked : ∃ entry ∈ voteAccounts, 0 < entry.staked)
    (hNodes : ∀ entry ∈ voteAccounts, 0 < entry.staked → entry.nodePubkey.isSome)
    (hTotal : totalStake voteAccounts < 2 ^ 128) :
    (∀ (rc : RentCollector) (address : Pubkey) (account : AccountSharedData)
        (fillerAccountSuffix : Option Pubkey) (setExemptRentEpochMax : Bool),
      RentCollected account (rc.calculateRentResult address account fillerAccountSuffix)
        (rc.collectFromExistingAccount address account fillerAccountSuffix setExemptRentEpochMax).1
        (rc.collectFromExistingAccount address account fillerAccountSuffix setExemptRentEpochMax).2) ∧
    ∃ bank' newRewards burnedShares,
      distributeRent rent bank rentCollected voteAccounts = some bank' ∧
      bank' = creditRentPayments
        { bank with capitalization := wrappingSub 128 bank.capitalization (burnedRent rent rentCollected) }
        (validatorRentPayments voteAccounts (rentCollected - burnedRent rent rentCollected)) ∧
      rentLeftover voteAccounts (rentCollected - burnedRent rent rentCollected) <
        (sortedValidatorStakes voteAccounts).length ∧
      (∀ k, (validatorRentPayments voteAccounts (rentCollected - burnedRent rent rentCollected))[k]? =
        (sortedValidatorStakes voteAccounts)[k]?.map fun entry =>
          (entry.1, entry.2 * (rentCollected - burnedRent rent rentCollected) / totalStake voteAccounts +
            if k < rentLeftover voteAccounts (rentCollected - burnedRent rent rentCollected) then 1
            else 0)) ∧
      bank'.rewards = bank.rewards ++ newRewards ∧
      (newRewards.map (·.2.1)).sum + burnedShares = rentCollected - burnedRent rent rentCollected ∧
      (bank'.capitalization + burnedRent rent rentCollected + burnedShares) % 2 ^ 128 =
        bank.capitalization % 2 ^ 128 := by
  refine ⟨fun rc => rc.collectFromExistingAccount_rentCollected, ?_⟩
  set rentToBeDistributed := rentCollected - burnedRent rent rentCollected
  set burnedBank : RentBank :=
    { bank with capitalization := wrappingSub 128 bank.capitalization (burnedRent rent rentCollected) }
  obtain ⟨newRewards, burnedShares, hRewards, hPaid, hCapitalization⟩ :=
    foldl_creditRent (validatorRentPayments voteAccounts rentToBeDistributed) burnedBank
  refine ⟨_, newRewards, burnedShares,
    distributeRent_eq hNodes hStaked hTotal bank hBurnPercent hCollected hProduct, rfl,
    rentLeftover_lt hNodes hStaked, fun k => ?_, hRewards, ?_, ?_⟩
  · -- the payment at each rank
    rw [validatorRentPayments, rentPayments_getElem?, validatorRentShares, List.getElem?_map,
      Option.map_map]
    rfl
  · rw [hPaid, sum_validatorRentPayments hNodes hStaked]
  · -- the burned portion left first, then the payments that overflowed
    have hBurn : (burnedBank.capitalization + burnedRent rent rentCollected) % 2 ^ 128 =
        bank.capitalization % 2 ^ 128 :=
      wrappingSub_add_mod 128 bank.capitalization (burnedRent rent rentCollected)
    rw [Nat.add_right_comm, Nat.add_mod, hCapitalization, ← Nat.add_mod, hBurn]

/-- Two validators, of three and two lamports of stake, share the five lamports of rent left of
ten once half is burned. -/
def sharedRentVoteAccounts : List StakedVoteAccount :=
  [⟨3, some ⟨Vector.replicate 32 1⟩⟩, ⟨2, some ⟨Vector.replicate 32 2⟩⟩]

theorem rent_collection_and_distribution_conserve_lamports_two_validators :
    (⟨1, .finite 2 0, 50⟩ : Rent).burnPercent.toNat ≤ 100 ∧ 10 < 2 ^ 128 ∧
      10 * (⟨1, .finite 2 0, 50⟩ : Rent).burnPercent.toNat < 2 ^ 128 ∧
      (∃ entry ∈ sharedRentVoteAccounts, 0 < entry.staked) ∧
      (∀ entry ∈ sharedRentVoteAccounts, 0 < entry.staked → entry.nodePubkey.isSome) ∧
      totalStake sharedRentVoteAccounts < 2 ^ 128 ∧
      ((∀ (rc : RentCollector) (address : Pubkey) (account : AccountSharedData)
          (fillerAccountSuffix : Option Pubkey) (setExemptRentEpochMax : Bool),
        RentCollected account (rc.calculateRentResult address account fillerAccountSuffix)
          (rc.collectFromExistingAccount address account fillerAccountSuffix setExemptRentEpochMax).1
          (rc.collectFromExistingAccount address account fillerAccountSuffix setExemptRentEpochMax).2) ∧
      ∃ bank' newRewards burnedShares,
        distributeRent ⟨1, .finite 2 0, 50⟩ ⟨1000, fun _ => none, []⟩ 10 sharedRentVoteAccounts = some bank' ∧
        bank' = creditRentPayments ⟨wrappingSub 128 1000 (burnedRent ⟨1, .finite 2 0, 50⟩ 10), fun _ => none, []⟩
          (validatorRentPayments sharedRentVoteAccounts (10 - burnedRent ⟨1, .finite 2 0, 50⟩ 10)) ∧
        rentLeftover sharedRentVoteAccounts (10 - burnedRent ⟨1, .finite 2 0, 50⟩ 10) <
          (sortedValidatorStakes sharedRentVoteAccounts).length ∧
        (∀ k, (validatorRentPayments sharedRentVoteAccounts (10 - burnedRent ⟨1, .finite 2 0, 50⟩ 10))[k]? =
          (sortedValidatorStakes sharedRentVoteAccounts)[k]?.map fun entry =>
            (entry.1, entry.2 * (10 - burnedRent ⟨1, .finite 2 0, 50⟩ 10) / totalStake sharedRentVoteAccounts +
              if k < rentLeftover sharedRentVoteAccounts (10 - burnedRent ⟨1, .finite 2 0, 50⟩ 10) then 1
              else 0)) ∧
        bank'.rewards = [] ++ newRewards ∧
        (newRewards.map (·.2.1)).sum + burnedShares = 10 - burnedRent ⟨1, .finite 2 0, 50⟩ 10 ∧
        (bank'.capitalization + burnedRent ⟨1, .finite 2 0, 50⟩ 10 + burnedShares) % 2 ^ 128 =
          1000 % 2 ^ 128) := by
  refine ⟨?burn, by decide, ?product, ?staked, ?nodes, ?total,
    rent_collection_and_distribution_conserve_lamports ?burn (by decide) ?product ?staked ?nodes
      ?total⟩
  case staked => exact ⟨_, List.mem_cons_self, by decide⟩
  all_goals decide

/-! ### A total stake past `u128` -/

/-- Where the total stake wraps to zero, the first share divides by zero. -/
theorem distributeRentToValidators_of_wrapped {bank : RentBank}
    {voteAccounts : List StakedVoteAccount} {rentToBeDistributed : Nat}
    (hWrapped : totalStake voteAccounts % 2 ^ 128 = 0)
    (hNonempty : positiveValidatorStakes voteAccounts ≠ []) :
    distributeRentToValidators bank voteAccounts rentToBeDistributed = none := by
  obtain ⟨first, rest, hSorted⟩ := List.exists_cons_of_ne_nil (fun hNil =>
    hNonempty (List.Perm.eq_nil (hNil ▸ (sortedValidatorStakes_perm voteAccounts).symm)))
  have hShares : (sortedValidatorStakes voteAccounts).mapM (validatorRentShare 0 rentToBeDistributed) =
      none := by
    simp [hSorted, List.mapM_cons, validatorRentShare, rentShare_zero]
  simp only [distributeRentToValidators, collectValidatorStakes_eq, hWrapped,
    List.isEmpty_eq_false_iff.mpr hNonempty]
  rw [show (positiveValidatorStakes voteAccounts).mergeSort validatorStakeLe =
    sortedValidatorStakes voteAccounts from rfl, hShares]
  rfl

/-- Two vote accounts of `2^127` lamports of stake each. -/
def wrappedStakeVoteAccounts : List StakedVoteAccount :=
  [⟨2 ^ 127, some ⟨Vector.replicate 32 1⟩⟩, ⟨2 ^ 127, some ⟨Vector.replicate 32 2⟩⟩]

/-- Every entry has stake and a node, yet their total of `2^128` wraps to zero in the `u128`
sum, and distributing the rent left after the burn panics (here on a bank with no accounts;
`distributeRentToValidators_of_wrapped` says it does on every bank). -/
theorem distributeRent_panics_on_wrapped_total_stake :
    totalStake wrappedStakeVoteAccounts = 2 ^ 128 ∧
      (∀ entry ∈ wrappedStakeVoteAccounts, 0 < entry.staked ∧ entry.nodePubkey.isSome) ∧
      distributeRent ⟨1, .finite 2 0, 50⟩ ⟨0, fun _ => none, []⟩ 100 wrappedStakeVoteAccounts = none := by
  refine ⟨by decide, by decide, ?_⟩
  have hWrapped : totalStake wrappedStakeVoteAccounts % 2 ^ 128 = 0 := by decide
  have hNonempty : positiveValidatorStakes wrappedStakeVoteAccounts ≠ [] := by decide
  simp only [distributeRent, show (⟨1, .finite 2 0, 50⟩ : Rent).calculateBurn 100 = (50, 50) from rfl]
  exact distributeRentToValidators_of_wrapped hWrapped hNonempty

end PutValidator
