import Mathlib
import PutValidator.Consensus.LatestVotes
import PutValidator.Lib.List
import PutValidator.Lib.ListSet
import PutValidator.Vote.Program
import PutValidator.Vote.WellFormed

/-! `Tower::collect_vote_lockouts` of `core/src/consensus.rs`: the fork weights that the vote
accounts of one bank give, as replay computes them for that bank.

The loop visits each vote account that has stake and whose vote state deserializes. It records
the lockout interval of each of the account's votes and passes the account's last vote to the
latest validator votes. Then it simulates a vote on the bank (`process_slot_vote_unchecked`)
and adds the stake-weighted lockouts of the simulated tower and of its roots to the bank
weight. Last, it adds the stake to the newest lockout below the simulated vote and to all of
that slot's ancestors. At the end, every slot of a simulated tower that has ancestors gets an
entry, of zero stake when none was added. Stakes are `u128` and add with wrapping, as in a
release build.

`collectStep_of_counted` says what the loop body does with one account, and
`foldlM_collectStep` turns the loop into folds over the accounts. The fields of the result then
read off as sums (`collectVoteLockouts_fork_weights`). The simulated vote is the newest
lockout, as the `assert_eq!` demands, exactly because every stored vote is below the bank. The
stake goes to the newest stored vote still locked out at the bank. That is not always the last
stored vote, which the simulation pops once it has expired. -/
namespace PutValidator.Consensus

open Lib Lib.Word Vote

/-- `VoteAccountsHashMap` in its iteration order: each vote account's key, its stake, and its
vote state, `none` where the account's data does not deserialize. -/
abbrev VoteAccountsHashMap := List (Pubkey × Nat × Option VoteState)

/-- `HashMap<Slot, HashSet<Slot>>`: the ancestors of each slot. -/
abbrev Ancestors := SortedMap Nat (List Nat)

/-- `VotedStakes`, a `HashMap<Slot, u128>`. -/
abbrev VotedStakes := SortedMap Nat Nat

/-- `LockoutIntervals`: for each last locked-out slot, the slot and vote account of each vote
locked out until then. -/
abbrev LockoutIntervals := SortedMap Nat (List (Nat × Pubkey))

structure ComputedBankState where
  votedStakes : VotedStakes
  totalStake : Nat
  bankWeight : Nat
  lockoutIntervals : LockoutIntervals
  myLatestLandedVote : Option Nat

/-! ### The loop -/

/-- `*voted_stakes.entry(slot).or_default() += stake`. -/
def addVotedStake (stake : Nat) (votedStakes : VotedStakes) (slot : Nat) : VotedStakes :=
  votedStakes.alter slot fun o => wrappingAdd 128 (o.getD 0) stake

/-- `update_ancestor_voted_stakes`; a slot without ancestors is from before the root and is
skipped. -/
def updateAncestorVotedStakes (votedStakes : VotedStakes) (votedSlot votedStake : Nat)
    (ancestors : Ancestors) : VotedStakes :=
  match ancestors.get? votedSlot with
  | none => votedStakes
  | some voteSlotAncestors =>
      voteSlotAncestors.foldl (addVotedStake votedStake)
        (addVotedStake votedStake votedStakes votedSlot)

/-- `voted_stakes.entry(slot).or_default()`. -/
def touchVotedStake (votedStakes : VotedStakes) (slot : Nat) : VotedStakes :=
  votedStakes.alter slot fun o => o.getD 0

def populateAncestorVotedStakes (votedStakes : VotedStakes) (voteSlots : List Nat)
    (ancestors : Ancestors) : VotedStakes :=
  voteSlots.foldl
    (fun votedStakes voteSlot =>
      match ancestors.get? voteSlot with
      | none => votedStakes
      | some slotAncestors =>
          slotAncestors.foldl touchVotedStake (touchVotedStake votedStakes voteSlot))
    votedStakes

/-- `lockout_intervals.entry(vote.last_locked_out_slot()).or_insert_with(Vec::new).push(..)`. -/
def addLockoutInterval (key : Pubkey) (lockoutIntervals : LockoutIntervals) (vote : Lockout) :
    LockoutIntervals :=
  lockoutIntervals.alter vote.lastLockedOutSlot fun o => o.getD [] ++ [(vote.slot, key)]

/-- A lockout's part of the bank weight, `lockout() as u128 * voted_stake as u128`, and its slot
inserted into `vote_slots`. -/
def addVoteWeight (votedStake : Nat) (acc : Nat × List Nat) (vote : Lockout) : Nat × List Nat :=
  (wrappingAdd 128 acc.1 (wrappingMul 128 vote.lockout votedStake),
    (ListSet.insert acc.2 vote.slot).1)

/-- `Lockout::new_with_confirmation_count(root, MAX_LOCKOUT_HISTORY as u32)`. -/
def rootLockout (root : Nat) : Lockout := ⟨root, maxLockoutHistory⟩

/-- The two root lockouts of the loop body: the old root's when the simulated vote moved the
root, then the root's. -/
def addRootWeights (votedStake : Nat) (startRoot root : Option Nat) (acc : Nat × List Nat) :
    Nat × List Nat :=
  let acc :=
    if startRoot ≠ root then
      match startRoot with
      | some startRoot => addVoteWeight votedStake acc (rootLockout startRoot)
      | none => acc
    else acc
  match root with
  | some root => addVoteWeight votedStake acc (rootLockout root)
  | none => acc

/-- The variables of the loop. -/
structure CollectState where
  voteSlots : List Nat
  votedStakes : VotedStakes
  totalStake : Nat
  bankWeight : Nat
  lockoutIntervals : LockoutIntervals
  myLatestLandedVote : Option Nat
  latestVotes : LatestValidatorVotesForFrozenBanks

/-- The body of the loop, for one vote account; `none` when an assert fires. -/
def collectStep (voteAccountPubkey : Pubkey) (bankSlot : Nat) (ancestors : Ancestors)
    (getFrozenHash : Nat → Option Hash) (st : CollectState) :
    Pubkey × Nat × Option VoteState → Option CollectState
  | (key, votedStake, account) =>
      if votedStake = 0 then some st
      else
        match account with
        | none => some st
        | some voteState => do
            let lockoutIntervals :=
              voteState.votes.foldl (addLockoutInterval key) st.lockoutIntervals
            let myLatestLandedVote :=
              if key = voteAccountPubkey then (voteState.nthRecentLockout 0).map Lockout.slot
              else st.myLatestLandedVote
            let startRoot := voteState.rootSlot
            let latestVotes ←
              match voteState.lastVotedSlot with
              | some lastLandedVotedSlot =>
                  (st.latestVotes.checkAddVote key lastLandedVotedSlot
                    (getFrozenHash lastLandedVotedSlot) true).map Prod.snd
              | none => some st.latestVotes
            let voteState := processSlotVoteUnchecked voteState bankSlot
            let acc := addRootWeights votedStake startRoot voteState.rootSlot
              (voteState.votes.foldl (addVoteWeight votedStake) (st.bankWeight, st.voteSlots))
            -- the `assert_eq!` that the newest lockout is the simulated vote on the bank
            unless (voteState.nthRecentLockout 0).map Lockout.slot = some bankSlot do none
            let votedStakes :=
              ((voteState.nthRecentLockout 1).map fun vote =>
                updateAncestorVotedStakes st.votedStakes vote.slot votedStake ancestors).getD
                st.votedStakes
            pure ⟨acc.2, votedStakes, wrappingAdd 128 st.totalStake votedStake, acc.1,
              lockoutIntervals, myLatestLandedVote, latestVotes⟩

/-- The state the loop starts from. -/
def CollectState.initial (latestVotes : LatestValidatorVotesForFrozenBanks) : CollectState :=
  ⟨[], .empty, 0, 0, .empty, none, latestVotes⟩

def collectVoteLockouts (voteAccountPubkey : Pubkey) (bankSlot : Nat)
    (voteAccounts : VoteAccountsHashMap) (ancestors : Ancestors)
    (getFrozenHash : Nat → Option Hash)
    (latestValidatorVotesForFrozenBanks : LatestValidatorVotesForFrozenBanks) :
    Option (ComputedBankState × LatestValidatorVotesForFrozenBanks) := do
  let st ← voteAccounts.foldlM (collectStep voteAccountPubkey bankSlot ancestors getFrozenHash)
    (CollectState.initial latestValidatorVotesForFrozenBanks)
  pure (⟨populateAncestorVotedStakes st.votedStakes st.voteSlots ancestors, st.totalStake,
    st.bankWeight, st.lockoutIntervals, st.myLatestLandedVote⟩, st.latestVotes)

/-! ### What each account contributes -/

/-- The accounts the loop counts, with their vote states: those with stake whose vote state
deserializes. -/
def countedAccounts (voteAccounts : VoteAccountsHashMap) : List (Pubkey × Nat × VoteState) :=
  voteAccounts.filterMap fun e => if e.2.1 = 0 then none else e.2.2.map fun vs => (e.1, e.2.1, vs)

/-- The newest vote of a tower that is still locked out at `slot`. -/
def lastLockedOutVote (slot : Nat) (voteState : VoteState) : Option Nat :=
  ((voteState.votes.filter fun v => v.isLockedOutAtSlot slot).getLast?).map Lockout.slot

/-- Each of `slots` that has ancestors, followed by them. -/
def ancestorEntries (ancestors : Ancestors) (slots : List Nat) : List Nat :=
  slots.flatMap fun slot =>
    match ancestors.get? slot with
    | none => []
    | some slotAncestors => slot :: slotAncestors

/-- The slots an account's stake is added to: the newest vote still locked out at the bank,
and its ancestors, when it has an ancestors entry. -/
def supportedSlots (ancestors : Ancestors) (bankSlot : Nat) (voteState : VoteState) : List Nat :=
  ancestorEntries ancestors (lastLockedOutVote bankSlot voteState).toList

/-- The roots the bank weight counts: the old root when the root moved, then the root. -/
def rootsCounted (startRoot root : Option Nat) : List Nat :=
  (if startRoot ≠ root then startRoot.toList else []) ++ root.toList

/-- The lockouts the bank weight counts for an account: those of the simulated tower, then its
counted roots, each with 31 confirmations. -/
def simulatedLockouts (bankSlot : Nat) (voteState : VoteState) : List Lockout :=
  let simulated := processSlotVoteUnchecked voteState bankSlot
  simulated.votes ++ (rootsCounted voteState.rootSlot simulated.rootSlot).map rootLockout

/-- An account's bank weight per unit of stake. -/
def towerWeight (bankSlot : Nat) (voteState : VoteState) : Nat :=
  ((simulatedLockouts bankSlot voteState).map Lockout.lockout).sum

/-- The lockout intervals of the counted accounts' votes, as `(end, slot, account)`. -/
def intervalEntries (accounts : List (Pubkey × Nat × VoteState)) : List (Nat × Nat × Pubkey) :=
  accounts.flatMap fun a => a.2.2.votes.map fun v => (v.lastLockedOutSlot, v.slot, a.1)

/-- An ancestors map whose entries are sets of proper ancestors. -/
def ProperAncestors (ancestors : Ancestors) : Prop :=
  ∀ e ∈ ancestors.entries, e.1 ∉ e.2 ∧ e.2.Nodup

instance (ancestors : Ancestors) : Decidable (ProperAncestors ancestors) :=
  inferInstanceAs (Decidable (∀ e ∈ ancestors.entries, e.1 ∉ e.2 ∧ e.2.Nodup))

/-! ### The simulated vote -/

section Simulation

variable {bankSlot : Nat} {voteState : VoteState}

theorem nthRecentLockout_zero (s : VoteState) : s.nthRecentLockout 0 = s.lastLockout := by
  rw [VoteState.nthRecentLockout_eq, ← List.head?_eq_getElem?, List.head?_reverse,
    VoteState.lastLockout]

theorem not_ignored_of_lt (hBelow : ∀ last ∈ voteState.lastVotedSlot, last < bankSlot) :
    ¬voteState.lastVotedSlot.any (bankSlot ≤ ·) := by
  cases hLast : voteState.lastVotedSlot with
  | none => simp
  | some last =>
      have hLt := hBelow last hLast
      simp only [Option.any_some, decide_eq_true_eq]
      omega

/-- The simulated vote on the bank is the newest lockout: the `assert_eq!` holds. -/
theorem simulated_newest (hBelow : ∀ last ∈ voteState.lastVotedSlot, last < bankSlot) :
    ((processSlotVoteUnchecked voteState bankSlot).nthRecentLockout 0).map Lockout.slot =
      some bankSlot := by
  rw [processSlotVoteUnchecked_eq, nthRecentLockout_zero]
  exact VoteState.processNextVoteSlot_lastVotedSlot _ (not_ignored_of_lt hBelow)

/-- Below the simulated vote lies the newest stored vote still locked out at the bank: the
votes above it were popped as expired. -/
theorem simulated_below_newest (hBelow : ∀ last ∈ voteState.lastVotedSlot, last < bankSlot) :
    ((processSlotVoteUnchecked voteState bankSlot).nthRecentLockout 1).map Lockout.slot =
      lastLockedOutVote bankSlot voteState := by
  obtain ⟨kept, hSlots, hKept⟩ :=
    VoteState.processNextVoteSlot_of_not_ignored voteState.currentEpoch (not_ignored_of_lt hBelow)
  -- the popped stack ends with the same vote as `kept`, whether or not its oldest was rooted
  have hLast : kept.getLast? = (voteState.popExpiredVotes bankSlot).votes.getLast? := by
    rcases hKept with ⟨hPopped, -⟩ | ⟨oldest, hPopped, hNe, -⟩
    · rw [hPopped]
    · rw [hPopped, List.getLast?_cons, List.getLast?_eq_some_getLast hNe, Option.getD_some]
  have hPop : (voteState.popExpiredVotes bankSlot).votes.getLast? =
      (voteState.votes.filter fun v => v.isLockedOutAtSlot bankSlot).getLast? := by
    rw [VoteState.popExpiredVotes, Lib.List.getLast?_rdropWhile]
    simp only [Bool.not_not]
  rw [processSlotVoteUnchecked_eq, VoteState.nthRecentLockout_eq, ← List.getElem?_map,
    List.map_reverse, hSlots, List.reverse_append, List.reverse_singleton,
    List.singleton_append, List.getElem?_cons_succ, ← List.head?_eq_getElem?, List.head?_reverse,
    List.getLast?_map, hLast, hPop, lastLockedOutVote]

end Simulation

/-! ### One account -/

/-- The latest-votes call the loop makes for a counted account: its last vote, if any. -/
def latestVoteCalls (getFrozenHash : Nat → Option Hash) (a : Pubkey × Nat × VoteState) :
    List LatestValidatorVotesForFrozenBanks.Call :=
  a.2.2.lastVotedSlot.toList.map fun last => .checkAddVote a.1 last (getFrozenHash last) true

/-- What the loop body does to the loop's variables for a counted account, the latest votes
apart. -/
def CollectState.absorb (voteAccountPubkey : Pubkey) (bankSlot : Nat) (ancestors : Ancestors)
    (st : CollectState) (a : Pubkey × Nat × VoteState) : CollectState :=
  { st with
    voteSlots := ((simulatedLockouts bankSlot a.2.2).map Lockout.slot).foldl
      (fun s x => (ListSet.insert s x).1) st.voteSlots
    votedStakes :=
      (supportedSlots ancestors bankSlot a.2.2).foldl (addVotedStake a.2.1) st.votedStakes
    totalStake := wrappingAdd 128 st.totalStake a.2.1
    bankWeight := wrappingAdd 128 st.bankWeight (a.2.1 * towerWeight bankSlot a.2.2)
    lockoutIntervals := a.2.2.votes.foldl (addLockoutInterval a.1) st.lockoutIntervals
    myLatestLandedVote :=
      if a.1 = voteAccountPubkey then a.2.2.lastVotedSlot else st.myLatestLandedVote }

theorem updateAncestorVotedStakes_eq (votedStakes : VotedStakes) (votedSlot votedStake : Nat)
    (ancestors : Ancestors) :
    updateAncestorVotedStakes votedStakes votedSlot votedStake ancestors =
      (ancestorEntries ancestors [votedSlot]).foldl (addVotedStake votedStake) votedStakes := by
  unfold updateAncestorVotedStakes ancestorEntries
  rcases hAnc : ancestors.get? votedSlot with _ | voteSlotAncestors <;> simp [hAnc]

theorem populateAncestorVotedStakes_eq (votedStakes : VotedStakes) (voteSlots : List Nat)
    (ancestors : Ancestors) :
    populateAncestorVotedStakes votedStakes voteSlots ancestors =
      (ancestorEntries ancestors voteSlots).foldl touchVotedStake votedStakes := by
  rw [ancestorEntries, List.foldl_flatMap, populateAncestorVotedStakes]
  congr
  funext m slot
  rcases ancestors.get? slot with _ | slotAncestors <;> simp

theorem addRootWeights_eq (votedStake : Nat) (startRoot root : Option Nat)
    (acc : Nat × List Nat) :
    addRootWeights votedStake startRoot root acc =
      ((rootsCounted startRoot root).map rootLockout).foldl (addVoteWeight votedStake) acc := by
  unfold addRootWeights rootsCounted
  by_cases hMoved : startRoot ≠ root
  · cases startRoot <;> cases root <;> simp [hMoved]
  · cases root <;> simp [hMoved]

/-- The lockouts of a fold of `addVoteWeight` add up to the bank weight, and their slots go
into `vote_slots`. -/
theorem foldl_addVoteWeight (votedStake : Nat) :
    ∀ (l : List Lockout) {w : Nat}, w < 2 ^ 128 → ∀ slots : List Nat,
      l.foldl (addVoteWeight votedStake) (w, slots) =
        (wrappingAdd 128 w (votedStake * (l.map Lockout.lockout).sum),
          (l.map Lockout.slot).foldl (fun s x => (ListSet.insert s x).1) slots)
  | [], w, hw, slots => by
      simp only [List.foldl_nil, List.map_nil, List.sum_nil, Nat.mul_zero, wrappingAdd,
        Nat.add_zero, Nat.mod_eq_of_lt hw]
  | v :: l, w, _, slots => by
      rw [List.foldl_cons, addVoteWeight, foldl_addVoteWeight votedStake l (wrappingAdd_lt _ _ _)]
      simp only [List.map_cons, List.sum_cons, List.foldl_cons, Prod.mk.injEq, and_true]
      rw [wrappingAdd_wrappingMul, wrappingAdd, wrappingAdd, wrappingAdd, Nat.mod_add_mod]
      rw [Nat.mul_add, Nat.mul_comm v.lockout votedStake, Nat.add_assoc]

section Step

variable {voteAccountPubkey : Pubkey} {bankSlot : Nat} {ancestors : Ancestors}
  {getFrozenHash : Nat → Option Hash}

/-- An account without stake, or whose vote state does not deserialize, is skipped. -/
theorem collectStep_of_not_counted (st : CollectState) (e : Pubkey × Nat × Option VoteState)
    (h : e.2.1 = 0 ∨ e.2.2 = none) :
    collectStep voteAccountPubkey bankSlot ancestors getFrozenHash st e = some st := by
  obtain ⟨key, votedStake, account⟩ := e
  simp only at h
  rcases h with h | rfl
  · simp [collectStep, h]
  · simp [collectStep]

/-- The loop body on a counted account whose votes are below the bank: it absorbs the
account, and passes its last vote to the latest votes. -/
theorem collectStep_of_counted (st : CollectState) {key : Pubkey} {votedStake : Nat}
    {voteState : VoteState} (hStake : votedStake ≠ 0)
    (hBelow : ∀ last ∈ voteState.lastVotedSlot, last < bankSlot) (hw : st.bankWeight < 2 ^ 128) :
    collectStep voteAccountPubkey bankSlot ancestors getFrozenHash st (key, votedStake, some voteState) =
      (st.latestVotes.run (latestVoteCalls getFrozenHash (key, votedStake, voteState))).map
        fun l => { st.absorb voteAccountPubkey bankSlot ancestors (key, votedStake, voteState) with
          latestVotes := l } := by
  have hNewest := simulated_newest hBelow
  have hVoted : ((((processSlotVoteUnchecked voteState bankSlot).nthRecentLockout 1).map
      fun vote => updateAncestorVotedStakes st.votedStakes vote.slot votedStake ancestors).getD
        st.votedStakes) =
      (supportedSlots ancestors bankSlot voteState).foldl (addVotedStake votedStake)
        st.votedStakes := by
    rw [supportedSlots, ← simulated_below_newest hBelow]
    rcases (processSlotVoteUnchecked voteState bankSlot).nthRecentLockout 1 with _ | vote
    · rfl
    · simp [updateAncestorVotedStakes_eq]
  have hWeight : addRootWeights votedStake voteState.rootSlot
      (processSlotVoteUnchecked voteState bankSlot).rootSlot
      ((processSlotVoteUnchecked voteState bankSlot).votes.foldl (addVoteWeight votedStake)
        (st.bankWeight, st.voteSlots)) =
      (wrappingAdd 128 st.bankWeight (votedStake * towerWeight bankSlot voteState),
        ((simulatedLockouts bankSlot voteState).map Lockout.slot).foldl
          (fun s x => (ListSet.insert s x).1) st.voteSlots) := by
    rw [addRootWeights_eq, ← List.foldl_append]
    exact foldl_addVoteWeight votedStake (simulatedLockouts bankSlot voteState) hw st.voteSlots
  have hMy : (voteState.nthRecentLockout 0).map Lockout.slot = voteState.lastVotedSlot := by
    rw [nthRecentLockout_zero]
    rfl
  unfold collectStep
  rcases hLast : voteState.lastVotedSlot with _ | last <;>
    simp [hStake, hLast, hNewest, hVoted, hWeight, hMy, latestVoteCalls,
      LatestValidatorVotesForFrozenBanks.run, CollectState.absorb]
  -- of what `check_add_vote` returns, the loop keeps the new latest votes
  rcases st.latestVotes.checkAddVote key last (getFrozenHash last) true with _ | ⟨r, l⟩ <;> rfl

end Step

/-! ### The loop -/

theorem countedAccounts_cons_of_not_counted (e : Pubkey × Nat × Option VoteState)
    (h : e.2.1 = 0 ∨ e.2.2 = none) (rest : VoteAccountsHashMap) :
    countedAccounts (e :: rest) = countedAccounts rest := by
  rcases h with h | h <;> simp [countedAccounts, h]

theorem countedAccounts_cons_of_counted {key : Pubkey} {votedStake : Nat} (voteState : VoteState)
    (h : votedStake ≠ 0) (rest : VoteAccountsHashMap) :
    countedAccounts ((key, votedStake, some voteState) :: rest) =
      (key, votedStake, voteState) :: countedAccounts rest := by
  simp [countedAccounts, h]

section Run

variable {voteAccountPubkey : Pubkey} {bankSlot : Nat} {ancestors : Ancestors}
  {getFrozenHash : Nat → Option Hash}

theorem foldl_absorb_latestVotes (accounts : List (Pubkey × Nat × VoteState)) (st : CollectState)
    (l : LatestValidatorVotesForFrozenBanks) :
    accounts.foldl (CollectState.absorb voteAccountPubkey bankSlot ancestors)
        { st with latestVotes := l } =
      { accounts.foldl (CollectState.absorb voteAccountPubkey bankSlot ancestors) st with
        latestVotes := l } :=
  List.foldl_hom (fun st : CollectState => { st with latestVotes := l }) fun _ _ => rfl

/-- The loop over the vote accounts absorbs the counted ones in order and passes their last
votes to the latest votes; it fails only when `check_add_vote` panics. -/
theorem foldlM_collectStep :
    ∀ (voteAccounts : VoteAccountsHashMap) (st : CollectState),
      (∀ a ∈ countedAccounts voteAccounts, ∀ last ∈ a.2.2.lastVotedSlot, last < bankSlot) →
      st.bankWeight < 2 ^ 128 →
      voteAccounts.foldlM (collectStep voteAccountPubkey bankSlot ancestors getFrozenHash) st =
        (st.latestVotes.run
            ((countedAccounts voteAccounts).flatMap (latestVoteCalls getFrozenHash))).map fun l =>
          { (countedAccounts voteAccounts).foldl
              (CollectState.absorb voteAccountPubkey bankSlot ancestors) st with latestVotes := l }
  | [], st, _, _ => by simp [countedAccounts, LatestValidatorVotesForFrozenBanks.run]
  | (key, votedStake, account) :: rest, st, hBelow, hw => by
      rw [List.foldlM_cons]
      by_cases hSkip : votedStake = 0 ∨ account = none
      · -- a skipped account changes nothing
        have hRest := countedAccounts_cons_of_not_counted (key, votedStake, account) hSkip rest
        rw [hRest] at hBelow ⊢
        rw [collectStep_of_not_counted st (key, votedStake, account) hSkip, Option.bind_apply, Option.bind_some]
        exact foldlM_collectStep rest st hBelow hw
      · obtain ⟨hStake, voteState, rfl⟩ : votedStake ≠ 0 ∧ ∃ vs, account = some vs := by
          push Not at hSkip
          exact ⟨hSkip.1, Option.ne_none_iff_exists'.mp hSkip.2⟩
        rw [countedAccounts_cons_of_counted voteState hStake rest] at hBelow ⊢
        have hLast := hBelow _ List.mem_cons_self
        rw [collectStep_of_counted st hStake hLast hw, List.flatMap_cons,
          LatestValidatorVotesForFrozenBanks.run_append, List.foldl_cons]
        cases st.latestVotes.run (latestVoteCalls getFrozenHash (key, votedStake, voteState)) with
        | none => rfl
        | some l =>
            -- the rest of the loop starts from the absorbed state with the new latest votes
            have hw' : ({ st.absorb voteAccountPubkey bankSlot ancestors (key, votedStake, voteState) with
                latestVotes := l } : CollectState).bankWeight < 2 ^ 128 := wrappingAdd_lt _ _ _
            rw [Option.map_some, Option.bind_apply, Option.bind_some, Option.bind_some,
              foldlM_collectStep rest _ (fun a ha => hBelow a (List.mem_cons_of_mem _ ha)) hw',
              foldl_absorb_latestVotes]

end Run

/-! ### The fields as sums over the counted accounts -/

theorem mem_ancestorEntries {ancestors : Ancestors} {slots : List Nat} {s : Nat} :
    s ∈ ancestorEntries ancestors slots ↔ ∃ x ∈ slots, s ∈ ancestorEntries ancestors [x] := by
  simp [ancestorEntries]

/-- With proper ancestors, the slots an account supports are distinct. -/
theorem ProperAncestors.nodup_supportedSlots {ancestors : Ancestors} (h : ProperAncestors ancestors)
    (bankSlot : Nat) (voteState : VoteState) :
    (supportedSlots ancestors bankSlot voteState).Nodup := by
  unfold supportedSlots ancestorEntries
  rcases lastLockedOutVote bankSlot voteState with _ | v
  · simp
  · rcases hAnc : ancestors.get? v with _ | voteSlotAncestors
    · simp [hAnc]
    · obtain ⟨hNotSelf, hNodup⟩ := h _ ((SortedMap.mem_entries_iff ancestors).mpr hAnc)
      simpa [hAnc] using ⟨hNotSelf, hNodup⟩

section Fields

variable (voteAccountPubkey : Pubkey) (bankSlot : Nat) (ancestors : Ancestors)
  (accounts : List (Pubkey × Nat × VoteState))

/-! Each field of the loop's state after the counted accounts is a fold of its own. -/

theorem foldl_absorb_totalStake (st : CollectState) :
    (accounts.foldl (CollectState.absorb voteAccountPubkey bankSlot ancestors) st).totalStake =
      accounts.foldl (fun t a => wrappingAdd 128 t a.2.1) st.totalStake :=
  (List.foldl_hom CollectState.totalStake fun _ _ => rfl).symm

theorem foldl_absorb_bankWeight (st : CollectState) :
    (accounts.foldl (CollectState.absorb voteAccountPubkey bankSlot ancestors) st).bankWeight =
      accounts.foldl (fun w a => wrappingAdd 128 w (a.2.1 * towerWeight bankSlot a.2.2))
        st.bankWeight :=
  (List.foldl_hom CollectState.bankWeight fun _ _ => rfl).symm

theorem foldl_absorb_votedStakes (st : CollectState) :
    (accounts.foldl (CollectState.absorb voteAccountPubkey bankSlot ancestors) st).votedStakes =
      accounts.foldl
        (fun m a => (supportedSlots ancestors bankSlot a.2.2).foldl (addVotedStake a.2.1) m)
        st.votedStakes :=
  (List.foldl_hom CollectState.votedStakes fun _ _ => rfl).symm

theorem foldl_absorb_lockoutIntervals (st : CollectState) :
    (accounts.foldl (CollectState.absorb voteAccountPubkey bankSlot ancestors) st).lockoutIntervals =
      accounts.foldl (fun m a => a.2.2.votes.foldl (addLockoutInterval a.1) m)
        st.lockoutIntervals :=
  (List.foldl_hom CollectState.lockoutIntervals fun _ _ => rfl).symm

theorem foldl_absorb_voteSlots (st : CollectState) :
    (accounts.foldl (CollectState.absorb voteAccountPubkey bankSlot ancestors) st).voteSlots =
      accounts.foldl
        (fun s a => ((simulatedLockouts bankSlot a.2.2).map Lockout.slot).foldl
          (fun s x => (ListSet.insert s x).1) s)
        st.voteSlots :=
  (List.foldl_hom CollectState.voteSlots fun _ _ => rfl).symm

theorem foldl_absorb_myLatestLandedVote (st : CollectState) :
    (accounts.foldl (CollectState.absorb voteAccountPubkey bankSlot ancestors) st).myLatestLandedVote =
      accounts.foldl (fun o a => if a.1 = voteAccountPubkey then a.2.2.lastVotedSlot else o)
        st.myLatestLandedVote :=
  (List.foldl_hom CollectState.myLatestLandedVote fun _ _ => rfl).symm

/-! From the start of the loop, the folds are sums and lookups over the accounts. -/

variable (latestVotes : LatestValidatorVotesForFrozenBanks)

theorem absorbed_totalStake :
    (accounts.foldl (CollectState.absorb voteAccountPubkey bankSlot ancestors)
        (CollectState.initial latestVotes)).totalStake =
      (accounts.map (·.2.1)).sum % 2 ^ 128 := by
  have h0 : (CollectState.initial latestVotes).totalStake = 0 := rfl
  rw [foldl_absorb_totalStake, h0, foldl_wrappingAdd (·.2.1) accounts (Nat.two_pow_pos 128),
    wrappingAdd, Nat.zero_add]

theorem absorbed_bankWeight :
    (accounts.foldl (CollectState.absorb voteAccountPubkey bankSlot ancestors)
        (CollectState.initial latestVotes)).bankWeight =
      (accounts.map fun a => a.2.1 * towerWeight bankSlot a.2.2).sum % 2 ^ 128 := by
  have h0 : (CollectState.initial latestVotes).bankWeight = 0 := rfl
  rw [foldl_absorb_bankWeight, h0,
    foldl_wrappingAdd (fun a => a.2.1 * towerWeight bankSlot a.2.2) accounts (Nat.two_pow_pos 128),
    wrappingAdd, Nat.zero_add]

theorem absorbed_lockoutIntervals (e : Nat) :
    (accounts.foldl (CollectState.absorb voteAccountPubkey bankSlot ancestors)
        (CollectState.initial latestVotes)).lockoutIntervals.get? e =
      if e ∈ (intervalEntries accounts).map Prod.fst then
        some (((intervalEntries accounts).filter (·.1 == e)).map Prod.snd)
      else none := by
  -- the intervals are pushed in the order of the accounts and of their votes
  have hFold : ∀ m : LockoutIntervals,
      accounts.foldl (fun m a => a.2.2.votes.foldl (addLockoutInterval a.1) m) m =
        (intervalEntries accounts).foldl (fun m p => m.alter p.1 fun o => o.getD [] ++ [p.2]) m := by
    intro m
    rw [intervalEntries, List.foldl_flatMap]
    congr
    funext m a
    rw [List.foldl_map]
    rfl
  have hGet := SortedMap.get?_foldl_alter (fun (acc : List (Nat × Pubkey)) x => acc ++ [x]) []
    (intervalEntries accounts) (CollectState.initial latestVotes).lockoutIntervals e
  rw [foldl_absorb_lockoutIntervals, hFold, hGet, Lib.List.foldl_push_eq_append_map]
  rfl

/-- Before the zero entries, each slot holds the stake of the accounts that support it. -/
theorem absorbed_votedStakes (hAncestors : ProperAncestors ancestors) (s : Nat) :
    (accounts.foldl (CollectState.absorb voteAccountPubkey bankSlot ancestors)
        (CollectState.initial latestVotes)).votedStakes.get? s =
      if ∃ a ∈ accounts, s ∈ supportedSlots ancestors bankSlot a.2.2 then
        some (((accounts.filter fun a => s ∈ supportedSlots ancestors bankSlot a.2.2).map
          (·.2.1)).sum % 2 ^ 128)
      else none := by
  -- the stakes are added slot by slot, in the order of the accounts
  have hFold : ∀ m : VotedStakes,
      accounts.foldl
          (fun m a => (supportedSlots ancestors bankSlot a.2.2).foldl (addVotedStake a.2.1) m) m =
        (accounts.flatMap fun a => (supportedSlots ancestors bankSlot a.2.2).map (·, a.2.1)).foldl
          (fun m p => m.alter p.1 fun o => wrappingAdd 128 (o.getD 0) p.2) m := by
    intro m
    rw [List.foldl_flatMap]
    congr
    funext m a
    rw [List.foldl_map]
    rfl
  have hGet := SortedMap.get?_foldl_alter (wrappingAdd 128) 0
    (accounts.flatMap fun a => (supportedSlots ancestors bankSlot a.2.2).map (·, a.2.1))
    (CollectState.initial latestVotes).votedStakes s
  have hEmpty : SortedMap.get? (CollectState.initial latestVotes).votedStakes s = none := rfl
  have hMem : s ∈ (accounts.flatMap fun a =>
        (supportedSlots ancestors bankSlot a.2.2).map (·, a.2.1)).map Prod.fst ↔
      ∃ a ∈ accounts, s ∈ supportedSlots ancestors bankSlot a.2.2 := by
    simp only [List.mem_map, List.mem_flatMap]
    constructor
    · rintro ⟨_, ⟨a, ha, x, hx, rfl⟩, rfl⟩
      exact ⟨a, ha, hx⟩
    · rintro ⟨a, ha, hs⟩
      exact ⟨(s, a.2.1), ⟨a, ha, s, hs, rfl⟩, rfl⟩
  have hSum := Lib.List.sum_snd_filter_flatMap (fun a => supportedSlots ancestors bankSlot a.2.2)
    (·.2.1) s accounts fun a _ => hAncestors.nodup_supportedSlots bankSlot a.2.2
  rw [foldl_absorb_votedStakes, hFold, hGet, hEmpty, Option.getD_none,
    foldl_wrappingAdd Prod.snd _ (Nat.two_pow_pos 128), wrappingAdd, Nat.zero_add, hSum]
  simp only [hMem]

theorem mem_absorbed_voteSlots {x : Nat} :
    x ∈ (accounts.foldl (CollectState.absorb voteAccountPubkey bankSlot ancestors)
        (CollectState.initial latestVotes)).voteSlots ↔
      ∃ a ∈ accounts, x ∈ (simulatedLockouts bankSlot a.2.2).map Lockout.slot := by
  rw [foldl_absorb_voteSlots, ← List.foldl_flatMap, ListSet.mem_foldl_insert_fst]
  simp [CollectState.initial, List.mem_flatMap]

/-- After the zero entries, a slot has an entry when an account supports it or it is a slot,
or an ancestor of a slot, of some simulated tower. -/
theorem absorbed_populated_votedStakes (hAncestors : ProperAncestors ancestors) (s : Nat) :
    (populateAncestorVotedStakes
        (accounts.foldl (CollectState.absorb voteAccountPubkey bankSlot ancestors)
          (CollectState.initial latestVotes)).votedStakes
        (accounts.foldl (CollectState.absorb voteAccountPubkey bankSlot ancestors)
          (CollectState.initial latestVotes)).voteSlots ancestors).get? s =
      if ∃ a ∈ accounts, s ∈ supportedSlots ancestors bankSlot a.2.2 ∨
          s ∈ ancestorEntries ancestors ((simulatedLockouts bankSlot a.2.2).map Lockout.slot) then
        some (((accounts.filter fun a => s ∈ supportedSlots ancestors bankSlot a.2.2).map
          (·.2.1)).sum % 2 ^ 128)
      else none := by
  have hStakes := absorbed_votedStakes voteAccountPubkey bankSlot ancestors accounts latestVotes
    hAncestors s
  have hZero : s ∈ ancestorEntries ancestors
        (accounts.foldl (CollectState.absorb voteAccountPubkey bankSlot ancestors)
          (CollectState.initial latestVotes)).voteSlots ↔
      ∃ a ∈ accounts, s ∈ ancestorEntries ancestors
        ((simulatedLockouts bankSlot a.2.2).map Lockout.slot) := by
    rw [mem_ancestorEntries]
    constructor
    · rintro ⟨x, hx, hs⟩
      obtain ⟨a, ha, hxa⟩ := (mem_absorbed_voteSlots _ _ _ _ _).mp hx
      exact ⟨a, ha, mem_ancestorEntries.mpr ⟨x, hxa, hs⟩⟩
    · rintro ⟨a, ha, hs⟩
      obtain ⟨x, hx, hs'⟩ := mem_ancestorEntries.mp hs
      exact ⟨x, (mem_absorbed_voteSlots _ _ _ _ _).mpr ⟨a, ha, hx⟩, hs'⟩
  generalize accounts.foldl (CollectState.absorb voteAccountPubkey bankSlot ancestors)
    (CollectState.initial latestVotes) = st at hStakes hZero
  -- the zero entries come last: they add the missing keys and keep the stakes there
  have hTouch : ∀ (m : VotedStakes) (l : List Nat), l.foldl touchVotedStake m =
      (l.map (·, 0)).foldl (fun m e => m.alter e.1 fun o => o.getD 0) m := by
    intro m l
    rw [List.foldl_map]
    rfl
  have hGet := SortedMap.get?_foldl_alter (fun (acc : Nat) (_ : Nat) => acc) 0
    ((ancestorEntries ancestors st.voteSlots).map (·, 0)) st.votedStakes s
  have hKeys : s ∈ ((ancestorEntries ancestors st.voteSlots).map (·, 0)).map Prod.fst ↔
      s ∈ ancestorEntries ancestors st.voteSlots := by
    simp
  rw [populateAncestorVotedStakes_eq, hTouch, hGet, List.foldl_fixed, hStakes]
  by_cases hSupp : ∃ a ∈ accounts, s ∈ supportedSlots ancestors bankSlot a.2.2
  · have hEither : ∃ a ∈ accounts, s ∈ supportedSlots ancestors bankSlot a.2.2 ∨
        s ∈ ancestorEntries ancestors ((simulatedLockouts bankSlot a.2.2).map Lockout.slot) := by
      obtain ⟨a, ha, hs⟩ := hSupp
      exact ⟨a, ha, Or.inl hs⟩
    rw [if_pos hSupp, if_pos hEither]
    split_ifs <;> rfl
  · -- no account supports the slot: its stake is the empty sum
    have hNone : (accounts.filter fun a => s ∈ supportedSlots ancestors bankSlot a.2.2) = [] := by
      rw [List.filter_eq_nil_iff]
      intro a ha hs
      exact hSupp ⟨a, ha, of_decide_eq_true hs⟩
    have hIff : (∃ a ∈ accounts, s ∈ supportedSlots ancestors bankSlot a.2.2 ∨
        s ∈ ancestorEntries ancestors ((simulatedLockouts bankSlot a.2.2).map Lockout.slot)) ↔
        ∃ a ∈ accounts, s ∈ ancestorEntries ancestors
          ((simulatedLockouts bankSlot a.2.2).map Lockout.slot) := by
      constructor
      · rintro ⟨a, ha, hs | hs⟩
        · exact absurd ⟨a, ha, hs⟩ hSupp
        · exact ⟨a, ha, hs⟩
      · rintro ⟨a, ha, hs⟩
        exact ⟨a, ha, Or.inr hs⟩
    rw [if_neg hSupp, hNone]
    by_cases hSeen : ∃ a ∈ accounts, s ∈ ancestorEntries ancestors
        ((simulatedLockouts bankSlot a.2.2).map Lockout.slot)
    · rw [if_pos (hKeys.mpr (hZero.mpr hSeen)), if_pos (hIff.mpr hSeen)]
      rfl
    · rw [if_neg fun h => hSeen (hZero.mp (hKeys.mp h)), if_neg fun h => hSeen (hIff.mp h)]

theorem absorbed_myLatestLandedVote :
    (accounts.foldl (CollectState.absorb voteAccountPubkey bankSlot ancestors)
        (CollectState.initial latestVotes)).myLatestLandedVote =
      ((accounts.filter (·.1 == voteAccountPubkey)).getLast?).bind (·.2.2.lastVotedSlot) := by
  rw [foldl_absorb_myLatestLandedVote]
  -- the last visit of the node's own account wins
  induction accounts using List.reverseRecOn with
  | nil => rfl
  | append_singleton l a ih =>
      by_cases hOwn : a.1 = voteAccountPubkey <;> simp [List.foldl_append, ih, hOwn]

end Fields

/-! ### The computed bank state -/

/-- `collect_vote_lockouts` on accounts whose votes are all below the bank, with proper
ancestors and latest votes whose dirty set is within the replay map: it does not panic, and it
passes each counted account's last vote to the latest votes. Over the counted accounts, in
their iteration order, the total stake is the sum of their stakes. A slot has an entry in
`voted_stakes` when some account supports it (it is the newest vote still locked out at the
bank or one of that vote's ancestors) or it is, or is an ancestor of, a slot of a simulated
tower; the entry is the stake of the accounts that support it. The lockout intervals ending at
a slot are the votes that end there, in order, and the bank weight is the stake-weighted sum of
the simulated lockouts. The node's own latest landed vote is the last vote of its account. All
sums wrap at `2 ^ 128`. -/
theorem collectVoteLockouts_fork_weights (voteAccountPubkey : Pubkey) (bankSlot : Nat)
    (voteAccounts : VoteAccountsHashMap) (ancestors : Ancestors)
    (getFrozenHash : Nat → Option Hash) (latestVotes : LatestValidatorVotesForFrozenBanks)
    (hLatest : latestVotes.DirtyWithinReplay) (hAncestors : ProperAncestors ancestors)
    (hBelow : ∀ a ∈ countedAccounts voteAccounts, ∀ last ∈ a.2.2.lastVotedSlot, last < bankSlot) :
    ∃ computed latestVotes',
      collectVoteLockouts voteAccountPubkey bankSlot voteAccounts ancestors getFrozenHash
          latestVotes = some (computed, latestVotes') ∧
      latestVotes.run ((countedAccounts voteAccounts).flatMap (latestVoteCalls getFrozenHash)) =
        some latestVotes' ∧
      latestVotes'.DirtyWithinReplay ∧
      computed.totalStake = ((countedAccounts voteAccounts).map (·.2.1)).sum % 2 ^ 128 ∧
      (∀ s, computed.votedStakes.get? s =
        if ∃ a ∈ countedAccounts voteAccounts, s ∈ supportedSlots ancestors bankSlot a.2.2 ∨
            s ∈ ancestorEntries ancestors ((simulatedLockouts bankSlot a.2.2).map Lockout.slot) then
          some ((((countedAccounts voteAccounts).filter fun a =>
            s ∈ supportedSlots ancestors bankSlot a.2.2).map (·.2.1)).sum % 2 ^ 128)
        else none) ∧
      (∀ e, computed.lockoutIntervals.get? e =
        if e ∈ (intervalEntries (countedAccounts voteAccounts)).map Prod.fst then
          some (((intervalEntries (countedAccounts voteAccounts)).filter (·.1 == e)).map Prod.snd)
        else none) ∧
      computed.bankWeight = ((countedAccounts voteAccounts).map fun a =>
        a.2.1 * towerWeight bankSlot a.2.2).sum % 2 ^ 128 ∧
      computed.myLatestLandedVote =
        (((countedAccounts voteAccounts).filter (·.1 == voteAccountPubkey)).getLast?).bind
          (·.2.2.lastVotedSlot) := by
  obtain ⟨latestVotes', hRun, hInv⟩ :=
    LatestValidatorVotesForFrozenBanks.run_isSome_of_dirtyWithinReplay
      ((countedAccounts voteAccounts).flatMap (latestVoteCalls getFrozenHash)) hLatest
  have hLoop := @foldlM_collectStep voteAccountPubkey bankSlot ancestors getFrozenHash
    voteAccounts (CollectState.initial latestVotes) hBelow (Nat.two_pow_pos 128)
  have hStart : (CollectState.initial latestVotes).latestVotes = latestVotes := rfl
  rw [hStart, hRun, Option.map_some] at hLoop
  refine ⟨_, latestVotes', by rw [collectVoteLockouts, hLoop]; rfl, hRun, hInv, ?_, ?_, ?_, ?_, ?_⟩
  · exact absorbed_totalStake voteAccountPubkey bankSlot ancestors _ latestVotes
  · exact absorbed_populated_votedStakes voteAccountPubkey bankSlot ancestors _ latestVotes
      hAncestors
  · exact absorbed_lockoutIntervals voteAccountPubkey bankSlot ancestors _ latestVotes
  · exact absorbed_bankWeight voteAccountPubkey bankSlot ancestors _ latestVotes
  · exact absorbed_myLatestLandedVote voteAccountPubkey bankSlot ancestors _ latestVotes

/-- One account of stake 5 with a vote on slot 1, still locked out at bank 2, and slot 1 with
the ancestor 0: slot 0 gets the stake. -/
theorem collectVoteLockouts_fork_weights_one_account :
    ProperAncestors ⟨[(1, [0]), (2, [1, 0])], by decide⟩ ∧
      ∃ computed latestVotes',
        collectVoteLockouts Pubkey.default 2
            [(Pubkey.default, 5, some ⟨[⟨1, 1⟩], none, [], ⟨0, 0⟩⟩)]
            ⟨[(1, [0]), (2, [1, 0])], by decide⟩ (fun _ => none)
            LatestValidatorVotesForFrozenBanks.default = some (computed, latestVotes') ∧
        computed.votedStakes.get? 0 = some 5 := by
  have hAncestors : ProperAncestors ⟨[(1, [0]), (2, [1, 0])], by decide⟩ := by decide
  obtain ⟨computed, latestVotes', hCall, -, -, -, hVoted, -⟩ :=
    collectVoteLockouts_fork_weights Pubkey.default 2
      [(Pubkey.default, 5, some ⟨[⟨1, 1⟩], none, [], ⟨0, 0⟩⟩)]
      ⟨[(1, [0]), (2, [1, 0])], by decide⟩ (fun _ => none)
      LatestValidatorVotesForFrozenBanks.default
      LatestValidatorVotesForFrozenBanks.dirtyWithinReplay_default hAncestors (by decide)
  refine ⟨hAncestors, computed, latestVotes', hCall, ?_⟩
  rw [hVoted]
  decide

/-- The stake does not go to an account's last landed vote once the bank is past that vote's
lockout. The only vote of the account, on slot 1, is locked out until slot 3; at bank 10 the
simulation pops it, and slot 1 gets no entry although it has ancestors. -/
theorem collectVoteLockouts_skips_expired_last_vote :
    ∃ computed latestVotes',
      collectVoteLockouts Pubkey.default 10
          [(Pubkey.default, 5, some ⟨[⟨1, 1⟩], none, [], ⟨0, 0⟩⟩)]
          ⟨[(1, [0])], by decide⟩ (fun _ => none)
          LatestValidatorVotesForFrozenBanks.default = some (computed, latestVotes') ∧
      computed.votedStakes.get? 1 = none := by
  have hAncestors : ProperAncestors ⟨[(1, [0])], by decide⟩ := by decide
  have hLoop := @foldlM_collectStep Pubkey.default 10 ⟨[(1, [0])], by decide⟩ (fun _ => none)
    [(Pubkey.default, 5, some ⟨[⟨1, 1⟩], none, [], ⟨0, 0⟩⟩)]
    (CollectState.initial LatestValidatorVotesForFrozenBanks.default) (by decide)
    (Nat.two_pow_pos 128)
  -- the vote is for a bank that is not frozen, so the latest votes stay as they are
  have hRun : (CollectState.initial LatestValidatorVotesForFrozenBanks.default).latestVotes.run
      ((countedAccounts [(Pubkey.default, 5, some ⟨[⟨1, 1⟩], none, [], ⟨0, 0⟩⟩)]).flatMap
        (latestVoteCalls fun _ => none)) = some LatestValidatorVotesForFrozenBanks.default := rfl
  rw [hRun, Option.map_some] at hLoop
  refine ⟨_, _, by rw [collectVoteLockouts, hLoop]; rfl, ?_⟩
  rw [absorbed_populated_votedStakes _ _ _ _ _ hAncestors]
  simp only [simulatedLockouts, processSlotVoteUnchecked_eq]
  decide

end PutValidator.Consensus
