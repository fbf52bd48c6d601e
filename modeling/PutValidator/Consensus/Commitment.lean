import Mathlib
import PutValidator.Consensus.CollectVoteLockouts

/-! Block commitment, from `core/src/commitment_service.rs` and `runtime/src/commitment.rs`.

For each ancestor of a bank, `aggregate_commitment` adds up the stake that has rooted the
ancestor and, for each confirmation count, the stake whose oldest vote at or above the ancestor
has that count. One cursor into the ancestors runs through the root loop and then through the
votes; `BlockCommitment::increase_confirmation_stake` asserts that the count is in `1..=31`.
`get_highest_super_majority_root` sorts the roots in descending order and returns the first
one at which the accumulated stake passes two thirds of the total.

The per-account lemma (`aggregateCommitmentForVoteAccount_eq`) says which entry of which
ancestor each account credits; over all accounts the entries are then sums
(`aggregateCommitment_spec`). -/
namespace PutValidator.Consensus

open Lib Lib.Word Vote

/-- `BlockCommitment`: the stake at each confirmation count `1..=31`, then the rooted stake. -/
structure BlockCommitment where
  commitment : List Nat
  length_eq : commitment.length = maxLockoutHistory + 1

namespace BlockCommitment

protected def default : BlockCommitment := ⟨List.replicate (maxLockoutHistory + 1) 0, by simp⟩

/-- `self.commitment[index] += stake` on a `u128`. -/
def addAt (bc : BlockCommitment) (index stake : Nat) : BlockCommitment :=
  ⟨bc.commitment.modify index (wrappingAdd 128 · stake), by simp [bc.length_eq]⟩

/-- `increase_confirmation_stake`; `none` when its `assert!` fires. -/
def increaseConfirmationStake (bc : BlockCommitment) (confirmationCount stake : Nat) :
    Option BlockCommitment :=
  if 0 < confirmationCount ∧ confirmationCount ≤ maxLockoutHistory then
    some (bc.addAt (confirmationCount - 1) stake)
  else none

def increaseRootedStake (bc : BlockCommitment) (stake : Nat) : BlockCommitment :=
  bc.addAt maxLockoutHistory stake

/-- `get_confirmation_stake`, for a count in `1..=31`. -/
def getConfirmationStake (bc : BlockCommitment) (confirmationCount : Nat) : Nat :=
  bc.commitment.getD (confirmationCount - 1) 0

def getRootedStake (bc : BlockCommitment) : Nat := bc.commitment.getD maxLockoutHistory 0

end BlockCommitment

/-- The commitment of each ancestor, a `HashMap<Slot, BlockCommitment>`. -/
abbrev Commitments := SortedMap Nat BlockCommitment

/-- `commitment.entry(a).or_insert_with(BlockCommitment::default)`, then `f` on it. -/
def updateCommitment (commitment : Commitments) (a : Nat) (f : BlockCommitment → BlockCommitment) :
    Commitments :=
  commitment.alter a fun o => f (o.getD .default)

/-- The root loop of `aggregate_commitment_for_vote_account`: credit the rooted stake to the
ancestors at or below the root, and stop with the cursor on the first one above it. The cursor
stays at `0` when every ancestor is at or below the root. -/
def rootLoop (root lamports : Nat) (commitment : Commitments) :
    Nat → List Nat → Commitments × Nat
  | _, [] => (commitment, 0)
  | i, a :: rest =>
      if a ≤ root then
        rootLoop root lamports (updateCommitment commitment a (·.increaseRootedStake lamports))
          (i + 1) rest
      else (commitment, i)

/-- How the `while` loop for one vote ends: it moves on to the next vote with the ancestors
still ahead, it returns from the function once the ancestors run out, or it panics. -/
inductive VoteWhile
  | next (commitment : Commitments) (rest : List Nat)
  | returned (commitment : Commitments)
  | panic

/-- The `while` loop for one vote: credit its confirmation count to the ancestors at or below
its slot. `rest` holds the ancestors from the cursor on. -/
def attributeVote (lamports : Nat) (vote : Lockout) : List Nat → Commitments → VoteWhile
  -- `ancestors[ancestors_index]` out of bounds
  | [], _ => .panic
  | a :: rest, commitment =>
      if a ≤ vote.slot then
        match ((commitment.get? a).getD .default).increaseConfirmationStake vote.confirmationCount
            lamports with
        | none => .panic
        | some bc =>
            let commitment := commitment.insert a bc
            if rest = [] then .returned commitment
            else attributeVote lamports vote rest commitment
      else .next commitment (a :: rest)

/-- The loop over the votes, oldest first; `none` on a panic. -/
def voteLoop (lamports : Nat) : List Lockout → List Nat → Commitments → Option Commitments
  | [], _, commitment => some commitment
  | vote :: votes, rest, commitment =>
      match attributeVote lamports vote rest commitment with
      | .next commitment rest => voteLoop lamports votes rest commitment
      | .returned commitment => some commitment
      | .panic => none

def aggregateCommitmentForVoteAccount (commitment : Commitments) (rootedStake : List (Nat × Nat))
    (voteState : VoteState) (ancestors : List Nat) (lamports : Nat) :
    Option (Commitments × List (Nat × Nat)) := do
  unless !ancestors.isEmpty do none
  let (commitment, ancestorsIndex, rootedStake) :=
    match voteState.rootSlot with
    | some root =>
        let (commitment, ancestorsIndex) := rootLoop root lamports commitment 0 ancestors
        (commitment, ancestorsIndex, rootedStake ++ [(root, lamports)])
    | none => (commitment, 0, rootedStake)
  let commitment ← voteLoop lamports voteState.votes (ancestors.drop ancestorsIndex) commitment
  pure (commitment, rootedStake)

/-- The body of the loop of `aggregate_commitment`: accounts without stake, or whose vote state
does not deserialize, are skipped. -/
def aggregateStep (ancestors : List Nat) (acc : Commitments × List (Nat × Nat))
    (e : Pubkey × Nat × Option VoteState) : Option (Commitments × List (Nat × Nat)) :=
  if e.2.1 = 0 then some acc
  else
    match e.2.2 with
    | some voteState => aggregateCommitmentForVoteAccount acc.1 acc.2 voteState ancestors e.2.1
    | none => some acc

/-- `aggregate_commitment` over `bank.vote_accounts()`, in its iteration order. -/
def aggregateCommitment (ancestors : List Nat) (voteAccounts : VoteAccountsHashMap) :
    Option (Commitments × List (Nat × Nat)) := do
  unless !ancestors.isEmpty do none
  -- the `assert!` that the ancestors ascend
  unless ancestors.IsChain (· < ·) do none
  voteAccounts.foldlM (aggregateStep ancestors) (.empty, [])

/-! ### The super-majority root -/

/-- `VOTE_THRESHOLD_SIZE`. -/
def voteThresholdSize : Float := 2.0 / 3.0

/-- The test of `get_highest_super_majority_root`, on `f64`. -/
def voteThresholdFloat (stakeSum totalStake : Nat) : Bool :=
  Float.ofNat stakeSum / Float.ofNat totalStake > voteThresholdSize

/-- The same test read as the exact rational `stake_sum / total_stake > 2 / 3`. With no stake
at all the `f64` quotient is NaN or infinite, and it passes exactly when `stake_sum` is
positive, as here. -/
def voteThresholdExact (stakeSum totalStake : Nat) : Bool := 2 * totalStake < 3 * stakeSum

/-- The accumulation over the roots in descending order. -/
def superMajorityWalk (exceedsThreshold : Nat → Nat → Bool) (totalStake : Nat) :
    List (Nat × Nat) → Nat → Nat
  | [], _ => 0
  | (root, stake) :: rest, stakeSum =>
      let stakeSum := wrappingAdd 128 stakeSum stake
      if exceedsThreshold stakeSum totalStake then root
      else superMajorityWalk exceedsThreshold totalStake rest stakeSum

/-- `get_highest_super_majority_root`, with the threshold test as a parameter. -/
def getHighestSuperMajorityRoot (exceedsThreshold : Nat → Nat → Bool)
    (rootedStake : List (Nat × Nat)) (totalStake : Nat) : Nat :=
  superMajorityWalk exceedsThreshold totalStake (rootedStake.mergeSort fun a b => b.1 ≤ a.1) 0

/-! ### What one account credits -/

/-- The entry of an ancestor's commitment that an account credits: the rooted stake when its
root is at or above the ancestor, otherwise the confirmation count of its oldest vote at or
above the ancestor, if there is one. -/
def creditIndex (voteState : VoteState) (a : Nat) : Option Nat :=
  if voteState.rootSlot.any (a ≤ ·) then some maxLockoutHistory
  else (voteState.votes.find? fun v => a ≤ v.slot).map (·.confirmationCount - 1)

/-- The `(ancestor, entry, stake)` credits of one account. -/
def credits (voteState : VoteState) (ancestors : List Nat) (lamports : Nat) :
    List (Nat × Nat × Nat) :=
  ancestors.filterMap fun a => (creditIndex voteState a).map fun j => (a, j, lamports)

def applyCredits (commitment : Commitments) (cs : List (Nat × Nat × Nat)) : Commitments :=
  cs.foldl (fun m c => updateCommitment m c.1 (·.addAt c.2.1 c.2.2)) commitment

theorem applyCredits_append (commitment : Commitments) (cs₁ cs₂ : List (Nat × Nat × Nat)) :
    applyCredits commitment (cs₁ ++ cs₂) = applyCredits (applyCredits commitment cs₁) cs₂ :=
  List.foldl_append

/-- The root loop credits the rooted stake to the ancestors up to the first one above the root,
and leaves the cursor there; with none above the root, the cursor is back at `0`. -/
theorem rootLoop_eq (root lamports : Nat) :
    ∀ (ancestors : List Nat) (commitment : Commitments) (i : Nat),
      rootLoop root lamports commitment i ancestors =
        (applyCredits commitment ((ancestors.takeWhile (· ≤ root)).map fun a =>
            (a, maxLockoutHistory, lamports)),
          if ∃ a ∈ ancestors, root < a then i + (ancestors.takeWhile (· ≤ root)).length else 0)
  | [], commitment, i => by simp [rootLoop, applyCredits]
  | a :: rest, commitment, i => by
      by_cases ha : a ≤ root
      · have hAbove : (∃ x ∈ a :: rest, root < x) ↔ ∃ x ∈ rest, root < x := by
          constructor
          · rintro ⟨x, hx, hLt⟩
            rcases List.mem_cons.mp hx with rfl | hx
            · omega
            · exact ⟨x, hx, hLt⟩
          · rintro ⟨x, hx, hLt⟩
            exact ⟨x, List.mem_cons_of_mem a hx, hLt⟩
        rw [rootLoop, if_pos ha, rootLoop_eq root lamports rest,
          List.takeWhile_cons_of_pos (by simpa using ha)]
        simp only [List.map_cons, List.length_cons, hAbove]
        refine Prod.ext rfl ?_
        dsimp only
        split_ifs <;> omega
      · have hAbove : ∃ x ∈ a :: rest, root < x := ⟨a, List.mem_cons_self, by omega⟩
        rw [rootLoop, if_neg ha, List.takeWhile_cons_of_neg (by simpa using ha), if_pos hAbove]
        rfl

/-- The `while` loop of one vote credits its confirmation count to the ancestors up to its
slot, and moves the cursor to the first ancestor above it. It neither returns nor panics
while some ancestor lies above the vote and the count is in range. -/
theorem attributeVote_eq (lamports : Nat) (vote : Lockout)
    (hCount : 0 < vote.confirmationCount ∧ vote.confirmationCount ≤ maxLockoutHistory) :
    ∀ (rest : List Nat) (commitment : Commitments), (∃ x ∈ rest, vote.slot < x) →
      attributeVote lamports vote rest commitment =
        .next (applyCredits commitment ((rest.takeWhile (· ≤ vote.slot)).map fun a =>
            (a, vote.confirmationCount - 1, lamports)))
          (rest.dropWhile (· ≤ vote.slot))
  | [], _, hAbove => by simp at hAbove
  | a :: rest, commitment, hAbove => by
      by_cases ha : a ≤ vote.slot
      · -- the ancestor is credited, and one above the vote is still ahead
        have hRest : ∃ x ∈ rest, vote.slot < x := by
          obtain ⟨x, hx, hLt⟩ := hAbove
          rcases List.mem_cons.mp hx with rfl | hx
          · omega
          · exact ⟨x, hx, hLt⟩
        have hNe : rest ≠ [] := by
          obtain ⟨x, hx, -⟩ := hRest
          exact List.ne_nil_of_mem hx
        have hInsert : commitment.insert a
              (((commitment.get? a).getD .default).addAt (vote.confirmationCount - 1) lamports) =
            updateCommitment commitment a (·.addAt (vote.confirmationCount - 1) lamports) := by
          rw [updateCommitment, SortedMap.alter_eq_insert]
        rw [attributeVote, if_pos ha, BlockCommitment.increaseConfirmationStake, if_pos hCount]
        simp only [hInsert, hNe, if_false]
        rw [attributeVote_eq lamports vote hCount rest _ hRest,
          List.takeWhile_cons_of_pos (by simpa using ha),
          List.dropWhile_cons_of_pos (by simpa using ha)]
        rfl
      · rw [attributeVote, if_neg ha, List.takeWhile_cons_of_neg (by simpa using ha),
          List.dropWhile_cons_of_neg (by simpa using ha)]
        rfl

/-- Over votes with counts in range, while an ancestor above all of them is still ahead, the
vote loop credits each ancestor ahead with the count of the oldest vote at or above it. -/
theorem voteLoop_eq (lamports : Nat) :
    ∀ (votes : List Lockout) (rest : List Nat) (commitment : Commitments),
      (∀ v ∈ votes, 0 < v.confirmationCount ∧ v.confirmationCount ≤ maxLockoutHistory) →
      rest.Pairwise (· < ·) → (∃ x ∈ rest, ∀ v ∈ votes, v.slot < x) →
      voteLoop lamports votes rest commitment =
        some (applyCredits commitment (rest.filterMap fun a =>
          ((votes.find? fun v => a ≤ v.slot).map (·.confirmationCount - 1)).map
            fun j => (a, j, lamports)))
  | [], rest, commitment, _, _, _ => by simp [voteLoop, applyCredits]
  | v :: votes, rest, commitment, hCounts, hRest, ⟨x, hx, hAbove⟩ => by
      have hv : v.slot < x := hAbove v List.mem_cons_self
      rw [voteLoop, attributeVote_eq lamports v (hCounts v List.mem_cons_self) rest commitment
        ⟨x, hx, hv⟩]
      dsimp only
      -- the cursor moves past the ancestors at or below the vote, and `x` is still ahead
      rw [voteLoop_eq lamports votes _ _ (fun w hw => hCounts w (List.mem_cons_of_mem v hw))
        (hRest.sublist (List.dropWhile_suffix _).sublist)
        ⟨x, Lib.List.mem_dropWhile_of_lt hx hv, fun w hw => hAbove w (List.mem_cons_of_mem v hw)⟩,
        ← applyCredits_append]
      congr 2
      -- up to the vote's slot the vote itself is the oldest one at or above the ancestor;
      -- above it the vote is skipped
      rw [Lib.List.filterMap_eq_takeWhile_append_dropWhile hRest v.slot
        (g := fun a => some (a, v.confirmationCount - 1, lamports))
        (fun a ha => by rw [List.find?_cons_of_pos (by simpa using ha)]; rfl)
        (fun a ha => by rw [List.find?_cons_of_neg (by simpa using ha)]),
        List.filterMap_eq_map']

/-- One account credits each ancestor the entry `creditIndex` picks, and pushes its root, as
long as its counts are in range and some ancestor lies above its votes and its root. -/
theorem aggregateCommitmentForVoteAccount_eq (commitment : Commitments)
    (rootedStake : List (Nat × Nat)) (voteState : VoteState) (ancestors : List Nat)
    (lamports : Nat)
    (hCounts : ∀ v ∈ voteState.votes,
      0 < v.confirmationCount ∧ v.confirmationCount ≤ maxLockoutHistory)
    (hAncestors : ancestors.Pairwise (· < ·))
    (hAbove : ∃ x ∈ ancestors, (∀ v ∈ voteState.votes, v.slot < x) ∧
      ∀ root ∈ voteState.rootSlot, root < x) :
    aggregateCommitmentForVoteAccount commitment rootedStake voteState ancestors lamports =
      some (applyCredits commitment (credits voteState ancestors lamports),
        rootedStake ++ voteState.rootSlot.toList.map (·, lamports)) := by
  obtain ⟨x, hx, hVotes, hRoot⟩ := hAbove
  have hNonempty : ancestors.isEmpty = false := List.isEmpty_eq_false_iff.mpr (List.ne_nil_of_mem hx)
  simp only [aggregateCommitmentForVoteAccount, hNonempty, Bool.not_false]
  rcases hRootSlot : voteState.rootSlot with _ | root
  · -- without a root the votes are credited from the first ancestor on
    have hCredits : credits voteState ancestors lamports = ancestors.filterMap fun a =>
        ((voteState.votes.find? fun v => a ≤ v.slot).map (·.confirmationCount - 1)).map
          fun j => (a, j, lamports) := by
      simp [credits, creditIndex, hRootSlot]
    simp [hCredits, voteLoop_eq lamports voteState.votes ancestors commitment hCounts hAncestors
      ⟨x, hx, hVotes⟩]
  · -- with one, the root loop credits the ancestors up to it and the votes those above it
    have hLt : root < x := hRoot root (by simp [hRootSlot])
    have hCredits : credits voteState ancestors lamports =
        (ancestors.takeWhile (· ≤ root)).map (fun a => (a, maxLockoutHistory, lamports)) ++
          (ancestors.dropWhile (· ≤ root)).filterMap fun a =>
            ((voteState.votes.find? fun v => a ≤ v.slot).map (·.confirmationCount - 1)).map
              fun j => (a, j, lamports) := by
      rw [credits, Lib.List.filterMap_eq_takeWhile_append_dropWhile hAncestors root
        (g := fun a => some (a, maxLockoutHistory, lamports))
        (h := fun a => ((voteState.votes.find? fun v => a ≤ v.slot).map
          (·.confirmationCount - 1)).map fun j => (a, j, lamports))
        (fun a ha => by simp [creditIndex, hRootSlot, ha])
        (fun a ha => by rw [creditIndex, if_neg (by simp [hRootSlot]; omega)]),
        List.filterMap_eq_map']
    have hIndex : (if ∃ a ∈ ancestors, root < a then
        0 + (ancestors.takeWhile (· ≤ root)).length else 0) =
          (ancestors.takeWhile (· ≤ root)).length := by
      rw [if_pos ⟨x, hx, hLt⟩, Nat.zero_add]
    simp only [rootLoop_eq, hIndex, Lib.List.drop_length_takeWhile]
    rw [voteLoop_eq lamports voteState.votes _ _ hCounts
      (hAncestors.sublist (List.dropWhile_suffix _).sublist)
      ⟨x, Lib.List.mem_dropWhile_of_lt hx hLt, hVotes⟩, hCredits, applyCredits_append]
    simp

/-- What `aggregate_commitment_for_vote_account` needs of a tower not to panic: confirmation
counts in range, and an ancestor above its votes and its root. -/
def FitsAncestors (ancestors : List Nat) (voteState : VoteState) : Prop :=
  (∀ v ∈ voteState.votes, 0 < v.confirmationCount ∧ v.confirmationCount ≤ maxLockoutHistory) ∧
    ∃ x ∈ ancestors, (∀ v ∈ voteState.votes, v.slot < x) ∧ ∀ root ∈ voteState.rootSlot, root < x

/-- The loop of `aggregate_commitment` applies the credits of the counted accounts in order and
pushes their roots. -/
theorem foldlM_aggregateStep {ancestors : List Nat} (hAncestors : ancestors.Pairwise (· < ·)) :
    ∀ (voteAccounts : VoteAccountsHashMap) (acc : Commitments × List (Nat × Nat)),
      (∀ a ∈ countedAccounts voteAccounts, FitsAncestors ancestors a.2.2) →
      voteAccounts.foldlM (aggregateStep ancestors) acc =
        some (applyCredits acc.1 ((countedAccounts voteAccounts).flatMap fun a =>
            credits a.2.2 ancestors a.2.1),
          acc.2 ++ (countedAccounts voteAccounts).flatMap fun a =>
            a.2.2.rootSlot.toList.map (·, a.2.1))
  | [], acc, _ => by simp [countedAccounts, applyCredits]
  | (key, votedStake, account) :: rest, acc, hFit => by
      rw [List.foldlM_cons]
      by_cases hSkip : votedStake = 0 ∨ account = none
      · -- a skipped account changes nothing
        rw [countedAccounts_cons_of_not_counted (key, votedStake, account) hSkip rest] at hFit ⊢
        have hStep : aggregateStep ancestors acc (key, votedStake, account) = some acc := by
          rcases hSkip with h | h <;> simp [aggregateStep, h]
        rw [hStep, Option.bind_eq_bind, Option.bind_some]
        exact foldlM_aggregateStep hAncestors rest acc hFit
      · obtain ⟨hStake, voteState, rfl⟩ : votedStake ≠ 0 ∧ ∃ vs, account = some vs := by
          push Not at hSkip
          exact ⟨hSkip.1, Option.ne_none_iff_exists'.mp hSkip.2⟩
        rw [countedAccounts_cons_of_counted voteState hStake rest] at hFit ⊢
        obtain ⟨hCounts, hAbove⟩ := hFit _ List.mem_cons_self
        have hStep : aggregateStep ancestors acc (key, votedStake, some voteState) =
            some (applyCredits acc.1 (credits voteState ancestors votedStake),
              acc.2 ++ voteState.rootSlot.toList.map (·, votedStake)) := by
          rw [aggregateStep, if_neg hStake]
          exact aggregateCommitmentForVoteAccount_eq acc.1 acc.2 voteState ancestors votedStake
            hCounts hAncestors hAbove
        rw [hStep, Option.bind_eq_bind, Option.bind_some, foldlM_aggregateStep hAncestors rest _
          fun a ha => hFit a (List.mem_cons_of_mem _ ha)]
        simp [applyCredits_append]

/-! ### The super-majority root, read off the roots -/

/-- The stake of the roots at or above `r`. -/
def stakeAtOrAbove (rootedStake : List (Nat × Nat)) (r : Nat) : Nat :=
  ((rootedStake.filter fun e => r ≤ e.1).map Prod.snd).sum

/-- The largest root at which the stake at or above it passes two thirds of the total, and `0`
when there is none. -/
def superMajorityRoot (rootedStake : List (Nat × Nat)) (totalStake : Nat) : Nat :=
  (((rootedStake.map Prod.fst).filter fun r =>
    voteThresholdExact (stakeAtOrAbove rootedStake r) totalStake).max?).getD 0

theorem voteThresholdExact_mono {a b : Nat} (totalStake : Nat) (hab : a ≤ b)
    (h : voteThresholdExact a totalStake) : voteThresholdExact b totalStake := by
  simp only [voteThresholdExact, decide_eq_true_eq] at h ⊢
  omega

/-- Past the head of a list sorted by descending root, the stake at or above a later root
counts the head. -/
theorem stakeAtOrAbove_cons_of_le {r x r' : Nat} {rest : List (Nat × Nat)} (h : r' ≤ r) :
    stakeAtOrAbove ((r, x) :: rest) r' = x + stakeAtOrAbove rest r' := by
  simp [stakeAtOrAbove, h]

/-- Over roots in descending order, with no wrap of the running sum, the walk stops at the
largest root whose stake at or above it (plus what came before) passes the threshold. Equal
roots are the subtle case: the walk may stop at the first of them, and that root also passes
once its equals are counted. -/
theorem superMajorityWalk_eq (totalStake : Nat) :
    ∀ (l : List (Nat × Nat)) (stakeSum : Nat), l.Pairwise (fun a b => b.1 ≤ a.1) →
      stakeSum + (l.map Prod.snd).sum < 2 ^ 128 →
      superMajorityWalk voteThresholdExact totalStake l stakeSum =
        (((l.map Prod.fst).filter fun r =>
          voteThresholdExact (stakeSum + stakeAtOrAbove l r) totalStake).max?).getD 0
  | [], stakeSum, _, _ => by simp [superMajorityWalk]
  | (r, x) :: rest, stakeSum, hSorted, hFits => by
      have hBelow : ∀ e ∈ rest, e.1 ≤ r := fun e he => (List.pairwise_cons.mp hSorted).1 e he
      have hNoWrap : wrappingAdd 128 stakeSum x = stakeSum + x := by
        simp only [List.map_cons, List.sum_cons] at hFits
        exact Nat.mod_eq_of_lt (by omega)
      -- the roots of the tail see the head in their stake
      have hTail : ∀ r' ∈ rest.map Prod.fst, stakeSum + stakeAtOrAbove ((r, x) :: rest) r' =
          stakeSum + x + stakeAtOrAbove rest r' := by
        intro r' hr'
        obtain ⟨e, he, rfl⟩ := List.mem_map.mp hr'
        rw [stakeAtOrAbove_cons_of_le (hBelow e he), Nat.add_assoc]
      rw [superMajorityWalk, hNoWrap]
      by_cases hPass : voteThresholdExact (stakeSum + x) totalStake
      · -- the head passes, and no root of the list is above it
        rw [if_pos hPass]
        have hHead : voteThresholdExact (stakeSum + stakeAtOrAbove ((r, x) :: rest) r)
            totalStake := by
          refine voteThresholdExact_mono totalStake ?_ hPass
          rw [stakeAtOrAbove_cons_of_le le_rfl]
          omega
        have hMax : (((((r, x) :: rest).map Prod.fst).filter fun r' =>
            voteThresholdExact (stakeSum + stakeAtOrAbove ((r, x) :: rest) r') totalStake).max?)
              = some r := by
          refine List.max?_eq_some_iff.mpr ⟨?_, ?_⟩
          · simp [hHead]
          · intro b hb
            obtain ⟨e, he, rfl⟩ := List.mem_map.mp (List.mem_filter.mp hb).1
            rcases List.mem_cons.mp he with rfl | he
            · exact le_rfl
            · exact hBelow e he
        rw [hMax, Option.getD_some]
      · rw [if_neg hPass, superMajorityWalk_eq totalStake rest (stakeSum + x)
          (List.pairwise_cons.mp hSorted).2 (by simpa [Nat.add_assoc] using hFits)]
        congr 1
        apply Lib.List.max?_eq_of_mem_iff
        intro b
        simp only [List.mem_filter, List.map_cons, List.mem_cons]
        constructor
        · rintro ⟨hb, hbPass⟩
          exact ⟨Or.inr hb, by rwa [hTail b hb]⟩
        · rintro ⟨hb, hbPass⟩
          rcases hb with rfl | hb
          · -- the head passes only with an equal root behind it, which then passes too
            rw [stakeAtOrAbove_cons_of_le le_rfl] at hbPass
            have hPos : 0 < stakeAtOrAbove rest b := by
              by_contra hZero
              exact hPass (by simpa [Nat.eq_zero_of_not_pos hZero, Nat.add_assoc] using hbPass)
            obtain ⟨e, he, hLe⟩ : ∃ e ∈ rest, b ≤ e.1 := by
              by_contra hNone
              push Not at hNone
              have hEmpty : rest.filter (fun e => b ≤ e.1) = [] :=
                List.filter_eq_nil_iff.mpr fun e he => by simpa using hNone e he
              simp [stakeAtOrAbove, hEmpty] at hPos
            have hEq : e.1 = b := Nat.le_antisymm (hBelow e he) hLe
            refine ⟨List.mem_map.mpr ⟨e, he, hEq⟩, ?_⟩
            rwa [Nat.add_assoc]
          · rw [hTail b hb] at hbPass
            exact ⟨hb, hbPass⟩

/-- `get_highest_super_majority_root` with the exact threshold, when the roots' stake does not
wrap. The sort only reorders the roots, which the specification does not see. -/
theorem getHighestSuperMajorityRoot_eq (rootedStake : List (Nat × Nat)) (totalStake : Nat)
    (hFits : (rootedStake.map Prod.snd).sum < 2 ^ 128) :
    getHighestSuperMajorityRoot voteThresholdExact rootedStake totalStake =
      superMajorityRoot rootedStake totalStake := by
  have hPerm := List.mergeSort_perm rootedStake fun a b => b.1 ≤ a.1
  have hSorted : (rootedStake.mergeSort fun a b => b.1 ≤ a.1).Pairwise
      (fun a b => b.1 ≤ a.1) := by
    have h : (rootedStake.mergeSort fun a b => b.1 ≤ a.1).Pairwise
        (fun a b => decide (b.1 ≤ a.1) = true) :=
      List.pairwise_mergeSort
        (fun a b c hab hbc => by simp only [decide_eq_true_eq] at hab hbc ⊢; omega)
        (fun a b => by simpa using Nat.le_total b.1 a.1) rootedStake
    simpa using h
  have hStake : ∀ r, stakeAtOrAbove (rootedStake.mergeSort fun a b => b.1 ≤ a.1) r =
      stakeAtOrAbove rootedStake r := fun r =>
    ((hPerm.filter _).map Prod.snd).sum_eq
  rw [getHighestSuperMajorityRoot, superMajorityWalk_eq totalStake _ 0 hSorted
    (by rw [Nat.zero_add, (hPerm.map Prod.snd).sum_eq]; exact hFits), superMajorityRoot]
  congr 1
  apply Lib.List.max?_eq_of_mem_iff
  intro b
  simp only [List.mem_filter, Nat.zero_add, hStake, (hPerm.map Prod.fst).mem_iff]

/-! ### Reading the entries -/

namespace BlockCommitment

theorem getD_addAt (bc : BlockCommitment) (i stake : Nat) {j : Nat}
    (hj : j ≤ maxLockoutHistory) :
    (bc.addAt i stake).commitment.getD j 0 =
      if i = j then wrappingAdd 128 (bc.commitment.getD j 0) stake
      else bc.commitment.getD j 0 := by
  have hLen : j < bc.commitment.length := by rw [bc.length_eq]; omega
  simp [addAt, List.getD_eq_getElem?_getD, List.getElem_modify, hLen]

/-- Entry `j` of a commitment after a run of additions: its old value plus the stakes added
at `j`, wrapping. -/
theorem getD_foldl_addAt {j : Nat} (hj : j ≤ maxLockoutHistory) :
    ∀ (l : List (Nat × Nat)) (bc : BlockCommitment), bc.commitment.getD j 0 < 2 ^ 128 →
      (l.foldl (fun bc e => bc.addAt e.1 e.2) bc).commitment.getD j 0 =
        wrappingAdd 128 (bc.commitment.getD j 0) (((l.filter (·.1 == j)).map Prod.snd).sum)
  | [], bc, hLt => by
      simp only [List.filter_nil, List.map_nil, List.sum_nil, wrappingAdd, Nat.add_zero]
      exact (Nat.mod_eq_of_lt hLt).symm
  | (i, stake) :: rest, bc, hLt => by
      have hNext : (bc.addAt i stake).commitment.getD j 0 < 2 ^ 128 := by
        rw [getD_addAt bc i stake hj]
        split_ifs
        · exact wrappingAdd_lt 128 _ _
        · exact hLt
      rw [List.foldl_cons, getD_foldl_addAt hj rest _ hNext, getD_addAt bc i stake hj]
      by_cases hi : i = j
      · simp only [hi, if_true, List.filter_cons, beq_self_eq_true, List.map_cons,
          List.sum_cons, wrappingAdd, Nat.mod_add_mod, Nat.add_assoc]
      · simp [hi]

theorem default_getD {j : Nat} (hj : j ≤ maxLockoutHistory) :
    BlockCommitment.default.commitment.getD j 0 = 0 := by
  simp [BlockCommitment.default, List.getD_eq_getElem?_getD, Nat.lt_succ_of_le hj]

end BlockCommitment

/-- The commitment of an ancestor, when credits are applied to an empty map: the additions of
its own credits, in order, to the default. -/
theorem getD_applyCredits (cs : List (Nat × Nat × Nat)) (a : Nat) :
    ((applyCredits .empty cs).get? a).getD .default =
      ((cs.filter (·.1 == a)).map Prod.snd).foldl (fun bc e => bc.addAt e.1 e.2) .default := by
  have h := SortedMap.get?_foldl_alter (fun (bc : BlockCommitment) (e : Nat × Nat) =>
    bc.addAt e.1 e.2) .default cs .empty a
  rw [applyCredits]
  simp only [updateCommitment]
  rw [h, List.foldl_map]
  split_ifs with hMem
  · simp
  · have hNil : cs.filter (·.1 == a) = [] := List.filter_eq_nil_iff.mpr fun c hc => by
      simp only [beq_iff_eq]
      rintro rfl
      exact hMem (List.mem_map_of_mem hc)
    simp [hNil]

/-- Entry `j` of an ancestor's commitment is the wrapped sum of the stakes credited there. -/
theorem applyCredits_entry (cs : List (Nat × Nat × Nat)) (a : Nat) {j : Nat}
    (hj : j ≤ maxLockoutHistory) :
    (((applyCredits .empty cs).get? a).getD .default).commitment.getD j 0 =
      ((cs.filter fun c => c.1 == a && c.2.1 == j).map (·.2.2)).sum % 2 ^ 128 := by
  rw [getD_applyCredits, BlockCommitment.getD_foldl_addAt hj _ _
      (by rw [BlockCommitment.default_getD hj]; exact Nat.two_pow_pos 128),
    BlockCommitment.default_getD hj, wrappingAdd, Nat.zero_add, List.filter_map, List.map_map,
    List.filter_filter]
  congr 3
  exact List.filter_congr fun c _ => Bool.and_comm _ _

theorem fst_mem_of_mem_credits {voteState : VoteState} {ancestors : List Nat} {lamports : Nat}
    {c : Nat × Nat × Nat} (h : c ∈ credits voteState ancestors lamports) : c.1 ∈ ancestors := by
  obtain ⟨a, ha, hc⟩ := List.mem_filterMap.mp h
  obtain ⟨j, -, rfl⟩ := Option.map_eq_some_iff.mp hc
  exact ha

theorem credits_cons (voteState : VoteState) (a : Nat) (ancestors : List Nat) (lamports : Nat) :
    credits voteState (a :: ancestors) lamports =
      ((creditIndex voteState a).map fun j => (a, j, lamports)).toList ++
        credits voteState ancestors lamports := by
  cases h : creditIndex voteState a <;> simp [credits, h]

/-- An account credits each ancestor once at most, at the entry `creditIndex` picks. -/
theorem filter_credits (voteState : VoteState) (lamports : Nat) {a j : Nat} :
    ∀ {ancestors : List Nat}, ancestors.Nodup → a ∈ ancestors →
      (credits voteState ancestors lamports).filter (fun c => c.1 == a && c.2.1 == j) =
        if creditIndex voteState a = some j then [(a, j, lamports)] else []
  | [], _, ha => absurd ha List.not_mem_nil
  | a' :: rest, hNodup, ha => by
      obtain ⟨hNotMem, hRest⟩ := List.nodup_cons.mp hNodup
      rw [credits_cons, List.filter_append]
      by_cases hEq : a' = a
      · subst hEq
        -- the tail credits only other ancestors
        have hTail : (credits voteState rest lamports).filter
            (fun c => c.1 == a' && c.2.1 == j) = [] :=
          List.filter_eq_nil_iff.mpr fun c hc => by
            have hKey : c.1 ≠ a' := fun h => hNotMem (h ▸ fst_mem_of_mem_credits hc)
            simp [hKey]
        rw [hTail, List.append_nil]
        cases creditIndex voteState a' with
        | none => simp
        | some j' => by_cases hj : j' = j <;> simp [hj]
      · have hMem : a ∈ rest := (List.mem_cons.mp ha).resolve_left (Ne.symm hEq)
        have hHead : ((creditIndex voteState a').map fun j => (a', j, lamports)).toList.filter
            (fun c => c.1 == a && c.2.1 == j) = [] := by
          cases creditIndex voteState a' <;> simp [hEq]
        rw [hHead, List.nil_append, filter_credits voteState lamports hRest hMem]

/-- Over all accounts, the stake credited at entry `j` of an ancestor is the stake of the
accounts whose `creditIndex` there is `j`. -/
theorem sum_credits {ancestors : List Nat} (hNodup : ancestors.Nodup) {a : Nat}
    (ha : a ∈ ancestors) (j : Nat) :
    ∀ accounts : List (Pubkey × Nat × VoteState),
      (((accounts.flatMap fun acc => credits acc.2.2 ancestors acc.2.1).filter
          fun c => c.1 == a && c.2.1 == j).map (·.2.2)).sum =
        ((accounts.filter fun acc => creditIndex acc.2.2 a == some j).map (·.2.1)).sum
  | [] => rfl
  | acc :: rest => by
      rw [List.flatMap_cons, List.filter_append, List.map_append, List.sum_append,
        filter_credits acc.2.2 acc.2.1 hNodup ha, sum_credits hNodup ha j rest, List.filter_cons]
      by_cases h : creditIndex acc.2.2 a = some j <;> simp [h]

/-! ### The commitment of a bank -/

/-- The stake of the accounts whose root is at or above `a`. -/
def rootedStakeAt (accounts : List (Pubkey × Nat × VoteState)) (a : Nat) : Nat :=
  ((accounts.filter fun acc => acc.2.2.rootSlot.any (a ≤ ·)).map (·.2.1)).sum

/-- The stake of the accounts whose root is absent or below `a` and whose oldest vote at or
above `a` has confirmation count `c`. -/
def confirmationStakeAt (accounts : List (Pubkey × Nat × VoteState)) (a c : Nat) : Nat :=
  ((accounts.filter fun acc => !acc.2.2.rootSlot.any (a ≤ ·) &&
    (acc.2.2.votes.find? fun v => a ≤ v.slot).map (·.confirmationCount) == some c).map
      (·.2.1)).sum

section Entries

variable {voteState : VoteState} (a : Nat)

/-- With counts at most `31`, only a root at or above the ancestor reaches the rooted entry. -/
theorem creditIndex_eq_rooted_iff
    (hCounts : ∀ v ∈ voteState.votes, v.confirmationCount ≤ maxLockoutHistory) :
    creditIndex voteState a = some maxLockoutHistory ↔ voteState.rootSlot.any (a ≤ ·) := by
  by_cases hRooted : voteState.rootSlot.any (a ≤ ·)
  · simp [creditIndex, hRooted]
  · simp only [creditIndex, hRooted, if_false, Bool.false_eq_true, iff_false]
    intro h
    obtain ⟨v, hv, hEq⟩ := Option.map_eq_some_iff.mp h
    have := hCounts v (List.mem_of_find?_eq_some hv)
    simp only [maxLockoutHistory] at hEq this
    omega

/-- With positive counts, entry `c - 1` is reached exactly by the accounts without a root at or
above the ancestor whose oldest vote at or above it has count `c`. -/
theorem creditIndex_eq_confirmation_iff
    (hCounts : ∀ v ∈ voteState.votes, 0 < v.confirmationCount) {c : Nat} (hc : 0 < c)
    (hcLe : c ≤ maxLockoutHistory) :
    creditIndex voteState a = some (c - 1) ↔ (!voteState.rootSlot.any (a ≤ ·) &&
      (voteState.votes.find? fun v => a ≤ v.slot).map (·.confirmationCount) == some c) = true := by
  by_cases hRooted : voteState.rootSlot.any (a ≤ ·)
  · simp only [creditIndex, hRooted, if_true, Option.some.injEq, Bool.not_true,
      Bool.false_and, Bool.false_eq_true, iff_false]
    simp only [maxLockoutHistory] at hcLe ⊢
    omega
  · simp only [creditIndex, hRooted, if_false, Bool.false_eq_true, Bool.not_false,
      Bool.true_and, beq_iff_eq]
    cases hFind : voteState.votes.find? (fun v => a ≤ v.slot) with
    | none => simp
    | some v =>
      have := hCounts v (List.mem_of_find?_eq_some hFind)
      simp only [Option.map_some, Option.some.injEq]
      omega

end Entries

/-- The roots a bank's accounts push weigh no more than the accounts' stake. -/
theorem sum_rootedStake_le (accounts : List (Pubkey × Nat × VoteState)) :
    ((accounts.flatMap fun acc => acc.2.2.rootSlot.toList.map (·, acc.2.1)).map Prod.snd).sum ≤
      (accounts.map (·.2.1)).sum := by
  induction accounts with
  | nil => simp
  | cons acc rest ih =>
      simp only [List.flatMap_cons, List.map_append, List.sum_append, List.map_cons,
        List.sum_cons]
      have hHead : ((acc.2.2.rootSlot.toList.map (·, acc.2.1)).map Prod.snd).sum ≤ acc.2.1 := by
        cases acc.2.2.rootSlot <;> simp
      omega

/-- Block commitment as the specification has it. For towers that are well formed and below
the bank, and ancestors that ascend to the bank, `aggregate_commitment` does not panic; each
ancestor's rooted and confirmation entries are the stake of the accounts that root it and of
those whose oldest vote at or above it has that count; the roots are those of the accounts, in
order; and the super-majority root is the largest root whose stake at or above it passes two
thirds. The `u128` sums do not wrap while the stakes add up to less than `2 ^ 128`. -/
theorem aggregateCommitment_spec (bankSlot : Nat) (ancestors : List Nat)
    (voteAccounts : VoteAccountsHashMap)
    (hTowers : ∀ acc ∈ countedAccounts voteAccounts, TowerWellFormed acc.2.2 ∧
      (∀ v ∈ acc.2.2.votes, v.slot < bankSlot) ∧ ∀ root ∈ acc.2.2.rootSlot, root < bankSlot)
    (hAncestors : ancestors.IsChain (· < ·)) (hLast : ancestors.getLast? = some bankSlot)
    (hFits : ((countedAccounts voteAccounts).map (·.2.1)).sum < 2 ^ 128) :
    ∃ commitment rootedStake,
      aggregateCommitment ancestors voteAccounts = some (commitment, rootedStake) ∧
      (∀ a ∈ ancestors,
        ((commitment.get? a).getD .default).getRootedStake =
          rootedStakeAt (countedAccounts voteAccounts) a ∧
        ∀ c, 0 < c → c ≤ maxLockoutHistory →
          ((commitment.get? a).getD .default).getConfirmationStake c =
            confirmationStakeAt (countedAccounts voteAccounts) a c) ∧
      rootedStake = (countedAccounts voteAccounts).flatMap
        (fun acc => acc.2.2.rootSlot.toList.map (·, acc.2.1)) ∧
      ∀ totalStake, getHighestSuperMajorityRoot voteThresholdExact rootedStake totalStake =
        superMajorityRoot rootedStake totalStake := by
  have hPairwise : ancestors.Pairwise (· < ·) := List.isChain_iff_pairwise.mp hAncestors
  have hBank : bankSlot ∈ ancestors := List.mem_of_getLast? hLast
  have hFit : ∀ acc ∈ countedAccounts voteAccounts, FitsAncestors ancestors acc.2.2 :=
    fun acc hAcc => by
      obtain ⟨hTower, hVotes, hRoot⟩ := hTowers acc hAcc
      exact ⟨fun v hv => ⟨hTower.stack.confirmation_pos v hv, hTower.stack.confirmation_le v hv⟩,
        bankSlot, hBank, hVotes, hRoot⟩
  have hNonempty : ancestors.isEmpty = false :=
    List.isEmpty_eq_false_iff.mpr (List.ne_nil_of_mem hBank)
  have hRun := foldlM_aggregateStep hPairwise voteAccounts (.empty, []) hFit
  -- no part of the stake wraps
  have hPart : ∀ p : Pubkey × Nat × VoteState → Bool,
      (((countedAccounts voteAccounts).filter p).map (·.2.1)).sum < 2 ^ 128 := fun p =>
    Nat.lt_of_le_of_lt ((List.filter_sublist.map _).sum_le_sum fun _ _ => Nat.zero_le _)
      hFits
  simp only [List.nil_append] at hRun
  refine ⟨applyCredits .empty ((countedAccounts voteAccounts).flatMap fun acc =>
      credits acc.2.2 ancestors acc.2.1), _, ?_, fun a ha => ⟨?_, fun c hc hcLe => ?_⟩, rfl,
    fun t => ?_⟩
  · simp only [aggregateCommitment, hNonempty, Bool.not_false, hAncestors]
    exact hRun
  · -- the rooted entry
    have hCounts : ∀ acc ∈ countedAccounts voteAccounts,
        ∀ v ∈ acc.2.2.votes, v.confirmationCount ≤ maxLockoutHistory :=
      fun acc hAcc v hv => ((hTowers acc hAcc).1.stack.confirmation_le v hv)
    rw [BlockCommitment.getRootedStake, applyCredits_entry _ a le_rfl,
      sum_credits hPairwise.nodup ha, Nat.mod_eq_of_lt, rootedStakeAt]
    · congr 2
      exact List.filter_congr fun acc hAcc => by
        rw [Bool.eq_iff_iff, beq_iff_eq, creditIndex_eq_rooted_iff a (hCounts acc hAcc)]
    · exact hPart _
  · -- the confirmation entries
    have hCounts : ∀ acc ∈ countedAccounts voteAccounts,
        ∀ v ∈ acc.2.2.votes, 0 < v.confirmationCount :=
      fun acc hAcc v hv => ((hTowers acc hAcc).1.stack.confirmation_pos v hv)
    rw [BlockCommitment.getConfirmationStake, applyCredits_entry _ a (by omega),
      sum_credits hPairwise.nodup ha, Nat.mod_eq_of_lt, confirmationStakeAt]
    · congr 2
      exact List.filter_congr fun acc hAcc => by
        rw [Bool.eq_iff_iff, beq_iff_eq, creditIndex_eq_confirmation_iff a (hCounts acc hAcc) hc hcLe]
    · exact hPart _
  · -- the super-majority root
    exact getHighestSuperMajorityRoot_eq _ t (Nat.lt_of_le_of_lt (sum_rootedStake_le _) hFits)

/-- One account with a root at `0` and a vote on slot `1`, at bank `2`: it roots ancestor `0`
and confirms ancestor `1` once. -/
theorem aggregateCommitment_spec_one_account :
    ∃ commitment rootedStake,
      aggregateCommitment [0, 1, 2] [(Pubkey.default, 5, some ⟨[⟨1, 1⟩], some 0, [], ⟨0, 0⟩⟩)] =
          some (commitment, rootedStake) ∧
        ((commitment.get? 0).getD .default).getRootedStake = 5 ∧
        ((commitment.get? 1).getD .default).getConfirmationStake 1 = 5 := by
  obtain ⟨commitment, rootedStake, hCall, hEntries, -, -⟩ := aggregateCommitment_spec 2 [0, 1, 2]
    [(Pubkey.default, 5, some ⟨[⟨1, 1⟩], some 0, [], ⟨0, 0⟩⟩)] (by decide) (by decide) rfl
    (by decide)
  refine ⟨commitment, rootedStake, hCall, ?_, ?_⟩
  · rw [(hEntries 0 (by decide)).1]
    decide
  · rw [(hEntries 1 (by decide)).2 1 (by decide) (by decide)]
    decide

/-- The `u128` additions wrap: two accounts that root ancestor `0` with stakes `2 ^ 128 - 1`
and `2` leave a rooted stake of `1` there. -/
theorem aggregateCommitment_rooted_stake_wraps :
    ∃ commitment rootedStake,
      aggregateCommitment [0, 1] [(Pubkey.default, 2 ^ 128 - 1, some ⟨[], some 0, [], ⟨0, 0⟩⟩),
          (Pubkey.default, 2, some ⟨[], some 0, [], ⟨0, 0⟩⟩)] = some (commitment, rootedStake) ∧
        ((commitment.get? 0).getD .default).getRootedStake = 1 ∧
        rootedStakeAt (countedAccounts [(Pubkey.default, 2 ^ 128 - 1, some ⟨[], some 0, [], ⟨0, 0⟩⟩),
          (Pubkey.default, 2, some ⟨[], some 0, [], ⟨0, 0⟩⟩)]) 0 = 2 ^ 128 + 1 := by
  refine ⟨_, _, rfl, ?_, ?_⟩ <;> decide

end PutValidator.Consensus
