import PutValidator.Lib.Except
import PutValidator.Sdk.Errors
import PutValidator.Sdk.StakeActivation
import PutValidator.Vote.State

/-! The credits a stake has observed (`programs/stake/src/stake_state.rs`). A merge gives the
merged stake the stake-weighted mean of the two credit counts, rounded up
(`stake_weighted_credits_observed`), so that no reward is created by merging; a reward round
pays a stake the credits of its vote account it has not yet observed, epoch by epoch, weighted
by the stake effective in that epoch (`calculate_stake_points_and_credits`). Amounts and
credits are `u128`. The merge works in `U256` with every step checked. The points of one epoch
are a `u128` product, which wraps in a release build; their sum is a `U256` that a history of at
most `MAX_EPOCH_CREDITS_HISTORY` entries cannot fill, and is a `Nat` here. -/
namespace PutValidator

open Lib.Word Lib.Except Vote

/-- The fields of `Stake` that these functions read. -/
structure Stake where
  delegation : Delegation
  creditsObserved : Nat
deriving DecidableEq, Repr

namespace Stake

/-! ### Merging two stakes -/

/-- `stake_weighted_credits_observed`: `⌈(c₁ s₁ + c₂ s₂) / (s₁ + s₂)⌉`, computed in `U256`. -/
def stakeWeightedCreditsObserved (stake : Stake) (absorbedLamports absorbedCreditsObserved : Nat) :
    Option Nat :=
  if stake.creditsObserved = absorbedCreditsObserved then some stake.creditsObserved
  else do
    let totalStake ← checkedAdd 128 stake.delegation.stake absorbedLamports
    let stakeWeightedCredits ← checkedMul 256 stake.creditsObserved stake.delegation.stake
    let absorbedWeightedCredits ← checkedMul 256 absorbedCreditsObserved absorbedLamports
    -- the ceiling, by adding `denominator - 1` to the numerator
    let totalWeightedCredits ← checkedAdd 256 stakeWeightedCredits absorbedWeightedCredits
    let totalWeightedCredits ← checkedAdd 256 totalWeightedCredits totalStake
    let totalWeightedCredits ← checkedSub totalWeightedCredits 1
    tryFrom 128 (← checkedDiv totalWeightedCredits totalStake)

/-- `merge_delegation_stake_and_credits_observed`; the sum of the stakes is `checked_add` of
`instruction.rs`, which fails with `InsufficientFunds`. -/
def mergeDelegationStakeAndCreditsObserved (stake : Stake)
    (absorbedLamports absorbedCreditsObserved : Nat) : Except InstructionError Stake := do
  let creditsObserved ←
    okOr (stake.stakeWeightedCreditsObserved absorbedLamports absorbedCreditsObserved)
      .arithmeticOverflow
  let stake := { stake with creditsObserved }
  let delegationStake ←
    okOr (checkedAdd 128 stake.delegation.stake absorbedLamports) .insufficientFunds
  pure { stake with delegation := { stake.delegation with stake := delegationStake } }

section Merge

variable {c₁ c₂ s₁ s₂ : Nat}

/-- The rounded-up mean of two credit counts lies between them. -/
theorem ceilDiv_mem_credits (hPos : 0 < s₁ + s₂) :
    min c₁ c₂ ≤ (c₁ * s₁ + c₂ * s₂) ⌈/⌉ (s₁ + s₂) ∧
      (c₁ * s₁ + c₂ * s₂) ⌈/⌉ (s₁ + s₂) ≤ max c₁ c₂ := by
  have hLow : min c₁ c₂ * (s₁ + s₂) ≤ c₁ * s₁ + c₂ * s₂ := by
    rw [Nat.mul_add]
    exact Nat.add_le_add (Nat.mul_le_mul_right _ (min_le_left _ _))
      (Nat.mul_le_mul_right _ (min_le_right _ _))
  have hHigh : c₁ * s₁ + c₂ * s₂ ≤ (s₁ + s₂) * max c₁ c₂ := by
    rw [Nat.add_mul, Nat.mul_comm s₁, Nat.mul_comm s₂]
    exact Nat.add_le_add (Nat.mul_le_mul_right _ (le_max_left _ _))
      (Nat.mul_le_mul_right _ (le_max_right _ _))
  refine ⟨?_, (ceilDiv_le_iff_le_mul hPos).mpr hHigh⟩
  rw [Nat.ceilDiv_eq_add_pred_div, Nat.le_div_iff_mul_le hPos]
  omega

/-- The merge keeps every later reward: for any later credit count `C`, what the merged stake
earns, `(C - c) (s₁ + s₂)`, is what the two would have earned, less the rounding, which is
under `s₁ + s₂`. -/
theorem ceilDiv_rewards {C : Nat} (hPos : 0 < s₁ + s₂) (hC : max c₁ c₂ ≤ C) :
    (C - (c₁ * s₁ + c₂ * s₂) ⌈/⌉ (s₁ + s₂)) * (s₁ + s₂) ≤ (C - c₁) * s₁ + (C - c₂) * s₂ ∧
      (C - c₁) * s₁ + (C - c₂) * s₂ <
        (C - (c₁ * s₁ + c₂ * s₂) ⌈/⌉ (s₁ + s₂)) * (s₁ + s₂) + (s₁ + s₂) := by
  set c := (c₁ * s₁ + c₂ * s₂) ⌈/⌉ (s₁ + s₂)
  -- `c` is the ceiling: `c (s₁ + s₂)` is at least the weighted sum, by less than `s₁ + s₂`
  have hAbove : c₁ * s₁ + c₂ * s₂ ≤ c * (s₁ + s₂) := by
    rw [Nat.mul_comm c]
    exact le_smul_ceilDiv hPos
  have hBelow : c * (s₁ + s₂) ≤ c₁ * s₁ + c₂ * s₂ + (s₁ + s₂) - 1 :=
    (Nat.le_div_iff_mul_le hPos).mp (Nat.le_refl _)
  have hcC : c ≤ C := Nat.le_trans (ceilDiv_mem_credits hPos).2 hC
  have hC₁ : c₁ * s₁ ≤ C * s₁ := Nat.mul_le_mul_right _ (Nat.le_trans (le_max_left _ _) hC)
  have hC₂ : c₂ * s₂ ≤ C * s₂ := Nat.mul_le_mul_right _ (Nat.le_trans (le_max_right _ _) hC)
  have hCc : c * (s₁ + s₂) ≤ C * (s₁ + s₂) := Nat.mul_le_mul_right _ hcC
  -- with the products as atoms both sides are linear
  rw [Nat.sub_mul, Nat.sub_mul, Nat.sub_mul, Nat.mul_add C] at *
  constructor <;> omega

/-- Every intermediate of `stake_weighted_credits_observed` fits its `U256`: the weighted sum
with the rounding term is at most `(2^128 - 1)^2 + 2^128 - 1`. -/
theorem weightedSum_add_le (hc₁ : c₁ ≤ maxValue 128) (hc₂ : c₂ ≤ maxValue 128)
    (hTotal : s₁ + s₂ ≤ maxValue 128) :
    c₁ * s₁ + c₂ * s₂ + (s₁ + s₂) ≤ maxValue 256 := by
  have hSum : c₁ * s₁ + c₂ * s₂ ≤ maxValue 128 * (s₁ + s₂) := by
    rw [Nat.mul_add]
    exact Nat.add_le_add (Nat.mul_le_mul_right _ hc₁) (Nat.mul_le_mul_right _ hc₂)
  have hSq : maxValue 128 * (s₁ + s₂) ≤ maxValue 128 * maxValue 128 :=
    Nat.mul_le_mul_left _ hTotal
  have hMax : maxValue 128 * maxValue 128 + maxValue 128 ≤ maxValue 256 := by
    unfold maxValue
    decide
  omega

end Merge

/-- A merge of a stake of `s₁` lamports that observed `c₁` credits with `s₂` lamports that
observed `c₂`, at most `u128::MAX` lamports in all: the credits are the rounded-up weighted
mean, never `None`, between the two counts, and keep every later reward up to the rounding. -/
theorem stakeWeightedCreditsObserved_ceil_mean (d : Delegation) (c₁ s₂ c₂ : Nat)
    (hc₁ : c₁ ≤ maxValue 128) (hc₂ : c₂ ≤ maxValue 128) (hPos : 0 < d.stake + s₂)
    (hTotal : d.stake + s₂ ≤ maxValue 128) :
    (⟨d, c₁⟩ : Stake).stakeWeightedCreditsObserved s₂ c₂ =
        some ((c₁ * d.stake + c₂ * s₂) ⌈/⌉ (d.stake + s₂)) ∧
      min c₁ c₂ ≤ (c₁ * d.stake + c₂ * s₂) ⌈/⌉ (d.stake + s₂) ∧
      (c₁ * d.stake + c₂ * s₂) ⌈/⌉ (d.stake + s₂) ≤ max c₁ c₂ ∧
      ∀ C, max c₁ c₂ ≤ C →
        (C - (c₁ * d.stake + c₂ * s₂) ⌈/⌉ (d.stake + s₂)) * (d.stake + s₂) ≤
            (C - c₁) * d.stake + (C - c₂) * s₂ ∧
          (C - c₁) * d.stake + (C - c₂) * s₂ <
            (C - (c₁ * d.stake + c₂ * s₂) ⌈/⌉ (d.stake + s₂)) * (d.stake + s₂) + (d.stake + s₂) := by
  have hMem : min c₁ c₂ ≤ (c₁ * d.stake + c₂ * s₂) ⌈/⌉ (d.stake + s₂) ∧
      (c₁ * d.stake + c₂ * s₂) ⌈/⌉ (d.stake + s₂) ≤ max c₁ c₂ :=
    ceilDiv_mem_credits hPos
  refine ⟨?_, hMem.1, hMem.2, fun C hC => ceilDiv_rewards hPos hC⟩
  unfold stakeWeightedCreditsObserved
  split
  · -- equal counts: the mean of `c` with itself is `c`
    rename_i hEq
    change c₁ = c₂ at hEq
    subst hEq
    rw [min_self, max_self] at hMem
    rw [Nat.le_antisymm hMem.2 hMem.1]
  · -- every checked step succeeds: the sums fit `U256` and the quotient fits `u128`
    have hFits : c₁ * d.stake + c₂ * s₂ + (d.stake + s₂) ≤ maxValue 256 :=
      weightedSum_add_le hc₁ hc₂ hTotal
    have hSum : c₁ * d.stake + c₂ * s₂ ≤ maxValue 256 := by omega
    have hMul₁ : c₁ * d.stake ≤ maxValue 256 := by omega
    have hMul₂ : c₂ * s₂ ≤ maxValue 256 := by omega
    have hOne : 1 ≤ c₁ * d.stake + c₂ * s₂ + (d.stake + s₂) := by omega
    have hQuot : (c₁ * d.stake + c₂ * s₂ + (d.stake + s₂) - 1) / (d.stake + s₂) ≤ maxValue 128 :=
      Nat.le_trans hMem.2 (max_le hc₁ hc₂)
    simp only [checkedAdd, checkedMul, checkedSub, checkedDiv, tryFrom, if_pos hTotal,
      if_pos hMul₁, if_pos hMul₂, if_pos hSum, if_pos hFits, if_pos hOne,
      if_neg (Nat.ne_of_gt hPos), if_pos hQuot, Option.bind_eq_bind, Option.bind_some]
    rfl

/-- Three lamports that observed 10 credits absorb one that observed 20: the mean 12.5 is
rounded up to 13. -/
theorem stakeWeightedCreditsObserved_ceil_mean_rounds_up :
    (10 ≤ maxValue 128 ∧ 20 ≤ maxValue 128 ∧ 0 < 3 + 1 ∧ 3 + 1 ≤ maxValue 128) ∧
      (⟨⟨3, 0, maxValue 64⟩, 10⟩ : Stake).stakeWeightedCreditsObserved 1 20 =
        some ((10 * 3 + 20 * 1) ⌈/⌉ (3 + 1)) :=
  ⟨⟨by decide, by decide, by decide, by decide⟩,
    (stakeWeightedCreditsObserved_ceil_mean ⟨3, 0, maxValue 64⟩ 10 1 20 (by decide)
      (by decide) (by decide) (by decide)).1⟩

example : (⟨⟨3, 0, maxValue 64⟩, 10⟩ : Stake).stakeWeightedCreditsObserved 1 20 = some 13 := by
  decide

/-- A merge that fits ends with the summed stake and the rounded-up mean of the credits. -/
theorem mergeDelegationStakeAndCreditsObserved_eq_ok {stake : Stake}
    {absorbedLamports absorbedCreditsObserved c : Nat}
    (hCredits : stake.stakeWeightedCreditsObserved absorbedLamports absorbedCreditsObserved = some c)
    (hTotal : stake.delegation.stake + absorbedLamports ≤ maxValue 128) :
    stake.mergeDelegationStakeAndCreditsObserved absorbedLamports absorbedCreditsObserved =
      .ok ⟨{ stake.delegation with stake := stake.delegation.stake + absorbedLamports }, c⟩ := by
  simp only [mergeDelegationStakeAndCreditsObserved, hCredits, okOr_some, checkedAdd,
    if_pos hTotal]
  rfl

end Stake

/-! ### The credit history of a vote account -/

/-- `VoteState::credits`: the credits of the newest entry, 0 before any. -/
def Vote.VoteState.credits (s : VoteState) : Nat :=
  match s.epochCredits.getLast? with
  | none => 0
  | some (_, credits, _) => credits

/-- The credit histories `increment_credits` builds: each entry's credits are a `u128` at least
its previous credits, and each entry starts at or above where the one before it ended. -/
structure CreditsChained (l : List (Nat × Nat × Nat)) : Prop where
  prev_le : ∀ x ∈ l, x.2.2 ≤ x.2.1
  credits_le : ∀ x ∈ l, x.2.1 ≤ maxValue 128
  chain : l.IsChain fun a b => a.2.1 ≤ b.2.2

namespace CreditsChained

theorem nil : CreditsChained [] := ⟨nofun, nofun, .nil⟩

/-- A history with one more entry is chained exactly when the entry is and starts at or above
the end of the last one. -/
theorem append_singleton_iff {l : List (Nat × Nat × Nat)} {x : Nat × Nat × Nat} :
    CreditsChained (l ++ [x]) ↔
      CreditsChained l ∧ x.2.2 ≤ x.2.1 ∧ x.2.1 ≤ maxValue 128 ∧ ∀ y ∈ l.getLast?, y.2.1 ≤ x.2.2 := by
  constructor
  · rintro ⟨hPrev, hMax, hChain⟩
    obtain ⟨hChainL, -, hLink⟩ := List.isChain_append.mp hChain
    exact ⟨⟨fun y hy => hPrev y (List.mem_append_left _ hy),
        fun y hy => hMax y (List.mem_append_left _ hy), hChainL⟩,
      hPrev x (List.mem_append_right _ (List.mem_singleton_self x)),
      hMax x (List.mem_append_right _ (List.mem_singleton_self x)),
      fun y hy => hLink y hy x rfl⟩
  · rintro ⟨h, hx, hxMax, hLink⟩
    refine ⟨fun y hy => ?_, fun y hy => ?_, h.chain.append (List.isChain_singleton x) ?_⟩
    · rcases List.mem_append.mp hy with hy | hy
      · exact h.prev_le y hy
      · rw [List.mem_singleton.mp hy]
        exact hx
    · rcases List.mem_append.mp hy with hy | hy
      · exact h.credits_le y hy
      · rw [List.mem_singleton.mp hy]
        exact hxMax
    · rintro y hy z ⟨⟩
      exact hLink y hy

theorem tail {l : List (Nat × Nat × Nat)} (h : CreditsChained l) : CreditsChained l.tail :=
  ⟨fun x hx => h.prev_le x (List.mem_of_mem_tail hx),
    fun x hx => h.credits_le x (List.mem_of_mem_tail hx), h.chain.tail⟩

/-- Adding credits to the newest entry, saturating at `u128::MAX`, keeps the history chained. -/
theorem modifyLast_saturatingAdd {l : List (Nat × Nat × Nat)} (h : CreditsChained l)
    (credits : Nat) :
    CreditsChained (l.modifyLast fun (e, c, p) => (e, saturatingAdd 128 c credits, p)) := by
  rcases List.eq_nil_or_concat' l with rfl | ⟨init, ⟨e, c, p⟩, rfl⟩
  · exact h
  rw [List.modifyLast_concat]
  obtain ⟨hInit, hx, hxMax, hLink⟩ := append_singleton_iff.mp h
  exact append_singleton_iff.mpr ⟨hInit, Nat.le_trans hx (le_saturatingAdd credits hxMax),
    saturatingAdd_le_maxValue 128 c credits, hLink⟩

/-- The credits only grow along a chained history: the newest entry has the most. -/
theorem le_credits {s : VoteState} (h : CreditsChained s.epochCredits) {x : Nat × Nat × Nat}
    (hx : x ∈ s.epochCredits) : x.2.1 ≤ s.credits := by
  rcases List.eq_nil_or_concat' s.epochCredits with hNil | ⟨init, last, hSplit⟩
  · rw [hNil] at hx
    cases hx
  -- each entry ends at or below where the next starts, and that is at or below where it ends
  have : Trans (fun a b : Nat × Nat × Nat => a.2.1 ≤ b.2.1)
      (fun a b : Nat × Nat × Nat => a.2.1 ≤ b.2.1)
      (fun a b : Nat × Nat × Nat => a.2.1 ≤ b.2.1) := ⟨Nat.le_trans⟩
  have hGrow : (s.epochCredits).Pairwise fun a b => a.2.1 ≤ b.2.1 :=
    List.isChain_iff_pairwise.mp
      (h.chain.imp_of_mem_imp fun (a b : Nat × Nat × Nat) _ hb hab =>
        Nat.le_trans hab (h.prev_le b hb))
  have hCredits : s.credits = last.2.1 := by
    simp only [Vote.VoteState.credits, hSplit, List.getLast?_concat]
  rw [hCredits]
  rw [hSplit] at hx hGrow
  rcases List.mem_append.mp hx with hx | hx
  · exact (List.pairwise_append.mp hGrow).2.2 x hx last (List.mem_singleton_self last)
  · rw [List.mem_singleton.mp hx]

end CreditsChained

/-- `increment_credits` keeps the credit history chained. -/
theorem creditsChained_incrementCredits {s : VoteState} (h : CreditsChained s.epochCredits)
    (epoch credits : Nat) : CreditsChained (s.incrementCredits epoch credits).epochCredits := by
  unfold VoteState.incrementCredits
  apply CreditsChained.modifyLast_saturatingAdd
  rcases hLast : s.epochCredits.getLast? with _ | ⟨lastEpoch, lastCredits, prevCredits⟩
  · exact CreditsChained.append_singleton_iff.mpr
      ⟨.nil, Nat.le_refl 0, Nat.zero_le _, nofun⟩
  dsimp only
  -- `s.epochCredits` is `init ++ [last]`; the new epoch either opens an entry after it or
  -- moves it
  obtain ⟨init, hSplit⟩ : ∃ init, s.epochCredits = init ++ [(lastEpoch, lastCredits, prevCredits)] :=
    ⟨_, (List.dropLast_append_getLast? _ hLast).symm⟩
  obtain ⟨hInit, hx, hxMax, hLink⟩ := CreditsChained.append_singleton_iff.mp (hSplit ▸ h)
  have hMoved : CreditsChained
      (if lastCredits ≠ prevCredits then s.epochCredits ++ [(epoch, lastCredits, lastCredits)]
        else s.epochCredits.dropLast ++ [(epoch, lastCredits, prevCredits)]) := by
    split
    · exact CreditsChained.append_singleton_iff.mpr ⟨h, Nat.le_refl _, hxMax,
        fun y hy => by rw [hLast] at hy; cases hy; exact Nat.le_refl _⟩
    · rw [hSplit, List.dropLast_concat]
      exact CreditsChained.append_singleton_iff.mpr ⟨hInit, hx, hxMax, hLink⟩
  split
  · exact h
  · generalize (if lastCredits ≠ prevCredits then s.epochCredits ++ [(epoch, lastCredits, lastCredits)]
        else s.epochCredits.dropLast ++ [(epoch, lastCredits, prevCredits)]) = moved at hMoved ⊢
    split
    · exact hMoved.tail
    · exact hMoved

/-- Every vote of the one-slot path keeps the credit history chained. -/
theorem creditsChained_processNextVoteSlot {s : VoteState} (h : CreditsChained s.epochCredits)
    (nextVoteSlot epoch : Nat) :
    CreditsChained (s.processNextVoteSlot nextVoteSlot epoch).epochCredits := by
  unfold VoteState.processNextVoteSlot
  split
  · exact h
  · -- only the root-making step, `increment_credits`, writes the history
    dsimp only [VoteState.doubleLockouts]
    split
    · unfold VoteState.rootOldestVote
      split
      · exact creditsChained_incrementCredits h epoch 1
      · exact h
    · exact h

/-- Run lemma: votes on the one-slot path, one after another, keep the history chained; so
does every `process_vote`, which is such a run. -/
theorem creditsChained_foldl_processNextVoteSlot {s : VoteState} (h : CreditsChained s.epochCredits)
    (slots : List Nat) (epoch : Nat) :
    CreditsChained (slots.foldl (fun s slot => s.processNextVoteSlot slot epoch) s).epochCredits := by
  induction slots generalizing s with
  | nil => exact h
  | cons slot rest ih => exact ih (creditsChained_processNextVoteSlot h slot epoch)

/-! ### The points of a reward round -/

/-- `CalculatedStakePoints`. -/
structure CalculatedStakePoints where
  points : Nat
  newCreditsObserved : Nat
  forceCreditsUpdateWithSkippedReward : Bool
deriving DecidableEq, Repr

namespace Stake

section Points

variable (stake : Stake) (stakeHistory : Option (Nat → Option StakeHistoryEntry))
  (newRateActivationEpoch : Option Nat)

/-- One entry of the points loop of `calculate_stake_points_and_credits`; the accumulator is the
points so far and `new_credits_observed`, the most credits seen. -/
def pointsStep (acc : Nat × Nat) (entry : Nat × Nat × Nat) : Nat × Nat :=
  let (points, newCreditsObserved) := acc
  let (epoch, finalEpochCredits, initialEpochCredits) := entry
  let creditsInStake := stake.creditsObserved
  let stakeAmount := stake.delegation.stakeAtEpoch epoch stakeHistory newRateActivationEpoch
  let earnedCredits :=
    if creditsInStake < initialEpochCredits then
      -- the staker observed the entire epoch
      wrappingSub 128 finalEpochCredits initialEpochCredits
    else if creditsInStake < finalEpochCredits then
      -- the staker registered sometime during the epoch, partial credit
      wrappingSub 128 finalEpochCredits newCreditsObserved
    else 0
  let newCreditsObserved := max newCreditsObserved finalEpochCredits
  (points + stakeAmount * earnedCredits % 2 ^ 128, newCreditsObserved)

/-- `calculate_stake_points_and_credits`; the tracer only reports, and is left out. -/
def calculateStakePointsAndCredits (newVoteState : VoteState) (creditsAutoRewind : Bool) :
    CalculatedStakePoints :=
  let creditsInStake := stake.creditsObserved
  let creditsInVote := newVoteState.credits
  -- if there is no newer credits since observed, return no point
  if creditsInVote ≤ creditsInStake then
    if creditsAutoRewind = true ∧ creditsInVote < creditsInStake then ⟨0, creditsInVote, true⟩
    else ⟨0, creditsInStake, false⟩
  else
    let (points, newCreditsObserved) :=
      newVoteState.epochCredits.foldl (pointsStep stake stakeHistory newRateActivationEpoch)
        (0, creditsInStake)
    ⟨points, newCreditsObserved, false⟩

/-- The credits of an entry `(epoch, credits, prev_credits)` a stake that observed
`creditsObserved` has not seen: all of the epoch's, the part above what it observed, or none. -/
def earnedCredits (creditsObserved : Nat) (entry : Nat × Nat × Nat) : Nat :=
  if creditsObserved < entry.2.2 then entry.2.1 - entry.2.2
  else if creditsObserved < entry.2.1 then entry.2.1 - creditsObserved
  else 0

/-- What a credit history is worth to the stake, unbounded: the stake effective in each entry's
epoch times the entry's credits it has not seen. -/
def stakePoints (epochCredits : List (Nat × Nat × Nat)) : Nat :=
  (epochCredits.map fun entry =>
    stake.delegation.stakeAtEpoch entry.1 stakeHistory newRateActivationEpoch *
      earnedCredits stake.creditsObserved entry).sum

variable {stake stakeHistory newRateActivationEpoch}

/-- One entry of the loop adds the entry's points, when the product fits `u128`, the entry does
not lose credits, and the running maximum is still the stake's count where the entry starts
below it. -/
theorem pointsStep_eq {points newCreditsObserved : Nat} {entry : Nat × Nat × Nat}
    (hPrev : entry.2.2 ≤ entry.2.1) (hMax : entry.2.1 ≤ maxValue 128)
    (hObserved : entry.2.2 ≤ stake.creditsObserved → newCreditsObserved = stake.creditsObserved)
    (hFits : stake.delegation.stakeAtEpoch entry.1 stakeHistory newRateActivationEpoch *
      earnedCredits stake.creditsObserved entry < 2 ^ 128) :
    pointsStep stake stakeHistory newRateActivationEpoch (points, newCreditsObserved) entry =
      (points + stake.delegation.stakeAtEpoch entry.1 stakeHistory newRateActivationEpoch *
          earnedCredits stake.creditsObserved entry,
        max newCreditsObserved entry.2.1) := by
  obtain ⟨epoch, final, initial⟩ := entry
  dsimp only at hPrev hMax hObserved
  have hLt : final < 2 ^ 128 := by
    unfold maxValue at hMax
    omega
  -- neither `u128` subtraction of the source wraps
  have hEarned : (if stake.creditsObserved < initial then wrappingSub 128 final initial
      else if stake.creditsObserved < final then wrappingSub 128 final newCreditsObserved
      else 0) = earnedCredits stake.creditsObserved (epoch, final, initial) := by
    unfold earnedCredits
    split_ifs with hAll hPart
    · exact wrappingSub_of_le hPrev hLt
    · rw [hObserved (Nat.le_of_not_lt hAll)]
      exact wrappingSub_of_le (Nat.le_of_lt hPart) hLt
    · rfl
  simp only [pointsStep, hEarned, Nat.mod_eq_of_lt hFits]

/-- The loop over a chained history sums the entries' points, when every product fits. -/
theorem foldl_pointsStep {l : List (Nat × Nat × Nat)} (hChain : CreditsChained l)
    (hFits : ∀ x ∈ l, stake.delegation.stakeAtEpoch x.1 stakeHistory newRateActivationEpoch *
      earnedCredits stake.creditsObserved x < 2 ^ 128)
    {points newCreditsObserved : Nat}
    (hObserved : ∀ x ∈ l.head?, x.2.2 ≤ stake.creditsObserved →
      newCreditsObserved = stake.creditsObserved) :
    (l.foldl (pointsStep stake stakeHistory newRateActivationEpoch)
        (points, newCreditsObserved)).1 =
      points + stakePoints stake stakeHistory newRateActivationEpoch l := by
  induction l generalizing points newCreditsObserved with
  | nil => rfl
  | cons x l ih =>
      rw [List.foldl_cons, pointsStep_eq (hChain.prev_le x List.mem_cons_self)
        (hChain.credits_le x List.mem_cons_self) (hObserved x rfl) (hFits x List.mem_cons_self)]
      rw [ih hChain.tail (fun y hy => hFits y (List.mem_cons_of_mem x hy))]
      · simp only [stakePoints, List.map_cons, List.sum_cons, Nat.add_assoc]
      · -- the next entry starts at or above where `x` ended, so the maximum is still the
        -- stake's count where the next entry starts below it
        intro y hy hyObserved
        have hLink : x.2.1 ≤ y.2.2 := (List.isChain_cons.mp hChain.chain).1 y hy
        have hx : x.2.2 ≤ stake.creditsObserved :=
          Nat.le_trans (hChain.prev_le x List.mem_cons_self) (Nat.le_trans hLink hyObserved)
        rw [hObserved x rfl hx]
        exact max_eq_left (Nat.le_trans hLink hyObserved)

/-- A history whose newest credits the stake has already observed is worth nothing to it. -/
theorem stakePoints_eq_zero {newVoteState : VoteState}
    (hChain : CreditsChained newVoteState.epochCredits)
    (hObserved : newVoteState.credits ≤ stake.creditsObserved) :
    stakePoints stake stakeHistory newRateActivationEpoch newVoteState.epochCredits = 0 := by
  unfold stakePoints
  apply List.sum_eq_zero
  intro n hn
  obtain ⟨x, hx, rfl⟩ := List.mem_map.mp hn
  have hCredits := hChain.le_credits hx
  have hPrev := hChain.prev_le x hx
  rw [earnedCredits, if_neg (by omega), if_neg (by omega), Nat.mul_zero]

end Points

/-- On the credit histories `increment_credits` builds, when no entry's product of stake and
credits passes `u128::MAX`, the points of a reward round are the exact sum over the entries of
the stake effective in the entry's epoch times the entry's credits the stake has not seen. -/
theorem calculateStakePointsAndCredits_points_eq (stake : Stake) (newVoteState : VoteState)
    (stakeHistory : Option (Nat → Option StakeHistoryEntry)) (creditsAutoRewind : Bool)
    (newRateActivationEpoch : Option Nat) (hChain : CreditsChained newVoteState.epochCredits)
    (hFits : ∀ x ∈ newVoteState.epochCredits,
      stake.delegation.stakeAtEpoch x.1 stakeHistory newRateActivationEpoch *
        earnedCredits stake.creditsObserved x < 2 ^ 128) :
    (stake.calculateStakePointsAndCredits stakeHistory newRateActivationEpoch newVoteState
        creditsAutoRewind).points =
      stakePoints stake stakeHistory newRateActivationEpoch newVoteState.epochCredits := by
  unfold calculateStakePointsAndCredits
  dsimp only
  split
  · rename_i hObserved
    rw [stakePoints_eq_zero hChain hObserved]
    split <;> rfl
  · have hSum : (newVoteState.epochCredits.foldl
        (pointsStep stake stakeHistory newRateActivationEpoch) (0, stake.creditsObserved)).1 =
        0 + stakePoints stake stakeHistory newRateActivationEpoch newVoteState.epochCredits :=
      foldl_pointsStep hChain hFits fun _ _ _ => rfl
    rcases hFold : newVoteState.epochCredits.foldl
      (pointsStep stake stakeHistory newRateActivationEpoch) (0, stake.creditsObserved) with
      ⟨points, newCreditsObserved⟩
    rw [hFold, Nat.zero_add] at hSum
    exact hSum

/-- Ten lamports that observed 3 credits, against the history `(0, 5, 0), (1, 9, 5)`. -/
theorem calculateStakePointsAndCredits_points_eq_two_epochs :
    CreditsChained [(0, 5, 0), (1, 9, 5)] ∧
      (∀ x ∈ [(0, 5, 0), (1, 9, 5)],
        Delegation.stakeAtEpoch ⟨10, maxValue 64, maxValue 64⟩ x.1 none none *
          earnedCredits 3 x < 2 ^ 128) ∧
      ((⟨⟨10, maxValue 64, maxValue 64⟩, 3⟩ : Stake).calculateStakePointsAndCredits none none
          ⟨[], none, [(0, 5, 0), (1, 9, 5)], ⟨0, 0⟩⟩ false).points =
        stakePoints ⟨⟨10, maxValue 64, maxValue 64⟩, 3⟩ none none [(0, 5, 0), (1, 9, 5)] := by
  -- the history 36 consecutive votes in epoch 0 and 4 in epoch 1 leave: the stack fills at 31
  -- votes, and each later vote roots one slot for one credit
  have hChain : CreditsChained [(0, 5, 0), (1, 9, 5)] := by
    have hRun := creditsChained_foldl_processNextVoteSlot
      (creditsChained_foldl_processNextVoteSlot (s := VoteState.default) CreditsChained.nil
        (List.range 36) 0) (List.range' 36 4) 1
    have hHistory : ((List.range' 36 4).foldl (fun s slot => s.processNextVoteSlot slot 1)
        ((List.range 36).foldl (fun s slot => s.processNextVoteSlot slot 0)
          VoteState.default)).epochCredits = [(0, 5, 0), (1, 9, 5)] := by decide +kernel
    exact hHistory ▸ hRun
  have hFits : ∀ x ∈ [(0, 5, 0), (1, 9, 5)],
      Delegation.stakeAtEpoch ⟨10, maxValue 64, maxValue 64⟩ x.1 none none *
        earnedCredits 3 x < 2 ^ 128 := by decide
  exact ⟨hChain, hFits, calculateStakePointsAndCredits_points_eq ⟨⟨10, maxValue 64, maxValue 64⟩, 3⟩
    ⟨[], none, [(0, 5, 0), (1, 9, 5)], ⟨0, 0⟩⟩ none false none hChain hFits⟩

example : ((⟨⟨10, maxValue 64, maxValue 64⟩, 3⟩ : Stake).calculateStakePointsAndCredits none none
    ⟨[], none, [(0, 5, 0), (1, 9, 5)], ⟨0, 0⟩⟩ false).points = 60 := by
  decide

/-- Two histories the exact sum misses. A stake of `2^127` lamports that observed no credit
earns 2: the `u128` product `2^128` wraps to 0. And in a history that does not chain, 10 credits
earned from 5 and then an entry of 3 from 0, the newest entry's 3 credits are below the 4 the
stake observed, so nothing is paid, though the first entry is worth 5 credits a lamport. -/
theorem calculateStakePointsAndCredits_misses_points :
    ((⟨⟨2 ^ 127, maxValue 64, maxValue 64⟩, 0⟩ : Stake).calculateStakePointsAndCredits none none
        ⟨[], none, [(0, 2, 0)], ⟨0, 0⟩⟩ false).points = 0 ∧
      stakePoints ⟨⟨2 ^ 127, maxValue 64, maxValue 64⟩, 0⟩ none none [(0, 2, 0)] = 2 ^ 128 ∧
    ((⟨⟨1, maxValue 64, maxValue 64⟩, 4⟩ : Stake).calculateStakePointsAndCredits none none
        ⟨[], none, [(0, 10, 5), (1, 3, 0)], ⟨0, 0⟩⟩ false).points = 0 ∧
      stakePoints ⟨⟨1, maxValue 64, maxValue 64⟩, 4⟩ none none [(0, 10, 5), (1, 3, 0)] = 5 := by
  decide

end Stake

end PutValidator
