import PutValidator.Lib.SortedMap
import PutValidator.Sdk.Primitives

/-! `LatestValidatorVotesForFrozenBanks` of `core/src/latest_validator_votes_for_frozen_banks.rs`.
For each validator it keeps the greatest slot the validator was seen voting for among frozen
banks, with the hashes of that slot's versions, once for votes seen in replayed blocks and
once for votes seen in gossip; and the replayed votes that fork choice has not taken yet (the
dirty set). The hash maps are kept as ordered maps: nothing here iterates them except
`take_votes_dirty_set`, whose result is a set of votes in any order.

`check_add_vote` asserts that a hash it adds to the dirty set is not there yet. The dirty set
only ever holds hashes that the replay map holds for the same validator (`DirtyWithinReplay`),
and a hash is added only when the replay map lacks it, so the assert never fires on a run from
the default state. -/
namespace PutValidator.Consensus

open Lib

/-- Per validator, a slot and the hashes of the versions of that slot. -/
abbrev FrozenVotes := SortedMap Pubkey (Nat × List Hash)

structure LatestValidatorVotesForFrozenBanks where
  maxGossipFrozenVotes : FrozenVotes
  maxReplayFrozenVotes : FrozenVotes
  forkChoiceDirtySet : FrozenVotes

namespace LatestValidatorVotesForFrozenBanks

protected def default : LatestValidatorVotesForFrozenBanks := ⟨.empty, .empty, .empty⟩

/-- The map a vote is recorded in: replayed or gossiped votes. -/
def voteMap (l : LatestValidatorVotesForFrozenBanks) (isReplayVote : Bool) : FrozenVotes :=
  if isReplayVote then l.maxReplayFrozenVotes else l.maxGossipFrozenVotes

def setVoteMap (l : LatestValidatorVotesForFrozenBanks) (isReplayVote : Bool) (m : FrozenVotes) :
    LatestValidatorVotesForFrozenBanks :=
  if isReplayVote then { l with maxReplayFrozenVotes := m } else { l with maxGossipFrozenVotes := m }

/-- Record `entry` for `votePubkey` in the vote map, and in the dirty set for a replayed vote. -/
def recordNewSlot (l : LatestValidatorVotesForFrozenBanks) (votePubkey : Pubkey)
    (isReplayVote : Bool) (entry : Nat × List Hash) : LatestValidatorVotesForFrozenBanks :=
  let l := l.setVoteMap isReplayVote ((l.voteMap isReplayVote).insert votePubkey entry)
  if isReplayVote then { l with forkChoiceDirtySet := l.forkChoiceDirtySet.insert votePubkey entry }
  else l

/-- `check_add_vote`: whether the vote was added, and the validator's latest frozen voted slot.
`none` when the `assert!` on the dirty set fires. -/
def checkAddVote (l : LatestValidatorVotesForFrozenBanks) (votePubkey : Pubkey) (voteSlot : Nat)
    (frozenHash : Option Hash) (isReplayVote : Bool) :
    Option ((Bool × Option Nat) × LatestValidatorVotesForFrozenBanks) :=
  match frozenHash, (l.voteMap isReplayVote).get? votePubkey with
  -- votes for banks that are not frozen are not recorded
  | none, entry => some ((false, entry.map Prod.fst), l)
  | some frozenHash, none =>
      some ((true, some voteSlot), l.recordNewSlot votePubkey isReplayVote (voteSlot, [frozenHash]))
  | some frozenHash, some (latestFrozenVoteSlot, latestFrozenVoteHashes) =>
      if latestFrozenVoteSlot < voteSlot then
        some ((true, some voteSlot),
          l.recordNewSlot votePubkey isReplayVote (voteSlot, [frozenHash]))
      else if voteSlot = latestFrozenVoteSlot ∧ frozenHash ∉ latestFrozenVoteHashes then
        -- a new version of the latest slot; `entry(..).or_default()` gives a vacant dirty
        -- entry the slot 0
        let dirty : Option FrozenVotes :=
          if isReplayVote then
            let dirtyEntry := (l.forkChoiceDirtySet.get? votePubkey).getD (0, [])
            if frozenHash ∈ dirtyEntry.2 then none
            else some (l.forkChoiceDirtySet.insert votePubkey
              (dirtyEntry.1, dirtyEntry.2 ++ [frozenHash]))
          else some l.forkChoiceDirtySet
        dirty.map fun forkChoiceDirtySet =>
          ((true, some voteSlot),
            ({ l with forkChoiceDirtySet }).setVoteMap isReplayVote
              ((l.voteMap isReplayVote).insert votePubkey
                (latestFrozenVoteSlot, latestFrozenVoteHashes ++ [frozenHash])))
      else some ((false, some latestFrozenVoteSlot), l)

/-- `take_votes_dirty_set`: the dirty votes at or above `root`, one per hash, and an empty
dirty set. -/
def takeVotesDirtySet (l : LatestValidatorVotesForFrozenBanks) (root : Nat) :
    List (Pubkey × Nat × Hash) × LatestValidatorVotesForFrozenBanks :=
  ((l.forkChoiceDirtySet.entries.filter fun e => root ≤ e.2.1).flatMap fun e =>
      e.2.2.map fun hash => (e.1, e.2.1, hash),
    { l with forkChoiceDirtySet := .empty })

@[simp] theorem voteMap_true (l : LatestValidatorVotesForFrozenBanks) :
    l.voteMap true = l.maxReplayFrozenVotes := rfl

@[simp] theorem voteMap_false (l : LatestValidatorVotesForFrozenBanks) :
    l.voteMap false = l.maxGossipFrozenVotes := rfl

@[simp] theorem setVoteMap_true (l : LatestValidatorVotesForFrozenBanks) (m : FrozenVotes) :
    l.setVoteMap true m = { l with maxReplayFrozenVotes := m } := rfl

@[simp] theorem setVoteMap_false (l : LatestValidatorVotesForFrozenBanks) (m : FrozenVotes) :
    l.setVoteMap false m = { l with maxGossipFrozenVotes := m } := rfl

/-! ### The dirty set stays within the replay map -/

/-- Every hash the dirty set holds for a validator, the replay map holds for it too. -/
def DirtyWithinReplay (l : LatestValidatorVotesForFrozenBanks) : Prop :=
  ∀ pk d, l.forkChoiceDirtySet.get? pk = some d →
    ∃ r, l.maxReplayFrozenVotes.get? pk = some r ∧ ∀ h ∈ d.2, h ∈ r.2

theorem dirtyWithinReplay_default : LatestValidatorVotesForFrozenBanks.default.DirtyWithinReplay := by
  intro pk d hd
  simp [LatestValidatorVotesForFrozenBanks.default] at hd

section Preserved

variable {l : LatestValidatorVotesForFrozenBanks}

theorem DirtyWithinReplay.recordNewSlot (h : l.DirtyWithinReplay) (votePubkey : Pubkey)
    (isReplayVote : Bool) (entry : Nat × List Hash) :
    (l.recordNewSlot votePubkey isReplayVote entry).DirtyWithinReplay := by
  intro pk d hd
  cases isReplayVote with
  | false =>
      -- a gossip vote touches neither the replay map nor the dirty set
      exact h pk d hd
  | true =>
      simp only [LatestValidatorVotesForFrozenBanks.recordNewSlot, setVoteMap_true, voteMap_true,
        if_true, SortedMap.get?_insert] at hd ⊢
      by_cases hpk : pk = votePubkey
      · simp only [hpk, if_true, Option.some.injEq] at hd ⊢
        exact ⟨entry, rfl, fun x hx => hd ▸ hx⟩
      · simp only [hpk, if_false] at hd ⊢
        exact h pk d hd

/-- The hash added to a validator's dirty entry is one the replay entry gets as well. -/
theorem DirtyWithinReplay.addVersion (h : l.DirtyWithinReplay) {votePubkey : Pubkey}
    {latest : Nat × List Hash} (hLatest : l.maxReplayFrozenVotes.get? votePubkey = some latest)
    (frozenHash : Hash) :
    ({ l with
        forkChoiceDirtySet := l.forkChoiceDirtySet.insert votePubkey
          (((l.forkChoiceDirtySet.get? votePubkey).getD (0, [])).1,
            ((l.forkChoiceDirtySet.get? votePubkey).getD (0, [])).2 ++ [frozenHash]),
        maxReplayFrozenVotes := l.maxReplayFrozenVotes.insert votePubkey
          (latest.1, latest.2 ++ [frozenHash]) } :
        LatestValidatorVotesForFrozenBanks).DirtyWithinReplay := by
  intro pk d hd
  simp only [SortedMap.get?_insert] at hd ⊢
  by_cases hpk : pk = votePubkey
  · subst hpk
    simp only [if_true, Option.some.injEq] at hd ⊢
    refine ⟨_, rfl, fun x hx => ?_⟩
    rw [← hd, List.mem_append] at hx
    rw [List.mem_append]
    rcases hx with hx | hx
    · -- a hash already dirty is in the replay entry
      cases hDirty : l.forkChoiceDirtySet.get? pk with
      | none => simp [hDirty] at hx
      | some dOld =>
          obtain ⟨r, hr, hSub⟩ := h pk dOld hDirty
          rw [hLatest, Option.some.injEq] at hr
          rw [hDirty, Option.getD_some] at hx
          exact Or.inl (hr ▸ hSub x hx)
    · exact Or.inr hx
  · simp only [hpk, if_false] at hd ⊢
    exact h pk d hd

/-- With the dirty set within the replay map, `check_add_vote` never panics. -/
theorem checkAddVote_isSome (h : l.DirtyWithinReplay) (votePubkey : Pubkey) (voteSlot : Nat)
    (frozenHash : Option Hash) (isReplayVote : Bool) :
    (l.checkAddVote votePubkey voteSlot frozenHash isReplayVote).isSome := by
  unfold checkAddVote
  split
  · rfl
  · rfl
  · rename_i frozenHash latestSlot latestHashes hEntry
    by_cases hNewer : latestSlot < voteSlot
    · simp [hNewer]
    by_cases hVersion : voteSlot = latestSlot ∧ frozenHash ∉ latestHashes
    · rw [if_neg hNewer, if_pos hVersion]
      cases isReplayVote with
      | false => simp
      | true =>
          -- the assert: the new hash is not in the replay entry, so not in the dirty one
          have hNotDirty : frozenHash ∉ ((l.forkChoiceDirtySet.get? votePubkey).getD (0, [])).2 := by
            cases hDirty : l.forkChoiceDirtySet.get? votePubkey with
            | none => simp
            | some d =>
                obtain ⟨r, hr, hSub⟩ := h votePubkey d hDirty
                rw [← voteMap_true, hEntry, Option.some.injEq] at hr
                subst hr
                exact fun hIn => hVersion.2 (hSub _ hIn)
          simp [hNotDirty]
    · simp [hNewer, hVersion]

theorem DirtyWithinReplay.checkAddVote (h : l.DirtyWithinReplay) {votePubkey : Pubkey}
    {voteSlot : Nat} {frozenHash : Option Hash} {isReplayVote : Bool}
    {r : Bool × Option Nat} {l' : LatestValidatorVotesForFrozenBanks}
    (hAdd : l.checkAddVote votePubkey voteSlot frozenHash isReplayVote = some (r, l')) :
    l'.DirtyWithinReplay := by
  unfold LatestValidatorVotesForFrozenBanks.checkAddVote at hAdd
  split at hAdd
  · cases hAdd
    exact h
  · cases hAdd
    exact h.recordNewSlot _ _ _
  · rename_i frozenHash latestSlot latestHashes hEntry
    by_cases hNewer : latestSlot < voteSlot
    · rw [if_pos hNewer, Option.some.injEq, Prod.mk.injEq] at hAdd
      rw [← hAdd.2]
      exact h.recordNewSlot _ _ _
    by_cases hVersion : voteSlot = latestSlot ∧ frozenHash ∉ latestHashes
    · rw [if_neg hNewer, if_pos hVersion] at hAdd
      cases isReplayVote with
      | false =>
          -- a gossip version leaves the replay map and the dirty set alone
          simp only [Bool.false_eq_true, if_false, Option.map_some, Option.some.injEq,
            Prod.mk.injEq] at hAdd
          rw [← hAdd.2]
          exact h
      | true =>
          rw [voteMap_true] at hEntry
          simp only [if_true] at hAdd
          split_ifs at hAdd with hInDirty
          · simp at hAdd
          · simp only [Option.map_some, Option.some.injEq, Prod.mk.injEq, setVoteMap_true,
              voteMap_true] at hAdd
            rw [← hAdd.2]
            exact h.addVersion hEntry frozenHash
    · rw [if_neg hNewer, if_neg hVersion, Option.some.injEq, Prod.mk.injEq] at hAdd
      rw [← hAdd.2]
      exact h

/-- Taking the dirty set empties it. -/
theorem dirtyWithinReplay_takeVotesDirtySet (l : LatestValidatorVotesForFrozenBanks) (root : Nat) :
    (l.takeVotesDirtySet root).2.DirtyWithinReplay := by
  intro pk d hd
  simp [LatestValidatorVotesForFrozenBanks.takeVotesDirtySet] at hd

end Preserved

/-! ### Runs -/

/-- The two ways the rest of the validator changes the latest votes. -/
inductive Call
  | checkAddVote (votePubkey : Pubkey) (voteSlot : Nat) (frozenHash : Option Hash)
      (isReplayVote : Bool)
  | takeVotesDirtySet (root : Nat)

/-- A run of calls; `none` when one of them panics. -/
def run (l : LatestValidatorVotesForFrozenBanks) : List Call → Option LatestValidatorVotesForFrozenBanks
  | [] => some l
  | .checkAddVote pk slot hash isReplayVote :: calls =>
      (l.checkAddVote pk slot hash isReplayVote).bind fun r => r.2.run calls
  | .takeVotesDirtySet root :: calls => (l.takeVotesDirtySet root).2.run calls

theorem run_append (l : LatestValidatorVotesForFrozenBanks) :
    ∀ calls₁ calls₂ : List Call, l.run (calls₁ ++ calls₂) = (l.run calls₁).bind (·.run calls₂)
  | [], calls₂ => rfl
  | .checkAddVote pk slot hash isReplayVote :: calls₁, calls₂ => by
      simp only [List.cons_append, run]
      cases l.checkAddVote pk slot hash isReplayVote with
      | none => rfl
      | some r => exact run_append r.2 calls₁ calls₂
  | .takeVotesDirtySet root :: calls₁, calls₂ => run_append _ calls₁ calls₂

/-- From a state with the dirty set within the replay map, no run panics, and the invariant
holds at its end. -/
theorem run_isSome_of_dirtyWithinReplay :
    ∀ {l : LatestValidatorVotesForFrozenBanks} (calls : List Call), l.DirtyWithinReplay →
      ∃ l', l.run calls = some l' ∧ l'.DirtyWithinReplay
  | l, [], h => ⟨l, rfl, h⟩
  | l, .checkAddVote pk slot hash isReplayVote :: calls, h => by
      obtain ⟨r, hr⟩ := Option.isSome_iff_exists.mp (checkAddVote_isSome h pk slot hash isReplayVote)
      obtain ⟨l', hRun, h'⟩ := run_isSome_of_dirtyWithinReplay calls (h.checkAddVote hr)
      exact ⟨l', by simp [run, hr, hRun], h'⟩
  | l, .takeVotesDirtySet root :: calls, _ => run_isSome_of_dirtyWithinReplay calls (dirtyWithinReplay_takeVotesDirtySet l root)

/-- The assert of `check_add_vote` never fires on a run from the default state. -/
theorem run_default_isSome (calls : List Call) :
    (LatestValidatorVotesForFrozenBanks.default.run calls).isSome := by
  obtain ⟨l', hRun, -⟩ := run_isSome_of_dirtyWithinReplay calls dirtyWithinReplay_default
  simp [hRun]

end LatestValidatorVotesForFrozenBanks

end PutValidator.Consensus
