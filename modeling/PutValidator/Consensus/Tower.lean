import PutValidator.Vote.WellFormed
import PutValidator.Vote.Program

/-! The local tower of `core/src/consensus.rs`: the validator's own copy of its vote state and
the vote it last sent. `is_locked_out` decides whether the validator may vote on a slot by
simulating the vote on a copy of the tower, and `record_bank_vote_and_update_lockouts` makes
the vote. Of the fields of `Tower`, only the vote state and the last vote are read or written
by these functions; `maybe_timestamp` reads the wall clock, so its result is an input. -/
namespace PutValidator.Consensus

open PutValidator.Vote

/-- `VoteTransaction`: a vote sent as a `Vote` or as a `VoteStateUpdate`. -/
inductive VoteTransaction
  | vote (v : Vote)
  | voteStateUpdate (u : VoteStateUpdate)
deriving DecidableEq, Repr

def VoteTransaction.setTimestamp : VoteTransaction → Option Int → VoteTransaction
  | .vote v, ts => .vote { v with timestamp := ts }
  | .voteStateUpdate u, ts => .voteStateUpdate { u with timestamp := ts }

structure Tower where
  voteState : VoteState
  lastVote : VoteTransaction
deriving DecidableEq, Repr

namespace Tower

/-- `Tower::default()`: the vote state carries the root 0. -/
protected def default : Tower :=
  ⟨{ VoteState.default with rootSlot := some 0 }, .voteStateUpdate ⟨[], none, Hash.default, none⟩⟩

/-- `root()` unwraps the root of the vote state; `none` is that panic. -/
def root (t : Tower) : Option Nat := t.voteState.rootSlot

/-- A slot is recent when it is above the last vote, or above the root before any vote. -/
def isRecent (t : Tower) (slot : Nat) : Bool :=
  match t.voteState.lastVotedSlot with
  | some lastVotedSlot => decide (lastVotedSlot < slot)
  | none =>
      match t.voteState.rootSlot with
      | some root => decide (root < slot)
      | none => true

def hasVoted (t : Tower) (slot : Nat) : Bool :=
  t.voteState.votes.any fun vote => slot == vote.slot

/-- `is_locked_out`: `none` is the panic of its `assert!` that the root of the simulated
tower is an ancestor of the slot. -/
def isLockedOut (t : Tower) (slot : Nat) (ancestors : List Nat) : Option Bool :=
  if !t.isRecent slot then some true
  else
    let voteState := processSlotVoteUnchecked t.voteState slot
    if voteState.votes.any fun vote => slot ≠ vote.slot ∧ vote.slot ∉ ancestors then some true
    else
      match voteState.rootSlot with
      | some rootSlot => if slot ≠ rootSlot ∧ rootSlot ∉ ancestors then none else some false
      | none => some false

/-- The vote state after the vote, and the vote to send: the slots of the tower that the
bank's own vote account has not seen yet. -/
def applyVoteAndGenerateVoteDiff (localVoteState : VoteState) (slot : Nat) (hash : Hash)
    (lastVotedSlotInBank : Option Nat) : VoteState × VoteTransaction :=
  let localVoteState := processVoteUncheckedInPlace localVoteState ⟨[slot], hash, none⟩
  let slots :=
    match lastVotedSlotInBank with
    | some lastVotedSlot => (localVoteState.votes.map Lockout.slot).dropWhile (· ≤ lastVotedSlot)
    | none => localVoteState.votes.map Lockout.slot
  (localVoteState, .vote ⟨slots, hash, none⟩)

def updateLastVoteFromVoteState (t : Tower) (voteHash : Hash) (timestamp : Option Int) : Tower :=
  { t with
    lastVote := .voteStateUpdate ⟨t.voteState.votes, t.voteState.rootSlot, voteHash, timestamp⟩ }

/-- `record_bank_vote_and_update_lockouts`, with `timestamp` the result of
`maybe_timestamp`: the tower after the vote, and the new root when the vote moved it. -/
def recordBankVoteAndUpdateLockouts (t : Tower) (voteSlot : Nat) (voteHash : Hash)
    (lastVotedSlotInBank : Option Nat) (isDirectVoteStateUpdateEnabled : Bool)
    (timestamp : Option Int) : Option (Tower × Option Nat) := do
  let oldRoot ← t.root
  let t' :=
    if isDirectVoteStateUpdateEnabled then
      updateLastVoteFromVoteState
        { t with voteState := processVoteUncheckedInPlace t.voteState ⟨[voteSlot], voteHash, none⟩ }
        voteHash timestamp
    else
      let (voteState, newVote) :=
        applyVoteAndGenerateVoteDiff t.voteState voteSlot voteHash lastVotedSlotInBank
      { t with voteState := voteState, lastVote := newVote.setTimestamp timestamp }
  let newRoot ← t'.root
  pure (t', if oldRoot ≠ newRoot then some newRoot else none)

/-! ### The tower step, in terms of `process_next_vote_slot` -/

/-- A recent slot is one that `process_next_vote_slot` does not ignore. -/
theorem not_ignored_of_isRecent {t : Tower} {slot : Nat} (h : t.isRecent slot = true) :
    ¬t.voteState.lastVotedSlot.any (slot ≤ ·) := by
  unfold isRecent at h
  cases hLast : t.voteState.lastVotedSlot with
  | none => simp
  | some last =>
      rw [hLast] at h
      simpa using h

/-- Before any vote, a recent slot lies above the root. -/
theorem root_lt_of_isRecent {t : Tower} {slot : Nat} (h : t.isRecent slot = true)
    (hNil : t.voteState.votes = []) : ∀ r ∈ t.voteState.rootSlot, r < slot := by
  intro r hr
  have hLast : t.voteState.lastVotedSlot = none := by
    simp [VoteState.lastVotedSlot, VoteState.lastLockout, hNil]
  rw [Option.mem_def] at hr
  simpa [isRecent, hLast, hr] using h

/-- After a vote, a recent slot lies above the last vote. -/
theorem lastVotedSlot_lt_of_isRecent {t : Tower} {slot last : Nat} (h : t.isRecent slot = true)
    (hLast : t.voteState.lastVotedSlot = some last) : last < slot := by
  simpa [isRecent, hLast] using h

/-- On a well-formed tower, a recent slot lies above the root. -/
theorem root_lt_of_isRecent_of_wellFormed {t : Tower} {slot : Nat}
    (hWF : TowerWellFormed t.voteState) (h : t.isRecent slot = true) :
    ∀ r ∈ t.voteState.rootSlot, r < slot := by
  intro r hr
  cases hLast : t.voteState.lastVotedSlot with
  | none =>
      have hNil : t.voteState.votes = [] := by
        simpa [VoteState.lastVotedSlot, VoteState.lastLockout] using hLast
      exact root_lt_of_isRecent h hNil r hr
  | some last =>
      have hLt := lastVotedSlot_lt_of_isRecent h hLast
      by_cases hr0 : r = 0
      · omega
      · obtain ⟨v, hv, hSlot⟩ : ∃ v ∈ t.voteState.votes, v.slot = last := by
          simp only [VoteState.lastVotedSlot, VoteState.lastLockout, Option.map_eq_some_iff] at hLast
          obtain ⟨v, hv, hSlot⟩ := hLast
          exact ⟨v, List.mem_of_getLast? hv, hSlot⟩
        have hBelow := hWF.root_below r hr hr0 v hv
        omega

/-- What `is_locked_out` returning `false` says: the slot is recent, every vote of the
simulated tower other than the slot itself is an ancestor, and so is its root. -/
theorem isLockedOut_eq_some_false {t : Tower} {slot : Nat} {ancestors : List Nat}
    (h : t.isLockedOut slot ancestors = some false) :
    t.isRecent slot = true ∧
      (∀ v ∈ (t.voteState.processNextVoteSlot slot t.voteState.currentEpoch).votes,
        v.slot ≠ slot → v.slot ∈ ancestors) ∧
      ∀ r ∈ (t.voteState.processNextVoteSlot slot t.voteState.currentEpoch).rootSlot,
        r ≠ slot → r ∈ ancestors := by
  unfold isLockedOut at h
  rw [processSlotVoteUnchecked_eq] at h
  by_cases hRecent : t.isRecent slot = true
  · simp only [hRecent, Bool.not_true, Bool.false_eq_true, if_false] at h
    split_ifs at h with hAny
    · cases h
    refine ⟨hRecent, fun v hv hne => ?_, fun r hr hne => ?_⟩
    · by_contra hNot
      exact hAny (List.any_eq_true.mpr ⟨v, hv, by simp [Ne.symm hne, hNot]⟩)
    · rw [Option.mem_def] at hr
      rw [hr] at h
      dsimp only at h
      split_ifs at h with hPanic
      by_contra hNot
      exact hPanic ⟨Ne.symm hne, hNot⟩
  · simp [hRecent] at h

/-- Whichever way the vote is recorded, the tower's vote state becomes the vote state after
`process_next_vote_slot` in the current epoch. -/
theorem recordBankVoteAndUpdateLockouts_voteState {t t' : Tower} {voteSlot : Nat}
    {voteHash : Hash} {lastVotedSlotInBank : Option Nat} {isDirect : Bool}
    {timestamp : Option Int} {newRoot : Option Nat}
    (h : t.recordBankVoteAndUpdateLockouts voteSlot voteHash lastVotedSlotInBank isDirect
      timestamp = some (t', newRoot)) :
    t'.voteState = t.voteState.processNextVoteSlot voteSlot t.voteState.currentEpoch := by
  unfold recordBankVoteAndUpdateLockouts at h
  simp only [Option.bind_eq_bind, Option.bind_eq_some_iff, Option.pure_def,
    Option.some.injEq, Prod.mk.injEq] at h
  obtain ⟨-, -, -, -, rfl, -⟩ := h
  cases isDirect <;>
    simp [updateLastVoteFromVoteState, applyVoteAndGenerateVoteDiff,
      processVoteUncheckedInPlace_singleton]

/-- Recording a vote panics only on a tower without a root. -/
theorem recordBankVoteAndUpdateLockouts_isSome {t : Tower} (hRoot : t.root.isSome)
    (voteSlot : Nat) (voteHash : Hash) (lastVotedSlotInBank : Option Nat) (isDirect : Bool)
    (timestamp : Option Int) :
    (t.recordBankVoteAndUpdateLockouts voteSlot voteHash lastVotedSlotInBank isDirect
      timestamp).isSome := by
  obtain ⟨r, hr⟩ := Option.isSome_iff_exists.mp hRoot
  obtain ⟨r', hr'⟩ := Option.isSome_iff_exists.mp
    (VoteState.processNextVoteSlot_rootSlot_isSome hRoot voteSlot t.voteState.currentEpoch)
  have hr₀ : t.voteState.rootSlot = some r := hr
  cases isDirect <;>
    simp [recordBankVoteAndUpdateLockouts, root, hr₀, updateLastVoteFromVoteState,
      applyVoteAndGenerateVoteDiff, processVoteUncheckedInPlace_singleton, hr']

end Tower

end PutValidator.Consensus
