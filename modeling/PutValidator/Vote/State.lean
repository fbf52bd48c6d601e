import Mathlib
import PutValidator.Lib.Word

/-! The tower part of a vote account and the one-vote-at-a-time path of
`sdk/program/src/vote/state/mod.rs`: `Lockout`, `VoteState`, `pop_expired_votes`,
`double_lockouts`, `increment_credits`, `process_timestamp` and `process_next_vote_slot`.
Slots and epochs (`Slot`, `Epoch`) are `u64` and credits `u128`, all kept as `Nat`; the saturating additions
keep their bound. The authority, commission and prior-voter fields of `VoteState` are read by
none of these functions and are left out. -/
namespace PutValidator.Vote

open Lib.Word

/-- `Slot::MAX`. -/
def slotMax : Nat := maxValue 64

def maxLockoutHistory : Nat := 31
def initialLockout : Nat := 2
def maxEpochCreditsHistory : Nat := 64

/-- The errors of `sdk/program/src/vote/error.rs`, in the order of the source. -/
inductive VoteError
  | voteTooOld
  | slotsMismatch
  | slotHashMismatch
  | emptySlots
  | timestampTooOld
  | tooSoonToReauthorize
  | lockoutConflict
  | newVoteStateLockoutMismatch
  | slotsNotOrdered
  | confirmationsNotOrdered
  | zeroConfirmations
  | confirmationTooLarge
  | rootRollBack
  | confirmationRollBack
  | slotSmallerThanRoot
  | tooManyVotes
  | votesTooOldAllFiltered
  | rootOnDifferentFork
  | activeVoteAccountClose
  | commissionUpdateTooLate
deriving DecidableEq, Repr

structure Lockout where
  slot : Nat
  confirmationCount : Nat
deriving DecidableEq, Repr

namespace Lockout

def new (slot : Nat) : Lockout := ⟨slot, 1⟩

@[simp] theorem new_slot (slot : Nat) : (new slot).slot = slot := rfl

/-- `2 ^ confirmation_count`. As a `u64` power it would wrap only from a count of 64, which
no computed lockout reaches: the update path rejects counts above 31 before it computes
the lockout of a proposed vote. -/
def lockout (v : Lockout) : Nat := initialLockout ^ v.confirmationCount

def lastLockedOutSlot (v : Lockout) : Nat := saturatingAdd 64 v.slot v.lockout

def isLockedOutAtSlot (v : Lockout) (slot : Nat) : Bool := decide (slot ≤ v.lastLockedOutSlot)

end Lockout

structure BlockTimestamp where
  slot : Nat
  timestamp : Int
deriving DecidableEq, Repr

/-- The fields of `VoteState` that the vote-processing paths read and write. -/
structure VoteState where
  votes : List Lockout
  rootSlot : Option Nat
  /-- `(epoch, credits, prev_credits)` for each recorded epoch, oldest first. -/
  epochCredits : List (Nat × Nat × Nat)
  lastTimestamp : BlockTimestamp
deriving DecidableEq, Repr

namespace VoteState

/-- `VoteState::default()`. -/
protected def default : VoteState := ⟨[], none, [], ⟨0, 0⟩⟩

def lastLockout (s : VoteState) : Option Lockout := s.votes.getLast?

def lastVotedSlot (s : VoteState) : Option Nat := s.lastLockout.map Lockout.slot

/-- The epoch of the newest credit entry, 0 before any credit. -/
def currentEpoch (s : VoteState) : Nat :=
  match s.epochCredits.getLast? with
  | none => 0
  | some (epoch, _, _) => epoch

/-- `contains_slot`, a binary search by slot; on the slot-sorted towers it is run on, it
finds exactly the slots present. -/
def containsSlot (s : VoteState) (candidateSlot : Nat) : Bool :=
  s.votes.any fun v => v.slot == candidateSlot

/-- Pop from the back every vote that is no longer locked out at `nextVoteSlot`. -/
def popExpiredVotes (s : VoteState) (nextVoteSlot : Nat) : VoteState :=
  { s with votes := s.votes.rdropWhile fun v => !v.isLockedOutAtSlot nextVoteSlot }

/-- The vote at depth `i` gains a confirmation when the stack has grown past
`i + confirmation_count`. -/
def doubleLockouts (s : VoteState) : VoteState :=
  { s with
    votes := s.votes.mapIdx fun i v =>
      if i + v.confirmationCount < s.votes.length then
        { v with confirmationCount := v.confirmationCount + 1 }
      else v }

/-- Add `credits` to the current epoch, opening a new entry when the epoch changed and
keeping at most `MAX_EPOCH_CREDITS_HISTORY` entries. -/
def incrementCredits (s : VoteState) (epoch : Nat) (credits : Nat) : VoteState :=
  let history :=
    match s.epochCredits.getLast? with
    | none => [(epoch, 0, 0)]
    | some (lastEpoch, lastCredits, prevCredits) =>
        if epoch = lastEpoch then s.epochCredits
        else
          let moved :=
            if lastCredits ≠ prevCredits then
              s.epochCredits ++ [(epoch, lastCredits, lastCredits)]
            else s.epochCredits.dropLast ++ [(epoch, lastCredits, prevCredits)]
          if maxEpochCreditsHistory < moved.length then moved.tail else moved
  { s with
    epochCredits := history.modifyLast fun (e, c, p) => (e, saturatingAdd 128 c credits, p) }

def processTimestamp (s : VoteState) (slot : Nat) (timestamp : Int) :
    Except VoteError VoteState :=
  if (slot < s.lastTimestamp.slot ∨ timestamp < s.lastTimestamp.timestamp) ∨
      (slot = s.lastTimestamp.slot ∧ BlockTimestamp.mk slot timestamp ≠ s.lastTimestamp ∧
        s.lastTimestamp.slot ≠ 0) then
    .error .timestampTooOld
  else .ok { s with lastTimestamp := ⟨slot, timestamp⟩ }

/-- Once the stack is full the oldest lockout becomes the root and earns one credit. The
caller checks that the stack holds `MAX_LOCKOUT_HISTORY` votes, so the `unwrap` of
`pop_front` never meets the empty case. -/
def rootOldestVote (s : VoteState) (epoch : Nat) : VoteState :=
  match s.votes with
  | oldest :: rest =>
      ({ s with votes := rest, rootSlot := some oldest.slot }).incrementCredits epoch 1
  | [] => s

def processNextVoteSlot (s : VoteState) (nextVoteSlot : Nat) (epoch : Nat) : VoteState :=
  -- votes for slots at or below the last vote are ignored
  if s.lastVotedSlot.any (nextVoteSlot ≤ ·) then s
  else
    let popped := s.popExpiredVotes nextVoteSlot
    let rooted :=
      if popped.votes.length = maxLockoutHistory then popped.rootOldestVote epoch else popped
    ({ rooted with votes := rooted.votes ++ [Lockout.new nextVoteSlot] }).doubleLockouts

/-- `nth_recent_lockout`: the vote `position` places below the newest one. The two
`checked_sub`s cannot fail below the length. -/
def nthRecentLockout (s : VoteState) (position : Nat) : Option Lockout :=
  if position < s.votes.length then s.votes[s.votes.length - position - 1]? else none

theorem nthRecentLockout_eq (s : VoteState) (position : Nat) :
    s.nthRecentLockout position = s.votes.reverse[position]? := by
  unfold nthRecentLockout
  split_ifs with h
  · rw [List.getElem?_reverse h]
    congr 1
    omega
  · rw [List.getElem?_eq_none (by simpa using h)]

@[simp] theorem popExpiredVotes_rootSlot (s : VoteState) (slot : Nat) :
    (s.popExpiredVotes slot).rootSlot = s.rootSlot := rfl

@[simp] theorem doubleLockouts_rootSlot (s : VoteState) :
    s.doubleLockouts.rootSlot = s.rootSlot := rfl

@[simp] theorem incrementCredits_votes (s : VoteState) (epoch : Nat) (credits : Nat) :
    (s.incrementCredits epoch credits).votes = s.votes := rfl

@[simp] theorem incrementCredits_rootSlot (s : VoteState) (epoch : Nat) (credits : Nat) :
    (s.incrementCredits epoch credits).rootSlot = s.rootSlot := rfl

@[simp] theorem doubleLockouts_length (s : VoteState) :
    s.doubleLockouts.votes.length = s.votes.length := by
  simp [doubleLockouts]

@[simp] theorem processTimestamp_votes {s s' : VoteState} {slot : Nat} {t : Int}
    (h : s.processTimestamp slot t = .ok s') : s'.votes = s.votes := by
  unfold processTimestamp at h
  split at h <;> cases h
  rfl

end VoteState

end PutValidator.Vote
