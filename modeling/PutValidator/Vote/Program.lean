import PutValidator.Vote.State
import PutValidator.Sdk.Primitives
import PutValidator.Lib.Except

/-! The vote instructions of `programs/vote/src/vote_state/mod.rs`: `process_vote` with its
`check_slots_are_valid` walk, and the vote-state-update path
`do_process_vote_state_update`, i.e. `check_update_vote_state_slots_are_valid` followed by
`process_new_vote_state`. A call either succeeds, returns a `VoteError`, or panics in one of
its `assert!`, `assert_eq!`, `expect` calls or out-of-bounds indexes. -/
namespace PutValidator.Vote

set_option linter.dupNamespace false

open Lib.Except

/-- `Vote`: slots oldest first, the hash of the last one, an optional timestamp. -/
structure Vote where
  slots : List Nat
  hash : Hash
  timestamp : Option Int
deriving DecidableEq, Repr

/-- `VoteStateUpdate`: a proposed tower and root. -/
structure VoteStateUpdate where
  lockouts : List Lockout
  root : Option Nat
  hash : Hash
  timestamp : Option Int
deriving DecidableEq, Repr

/-- `(Slot, Hash)`; the `SlotHashes` sysvar lists them newest first. -/
abbrev SlotHash := Nat × Hash

/-- How a vote-program call ends when it does not succeed. -/
inductive Fault
  | vote (e : VoteError)
  | panic
deriving DecidableEq, Repr

/-! ### `process_vote` -/

/-- The walk of `check_slots_are_valid`: `i` runs over `voteSlots` from the oldest, `j`
counts the `slotHashes` entries not yet passed (they are newest first, so entry `j - 1` is
the oldest one still ahead). -/
def checkSlotsWalk (lastVotedSlot : Option Nat) (voteSlots : List Nat)
    (slotHashes : List SlotHash) (i j : Nat) : Nat × Nat :=
  if hi : i < voteSlots.length then
    if 0 < j then
      if lastVotedSlot.any (voteSlots[i] ≤ ·) then
        checkSlotsWalk lastVotedSlot voteSlots slotHashes (i + 1) j
      else if voteSlots[i] ≠ (slotHashes[j - 1]!).1 then
        checkSlotsWalk lastVotedSlot voteSlots slotHashes i (j - 1)
      else checkSlotsWalk lastVotedSlot voteSlots slotHashes (i + 1) (j - 1)
    else (i, j)
  else (i, j)
termination_by voteSlots.length - i + j

def checkSlotsAreValid (s : VoteState) (voteSlots : List Nat) (voteHash : Hash)
    (slotHashes : List SlotHash) : Except VoteError Unit :=
  let (i, j) := checkSlotsWalk s.lastVotedSlot voteSlots slotHashes 0 slotHashes.length
  if j = slotHashes.length then .error .voteTooOld
  else if i ≠ voteSlots.length then .error .slotsMismatch
  else if (slotHashes[j]!).2 ≠ voteHash then .error .slotHashMismatch
  else .ok ()

def processVote (s : VoteState) (vote : Vote) (slotHashes : List SlotHash) (epoch : Nat) :
    Except VoteError VoteState := do
  failIf vote.slots.isEmpty .emptySlots
  let earliestSlotInHistory := (slotHashes.getLast?.map Prod.fst).getD 0
  let voteSlots := vote.slots.filter (earliestSlotInHistory ≤ ·)
  failIf voteSlots.isEmpty .votesTooOldAllFiltered
  checkSlotsAreValid s voteSlots vote.hash slotHashes
  pure (voteSlots.foldl (fun s slot => s.processNextVoteSlot slot epoch) s)

/-- `process_vote_unchecked`, used by the local tower: the vote's own slots, newest first,
stand in for the slot history. -/
def processVoteUnchecked (s : VoteState) (vote : Vote) : Except VoteError VoteState :=
  processVote s vote (vote.slots.reverse.map fun x => (x, vote.hash)) s.currentEpoch

/-- The vote state after `process_vote_unchecked` ran on it in place; a call that fails
returns before changing it. -/
def processVoteUncheckedInPlace (s : VoteState) (vote : Vote) : VoteState :=
  match processVoteUnchecked s vote with
  | .ok s' => s'
  | .error _ => s

/-- `process_slot_vote_unchecked`: its error is dropped. -/
def processSlotVoteUnchecked (s : VoteState) (slot : Nat) : VoteState :=
  processVoteUncheckedInPlace s ⟨[slot], Hash.default, none⟩

/-! ### `check_update_vote_state_slots_are_valid` -/

/-- The root fix: walk the current votes from the newest down, asserting that they
decrease and stay above the current root, and take the newest one at or below the
proposed root; without such a vote the root stays the current root. -/
def rootFixWalk (newProposedRoot : Nat) (currentRoot : Option Nat) (prevSlot : Nat) :
    List Lockout → Except Fault (Option Nat)
  | [] => .ok currentRoot
  | vote :: older =>
      if vote.slot < prevSlot ∧ currentRoot.all (· < vote.slot) then
        if vote.slot ≤ newProposedRoot then .ok (some vote.slot)
        else rootFixWalk newProposedRoot currentRoot vote.slot older
      else .error .panic

/-- The walk of the update's slots (index `k`, oldest first, after the root while
`rootToCheck` is set) against `slotHashes` (`shIndex` entries not yet passed). It returns
the final indexes and the indexes of too-old slots to filter out. -/
def updateWalk (s : VoteState) (lockouts : List Lockout) (slotHashes : List SlotHash)
    (earliest : Nat) (isRootFixEnabled : Bool) (rootToCheck : Option Nat) (k shIndex : Nat)
    (toFilter : List Nat) : Except Fault (Nat × Nat × List Nat) :=
  if hk : k < lockouts.length then
    if 0 < shIndex then
      let proposed := rootToCheck.getD lockouts[k].slot
      if rootToCheck.isNone ∧ 0 < k ∧ proposed ≤ lockouts[k - 1].slot then
        .error (.vote .slotsNotOrdered)
      else
        match slotHashes[shIndex - 1]? with
        | none => .error .panic
        | some (ancestor, _) =>
            if proposed < ancestor then
              if shIndex = slotHashes.length then
                -- too old to be in the history
                if proposed < earliest then
                  let toFilter :=
                    if !s.containsSlot proposed && rootToCheck.isNone then toFilter ++ [k]
                    else toFilter
                  match rootToCheck with
                  | some root =>
                      let holds :=
                        if isRootFixEnabled then decide (root = proposed ∧ root < earliest)
                        else s.rootSlot.any (· < earliest)
                      if holds then
                        updateWalk s lockouts slotHashes earliest isRootFixEnabled none k shIndex
                          toFilter
                      else .error .panic
                  | none =>
                      updateWalk s lockouts slotHashes earliest isRootFixEnabled none (k + 1)
                        shIndex toFilter
                else .error .panic
              else if rootToCheck.isSome then .error (.vote .rootOnDifferentFork)
              else .error (.vote .slotsMismatch)
            else if ancestor < proposed then
              updateWalk s lockouts slotHashes earliest isRootFixEnabled rootToCheck k
                (shIndex - 1) toFilter
            else
              match rootToCheck with
              | some _ =>
                  updateWalk s lockouts slotHashes earliest isRootFixEnabled none k shIndex
                    toFilter
              | none =>
                  updateWalk s lockouts slotHashes earliest isRootFixEnabled none (k + 1)
                    (shIndex - 1) toFilter
    else .ok (k, shIndex, toFilter)
  else .ok (k, shIndex, toFilter)
termination_by lockouts.length - k + shIndex + (if rootToCheck.isSome then 1 else 0)
decreasing_by all_goals simp_all <;> omega

/-- The `retain` closure that drops the filtered indexes: it walks the lockouts with their
index and the filter list in step. -/
def retainUnfiltered : List Lockout → Nat → List Nat → List Lockout
  | [], _, _ => []
  | lockout :: rest, index, [] => lockout :: retainUnfiltered rest (index + 1) []
  | lockout :: rest, index, next :: toFilter =>
      if index = next then retainUnfiltered rest (index + 1) toFilter
      else lockout :: retainUnfiltered rest (index + 1) (next :: toFilter)

/-- The root the update is checked with: a proposed root older than the slot history is
replaced by the current root, or under the root fix by the result of `rootFixWalk`. -/
def checkedRoot (s : VoteState) (update : VoteStateUpdate) (earliest : Nat)
    (isRootFixEnabled : Bool) : Except Fault (Option Nat) :=
  match update.root with
  | some newProposedRoot =>
      if newProposedRoot < earliest then
        if isRootFixEnabled then rootFixWalk newProposedRoot s.rootSlot slotMax s.votes.reverse
        else pure s.rootSlot
      else pure update.root
  | none => pure none

def checkUpdateVoteStateSlotsAreValid (s : VoteState) (update : VoteStateUpdate)
    (slotHashes : List SlotHash) (isRootFixEnabled : Bool) : Except Fault VoteStateUpdate := do
  let some lastLockout := update.lockouts.getLast? | throw (.vote .emptySlots)
  failIf (s.lastVotedSlot.any (lastLockout.slot ≤ ·)) (.vote .voteTooOld)
  let some (earliest, _) := slotHashes.getLast? | throw (.vote .slotsMismatch)
  failIf (lastLockout.slot < earliest) (.vote .voteTooOld)
  let root ← checkedRoot s update earliest isRootFixEnabled
  let (k, shIndex, toFilter) ←
    updateWalk s update.lockouts slotHashes earliest isRootFixEnabled root 0 slotHashes.length []
  failIf (k ≠ update.lockouts.length) (.vote .slotsMismatch)
  let some (slot, hash) := slotHashes[shIndex]? | throw .panic
  failIf (lastLockout.slot ≠ slot) .panic
  failIf (hash ≠ update.hash) (.vote .slotHashMismatch)
  pure { update with root := root, lockouts := retainUnfiltered update.lockouts 0 toFilter }

/-! ### `process_new_vote_state` -/

/-- The validation loop over the proposed votes, oldest first, with the previous vote. -/
def checkNewVotes (newRoot : Option Nat) : Option Lockout → List Lockout → Except VoteError Unit
  | _, [] => .ok ()
  | previous, vote :: rest =>
      if vote.confirmationCount = 0 then .error .zeroConfirmations
      else if maxLockoutHistory < vote.confirmationCount then .error .confirmationTooLarge
      else if newRoot.any (fun r => vote.slot ≤ r ∧ r ≠ 0) then .error .slotSmallerThanRoot
      else
        match previous with
        | some p =>
            if vote.slot ≤ p.slot then .error .slotsNotOrdered
            else if p.confirmationCount ≤ vote.confirmationCount then
              .error .confirmationsNotOrdered
            else if p.lastLockedOutSlot < vote.slot then .error .newVoteStateLockoutMismatch
            else checkNewVotes newRoot (some vote) rest
        | none => checkNewVotes newRoot (some vote) rest

/-- The merge of the current votes above the new root with the proposed votes: the two
indexes of the source are the suffixes still to be visited. A current vote that is passed
must have expired before the proposed vote that passed it; a vote kept must not lose
confirmations. -/
def mergeCheck : List Lockout → List Lockout → Except VoteError Unit
  | current :: currentRest, new :: newRest =>
      if current.slot < new.slot then
        if new.slot ≤ current.lastLockedOutSlot then .error .lockoutConflict
        else mergeCheck currentRest (new :: newRest)
      else if current.slot = new.slot then
        if new.confirmationCount < current.confirmationCount then .error .confirmationRollBack
        else mergeCheck currentRest newRest
      else mergeCheck (current :: currentRest) newRest
  | _, _ => .ok ()
termination_by current new => current.length + new.length

/-- The `RootRollBack` condition: a proposed root below the current one, or no root where
there is one. -/
def rootRollsBack : Option Nat → Option Nat → Bool
  | some newRoot, some currentRoot => decide (newRoot < currentRoot)
  | none, some _ => true
  | _, _ => false

/-- How many of the current votes, oldest first, sit at or below the new root. -/
def currentVoteStateIndex (votes : List Lockout) : Option Nat → Nat
  | some newRoot => (votes.takeWhile (·.slot ≤ newRoot)).length
  | none => 0

/-- `process_timestamp` for the newest proposed slot, when the update carries a timestamp. -/
def processNewTimestamp (s : VoteState) (newState : List Lockout) :
    Option Int → Except VoteError VoteState
  | some timestamp =>
      match newState.getLast? with
      | some last => s.processTimestamp last.slot timestamp
      | none => .ok s
  | none => .ok s

def processNewVoteState (s : VoteState) (newState : List Lockout) (newRoot : Option Nat)
    (timestamp : Option Int) (epoch : Nat) : Except Fault VoteState := do
  failIf newState.isEmpty .panic
  failIf (maxLockoutHistory < newState.length) (.vote .tooManyVotes)
  failIf (rootRollsBack newRoot s.rootSlot) (.vote .rootRollBack)
  (checkNewVotes newRoot none newState).mapError .vote
  (mergeCheck (s.votes.drop (currentVoteStateIndex s.votes newRoot)) newState).mapError .vote
  let credited := if s.rootSlot ≠ newRoot then s.incrementCredits epoch 1 else s
  let stamped ← (processNewTimestamp credited newState timestamp).mapError .vote
  pure { stamped with rootSlot := newRoot, votes := newState }

def doProcessVoteStateUpdate (s : VoteState) (slotHashes : List SlotHash) (epoch : Nat)
    (update : VoteStateUpdate) (isRootFixEnabled : Bool) : Except Fault VoteState := do
  let update ← checkUpdateVoteStateSlotsAreValid s update slotHashes isRootFixEnabled
  processNewVoteState s update.lockouts update.root update.timestamp epoch

/-! ### What an accepted call did -/

/-- The relation `process_new_vote_state` checks between consecutive proposed votes. -/
def Lockout.Stacks (a b : Lockout) : Prop :=
  a.slot < b.slot ∧ b.confirmationCount < a.confirmationCount ∧ b.slot ≤ a.lastLockedOutSlot

/-- A proposed vote that passes the per-vote checks: a count in `1..=31`, and above the new
root unless that root is 0. -/
def ProposedVoteValid (newRoot : Option Nat) (v : Lockout) : Prop :=
  0 < v.confirmationCount ∧ v.confirmationCount ≤ maxLockoutHistory ∧
    ∀ r ∈ newRoot, r ≠ 0 → r < v.slot

/-- One step of the validation loop. -/
theorem checkNewVotes_cons_eq_ok_iff (newRoot : Option Nat) (previous : Option Lockout)
    (vote : Lockout) (rest : List Lockout) :
    checkNewVotes newRoot previous (vote :: rest) = .ok () ↔
      ProposedVoteValid newRoot vote ∧ (∀ p ∈ previous, p.Stacks vote) ∧
        checkNewVotes newRoot (some vote) rest = .ok () := by
  have hRoot : newRoot.any (fun r => vote.slot ≤ r ∧ r ≠ 0) = true ↔
      ¬∀ r ∈ newRoot, r ≠ 0 → r < vote.slot := by
    cases newRoot <;> simp [and_comm]
  simp only [checkNewVotes]
  by_cases hZero : vote.confirmationCount = 0
  · simp [hZero, ProposedVoteValid]
  rw [if_neg hZero]
  by_cases hLarge : maxLockoutHistory < vote.confirmationCount
  · rw [if_pos hLarge]
    simp only [reduceCtorEq, false_iff]
    rintro ⟨⟨-, hLe, -⟩, -⟩
    omega
  rw [if_neg hLarge]
  by_cases hBelow : newRoot.any (fun r => vote.slot ≤ r ∧ r ≠ 0) = true
  · rw [if_pos hBelow]
    simp only [reduceCtorEq, false_iff]
    rintro ⟨⟨-, -, hAbove⟩, -⟩
    exact hRoot.mp hBelow hAbove
  rw [if_neg hBelow]
  have hValid : ProposedVoteValid newRoot vote :=
    ⟨by omega, by omega, not_not.mp (mt hRoot.mpr hBelow)⟩
  cases previous with
  | none => simp [hValid]
  | some p =>
      simp only [Option.mem_def, Option.some.injEq, forall_eq', hValid, true_and, Lockout.Stacks]
      by_cases hOrder : vote.slot ≤ p.slot
      · simp [hOrder]
      rw [if_neg hOrder]
      by_cases hConf : p.confirmationCount ≤ vote.confirmationCount
      · simp [hConf]
      rw [if_neg hConf]
      by_cases hLock : p.lastLockedOutSlot < vote.slot
      · simp [hLock]
      rw [if_neg hLock]
      simp only [iff_and_self]
      intro _
      omega

/-- The validation loop accepts exactly the lists of valid votes in which each vote stacks
on the previous one. -/
theorem checkNewVotes_eq_ok_iff (newRoot : Option Nat) (previous : Option Lockout)
    (votes : List Lockout) :
    checkNewVotes newRoot previous votes = .ok () ↔
      (∀ v ∈ votes, ProposedVoteValid newRoot v) ∧
        (previous.toList ++ votes).IsChain Lockout.Stacks := by
  induction votes generalizing previous with
  | nil => cases previous <;> simp [checkNewVotes]
  | cons vote rest ih =>
      rw [checkNewVotes_cons_eq_ok_iff, ih]
      cases previous <;> simp [List.isChain_cons_cons] <;> tauto

/-- The checks `process_new_vote_state` makes before it rewrites the tower. -/
structure NewStateAccepted (s : VoteState) (newState : List Lockout) (newRoot : Option Nat) :
    Prop where
  ne_nil : newState ≠ []
  length_le : newState.length ≤ maxLockoutHistory
  no_rollback : rootRollsBack newRoot s.rootSlot = false
  votes_valid : checkNewVotes newRoot none newState = .ok ()
  merge_valid : mergeCheck (s.votes.drop (currentVoteStateIndex s.votes newRoot)) newState = .ok ()

/-- Inversion of `process_new_vote_state`: an accepted update passed every check and
installed the proposed votes and root. -/
theorem processNewVoteState_ok {s s' : VoteState} {newState : List Lockout}
    {newRoot : Option Nat} {timestamp : Option Int} {epoch : Nat}
    (h : processNewVoteState s newState newRoot timestamp epoch = .ok s') :
    NewStateAccepted s newState newRoot ∧ s'.votes = newState ∧ s'.rootSlot = newRoot := by
  simp only [processNewVoteState, bind_eq_ok, failIf_eq_ok, mapError_eq_ok, pure_eq_ok] at h
  obtain ⟨-, hEmpty, -, hLen, -, hRoot, _, hVotes, _, hMerge, stamped, -, rfl⟩ := h
  refine ⟨⟨?_, by omega, by simpa using hRoot, hVotes, hMerge⟩, rfl, rfl⟩
  simpa using hEmpty

/-- Without a timestamp nothing but the checks can reject an update. -/
theorem processNewVoteState_of_accepted {s : VoteState} {newState : List Lockout}
    {newRoot : Option Nat} (h : NewStateAccepted s newState newRoot) (epoch : Nat) :
    ∃ s', processNewVoteState s newState newRoot none epoch = .ok s' ∧
      s'.votes = newState ∧ s'.rootSlot = newRoot := by
  have hEmpty : newState.isEmpty = false := by simpa using h.ne_nil
  have hLen : ¬maxLockoutHistory < newState.length := by have := h.length_le; omega
  cases hp : processNewVoteState s newState newRoot none epoch with
  | ok s' => exact ⟨s', rfl, (processNewVoteState_ok hp).2⟩
  | error e =>
      simp [processNewVoteState, failIf_of_not, hEmpty, hLen, h.no_rollback, h.votes_valid,
        h.merge_valid, processNewTimestamp] at hp

/-- An accepted vote-state update is an accepted `process_new_vote_state` of the checked
update. -/
theorem doProcessVoteStateUpdate_ok {s s' : VoteState} {slotHashes : List SlotHash}
    {epoch : Nat} {update : VoteStateUpdate} {isRootFixEnabled : Bool}
    (h : doProcessVoteStateUpdate s slotHashes epoch update isRootFixEnabled = .ok s') :
    ∃ checked, checkUpdateVoteStateSlotsAreValid s update slotHashes isRootFixEnabled =
        .ok checked ∧
      processNewVoteState s checked.lockouts checked.root checked.timestamp epoch = .ok s' := by
  simpa [doProcessVoteStateUpdate] using h

/-- Inversion of `check_update_vote_state_slots_are_valid`: an accepted update has a newest
vote above the current tower and not older than the slot history, its root was checked, the
slot-hash walk matched every proposed slot, and the update is returned with the checked root
and without the filtered slots. -/
theorem checkUpdateVoteStateSlotsAreValid_ok {s : VoteState} {update checked : VoteStateUpdate}
    {slotHashes : List SlotHash} {isRootFixEnabled : Bool}
    (h : checkUpdateVoteStateSlotsAreValid s update slotHashes isRootFixEnabled = .ok checked) :
    ∃ last earliest root k shIndex toFilter,
      update.lockouts.getLast? = some last ∧ ¬s.lastVotedSlot.any (last.slot ≤ ·) ∧
      slotHashes.getLast?.map Prod.fst = some earliest ∧ earliest ≤ last.slot ∧
      checkedRoot s update earliest isRootFixEnabled = .ok root ∧
      updateWalk s update.lockouts slotHashes earliest isRootFixEnabled root 0 slotHashes.length
        [] = .ok (k, shIndex, toFilter) ∧ k = update.lockouts.length ∧
      slotHashes[shIndex]? = some (last.slot, update.hash) ∧
      checked = { update with root := root, lockouts := retainUnfiltered update.lockouts 0 toFilter } := by
  unfold checkUpdateVoteStateSlotsAreValid at h
  cases hLast : update.lockouts.getLast? with
  | none => simp [hLast] at h
  | some last =>
    cases hSH : slotHashes.getLast? with
    | none => simp [hLast, hSH, bind_eq_ok] at h
    | some p =>
      obtain ⟨earliest, hash⟩ := p
      simp only [hLast, hSH, bind_eq_ok, failIf_eq_ok] at h
      obtain ⟨-, hNew, -, hOld, root, hRoot, ⟨k, shIndex, toFilter⟩, hWalk, -, hk, hRest⟩ := h
      cases hEntry : slotHashes[shIndex]? with
      | none => simp [hEntry] at hRest
      | some entry =>
          obtain ⟨slot, entryHash⟩ := entry
          simp only [hEntry, bind_eq_ok, failIf_eq_ok, pure_eq_ok, not_not] at hRest hk
          obtain ⟨-, rfl, -, rfl, rfl⟩ := hRest
          exact ⟨last, earliest, root, k, shIndex, toFilter, rfl, hNew, rfl, by omega, hRoot, hWalk,
            hk, hEntry, rfl⟩

/-- An accepted vote applies `process_next_vote_slot` to its slots that are recent enough
to be in the slot history. -/
theorem processVote_ok {s s' : VoteState} {vote : Vote} {slotHashes : List SlotHash}
    {epoch : Nat} (h : processVote s vote slotHashes epoch = .ok s') :
    ∃ voteSlots : List Nat, s' = voteSlots.foldl (fun s slot => s.processNextVoteSlot slot epoch) s := by
  simp only [processVote, bind_eq_ok, failIf_eq_ok, pure_eq_ok] at h
  obtain ⟨-, -, -, -, -, -, rfl⟩ := h
  exact ⟨_, rfl⟩

/-- A vote for one slot, checked against a history holding just that slot, is refused only
when the slot is not above the last vote. -/
theorem processVoteUnchecked_singleton (s : VoteState) (slot : Nat) (hash : Hash)
    (timestamp : Option Int) :
    processVoteUnchecked s ⟨[slot], hash, timestamp⟩ =
      if s.lastVotedSlot.any (slot ≤ ·) then .error .voteTooOld
      else .ok (s.processNextVoteSlot slot s.currentEpoch) := by
  by_cases hOld : s.lastVotedSlot.any (slot ≤ ·)
  · have hWalk : checkSlotsWalk s.lastVotedSlot [slot] [(slot, hash)] 0 1 = (1, 1) := by
      rw [checkSlotsWalk, dif_pos (by simp), if_pos (by simp), if_pos (by simpa using hOld),
        checkSlotsWalk, dif_neg (by simp)]
    simp [processVoteUnchecked, processVote, checkSlotsAreValid, failIf, hWalk, hOld]
  · have hWalk : checkSlotsWalk s.lastVotedSlot [slot] [(slot, hash)] 0 1 = (1, 0) := by
      rw [checkSlotsWalk, dif_pos (by simp), if_pos (by simp), if_neg (by simpa using hOld),
        if_neg (by simp), checkSlotsWalk, dif_neg (by simp)]
    simp [processVoteUnchecked, processVote, checkSlotsAreValid, failIf, hWalk, hOld]

/-- In place, a one-slot vote is exactly `process_next_vote_slot` in the current epoch: a
refused vote is one that `process_next_vote_slot` ignores. -/
theorem processVoteUncheckedInPlace_singleton (s : VoteState) (slot : Nat) (hash : Hash)
    (timestamp : Option Int) :
    processVoteUncheckedInPlace s ⟨[slot], hash, timestamp⟩ =
      s.processNextVoteSlot slot s.currentEpoch := by
  rw [processVoteUncheckedInPlace, processVoteUnchecked_singleton]
  by_cases hOld : s.lastVotedSlot.any (slot ≤ ·)
  · simp [hOld, VoteState.processNextVoteSlot]
  · simp [hOld]

theorem processSlotVoteUnchecked_eq (s : VoteState) (slot : Nat) :
    processSlotVoteUnchecked s slot = s.processNextVoteSlot slot s.currentEpoch :=
  processVoteUncheckedInPlace_singleton s slot Hash.default none

end PutValidator.Vote
