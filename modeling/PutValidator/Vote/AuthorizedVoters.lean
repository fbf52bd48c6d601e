import Mathlib
import PutValidator.Lib.EState
import PutValidator.Lib.List
import PutValidator.Lib.Ring
import PutValidator.Lib.SortedMap
import PutValidator.Sdk.Errors
import PutValidator.Sdk.Primitives
import PutValidator.Vote.State

/-! Who may vote for a vote account, epoch by epoch (`sdk/program/src/vote/authorized_voters.rs`
and the authorized-voter methods of `VoteState`). `AuthorizedVoters` maps epochs to keys; the
key of an epoch is the one of the greatest epoch at or below it. It is filled lazily:
`get_and_update_authorized_voter` caches the current epoch's key and drops every older entry.
`set_new_authorized_voter` schedules a key from a target epoch on, and records the key it
replaces, with the epochs it held, in `prior_voters`, a ring of `MAX_ITEMS` entries.

The methods take `&mut self` and return a `Result`; they are computations in `EStateM`, so that
a method that returns early keeps what it wrote before, and an `assert!` that fails is the error
`panic`. -/
namespace PutValidator.Vote

open Lib Lib.EState

/-- `VoteError` as an `InstructionError`: `Custom` with the variant's number. -/
def VoteError.toInstructionError (e : VoteError) : InstructionError := .custom e.ctorIdx.toUInt32

/-- How a method ends early: with the `Err` it returns, or in a panic. -/
inductive Failure
  | error (e : InstructionError)
  | panic
deriving DecidableEq, Repr

/-! ### `CircBuf` -/

/-- `MAX_ITEMS`. -/
def maxItems : Nat := 32

/-- `CircBuf`: `MAX_ITEMS` items and the index of the newest. -/
structure CircBuf (α : Type) where
  buf : List α
  idx : Nat
  isEmpty : Bool
  buf_length : buf.length = maxItems
  idx_lt : idx < maxItems

namespace CircBuf

variable {α : Type}

/-- `CircBuf::default`, every item `I::default()`. -/
def default (d : α) : CircBuf α :=
  ⟨List.replicate maxItems d, maxItems - 1, true, List.length_replicate, by decide⟩

theorem idx_lt_length (cb : CircBuf α) : cb.idx < cb.buf.length := by
  rw [cb.buf_length]
  exact cb.idx_lt

/-- `append`. The index moves on around the ring; `checked_add` and `checked_rem` cannot fail
there. -/
def append (cb : CircBuf α) (item : α) : CircBuf α :=
  let idx := (cb.idx + 1) % maxItems
  ⟨cb.buf.set idx item, idx, false, by rw [List.length_set, cb.buf_length],
    Nat.mod_lt _ (by decide)⟩

def last (cb : CircBuf α) : Option α :=
  if !cb.isEmpty then some (cb.buf.get ⟨cb.idx, cb.idx_lt_length⟩) else none

/-- The items in the ring's order, oldest first: from the slot after the newest on. -/
def items (cb : CircBuf α) : List α := cb.buf.rotate (cb.idx + 1)

end CircBuf

/-! ### `AuthorizedVoters` -/

/-- `AuthorizedVoters`, its `BTreeMap` from epochs to keys. -/
structure AuthorizedVoters where
  authorizedVoters : SortedMap Nat Pubkey

namespace AuthorizedVoters

def new (epoch : Nat) (pubkey : Pubkey) : AuthorizedVoters := ⟨SortedMap.empty.insert epoch pubkey⟩

/-- The key of `epoch` and whether the map has an entry for it. -/
def getOrCalculateAuthorizedVoterForEpoch (av : AuthorizedVoters) (epoch : Nat) :
    Option (Pubkey × Bool) :=
  match av.authorizedVoters.get? epoch with
  | none =>
      -- no key set for this epoch: it is the one of the latest epoch before it
      ((av.authorizedVoters.entries.filter fun e => e.1 < epoch).getLast?).map fun e => (e.2, false)
  | some pubkey => some (pubkey, true)

def getAndCacheAuthorizedVoterForEpoch (av : AuthorizedVoters) (epoch : Nat) :
    Option Pubkey × AuthorizedVoters :=
  match av.getOrCalculateAuthorizedVoterForEpoch epoch with
  | some (pubkey, existed) =>
      (some pubkey, if !existed then ⟨av.authorizedVoters.insert epoch pubkey⟩ else av)
  | none => (none, av)

def insert (av : AuthorizedVoters) (epoch : Nat) (authorizedVoter : Pubkey) : AuthorizedVoters :=
  ⟨av.authorizedVoters.insert epoch authorizedVoter⟩

/-- `purge_authorized_voters`: drop the entries of the epochs before `currentEpoch`; `none` is
the failed `assert!` that something is left. -/
def purgeAuthorizedVoters (av : AuthorizedVoters) (currentEpoch : Nat) :
    Option AuthorizedVoters :=
  let expiredKeys :=
    (av.authorizedVoters.entries.filter fun e => e.1 < currentEpoch).map Prod.fst
  let av : AuthorizedVoters := ⟨expiredKeys.foldl SortedMap.erase av.authorizedVoters⟩
  if av.authorizedVoters.entries.isEmpty then none else some av

def contains (av : AuthorizedVoters) (epoch : Nat) : Bool :=
  (av.authorizedVoters.get? epoch).isSome

def last (av : AuthorizedVoters) : Option (Nat × Pubkey) := av.authorizedVoters.entries.getLast?

end AuthorizedVoters

/-! ### The methods of `VoteState` -/

/-- The fields of `VoteState` that the authorized-voter methods read. -/
structure VoterState where
  authorizedVoters : AuthorizedVoters
  priorVoters : CircBuf (Pubkey × Nat × Nat)

namespace VoterState

/-- `VoteState::new`, for the voter `authorizedVoter` from `epoch`. -/
def new (epoch : Nat) (authorizedVoter : Pubkey) : VoterState :=
  ⟨.new epoch authorizedVoter, .default (Pubkey.default, 0, 0)⟩

def getAndUpdateAuthorizedVoter (currentEpoch : Nat) : EStateM Failure VoterState Pubkey := do
  let s ← get
  let (pubkey, authorizedVoters) :=
    s.authorizedVoters.getAndCacheAuthorizedVoterForEpoch currentEpoch
  set { s with authorizedVoters }
  let some pubkey := pubkey | throw (.error .invalidAccountData)
  let some authorizedVoters := authorizedVoters.purgeAuthorizedVoters currentEpoch
    | throw .panic
  set { s with authorizedVoters }
  pure pubkey

def setNewAuthorizedVoter (authorizedPubkey : Pubkey) (currentEpoch targetEpoch : Nat)
    (verify : Pubkey → Except InstructionError Unit) : EStateM Failure VoterState Unit := do
  let epochAuthorizedVoter ← getAndUpdateAuthorizedVoter currentEpoch
  liftExcept ((verify epochAuthorizedVoter).mapError Failure.error)
  let s ← get
  if s.authorizedVoters.contains targetEpoch then
    throw (.error VoteError.tooSoonToReauthorize.toInstructionError)
  let some (latestEpoch, latestAuthorizedPubkey) := s.authorizedVoters.last
    | throw (.error .invalidAccountData)
  -- a new key closes the range of the one it replaces in `prior_voters`
  if latestAuthorizedPubkey ≠ authorizedPubkey then
    let epochOfLastAuthorizedSwitch := (s.priorVoters.last.map fun range => range.2.2).getD 0
    if ¬targetEpoch > latestEpoch then throw .panic
    set { s with
      priorVoters :=
        s.priorVoters.append (latestAuthorizedPubkey, epochOfLastAuthorizedSwitch, targetEpoch) }
  modify fun s => { s with authorizedVoters := s.authorizedVoters.insert targetEpoch authorizedPubkey }

end VoterState

/-- A call of the authorized-voter methods, with the signer check `verify` of a
`set_new_authorized_voter`. -/
inductive Call
  | setNewAuthorizedVoter (authorizedPubkey : Pubkey) (currentEpoch targetEpoch : Nat)
      (verify : Pubkey → Except InstructionError Unit)
  | getAndUpdateAuthorizedVoter (currentEpoch : Nat)

namespace Call

/-- The call; a `get_and_update_authorized_voter` returns the key. -/
def run : Call → EStateM Failure VoterState (Option Pubkey)
  | .setNewAuthorizedVoter authorizedPubkey currentEpoch targetEpoch verify => do
      VoterState.setNewAuthorizedVoter authorizedPubkey currentEpoch targetEpoch verify
      pure none
  | .getAndUpdateAuthorizedVoter currentEpoch =>
      some <$> VoterState.getAndUpdateAuthorizedVoter currentEpoch

def currentEpoch : Call → Nat
  | .setNewAuthorizedVoter _ currentEpoch _ _ | .getAndUpdateAuthorizedVoter currentEpoch =>
      currentEpoch

def targetEpoch? : Call → Option Nat
  | .setNewAuthorizedVoter _ _ targetEpoch _ => some targetEpoch
  | .getAndUpdateAuthorizedVoter _ => none

end Call

/-! ### The ring of prior voters -/

/-- The prior voters form a chain: in the ring's order, oldest first, each entry starts at the
epoch the one before it ended, and the next entry, which starts where the newest recorded one
ended, or at 0, starts where the newest slot of the ring ends. -/
structure PriorVotersChained (cb : CircBuf (Pubkey × Nat × Nat)) : Prop where
  chain : cb.items.IsChain fun a b => b.2.1 = a.2.2
  next_start : (cb.last.map fun range => range.2.2).getD 0 = (cb.buf.get ⟨cb.idx, cb.idx_lt_length⟩).2.2

namespace CircBuf

variable {α : Type}

/-- The newest item is the last in the ring's order. -/
theorem getLast?_items (cb : CircBuf α) :
    cb.items.getLast? = some (cb.buf.get ⟨cb.idx, cb.idx_lt_length⟩) := by
  unfold items
  rw [List.rotate_eq_drop_append_take (Nat.succ_le_of_lt cb.idx_lt_length), List.getLast?_append,
    List.take_add_one, List.getLast?_append]
  simp [List.getElem?_eq_getElem cb.idx_lt_length]

/-- Appending drops the oldest item of the ring's order and adds the new one as the newest. -/
theorem items_append (cb : CircBuf α) (item : α) :
    (cb.append item).items = cb.items.tail ++ [item] := by
  have hLt : (cb.idx + 1) % maxItems < cb.buf.length := by
    rw [cb.buf_length]
    exact Nat.mod_lt _ (by decide)
  have hRot : cb.buf.rotate (cb.idx + 1) = cb.buf.rotate ((cb.idx + 1) % maxItems) := by
    rw [← cb.buf_length, List.rotate_mod]
  simp only [items, append]
  rw [Lib.Ring.rotate_set_succ hLt, hRot]

end CircBuf

theorem PriorVotersChained.default : PriorVotersChained (.default (Pubkey.default, 0, 0)) where
  chain := by
    unfold CircBuf.items CircBuf.default
    rw [List.rotate_replicate]
    exact List.isChain_replicate_of_rel _ rfl
  next_start := by
    simp [CircBuf.last, CircBuf.default]

/-- Appending an entry that starts where the newest recorded one ended keeps the chain. -/
theorem PriorVotersChained.append {cb : CircBuf (Pubkey × Nat × Nat)} (h : PriorVotersChained cb)
    {range : Pubkey × Nat × Nat} (hStart : range.2.1 = (cb.last.map fun range => range.2.2).getD 0) :
    PriorVotersChained (cb.append range) where
  chain := by
    rw [CircBuf.items_append]
    refine Lib.List.isChain_append_singleton h.chain.tail fun a ha => ?_
    -- the newest item is still the last of the ring's order once the oldest has left
    have hLen : cb.items.length = maxItems := by simp [CircBuf.items, cb.buf_length]
    rw [List.getLast?_tail, if_neg (by rw [hLen]; decide), cb.getLast?_items, Option.mem_def,
      Option.some.injEq] at ha
    rw [← ha, hStart, h.next_start]
  next_start := by
    simp [CircBuf.last, CircBuf.append]

/-! ### What the methods compute -/

namespace AuthorizedVoters

/-- The key of `epoch`: the one of the greatest epoch at or below it. -/
def voterAt (av : AuthorizedVoters) (epoch : Nat) : Option Pubkey :=
  (av.authorizedVoters.floor? epoch).map Prod.snd

/-- `get_or_calculate_authorized_voter_for_epoch` finds the entry at or below the epoch. -/
theorem getOrCalculateAuthorizedVoterForEpoch_eq (av : AuthorizedVoters) (epoch : Nat) :
    av.getOrCalculateAuthorizedVoterForEpoch epoch =
      (av.authorizedVoters.floor? epoch).map fun e => (e.2, decide (e.1 = epoch)) := by
  unfold getOrCalculateAuthorizedVoterForEpoch
  cases hGet : av.authorizedVoters.get? epoch with
  | some pubkey =>
      rw [SortedMap.floor?_of_get? hGet]
      simp
  | none =>
      -- with no entry at `epoch`, the entries below it are those at or below it
      have hNe : ∀ e ∈ av.authorizedVoters.entries, e.1 ≠ epoch := by
        intro e he hEq
        have hMem := (SortedMap.mem_entries_iff av.authorizedVoters).mp he
        rw [hEq, hGet] at hMem
        cases hMem
      have hFilter : (av.authorizedVoters.entries.filter fun e => e.1 < epoch) =
          av.authorizedVoters.entries.filter fun e => e.1 ≤ epoch := by
        apply List.filter_congr
        intro e he
        simp only [decide_eq_decide]
        exact ⟨Nat.le_of_lt, fun hLe => Nat.lt_of_le_of_ne hLe (hNe e he)⟩
      unfold SortedMap.floor?
      rw [hFilter]
      cases hLast : (av.authorizedVoters.entries.filter fun e => e.1 ≤ epoch).getLast? with
      | none => rfl
      | some e =>
          have hMem := List.mem_of_mem_filter (List.mem_of_getLast? hLast)
          simp [hNe e hMem]

/-- Purging at an epoch with an entry drops exactly the entries before it. -/
theorem purgeAuthorizedVoters_eq {av : AuthorizedVoters} {c : Nat} {v : Pubkey}
    (hc : av.authorizedVoters.get? c = some v) :
    ∃ av', av.purgeAuthorizedVoters c = some av' ∧
      ∀ k, av'.authorizedVoters.get? k = if k < c then none else av.authorizedVoters.get? k := by
  have hGet : ∀ k, (((av.authorizedVoters.entries.filter fun e => e.1 < c).map Prod.fst).foldl
      SortedMap.erase av.authorizedVoters).get? k =
        if k < c then none else av.authorizedVoters.get? k := by
    intro k
    rw [SortedMap.get?_foldl_erase]
    by_cases hk : k < c
    · rw [if_pos hk]
      split_ifs with hMem
      · rfl
      · -- a key below `c` that was not expired is no key at all
        cases hGetK : av.authorizedVoters.get? k with
        | none => rfl
        | some w =>
            refine absurd (List.mem_map.mpr ⟨(k, w), List.mem_filter.mpr
              ⟨(SortedMap.mem_entries_iff _).mpr hGetK, by simpa using hk⟩, rfl⟩) hMem
    · rw [if_neg hk, if_neg]
      intro hMem
      obtain ⟨e, he, rfl⟩ := List.mem_map.mp hMem
      exact hk (by simpa using (List.mem_filter.mp he).2)
  refine ⟨_, ?_, hGet⟩
  -- the entry at `c` is left, so the `assert!` holds
  have hLeft := hGet c
  rw [if_neg (Nat.lt_irrefl c), hc] at hLeft
  unfold purgeAuthorizedVoters
  dsimp only
  rw [if_neg]
  intro hEmpty
  rw [List.isEmpty_iff] at hEmpty
  rw [SortedMap.get?, hEmpty] at hLeft
  cases hLeft

end AuthorizedVoters

namespace VoterState

open AuthorizedVoters

/-- `get_and_update_authorized_voter` at an epoch with an entry at or below it returns that
entry's key, caches it at the epoch and drops the entries before the epoch. -/
theorem getAndUpdateAuthorizedVoter_run {s : VoterState} {c k : Nat} {v : Pubkey}
    (hFloor : s.authorizedVoters.authorizedVoters.floor? c = some (k, v)) :
    ∃ av : AuthorizedVoters,
      (getAndUpdateAuthorizedVoter c).run s = .ok v { s with authorizedVoters := av } ∧
        ∀ k', av.authorizedVoters.get? k' =
          if k' < c then none else if k' = c then some v
          else s.authorizedVoters.authorizedVoters.get? k' := by
  obtain ⟨av₁, hCache, hAv₁⟩ : ∃ av₁ : AuthorizedVoters,
      s.authorizedVoters.getAndCacheAuthorizedVoterForEpoch c = (some v, av₁) ∧
        ∀ k', av₁.authorizedVoters.get? k' =
          if k' = c then some v else s.authorizedVoters.authorizedVoters.get? k' := by
    unfold getAndCacheAuthorizedVoterForEpoch
    rw [getOrCalculateAuthorizedVoterForEpoch_eq, hFloor]
    by_cases hk : k = c
    · -- the epoch has its entry already
      subst hk
      refine ⟨s.authorizedVoters, by simp, fun k' => ?_⟩
      split_ifs with hEq
      · rw [hEq]
        exact (SortedMap.floor?_eq_some_iff.mp hFloor).1
      · rfl
    · refine ⟨⟨s.authorizedVoters.authorizedVoters.insert c v⟩, by simp [hk], fun k' => ?_⟩
      rw [SortedMap.get?_insert]
  obtain ⟨av₂, hPurge, hAv₂⟩ :=
    purgeAuthorizedVoters_eq (v := v) (by rw [hAv₁, if_pos rfl])
  refine ⟨av₂, ?_, fun k' => by rw [hAv₂, hAv₁]⟩
  simp only [getAndUpdateAuthorizedVoter, run_get_bind, hCache, hPurge]
  rfl

end VoterState

/-! ### The voters a sequence of calls schedules -/

/-- The voters the calls have scheduled: the first one, and the switch `(target epoch, key)` of
each `set_new_authorized_voter` that returned, in order. -/
structure Schedule where
  initial : Pubkey
  switches : List (Nat × Pubkey)

namespace Schedule

/-- The key of the last switch at or before `epoch`, or the first voter. -/
def voterAt (sched : Schedule) (epoch : Nat) : Pubkey :=
  (((sched.switches.filter fun sw => sw.1 ≤ epoch).getLast?).map Prod.snd).getD sched.initial

/-- The schedule after a call and what it returned. -/
def after (sched : Schedule) : Call → EStateM.Result Failure VoterState (Option Pubkey) → Schedule
  | .setNewAuthorizedVoter authorizedPubkey _ targetEpoch _, .ok _ _ =>
      ⟨sched.initial, sched.switches ++ [(targetEpoch, authorizedPubkey)]⟩
  | _, _ => sched

theorem voterAt_push (sched : Schedule) (targetEpoch : Nat) (pubkey : Pubkey) (epoch : Nat) :
    voterAt ⟨sched.initial, sched.switches ++ [(targetEpoch, pubkey)]⟩ epoch =
      if targetEpoch ≤ epoch then pubkey else sched.voterAt epoch := by
  unfold voterAt
  rw [List.filter_append, List.filter_singleton]
  split_ifs with h
  · simp [h]
  · simp [h]

end Schedule

/-- The state tracks the schedule from the epoch `lastCurrent` of the last call on: it has an
entry at or below that epoch, its key of every later epoch is the schedule's, and every entry is
at or below that epoch or the last target epoch. -/
structure Tracks (sched : Schedule) (lastCurrent lastTarget : Nat) (s : VoterState) : Prop where
  floor_isSome : (s.authorizedVoters.authorizedVoters.floor? lastCurrent).isSome
  voterAt_eq : ∀ e, lastCurrent ≤ e → s.authorizedVoters.voterAt e = some (sched.voterAt e)
  key_le : ∀ k v, s.authorizedVoters.authorizedVoters.get? k = some v →
    k ≤ lastCurrent ∨ k ≤ lastTarget
  priorVoters : PriorVotersChained s.priorVoters

namespace Tracks

variable {sched : Schedule} {lastCurrent lastTarget : Nat} {s : VoterState}

theorem new (epoch : Nat) (authorizedVoter : Pubkey) :
    Tracks ⟨authorizedVoter, []⟩ epoch epoch (VoterState.new epoch authorizedVoter) where
  floor_isSome := by
    rw [SortedMap.floor?_of_get? (v := authorizedVoter) (by simp [VoterState.new, AuthorizedVoters.new])]
    rfl
  voterAt_eq e he := by
    have hFloor : (SortedMap.empty.insert epoch authorizedVoter).floor? e =
        some (epoch, authorizedVoter) := by
      rw [SortedMap.floor?_insert_of_forall_lt _ (by simp) e, if_pos he]
    simp [VoterState.new, AuthorizedVoters.new, AuthorizedVoters.voterAt, hFloor, Schedule.voterAt]
  key_le k v h := by
    simp only [VoterState.new, AuthorizedVoters.new, SortedMap.get?_insert,
      SortedMap.get?_empty] at h
    split_ifs at h with hk
    · exact Or.inl (le_of_eq hk)
  priorVoters := PriorVotersChained.default

/-- A later target epoch bounds the entries as well. -/
theorem mono_target (h : Tracks sched lastCurrent lastTarget s) {t : Nat} (ht : lastTarget ≤ t) :
    Tracks sched lastCurrent t s where
  floor_isSome := h.floor_isSome
  voterAt_eq := h.voterAt_eq
  key_le k v hk := (h.key_le k v hk).imp id fun hLe => hLe.trans ht
  priorVoters := h.priorVoters

/-- Below a target epoch past the current one and every earlier target, with no entry of its
own, every entry lies. -/
theorem key_lt (h : Tracks sched lastCurrent lastTarget s) {t : Nat} (hCur : lastCurrent < t)
    (hTarget : lastTarget ≤ t) (hNot : s.authorizedVoters.contains t = false) {k : Nat}
    {v : Pubkey} (hk : s.authorizedVoters.authorizedVoters.get? k = some v) : k < t := by
  have hNe : k ≠ t := by
    rintro rfl
    simp [AuthorizedVoters.contains, hk] at hNot
  rcases h.key_le k v hk with hLe | hLe <;> omega

end Tracks

namespace VoterState

/-- `get_and_update_authorized_voter` at an epoch from the last call's on returns the
schedule's voter there, tracks the schedule from that epoch, and keeps the prior voters and the
key of every epoch from it on. -/
theorem getAndUpdateAuthorizedVoter_tracks {sched : Schedule} {lastCurrent lastTarget : Nat}
    {s : VoterState} (h : Tracks sched lastCurrent lastTarget s) {c : Nat}
    (hc : lastCurrent ≤ c) :
    ∃ s', (getAndUpdateAuthorizedVoter c).run s = .ok (sched.voterAt c) s' ∧
      Tracks sched c lastTarget s' ∧ s'.priorVoters = s.priorVoters ∧
      (∀ e, c ≤ e → s'.authorizedVoters.voterAt e = s.authorizedVoters.voterAt e) ∧
      ∀ k, c < k →
        s'.authorizedVoters.authorizedVoters.get? k = s.authorizedVoters.authorizedVoters.get? k := by
  obtain ⟨⟨k, v⟩, hFloor⟩ := Option.isSome_iff_exists.mp
    (SortedMap.floor?_isSome_of_le h.floor_isSome hc)
  -- the key found at `c` is the schedule's
  have hv : v = sched.voterAt c := by
    have := h.voterAt_eq c hc
    rw [AuthorizedVoters.voterAt, hFloor, Option.map_some, Option.some.injEq] at this
    exact this
  obtain ⟨av, hRun, hGet⟩ := getAndUpdateAuthorizedVoter_run hFloor
  have hKeep : ∀ e, c ≤ e → av.voterAt e = s.authorizedVoters.voterAt e :=
    fun e hce => SortedMap.floor?_map_snd_of_cache hFloor hGet hce
  refine ⟨{ s with authorizedVoters := av }, by rw [← hv]; exact hRun,
    ⟨?_, fun e hce => ?_, fun k' v' hk' => ?_, h.priorVoters⟩, rfl, hKeep, fun k' hk' => ?_⟩
  · rw [SortedMap.floor?_of_get? (v := v) (by rw [hGet, if_neg (Nat.lt_irrefl c), if_pos rfl])]
    rfl
  · rw [hKeep e hce]
    exact h.voterAt_eq e (hc.trans hce)
  · rw [hGet] at hk'
    split_ifs at hk' with hLt hEq
    · exact Or.inl (le_of_eq hEq)
    · exact (h.key_le k' v' hk').imp (fun hLe => hLe.trans hc) id
  · change av.authorizedVoters.get? k' = _
    rw [hGet, if_neg (Nat.not_lt_of_gt hk'), if_neg (Nat.ne_of_gt hk')]

end VoterState

namespace AuthorizedVoters

/-- A map with an entry has a newest one, which is an entry. -/
theorem last_eq_some {av : AuthorizedVoters} {k : Nat} {v : Pubkey}
    (h : av.authorizedVoters.get? k = some v) :
    ∃ lk lpk, av.last = some (lk, lpk) ∧ av.authorizedVoters.get? lk = some lpk := by
  cases hLast : av.authorizedVoters.entries.getLast? with
  | none =>
      rw [List.getLast?_eq_none_iff] at hLast
      simp [SortedMap.get?, hLast] at h
  | some e =>
      exact ⟨e.1, e.2, hLast,
        (SortedMap.mem_entries_iff _).mp (List.mem_of_getLast? hLast)⟩

/-- Scheduling a key at an epoch above every entry gives it every epoch from there on. -/
theorem voterAt_insert_of_forall_lt {av : AuthorizedVoters} {t : Nat} (pubkey : Pubkey)
    (hAbove : ∀ k v, av.authorizedVoters.get? k = some v → k < t) (e : Nat) :
    (av.insert t pubkey).voterAt e = if t ≤ e then some pubkey else av.voterAt e := by
  unfold voterAt insert
  rw [SortedMap.floor?_insert_of_forall_lt pubkey hAbove e]
  split_ifs <;> rfl

end AuthorizedVoters

namespace Tracks

variable {sched : Schedule} {lastCurrent lastTarget : Nat} {s : VoterState}

/-- Scheduling a key at a target epoch past the current one and above every entry makes the
state track the schedule with that switch added. -/
theorem insert (h : Tracks sched lastCurrent lastTarget s) {t : Nat} (hct : lastCurrent < t)
    (hAbove : ∀ k v, s.authorizedVoters.authorizedVoters.get? k = some v → k < t)
    (pubkey : Pubkey) {priorVoters : CircBuf (Pubkey × Nat × Nat)}
    (hPrior : PriorVotersChained priorVoters) :
    Tracks ⟨sched.initial, sched.switches ++ [(t, pubkey)]⟩ lastCurrent t
      ⟨s.authorizedVoters.insert t pubkey, priorVoters⟩ where
  floor_isSome := by
    obtain ⟨⟨k, v⟩, hFloor⟩ := Option.isSome_iff_exists.mp h.floor_isSome
    change ((s.authorizedVoters.insert t pubkey).authorizedVoters.floor? lastCurrent).isSome
    unfold AuthorizedVoters.insert
    rw [SortedMap.floor?_insert_of_forall_lt pubkey hAbove, if_neg (Nat.not_le_of_gt hct), hFloor]
    rfl
  voterAt_eq e he := by
    change (s.authorizedVoters.insert t pubkey).voterAt e = _
    rw [AuthorizedVoters.voterAt_insert_of_forall_lt pubkey hAbove, Schedule.voterAt_push]
    split_ifs
    · rfl
    · exact h.voterAt_eq e he
  key_le k v hk := by
    change (s.authorizedVoters.authorizedVoters.insert t pubkey).get? k = some v at hk
    rw [SortedMap.get?_insert] at hk
    split_ifs at hk with hEq
    · exact Or.inr (le_of_eq hEq)
    · exact Or.inr (le_of_lt (hAbove k v hk))
  priorVoters := hPrior

end Tracks

namespace VoterState

/-- `set_new_authorized_voter` from a state that tracks the schedule, at a current epoch from the
last call's on and a target epoch past it and every earlier target: no `assert!` fails; with the
check passed and an entry at the target epoch it fails with `TooSoonToReauthorize`, keeping the
prior voters and every epoch's key from the current one on; and the state it leaves tracks the
schedule, with the new switch if it returned. -/
theorem setNewAuthorizedVoter_tracks {sched : Schedule} {lastCurrent lastTarget : Nat}
    {s : VoterState} (h : Tracks sched lastCurrent lastTarget s) {pubkey : Pubkey} {c t : Nat}
    {verify : Pubkey → Except InstructionError Unit} (hc : lastCurrent ≤ c) (hct : c < t)
    (ht : lastTarget ≤ t) :
    (∀ s', (setNewAuthorizedVoter pubkey c t verify).run s ≠ .error .panic s') ∧
    (verify (sched.voterAt c) = .ok () → s.authorizedVoters.contains t = true →
      ∃ s', (setNewAuthorizedVoter pubkey c t verify).run s =
          .error (.error VoteError.tooSoonToReauthorize.toInstructionError) s' ∧
        s'.priorVoters = s.priorVoters ∧
        ∀ e, c ≤ e → s'.authorizedVoters.voterAt e = s.authorizedVoters.voterAt e) ∧
    (∀ s', (setNewAuthorizedVoter pubkey c t verify).run s = .ok () s' →
      Tracks ⟨sched.initial, sched.switches ++ [(t, pubkey)]⟩ c t s') ∧
    (∀ e s', (setNewAuthorizedVoter pubkey c t verify).run s = .error e s' →
      Tracks sched c t s') := by
  obtain ⟨s₁, hRun₁, h₁, hPrior₁, hKeep₁, hAbove₁⟩ := getAndUpdateAuthorizedVoter_tracks h hc
  have hTrack₁ : Tracks sched c t s₁ := h₁.mono_target ht
  have hContains : s₁.authorizedVoters.contains t = s.authorizedVoters.contains t := by
    unfold AuthorizedVoters.contains
    rw [hAbove₁ t hct]
  cases hVerify : verify (sched.voterAt c) with
  | error err =>
      -- the signer check fails: nothing more is written
      have hr : (setNewAuthorizedVoter pubkey c t verify).run s = .error (.error err) s₁ := by
        simp only [setNewAuthorizedVoter, run_bind_of_ok hRun₁, hVerify]
        rfl
      refine ⟨fun s' hPanic => ?_, nofun, fun s' hOk => ?_, fun e s' hErr => ?_⟩
      · rw [hr] at hPanic
        cases hPanic
      · rw [hr] at hOk
        cases hOk
      · rw [hr] at hErr
        cases hErr
        exact hTrack₁
  | ok u =>
      cases hCont : s₁.authorizedVoters.contains t with
      | true =>
          have hr : (setNewAuthorizedVoter pubkey c t verify).run s =
              .error (.error VoteError.tooSoonToReauthorize.toInstructionError) s₁ := by
            simp only [setNewAuthorizedVoter, run_bind_of_ok hRun₁, hVerify, Except.mapError,
              run_liftExcept_ok_bind, run_get_bind, hCont]
            rfl
          refine ⟨fun s' hPanic => ?_, fun _ _ => ⟨s₁, hr, hPrior₁, hKeep₁⟩, fun s' hOk => ?_,
            fun e s' hErr => ?_⟩
          · rw [hr] at hPanic
            cases hPanic
          · rw [hr] at hOk
            cases hOk
          · rw [hr] at hErr
            cases hErr
            exact hTrack₁
      | false =>
          -- every entry lies below the target epoch, the newest one too
          have hBelow : ∀ k v, s₁.authorizedVoters.authorizedVoters.get? k = some v → k < t :=
            fun k v hk => hTrack₁.key_lt hct (Nat.le_refl t) hCont hk
          obtain ⟨⟨kc, vc⟩, hFloor⟩ := Option.isSome_iff_exists.mp hTrack₁.floor_isSome
          obtain ⟨lk, lpk, hLast, hGetLk⟩ :=
            AuthorizedVoters.last_eq_some (SortedMap.floor?_eq_some_iff.mp hFloor).1
          have hlk : lk < t := hBelow lk lpk hGetLk
          have hNotContains : s.authorizedVoters.contains t = true → False := by
            rw [← hContains, hCont]
            exact Bool.false_ne_true
          obtain ⟨priorVoters, hr, hPrior⟩ : ∃ priorVoters : CircBuf (Pubkey × Nat × Nat),
              (setNewAuthorizedVoter pubkey c t verify).run s =
                .ok () ⟨s₁.authorizedVoters.insert t pubkey, priorVoters⟩ ∧
              PriorVotersChained priorVoters := by
            by_cases hSame : lpk = pubkey
            · refine ⟨s₁.priorVoters, ?_, hTrack₁.priorVoters⟩
              simp only [setNewAuthorizedVoter, run_bind_of_ok hRun₁, hVerify, Except.mapError,
                run_liftExcept_ok_bind, run_get_bind, hCont, hLast]
              simp [hSame]
            · -- the replaced key's range is recorded, from the last switch to the target
              have hChain : PriorVotersChained (s₁.priorVoters.append
                  (lpk, (s₁.priorVoters.last.map fun range => range.2.2).getD 0, t)) :=
                hTrack₁.priorVoters.append rfl
              refine ⟨_, ?_, hChain⟩
              simp only [setNewAuthorizedVoter, run_bind_of_ok hRun₁, hVerify, Except.mapError,
                run_liftExcept_ok_bind, run_get_bind, hCont, hLast]
              simp [hSame, hlk]
          refine ⟨fun s' hPanic => ?_, fun _ hT => absurd hT hNotContains, fun s' hOk => ?_,
            fun e s' hErr => ?_⟩
          · rw [hr] at hPanic
            cases hPanic
          · rw [hr] at hOk
            cases hOk
            exact hTrack₁.insert hct hBelow pubkey hPrior
          · rw [hr] at hErr
            cases hErr

end VoterState

/-! ### Every run of the vote program's calls -/

/-- The behaviour of one call, made from `s` with the schedule `sched` of the calls before it: it
does not panic; `get_and_update_authorized_voter(c)` returns the schedule's voter at `c`;
a `set_new_authorized_voter` whose check passes and whose target epoch has an entry fails with
`TooSoonToReauthorize`, keeping the prior voters and every epoch's key from `c` on. -/
def CallSpec (sched : Schedule) (s : VoterState) (call : Call)
    (r : EStateM.Result Failure VoterState (Option Pubkey)) : Prop :=
  (∀ s', r ≠ .error .panic s') ∧
  match call with
  | .getAndUpdateAuthorizedVoter c => ∃ s', r = .ok (some (sched.voterAt c)) s'
  | .setNewAuthorizedVoter _ c t verify =>
      verify (sched.voterAt c) = .ok () → s.authorizedVoters.contains t = true →
        ∃ s', r = .error (.error VoteError.tooSoonToReauthorize.toInstructionError) s' ∧
          s'.priorVoters = s.priorVoters ∧
          ∀ e, c ≤ e → s'.authorizedVoters.voterAt e = s.authorizedVoters.voterAt e

/-- Every call of `calls`, run from `s` one after the other, meets `CallSpec` for the schedule
of the calls before it, and leaves the prior voters chained. -/
def RunSpec : Schedule → VoterState → List Call → Prop
  | _, _, [] => True
  | sched, s, call :: calls =>
      CallSpec sched s call (call.run.run s) ∧
        PriorVotersChained (state (call.run.run s)).priorVoters ∧
        RunSpec (sched.after call (call.run.run s)) (state (call.run.run s)) calls

/-- The calls the vote program makes from a vote account created at epoch `e₀`: current epochs
from `e₀` on that never go back, and target epochs, `leader_schedule_epoch + 1`, past their
current epoch that never go back either. -/
structure Admissible (e₀ : Nat) (calls : List Call) : Prop where
  current_ge : ∀ call ∈ calls, e₀ ≤ call.currentEpoch
  current_mono : (calls.map Call.currentEpoch).Pairwise (· ≤ ·)
  target_gt : ∀ call ∈ calls, ∀ t ∈ call.targetEpoch?, call.currentEpoch < t
  target_mono : (calls.filterMap Call.targetEpoch?).Pairwise (· ≤ ·)

namespace Call

/-- One call from a state that tracks the schedule, at a current epoch from the last call's on
and a target epoch past it and every earlier target, meets `CallSpec` and leaves a state that
tracks the schedule after it. -/
theorem run_tracks {sched : Schedule} {lastCurrent lastTarget : Nat} {s : VoterState}
    (h : Tracks sched lastCurrent lastTarget s) {call : Call}
    (hc : lastCurrent ≤ call.currentEpoch)
    (ht : ∀ t ∈ call.targetEpoch?, call.currentEpoch < t ∧ lastTarget ≤ t) :
    CallSpec sched s call (call.run.run s) ∧
      Tracks (sched.after call (call.run.run s)) call.currentEpoch
        (call.targetEpoch?.getD lastTarget) (state (call.run.run s)) := by
  cases call with
  | getAndUpdateAuthorizedVoter c =>
      dsimp only [currentEpoch, targetEpoch?] at hc ⊢
      obtain ⟨s', hRun, h', -⟩ := VoterState.getAndUpdateAuthorizedVoter_tracks h hc
      have hr : (getAndUpdateAuthorizedVoter c).run.run s = .ok (some (sched.voterAt c)) s' := by
        simp only [run, Functor.map, EStateM.map, EStateM.run] at hRun ⊢
        rw [hRun]
      rw [hr]
      exact ⟨⟨nofun, ⟨s', rfl⟩⟩, h'⟩
  | setNewAuthorizedVoter pubkey c t verify =>
      dsimp only [currentEpoch, targetEpoch?] at hc ht ⊢
      obtain ⟨hct, htl⟩ := ht t rfl
      obtain ⟨hNoPanic, hTooSoon, hOk, hErr⟩ :=
        @VoterState.setNewAuthorizedVoter_tracks _ _ _ _ h pubkey c t verify hc hct htl
      -- the call is the method followed by `pure none`
      cases hRun : (VoterState.setNewAuthorizedVoter pubkey c t verify).run s with
      | ok u s' =>
          have hr : (setNewAuthorizedVoter pubkey c t verify).run.run s = .ok none s' := by
            rw [run, run_bind_of_ok hRun]
            rfl
          rw [hr]
          refine ⟨⟨nofun, fun hV hT => ?_⟩, hOk s' hRun⟩
          obtain ⟨s'', hErr', -⟩ := hTooSoon hV hT
          rw [hRun] at hErr'
          cases hErr'
      | error e s' =>
          have hr : (setNewAuthorizedVoter pubkey c t verify).run.run s = .error e s' := by
            rw [run, run_bind_of_error hRun]
          rw [hr]
          refine ⟨⟨fun s'' hPanic => ?_, fun hV hT => ?_⟩, hErr e s' hRun⟩
          · injection hPanic with hE hS
            rw [hE, hS] at hRun
            exact hNoPanic s'' hRun
          · obtain ⟨s'', hErr', hPrior, hKeep⟩ := hTooSoon hV hT
            rw [hRun] at hErr'
            injection hErr' with hE hS
            exact ⟨s'', by rw [hE, hS], hPrior, hKeep⟩

end Call

/-- From a state that tracks the schedule, every run of calls at current epochs from the last
call's on that never go back, with target epochs past them that never go back either, meets
`RunSpec`. -/
theorem runSpec_of_tracks : ∀ {calls : List Call} {sched : Schedule} {s : VoterState}
    {lastCurrent lastTarget : Nat}, Tracks sched lastCurrent lastTarget s →
    (calls.map Call.currentEpoch).Pairwise (· ≤ ·) →
    (∀ call ∈ calls, ∀ t ∈ call.targetEpoch?, call.currentEpoch < t) →
    (calls.filterMap Call.targetEpoch?).Pairwise (· ≤ ·) →
    (∀ call ∈ calls, lastCurrent ≤ call.currentEpoch ∧ ∀ t ∈ call.targetEpoch?, lastTarget ≤ t) →
    RunSpec sched s calls
  | [], _, _, _, _, _, _, _, _, _ => trivial
  | call :: calls, sched, s, lastCurrent, lastTarget, h, hCur, hGt, hTarget, hFrom => by
      obtain ⟨hc, ht⟩ := hFrom call List.mem_cons_self
      obtain ⟨hSpec, h'⟩ := Call.run_tracks h hc fun t htc => ⟨hGt call List.mem_cons_self t htc, ht t htc⟩
      refine ⟨hSpec, h'.priorVoters, runSpec_of_tracks h' (List.pairwise_cons.mp hCur).2
        (fun call' hc' => hGt call' (List.mem_cons_of_mem call hc')) ?_ fun call' hc' => ?_⟩
      · -- the later targets, after this call's own
        cases hT : call.targetEpoch? with
        | none =>
            rw [List.filterMap_cons, hT] at hTarget
            exact hTarget
        | some t =>
            rw [List.filterMap_cons, hT] at hTarget
            exact (List.pairwise_cons.mp hTarget).2
      · refine ⟨(List.pairwise_cons.mp hCur).1 _ (List.mem_map_of_mem hc'), fun t' ht' => ?_⟩
        have hMem : t' ∈ calls.filterMap Call.targetEpoch? := List.mem_filterMap.mpr ⟨call', hc', ht'⟩
        cases hT : call.targetEpoch? with
        | none => exact (hFrom call' (List.mem_cons_of_mem call hc')).2 t' ht'
        | some t =>
            rw [List.filterMap_cons, hT] at hTarget
            exact (List.pairwise_cons.mp hTarget).1 t' hMem

/-- Authorized-voter rotation over every run the vote program makes from `VoteState::new` with
voter `v₀` at epoch `e₀`: no `assert!` fires; each `get_and_update_authorized_voter(c)` returns
the key of the last `set_new_authorized_voter` that returned with a target epoch at or below
`c`, or `v₀`; a `set_new_authorized_voter` whose check passes and whose target epoch has an entry
fails with `TooSoonToReauthorize`, keeping the prior voters and the key of every epoch from its
current one on; and in the ring's order each prior voter's range starts where the one before it
ended. -/
theorem authorizedVoters_rotation (e₀ : Nat) (v₀ : Pubkey) {calls : List Call}
    (hAdm : Admissible e₀ calls) : RunSpec ⟨v₀, []⟩ (VoterState.new e₀ v₀) calls :=
  runSpec_of_tracks (Tracks.new e₀ v₀) hAdm.current_mono hAdm.target_gt hAdm.target_mono
    fun call hc => ⟨hAdm.current_ge call hc, fun t ht =>
      Nat.le_of_lt (Nat.lt_of_le_of_lt (hAdm.current_ge call hc) (hAdm.target_gt call hc t ht))⟩

/-- A vote account created at epoch 0 with the default key schedules the key of ones from
epoch 2 on, at epoch 0, and reads its voter at epoch 2. -/
theorem authorizedVoters_rotation_switch :
    Admissible 0 [.setNewAuthorizedVoter ⟨Vector.replicate 32 1⟩ 0 2 (fun _ => .ok ()),
        .getAndUpdateAuthorizedVoter 2] ∧
      RunSpec ⟨Pubkey.default, []⟩ (VoterState.new 0 Pubkey.default)
        [.setNewAuthorizedVoter ⟨Vector.replicate 32 1⟩ 0 2 (fun _ => .ok ()),
          .getAndUpdateAuthorizedVoter 2] := by
  have hAdm : Admissible 0 [.setNewAuthorizedVoter ⟨Vector.replicate 32 1⟩ 0 2 (fun _ => .ok ()),
      .getAndUpdateAuthorizedVoter 2] :=
    ⟨by simp [Call.currentEpoch], by simp [Call.currentEpoch],
      by simp [Call.currentEpoch, Call.targetEpoch?],
      by simp [Call.targetEpoch?, List.filterMap_cons]⟩
  exact ⟨hAdm, authorizedVoters_rotation 0 Pubkey.default hAdm⟩

/-- A `set_new_authorized_voter` that fails with `TooSoonToReauthorize` has still changed the
map. With the key of ones scheduled from epoch 2 on, a second call at epoch 1 for target epoch 2
first caches epoch 1 and drops epoch 0, and only then finds the entry at epoch 2. -/
theorem setNewAuthorizedVoter_too_soon_rewrites_map :
    ∃ s₁ s₂, (VoterState.setNewAuthorizedVoter ⟨Vector.replicate 32 1⟩ 0 2 fun _ => .ok ()).run
          (VoterState.new 0 Pubkey.default) = .ok () s₁ ∧
        (VoterState.setNewAuthorizedVoter ⟨Vector.replicate 32 2⟩ 1 2 fun _ => .ok ()).run s₁ =
          .error (.error VoteError.tooSoonToReauthorize.toInstructionError) s₂ ∧
        s₁.authorizedVoters.authorizedVoters.entries =
          [(0, Pubkey.default), (2, ⟨Vector.replicate 32 1⟩)] ∧
        s₂.authorizedVoters.authorizedVoters.entries =
          [(1, Pubkey.default), (2, ⟨Vector.replicate 32 1⟩)] :=
  ⟨_, _, rfl, rfl, by decide, by decide⟩

end PutValidator.Vote
