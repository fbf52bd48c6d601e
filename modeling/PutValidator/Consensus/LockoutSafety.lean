import PutValidator.Consensus.Tower
import PutValidator.Lib.Forest
import PutValidator.Lib.List

/-! Lockout safety of the local tower over a tree of forks. The validator votes on banks of a
fork tree `T`, each time only after `is_locked_out` cleared the bank's slot against its
ancestors in `T`. Along such a run every vote of the tower lies on the fork of the newest
vote, the root moves only down that fork, a vote that leaves the fork of an earlier vote
comes only after the earlier vote expired, and the assertion inside `is_locked_out` holds,
provided every voted slot descends from the tower's root, as it does once `BankForks` has
been pruned to the descendants of each new root. -/
namespace PutValidator.Consensus

open Lib Lib.Forest PutValidator.Vote

variable {T : Forest}

/-- How a vote state sits in `T`: each vote is an ancestor of the vote above it, and the root
is at or above every vote. -/
structure OnFork (T : Forest) (s : VoteState) : Prop where
  votes_chain : s.votes.IsChain fun a b => a.slot ∈ T.ancestors b.slot
  root_above : ∀ r ∈ s.rootSlot, ∀ v ∈ s.votes, T.IsAncestorOrSelf r v.slot

instance (T : Forest) (s : VoteState) : Decidable (OnFork T s) :=
  decidable_of_iff ((s.votes.IsChain fun a b => a.slot ∈ T.ancestors b.slot) ∧
      ∀ r ∈ s.rootSlot, ∀ v ∈ s.votes, T.IsAncestorOrSelf r v.slot)
    ⟨fun ⟨h₁, h₂⟩ => ⟨h₁, h₂⟩, fun h => ⟨h.votes_chain, h.root_above⟩⟩

/-- In a chain of votes along a fork, the oldest vote is an ancestor of every later one. -/
theorem slot_mem_ancestors_of_isChain {oldest : Lockout} {rest : List Lockout}
    (h : (oldest :: rest).IsChain fun a b => a.slot ∈ T.ancestors b.slot) {v : Lockout}
    (hv : v ∈ rest) : oldest.slot ∈ T.ancestors v.slot := by
  have hTrans : Trans (fun a b : Lockout => a.slot ∈ T.ancestors b.slot)
      (fun a b : Lockout => a.slot ∈ T.ancestors b.slot)
      (fun a b : Lockout => a.slot ∈ T.ancestors b.slot) := ⟨mem_ancestors_trans⟩
  exact List.rel_of_pairwise_cons (List.isChain_iff_pairwise.mp h) hv

/-! ### One vote -/

section Step

variable {s : VoteState} {x : Nat}

/-- The votes the step keeps, once `is_locked_out` found every vote other than `x` in the
simulated tower to be an ancestor of `x`, are ancestors of `x`. -/
theorem mem_ancestors_of_kept (e : Nat) (hWF : TowerWellFormed s)
    (hNot : ¬s.lastVotedSlot.any (x ≤ ·)) {kept : List Lockout}
    (hSlots : (s.processNextVoteSlot x e).votes.map Lockout.slot = kept.map Lockout.slot ++ [x])
    (hKept : ∀ k ∈ kept, k ∈ s.votes)
    (hCleared : ∀ v ∈ (s.processNextVoteSlot x e).votes, v.slot ≠ x → v.slot ∈ T.ancestors x) :
    ∀ k ∈ kept, k.slot ∈ T.ancestors x := by
  intro k hk
  have hMem : k.slot ∈ (s.processNextVoteSlot x e).votes.map Lockout.slot := by
    rw [hSlots]
    exact List.mem_append_left _ (List.mem_map_of_mem hk)
  obtain ⟨w, hw, hwk⟩ := List.mem_map.mp hMem
  have hLt := VoteState.lt_of_not_ignored hWF.stack.slots_increasing hNot k (hKept k hk)
  rw [← hwk]
  exact hCleared w hw (by omega)

/-- The votes kept by a step form a stretch of the old stack: the popped stack, or its tail
when its oldest vote was rooted. -/
theorem kept_of_step {kept : List Lockout} (hFork : OnFork T s)
    (hCase : (s.popExpiredVotes x).votes = kept ∨
      ∃ oldest, (s.popExpiredVotes x).votes = oldest :: kept) :
    (kept.IsChain fun a b => a.slot ∈ T.ancestors b.slot) ∧ ∀ k ∈ kept, k ∈ s.votes := by
  have hPre := s.popExpiredVotes_prefix x
  have hChain := hFork.votes_chain.prefix hPre
  rcases hCase with hPop | ⟨oldest, hPop⟩
  · rw [hPop] at hChain hPre
    exact ⟨hChain, fun k hk => hPre.subset hk⟩
  · rw [hPop] at hChain hPre
    exact ⟨hChain.tail, fun k hk => hPre.subset (List.mem_cons_of_mem _ hk)⟩

/-- After a cleared step the root is at or above the new slot: a kept root by assumption, a
rooted vote because it lies below the kept votes. -/
theorem rootSlot_isAncestorOrSelf_of_cleared (e : Nat) (hWF : TowerWellFormed s)
    (hFork : OnFork T s) (hNot : ¬s.lastVotedSlot.any (x ≤ ·))
    (hCleared : ∀ v ∈ (s.processNextVoteSlot x e).votes, v.slot ≠ x → v.slot ∈ T.ancestors x)
    (hRoot : ∀ r ∈ s.rootSlot, T.IsAncestorOrSelf r x) :
    ∀ r ∈ (s.processNextVoteSlot x e).rootSlot, T.IsAncestorOrSelf r x := by
  obtain ⟨kept, hSlots, ⟨-, hRootEq⟩ | ⟨oldest, hPop, hNe, hRootEq⟩⟩ :=
    VoteState.processNextVoteSlot_of_not_ignored e hNot
  · rw [hRootEq]
    exact hRoot
  · intro r hr
    rw [hRootEq, Option.mem_def, Option.some.injEq] at hr
    subst hr
    obtain ⟨k, rest, rfl⟩ := List.exists_cons_of_ne_nil hNe
    have hChain := hFork.votes_chain.prefix (s.popExpiredVotes_prefix x)
    rw [hPop] at hChain
    have hKept := (kept_of_step hFork (Or.inr ⟨oldest, hPop⟩)).2
    have hk := mem_ancestors_of_kept e hWF hNot hSlots hKept hCleared k List.mem_cons_self
    exact IsAncestorOrSelf.of_mem
      (mem_ancestors_trans (slot_mem_ancestors_of_isChain hChain List.mem_cons_self) hk)

/-- A cleared step keeps the tower on the fork of the new slot. -/
theorem OnFork.processNextVoteSlot (e : Nat) (hWF : TowerWellFormed s) (hFork : OnFork T s)
    (hNot : ¬s.lastVotedSlot.any (x ≤ ·))
    (hCleared : ∀ v ∈ (s.processNextVoteSlot x e).votes, v.slot ≠ x → v.slot ∈ T.ancestors x)
    (hRoot : ∀ r ∈ s.rootSlot, T.IsAncestorOrSelf r x) :
    OnFork T (s.processNextVoteSlot x e) := by
  have hRoot' := rootSlot_isAncestorOrSelf_of_cleared e hWF hFork hNot hCleared hRoot
  obtain ⟨kept, hSlots, hCase⟩ := VoteState.processNextVoteSlot_of_not_ignored e hNot
  obtain ⟨hKeptChain, hKeptMem⟩ := kept_of_step hFork
    (hCase.imp And.left fun ⟨oldest, hPop, _⟩ => ⟨oldest, hPop⟩)
  have hAnc := mem_ancestors_of_kept e hWF hNot hSlots hKeptMem hCleared
  constructor
  · have hKeptSlots : (kept.map Lockout.slot).IsChain fun a b => a ∈ T.ancestors b :=
      (List.isChain_map Lockout.slot).mpr hKeptChain
    have hSlotChain : ((s.processNextVoteSlot x e).votes.map Lockout.slot).IsChain
        fun a b => a ∈ T.ancestors b := by
      rw [hSlots]
      refine Lib.List.isChain_append_singleton hKeptSlots fun a ha => ?_
      obtain ⟨k, hk, rfl⟩ := List.mem_map.mp (List.mem_of_getLast? ha)
      exact hAnc k hk
    exact (List.isChain_map Lockout.slot).mp hSlotChain
  · intro r hr v hv
    have hMem : v.slot ∈ kept.map Lockout.slot ++ [x] := by
      rw [← hSlots]
      exact List.mem_map_of_mem hv
    rcases List.mem_append.mp hMem with hKeptSlot | hNew
    · obtain ⟨k, hk, hkv⟩ := List.mem_map.mp hKeptSlot
      rw [← hkv]
      rcases hCase with ⟨-, hRootEq⟩ | ⟨oldest, hPop, -, hRootEq⟩
      · rw [hRootEq] at hr
        exact hFork.root_above r hr k (hKeptMem k hk)
      · rw [hRootEq, Option.mem_def, Option.some.injEq] at hr
        subst hr
        have hChain := hFork.votes_chain.prefix (s.popExpiredVotes_prefix x)
        rw [hPop] at hChain
        exact IsAncestorOrSelf.of_mem (slot_mem_ancestors_of_isChain hChain hk)
    · rw [List.mem_singleton.mp hNew]
      exact hRoot' r hr

/-- The root moves only down the fork: the new root is at or below the old one. -/
theorem rootSlot_isAncestorOrSelf_of_step (e : Nat) (hFork : OnFork T s)
    (hNot : ¬s.lastVotedSlot.any (x ≤ ·)) :
    ∀ r ∈ s.rootSlot, ∀ r' ∈ (s.processNextVoteSlot x e).rootSlot, T.IsAncestorOrSelf r r' := by
  intro r hr r' hr'
  obtain ⟨kept, -, ⟨-, hRootEq⟩ | ⟨oldest, hPop, -, hRootEq⟩⟩ :=
    VoteState.processNextVoteSlot_of_not_ignored e hNot
  · rw [hRootEq] at hr'
    rw [Option.mem_unique hr hr']
    exact IsAncestorOrSelf.refl r'
  · rw [hRootEq, Option.mem_def, Option.some.injEq] at hr'
    subst hr'
    exact hFork.root_above r hr oldest
      ((s.popExpiredVotes_prefix x).subset (by rw [hPop]; exact List.mem_cons_self))

/-- Where a slot the tower voted on is to be found: still on the stack, or at or above the
root. -/
def Accounted (T : Forest) (s : VoteState) (y : Nat) : Prop :=
  (∃ v ∈ s.votes, v.slot = y) ∨ ∃ r ∈ s.rootSlot, T.IsAncestorOrSelf y r

/-- A vote leaves the tower only by expiring: after a step a slot is still accounted for, or
popping removed its vote. -/
theorem Accounted.processNextVoteSlot (e : Nat) (hFork : OnFork T s)
    (hNot : ¬s.lastVotedSlot.any (x ≤ ·)) {y : Nat} (h : Accounted T s y) :
    Accounted T (s.processNextVoteSlot x e) y ∨
      ∃ c, (⟨y, c⟩ : Lockout) ∈ s.votes ∧ (⟨y, c⟩ : Lockout) ∉ (s.popExpiredVotes x).votes := by
  obtain ⟨kept, hSlots, hCase⟩ := VoteState.processNextVoteSlot_of_not_ignored e hNot
  have hStays : ∀ k ∈ kept, ∃ w ∈ (s.processNextVoteSlot x e).votes, w.slot = k.slot := by
    intro k hk
    have hMem : k.slot ∈ (s.processNextVoteSlot x e).votes.map Lockout.slot := by
      rw [hSlots]
      exact List.mem_append_left _ (List.mem_map_of_mem hk)
    exact List.mem_map.mp hMem
  rcases h with ⟨v, hv, rfl⟩ | ⟨r, hr, hyr⟩
  · by_cases hPopped : v ∈ (s.popExpiredVotes x).votes
    · left
      rcases hCase with ⟨hPop, -⟩ | ⟨oldest, hPop, -, hRootEq⟩
      · rw [hPop] at hPopped
        exact Or.inl (hStays v hPopped)
      · rw [hPop] at hPopped
        rcases List.mem_cons.mp hPopped with rfl | hk
        · exact Or.inr ⟨v.slot, hRootEq, IsAncestorOrSelf.refl _⟩
        · exact Or.inl (hStays v hk)
    · exact Or.inr ⟨v.confirmationCount, hv, hPopped⟩
  · left
    right
    rcases hCase with ⟨-, hRootEq⟩ | ⟨oldest, hPop, -, hRootEq⟩
    · exact ⟨r, by rw [hRootEq]; exact hr, hyr⟩
    · have hOldest : oldest ∈ s.votes :=
        (s.popExpiredVotes_prefix x).subset (by rw [hPop]; exact List.mem_cons_self)
      exact ⟨oldest.slot, hRootEq, hyr.trans (hFork.root_above r hr oldest hOldest)⟩

end Step

/-! ### `is_locked_out` never panics on a slot below the root -/

/-- The assertion in `is_locked_out` holds for every slot at or below the root of a tower
that lies along a fork. -/
theorem isLockedOut_ne_none {t : Tower} {x : Nat} (hWF : TowerWellFormed t.voteState)
    (hFork : OnFork T t.voteState) (hRoot : ∀ r ∈ t.root, T.IsAncestorOrSelf r x) :
    t.isLockedOut x (T.ancestors x) ≠ none := by
  unfold Tower.isLockedOut
  rw [processSlotVoteUnchecked_eq]
  by_cases hRecent : t.isRecent x = true
  · simp only [hRecent, Bool.not_true, Bool.false_eq_true, if_false]
    split_ifs with hAny
    · simp
    have hCleared : ∀ v ∈ (t.voteState.processNextVoteSlot x t.voteState.currentEpoch).votes,
        v.slot ≠ x → v.slot ∈ T.ancestors x := by
      intro v hv hne
      by_contra hNot
      exact hAny (List.any_eq_true.mpr ⟨v, hv, by simp [Ne.symm hne, hNot]⟩)
    have hRoot' := rootSlot_isAncestorOrSelf_of_cleared t.voteState.currentEpoch hWF hFork
      (Tower.not_ignored_of_isRecent hRecent) hCleared hRoot
    cases hr : (t.voteState.processNextVoteSlot x t.voteState.currentEpoch).rootSlot with
    | none => simp
    | some r =>
        have hAnc := hRoot' r hr
        simp only
        split_ifs with hPanic
        · exact absurd (hAnc.mem_ancestors_of_ne (Ne.symm hPanic.1)) hPanic.2
        · simp
  · simp [hRecent]

/-- Without a slot below the root, the assertion fails: a tower with root 1 and no votes is
well formed and along a fork of the tree `0 → 1`, `0 → 2`, and `is_locked_out` panics on
slot 2 of the other fork. -/
theorem isLockedOut_panics_off_root_fork :
    TowerWellFormed ⟨[], some 1, [], ⟨0, 0⟩⟩ ∧
      OnFork (Forest.ofParent fun n => if n = 1 ∨ n = 2 then some 0 else none)
        ⟨[], some 1, [], ⟨0, 0⟩⟩ ∧
      (Tower.mk ⟨[], some 1, [], ⟨0, 0⟩⟩ (.voteStateUpdate ⟨[], none, Hash.default, none⟩)).isLockedOut 2
        ((Forest.ofParent fun n => if n = 1 ∨ n = 2 then some 0 else none).ancestors 2) = none :=
  ⟨by decide +kernel, by decide +kernel, by decide +kernel⟩

/-! ### Runs of votes -/

/-- A vote the replay stage casts on a bank: its slot and hash, the last slot its own vote
account voted on in that bank, the feature switch, and what the clock gives as timestamp. -/
structure BankVote where
  slot : Nat
  hash : Hash
  lastVotedSlotInBank : Option Nat
  isDirectVoteStateUpdateEnabled : Bool
  timestamp : Option Int

/-- `n` votes in a row: before vote `k` the tower is `towers k`, `is_locked_out` clears the
bank's slot against its ancestors in `T`, and recording the vote leaves `towers (k + 1)`. -/
structure VoteRun (T : Forest) (n : Nat) (towers : Nat → Tower) (votes : Nat → BankVote) :
    Prop where
  cleared : ∀ k < n,
    (towers k).isLockedOut (votes k).slot (T.ancestors (votes k).slot) = some false
  recorded : ∀ k < n,
    ((towers k).recordBankVoteAndUpdateLockouts (votes k).slot (votes k).hash
      (votes k).lastVotedSlotInBank (votes k).isDirectVoteStateUpdateEnabled
      (votes k).timestamp).map Prod.fst = some (towers (k + 1))

/-- The invariant of the local tower along a run: well formed, along a fork, with a root. -/
structure LocalTower (T : Forest) (s : VoteState) : Prop where
  wellFormed : TowerWellFormed s
  onFork : OnFork T s
  root_isSome : s.rootSlot.isSome

/-- What `is_locked_out` returning `false` guarantees about the vote on `x`. -/
structure ClearedVote (T : Forest) (s : VoteState) (x : Nat) : Prop where
  not_ignored : ¬s.lastVotedSlot.any (x ≤ ·)
  root_lt : ∀ r ∈ s.rootSlot, r < x
  cleared : ∀ v ∈ (s.processNextVoteSlot x s.currentEpoch).votes, v.slot ≠ x →
    v.slot ∈ T.ancestors x

namespace VoteRun

variable {n : Nat} {towers : Nat → Tower} {votes : Nat → BankVote}

theorem voteState_succ (hRun : VoteRun T n towers votes) {k : Nat} (hk : k < n) :
    (towers (k + 1)).voteState =
      (towers k).voteState.processNextVoteSlot (votes k).slot (towers k).voteState.currentEpoch := by
  obtain ⟨⟨t', newRoot⟩, hRec, hFst⟩ := Option.map_eq_some_iff.mp (hRun.recorded k hk)
  simp only at hFst
  rw [← hFst]
  exact Tower.recordBankVoteAndUpdateLockouts_voteState hRec

theorem clearedVote (hRun : VoteRun T n towers votes) {k : Nat} (hk : k < n)
    (hWF : TowerWellFormed (towers k).voteState) :
    ClearedVote T (towers k).voteState (votes k).slot := by
  obtain ⟨hRecent, hCleared, -⟩ := Tower.isLockedOut_eq_some_false (hRun.cleared k hk)
  exact ⟨Tower.not_ignored_of_isRecent hRecent,
    Tower.root_lt_of_isRecent_of_wellFormed hWF hRecent, hCleared⟩

section Invariant

variable (hRun : VoteRun T n towers votes)
  (hInit : LocalTower T (towers 0).voteState)
  (hDescends : ∀ k < n, ∀ r ∈ (towers k).root, T.IsAncestorOrSelf r (votes k).slot)
include hRun hInit hDescends

/-- Every tower of the run satisfies the invariant (step lemma and induction on the step). -/
theorem localTower : ∀ k ≤ n, LocalTower T (towers k).voteState := by
  intro k hk
  induction k with
  | zero => exact hInit
  | succ k ih =>
      have hInv := ih (by omega)
      have hVote := hRun.clearedVote (by omega) hInv.wellFormed
      rw [hRun.voteState_succ (by omega)]
      refine ⟨?_, ?_, ?_⟩
      · exact hInv.wellFormed.processNextVoteSlot_of_root_lt
          (fun _ r hr _ => hVote.root_lt r hr) _
      · exact hInv.onFork.processNextVoteSlot _ hInv.wellFormed hVote.not_ignored hVote.cleared
          (hDescends k (by omega))
      · exact VoteState.processNextVoteSlot_rootSlot_isSome hInv.root_isSome _ _

/-- After each vote, every vote of the tower and its root are the voted slot or ancestors. -/
theorem on_fork_of_vote {k : Nat} (hk : k < n) :
    (∀ v ∈ (towers (k + 1)).voteState.votes, T.IsAncestorOrSelf v.slot (votes k).slot) ∧
      ∀ r ∈ (towers (k + 1)).root, T.IsAncestorOrSelf r (votes k).slot := by
  have hInv := hRun.localTower hInit hDescends k (by omega)
  have hVote := hRun.clearedVote hk hInv.wellFormed
  refine ⟨fun v hv => ?_, ?_⟩
  · rw [hRun.voteState_succ hk] at hv
    by_cases hEq : v.slot = (votes k).slot
    · rw [hEq]
      exact IsAncestorOrSelf.refl _
    · exact IsAncestorOrSelf.of_mem (hVote.cleared v hv hEq)
  · rw [Tower.root, hRun.voteState_succ hk]
    exact rootSlot_isAncestorOrSelf_of_cleared _ hInv.wellFormed hInv.onFork hVote.not_ignored
      hVote.cleared (hDescends k hk)

/-- The slots voted on increase along the run. -/
theorem slot_lt {i j : Nat} (hij : i < j) (hj : j < n) : (votes i).slot < (votes j).slot := by
  induction j with
  | zero => omega
  | succ j ih =>
      have hInv := hRun.localTower hInit hDescends j (by omega)
      have hVote := hRun.clearedVote (by omega : j < n) hInv.wellFormed
      have hInvNext := hRun.localTower hInit hDescends (j + 1) (by omega)
      have hNext := hRun.clearedVote hj hInvNext.wellFormed
      have hLast : (towers (j + 1)).voteState.lastVotedSlot = some (votes j).slot := by
        rw [hRun.voteState_succ (by omega)]
        exact VoteState.processNextVoteSlot_lastVotedSlot _ hVote.not_ignored
      have hStep : (votes j).slot < (votes (j + 1)).slot := by
        have := hNext.not_ignored
        simp only [hLast, Option.any_some, decide_eq_true_eq, not_le] at this
        exact this
      rcases Nat.lt_succ_iff_lt_or_eq.mp hij with hLt | rfl
      · exact (ih hLt (by omega)).trans hStep
      · exact hStep

/-- The roots of the run form a chain down one fork. -/
theorem root_isAncestorOrSelf {i j : Nat} (hij : i ≤ j) (hj : j ≤ n) :
    ∀ r ∈ (towers i).root, ∀ r' ∈ (towers j).root, T.IsAncestorOrSelf r r' := by
  induction j with
  | zero =>
      intro r hr r' hr'
      obtain rfl : i = 0 := by omega
      rw [Option.mem_unique hr hr']
      exact IsAncestorOrSelf.refl _
  | succ j ih =>
      intro r hr r' hr'
      rcases Nat.lt_succ_iff_lt_or_eq.mp (Nat.lt_succ_of_le hij) with hLt | rfl
      · have hInv := hRun.localTower hInit hDescends j (by omega)
        obtain ⟨r₁, hr₁⟩ := Option.isSome_iff_exists.mp hInv.root_isSome
        have hVote := hRun.clearedVote (by omega : j < n) hInv.wellFormed
        rw [Tower.root, hRun.voteState_succ (by omega)] at hr'
        have hMove := rootSlot_isAncestorOrSelf_of_step (towers j).voteState.currentEpoch
          hInv.onFork hVote.not_ignored r₁ hr₁ r' hr'
        exact (ih (by omega) (by omega) r hr r₁ hr₁).trans hMove
      · rw [Option.mem_unique hr hr']
        exact IsAncestorOrSelf.refl _

/-- Every root of the run lies strictly above every later voted slot. -/
theorem root_mem_ancestors {i j : Nat} (hij : i ≤ j) (hj : j < n) :
    ∀ r ∈ (towers i).root, r ∈ T.ancestors (votes j).slot := by
  intro r hr
  have hInv := hRun.localTower hInit hDescends j (by omega)
  obtain ⟨r', hr'⟩ := Option.isSome_iff_exists.mp hInv.root_isSome
  have hVote := hRun.clearedVote hj hInv.wellFormed
  have hBelow : r' ∈ T.ancestors (votes j).slot :=
    (hDescends j hj r' hr').mem_ancestors_of_ne (Nat.ne_of_lt (hVote.root_lt r' hr'))
  exact (hRun.root_isAncestorOrSelf hInit hDescends hij (by omega) r hr r' hr').mem_ancestors hBelow

/-- A slot voted on at step `i` is, at every later point `m` of the run, still accounted for,
or its vote was popped as expired at some step in between. -/
theorem accounted_or_popped {i : Nat} (hi : i < n) {m : Nat} (him : i < m) (hm : m ≤ n) :
    Accounted T (towers m).voteState (votes i).slot ∨
      ∃ p, i < p ∧ p < m ∧ ∃ c, (⟨(votes i).slot, c⟩ : Lockout) ∈ (towers p).voteState.votes ∧
        (⟨(votes i).slot, c⟩ : Lockout) ∉
          ((towers p).voteState.popExpiredVotes (votes p).slot).votes := by
  induction m with
  | zero => omega
  | succ m ih =>
      have hInv := hRun.localTower hInit hDescends m (by omega)
      have hVote := hRun.clearedVote (by omega : m < n) hInv.wellFormed
      rcases Nat.lt_succ_iff_lt_or_eq.mp him with hLt | rfl
      · rcases ih hLt (by omega) with hAcc | ⟨p, hip, hpm, hPopped⟩
        · rw [hRun.voteState_succ (by omega)]
          rcases hAcc.processNextVoteSlot _ hInv.onFork hVote.not_ignored with hAcc' | ⟨c, hc, hcp⟩
          · exact Or.inl hAcc'
          · exact Or.inr ⟨m, hLt, by omega, c, hc, hcp⟩
        · exact Or.inr ⟨p, hip, by omega, hPopped⟩
      · -- the vote just cast sits on top of the stack
        left
        left
        rw [hRun.voteState_succ hi]
        obtain ⟨kept, hSlots, -⟩ := VoteState.processNextVoteSlot_of_not_ignored
          (towers i).voteState.currentEpoch hVote.not_ignored
        have hMem : (votes i).slot ∈
            ((towers i).voteState.processNextVoteSlot (votes i).slot
              (towers i).voteState.currentEpoch).votes.map Lockout.slot := by
          rw [hSlots]
          simp
        exact List.mem_map.mp hMem

/-- A vote off the fork of an earlier vote comes only after that earlier vote was popped as
expired, and more than `2 ^ c` slots after it, `c` its confirmations when popped. -/
theorem popped_of_not_mem_ancestors (hSlots : ∀ k < n, (votes k).slot ≤ slotMax) {i j : Nat}
    (hij : i < j) (hj : j < n) (hOff : (votes i).slot ∉ T.ancestors (votes j).slot) :
    ∃ m, i < m ∧ m ≤ j ∧ ∃ c, (⟨(votes i).slot, c⟩ : Lockout) ∈ (towers m).voteState.votes ∧
      (⟨(votes i).slot, c⟩ : Lockout) ∉
        ((towers m).voteState.popExpiredVotes (votes m).slot).votes ∧
      (votes i).slot + 2 ^ c < (votes j).slot := by
  rcases hRun.accounted_or_popped hInit hDescends (by omega : i < n)
      (by omega : i < j + 1) (by omega) with hAcc | ⟨m, him, hmj, c, hc, hcp⟩
  · -- still on the tower after vote `j`, the slot would be an ancestor of vote `j`
    exfalso
    obtain ⟨hVotes, hRoot⟩ := hRun.on_fork_of_vote hInit hDescends hj
    have hAnc : T.IsAncestorOrSelf (votes i).slot (votes j).slot := by
      rcases hAcc with ⟨v, hv, hvs⟩ | ⟨r, hr, hir⟩
      · rw [← hvs]
        exact hVotes v hv
      · exact hir.trans (hRoot r hr)
    have hLt := hRun.slot_lt hInit hDescends hij hj
    exact hOff (hAnc.mem_ancestors_of_ne (Nat.ne_of_lt hLt))
  · refine ⟨m, him, by omega, c, hc, hcp, ?_⟩
    have hExpired := VoteState.lastLockedOutSlot_lt_of_popped _ _ hc hcp
    have hmj' : (votes m).slot ≤ (votes j).slot := by
      rcases Nat.lt_or_eq_of_le (show m ≤ j by omega) with hLt | rfl
      · exact Nat.le_of_lt (hRun.slot_lt hInit hDescends hLt hj)
      · exact Nat.le_refl _
    have hAdd := Lib.Word.add_lt_of_saturatingAdd_lt (Nat.lt_of_lt_of_le hExpired hmj')
      (hSlots j hj)
    simpa [Lockout.lockout, initialLockout] using hAdd

end Invariant

end VoteRun

/-- Lockout safety of a run of tower votes: each vote leaves the tower on the fork of the
voted slot; the roots move down one fork and stay above every later vote; a vote off the
fork of an earlier vote comes only after the earlier vote expired; and `is_locked_out`
never panics on a slot below the current root. -/
structure LockoutSafe (T : Forest) (n : Nat) (towers : Nat → Tower) (votes : Nat → BankVote) :
    Prop where
  on_fork : ∀ k < n,
    (∀ v ∈ (towers (k + 1)).voteState.votes, T.IsAncestorOrSelf v.slot (votes k).slot) ∧
      ∀ r ∈ (towers (k + 1)).root, T.IsAncestorOrSelf r (votes k).slot
  roots_chain : ∀ k < n, ∃ r r', (towers k).root = some r ∧ (towers (k + 1)).root = some r' ∧
    T.IsAncestorOrSelf r r'
  root_below_later_votes : ∀ i j, i ≤ j → j < n →
    ∀ r ∈ (towers i).root, r ∈ T.ancestors (votes j).slot
  expired_before_switch : ∀ i j, i < j → j < n → (votes i).slot ∉ T.ancestors (votes j).slot →
    ∃ m, i < m ∧ m ≤ j ∧ ∃ c, (⟨(votes i).slot, c⟩ : Lockout) ∈ (towers m).voteState.votes ∧
      (⟨(votes i).slot, c⟩ : Lockout) ∉
        ((towers m).voteState.popExpiredVotes (votes m).slot).votes ∧
      (votes i).slot + 2 ^ c < (votes j).slot
  no_panic : ∀ k ≤ n, ∀ x, (∀ r ∈ (towers k).root, T.IsAncestorOrSelf r x) →
    (towers k).isLockedOut x (T.ancestors x) ≠ none

/-- Every run of votes cleared by `is_locked_out`, from a well-formed tower with a root that
lies along a fork, on slots that each descend from the current root, is lockout safe. -/
theorem voteRun_lockoutSafe {n : Nat} {towers : Nat → Tower} {votes : Nat → BankVote}
    (hRun : VoteRun T n towers votes) (hWellFormed : TowerWellFormed (towers 0).voteState)
    (hOnFork : OnFork T (towers 0).voteState) (hRoot : (towers 0).root.isSome)
    (hDescends : ∀ k < n, ∀ r ∈ (towers k).root, T.IsAncestorOrSelf r (votes k).slot)
    (hSlots : ∀ k < n, (votes k).slot ≤ slotMax) :
    LockoutSafe T n towers votes := by
  have hInit : LocalTower T (towers 0).voteState := ⟨hWellFormed, hOnFork, hRoot⟩
  refine ⟨fun k hk => hRun.on_fork_of_vote hInit hDescends hk, fun k hk => ?_,
    fun i j hij hj => hRun.root_mem_ancestors hInit hDescends hij hj,
    fun i j hij hj hOff => hRun.popped_of_not_mem_ancestors hInit hDescends hSlots hij hj hOff,
    fun k hk x hx => ?_⟩
  · obtain ⟨r, hr⟩ := Option.isSome_iff_exists.mp (hRun.localTower hInit hDescends k (by omega)).root_isSome
    obtain ⟨r', hr'⟩ :=
      Option.isSome_iff_exists.mp (hRun.localTower hInit hDescends (k + 1) hk).root_isSome
    exact ⟨r, r', hr, hr',
      hRun.root_isAncestorOrSelf hInit hDescends (Nat.le_succ k) hk r hr r' hr'⟩
  · have hInv := hRun.localTower hInit hDescends k hk
    exact isLockedOut_ne_none hInv.wellFormed hInv.onFork hx

/-- Two votes along the line of slots `0 → 1 → 2`, from `Tower::default()`. -/
theorem voteRun_lockoutSafe_two_votes :
    LockoutSafe (Forest.ofParent fun n => if n = 0 then none else some (n - 1)) 2
      (fun k => if k = 0 then Tower.default
        else if k = 1 then ⟨⟨[⟨1, 1⟩], some 0, [], ⟨0, 0⟩⟩, .vote ⟨[1], Hash.default, none⟩⟩
        else ⟨⟨[⟨1, 2⟩, ⟨2, 1⟩], some 0, [], ⟨0, 0⟩⟩, .vote ⟨[1, 2], Hash.default, none⟩⟩)
      (fun k => ⟨k + 1, Hash.default, none, false, none⟩) :=
  voteRun_lockoutSafe ⟨by decide +kernel, by decide +kernel⟩ (by decide +kernel)
    (by decide +kernel) rfl (by decide +kernel) (by decide +kernel)

end PutValidator.Consensus
