import PutValidator.Vote.UpdateSafety

/-! The vote-state-update path against the one-vote-at-a-time path. From a reachable tower, a
run of `process_next_vote_slot` keeps every old vote above the new root on the stack with at
least its confirmations, or pops it only once a newer slot lies beyond its lockout. That is
what the merge of `process_new_vote_state` checks, so the tower the run builds, proposed whole,
is accepted and installed as it is. -/
namespace PutValidator.Vote

open Lib.Run

/-! ### Slot-sorted stacks -/

private theorem isChain_and {α : Type} {R S : α → α → Prop} :
    ∀ {l : List α}, l.IsChain R → l.IsChain S → l.IsChain fun a b => R a b ∧ S a b
  | [], _, _ => .nil
  | [_], _, _ => .singleton _
  | _ :: _ :: _, hR, hS => by
      rw [List.isChain_cons_cons] at hR hS ⊢
      exact ⟨⟨hR.1, hS.1⟩, isChain_and hR.2 hS.2⟩

/-- In a slot-sorted stack the slot identifies the vote. -/
theorem eq_of_slot_eq {votes : List Lockout} (hSorted : votes.Pairwise fun a b => a.slot < b.slot)
    {a b : Lockout} (ha : a ∈ votes) (hb : b ∈ votes) (h : a.slot = b.slot) : a = b :=
  List.inj_on_of_nodup_map (List.pairwise_map.mpr hSorted).nodup ha hb h

/-- Popping keeps a prefix of the slot-sorted stack, so what it keeps lies below what it pops. -/
theorem slot_lt_of_popped {s : VoteState} (hSorted : s.votes.Pairwise fun a b => a.slot < b.slot)
    (x : Nat) {k w : Lockout} (hk : k ∈ (s.popExpiredVotes x).votes) (hw : w ∈ s.votes)
    (hPopped : w ∉ (s.popExpiredVotes x).votes) : k.slot < w.slot := by
  obtain ⟨rest, hSplit⟩ := s.popExpiredVotes_prefix x
  rw [← hSplit] at hSorted hw
  rcases List.mem_append.mp hw with hw | hw
  · exact absurd hw hPopped
  · exact (List.pairwise_append.mp hSorted).2.2 k hk w hw

/-- A vote that survived popping and was not rooted is still on the stack after the step. -/
theorem exists_slot_of_kept {votes kept : List Lockout} {x : Nat}
    (hSlots : votes.map Lockout.slot = kept.map Lockout.slot ++ [x]) {w : Lockout}
    (hw : w ∈ kept) : ∃ w' ∈ votes, w'.slot = w.slot := by
  have hMem : w.slot ∈ votes.map Lockout.slot := by
    rw [hSlots]
    exact List.mem_append_left _ (List.mem_map_of_mem hw)
  simpa using hMem

/-! ### How an old vote sits in a later tower -/

/-- How a vote `c` of an earlier tower sits in a later tower `t`: no vote of `t` on its slot
has fewer confirmations, and either a vote of `t` is on its slot, or `c` expired before the
last vote of `t` and before every vote of `t` above it. -/
def KeptOrExpired (t : VoteState) (c : Lockout) : Prop :=
  (∀ n ∈ t.votes, n.slot = c.slot → c.confirmationCount ≤ n.confirmationCount) ∧
    ((∃ w ∈ t.votes, w.slot = c.slot) ∨
      (∃ y ∈ t.lastVotedSlot, c.slot < y ∧ c.lastLockedOutSlot < y) ∧
        ∀ n ∈ t.votes, c.slot < n.slot → c.lastLockedOutSlot < n.slot)

namespace KeptOrExpired

variable {t : VoteState} {c : Lockout}

theorem self (hSorted : t.votes.Pairwise fun a b => a.slot < b.slot) (hc : c ∈ t.votes) :
    KeptOrExpired t c := by
  refine ⟨fun n hn hSlot => ?_, Or.inl ⟨c, hc, rfl⟩⟩
  rw [eq_of_slot_eq hSorted hn hc hSlot]

theorem mergeSafe (h : KeptOrExpired t c) : MergeSafe t.votes c :=
  ⟨h.1, h.2.imp id And.right⟩

/-- No vote on the slot of `c` loses confirmations in a step on a later slot. -/
theorem confirmations_processNextVoteSlot {x : Nat} (e : Nat)
    (hNot : ¬t.lastVotedSlot.any (x ≤ ·))
    (hConf : ∀ n ∈ t.votes, n.slot = c.slot → c.confirmationCount ≤ n.confirmationCount)
    (hx : c.slot < x) :
    ∀ n ∈ (t.processNextVoteSlot x e).votes, n.slot = c.slot →
      c.confirmationCount ≤ n.confirmationCount := by
  intro n hn hSlot
  rcases VoteState.processNextVoteSlot_mem e hNot hn with hnx | ⟨k, hk, hks, hkn⟩
  · omega
  · exact (hConf k ((t.popExpiredVotes_prefix x).subset hk) (hks.trans hSlot)).trans hkn

/-- A vote expired at `x`, and before every vote above it that popping kept, stays expired:
the step only adds the vote on `x`. -/
theorem expired_processNextVoteSlot {x : Nat} (e : Nat) (hNot : ¬t.lastVotedSlot.any (x ≤ ·))
    (hx : c.slot < x ∧ c.lastLockedOutSlot < x)
    (hKept : ∀ k ∈ (t.popExpiredVotes x).votes, c.slot < k.slot →
      c.lastLockedOutSlot < k.slot) :
    (∃ y ∈ (t.processNextVoteSlot x e).lastVotedSlot, c.slot < y ∧ c.lastLockedOutSlot < y) ∧
      ∀ n ∈ (t.processNextVoteSlot x e).votes, c.slot < n.slot →
        c.lastLockedOutSlot < n.slot := by
  refine ⟨⟨x, VoteState.processNextVoteSlot_lastVotedSlot e hNot, hx⟩, fun n hn hSlot => ?_⟩
  rcases VoteState.processNextVoteSlot_mem e hNot hn with hnx | ⟨k, hk, hks, -⟩
  · rw [hnx]
    exact hx.2
  · rw [← hks] at hSlot ⊢
    exact hKept k hk hSlot

/-- Step lemma for a vote on the stack as `w`: the step keeps `w`, roots it (excluded by the
new root lying below `c`), or pops it because `x` lies beyond its lockout. -/
theorem processNextVoteSlot_of_kept (hWF : TowerWellFormed t) {x : Nat} (e : Nat)
    (hNot : ¬t.lastVotedSlot.any (x ≤ ·)) (h : KeptOrExpired t c) {w : Lockout}
    (hw : w ∈ t.votes) (hws : w.slot = c.slot)
    (hAbove : ∀ r ∈ (t.processNextVoteSlot x e).rootSlot, r < c.slot) :
    KeptOrExpired (t.processNextVoteSlot x e) c := by
  have hwx : w.slot < x := VoteState.lt_of_not_ignored hWF.stack.slots_increasing hNot w hw
  refine ⟨confirmations_processNextVoteSlot e hNot h.1 (by omega), ?_⟩
  by_cases hPopped : w ∈ (t.popExpiredVotes x).votes
  · left
    obtain ⟨kept, hSlots, ⟨hEq, -⟩ | ⟨oldest, hEq, -, hRoot⟩⟩ :=
      VoteState.processNextVoteSlot_of_not_ignored e hNot
    · obtain ⟨w', hw', hws'⟩ := exists_slot_of_kept hSlots (hEq ▸ hPopped)
      exact ⟨w', hw', hws'.trans hws⟩
    · rw [hEq] at hPopped
      rcases List.mem_cons.mp hPopped with rfl | hKept
      · have := hAbove _ hRoot
        omega
      · obtain ⟨w', hw', hws'⟩ := exists_slot_of_kept hSlots hKept
        exact ⟨w', hw', hws'.trans hws⟩
  · -- `x` lies beyond the lockout of `w`, which is at least that of `c`
    right
    have hLock : c.lastLockedOutSlot ≤ w.lastLockedOutSlot :=
      Lockout.lastLockedOutSlot_mono hws.symm (h.1 w hw hws)
    have hwLock := t.lastLockedOutSlot_lt_of_popped x hw hPopped
    refine expired_processNextVoteSlot e hNot ⟨by omega, by omega⟩ fun k hk hks => ?_
    have := slot_lt_of_popped hWF.stack.slots_pairwise x hk hw hPopped
    omega

/-- Step lemma for a vote already expired: the new vote lies above the last one. -/
theorem processNextVoteSlot_of_expired {x : Nat} (e : Nat) (hNot : ¬t.lastVotedSlot.any (x ≤ ·))
    (h : KeptOrExpired t c) {y : Nat} (hy : y ∈ t.lastVotedSlot)
    (hcy : c.slot < y ∧ c.lastLockedOutSlot < y)
    (hAll : ∀ n ∈ t.votes, c.slot < n.slot → c.lastLockedOutSlot < n.slot) :
    KeptOrExpired (t.processNextVoteSlot x e) c := by
  have hyx : y < x := by
    rw [Option.mem_def.mp hy] at hNot
    simpa using hNot
  refine ⟨confirmations_processNextVoteSlot e hNot h.1 (by omega), Or.inr ?_⟩
  exact expired_processNextVoteSlot e hNot ⟨by omega, by omega⟩
    fun k hk => hAll k ((t.popExpiredVotes_prefix x).subset hk)

/-- Step lemma: after one `process_next_vote_slot`, an old vote above the new root still
sits in the tower. -/
theorem processNextVoteSlot (hWF : TowerWellFormed t) (h : KeptOrExpired t c) (x e : Nat)
    (hAbove : ∀ r ∈ (t.processNextVoteSlot x e).rootSlot, r < c.slot) :
    KeptOrExpired (t.processNextVoteSlot x e) c := by
  by_cases hIgn : t.lastVotedSlot.any (x ≤ ·)
  · rw [VoteState.processNextVoteSlot_of_ignored e hIgn]
    exact h
  · rcases h.2 with ⟨w, hw, hws⟩ | ⟨⟨y, hy, hcy⟩, hAll⟩
    · exact processNextVoteSlot_of_kept hWF e hIgn h hw hws hAbove
    · exact processNextVoteSlot_of_expired e hIgn h hy hcy hAll

end KeptOrExpired

/-! ### Runs of `process_next_vote_slot` -/

/-- A tower `t` that a run of `process_next_vote_slot` reaches from `s`: it keeps the tower
invariant, does not move the root of `s` back, and every vote of `s` above its root sits in
it. -/
structure Follows (s t : VoteState) : Prop where
  invariant : TowerInvariant t
  root_advances : RootAdvances s.rootSlot t.rootSlot
  kept_or_expired : ∀ c ∈ s.votes, (∀ r ∈ t.rootSlot, r < c.slot) → KeptOrExpired t c

namespace Follows

variable {s t : VoteState}

theorem refl (h : TowerInvariant s) : Follows s s where
  invariant := h
  root_advances := RootAdvances.refl _
  kept_or_expired _ hc _ := KeptOrExpired.self h.wellFormed.stack.slots_pairwise hc

theorem processNextVoteSlot (h : Follows s t) (x e : Nat) :
    Follows s (t.processNextVoteSlot x e) where
  invariant := h.invariant.processNextVoteSlot x e
  root_advances := h.root_advances.trans
    (VoteState.processNextVoteSlot_rootAdvances h.invariant.wellFormed x e)
  kept_or_expired c hc hAbove := by
    -- a vote above the new root was above the old one, which is not higher
    have hAboveOld : ∀ r ∈ t.rootSlot, r < c.slot := by
      intro r hr
      obtain ⟨r', hr', hle⟩ :=
        VoteState.processNextVoteSlot_rootAdvances h.invariant.wellFormed x e r hr
      exact Nat.lt_of_le_of_lt hle (hAbove r' hr')
    exact (h.kept_or_expired c hc hAboveOld).processNextVoteSlot h.invariant.wellFormed x e hAbove

/-- Run lemma: induction on the slots of the run, each with its epoch. -/
theorem foldl (h : Follows s t) (steps : List (Nat × Nat)) :
    Follows s (steps.foldl (fun t p => t.processNextVoteSlot p.1 p.2) t) := by
  induction steps generalizing t with
  | nil => exact h
  | cons p rest ih => exact ih (h.processNextVoteSlot p.1 p.2)

end Follows

/-! ### The checks of `process_new_vote_state` -/

theorem foldl_processNextVoteSlot_ne_nil (s : VoteState) {steps : List (Nat × Nat)}
    (h : steps ≠ []) : (steps.foldl (fun t p => t.processNextVoteSlot p.1 p.2) s).votes ≠ [] := by
  rw [← List.dropLast_append_getLast h, List.foldl_append, List.foldl_cons, List.foldl_nil]
  exact VoteState.processNextVoteSlot_votes_ne_nil _ _ _

/-- A root that does not move back passes the `RootRollBack` check. -/
theorem rootRollsBack_eq_false {currentRoot newRoot : Option Nat}
    (h : RootAdvances currentRoot newRoot) : rootRollsBack newRoot currentRoot = false := by
  cases currentRoot with
  | none => cases newRoot <;> rfl
  | some current =>
      obtain ⟨n, hn, hle⟩ := h current rfl
      rw [Option.mem_def.mp hn]
      simp only [rootRollsBack, decide_eq_false_iff_not, not_lt]
      exact hle

/-- A well-formed tower passes the validation loop as the proposed votes with its own root. -/
theorem TowerWellFormed.checkNewVotes {t : VoteState} (h : TowerWellFormed t) :
    Vote.checkNewVotes t.rootSlot none t.votes = .ok () := by
  rw [checkNewVotes_eq_ok_iff]
  refine ⟨fun v hv => ⟨h.stack.confirmation_pos v hv, h.stack.confirmation_le v hv,
    fun r hr hr0 => h.root_below r hr hr0 v hv⟩, ?_⟩
  simp only [Option.toList_none, List.nil_append]
  have hChain := isChain_and (isChain_and h.stack.slots_increasing h.stack.confirmations_decreasing)
    h.stack.locked_out
  exact hChain.imp fun _ _ hab => ⟨hab.1.1, hab.1.2, hab.2⟩

/-- From a reachable tower `s`, the tower `s₂` that `process_next_vote_slot` builds on the
slots of `steps` (each with its epoch) passes every check of `process_new_vote_state` as the
proposed votes and root, without a timestamp and in any epoch, which installs exactly those
votes and that root. -/
theorem processNewVoteState_refines_processNextVoteSlot {calls : List VoteCall}
    {s s₂ : VoteState} (hReach : runAll applyVoteCall VoteState.default calls = .ok s)
    {steps : List (Nat × Nat)} (hSteps : steps ≠ [])
    (hRun : steps.foldl (fun t p => t.processNextVoteSlot p.1 p.2) s = s₂) (epoch : Nat) :
    ∃ s', processNewVoteState s s₂.votes s₂.rootSlot none epoch = .ok s' ∧
      s'.votes = s₂.votes ∧ s'.rootSlot = s₂.rootSlot := by
  have hInv := TowerInvariant.of_reachable hReach
  have hFollows : Follows s s₂ := hRun ▸ (Follows.refl hInv).foldl steps
  have hWF := hFollows.invariant.wellFormed
  have hSorted := hInv.wellFormed.stack.slots_pairwise
  refine processNewVoteState_of_accepted ⟨?_, hWF.stack.length_le,
    rootRollsBack_eq_false hFollows.root_advances, hWF.checkNewVotes, ?_⟩ epoch
  · rw [← hRun]
    exact foldl_processNextVoteSlot_ne_nil s hSteps
  · -- the merge meets the current votes above the new root, each kept or expired
    refine mergeCheck_eq_ok (hSorted.sublist (List.drop_sublist _ _)) hWF.stack.slots_pairwise
      fun c hc => ?_
    exact (hFollows.kept_or_expired c (List.mem_of_mem_drop hc)
      (lt_slot_of_mem_drop_currentVoteStateIndex hSorted hc)).mergeSafe

/-- From the tower of votes on slots 1 and 2, a vote on slot 5 pops the vote on 2; the update
proposing the resulting tower passes the merge. -/
theorem processNewVoteState_refines_processNextVoteSlot_pop :
    ∃ s', processNewVoteState ⟨[⟨1, 2⟩, ⟨2, 1⟩], none, [], ⟨0, 0⟩⟩ [⟨1, 2⟩, ⟨5, 1⟩] none none 0 =
        .ok s' ∧ s'.votes = [⟨1, 2⟩, ⟨5, 1⟩] ∧ s'.rootSlot = none :=
  processNewVoteState_refines_processNextVoteSlot
    (by decide +kernel : runAll applyVoteCall VoteState.default
      [.nextVoteSlot 1 0, .nextVoteSlot 2 0] = .ok ⟨[⟨1, 2⟩, ⟨2, 1⟩], none, [], ⟨0, 0⟩⟩)
    (by simp : [(5, 0)] ≠ [])
    (by decide +kernel : [(5, 0)].foldl (fun t p => t.processNextVoteSlot p.1 p.2)
      (⟨[⟨1, 2⟩, ⟨2, 1⟩], none, [], ⟨0, 0⟩⟩ : VoteState) = ⟨[⟨1, 2⟩, ⟨5, 1⟩], none, [], ⟨0, 0⟩⟩)
    0

end PutValidator.Vote
