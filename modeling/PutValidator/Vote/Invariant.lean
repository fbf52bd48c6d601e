import PutValidator.Vote.WellFormed
import PutValidator.Vote.Program
import PutValidator.Lib.Run

/-! The tower invariant over whole runs of the vote program. From `VoteState::default()`,
any sequence of accepted `process_next_vote_slot`, `process_vote` and
`do_process_vote_state_update` calls leaves a well-formed tower, and the root never moves
back between two points of the run. -/
namespace PutValidator.Vote

open Lib.Run

/-- The calls of the vote program that change a tower. -/
inductive VoteCall
  | nextVoteSlot (slot epoch : Nat)
  | vote (vote : Vote) (slotHashes : List SlotHash) (epoch : Nat)
  | voteStateUpdate (slotHashes : List SlotHash) (epoch : Nat) (update : VoteStateUpdate)
      (isRootFixEnabled : Bool)

def applyVoteCall (s : VoteState) : VoteCall → Except Fault VoteState
  | .nextVoteSlot slot epoch => .ok (s.processNextVoteSlot slot epoch)
  | .vote vote slotHashes epoch => (processVote s vote slotHashes epoch).mapError .vote
  | .voteStateUpdate slotHashes epoch update isRootFixEnabled =>
      doProcessVoteStateUpdate s slotHashes epoch update isRootFixEnabled

/-- The inductive invariant: the tower invariant, and an empty stack carries no root. -/
structure TowerInvariant (s : VoteState) : Prop where
  wellFormed : TowerWellFormed s
  root_of_nil : s.votes = [] → s.rootSlot = none

theorem TowerInvariant.default : TowerInvariant VoteState.default where
  wellFormed := ⟨⟨by decide, by simp [VoteState.default], by simp [VoteState.default],
    List.IsChain.nil, List.IsChain.nil, List.IsChain.nil⟩, by simp [RootBelowVotes, VoteState.default]⟩
  root_of_nil _ := rfl

/-- A root that passes the `RootRollBack` check does not move back. -/
theorem rootAdvances_of_not_rootRollsBack {newRoot currentRoot : Option Nat}
    (h : rootRollsBack newRoot currentRoot = false) : RootAdvances currentRoot newRoot := by
  intro a ha
  cases newRoot with
  | none => cases ha; simp [rootRollsBack] at h
  | some b =>
      cases ha
      simp only [rootRollsBack, decide_eq_false_iff_not, not_lt] at h
      exact ⟨b, rfl, h⟩

/-- A tower installed by `process_new_vote_state` passed every check of the tower
invariant. -/
theorem TowerWellFormed.of_accepted {s s' : VoteState} {newState : List Lockout}
    {newRoot : Option Nat} (h : NewStateAccepted s newState newRoot)
    (hVotes : s'.votes = newState) (hRoot : s'.rootSlot = newRoot) : TowerWellFormed s' := by
  obtain ⟨hValid, hChain⟩ := (checkNewVotes_eq_ok_iff newRoot none newState).mp h.votes_valid
  simp only [Option.toList_none, List.nil_append] at hChain
  subst hVotes hRoot
  exact ⟨⟨h.length_le, fun v hv => (hValid v hv).1, fun v hv => (hValid v hv).2.1,
    hChain.imp fun _ _ hab => hab.1, hChain.imp fun _ _ hab => hab.2.1,
    hChain.imp fun _ _ hab => hab.2.2⟩, fun r hr hr0 v hv => (hValid v hv).2.2 r hr hr0⟩

namespace TowerInvariant

variable {s : VoteState}

theorem processNextVoteSlot (h : TowerInvariant s) (slot epoch : Nat) :
    TowerInvariant (s.processNextVoteSlot slot epoch) where
  wellFormed := h.wellFormed.processNextVoteSlot h.root_of_nil slot epoch
  root_of_nil hNil := by
    rcases s.processNextVoteSlot_eq_or_ne_nil slot epoch with hSame | hNe
    · rw [hSame] at hNil ⊢
      exact h.root_of_nil hNil
    · exact absurd hNil hNe

/-- The votes of one `process_vote`, applied one after another. -/
theorem foldl_processNextVoteSlot (h : TowerInvariant s) (slots : List Nat) (epoch : Nat) :
    TowerInvariant (slots.foldl (fun s slot => s.processNextVoteSlot slot epoch) s) ∧
      RootAdvances s.rootSlot
        (slots.foldl (fun s slot => s.processNextVoteSlot slot epoch) s).rootSlot := by
  induction slots generalizing s with
  | nil => exact ⟨h, RootAdvances.refl _⟩
  | cons slot rest ih =>
      obtain ⟨hInv, hAdv⟩ := ih (h.processNextVoteSlot slot epoch)
      exact ⟨hInv, (VoteState.processNextVoteSlot_rootAdvances h.wellFormed slot epoch).trans hAdv⟩

/-- Step lemma: every accepted call keeps the invariant and does not move the root back. -/
theorem applyVoteCall (h : TowerInvariant s) {call : VoteCall} {s' : VoteState}
    (hCall : applyVoteCall s call = .ok s') :
    TowerInvariant s' ∧ RootAdvances s.rootSlot s'.rootSlot := by
  cases call with
  | nextVoteSlot slot epoch =>
      cases hCall
      exact ⟨h.processNextVoteSlot slot epoch,
        VoteState.processNextVoteSlot_rootAdvances h.wellFormed slot epoch⟩
  | vote vote slotHashes epoch =>
      have hVote : processVote s vote slotHashes epoch = .ok s' := by
        simpa [Vote.applyVoteCall] using hCall
      obtain ⟨voteSlots, rfl⟩ := processVote_ok hVote
      exact h.foldl_processNextVoteSlot voteSlots epoch
  | voteStateUpdate slotHashes epoch update isRootFixEnabled =>
      obtain ⟨checked, -, hNew⟩ := doProcessVoteStateUpdate_ok hCall
      obtain ⟨hAccepted, hVotes, hRoot⟩ := processNewVoteState_ok hNew
      refine ⟨⟨TowerWellFormed.of_accepted hAccepted hVotes hRoot, fun hNil => ?_⟩, ?_⟩
      · exact absurd (hVotes ▸ hNil) hAccepted.ne_nil
      · rw [hRoot]
        exact rootAdvances_of_not_rootRollsBack hAccepted.no_rollback

/-- Run lemma: every tower reached from `VoteState::default()` satisfies the invariant. -/
theorem of_reachable {calls : List VoteCall}
    (hReach : runAll Vote.applyVoteCall VoteState.default calls = .ok s) : TowerInvariant s :=
  runAll_invariant (fun _ _ _ ht hCall => (applyVoteCall ht hCall).1) TowerInvariant.default hReach

end TowerInvariant

/-- Every tower reached from `VoteState::default()` by accepted vote-program calls is well
formed, and from any reached state on, the root never moves back. -/
theorem reachable_tower_wellFormed {calls calls' : List VoteCall} {s s' : VoteState}
    (hReach : runAll applyVoteCall VoteState.default calls = .ok s)
    (hRun : runAll applyVoteCall s calls' = .ok s') :
    TowerWellFormed s' ∧ RootAdvances s.rootSlot s'.rootSlot := by
  have hStep : ∀ t call t', TowerInvariant t → applyVoteCall t call = .ok t' →
      TowerInvariant t' := fun _ _ _ ht hCall => (ht.applyVoteCall hCall).1
  have hInv : TowerInvariant s := TowerInvariant.of_reachable hReach
  refine ⟨(runAll_invariant hStep hInv hRun).wellFormed, ?_⟩
  exact runAll_rel (R := fun t t' => RootAdvances t.rootSlot t'.rootSlot)
    (fun t => RootAdvances.refl t.rootSlot)
    (fun a b c (h₁ : RootAdvances a.rootSlot b.rootSlot)
      (h₂ : RootAdvances b.rootSlot c.rootSlot) => h₁.trans h₂) hStep
    (fun _ _ _ ht hCall => (ht.applyVoteCall hCall).2) hInv hRun

theorem reachable_tower_wellFormed_two_votes :
    runAll applyVoteCall VoteState.default [.nextVoteSlot 1 0] =
        .ok ⟨[⟨1, 1⟩], none, [], ⟨0, 0⟩⟩ ∧
      runAll applyVoteCall ⟨[⟨1, 1⟩], none, [], ⟨0, 0⟩⟩
          [.vote ⟨[2], Hash.default, none⟩ [(2, Hash.default)] 0] =
        .ok ⟨[⟨1, 2⟩, ⟨2, 1⟩], none, [], ⟨0, 0⟩⟩ ∧
      TowerWellFormed ⟨[⟨1, 2⟩, ⟨2, 1⟩], none, [], ⟨0, 0⟩⟩ ∧
      RootAdvances none none :=
  have h₁ : runAll applyVoteCall VoteState.default [.nextVoteSlot 1 0] =
      .ok ⟨[⟨1, 1⟩], none, [], ⟨0, 0⟩⟩ := by decide +kernel
  have h₂ : runAll applyVoteCall ⟨[⟨1, 1⟩], none, [], ⟨0, 0⟩⟩
      [.vote ⟨[2], Hash.default, none⟩ [(2, Hash.default)] 0] =
      .ok ⟨[⟨1, 2⟩, ⟨2, 1⟩], none, [], ⟨0, 0⟩⟩ := by decide +kernel
  ⟨h₁, h₂, reachable_tower_wellFormed h₁ h₂⟩

end PutValidator.Vote
