import PutValidator.Lib.List
import PutValidator.Vote.State

/-! The tower invariant of the vote program and its preservation by
`process_next_vote_slot`. A stack is well formed when it holds at most 31 votes with
confirmation counts in `1..=31`, strictly increasing slots, strictly decreasing counts, and
every vote still locked out at the slot of the vote above it. -/
namespace PutValidator.Vote

open Lib.Word

/-- The five conditions on the lockout stack itself. -/
structure StackWellFormed (votes : List Lockout) : Prop where
  length_le : votes.length ≤ maxLockoutHistory
  confirmation_pos : ∀ v ∈ votes, 0 < v.confirmationCount
  confirmation_le : ∀ v ∈ votes, v.confirmationCount ≤ maxLockoutHistory
  slots_increasing : votes.IsChain fun a b => a.slot < b.slot
  confirmations_decreasing : votes.IsChain fun a b => b.confirmationCount < a.confirmationCount
  locked_out : votes.IsChain fun a b => b.slot ≤ a.lastLockedOutSlot

/-- The root sits below every vote, except that a root of 0 may sit beside a vote for slot
0 (`process_new_vote_state` admits that pair on purpose). -/
def RootBelowVotes (s : VoteState) : Prop :=
  ∀ r ∈ s.rootSlot, r ≠ 0 → ∀ v ∈ s.votes, r < v.slot

/-- The tower invariant. -/
structure TowerWellFormed (s : VoteState) : Prop where
  stack : StackWellFormed s.votes
  root_below : RootBelowVotes s

instance (votes : List Lockout) : Decidable (StackWellFormed votes) :=
  decidable_of_iff (votes.length ≤ maxLockoutHistory ∧ (∀ v ∈ votes, 0 < v.confirmationCount) ∧
      (∀ v ∈ votes, v.confirmationCount ≤ maxLockoutHistory) ∧
      (votes.IsChain fun a b => a.slot < b.slot) ∧
      (votes.IsChain fun a b => b.confirmationCount < a.confirmationCount) ∧
      votes.IsChain fun a b => b.slot ≤ a.lastLockedOutSlot)
    ⟨fun ⟨h₁, h₂, h₃, h₄, h₅, h₆⟩ => ⟨h₁, h₂, h₃, h₄, h₅, h₆⟩,
      fun h => ⟨h.length_le, h.confirmation_pos, h.confirmation_le, h.slots_increasing,
        h.confirmations_decreasing, h.locked_out⟩⟩

instance (s : VoteState) : Decidable (RootBelowVotes s) :=
  inferInstanceAs (Decidable (∀ r ∈ s.rootSlot, r ≠ 0 → ∀ v ∈ s.votes, r < v.slot))

instance (s : VoteState) : Decidable (TowerWellFormed s) :=
  decidable_of_iff (StackWellFormed s.votes ∧ RootBelowVotes s)
    ⟨fun ⟨h₁, h₂⟩ => ⟨h₁, h₂⟩, fun h => ⟨h.stack, h.root_below⟩⟩

/-- A root that is set never moves back: `none` may become anything, `some r` only
`some r'` with `r ≤ r'`. -/
def RootAdvances (r r' : Option Nat) : Prop :=
  ∀ a ∈ r, ∃ b ∈ r', a ≤ b

theorem RootAdvances.refl (r : Option Nat) : RootAdvances r r :=
  fun a ha => ⟨a, ha, le_rfl⟩

theorem RootAdvances.trans {r₁ r₂ r₃ : Option Nat} (h₁ : RootAdvances r₁ r₂)
    (h₂ : RootAdvances r₂ r₃) : RootAdvances r₁ r₃ := by
  intro a ha
  obtain ⟨b, hb, hab⟩ := h₁ a ha
  obtain ⟨c, hc, hbc⟩ := h₂ b hb
  exact ⟨c, hc, hab.trans hbc⟩

namespace Lockout

theorem lockout_mono {a b : Lockout} (h : a.confirmationCount ≤ b.confirmationCount) :
    a.lockout ≤ b.lockout :=
  Nat.pow_le_pow_right (by decide) h

/-- More confirmations on the same slot never shorten the lockout. -/
theorem lastLockedOutSlot_mono {a b : Lockout} (hSlot : a.slot = b.slot)
    (h : a.confirmationCount ≤ b.confirmationCount) :
    a.lastLockedOutSlot ≤ b.lastLockedOutSlot := by
  unfold lastLockedOutSlot
  rw [hSlot]
  exact saturatingAdd_mono_right (lockout_mono h)

end Lockout

namespace StackWellFormed

variable {votes : List Lockout}

/-- A prefix of a well-formed stack is well formed: popping from the back keeps every
condition. -/
theorem of_prefix {pre : List Lockout} (h : StackWellFormed votes) (hp : pre <+: votes) :
    StackWellFormed pre where
  length_le := (hp.length_le).trans h.length_le
  confirmation_pos v hv := h.confirmation_pos v (hp.subset hv)
  confirmation_le v hv := h.confirmation_le v (hp.subset hv)
  slots_increasing := h.slots_increasing.prefix hp
  confirmations_decreasing := h.confirmations_decreasing.prefix hp
  locked_out := h.locked_out.prefix hp

/-- Dropping the oldest vote keeps every condition. -/
theorem tail (h : StackWellFormed votes) : StackWellFormed votes.tail where
  length_le := by have := h.length_le; simp only [List.length_tail]; omega
  confirmation_pos v hv := h.confirmation_pos v (List.mem_of_mem_tail hv)
  confirmation_le v hv := h.confirmation_le v (List.mem_of_mem_tail hv)
  slots_increasing := h.slots_increasing.tail
  confirmations_decreasing := h.confirmations_decreasing.tail
  locked_out := h.locked_out.tail

/-- The slots of a well-formed stack increase between any two votes, not only neighbours. -/
theorem slots_pairwise (h : StackWellFormed votes) :
    votes.Pairwise fun a b => a.slot < b.slot := by
  have : Trans (fun a b : Lockout => a.slot < b.slot) (fun a b : Lockout => a.slot < b.slot)
      (fun a b : Lockout => a.slot < b.slot) := ⟨fun hab hbc => Nat.lt_trans hab hbc⟩
  exact List.isChain_iff_pairwise.mp h.slots_increasing

/-- Strictly decreasing positive counts leave the vote at depth `i` with at least
`len - i` confirmations; this is why `double_lockouts` raises a count by at most one
step beyond that bound. -/
theorem length_le_add_confirmation {l : List Lockout}
    (hPos : ∀ v ∈ l, 0 < v.confirmationCount)
    (hDec : l.IsChain fun a b => b.confirmationCount < a.confirmationCount) :
    ∀ (i : Nat) (hi : i < l.length), l.length ≤ i + l[i].confirmationCount := by
  induction l with
  | nil => intro i hi; simp at hi
  | cons a t ih =>
      have ihT := ih (fun v hv => hPos v (List.mem_cons_of_mem a hv)) hDec.tail
      intro i hi
      cases i with
      | zero =>
          cases t with
          | nil => simpa [Nat.succ_le_iff] using hPos a List.mem_cons_self
          | cons b t =>
              have hb := ihT 0 (by simp)
              have hab : b.confirmationCount < a.confirmationCount :=
                (List.isChain_cons_cons.mp hDec).1
              simp only [List.length_cons, List.getElem_cons_zero] at hb ⊢
              omega
      | succ k =>
          have hk := ihT k (by simpa using hi)
          simp only [List.length_cons, List.getElem_cons_succ]
          omega

end StackWellFormed

namespace VoteState

theorem doubleLockouts_getElem (s : VoteState) (i : Nat) (hi : i < s.votes.length)
    (hi' : i < s.doubleLockouts.votes.length) :
    s.doubleLockouts.votes[i] =
      if i + s.votes[i].confirmationCount < s.votes.length then
        { s.votes[i] with confirmationCount := s.votes[i].confirmationCount + 1 }
      else s.votes[i] := by
  simp [doubleLockouts]

theorem doubleLockouts_confirmationCount (s : VoteState) (i : Nat) (hi : i < s.votes.length)
    (hi' : i < s.doubleLockouts.votes.length) :
    s.doubleLockouts.votes[i].confirmationCount =
      if i + s.votes[i].confirmationCount < s.votes.length then s.votes[i].confirmationCount + 1
      else s.votes[i].confirmationCount := by
  rw [doubleLockouts_getElem s i hi hi']
  split <;> rfl

theorem doubleLockouts_slot (s : VoteState) (i : Nat) (hi : i < s.votes.length)
    (hi' : i < s.doubleLockouts.votes.length) : s.doubleLockouts.votes[i].slot = s.votes[i].slot := by
  rw [doubleLockouts_getElem s i hi hi']
  split <;> rfl

theorem confirmationCount_le_doubleLockouts (s : VoteState) (i : Nat) (hi : i < s.votes.length)
    (hi' : i < s.doubleLockouts.votes.length) :
    s.votes[i].confirmationCount ≤ s.doubleLockouts.votes[i].confirmationCount := by
  rw [doubleLockouts_confirmationCount s i hi hi']
  split <;> omega

/-- `double_lockouts` never moves a slot. -/
theorem doubleLockouts_map_slot (s : VoteState) :
    s.doubleLockouts.votes.map Lockout.slot = s.votes.map Lockout.slot := by
  apply List.ext_getElem (by simp)
  intro i h₁ h₂
  simp only [List.getElem_map, doubleLockouts_slot s i (by simpa using h₂) (by simpa using h₂)]

end VoteState

namespace StackWellFormed

/-- Pushing a vote above a well-formed stack of fewer than 31 votes and doubling the
lockouts gives a well-formed stack, provided the new slot is above every vote and the
top vote is still locked out at it. -/
theorem push_doubleLockouts {s : VoteState} {x : Nat} (h : StackWellFormed s.votes)
    (hLen : s.votes.length < maxLockoutHistory) (hAbove : ∀ v ∈ s.votes, v.slot < x)
    (hLast : ∀ v ∈ s.votes.getLast?, x ≤ v.lastLockedOutSlot) :
    StackWellFormed ({ s with votes := s.votes ++ [Lockout.new x] }).doubleLockouts.votes := by
  set t : VoteState := { s with votes := s.votes ++ [Lockout.new x] } with ht
  have hBound := length_le_add_confirmation h.confirmation_pos h.confirmations_decreasing
  have hPos := h.confirmation_pos
  have hLe := h.confirmation_le
  have hTLen : t.votes.length = s.votes.length + 1 := by simp [ht]
  -- the entries of the pushed stack: the old votes, then the new one
  have hOld : ∀ i (hi : i < s.votes.length), t.votes[i] = s.votes[i] := by
    intro i hi
    simp [ht, List.getElem_append_left hi]
  have hNew : t.votes[s.votes.length] = Lockout.new x := by simp [ht]
  -- the pushed stack already has increasing slots and covering lockouts
  have hSlotsT : t.votes.IsChain fun a b => a.slot < b.slot :=
    Lib.List.isChain_append_singleton h.slots_increasing fun a ha =>
      hAbove a (List.mem_of_getLast? ha)
  have hLockedT : t.votes.IsChain fun a b => b.slot ≤ a.lastLockedOutSlot :=
    Lib.List.isChain_append_singleton h.locked_out hLast
  -- each entry of the pushed stack: a positive count of at most 31 that is at least
  -- `len - 1 - i`, the bound that limits `double_lockouts` to one extra step
  have hEntry : ∀ i (hi : i < t.votes.length), 0 < t.votes[i].confirmationCount ∧
      t.votes[i].confirmationCount ≤ maxLockoutHistory ∧
      t.votes.length ≤ i + t.votes[i].confirmationCount + 1 := by
    intro i hi
    by_cases hOldI : i < s.votes.length
    · rw [hOld i hOldI]
      have := hBound i hOldI
      exact ⟨hPos _ (List.getElem_mem _), hLe _ (List.getElem_mem _), by omega⟩
    · have hEq : i = s.votes.length := by omega
      subst hEq
      have hOne : t.votes[s.votes.length].confirmationCount = 1 := by rw [hNew]; rfl
      exact ⟨by omega, by rw [hOne]; decide, by omega⟩
  -- consecutive counts of the pushed stack: strictly decreasing among the old votes,
  -- and the top old vote has at least the new vote's single confirmation
  have hStep : ∀ i (hi : i + 1 < t.votes.length),
      (i + 1 < s.votes.length ∧
          t.votes[i + 1].confirmationCount < t.votes[i].confirmationCount) ∨
        (i + 1 = s.votes.length ∧ t.votes[i + 1].confirmationCount = 1) := by
    intro i hi
    by_cases hOldI : i + 1 < s.votes.length
    · left
      refine ⟨hOldI, ?_⟩
      rw [hOld i (by omega), hOld (i + 1) hOldI]
      exact List.isChain_iff_getElem.mp h.confirmations_decreasing i hOldI
    · right
      have hEq : i + 1 = s.votes.length := by omega
      refine ⟨hEq, ?_⟩
      simp only [hEq, hNew, Lockout.new]
  refine ⟨?_, ?_, ?_, ?_, ?_, ?_⟩
  · simp only [VoteState.doubleLockouts_length, hTLen]
    unfold maxLockoutHistory at hLen ⊢
    omega
  · intro v hv
    obtain ⟨i, hi, rfl⟩ := List.getElem_of_mem hv
    have hi' : i < t.votes.length := by simpa using hi
    exact lt_of_lt_of_le (hEntry i hi').1 (t.confirmationCount_le_doubleLockouts i hi' hi)
  · intro v hv
    obtain ⟨i, hi, rfl⟩ := List.getElem_of_mem hv
    have hi' : i < t.votes.length := by simpa using hi
    obtain ⟨_, hLeI, hBoundI⟩ := hEntry i hi'
    rw [t.doubleLockouts_confirmationCount i hi' hi]
    unfold maxLockoutHistory at hLen hLeI ⊢
    split <;> omega
  · rw [← List.isChain_map, VoteState.doubleLockouts_map_slot, List.isChain_map]
    exact hSlotsT
  · rw [List.isChain_iff_getElem]
    intro i hi
    have hi' : i + 1 < t.votes.length := by simpa using hi
    obtain ⟨hPosI, -, hBoundI⟩ := hEntry i (by omega)
    obtain ⟨-, -, hBoundJ⟩ := hEntry (i + 1) hi'
    rw [t.doubleLockouts_confirmationCount i (by omega) (by omega),
      t.doubleLockouts_confirmationCount (i + 1) hi' hi]
    rcases hStep i hi' with ⟨-, hLt⟩ | ⟨hTop, hOne⟩
    · split <;> split <;> omega
    · split <;> split <;> omega
  · rw [List.isChain_iff_getElem]
    intro i hi
    have hi' : i + 1 < t.votes.length := by simpa using hi
    rw [t.doubleLockouts_slot (i + 1) hi' hi]
    calc t.votes[i + 1].slot
        ≤ t.votes[i].lastLockedOutSlot :=
          List.isChain_iff_getElem.mp hLockedT i hi'
      _ ≤ t.doubleLockouts.votes[i].lastLockedOutSlot :=
          Lockout.lastLockedOutSlot_mono (t.doubleLockouts_slot i (by omega) (by omega)).symm
            (t.confirmationCount_le_doubleLockouts i (by omega) (by omega))

end StackWellFormed

namespace VoteState

/-- In a slot-increasing stack every slot is at most the last voted slot. -/
theorem slot_le_lastVotedSlot {s : VoteState} (h : s.votes.IsChain fun a b => a.slot < b.slot)
    {v : Lockout} (hv : v ∈ s.votes) {last : Nat} (hLast : s.lastVotedSlot = some last) :
    v.slot ≤ last := by
  have hTrans : Trans (fun a b : Lockout => a.slot < b.slot) (fun a b : Lockout => a.slot < b.slot)
      (fun a b : Lockout => a.slot < b.slot) := ⟨fun hab hbc => Nat.lt_trans hab hbc⟩
  have hPair := List.isChain_iff_pairwise.mp h
  have hne : s.votes ≠ [] := List.ne_nil_of_mem hv
  simp only [lastVotedSlot, lastLockout, List.getLast?_eq_some_getLast hne, Option.map_some,
    Option.some.injEq] at hLast
  subst hLast
  rw [← List.dropLast_append_getLast hne] at hv hPair
  rcases List.mem_append.mp hv with hv | hv
  · exact le_of_lt ((List.pairwise_append.mp hPair).2.2 v hv _ List.mem_cons_self)
  · simp only [List.mem_singleton] at hv
    rw [hv]

/-- A slot that `process_next_vote_slot` does not ignore is above every vote. -/
theorem lt_of_not_ignored {s : VoteState} (h : s.votes.IsChain fun a b => a.slot < b.slot)
    {x : Nat} (hNot : ¬s.lastVotedSlot.any (x ≤ ·)) : ∀ v ∈ s.votes, v.slot < x := by
  intro v hv
  cases hLast : s.lastVotedSlot with
  | none =>
      simp only [lastVotedSlot, lastLockout, Option.map_eq_none_iff,
        List.getLast?_eq_none_iff] at hLast
      simp [hLast] at hv
  | some last =>
      have hle := slot_le_lastVotedSlot h hv hLast
      simp [hLast] at hNot
      omega

theorem popExpiredVotes_prefix (s : VoteState) (x : Nat) :
    (s.popExpiredVotes x).votes <+: s.votes :=
  List.rdropWhile_prefix _ _

/-- A vote that popping removes is no longer locked out at the new slot. -/
theorem lastLockedOutSlot_lt_of_popped (s : VoteState) (x : Nat) {v : Lockout}
    (hv : v ∈ s.votes) (hPopped : v ∉ (s.popExpiredVotes x).votes) : v.lastLockedOutSlot < x := by
  have hSplit : (s.votes.rdropWhile fun v => !v.isLockedOutAtSlot x) ++
      (s.votes.rtakeWhile fun v => !v.isLockedOutAtSlot x) = s.votes :=
    List.rdropWhile_append_rtakeWhile
  rw [← hSplit] at hv
  rcases List.mem_append.mp hv with hKept | hDropped
  · exact absurd hKept hPopped
  · have hExpired := List.mem_rtakeWhile_imp hDropped
    simp only [Lockout.isLockedOutAtSlot, Bool.not_eq_eq_eq_not, Bool.not_true,
      decide_eq_false_iff_not, not_le] at hExpired
    exact hExpired

/-- Popping stops at a vote that is still locked out at the new slot. -/
theorem popExpiredVotes_last (s : VoteState) (x : Nat) :
    ∀ v ∈ (s.popExpiredVotes x).votes.getLast?, x ≤ v.lastLockedOutSlot := by
  intro v hv
  obtain ⟨hne, rfl⟩ := List.mem_getLast?_eq_getLast hv
  have hStop := List.rdropWhile_last_not (fun v : Lockout => !v.isLockedOutAtSlot x) s.votes hne
  have hLocked : ((s.votes.rdropWhile fun v : Lockout => !v.isLockedOutAtSlot x).getLast
      hne).isLockedOutAtSlot x = true := by
    simpa using hStop
  exact of_decide_eq_true hLocked

@[simp] theorem rootOldestVote_votes (s : VoteState) (e : Nat) :
    (s.rootOldestVote e).votes = s.votes.tail := by
  unfold rootOldestVote
  split <;> simp_all

theorem rootOldestVote_rootSlot (s : VoteState) (e : Nat) {oldest : Lockout}
    {rest : List Lockout} (h : s.votes = oldest :: rest) :
    (s.rootOldestVote e).rootSlot = some oldest.slot := by
  simp [rootOldestVote, h]

end VoteState

namespace TowerWellFormed

variable {s : VoteState}

/-- Pushing a vote for `x` onto a tower whose root, if not 0, is below `x` keeps the
tower well formed. -/
theorem push_doubleLockouts {x : Nat} (h : StackWellFormed s.votes)
    (hLen : s.votes.length < maxLockoutHistory) (hAbove : ∀ v ∈ s.votes, v.slot < x)
    (hLast : ∀ v ∈ s.votes.getLast?, x ≤ v.lastLockedOutSlot)
    (hRoot : ∀ r ∈ s.rootSlot, r ≠ 0 → (∀ v ∈ s.votes, r < v.slot) ∧ r < x) :
    TowerWellFormed ({ s with votes := s.votes ++ [Lockout.new x] }).doubleLockouts where
  stack := h.push_doubleLockouts hLen hAbove hLast
  root_below := by
    intro r hr hr0 v hv
    have hSlot := List.mem_map_of_mem (f := Lockout.slot) hv
    rw [VoteState.doubleLockouts_map_slot] at hSlot
    obtain ⟨hBelow, hX⟩ := hRoot r hr hr0
    simp only [List.map_append, List.map_cons, List.map_nil, List.mem_append,
      List.mem_map, List.mem_singleton] at hSlot
    rcases hSlot with ⟨w, hw, hEq⟩ | hEq
    · rw [← hEq]
      exact hBelow w hw
    · rw [hEq]
      exact hX

/-- `process_next_vote_slot` keeps the tower well formed, for every slot that lies above a
nonzero root whenever the stack is empty. -/
theorem processNextVoteSlot_of_root_lt {x : Nat} (h : TowerWellFormed s)
    (hRoot : s.votes = [] → ∀ r ∈ s.rootSlot, r ≠ 0 → r < x) (e : Nat) :
    TowerWellFormed (s.processNextVoteSlot x e) := by
  unfold VoteState.processNextVoteSlot
  have hPre := s.popExpiredVotes_prefix x
  have hPopped : StackWellFormed (s.popExpiredVotes x).votes := h.stack.of_prefix hPre
  split_ifs with hIgn
  · exact h
  have hAbove := VoteState.lt_of_not_ignored h.stack.slots_increasing hIgn
  dsimp only
  by_cases hFull : (s.popExpiredVotes x).votes.length = maxLockoutHistory
  · -- the stack was full after popping: its oldest vote becomes the root
    rw [if_pos hFull]
    obtain ⟨oldest, rest, hSplit⟩ : ∃ oldest rest, (s.popExpiredVotes x).votes = oldest :: rest := by
      cases hv : (s.popExpiredVotes x).votes with
      | nil => simp [hv, maxLockoutHistory] at hFull
      | cons oldest rest => exact ⟨oldest, rest, rfl⟩
    have hRest : rest ≠ [] := by
      rintro rfl
      simp [hSplit, maxLockoutHistory] at hFull
    apply push_doubleLockouts
    · simpa [hSplit] using hPopped.tail
    · simp only [VoteState.rootOldestVote_votes, hSplit, List.tail_cons]
      simp only [hSplit, List.length_cons] at hFull
      omega
    · simp only [VoteState.rootOldestVote_votes, hSplit, List.tail_cons]
      exact fun v hv => hAbove v (hPre.subset (by simp [hSplit, hv]))
    · simp only [VoteState.rootOldestVote_votes, hSplit, List.tail_cons]
      intro v hv
      apply s.popExpiredVotes_last x
      rw [hSplit]
      rw [List.getLast?_eq_some_getLast hRest] at hv
      rw [List.getLast?_eq_some_getLast (List.cons_ne_nil _ _), List.getLast_cons hRest]
      exact hv
    · rw [VoteState.rootOldestVote_rootSlot _ e hSplit]
      simp only [Option.mem_def, Option.some.injEq, VoteState.rootOldestVote_votes, hSplit,
        List.tail_cons]
      rintro r rfl -
      have hChain : (oldest :: rest).IsChain fun a b => a.slot < b.slot := by
        simpa [hSplit] using hPopped.slots_increasing
      have hTrans : Trans (fun a b : Lockout => a.slot < b.slot)
          (fun a b : Lockout => a.slot < b.slot) (fun a b : Lockout => a.slot < b.slot) :=
        ⟨fun hab hbc => Nat.lt_trans hab hbc⟩
      have hPair := List.isChain_iff_pairwise.mp hChain
      exact ⟨fun v hv => List.rel_of_pairwise_cons hPair hv,
        hAbove oldest (hPre.subset (by simp [hSplit]))⟩
  · -- room on the stack: the root is unchanged
    rw [if_neg hFull]
    apply push_doubleLockouts hPopped
    · have := hPopped.length_le
      unfold maxLockoutHistory at hFull this ⊢
      omega
    · exact fun v hv => hAbove v (hPre.subset hv)
    · exact s.popExpiredVotes_last x
    · intro r hr hr0
      have hBelow := h.root_below r hr hr0
      refine ⟨fun v hv => hBelow v (hPre.subset hv), ?_⟩
      cases hv : s.votes with
      | nil => exact hRoot hv r hr hr0
      | cons w rest =>
          have hw : w ∈ s.votes := by simp [hv]
          exact (hBelow w hw).trans (hAbove w hw)

/-- `process_next_vote_slot` keeps the tower well formed, for every slot, provided an empty
stack carries no root (as in every reachable state). -/
theorem processNextVoteSlot (h : TowerWellFormed s) (hEmpty : s.votes = [] → s.rootSlot = none)
    (x e : Nat) : TowerWellFormed (s.processNextVoteSlot x e) :=
  processNextVoteSlot_of_root_lt h (fun hv r hr => by simp [hEmpty hv] at hr) e

end TowerWellFormed

namespace VoteState

/-- `process_next_vote_slot` either ignores the slot or leaves a vote on the stack. -/
theorem processNextVoteSlot_eq_or_ne_nil (s : VoteState) (x e : Nat) :
    s.processNextVoteSlot x e = s ∨ (s.processNextVoteSlot x e).votes ≠ [] := by
  unfold processNextVoteSlot
  split_ifs
  · exact Or.inl rfl
  · right
    intro hNil
    have hLen := congrArg List.length hNil
    simp at hLen

/-- The root only moves when the oldest vote is rooted, and that vote sits above the old
root (or the old root is 0). -/
theorem processNextVoteSlot_rootAdvances {s : VoteState} (h : TowerWellFormed s) (x e : Nat) :
    RootAdvances s.rootSlot (s.processNextVoteSlot x e).rootSlot := by
  unfold processNextVoteSlot
  split_ifs with hIgn
  · exact RootAdvances.refl _
  dsimp only
  split_ifs with hFull
  · cases hv : (s.popExpiredVotes x).votes with
    | nil => simp [hv, maxLockoutHistory] at hFull
    | cons oldest rest =>
        rw [doubleLockouts_rootSlot, rootOldestVote_rootSlot _ e hv]
        intro r hr
        refine ⟨oldest.slot, rfl, ?_⟩
        by_cases hr0 : r = 0
        · omega
        · have hMem : oldest ∈ s.votes := (s.popExpiredVotes_prefix x).subset (by simp [hv])
          exact le_of_lt (h.root_below r hr hr0 oldest hMem)
  · exact RootAdvances.refl _

end VoteState

namespace VoteState

/-- What `process_next_vote_slot` does with a slot it does not ignore: it keeps the votes that
survive popping, except that when they fill the stack the oldest of them becomes the root,
and it pushes the new vote on top. -/
theorem processNextVoteSlot_of_not_ignored {s : VoteState} {x : Nat} (e : Nat)
    (hNot : ¬s.lastVotedSlot.any (x ≤ ·)) :
    ∃ kept : List Lockout,
      (s.processNextVoteSlot x e).votes.map Lockout.slot = kept.map Lockout.slot ++ [x] ∧
      (((s.popExpiredVotes x).votes = kept ∧ (s.processNextVoteSlot x e).rootSlot = s.rootSlot) ∨
        ∃ oldest, (s.popExpiredVotes x).votes = oldest :: kept ∧ kept ≠ [] ∧
          (s.processNextVoteSlot x e).rootSlot = some oldest.slot) := by
  unfold processNextVoteSlot
  rw [if_neg hNot]
  dsimp only
  split_ifs with hFull
  · obtain ⟨oldest, rest, hSplit⟩ : ∃ oldest rest, (s.popExpiredVotes x).votes = oldest :: rest := by
      cases hv : (s.popExpiredVotes x).votes with
      | nil => simp [hv, maxLockoutHistory] at hFull
      | cons oldest rest => exact ⟨oldest, rest, rfl⟩
    refine ⟨rest, ?_, Or.inr ⟨oldest, hSplit, ?_, ?_⟩⟩
    · rw [doubleLockouts_map_slot]
      simp [hSplit]
    · rintro rfl
      simp [hSplit, maxLockoutHistory] at hFull
    · rw [doubleLockouts_rootSlot, rootOldestVote_rootSlot _ e hSplit]
  · refine ⟨(s.popExpiredVotes x).votes, ?_, Or.inl ⟨rfl, rfl⟩⟩
    rw [doubleLockouts_map_slot]
    simp

/-- A root, once set, stays set. -/
theorem processNextVoteSlot_rootSlot_isSome {s : VoteState} (h : s.rootSlot.isSome) (x e : Nat) :
    (s.processNextVoteSlot x e).rootSlot.isSome := by
  by_cases hIgn : s.lastVotedSlot.any (x ≤ ·)
  · simpa [processNextVoteSlot, hIgn] using h
  · obtain ⟨kept, -, ⟨-, hRoot⟩ | ⟨oldest, -, -, hRoot⟩⟩ := processNextVoteSlot_of_not_ignored e hIgn
    · rw [hRoot]
      exact h
    · simp [hRoot]

/-- `double_lockouts` keeps each vote's slot and never lowers its confirmations. -/
theorem mem_doubleLockouts {s : VoteState} {n : Lockout} (hn : n ∈ s.doubleLockouts.votes) :
    ∃ m ∈ s.votes, m.slot = n.slot ∧ m.confirmationCount ≤ n.confirmationCount := by
  obtain ⟨i, hi, rfl⟩ := List.getElem_of_mem hn
  have hi' : i < s.votes.length := by simpa using hi
  exact ⟨s.votes[i], List.getElem_mem hi', (doubleLockouts_slot s i hi' hi).symm,
    confirmationCount_le_doubleLockouts s i hi' hi⟩

/-- Every vote after a step that does not ignore `x` is the new vote on `x`, or a vote that
survived popping, with at least its confirmations. -/
theorem processNextVoteSlot_mem {s : VoteState} {x : Nat} (e : Nat)
    (hNot : ¬s.lastVotedSlot.any (x ≤ ·)) {n : Lockout}
    (hn : n ∈ (s.processNextVoteSlot x e).votes) :
    n.slot = x ∨ ∃ k ∈ (s.popExpiredVotes x).votes, k.slot = n.slot ∧
      k.confirmationCount ≤ n.confirmationCount := by
  unfold processNextVoteSlot at hn
  rw [if_neg hNot] at hn
  obtain ⟨m, hm, hSlot, hConf⟩ := mem_doubleLockouts hn
  rcases List.mem_append.mp hm with hm | hm
  · right
    refine ⟨m, ?_, hSlot, hConf⟩
    split at hm
    · rw [rootOldestVote_votes] at hm
      exact List.mem_of_mem_tail hm
    · exact hm
  · left
    rw [List.mem_singleton.mp hm] at hSlot
    rw [← hSlot, Lockout.new_slot]

theorem processNextVoteSlot_of_ignored {s : VoteState} {x : Nat} (e : Nat)
    (h : s.lastVotedSlot.any (x ≤ ·)) : s.processNextVoteSlot x e = s :=
  if_pos h

/-- After a step the stack is never empty: an ignored slot lies at or below a vote. -/
theorem processNextVoteSlot_votes_ne_nil (s : VoteState) (x e : Nat) :
    (s.processNextVoteSlot x e).votes ≠ [] := by
  by_cases hIgn : s.lastVotedSlot.any (x ≤ ·)
  · rw [processNextVoteSlot_of_ignored e hIgn]
    intro hNil
    simp [lastVotedSlot, lastLockout, hNil] at hIgn
  · obtain ⟨kept, hSlots, -⟩ := processNextVoteSlot_of_not_ignored e hIgn
    intro hNil
    simp [hNil] at hSlots

/-- A slot that is not ignored becomes the last voted slot. -/
theorem processNextVoteSlot_lastVotedSlot {s : VoteState} {x : Nat} (e : Nat)
    (hNot : ¬s.lastVotedSlot.any (x ≤ ·)) : (s.processNextVoteSlot x e).lastVotedSlot = some x := by
  obtain ⟨kept, hSlots, -⟩ := processNextVoteSlot_of_not_ignored e hNot
  rw [lastVotedSlot, lastLockout, ← List.getLast?_map, hSlots]
  simp

end VoteState

end PutValidator.Vote
