import PutValidator.Vote.Invariant

/-! What an accepted vote-state update does to a well-formed tower. The slot-hash walk of
`check_update_vote_state_slots_are_valid` filters out only proposed slots older than the slot
history, so the newest proposed vote survives; and the merge of `process_new_vote_state`
visits every current vote above the new root before the proposal runs out. Together they
give that an update never rolls the tower back: the last vote moves up, the root does not
move down, and every current vote above the new root is kept with at least its
confirmations or has expired before the next proposed vote. -/
namespace PutValidator.Vote

open Lib.Run

/-! ### The slot-hash walk filters only slots older than the history -/

/-- Every index marked for filtering points at a proposed slot older than `earliest`. -/
def FilterBelow (lockouts : List Lockout) (earliest : Nat) (toFilter : List Nat) : Prop :=
  ∀ i ∈ toFilter, ∃ hi : i < lockouts.length, lockouts[i].slot < earliest

theorem FilterBelow.push {lockouts : List Lockout} {earliest : Nat} {toFilter : List Nat}
    (h : FilterBelow lockouts earliest toFilter) {k : Nat} (c : Prop) [Decidable c]
    (hc : c → ∃ hk : k < lockouts.length, lockouts[k].slot < earliest) :
    FilterBelow lockouts earliest (if c then toFilter ++ [k] else toFilter) := by
  intro i hi
  split at hi
  · rcases List.mem_append.mp hi with hi | hi
    · exact h i hi
    · rw [List.mem_singleton.mp hi]
      exact hc ‹c›
  · exact h i hi

/-- The walk marks an index only in its too-old branch, where the proposed slot is the
lockout's own slot and lies below `earliest`. -/
theorem updateWalk_filterBelow {s : VoteState} {lockouts : List Lockout}
    {slotHashes : List SlotHash} {earliest : Nat} {isRootFixEnabled : Bool}
    {rootToCheck : Option Nat} {k shIndex : Nat} {toFilter : List Nat}
    {res : Nat × Nat × List Nat}
    (h : updateWalk s lockouts slotHashes earliest isRootFixEnabled rootToCheck k shIndex
      toFilter = .ok res)
    (hInit : FilterBelow lockouts earliest toFilter) : FilterBelow lockouts earliest res.2.2 := by
  fun_induction updateWalk s lockouts slotHashes earliest isRootFixEnabled rootToCheck k shIndex
    toFilter
  all_goals first
    | simp at h; done
    | (cases h; exact hInit)
    | (rename_i ih; exact ih h hInit)
    | (rename_i ih; refine ih h (hInit.push _ ?_); intro hc; simp at hc; done)
    | (rename_i ih; refine ih h (hInit.push _ ?_); intro _; exact ⟨‹_›, ‹_›⟩)

/-- The `retain` keeps the last lockout unless its index is marked. -/
theorem retainUnfiltered_getLast? (l : List Lockout) :
    ∀ (i : Nat) (toFilter : List Nat), i + l.length - 1 ∉ toFilter →
      (retainUnfiltered l i toFilter).getLast? = l.getLast? := by
  induction l with
  | nil => intro i toFilter _; simp [retainUnfiltered]
  | cons a rest ih =>
      intro i toFilter hNot
      cases rest with
      | nil =>
          cases toFilter with
          | nil => simp [retainUnfiltered]
          | cons next toFilter =>
              have hi : i ≠ next := fun h => hNot (by simp [h])
              simp [retainUnfiltered, hi]
      | cons b rest =>
          have hLen : i + (a :: b :: rest).length - 1 = i + 1 + (b :: rest).length - 1 := by
            simp only [List.length_cons]
            omega
          rw [hLen] at hNot
          have hKept : (retainUnfiltered (b :: rest) (i + 1) toFilter).getLast? =
              (b :: rest).getLast? := ih (i + 1) toFilter hNot
          cases toFilter with
          | nil => rw [retainUnfiltered, List.getLast?_cons, List.getLast?_cons, hKept]
          | cons next toFilter =>
              have hTail : i + 1 + (b :: rest).length - 1 ∉ toFilter :=
                fun h => hNot (List.mem_cons_of_mem _ h)
              by_cases hi : i = next
              · rw [retainUnfiltered, if_pos hi, ih (i + 1) toFilter hTail, List.getLast?_cons_cons]
              · rw [retainUnfiltered, if_neg hi, List.getLast?_cons, List.getLast?_cons, hKept]

/-- The checked update still ends with the newest proposed vote. -/
theorem checkUpdateVoteStateSlotsAreValid_getLast? {s : VoteState}
    {update checked : VoteStateUpdate} {slotHashes : List SlotHash} {isRootFixEnabled : Bool}
    (h : checkUpdateVoteStateSlotsAreValid s update slotHashes isRootFixEnabled = .ok checked) :
    checked.lockouts.getLast? = update.lockouts.getLast? := by
  obtain ⟨last, earliest, root, k, shIndex, toFilter, hLast, -, -, hLe, -, hWalk, -, -, rfl⟩ :=
    checkUpdateVoteStateSlotsAreValid_ok h
  have hFilter := updateWalk_filterBelow hWalk (fun i hi => by simp at hi)
  have hne : update.lockouts ≠ [] := by
    intro hNil
    simp [hNil] at hLast
  have hIdx : update.lockouts.length - 1 < update.lockouts.length := by
    have := List.length_pos_of_ne_nil hne
    omega
  have hLastEq : update.lockouts[update.lockouts.length - 1] = last := by
    rw [← List.getLast_eq_getElem hne]
    simpa [List.getLast?_eq_some_getLast hne] using hLast
  apply retainUnfiltered_getLast?
  intro hMem
  obtain ⟨_, hSlot⟩ := hFilter _ (by simpa using hMem)
  simp only [hLastEq] at hSlot
  omega

/-! ### The merge visits every current vote above the new root -/

/-- What the merge guarantees for a current vote `c` against the proposed votes `new`: the
proposal keeps its slot with at least its confirmations, or the first proposed vote above
it lies beyond its lockout. -/
def MergedAgainst (new : List Lockout) (c : Lockout) : Prop :=
  (∃ w ∈ new, w.slot = c.slot ∧ c.confirmationCount ≤ w.confirmationCount) ∨
    ∃ t ∈ new, c.slot < t.slot ∧ c.lastLockedOutSlot < t.slot ∧
      ∀ u ∈ new, c.slot < u.slot → t.slot ≤ u.slot

theorem MergedAgainst.cons {new : List Lockout} {c n : Lockout} (h : MergedAgainst new c)
    (hn : n.slot < c.slot) : MergedAgainst (n :: new) c := by
  rcases h with ⟨w, hw, hSlot, hConf⟩ | ⟨t, ht, hLt, hLock, hMin⟩
  · exact Or.inl ⟨w, List.mem_cons_of_mem _ hw, hSlot, hConf⟩
  · refine Or.inr ⟨t, List.mem_cons_of_mem _ ht, hLt, hLock, fun u hu hcu => ?_⟩
    rcases List.mem_cons.mp hu with rfl | hu
    · omega
    · exact hMin u hu hcu

/-- An accepted merge of two slot-sorted lists, where every current vote lies at or below
some proposed vote, has merged every current vote (induction along the merge). -/
theorem mergeCheck_ok {cur new : List Lockout} (h : mergeCheck cur new = .ok ())
    (hCur : cur.Pairwise fun a b => a.slot < b.slot)
    (hNew : new.Pairwise fun a b => a.slot < b.slot)
    (hCover : ∀ c ∈ cur, ∃ m ∈ new, c.slot ≤ m.slot) : ∀ c ∈ cur, MergedAgainst new c := by
  fun_induction mergeCheck cur new with
  | case1 => simp at h
  | case2 c cr n nr hLt hLock ih =>
      intro v hv
      rcases List.mem_cons.mp hv with rfl | hv
      · -- `n` passed `v`, and it is the first proposed vote above `v`
        refine Or.inr ⟨n, List.mem_cons_self, hLt, by omega, fun u hu _ => ?_⟩
        rcases List.mem_cons.mp hu with rfl | hu
        · exact Nat.le_refl _
        · exact Nat.le_of_lt (List.rel_of_pairwise_cons hNew hu)
      · exact ih h hCur.of_cons hNew (fun c' hc' => hCover c' (List.mem_cons_of_mem _ hc')) v hv
  | case3 => simp at h
  | case4 c cr n nr hNotLt hEq hConf ih =>
      intro v hv
      rcases List.mem_cons.mp hv with rfl | hv
      · exact Or.inl ⟨n, List.mem_cons_self, hEq.symm, by omega⟩
      · have hCover' : ∀ c' ∈ cr, ∃ m ∈ nr, c'.slot ≤ m.slot := by
          intro c' hc'
          obtain ⟨m, hm, hle⟩ := hCover c' (List.mem_cons_of_mem _ hc')
          rcases List.mem_cons.mp hm with rfl | hm
          · have := List.rel_of_pairwise_cons hCur hc'
            omega
          · exact ⟨m, hm, hle⟩
        have hnv : n.slot < v.slot := hEq ▸ List.rel_of_pairwise_cons hCur hv
        exact (ih h hCur.of_cons hNew.of_cons hCover' v hv).cons hnv
  | case5 c cr n nr hNotLt hNe ih =>
      have hnc : n.slot < c.slot := by omega
      have hAbove : ∀ v ∈ c :: cr, n.slot < v.slot := by
        intro v hv
        rcases List.mem_cons.mp hv with rfl | hv
        · exact hnc
        · exact hnc.trans (List.rel_of_pairwise_cons hCur hv)
      have hCover' : ∀ c' ∈ c :: cr, ∃ m ∈ nr, c'.slot ≤ m.slot := by
        intro c' hc'
        obtain ⟨m, hm, hle⟩ := hCover c' hc'
        rcases List.mem_cons.mp hm with rfl | hm
        · have := hAbove c' hc'
          omega
        · exact ⟨m, hm, hle⟩
      intro v hv
      exact (ih h hCur hNew.of_cons hCover' v hv).cons (hAbove v hv)
  | case6 cur new hNone =>
      intro v hv
      obtain ⟨m, hm, -⟩ := hCover v hv
      cases cur with
      | nil => simp at hv
      | cons c cr =>
          cases new with
          | nil => simp at hm
          | cons n nr => exact (hNone c cr n nr rfl rfl).elim

/-- What lets the merge pass a current vote `c`: every proposed vote on its slot keeps at
least its confirmations, and unless one is on its slot, every proposed vote above it lies
beyond its lockout. -/
def MergeSafe (new : List Lockout) (c : Lockout) : Prop :=
  (∀ n ∈ new, n.slot = c.slot → c.confirmationCount ≤ n.confirmationCount) ∧
    ((∃ w ∈ new, w.slot = c.slot) ∨ ∀ n ∈ new, c.slot < n.slot → c.lastLockedOutSlot < n.slot)

theorem MergeSafe.of_cons {n c : Lockout} {new : List Lockout} (h : MergeSafe (n :: new) c)
    (hn : n.slot ≠ c.slot) : MergeSafe new c := by
  refine ⟨fun m hm => h.1 m (List.mem_cons_of_mem _ hm), ?_⟩
  rcases h.2 with ⟨w, hw, hws⟩ | hAll
  · rcases List.mem_cons.mp hw with rfl | hw
    · exact absurd hws hn
    · exact Or.inl ⟨w, hw, hws⟩
  · exact Or.inr fun m hm => hAll m (List.mem_cons_of_mem _ hm)

/-- Conversely, the merge accepts two slot-sorted lists when it can pass every current vote
(induction along the merge). -/
theorem mergeCheck_eq_ok {cur new : List Lockout}
    (hCur : cur.Pairwise fun a b => a.slot < b.slot)
    (hNew : new.Pairwise fun a b => a.slot < b.slot) (h : ∀ c ∈ cur, MergeSafe new c) :
    mergeCheck cur new = .ok () := by
  fun_induction mergeCheck cur new with
  | case1 c cr n nr hLt hLock =>
      -- `n` would pass `c` inside its lockout
      exfalso
      rcases (h c List.mem_cons_self).2 with ⟨w, hw, hws⟩ | hAll
      · rcases List.mem_cons.mp hw with rfl | hw
        · omega
        · have := List.rel_of_pairwise_cons hNew hw
          omega
      · have := hAll n List.mem_cons_self hLt
        omega
  | case2 c cr n nr hLt hLock ih =>
      exact ih hCur.of_cons hNew fun c' hc' => h c' (List.mem_cons_of_mem _ hc')
  | case3 c cr n nr hNotLt hEq hConf =>
      have := (h c List.mem_cons_self).1 n List.mem_cons_self hEq.symm
      omega
  | case4 c cr n nr hNotLt hEq hConf ih =>
      refine ih hCur.of_cons hNew.of_cons fun c' hc' => ?_
      have hLt := List.rel_of_pairwise_cons hCur hc'
      exact (h c' (List.mem_cons_of_mem _ hc')).of_cons (by omega)
  | case5 c cr n nr hNotLt hNe ih =>
      refine ih hCur hNew.of_cons fun c' hc' => ?_
      have hLe : c.slot ≤ c'.slot := by
        rcases List.mem_cons.mp hc' with rfl | hc'
        · exact Nat.le_refl _
        · exact Nat.le_of_lt (List.rel_of_pairwise_cons hCur hc')
      exact (h c' hc').of_cons (by omega)
  | case6 => rfl

theorem drop_currentVoteStateIndex_some (votes : List Lockout) (r : Nat) :
    votes.drop (currentVoteStateIndex votes (some r)) = votes.dropWhile (·.slot ≤ r) := by
  have hSplit : votes.takeWhile (·.slot ≤ r) ++ votes.dropWhile (·.slot ≤ r) = votes :=
    List.takeWhile_append_dropWhile
  calc votes.drop (currentVoteStateIndex votes (some r))
      = (votes.takeWhile (·.slot ≤ r) ++ votes.dropWhile (·.slot ≤ r)).drop
          (votes.takeWhile (·.slot ≤ r)).length := by
        rw [hSplit, currentVoteStateIndex]
    _ = votes.dropWhile (·.slot ≤ r) := List.drop_left

/-- In a slot-sorted list, what remains after dropping the slots at or below `r` is above
`r`. -/
theorem lt_slot_of_mem_dropWhile {r : Nat} {v : Lockout} :
    ∀ {votes : List Lockout}, (votes.Pairwise fun a b => a.slot < b.slot) →
      v ∈ votes.dropWhile (·.slot ≤ r) → r < v.slot
  | [], _, hv => by simp at hv
  | a :: rest, hSorted, hv => by
      by_cases ha : a.slot ≤ r
      · rw [List.dropWhile_cons_of_pos (by simpa using ha)] at hv
        exact lt_slot_of_mem_dropWhile hSorted.of_cons hv
      · rw [List.dropWhile_cons_of_neg (by simpa using ha)] at hv
        rcases List.mem_cons.mp hv with rfl | hv
        · omega
        · have := List.rel_of_pairwise_cons hSorted hv
          omega

/-- On a slot-sorted tower, the current votes the merge starts from are those above the new
root. -/
theorem lt_slot_of_mem_drop_currentVoteStateIndex {votes : List Lockout} {newRoot : Option Nat}
    (hSorted : votes.Pairwise fun a b => a.slot < b.slot) {v : Lockout}
    (hv : v ∈ votes.drop (currentVoteStateIndex votes newRoot)) : ∀ r ∈ newRoot, r < v.slot := by
  intro r hr
  rw [Option.mem_def.mp hr, drop_currentVoteStateIndex_some] at hv
  exact lt_slot_of_mem_dropWhile hSorted hv

/-- On a slot-sorted tower, the current votes the merge starts from are exactly those above
the new root. -/
theorem mem_drop_currentVoteStateIndex {votes : List Lockout} {newRoot : Option Nat}
    {v : Lockout} (hv : v ∈ votes) (hAbove : ∀ r ∈ newRoot, r < v.slot) :
    v ∈ votes.drop (currentVoteStateIndex votes newRoot) := by
  cases newRoot with
  | none => simpa [currentVoteStateIndex] using hv
  | some r =>
      have hSplit : votes.takeWhile (·.slot ≤ r) ++ votes.dropWhile (·.slot ≤ r) = votes :=
        List.takeWhile_append_dropWhile
      rw [drop_currentVoteStateIndex_some]
      rw [← hSplit] at hv
      rcases List.mem_append.mp hv with hTaken | hDropped
      · have hLe := List.mem_takeWhile_imp hTaken
        have hLt := hAbove r rfl
        simp only [decide_eq_true_eq] at hLe
        omega
      · exact hDropped

/-! ### No rollback -/

/-- A new tower that does not roll the old one back: its last voted slot is above the old
one, a root is kept or raised, and every old vote above the new root is kept with at least
its confirmations, or expired before the first new vote above it. -/
structure NoRollback (s s' : VoteState) : Prop where
  last_voted_up : ∃ last', s'.lastVotedSlot = some last' ∧ ∀ last ∈ s.lastVotedSlot, last < last'
  root_advances : RootAdvances s.rootSlot s'.rootSlot
  kept_or_expired : ∀ v ∈ s.votes, (∀ r ∈ s'.rootSlot, r < v.slot) → MergedAgainst s'.votes v

/-- An accepted vote-state update never rolls a well-formed tower back. -/
theorem doProcessVoteStateUpdate_no_rollback {s s' : VoteState} {slotHashes : List SlotHash}
    {epoch : Nat} {update : VoteStateUpdate} {isRootFixEnabled : Bool} (hWF : TowerWellFormed s)
    (h : doProcessVoteStateUpdate s slotHashes epoch update isRootFixEnabled = .ok s') :
    NoRollback s s' := by
  obtain ⟨checked, hCheck, hProc⟩ := doProcessVoteStateUpdate_ok h
  obtain ⟨hAcc, hVotes, hRoot⟩ := processNewVoteState_ok hProc
  obtain ⟨last, -, -, -, -, -, hLast, hNew, -⟩ := checkUpdateVoteStateSlotsAreValid_ok hCheck
  have hKeep : s'.votes.getLast? = some last := by
    rw [hVotes, checkUpdateVoteStateSlotsAreValid_getLast? hCheck, hLast]
  -- every current vote lies below the newest proposed vote
  have hBelow : ∀ v ∈ s.votes, v.slot < last.slot := by
    intro v hv
    have hne : s.votes ≠ [] := List.ne_nil_of_mem hv
    have hLastVoted : s.lastVotedSlot = some (s.votes.getLast hne).slot := by
      simp [VoteState.lastVotedSlot, VoteState.lastLockout, List.getLast?_eq_some_getLast hne]
    have hLe := VoteState.slot_le_lastVotedSlot hWF.stack.slots_increasing hv hLastVoted
    simp only [hLastVoted, Option.any_some, decide_eq_true_eq, not_le] at hNew
    omega
  refine ⟨⟨last.slot, ?_, ?_⟩, ?_, ?_⟩
  · simp [VoteState.lastVotedSlot, VoteState.lastLockout, hKeep]
  · intro l hl
    simp only [Option.mem_def.mp hl, Option.any_some, decide_eq_true_eq, not_le] at hNew
    exact hNew
  · rw [hRoot]
    exact rootAdvances_of_not_rootRollsBack hAcc.no_rollback
  · intro v hv hAbove
    rw [hRoot] at hAbove
    have hTrans : Trans (fun a b : Lockout => a.slot < b.slot) (fun a b : Lockout => a.slot < b.slot)
        (fun a b : Lockout => a.slot < b.slot) := ⟨fun hab hbc => Nat.lt_trans hab hbc⟩
    have hCur : (s.votes.drop (currentVoteStateIndex s.votes checked.root)).Pairwise
        fun a b => a.slot < b.slot :=
      (List.isChain_iff_pairwise.mp hWF.stack.slots_increasing).sublist (List.drop_sublist _ _)
    have hNewSorted : checked.lockouts.Pairwise fun a b => a.slot < b.slot := by
      have hChain := ((checkNewVotes_eq_ok_iff _ none _).mp hAcc.votes_valid).2
      simp only [Option.toList_none, List.nil_append] at hChain
      exact List.isChain_iff_pairwise.mp (hChain.imp fun _ _ hab => hab.1)
    have hLastMem : last ∈ checked.lockouts := by
      rw [← hVotes]
      exact List.mem_of_getLast? hKeep
    have hCover : ∀ c ∈ s.votes.drop (currentVoteStateIndex s.votes checked.root),
        ∃ m ∈ checked.lockouts, c.slot ≤ m.slot :=
      fun c hc => ⟨last, hLastMem, Nat.le_of_lt (hBelow c (List.mem_of_mem_drop hc))⟩
    rw [hVotes]
    exact mergeCheck_ok hAcc.merge_valid hCur hNewSorted hCover v
      (mem_drop_currentVoteStateIndex hv hAbove)

/-- A vote on slot 2 that also raises the confirmations of slot 1. -/
theorem doProcessVoteStateUpdate_no_rollback_two_votes :
    NoRollback ⟨[⟨1, 1⟩], none, [], ⟨0, 0⟩⟩ ⟨[⟨1, 2⟩, ⟨2, 1⟩], none, [], ⟨0, 0⟩⟩ :=
  doProcessVoteStateUpdate_no_rollback (by decide +kernel)
    (by decide +kernel : doProcessVoteStateUpdate ⟨[⟨1, 1⟩], none, [], ⟨0, 0⟩⟩
      [(2, Hash.default), (1, Hash.default)] 0 ⟨[⟨1, 2⟩, ⟨2, 1⟩], none, Hash.default, none⟩ false =
        .ok ⟨[⟨1, 2⟩, ⟨2, 1⟩], none, [], ⟨0, 0⟩⟩)

/-! ### The root fix meets a vote at the root -/

/-- `process_new_vote_state` admits a root of 0 beside a vote for slot 0, while the root-fix
walk asserts that every current vote lies strictly above the current root. An accepted
update installs that tower; the next update whose proposed root is older than the slot
history panics in the walk. -/
theorem checkUpdateVoteStateSlotsAreValid_panics_on_root_zero :
    runAll applyVoteCall VoteState.default
        [.voteStateUpdate [(0, Hash.default)] 0 ⟨[⟨0, 1⟩], some 0, Hash.default, none⟩ true] =
      .ok ⟨[⟨0, 1⟩], some 0, [(0, 1, 0)], ⟨0, 0⟩⟩ ∧
    checkUpdateVoteStateSlotsAreValid ⟨[⟨0, 1⟩], some 0, [(0, 1, 0)], ⟨0, 0⟩⟩
        ⟨[⟨5, 1⟩], some 1, Hash.default, none⟩ [(5, Hash.default)] true = .error .panic :=
  ⟨by decide +kernel, by decide +kernel⟩

end PutValidator.Vote
