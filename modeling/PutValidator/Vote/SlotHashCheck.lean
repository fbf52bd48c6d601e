import PutValidator.Vote.Program
import PutValidator.Vote.WellFormed
import PutValidator.Lib.GreedyMatch
import PutValidator.Lib.List

/-! What the slot-hash checks of the vote program accept. The root fix of
`check_update_vote_state_slots_are_valid` takes the newest current vote at or below a root
older than the slot history; the walk of `check_slots_are_valid` is a greedy search of the
new vote slots in the slot history, oldest first, so `process_vote` accepts a vote exactly
when those slots form a sublist of the history ending on the vote's hash, and does not go on
past the newest slot of the history. -/
namespace PutValidator.Vote

open List Lib.Except Lib.GreedyMatch

/-! ### The root fix -/

/-- Over votes newest first, the walk returns the newest vote at or below the proposed root,
the largest such slot, or the current root when there is none. -/
theorem rootFixWalk_eq_ok {newProposedRoot : Nat} {currentRoot : Option Nat} {prevSlot : Nat}
    {votes : List Lockout} (hDesc : votes.Pairwise fun a b => b.slot < a.slot)
    {root : Option Nat} (h : rootFixWalk newProposedRoot currentRoot prevSlot votes = .ok root) :
    root = (((votes.map Lockout.slot).filter (· ≤ newProposedRoot)).max?).or currentRoot := by
  induction votes generalizing prevSlot with
  | nil =>
      cases h
      rfl
  | cons vote older ih =>
      rw [List.pairwise_cons] at hDesc
      unfold rootFixWalk at h
      split_ifs at h with hGuard hBelow
      · -- the newest vote at or below the root is above every older one
        cases h
        have hMax : ((vote.slot :: (older.map Lockout.slot).filter (· ≤ newProposedRoot)).max?) =
            some vote.slot := by
          rw [List.max?_eq_some_iff]
          refine ⟨List.mem_cons_self, fun b hb => ?_⟩
          rcases List.mem_cons.mp hb with rfl | hb
          · exact le_rfl
          · obtain ⟨v, hv, rfl⟩ := List.mem_map.mp (List.mem_filter.mp hb).1
            exact le_of_lt (hDesc.1 v hv)
        rw [List.map_cons, List.filter_cons_of_pos (by simpa using hBelow), hMax]
        rfl
      · rw [List.map_cons, List.filter_cons_of_neg (by simpa using hBelow)]
        exact ih hDesc.2 h

/-- Every current vote lies below the previous one and strictly above the current root, so
the root-fix walk does not panic. -/
theorem rootFixWalk_isOk {newProposedRoot : Nat} {currentRoot : Option Nat} {prevSlot : Nat}
    {votes : List Lockout} (hDesc : votes.Pairwise fun a b => b.slot < a.slot)
    (hPrev : ∀ v ∈ votes, v.slot < prevSlot) (hAbove : ∀ r ∈ currentRoot, ∀ v ∈ votes, r < v.slot) :
    ∃ root, rootFixWalk newProposedRoot currentRoot prevSlot votes = .ok root := by
  induction votes generalizing prevSlot with
  | nil => exact ⟨_, rfl⟩
  | cons vote older ih =>
      rw [List.pairwise_cons] at hDesc
      have hGuard : vote.slot < prevSlot ∧ currentRoot.all (· < vote.slot) := by
        refine ⟨hPrev vote List.mem_cons_self, ?_⟩
        cases currentRoot with
        | none => rfl
        | some r => simpa using hAbove r rfl vote List.mem_cons_self
      unfold rootFixWalk
      rw [if_pos hGuard]
      split
      · exact ⟨_, rfl⟩
      · exact ih hDesc.2 hDesc.1 fun r hr v hv => hAbove r hr v (List.mem_cons_of_mem _ hv)

/-- The root the update is checked with: a proposed root older than the history becomes the
current root, or under the root fix the largest current vote slot at or below it. -/
def rewrittenRoot (s : VoteState) (update : VoteStateUpdate) (earliest : Nat)
    (isRootFixEnabled : Bool) : Option Nat :=
  match update.root with
  | some r =>
      if r < earliest then
        if isRootFixEnabled then ((s.votes.map Lockout.slot).filter (· ≤ r)).max?.or s.rootSlot
        else s.rootSlot
      else some r
  | none => none

/-- On a slot-increasing tower, the root the check computes is `rewrittenRoot`. -/
theorem checkedRoot_eq_ok {s : VoteState} (hVotes : s.votes.IsChain fun a b => a.slot < b.slot)
    {update : VoteStateUpdate} {earliest : Nat} {isRootFixEnabled : Bool} {root : Option Nat}
    (h : checkedRoot s update earliest isRootFixEnabled = .ok root) :
    root = rewrittenRoot s update earliest isRootFixEnabled := by
  -- the walk runs over the votes newest first, which the tower keeps strictly decreasing
  have hDesc : s.votes.reverse.Pairwise fun a b => b.slot < a.slot :=
    List.pairwise_reverse.mpr (List.isChain_iff_pairwise.mp hVotes)
  unfold checkedRoot at h
  unfold rewrittenRoot
  cases hRoot : update.root with
  | none => rw [hRoot] at h; cases h; rfl
  | some r =>
      simp only [hRoot] at h ⊢
      split_ifs at h ⊢ with hOld hFix
      · rw [rootFixWalk_eq_ok hDesc h, List.map_reverse, List.filter_reverse,
          Lib.List.max?_reverse]
      · cases h; rfl
      · cases h; rfl

/-- With votes strictly above the root and below `Slot::MAX`, the check computes
`rewrittenRoot` without panicking. -/
theorem checkedRoot_eq_rewrittenRoot {s : VoteState}
    (hVotes : s.votes.IsChain fun a b => a.slot < b.slot)
    (hAbove : ∀ r ∈ s.rootSlot, ∀ v ∈ s.votes, r < v.slot) (hMax : ∀ v ∈ s.votes, v.slot < slotMax)
    (update : VoteStateUpdate) (earliest : Nat) (isRootFixEnabled : Bool) :
    checkedRoot s update earliest isRootFixEnabled =
      .ok (rewrittenRoot s update earliest isRootFixEnabled) := by
  have hDesc : s.votes.reverse.Pairwise fun a b => b.slot < a.slot :=
    List.pairwise_reverse.mpr (List.isChain_iff_pairwise.mp hVotes)
  have hTotal : ∃ root, checkedRoot s update earliest isRootFixEnabled = .ok root := by
    unfold checkedRoot
    split
    · split
      · split
        · exact rootFixWalk_isOk hDesc (fun v hv => hMax v (List.mem_reverse.mp hv))
            fun r hr v hv => hAbove r hr v (List.mem_reverse.mp hv)
        · exact ⟨_, rfl⟩
      · exact ⟨_, rfl⟩
    · exact ⟨_, rfl⟩
  obtain ⟨root, h⟩ := hTotal
  rw [h, checkedRoot_eq_ok hVotes h]

/-- With the root fix, an accepted update whose proposed root is older than the slot history
comes back with the largest current vote slot at or below that root, or with the current
root when no vote is that old. -/
theorem checkUpdateVoteStateSlotsAreValid_root_fix {s : VoteState} (hWF : TowerWellFormed s)
    {update checked : VoteStateUpdate} {slotHashes : List SlotHash} {r earliest : Nat}
    (hRoot : update.root = some r)
    (hEarliest : slotHashes.getLast?.map Prod.fst = some earliest) (hOld : r < earliest)
    (h : checkUpdateVoteStateSlotsAreValid s update slotHashes true = .ok checked) :
    checked.root = (((s.votes.map Lockout.slot).filter (· ≤ r)).max?).or s.rootSlot := by
  obtain ⟨-, earliest', root, -, -, -, -, -, hEarliest', -, hChecked, -, -, -, rfl⟩ :=
    checkUpdateVoteStateSlotsAreValid_ok h
  rw [hEarliest, Option.some.injEq] at hEarliest'
  subst hEarliest'
  rw [checkedRoot_eq_ok hWF.stack.slots_increasing hChecked]
  simp only [rewrittenRoot, hRoot, if_pos hOld, if_true]

/-- A proposed root of 4 under a history starting at slot 6 becomes the vote on slot 3. -/
theorem checkUpdateVoteStateSlotsAreValid_root_fix_between_votes :
    (⟨[⟨7, 1⟩], some 3, Hash.default, none⟩ : VoteStateUpdate).root =
      ((([⟨3, 2⟩, ⟨5, 1⟩] : List Lockout).map Lockout.slot).filter (· ≤ 4)).max?.or none :=
  @checkUpdateVoteStateSlotsAreValid_root_fix ⟨[⟨3, 2⟩, ⟨5, 1⟩], none, [], ⟨0, 0⟩⟩ (by decide)
    ⟨[⟨7, 1⟩], some 4, Hash.default, none⟩ ⟨[⟨7, 1⟩], some 3, Hash.default, none⟩
    [(7, Hash.default), (6, Hash.default)] 4 6 rfl rfl (by decide) (by decide +kernel)

/-! ### `check_slots_are_valid` as a greedy search -/

/-- The vote slots `check_slots_are_valid` steps over: those at or below the last vote. -/
def alreadyVoted (lastVotedSlot : Option Nat) (slot : Nat) : Bool :=
  lastVotedSlot.any (slot ≤ ·)

theorem reverse_take_succ {α : Type} (l : List α) {j : Nat} (hj : j < l.length) :
    (l.take (j + 1)).reverse = l[j] :: (l.take j).reverse := by
  rw [List.take_add_one, List.getElem?_eq_getElem hj]
  simp

/-- The walk of `check_slots_are_valid` is the greedy search of the vote slots not yet voted in
the slot history read oldest first: its indexes count what the search has not consumed. -/
theorem checkSlotsWalk_eq (lastVotedSlot : Option Nat) (voteSlots : List Nat)
    (slotHashes : List SlotHash) {i j : Nat} (hi : i ≤ voteSlots.length)
    (hj : j ≤ slotHashes.length) :
    checkSlotsWalk lastVotedSlot voteSlots slotHashes i j =
      (voteSlots.length - (walk (alreadyVoted lastVotedSlot) (voteSlots.drop i)
          ((slotHashes.take j).reverse.map Prod.fst)).1.length,
        (walk (alreadyVoted lastVotedSlot) (voteSlots.drop i)
          ((slotHashes.take j).reverse.map Prod.fst)).2.length) := by
  fun_induction checkSlotsWalk lastVotedSlot voteSlots slotHashes i j with
  | case1 i j hLt hPos hSkip ih =>
      obtain ⟨j, rfl⟩ : ∃ j', j = j' + 1 := ⟨j - 1, by omega⟩
      have hSkip' : alreadyVoted lastVotedSlot voteSlots[i] = true := hSkip
      rw [ih (by omega) hj, List.drop_eq_getElem_cons hLt, reverse_take_succ _ (by omega),
        List.map_cons, walk, if_pos hSkip']
  | case2 i j hLt hPos hSkip hNe ih =>
      obtain ⟨j, rfl⟩ : ∃ j', j = j' + 1 := ⟨j - 1, by omega⟩
      have hSkip' : alreadyVoted lastVotedSlot voteSlots[i] = false := by
        simpa [alreadyVoted] using hSkip
      rw [Nat.add_sub_cancel, getElem!_pos slotHashes j (by omega)] at hNe
      rw [ih hi (by omega), List.drop_eq_getElem_cons hLt, reverse_take_succ _ (by omega),
        List.map_cons, walk, if_neg (by simp [hSkip']), if_pos hNe, Nat.add_sub_cancel]
  | case3 i j hLt hPos hSkip hEq ih =>
      obtain ⟨j, rfl⟩ : ∃ j', j = j' + 1 := ⟨j - 1, by omega⟩
      have hSkip' : alreadyVoted lastVotedSlot voteSlots[i] = false := by
        simpa [alreadyVoted] using hSkip
      rw [Nat.add_sub_cancel, getElem!_pos slotHashes j (by omega)] at hEq
      rw [ih (by omega) (by omega), List.drop_eq_getElem_cons hLt, reverse_take_succ _ (by omega),
        List.map_cons, walk, if_neg (by simp [hSkip']), if_neg hEq, Nat.add_sub_cancel]
  | case4 i j hLt hZero =>
      -- the history is used up: the search stops with the slots from `i` on left over
      obtain rfl : j = 0 := by omega
      rw [List.drop_eq_getElem_cons hLt, List.take_zero, List.reverse_nil, List.map_nil, walk]
      refine Prod.ext ?_ rfl
      show i = voteSlots.length - (voteSlots.drop (i + 1)).length.succ
      rw [List.length_drop]
      omega
  | case5 i j hGe =>
      obtain rfl : i = voteSlots.length := by omega
      rw [List.drop_length, walk]
      refine Prod.ext (Nat.sub_zero _).symm ?_
      show j = (List.map Prod.fst (slotHashes.take j).reverse).length
      rw [List.length_map, List.length_reverse, List.length_take]
      omega

/-- `check_slots_are_valid` accepts when the search consumed every vote slot and some of the
history, and the last history entry it consumed carries the vote's hash. -/
theorem checkSlotsAreValid_eq_ok_iff (s : VoteState) {voteSlots : List Nat}
    (hSlots : voteSlots ≠ []) (voteHash : Hash) (slotHashes : List SlotHash) :
    checkSlotsAreValid s voteSlots voteHash slotHashes = .ok () ↔
      ∃ rest, walk (alreadyVoted s.lastVotedSlot) voteSlots (slotHashes.reverse.map Prod.fst) =
          ([], rest) ∧ rest.length ≠ slotHashes.length ∧ (slotHashes[rest.length]!).2 = voteHash := by
  unfold checkSlotsAreValid
  rw [checkSlotsWalk_eq _ _ _ (Nat.zero_le _) (Nat.le_refl _), List.drop_zero, List.take_length]
  have hLe : (walk (alreadyVoted s.lastVotedSlot) voteSlots
      (slotHashes.reverse.map Prod.fst)).1.length ≤ voteSlots.length :=
    length_walk_fst_le voteSlots (slotHashes.reverse.map Prod.fst)
  generalize walk (alreadyVoted s.lastVotedSlot) voteSlots (slotHashes.reverse.map Prod.fst) = r
    at hLe ⊢
  obtain ⟨left, rest⟩ := r
  have hLen : 0 < voteSlots.length := List.length_pos_iff.mpr hSlots
  -- every vote slot was consumed exactly when the first index reached the end
  have hAll : voteSlots.length - left.length = voteSlots.length ↔ left = [] := by
    rw [← List.length_eq_zero_iff]
    omega
  simp only
  by_cases hUsed : rest.length = slotHashes.length
  · simp [hUsed]
  by_cases hLeft : left = []
  · subst hLeft
    simp [hUsed]
  · simp [hUsed, hAll, hLeft]

/-- Where the search stopped in the history read oldest first, the entry at the index it
returns holds the last slot it consumed. -/
theorem getElem?_length_rest {slotHashes : List SlotHash} {used rest : List Nat}
    (hSplit : slotHashes.reverse.map Prod.fst = used ++ rest) {x : Nat}
    (hx : used.getLast? = some x) : ∃ hash, slotHashes[rest.length]? = some (x, hash) := by
  obtain ⟨usedEntries, restEntries, hEntries, rfl, rfl⟩ := List.map_eq_append_iff.mp hSplit
  have hHistory : slotHashes = restEntries.reverse ++ usedEntries.reverse := by
    rw [← List.reverse_reverse slotHashes, hEntries, List.reverse_append]
  rw [List.getLast?_map] at hx
  obtain ⟨⟨x', hash⟩, hLast, rfl⟩ := Option.map_eq_some_iff.mp hx
  refine ⟨hash, ?_⟩
  rw [hHistory, List.length_map, List.getElem?_append_right (by simp), List.length_reverse,
    Nat.sub_self, ← List.head?_eq_getElem?, List.head?_reverse]
  exact hLast

/-- In a history sorted newest first, a slot has one entry. -/
theorem eq_of_mem_of_slot_eq {slotHashes : List SlotHash}
    (hSorted : slotHashes.Pairwise fun a b => b.1 < a.1) {a b : SlotHash} (ha : a ∈ slotHashes)
    (hb : b ∈ slotHashes) (hSlot : a.1 = b.1) : a = b := by
  have hDesc : (slotHashes.map Prod.fst).Pairwise fun x y => y < x := List.pairwise_map.mpr hSorted
  have hNodup : (slotHashes.map Prod.fst).Nodup := hDesc.imp fun h => Nat.ne_of_gt h
  exact List.inj_on_of_nodup_map hNodup ha hb hSlot

/-! ### What `process_vote` accepts -/

/-- The vote's slots that `process_vote` keeps: those not older than the slot history. -/
def recentSlots (vote : Vote) (slotHashes : List SlotHash) : List Nat :=
  vote.slots.filter (((slotHashes.getLast?.map Prod.fst).getD 0) ≤ ·)

/-- Of those, the slots above the last vote, which the check looks for in the history. -/
def newSlots (s : VoteState) (vote : Vote) (slotHashes : List SlotHash) : List Nat :=
  kept (alreadyVoted s.lastVotedSlot) (recentSlots vote slotHashes)

/-- What `process_vote` accepts: some recent slot above the last vote, those slots in the history
read oldest first, the newest of them with the vote's hash, and no recent slot after it when it
is the newest slot of the history. -/
structure VoteAccepted (s : VoteState) (vote : Vote) (slotHashes : List SlotHash) : Prop where
  new_ne_nil : newSlots s vote slotHashes ≠ []
  sublist : newSlots s vote slotHashes <+ slotHashes.reverse.map Prod.fst
  hash : ∀ x ∈ (newSlots s vote slotHashes).getLast?, (x, vote.hash) ∈ slotHashes
  stops : (newSlots s vote slotHashes).getLast? = slotHashes.head?.map Prod.fst →
    (recentSlots vote slotHashes).getLast? = (newSlots s vote slotHashes).getLast?

instance (s : VoteState) (vote : Vote) (slotHashes : List SlotHash) :
    Decidable (VoteAccepted s vote slotHashes) :=
  decidable_of_iff (newSlots s vote slotHashes ≠ [] ∧
      newSlots s vote slotHashes <+ slotHashes.reverse.map Prod.fst ∧
      (∀ x ∈ (newSlots s vote slotHashes).getLast?, (x, vote.hash) ∈ slotHashes) ∧
      ((newSlots s vote slotHashes).getLast? = slotHashes.head?.map Prod.fst →
        (recentSlots vote slotHashes).getLast? = (newSlots s vote slotHashes).getLast?))
    ⟨fun ⟨h₁, h₂, h₃, h₄⟩ => ⟨h₁, h₂, h₃, h₄⟩, fun h => ⟨h.new_ne_nil, h.sublist, h.hash, h.stops⟩⟩

/-- `process_vote` on a non-empty vote runs the check on its recent slots. -/
theorem processVote_isOk_iff (s : VoteState) {vote : Vote} (hVote : vote.slots ≠ [])
    (slotHashes : List SlotHash) (epoch : Nat) :
    (∃ s', processVote s vote slotHashes epoch = .ok s') ↔
      recentSlots vote slotHashes ≠ [] ∧
        checkSlotsAreValid s (recentSlots vote slotHashes) vote.hash slotHashes = .ok () := by
  simp only [processVote, bind_eq_ok, failIf_eq_ok, pure_eq_ok, List.isEmpty_iff, hVote,
    not_false_eq_true, true_and, exists_const]
  constructor
  · rintro ⟨_, hRecent, ⟨⟩, hCheck, -⟩
    exact ⟨hRecent, hCheck⟩
  · rintro ⟨hRecent, hCheck⟩
    exact ⟨_, hRecent, (), hCheck, rfl⟩

/-- Over a history sorted newest first, the check on the recent slots accepts exactly what
`VoteAccepted` describes. -/
theorem checkSlotsAreValid_recentSlots_iff (s : VoteState) (vote : Vote)
    {slotHashes : List SlotHash} (hSorted : slotHashes.Pairwise fun a b => b.1 < a.1) :
    (recentSlots vote slotHashes ≠ [] ∧
        checkSlotsAreValid s (recentSlots vote slotHashes) vote.hash slotHashes = .ok ()) ↔
      VoteAccepted s vote slotHashes := by
  -- the history read oldest first: duplicate-free, ending on the newest slot
  have hNodup : (slotHashes.reverse.map Prod.fst).Nodup := by
    rw [List.map_reverse, List.nodup_reverse]
    exact (List.pairwise_map.mpr hSorted).imp fun h => Nat.ne_of_gt h
  have hEnd : (slotHashes.reverse.map Prod.fst).getLast? = slotHashes.head?.map Prod.fst := by
    simp
  have hLength : (slotHashes.reverse.map Prod.fst).length = slotHashes.length := by simp
  constructor
  · rintro ⟨hRecent, hCheck⟩
    obtain ⟨rest, hWalk, hUsed, hHash⟩ :=
      (checkSlotsAreValid_eq_ok_iff s hRecent vote.hash slotHashes).mp hCheck
    have hNew : newSlots s vote slotHashes ≠ [] := fun hNil =>
      hUsed (((walk_eq_nil_left_length_iff hWalk).mpr hNil).trans hLength)
    obtain ⟨hSub, hStops⟩ := (walk_eq_nil_left_iff hNodup hNew).mp ⟨rest, hWalk⟩
    refine ⟨hNew, hSub, fun x hx => ?_, fun h => hStops (h.trans hEnd.symm)⟩
    -- the entry the check reads holds the newest new slot
    obtain ⟨used, hSplit, -, hLast, -⟩ := walk_eq_nil_left hWalk
    obtain ⟨hash, hEntry⟩ := getElem?_length_rest hSplit (hLast.symm.trans hx)
    rw [List.getElem!_of_getElem? hEntry] at hHash
    rw [← hHash]
    exact List.mem_of_getElem? hEntry
  · intro hAcc
    have hRecent : recentSlots vote slotHashes ≠ [] := fun hNil =>
      hAcc.new_ne_nil (by rw [newSlots, hNil]; rfl)
    obtain ⟨rest, hWalk⟩ := (walk_eq_nil_left_iff hNodup hAcc.new_ne_nil).mpr
      ⟨hAcc.sublist, fun h => hAcc.stops (h.trans hEnd)⟩
    refine ⟨hRecent, (checkSlotsAreValid_eq_ok_iff s hRecent vote.hash slotHashes).mpr
      ⟨rest, hWalk, fun hAll => ?_, ?_⟩⟩
    · exact hAcc.new_ne_nil ((walk_eq_nil_left_length_iff hWalk).mp (hAll.trans hLength.symm))
    · -- the entry read is the one of the newest new slot, and that slot has one entry
      obtain ⟨used, hSplit, -, hLast, -⟩ := walk_eq_nil_left hWalk
      obtain ⟨x, hx⟩ := Option.ne_none_iff_exists'.mp
        (mt List.getLast?_eq_none_iff.mp hAcc.new_ne_nil)
      obtain ⟨hash, hEntry⟩ := getElem?_length_rest hSplit (hLast.symm.trans hx)
      have hSame := eq_of_mem_of_slot_eq hSorted (List.mem_of_getElem? hEntry) (hAcc.hash x hx) rfl
      rw [List.getElem!_of_getElem? hEntry, hSame]

/-! ### The last vote after `process_vote` -/

/-- The last voted slot moves, slot by slot, to each slot above it. -/
theorem lastVotedSlot_foldl_processNextVoteSlot (slots : List Nat) (s : VoteState)
    (epoch : Nat) :
    (slots.foldl (fun s slot => s.processNextVoteSlot slot epoch) s).lastVotedSlot =
      slots.foldl (fun last slot => if alreadyVoted last slot then last else some slot)
        s.lastVotedSlot := by
  induction slots generalizing s with
  | nil => rfl
  | cons slot rest ih =>
      rw [List.foldl_cons, List.foldl_cons, ih]
      congr 1
      by_cases hVoted : alreadyVoted s.lastVotedSlot slot
      · rw [if_pos hVoted, VoteState.processNextVoteSlot_of_ignored epoch hVoted]
      · rw [if_neg hVoted, VoteState.processNextVoteSlot_lastVotedSlot epoch hVoted]

/-- Run lemma: a slot `x` at or above every slot and above the start, met on the way or
already the last vote, is the last vote at the end. -/
theorem foldl_lastVoted_eq_some {x : Nat} (slots : List Nat) {last : Option Nat}
    (hLast : last.all (· ≤ x)) (hBelow : ∀ y ∈ slots, y ≤ x) (hMet : x ∈ slots ∨ last = some x) :
    slots.foldl (fun last slot => if alreadyVoted last slot then last else some slot) last =
      some x := by
  induction slots generalizing last with
  | nil => simpa using hMet
  | cons y rest ih =>
      rw [List.foldl_cons]
      have hy := hBelow y List.mem_cons_self
      refine ih ?_ (fun z hz => hBelow z (List.mem_cons_of_mem _ hz)) ?_
      · split
        · exact hLast
        · simpa using hy
      · -- the step keeps `some x` once there, and reaches it at `x` itself
        rcases hMet with hx | rfl
        · rcases List.mem_cons.mp hx with rfl | hx
          · right
            split
            · next hVoted =>
                cases last with
                | none => cases hVoted
                | some l =>
                    simp only [alreadyVoted, Option.any_some, decide_eq_true_eq] at hVoted
                    simp only [Option.all_some, decide_eq_true_eq] at hLast
                    rw [Nat.le_antisymm hLast hVoted]
            · rfl
          · exact Or.inl hx
        · right
          rw [if_pos (by simpa [alreadyVoted] using hy)]

/-- In an increasing list every element is at most the last one. -/
theorem le_of_mem_of_getLast? {l : List Nat} (hSorted : l.Pairwise (· < ·)) {x y : Nat}
    (hx : l.getLast? = some x) (hy : y ∈ l) : y ≤ x := by
  obtain ⟨pre, rfl⟩ := List.getLast?_eq_some_iff.mp hx
  rcases List.mem_append.mp hy with hy | hy
  · exact Nat.le_of_lt ((List.pairwise_append.mp hSorted).2.2 y hy x List.mem_cons_self)
  · rw [List.mem_singleton.mp hy]

theorem processVote_eq_foldl {s s' : VoteState} {vote : Vote} {slotHashes : List SlotHash}
    {epoch : Nat} (h : processVote s vote slotHashes epoch = .ok s') :
    s' = (recentSlots vote slotHashes).foldl (fun s slot => s.processNextVoteSlot slot epoch) s := by
  simp only [processVote, bind_eq_ok, failIf_eq_ok, pure_eq_ok] at h
  obtain ⟨-, -, -, -, -, -, rfl⟩ := h
  rfl

/-- Over a history sorted newest first, `process_vote` accepts a non-empty vote exactly as
`VoteAccepted` says, and an accepted vote leaves its largest slot as the last vote. -/
theorem processVote_accepts_iff (s : VoteState) {vote : Vote} {slotHashes : List SlotHash}
    (hSorted : slotHashes.Pairwise fun a b => b.1 < a.1) (hVote : vote.slots ≠ [])
    (epoch : Nat) :
    ((∃ s', processVote s vote slotHashes epoch = .ok s') ↔ VoteAccepted s vote slotHashes) ∧
      ∀ s', processVote s vote slotHashes epoch = .ok s' → s'.lastVotedSlot = vote.slots.max? := by
  have hIff := (processVote_isOk_iff s hVote slotHashes epoch).trans
    (checkSlotsAreValid_recentSlots_iff s vote hSorted)
  refine ⟨hIff, fun s' h => ?_⟩
  have hAcc := hIff.mp ⟨s', h⟩
  obtain ⟨x, hx⟩ := Option.ne_none_iff_exists'.mp (mt List.getLast?_eq_none_iff.mp hAcc.new_ne_nil)
  -- `x`, the newest new slot, is recent, above the last vote, and the largest new slot
  have hxNew := List.mem_filter.mp (List.mem_of_getLast? hx)
  have hxRecent := List.mem_filter.mp hxNew.1
  have hxNot : alreadyVoted s.lastVotedSlot x = false := by simpa using hxNew.2
  have hIncr : (newSlots s vote slotHashes).Pairwise (· < ·) := by
    refine List.Pairwise.sublist hAcc.sublist ?_
    rw [List.map_reverse, List.pairwise_reverse]
    exact List.pairwise_map.mpr hSorted
  have hRecentBelow : ∀ y ∈ recentSlots vote slotHashes, y ≤ x := by
    intro y hy
    by_cases hVoted : alreadyVoted s.lastVotedSlot y
    · cases hLast : s.lastVotedSlot with
      | none => simp [alreadyVoted, hLast] at hVoted
      | some l =>
          simp only [alreadyVoted, hLast, Option.any_some, decide_eq_true_eq,
            decide_eq_false_iff_not, Nat.not_le] at hVoted hxNot
          omega
    · exact le_of_mem_of_getLast? hIncr hx (List.mem_filter.mpr ⟨hy, by simpa using hVoted⟩)
  -- slots older than the history lie below `x` too
  have hAllBelow : ∀ y ∈ vote.slots, y ≤ x := by
    intro y hy
    have hEarliest := of_decide_eq_true hxRecent.2
    by_cases hRecent : (slotHashes.getLast?.map Prod.fst).getD 0 ≤ y
    · exact hRecentBelow y (List.mem_filter.mpr ⟨hy, decide_eq_true hRecent⟩)
    · omega
  have hStart : s.lastVotedSlot.all (· ≤ x) := by
    cases hLast : s.lastVotedSlot with
    | none => rfl
    | some l =>
        simp only [alreadyVoted, hLast, Option.any_some, decide_eq_false_iff_not,
          Nat.not_le] at hxNot
        simpa using Nat.le_of_lt hxNot
  rw [processVote_eq_foldl h, lastVotedSlot_foldl_processNextVoteSlot,
    foldl_lastVoted_eq_some _ hStart hRecentBelow (Or.inl hxNew.1)]
  exact (List.max?_eq_some_iff.mpr ⟨hxRecent.1, hAllBelow⟩).symm

theorem processVote_accepts_iff_one_new_slot :
    (∃ s', processVote ⟨[⟨4, 1⟩], none, [], ⟨0, 0⟩⟩ ⟨[5], Hash.default, none⟩
        [(5, Hash.default), (1, Hash.default)] 0 = .ok s') ↔
      VoteAccepted ⟨[⟨4, 1⟩], none, [], ⟨0, 0⟩⟩ ⟨[5], Hash.default, none⟩
        [(5, Hash.default), (1, Hash.default)] :=
  (processVote_accepts_iff ⟨[⟨4, 1⟩], none, [], ⟨0, 0⟩⟩ (by decide) (by decide) 0).1

/-- A vote on 5 then 3, after a vote on 4, against a history whose newest slot is 5: the one new
slot is in the history with the vote's hash, yet the walk stops on the history's end before it
has stepped over slot 3, and the vote is refused. -/
theorem processVote_refuses_voted_slot_after_newest :
    newSlots ⟨[⟨4, 1⟩], none, [], ⟨0, 0⟩⟩ ⟨[5, 3], Hash.default, none⟩
        [(5, Hash.default), (1, Hash.default)] = [5] ∧
      [5] <+ ([(5, Hash.default), (1, Hash.default)] : List SlotHash).reverse.map Prod.fst ∧
      ((5 : Nat), Hash.default) ∈ ([(5, Hash.default), (1, Hash.default)] : List SlotHash) ∧
      processVote ⟨[⟨4, 1⟩], none, [], ⟨0, 0⟩⟩ ⟨[5, 3], Hash.default, none⟩
        [(5, Hash.default), (1, Hash.default)] 0 = .error .slotsMismatch :=
  ⟨rfl, by decide, by decide, by decide +kernel⟩

end PutValidator.Vote
