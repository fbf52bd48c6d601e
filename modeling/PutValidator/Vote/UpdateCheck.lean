import PutValidator.Vote.SlotHashCheck

/-! What `check_update_vote_state_slots_are_valid` accepts. Its walk checks the (possibly
rewritten) root and then the proposed slots, oldest first, against the slot history, newest
first, with one index into each; it drops the proposed slots older than the history that the
current tower does not hold. Over a history sorted newest first, the update is accepted exactly
when its slots increase past the last vote, every slot of it and its root not older than the
history is in the history, the last slot carries the update's hash, and a root above the oldest
slot of the history lies at or below every proposed slot: the walk never steps back below a root
it found in the history. -/
namespace PutValidator.Vote

open List Lib.Except

/-! ### The specification -/

/-- The oldest slot of the history, where the walk's too-old branch starts. -/
def earliestSlot (slotHashes : List SlotHash) : Nat :=
  (slotHashes.getLast?.map Prod.fst).getD 0

/-- A proposed slot the check drops: older than the history and not in the current tower. -/
def tooOld (s : VoteState) (earliest : Nat) (lockout : Lockout) : Bool :=
  decide (lockout.slot < earliest) && !s.containsSlot lockout.slot

/-- The updates the check accepts, with the root they are checked with. -/
structure UpdateAccepted (s : VoteState) (update : VoteStateUpdate) (slotHashes : List SlotHash)
    (root : Option Nat) : Prop where
  ne_nil : update.lockouts ≠ []
  ordered : update.lockouts.IsChain fun a b => a.slot < b.slot
  newer : ∀ l ∈ update.lockouts.getLast?, s.lastVotedSlot.any (l.slot ≤ ·) = false
  last_hash : ∀ l ∈ update.lockouts.getLast?, (l.slot, update.hash) ∈ slotHashes
  in_history : ∀ l ∈ update.lockouts, earliestSlot slotHashes ≤ l.slot →
    l.slot ∈ slotHashes.map Prod.fst
  root_in_history : ∀ r ∈ root, earliestSlot slotHashes ≤ r → r ∈ slotHashes.map Prod.fst
  root_below : ∀ r ∈ root, earliestSlot slotHashes < r → ∀ l ∈ update.lockouts, r ≤ l.slot

@[instance] theorem lawfulBEq_slotHash : LawfulBEq (Nat × Hash) := inferInstance

instance (s : VoteState) (update : VoteStateUpdate) (slotHashes : List SlotHash)
    (root : Option Nat) : Decidable (UpdateAccepted s update slotHashes root) :=
  decidable_of_iff (update.lockouts ≠ [] ∧
      (update.lockouts.IsChain fun a b => a.slot < b.slot) ∧
      (∀ l ∈ update.lockouts.getLast?, s.lastVotedSlot.any (l.slot ≤ ·) = false) ∧
      (∀ l ∈ update.lockouts.getLast?, (l.slot, update.hash) ∈ slotHashes) ∧
      (∀ l ∈ update.lockouts, earliestSlot slotHashes ≤ l.slot →
        l.slot ∈ slotHashes.map Prod.fst) ∧
      (∀ r ∈ root, earliestSlot slotHashes ≤ r → r ∈ slotHashes.map Prod.fst) ∧
      ∀ r ∈ root, earliestSlot slotHashes < r → ∀ l ∈ update.lockouts, r ≤ l.slot)
    ⟨fun ⟨h₁, h₂, h₃, h₄, h₅, h₆, h₇⟩ => ⟨h₁, h₂, h₃, h₄, h₅, h₆, h₇⟩,
      fun h => ⟨h.ne_nil, h.ordered, h.newer, h.last_hash, h.in_history, h.root_in_history,
        h.root_below⟩⟩

/-! ### A history sorted newest first -/

/-- The last entry of the history holds its oldest slot. -/
theorem getElem_length_sub_one_fst {slotHashes : List SlotHash} {earliest : Nat}
    (hEarliest : slotHashes.getLast?.map Prod.fst = some earliest)
    (hi : slotHashes.length - 1 < slotHashes.length) :
    slotHashes[slotHashes.length - 1].1 = earliest := by
  rw [List.getLast?_eq_getElem?, List.getElem?_eq_getElem hi, Option.map_some,
    Option.some.injEq] at hEarliest
  exact hEarliest

section SortedHistory

variable {slotHashes : List SlotHash} (hSorted : slotHashes.Pairwise fun a b => b.1 < a.1)
include hSorted

theorem slot_lt_of_index_lt {i i' : Nat} (hi' : i' < slotHashes.length) (h : i < i') :
    slotHashes[i'].1 < slotHashes[i].1 :=
  List.pairwise_iff_getElem.mp hSorted i i' (by omega) hi' h

theorem index_le_of_slot_le {i i' : Nat} (hi : i < slotHashes.length)
    (hi' : i' < slotHashes.length) (h : slotHashes[i'].1 ≤ slotHashes[i].1) : i ≤ i' := by
  by_contra hLt
  have := slot_lt_of_index_lt hSorted hi (Nat.lt_of_not_le hLt)
  omega

theorem index_eq_of_slot_eq {i i' : Nat} (hi : i < slotHashes.length)
    (hi' : i' < slotHashes.length) (h : slotHashes[i'].1 = slotHashes[i].1) : i = i' :=
  Nat.le_antisymm (index_le_of_slot_le hSorted hi hi' (Nat.le_of_eq h))
    (index_le_of_slot_le hSorted hi' hi (Nat.le_of_eq h.symm))

/-- Every slot of the history is at least its last, oldest one. -/
theorem earliest_le_slot {earliest : Nat}
    (hEarliest : slotHashes.getLast?.map Prod.fst = some earliest) (i : Nat)
    (hi : i < slotHashes.length) : earliest ≤ slotHashes[i].1 := by
  rw [← getElem_length_sub_one_fst hEarliest (by omega)]
  rcases Nat.lt_or_ge i (slotHashes.length - 1) with hLt | hGe
  · exact Nat.le_of_lt (slot_lt_of_index_lt hSorted (by omega) hLt)
  · obtain rfl : i = slotHashes.length - 1 := by omega
    exact Nat.le_refl _

/-- The oldest slot of the history sits at its last index only. -/
theorem index_eq_of_slot_eq_earliest {earliest : Nat}
    (hEarliest : slotHashes.getLast?.map Prod.fst = some earliest) {i : Nat}
    (hi : i < slotHashes.length) (h : slotHashes[i].1 = earliest) :
    i = slotHashes.length - 1 :=
  index_eq_of_slot_eq hSorted hi (by omega)
    ((getElem_length_sub_one_fst hEarliest (by omega)).trans h.symm)

end SortedHistory

theorem mem_map_fst_iff {slotHashes : List SlotHash} {x : Nat} :
    x ∈ slotHashes.map Prod.fst ↔
      ∃ i, ∃ hi : i < slotHashes.length, slotHashes[i].1 = x := by
  rw [List.mem_map]
  constructor
  · rintro ⟨p, hp, rfl⟩
    obtain ⟨i, hi, rfl⟩ := List.getElem_of_mem hp
    exact ⟨i, hi, rfl⟩
  · rintro ⟨i, hi, rfl⟩
    exact ⟨_, List.getElem_mem hi, rfl⟩

theorem earliestSlot_eq {slotHashes : List SlotHash} {earliest : Nat}
    (hEarliest : slotHashes.getLast?.map Prod.fst = some earliest) :
    earliestSlot slotHashes = earliest := by
  rw [earliestSlot, hEarliest]
  rfl

/-! ### The `retain` of the filtered indexes -/

/-- Dropping the positions where `p` holds, counted from `index`, is filtering by `p`. -/
theorem retainUnfiltered_findIdxs (p : Lockout → Bool) (l : List Lockout) (index : Nat) :
    retainUnfiltered l index (l.findIdxs p index) = l.filter fun a => !p a := by
  induction l generalizing index with
  | nil => rfl
  | cons a rest ih =>
      rw [List.findIdxs_cons]
      by_cases hp : p a
      · rw [if_pos hp, retainUnfiltered, if_pos rfl, ih, List.filter_cons_of_neg (by simp [hp])]
      · rw [if_neg hp, List.filter_cons_of_pos (by simp [hp]), ← ih]
        have hAfter : ∀ i ∈ rest.findIdxs p (index + 1), index + 1 ≤ i :=
          List.ge_of_mem_findIdxs
        -- the next filtered index lies past `a`, which stays
        cases hNext : rest.findIdxs p (index + 1) with
        | nil => rfl
        | cons next more =>
            have := hAfter next (by rw [hNext]; exact List.mem_cons_self)
            rw [retainUnfiltered, if_neg (by omega)]

theorem findIdxs_take_succ (p : Lockout → Bool) {l : List Lockout} {k : Nat}
    (hk : k < l.length) :
    (l.take (k + 1)).findIdxs p = (l.take k).findIdxs p ++ if p l[k] then [k] else [] := by
  rw [List.take_add_one, List.getElem?_eq_getElem hk, Option.toList_some, List.findIdxs_append,
    List.findIdxs_singleton, List.length_take, Nat.min_eq_left (Nat.le_of_lt hk), Nat.zero_add]

/-! ### What an accepted walk has checked

`Walked` is what the walk has established of the slots it has passed, at each of its states
reached from the start; `updateWalk_walked` carries it to the state the walk returns. -/

section Walk

variable (s : VoteState) (lockouts : List Lockout) (slotHashes : List SlotHash) (earliest : Nat)

/-- The proposed slots before `k` increase, those not older than the history are in it, the
filtered indexes are those of the too-old slots among them; the root, once checked, is in the
history or older, and a root above the oldest slot bounds what follows it. -/
structure Walked (root rootToCheck : Option Nat) (k shIndex : Nat) (toFilter : List Nat) :
    Prop where
  shIndex_le : shIndex ≤ slotHashes.length
  k_le : k ≤ lockouts.length
  ordered : ∀ j (hj : j + 1 < lockouts.length), j + 1 < k →
    lockouts[j].slot < lockouts[j + 1].slot
  matched : ∀ j (hj : j < lockouts.length), j < k → earliest ≤ lockouts[j].slot →
    lockouts[j].slot ∈ slotHashes.map Prod.fst
  toFilter_eq : toFilter = (lockouts.take k).findIdxs (tooOld s earliest)
  root_checked : rootToCheck = none → ∀ r ∈ root, earliest ≤ r → r ∈ slotHashes.map Prod.fst
  root_below : rootToCheck = none → ∀ r ∈ root, earliest < r →
    shIndex < slotHashes.length ∧ (∀ j (hj : j < lockouts.length), j < k → r ≤ lockouts[j].slot) ∧
      ∀ i (hi : i < slotHashes.length), i < shIndex → r ≤ slotHashes[i].1
  root_first : ∀ r ∈ rootToCheck, k = 0 ∧ root = some r

variable {s lockouts slotHashes earliest}

theorem Walked.start (root : Option Nat) :
    Walked s lockouts slotHashes earliest root root 0 slotHashes.length [] where
  shIndex_le := Nat.le_refl _
  k_le := Nat.zero_le _
  ordered _ _ h := absurd h (Nat.not_lt_zero _)
  matched _ _ h := absurd h (Nat.not_lt_zero _)
  toFilter_eq := rfl
  root_checked h := by subst h; intro r hr; cases hr
  root_below h := by subst h; intro r hr; cases hr
  root_first _ h := ⟨rfl, h⟩

theorem Walked.of_root_too_old {root : Option Nat} {r k shIndex : Nat} {toFilter : List Nat}
    (hW : Walked s lockouts slotHashes earliest root (some r) k shIndex toFilter)
    (hOld : r < earliest) : Walked s lockouts slotHashes earliest root none k shIndex toFilter := by
  -- the root being checked is the root, older than the history
  obtain ⟨-, rfl⟩ := hW.root_first r rfl
  refine { hW with root_checked := ?_, root_below := ?_, root_first := ?_ }
  · rintro - r' ⟨⟩ hLe
    omega
  · rintro - r' ⟨⟩ hLt
    omega
  · rintro r' ⟨⟩

theorem Walked.of_greater {root rootToCheck : Option Nat} {k shIndex : Nat}
    {toFilter : List Nat}
    (hW : Walked s lockouts slotHashes earliest root rootToCheck k shIndex toFilter) :
    Walked s lockouts slotHashes earliest root rootToCheck k (shIndex - 1) toFilter := by
  refine { hW with shIndex_le := by have := hW.shIndex_le; omega, root_below := ?_ }
  intro hNone r hr hLt
  obtain ⟨hShIndex, hLockouts, hHistory⟩ := hW.root_below hNone r hr hLt
  exact ⟨by omega, hLockouts, fun i hi hLe => hHistory i hi (by omega)⟩

theorem Walked.of_lockout_too_old {root : Option Nat} {k : Nat} {toFilter : List Nat}
    (hW : Walked s lockouts slotHashes earliest root none k slotHashes.length toFilter)
    (hk : k < lockouts.length) (hk1 : k - 1 < lockouts.length)
    (hOrd : ¬(0 < k ∧ lockouts[k].slot ≤ lockouts[k - 1].slot))
    (hOld : lockouts[k].slot < earliest) :
    Walked s lockouts slotHashes earliest root none (k + 1) slotHashes.length
      (if (!s.containsSlot lockouts[k].slot) = true then toFilter ++ [k] else toFilter) where
  shIndex_le := hW.shIndex_le
  k_le := hk
  ordered j hj hLt := by
    rcases Nat.lt_or_ge (j + 1) k with hBefore | hAt
    · exact hW.ordered j hj hBefore
    · obtain rfl : j + 1 = k := by omega
      simpa using hOrd
  matched j hj hLt hLe := by
    rcases Nat.lt_or_ge j k with hBefore | hAt
    · exact hW.matched j hj hBefore hLe
    · obtain rfl : j = k := by omega
      omega
  toFilter_eq := by
    rw [findIdxs_take_succ _ hk, ← hW.toFilter_eq]
    by_cases hHeld : s.containsSlot lockouts[k].slot <;> simp [tooOld, hOld, hHeld]
  root_checked := hW.root_checked
  root_below hNone r hr hLt := absurd (hW.root_below hNone r hr hLt).1 (Nat.lt_irrefl _)
  root_first _ h := by cases h

section Found

variable (hSorted : slotHashes.Pairwise fun a b => b.1 < a.1)
  (hEarliest : slotHashes.getLast?.map Prod.fst = some earliest)
include hSorted hEarliest

theorem Walked.of_root_found {root : Option Nat} {r k shIndex : Nat} {toFilter : List Nat}
    (hW : Walked s lockouts slotHashes earliest root (some r) k shIndex toFilter)
    (hi : shIndex - 1 < slotHashes.length) (hFound : slotHashes[shIndex - 1].1 = r) :
    Walked s lockouts slotHashes earliest root none k shIndex toFilter := by
  obtain ⟨rfl, rfl⟩ := hW.root_first r rfl
  refine { hW with root_checked := ?_, root_below := ?_, root_first := ?_ }
  · rintro - r' ⟨⟩ -
    exact List.mem_map.mpr ⟨_, List.getElem_mem hi, hFound⟩
  · rintro - r' ⟨⟩ hLt
    -- the root is above the oldest entry, so it sits before the end, below every newer entry
    have hShIndex : shIndex < slotHashes.length := by
      have hLe := hW.shIndex_le
      by_contra hNot
      obtain rfl : shIndex = slotHashes.length := by omega
      rw [getElem_length_sub_one_fst hEarliest hi] at hFound
      omega
    refine ⟨hShIndex, fun j _ hj => absurd hj (Nat.not_lt_zero _), fun i hi' hLe => ?_⟩
    rw [← hFound]
    rcases Nat.lt_or_ge i (shIndex - 1) with hBefore | hAt
    · exact Nat.le_of_lt (slot_lt_of_index_lt hSorted hi hBefore)
    · obtain rfl : i = shIndex - 1 := by omega
      exact Nat.le_refl _
  · rintro r' ⟨⟩

theorem Walked.of_lockout_found {root : Option Nat} {k shIndex : Nat} {toFilter : List Nat}
    (hW : Walked s lockouts slotHashes earliest root none k shIndex toFilter)
    (hk : k < lockouts.length) (hk1 : k - 1 < lockouts.length)
    (hOrd : ¬(0 < k ∧ lockouts[k].slot ≤ lockouts[k - 1].slot))
    (hi : shIndex - 1 < slotHashes.length) (hPos : 0 < shIndex)
    (hFound : slotHashes[shIndex - 1].1 = lockouts[k].slot) :
    Walked s lockouts slotHashes earliest root none (k + 1) (shIndex - 1) toFilter where
  shIndex_le := by have := hW.shIndex_le; omega
  k_le := hk
  ordered j hj hLt := by
    rcases Nat.lt_or_ge (j + 1) k with hBefore | hAt
    · exact hW.ordered j hj hBefore
    · obtain rfl : j + 1 = k := by omega
      simpa using hOrd
  matched j hj hLt hLe := by
    rcases Nat.lt_or_ge j k with hBefore | hAt
    · exact hW.matched j hj hBefore hLe
    · obtain rfl : j = k := by omega
      exact List.mem_map.mpr ⟨_, List.getElem_mem hi, hFound⟩
  toFilter_eq := by
    -- a slot found in the history is not older than it
    have hNotOld : ¬lockouts[k].slot < earliest := by
      rw [← hFound]
      exact Nat.not_lt.mpr (earliest_le_slot hSorted hEarliest _ hi)
    rw [findIdxs_take_succ _ hk, ← hW.toFilter_eq]
    simp [tooOld, hNotOld]
  root_checked := hW.root_checked
  root_below hNone r hr hLt := by
    obtain ⟨hShIndex, hLockouts, hHistory⟩ := hW.root_below hNone r hr hLt
    refine ⟨by omega, fun j hj hj' => ?_, fun i hi' hLe => hHistory i hi' (by omega)⟩
    rcases Nat.lt_or_ge j k with hBefore | hAt
    · exact hLockouts j hj hBefore
    · obtain rfl : j = k := by omega
      rw [← hFound]
      exact hHistory _ hi (by omega)
  root_first _ h := by cases h

end Found

/-- Carry `Walked` to the state an accepted walk returns. -/
theorem updateWalk_walked (hSorted : slotHashes.Pairwise fun a b => b.1 < a.1)
    (hEarliest : slotHashes.getLast?.map Prod.fst = some earliest) {isRootFixEnabled : Bool} {root rootToCheck : Option Nat}
    {k shIndex : Nat} {toFilter : List Nat} {res : Nat × Nat × List Nat}
    (h : updateWalk s lockouts slotHashes earliest isRootFixEnabled rootToCheck k shIndex
      toFilter = .ok res)
    (hWalked : Walked s lockouts slotHashes earliest root rootToCheck k shIndex toFilter) :
    ∃ rootToCheck', Walked s lockouts slotHashes earliest root rootToCheck' res.1 res.2.1 res.2.2 := by
  fun_induction updateWalk s lockouts slotHashes earliest isRootFixEnabled rootToCheck k shIndex
    toFilter with
  | case1 | case2 | case4 | case6 | case7 | case8 => cases h
  | case3 k toFilter hk ancestor hash r proposed hOrd hLess hOld toFilter' holds hHolds hLen
      hEntry ih =>
      have hTf : toFilter' = toFilter := by simp [toFilter']
      exact ih h (hTf ▸ hWalked.of_root_too_old hOld)
  | case5 k toFilter hk ancestor hash proposed hOrd hLess hOld toFilter' hLen hEntry ih =>
      have hTf : toFilter' =
          if (!s.containsSlot lockouts[k].slot) = true then toFilter ++ [k] else toFilter := by
        simp [toFilter', proposed]
      exact ih h (hTf ▸ hWalked.of_lockout_too_old hk (by omega) (by simpa [proposed] using hOrd) hOld)
  | case9 rootToCheck k shIndex toFilter hk hPos proposed hOrd ancestor hash hEntry hNotLess
      hGreater ih =>
      exact ih h hWalked.of_greater
  | case10 k shIndex toFilter hk hPos ancestor hash hEntry r proposed hOrd hNotLess hNotGreater
      ih =>
      obtain ⟨hi, hEq⟩ := List.getElem?_eq_some_iff.mp hEntry
      have hNotLess' : ¬r < ancestor := hNotLess
      have hNotGreater' : ¬ancestor < r := hNotGreater
      have hFound : slotHashes[shIndex - 1].1 = r := by
        rw [hEq]
        show ancestor = r
        omega
      exact ih h (hWalked.of_root_found hSorted hEarliest hi hFound)
  | case11 k shIndex toFilter hk hPos ancestor hash hEntry proposed hOrd hNotLess hNotGreater
      ih =>
      obtain ⟨hi, hEq⟩ := List.getElem?_eq_some_iff.mp hEntry
      have hNotLess' : ¬lockouts[k].slot < ancestor := hNotLess
      have hNotGreater' : ¬ancestor < lockouts[k].slot := hNotGreater
      have hFound : slotHashes[shIndex - 1].1 = lockouts[k].slot := by
        rw [hEq]
        show ancestor = lockouts[k].slot
        omega
      exact ih h (hWalked.of_lockout_found hSorted hEarliest hk (by omega)
        (by simpa [proposed] using hOrd) hi hPos hFound)
  | case12 | case13 =>
      cases h
      exact ⟨_, hWalked⟩

end Walk

/-! ### The updates the check accepts -/

/-- Every update the check accepts meets `UpdateAccepted` with the rewritten root, and comes
back with that root and without its too-old slots. -/
theorem updateAccepted_of_checkUpdate {s : VoteState}
    (hVotes : s.votes.IsChain fun a b => a.slot < b.slot) {update checked : VoteStateUpdate}
    {slotHashes : List SlotHash} {isRootFixEnabled : Bool}
    (hSorted : slotHashes.Pairwise fun a b => b.1 < a.1)
    (h : checkUpdateVoteStateSlotsAreValid s update slotHashes isRootFixEnabled = .ok checked) :
    UpdateAccepted s update slotHashes
        (rewrittenRoot s update (earliestSlot slotHashes) isRootFixEnabled) ∧
      checked = { update with
        root := rewrittenRoot s update (earliestSlot slotHashes) isRootFixEnabled
        lockouts := update.lockouts.filter fun l => !tooOld s (earliestSlot slotHashes) l } := by
  obtain ⟨last, earliest, root, k, shIndex, toFilter, hLast, hNew, hEarliest, -, hRoot, hWalk,
    rfl, hEntry, rfl⟩ := checkUpdateVoteStateSlotsAreValid_ok h
  have hE : earliestSlot slotHashes = earliest := earliestSlot_eq hEarliest
  rw [hE, ← checkedRoot_eq_ok hVotes hRoot]
  obtain ⟨rootToCheck, hW⟩ : ∃ rootToCheck, Walked s update.lockouts slotHashes earliest root
      rootToCheck update.lockouts.length shIndex toFilter :=
    updateWalk_walked hSorted hEarliest hWalk (Walked.start root)
  have hNe : update.lockouts ≠ [] := fun hNil => by simp [hNil] at hLast
  -- the walk went past the first lockout, so it has checked the root
  have hNone : rootToCheck = none := by
    cases rootToCheck with
    | none => rfl
    | some r => exact absurd (List.length_eq_zero_iff.mp (hW.root_first r rfl).1) hNe
  refine ⟨⟨hNe, ?_, ?_, ?_, ?_, hE ▸ hW.root_checked hNone, ?_⟩, ?_⟩
  · exact List.isChain_iff_getElem.mpr fun j hj => hW.ordered j hj hj
  · intro l hl
    rw [hLast] at hl
    cases hl
    exact Bool.eq_false_iff.mpr hNew
  · intro l hl
    rw [hLast] at hl
    cases hl
    exact List.mem_of_getElem? hEntry
  · intro l hl hLe
    obtain ⟨j, hj, rfl⟩ := List.getElem_of_mem hl
    exact hW.matched j hj hj (hE ▸ hLe)
  · intro r hr hLt l hl
    obtain ⟨j, hj, rfl⟩ := List.getElem_of_mem hl
    exact (hW.root_below hNone r hr (hE ▸ hLt)).2.1 j hj hj
  · rw [hW.toFilter_eq, List.take_length, retainUnfiltered_findIdxs]

/-! ### An accepted update is walked to its end

`Ahead` is what keeps the walk going over an update that `UpdateAccepted` describes: the slots
still to come that are not older than the history lie in the part of it not yet passed, a slot
older than the history comes before any entry is passed, and a root still to check is the
first thing the walk meets. `updateWalk_eq_ok` runs the walk from such a state to the end of
the lockouts. -/

section Ordered

variable {lockouts : List Lockout} (hOrdered : lockouts.IsChain fun a b => a.slot < b.slot)
include hOrdered

theorem lockout_slot_lt {j j' : Nat} (hj' : j' < lockouts.length) (h : j < j') :
    lockouts[j].slot < lockouts[j'].slot :=
  List.pairwise_iff_getElem.mp (List.isChain_iff_pairwise.mp hOrdered) j j' (by omega) hj' h

theorem lockout_slot_le {j j' : Nat} (hj' : j' < lockouts.length) (h : j ≤ j') :
    lockouts[j].slot ≤ lockouts[j'].slot := by
  rcases Nat.lt_or_ge j j' with hLt | hGe
  · exact Nat.le_of_lt (lockout_slot_lt hOrdered hj' hLt)
  · obtain rfl : j = j' := by omega
    exact Nat.le_refl _

end Ordered

/-- An entry before `shIndex` holding another slot than the entry at `shIndex - 1` lies before
that entry too. -/
theorem index_lt_pred {slotHashes : List SlotHash} {i shIndex : Nat}
    (hi : i < slotHashes.length) (hLt : i < shIndex) (hPred : shIndex - 1 < slotHashes.length)
    (hNe : slotHashes[shIndex - 1].1 ≠ slotHashes[i].1) : i < shIndex - 1 := by
  rcases Nat.lt_or_ge i (shIndex - 1) with hBefore | hAt
  · exact hBefore
  · obtain rfl : i = shIndex - 1 := by omega
    exact absurd rfl hNe

/-- In a history sorted newest first, the entries before `shIndex` hold slots at least that of
the entry at `shIndex - 1`. -/
theorem slot_pred_le {slotHashes : List SlotHash}
    (hSorted : slotHashes.Pairwise fun a b => b.1 < a.1) {i shIndex : Nat}
    (hi : i < slotHashes.length) (hLt : i < shIndex) (hPred : shIndex - 1 < slotHashes.length) :
    slotHashes[shIndex - 1].1 ≤ slotHashes[i].1 := by
  rcases Nat.lt_or_ge i (shIndex - 1) with hBefore | hAt
  · exact Nat.le_of_lt (slot_lt_of_index_lt hSorted hPred hBefore)
  · obtain rfl : i = shIndex - 1 := by omega
    exact Nat.le_refl _

theorem getLast?_eq_of_succ_eq {lockouts : List Lockout} {k : Nat} (hk : k < lockouts.length)
    (h : k + 1 = lockouts.length) : lockouts.getLast? = some lockouts[k] := by
  rw [List.getLast?_eq_getElem?]
  simp only [← h, Nat.add_sub_cancel, List.getElem?_eq_getElem hk]

section Ahead

variable (s : VoteState) (lockouts : List Lockout) (slotHashes : List SlotHash) (earliest : Nat)
  (root : Option Nat)

/-- A state of the walk from which it reaches the end of an accepted update. -/
structure Ahead (rootToCheck : Option Nat) (k shIndex : Nat) (toFilter : List Nat) : Prop where
  toFilter_eq : toFilter = (lockouts.take k).findIdxs (tooOld s earliest)
  shIndex_le : shIndex ≤ slotHashes.length
  k_le : k ≤ lockouts.length
  ahead : rootToCheck = none → ∀ j (hj : j < lockouts.length), k ≤ j →
    earliest ≤ lockouts[j].slot →
      ∃ i, ∃ hi : i < slotHashes.length, i < shIndex ∧ slotHashes[i].1 = lockouts[j].slot
  fresh : rootToCheck = none → ∀ j (hj : j < lockouts.length), k ≤ j →
    lockouts[j].slot < earliest → shIndex = slotHashes.length
  done : k = lockouts.length →
    slotHashes[shIndex]?.map Prod.fst = lockouts.getLast?.map Lockout.slot
  root_first : ∀ r ∈ rootToCheck, k = 0 ∧ root = some r ∧
    (r < earliest → shIndex = slotHashes.length) ∧
    (earliest ≤ r → ∃ i, ∃ hi : i < slotHashes.length, i < shIndex ∧ slotHashes[i].1 = r)

variable {s lockouts slotHashes earliest root}

/-- With every entry still ahead, each slot in the history is ahead. -/
theorem ahead_of_mem (hIn : ∀ l ∈ lockouts, earliest ≤ l.slot → l.slot ∈ slotHashes.map Prod.fst)
    (j : Nat) (hj : j < lockouts.length) (hLe : earliest ≤ lockouts[j].slot) :
    ∃ i, ∃ hi : i < slotHashes.length, i < slotHashes.length ∧
      slotHashes[i].1 = lockouts[j].slot := by
  obtain ⟨i, hi, hEq⟩ := mem_map_fst_iff.mp (hIn _ (List.getElem_mem hj) hLe)
  exact ⟨i, hi, hi, hEq⟩

theorem Ahead.start (hNe : lockouts ≠ [])
    (hIn : ∀ l ∈ lockouts, earliest ≤ l.slot → l.slot ∈ slotHashes.map Prod.fst)
    (hRootIn : ∀ r ∈ root, earliest ≤ r → r ∈ slotHashes.map Prod.fst) :
    Ahead s lockouts slotHashes earliest root root 0 slotHashes.length [] where
  toFilter_eq := rfl
  shIndex_le := Nat.le_refl _
  k_le := Nat.zero_le _
  ahead _ j hj _ hLe := ahead_of_mem hIn j hj hLe
  fresh _ _ _ _ _ := rfl
  done h := absurd (List.length_eq_zero_iff.mp h.symm) hNe
  root_first r hr := by
    refine ⟨rfl, hr, fun _ => rfl, fun hLe => ?_⟩
    obtain ⟨i, hi, hEq⟩ := mem_map_fst_iff.mp (hRootIn r hr hLe)
    exact ⟨i, hi, hi, hEq⟩

theorem Ahead.of_root_too_old {r k shIndex : Nat} {toFilter : List Nat}
    (hA : Ahead s lockouts slotHashes earliest root (some r) k shIndex toFilter)
    (hOld : r < earliest)
    (hIn : ∀ l ∈ lockouts, earliest ≤ l.slot → l.slot ∈ slotHashes.map Prod.fst) :
    Ahead s lockouts slotHashes earliest root none k shIndex toFilter := by
  -- the root is checked before any entry is passed
  obtain ⟨-, -, hFresh, -⟩ := hA.root_first r rfl
  obtain rfl := hFresh hOld
  refine { hA with ahead := ?_, fresh := ?_, root_first := ?_ }
  · intro _ j hj _ hLe
    exact ahead_of_mem hIn j hj hLe
  · intro _ _ _ _ _
    rfl
  · rintro r' ⟨⟩

theorem Ahead.of_lockout_too_old {k : Nat} {toFilter : List Nat}
    (hA : Ahead s lockouts slotHashes earliest root none k slotHashes.length toFilter)
    (hk : k < lockouts.length) (hOld : lockouts[k].slot < earliest)
    (hLast : ∀ l ∈ lockouts.getLast?, earliest ≤ l.slot) :
    Ahead s lockouts slotHashes earliest root none (k + 1) slotHashes.length
      (if (!s.containsSlot lockouts[k].slot) = true then toFilter ++ [k] else toFilter) where
  toFilter_eq := by
    rw [findIdxs_take_succ _ hk, ← hA.toFilter_eq]
    by_cases hHeld : s.containsSlot lockouts[k].slot <;> simp [tooOld, hOld, hHeld]
  shIndex_le := Nat.le_refl _
  k_le := hk
  ahead hNone j hj hkj hLe := hA.ahead hNone j hj (by omega) hLe
  fresh _ _ _ _ _ := rfl
  done h := by
    -- the newest lockout is not older than the history
    exact absurd (hLast _ (getLast?_eq_of_succ_eq hk h)) (Nat.not_le.mpr hOld)
  root_first _ h := by cases h

section Sorted

variable (hSorted : slotHashes.Pairwise fun a b => b.1 < a.1)
  (hEarliest : slotHashes.getLast?.map Prod.fst = some earliest)
  (hOrdered : lockouts.IsChain fun a b => a.slot < b.slot)

include hEarliest hOrdered in
theorem Ahead.of_greater {rootToCheck : Option Nat} {k shIndex : Nat} {toFilter : List Nat}
    (hA : Ahead s lockouts slotHashes earliest root rootToCheck k shIndex toFilter)
    (hk : k < lockouts.length) (hi : shIndex - 1 < slotHashes.length)
    (hGreater : slotHashes[shIndex - 1].1 < rootToCheck.getD lockouts[k].slot) :
    Ahead s lockouts slotHashes earliest root rootToCheck k (shIndex - 1) toFilter where
  toFilter_eq := hA.toFilter_eq
  shIndex_le := by have := hA.shIndex_le; omega
  k_le := hA.k_le
  ahead hNone j hj hkj hLe := by
    subst hNone
    obtain ⟨i, hi', hLt, hEq⟩ := hA.ahead rfl j hj hkj hLe
    refine ⟨i, hi', index_lt_pred hi' hLt hi ?_, hEq⟩
    have := lockout_slot_le hOrdered hj hkj
    rw [hEq]
    exact Nat.ne_of_lt (Nat.lt_of_lt_of_le hGreater this)
  fresh hNone j hj hkj hOld := by
    -- nothing was passed yet, so the entry passed now is the oldest, below the proposed slot
    subst hNone
    have hSh := hA.fresh rfl j hj hkj hOld
    subst hSh
    have hE := getElem_length_sub_one_fst hEarliest hi
    have := lockout_slot_le hOrdered hj hkj
    simp only [Option.getD_none] at hGreater
    omega
  done h := absurd h (Nat.ne_of_lt hk)
  root_first r hr := by
    subst hr
    obtain ⟨hk0, hRoot, hFresh, hHistory⟩ := hA.root_first r rfl
    simp only [Option.getD_some] at hGreater
    refine ⟨hk0, hRoot, fun hOld => ?_, fun hLe => ?_⟩
    · have hSh := hFresh hOld
      subst hSh
      have hE := getElem_length_sub_one_fst hEarliest hi
      omega
    · obtain ⟨i, hi', hLt, hEq⟩ := hHistory hLe
      exact ⟨i, hi', index_lt_pred hi' hLt hi (by omega), hEq⟩

include hSorted hEarliest in
theorem Ahead.of_root_found {r k shIndex : Nat} {toFilter : List Nat}
    (hA : Ahead s lockouts slotHashes earliest root (some r) k shIndex toFilter)
    (hPos : 0 < shIndex) (hi : shIndex - 1 < slotHashes.length)
    (hFound : slotHashes[shIndex - 1].1 = r)
    (hIn : ∀ l ∈ lockouts, earliest ≤ l.slot → l.slot ∈ slotHashes.map Prod.fst)
    (hRootBelow : ∀ r ∈ root, earliest < r → ∀ l ∈ lockouts, r ≤ l.slot) :
    Ahead s lockouts slotHashes earliest root none k shIndex toFilter := by
  obtain ⟨-, hRoot, -, -⟩ := hA.root_first r rfl
  -- a root above the oldest entry bounds the lockouts; the oldest entry is the last one
  have hCase : earliest < r ∨ shIndex = slotHashes.length := by
    rcases Nat.lt_or_ge earliest r with hLt | hGe
    · exact Or.inl hLt
    · have hLe := earliest_le_slot hSorted hEarliest _ hi
      have := index_eq_of_slot_eq_earliest hSorted hEarliest hi (by omega)
      exact Or.inr (by omega)
  refine { hA with ahead := ?_, fresh := ?_, root_first := ?_ }
  · intro _ j hj _ hLe
    obtain ⟨i, hi', -, hEq⟩ := ahead_of_mem hIn j hj hLe
    refine ⟨i, hi', ?_, hEq⟩
    rcases hCase with hLt | hSh
    · have hBelow := hRootBelow r hRoot hLt _ (List.getElem_mem hj)
      have := index_le_of_slot_le hSorted hi' hi (by rw [hFound, hEq]; exact hBelow)
      omega
    · omega
  · intro _ j hj _ hOld
    rcases hCase with hLt | hSh
    · have := hRootBelow r hRoot hLt _ (List.getElem_mem hj)
      omega
    · exact hSh
  · rintro r' ⟨⟩

include hSorted hEarliest hOrdered in
theorem Ahead.of_lockout_found {k shIndex : Nat} {toFilter : List Nat}
    (hA : Ahead s lockouts slotHashes earliest root none k shIndex toFilter)
    (hk : k < lockouts.length) (hi : shIndex - 1 < slotHashes.length)
    (hFound : slotHashes[shIndex - 1].1 = lockouts[k].slot) :
    Ahead s lockouts slotHashes earliest root none (k + 1) (shIndex - 1) toFilter where
  toFilter_eq := by
    -- a slot found in the history is not older than it
    have hNotOld : ¬lockouts[k].slot < earliest := by
      rw [← hFound]
      exact Nat.not_lt.mpr (earliest_le_slot hSorted hEarliest _ hi)
    rw [findIdxs_take_succ _ hk, ← hA.toFilter_eq]
    simp [tooOld, hNotOld]
  shIndex_le := by have := hA.shIndex_le; omega
  k_le := hk
  ahead _ j hj hkj hLe := by
    obtain ⟨i, hi', hLt, hEq⟩ := hA.ahead rfl j hj (by omega) hLe
    refine ⟨i, hi', index_lt_pred hi' hLt hi ?_, hEq⟩
    rw [hFound, hEq]
    exact Nat.ne_of_lt (lockout_slot_lt hOrdered hj (by omega))
  fresh _ j hj hkj hOld := by
    have := lockout_slot_lt hOrdered hj (show k < j by omega)
    have := earliest_le_slot hSorted hEarliest _ hi
    omega
  done h := by
    rw [getLast?_eq_of_succ_eq hk h, List.getElem?_eq_getElem hi, Option.map_some,
      Option.map_some, hFound]
  root_first _ h := by cases h

include hSorted in
/-- The walk never meets a proposed slot or root below the entry at `shIndex - 1` once it has
passed an entry: what is ahead of it lies in the part of the history not yet passed. -/
theorem Ahead.not_lt_pred {rootToCheck : Option Nat} {k shIndex : Nat} {toFilter : List Nat}
    (hA : Ahead s lockouts slotHashes earliest root rootToCheck k shIndex toFilter)
    (hk : k < lockouts.length) (hi : shIndex - 1 < slotHashes.length)
    (hPassed : shIndex ≠ slotHashes.length)
    (hLess : rootToCheck.getD lockouts[k].slot < slotHashes[shIndex - 1].1) : False := by
  cases rootToCheck with
  | none =>
      simp only [Option.getD_none] at hLess
      by_cases hOld : lockouts[k].slot < earliest
      · exact hPassed (hA.fresh rfl k hk (Nat.le_refl _) hOld)
      · obtain ⟨i, hi', hLt, hEq⟩ := hA.ahead rfl k hk (Nat.le_refl _) (Nat.not_lt.mp hOld)
        have := slot_pred_le hSorted hi' hLt hi
        omega
  | some r =>
      simp only [Option.getD_some] at hLess
      obtain ⟨-, -, hFresh, hHistory⟩ := hA.root_first r rfl
      by_cases hOld : r < earliest
      · exact hPassed (hFresh hOld)
      · obtain ⟨i, hi', hLt, hEq⟩ := hHistory (Nat.not_lt.mp hOld)
        have := slot_pred_le hSorted hi' hLt hi
        omega

include hEarliest in
/-- Before the end of the lockouts, some entry of the history is still ahead. -/
theorem Ahead.shIndex_pos {rootToCheck : Option Nat} {k shIndex : Nat} {toFilter : List Nat}
    (hA : Ahead s lockouts slotHashes earliest root rootToCheck k shIndex toFilter)
    (hk : k < lockouts.length) (hLast : ∀ l ∈ lockouts.getLast?, earliest ≤ l.slot) :
    0 < shIndex := by
  cases rootToCheck with
  | none =>
      have hLen : lockouts.length - 1 < lockouts.length := by omega
      have hNewest := hLast _ (getLast?_eq_of_succ_eq hLen (by omega))
      obtain ⟨i, -, hLt, -⟩ := hA.ahead rfl _ hLen (by omega) hNewest
      omega
  | some r =>
      obtain ⟨-, -, hFresh, hHistory⟩ := hA.root_first r rfl
      by_cases hOld : r < earliest
      · have hNonempty : slotHashes ≠ [] := by
          rintro rfl
          cases hEarliest
        rw [hFresh hOld]
        exact List.length_pos_iff.mpr hNonempty
      · obtain ⟨i, -, hLt, -⟩ := hHistory (Nat.not_lt.mp hOld)
        omega

end Sorted

end Ahead

/-- An entry read with `?` at an index is the entry there. -/
theorem getElem_fst_of_getElem? {slotHashes : List SlotHash} {i ancestor : Nat} {hash : Hash}
    (h : slotHashes[i]? = some (ancestor, hash)) :
    ∃ hi : i < slotHashes.length, slotHashes[i].1 = ancestor := by
  obtain ⟨hi, hEq⟩ := List.getElem?_eq_some_iff.mp h
  exact ⟨hi, by rw [hEq]⟩

section Progress

variable {s : VoteState} {lockouts : List Lockout} {slotHashes : List SlotHash} {earliest : Nat}
  {root : Option Nat} {isRootFixEnabled : Bool}

/-- From a state where `Ahead` holds, the walk runs to the end of the lockouts, with the
filtered indexes those of the too-old slots and the history index at the newest slot. -/
theorem updateWalk_eq_ok (hSorted : slotHashes.Pairwise fun a b => b.1 < a.1)
    (hEarliest : slotHashes.getLast?.map Prod.fst = some earliest)
    (hOrdered : lockouts.IsChain fun a b => a.slot < b.slot)
    (hIn : ∀ l ∈ lockouts, earliest ≤ l.slot → l.slot ∈ slotHashes.map Prod.fst)
    (hLast : ∀ l ∈ lockouts.getLast?, earliest ≤ l.slot)
    (hRootBelow : ∀ r ∈ root, earliest < r → ∀ l ∈ lockouts, r ≤ l.slot)
    (hHolds : isRootFixEnabled = false → ∀ r ∈ root, r < earliest →
      s.rootSlot.any (· < earliest) = true)
    {rootToCheck : Option Nat} {k shIndex : Nat} {toFilter : List Nat}
    (hA : Ahead s lockouts slotHashes earliest root rootToCheck k shIndex toFilter) :
    ∃ shIndex', updateWalk s lockouts slotHashes earliest isRootFixEnabled rootToCheck k shIndex
        toFilter = .ok (lockouts.length, shIndex', lockouts.findIdxs (tooOld s earliest)) ∧
      slotHashes[shIndex']?.map Prod.fst = lockouts.getLast?.map Lockout.slot := by
  fun_induction updateWalk s lockouts slotHashes earliest isRootFixEnabled rootToCheck k shIndex
    toFilter with
  | case1 rootToCheck k shIndex toFilter hk hPos proposed hOrd =>
      -- the proposed slots increase
      exfalso
      obtain ⟨hNone, hk0, hLe⟩ := hOrd
      cases rootToCheck with
      | some r => cases hNone
      | none =>
          have := lockout_slot_lt hOrdered hk (show k - 1 < k by omega)
          exact absurd hLe (Nat.not_le.mpr this)
  | case2 rootToCheck k shIndex toFilter hk hPos proposed hOrd hEntry =>
      exfalso
      have := hA.shIndex_le
      rw [List.getElem?_eq_none_iff] at hEntry
      omega
  | case3 k toFilter hk ancestor hash r proposed hOrd hLess hOld toFilter' holds hHolds' hPos
      hEntry ih =>
      have hTf : toFilter' = toFilter := by simp [toFilter']
      rw [hTf] at ih ⊢
      exact ih (hA.of_root_too_old hOld hIn)
  | case4 k toFilter hk ancestor hash r proposed hOrd hLess hOld holds hHolds' hPos hEntry =>
      -- the root the walk starts from passes the assertion on it
      exfalso
      apply hHolds'
      obtain ⟨-, hRoot, -, -⟩ := hA.root_first r rfl
      show (if h : isRootFixEnabled = true then decide (r = proposed ∧ r < earliest)
        else s.rootSlot.any (· < earliest)) = true
      split
      · exact decide_eq_true ⟨rfl, hOld⟩
      · exact hHolds (by simpa using ‹¬isRootFixEnabled = true›) r hRoot hOld
  | case5 k toFilter hk ancestor hash proposed hOrd hLess hOld toFilter' hPos hEntry ih =>
      have hTf : toFilter' =
          if (!s.containsSlot lockouts[k].slot) = true then toFilter ++ [k] else toFilter := by
        simp [toFilter', proposed]
      rw [hTf] at ih ⊢
      exact ih (hA.of_lockout_too_old hk hOld hLast)
  | case6 rootToCheck k toFilter hk proposed hOrd ancestor hash hLess hNotOld hPos hEntry =>
      -- the last entry is the oldest slot of the history
      exfalso
      obtain ⟨hi, hFst⟩ := getElem_fst_of_getElem? hEntry
      have := getElem_length_sub_one_fst hEarliest hi
      omega
  | case7 rootToCheck k shIndex toFilter hk hPos proposed hOrd ancestor hash hEntry hLess hNe
      hSome =>
      exfalso
      obtain ⟨hi, hFst⟩ := getElem_fst_of_getElem? hEntry
      exact hA.not_lt_pred hSorted hk hi hNe (by rw [hFst]; exact hLess)
  | case8 rootToCheck k shIndex toFilter hk hPos proposed hOrd ancestor hash hEntry hLess hNe
      hNone =>
      exfalso
      obtain ⟨hi, hFst⟩ := getElem_fst_of_getElem? hEntry
      exact hA.not_lt_pred hSorted hk hi hNe (by rw [hFst]; exact hLess)
  | case9 rootToCheck k shIndex toFilter hk hPos proposed hOrd ancestor hash hEntry hNotLess
      hGreater ih =>
      obtain ⟨hi, hFst⟩ := getElem_fst_of_getElem? hEntry
      exact ih (hA.of_greater hEarliest hOrdered hk hi (by rw [hFst]; exact hGreater))
  | case10 k shIndex toFilter hk hPos ancestor hash hEntry r proposed hOrd hNotLess hNotGreater
      ih =>
      obtain ⟨hi, hFst⟩ := getElem_fst_of_getElem? hEntry
      have hNotLess' : ¬r < ancestor := hNotLess
      have hNotGreater' : ¬ancestor < r := hNotGreater
      exact ih (hA.of_root_found hSorted hEarliest hPos hi (by omega) hIn hRootBelow)
  | case11 k shIndex toFilter hk hPos ancestor hash hEntry proposed hOrd hNotLess hNotGreater
      ih =>
      obtain ⟨hi, hFst⟩ := getElem_fst_of_getElem? hEntry
      have hNotLess' : ¬lockouts[k].slot < ancestor := hNotLess
      have hNotGreater' : ¬ancestor < lockouts[k].slot := hNotGreater
      exact ih (hA.of_lockout_found hSorted hEarliest hOrdered hk hi (by omega))
  | case12 rootToCheck k shIndex toFilter hk hPos =>
      exact absurd (hA.shIndex_pos hEarliest hk hLast) hPos
  | case13 rootToCheck k shIndex toFilter hk =>
      obtain rfl : k = lockouts.length := Nat.le_antisymm hA.k_le (Nat.not_lt.mp hk)
      refine ⟨shIndex, ?_, hA.done rfl⟩
      rw [hA.toFilter_eq, List.take_length]

end Progress

/-- Without the root fix, a rewritten root older than the history is the current root, so the
walk's assertion on it holds. -/
theorem rewrittenRoot_rootSlot_lt {s : VoteState} {update : VoteStateUpdate} {earliest : Nat}
    {r : Nat} (hr : r ∈ rewrittenRoot s update earliest false) (hOld : r < earliest) :
    s.rootSlot.any (· < earliest) = true := by
  unfold rewrittenRoot at hr
  cases hRoot : update.root with
  | none =>
      rw [hRoot] at hr
      cases hr
  | some proposedRoot =>
      simp only [hRoot] at hr
      by_cases hBelow : proposedRoot < earliest
      · rw [if_pos hBelow, if_neg Bool.false_ne_true] at hr
        rw [Option.mem_def.mp hr]
        exact decide_eq_true hOld
      · rw [if_neg hBelow] at hr
        cases hr
        exact absurd hOld hBelow

/-- The check's steps, read backwards: a walk that reaches the end of the lockouts at the entry
of the newest slot with the update's hash is accepted. -/
theorem checkUpdateVoteStateSlotsAreValid_of_walk {s : VoteState} {update : VoteStateUpdate}
    {slotHashes : List SlotHash} {isRootFixEnabled : Bool} {last : Lockout} {earliest : Nat}
    {oldestHash : Hash} {root : Option Nat} {shIndex : Nat} {toFilter : List Nat}
    (hLast : update.lockouts.getLast? = some last)
    (hNew : s.lastVotedSlot.any (last.slot ≤ ·) = false)
    (hOldest : slotHashes.getLast? = some (earliest, oldestHash)) (hLe : earliest ≤ last.slot)
    (hRoot : checkedRoot s update earliest isRootFixEnabled = .ok root)
    (hWalk : updateWalk s update.lockouts slotHashes earliest isRootFixEnabled root 0
      slotHashes.length [] = .ok (update.lockouts.length, shIndex, toFilter))
    (hEntry : slotHashes[shIndex]? = some (last.slot, update.hash)) :
    checkUpdateVoteStateSlotsAreValid s update slotHashes isRootFixEnabled =
      .ok { update with root := root, lockouts := retainUnfiltered update.lockouts 0 toFilter } := by
  simp only [checkUpdateVoteStateSlotsAreValid, hLast, hOldest, hNew, hRoot, hWalk, hEntry,
    failIf_of_not _ (Nat.not_lt.mpr hLe), bind_ok]
  simp [failIf]

/-- The current votes lie below a slot newer than the last vote. -/
theorem slot_lt_of_newer {s : VoteState} (hVotes : s.votes.IsChain fun a b => a.slot < b.slot)
    {x : Nat} (hNew : s.lastVotedSlot.any (x ≤ ·) = false) {v : Lockout} (hv : v ∈ s.votes) :
    v.slot < x := by
  cases hLastVoted : s.lastVotedSlot with
  | none =>
      -- no last vote: the tower is empty
      simp only [VoteState.lastVotedSlot, VoteState.lastLockout, Option.map_eq_none_iff,
        List.getLast?_eq_none_iff] at hLastVoted
      rw [hLastVoted] at hv
      cases hv
  | some last =>
      have hLe := VoteState.slot_le_lastVotedSlot hVotes hv hLastVoted
      rw [hLastVoted] at hNew
      simp only [Option.any_some, decide_eq_false_iff_not, Nat.not_le] at hNew
      omega

/-- Every update `UpdateAccepted` describes is accepted, with the rewritten root and without
its too-old slots: on a tower whose root lies below its votes, the root fix does not panic. -/
theorem checkUpdateVoteStateSlotsAreValid_of_accepted {s : VoteState}
    (hVotes : s.votes.IsChain fun a b => a.slot < b.slot)
    (hAbove : ∀ r ∈ s.rootSlot, ∀ v ∈ s.votes, r < v.slot) {update : VoteStateUpdate}
    {slotHashes : List SlotHash} {isRootFixEnabled : Bool}
    (hSorted : slotHashes.Pairwise fun a b => b.1 < a.1)
    (hU64 : ∀ l ∈ update.lockouts, l.slot ≤ slotMax)
    (hAcc : UpdateAccepted s update slotHashes
      (rewrittenRoot s update (earliestSlot slotHashes) isRootFixEnabled)) :
    checkUpdateVoteStateSlotsAreValid s update slotHashes isRootFixEnabled = .ok { update with
      root := rewrittenRoot s update (earliestSlot slotHashes) isRootFixEnabled
      lockouts := update.lockouts.filter fun l => !tooOld s (earliestSlot slotHashes) l } := by
  obtain ⟨last, hLast⟩ :=
    Option.ne_none_iff_exists'.mp (mt List.getLast?_eq_none_iff.mp hAcc.ne_nil)
  have hLastIn := hAcc.last_hash last hLast
  -- the history holds the newest slot, so it has an oldest entry
  obtain ⟨⟨earliest, oldestHash⟩, hOldest⟩ := Option.ne_none_iff_exists'.mp
    (mt List.getLast?_eq_none_iff.mp (List.ne_nil_of_mem hLastIn))
  have hEarliest : slotHashes.getLast?.map Prod.fst = some earliest := by
    rw [hOldest]
    rfl
  have hE : earliestSlot slotHashes = earliest := earliestSlot_eq hEarliest
  have hIn : ∀ l ∈ update.lockouts, earliest ≤ l.slot → l.slot ∈ slotHashes.map Prod.fst :=
    fun l hl hLe => hAcc.in_history l hl (hE ▸ hLe)
  have hRootIn := hAcc.root_in_history
  have hRootBelow := hAcc.root_below
  rw [hE] at hRootIn hRootBelow ⊢
  have hLe : earliest ≤ last.slot := by
    obtain ⟨i, hi, hEq⟩ := List.getElem_of_mem hLastIn
    have hOld := earliest_le_slot hSorted hEarliest i hi
    rwa [hEq] at hOld
  have hNew := hAcc.newer last hLast
  have hMax : ∀ v ∈ s.votes, v.slot < slotMax := fun v hv =>
    Nat.lt_of_lt_of_le (slot_lt_of_newer hVotes hNew hv) (hU64 last (List.mem_of_getLast? hLast))
  have hHolds : isRootFixEnabled = false →
      ∀ r ∈ rewrittenRoot s update earliest isRootFixEnabled, r < earliest →
        s.rootSlot.any (· < earliest) = true := by
    rintro rfl r hr hOld
    exact rewrittenRoot_rootSlot_lt hr hOld
  have hLastLe : ∀ l ∈ update.lockouts.getLast?, earliest ≤ l.slot := by
    intro l hl
    rw [hLast] at hl
    cases hl
    exact hLe
  obtain ⟨shIndex, hWalk, hEnd⟩ := updateWalk_eq_ok hSorted hEarliest hAcc.ordered hIn hLastLe
    hRootBelow hHolds (Ahead.start hAcc.ne_nil hIn hRootIn)
  -- the walk ends at the entry of the newest slot, which carries the update's hash
  have hEntry : slotHashes[shIndex]? = some (last.slot, update.hash) := by
    rw [hLast, Option.map_some] at hEnd
    obtain ⟨⟨slot, hash⟩, hGet, hSlot⟩ := Option.map_eq_some_iff.mp hEnd
    rw [hGet]
    exact congrArg some (eq_of_mem_of_slot_eq hSorted (List.mem_of_getElem? hGet) hLastIn hSlot)
  rw [checkUpdateVoteStateSlotsAreValid_of_walk hLast hNew hOldest hLe
    (checkedRoot_eq_rewrittenRoot hVotes hAbove hMax update earliest isRootFixEnabled) hWalk hEntry,
    retainUnfiltered_findIdxs]

/-- `check_update_vote_state_slots_are_valid` accepts exactly the updates `UpdateAccepted`
describes, checked with the rewritten root, and returns them with that root and without their
slots older than the history that the tower does not hold. -/
theorem checkUpdateVoteStateSlotsAreValid_accepts_iff {s : VoteState}
    (hSlots : s.votes.IsChain fun a b => a.slot < b.slot) (hAbove : ∀ r ∈ s.rootSlot, ∀ v ∈ s.votes, r < v.slot) {update checked : VoteStateUpdate}
    {slotHashes : List SlotHash} {isRootFixEnabled : Bool}
    (hSorted : slotHashes.Pairwise fun a b => b.1 < a.1)
    (hU64 : ∀ l ∈ update.lockouts, l.slot ≤ slotMax) :
    checkUpdateVoteStateSlotsAreValid s update slotHashes isRootFixEnabled = .ok checked ↔
      UpdateAccepted s update slotHashes
          (rewrittenRoot s update (earliestSlot slotHashes) isRootFixEnabled) ∧
        checked = { update with
          root := rewrittenRoot s update (earliestSlot slotHashes) isRootFixEnabled
          lockouts := update.lockouts.filter fun l => !tooOld s (earliestSlot slotHashes) l } := by
  constructor
  · exact updateAccepted_of_checkUpdate hSlots hSorted
  · rintro ⟨hAcc, rfl⟩
    exact checkUpdateVoteStateSlotsAreValid_of_accepted hSlots hAbove hSorted
      hU64 hAcc

/-- Under the root fix, a root older than the history becomes the vote on slot 3, and the
update on 6 and 7 comes back whole. -/
theorem checkUpdateVoteStateSlotsAreValid_accepts_iff_root_fix :
    checkUpdateVoteStateSlotsAreValid ⟨[⟨3, 2⟩, ⟨5, 1⟩], none, [], ⟨0, 0⟩⟩
        ⟨[⟨6, 2⟩, ⟨7, 1⟩], some 4, Hash.default, none⟩
        [(7, Hash.default), (6, Hash.default), (5, Hash.default)] true =
          .ok ⟨[⟨6, 2⟩, ⟨7, 1⟩], some 3, Hash.default, none⟩ ↔
      UpdateAccepted ⟨[⟨3, 2⟩, ⟨5, 1⟩], none, [], ⟨0, 0⟩⟩
          ⟨[⟨6, 2⟩, ⟨7, 1⟩], some 4, Hash.default, none⟩
          [(7, Hash.default), (6, Hash.default), (5, Hash.default)]
          (rewrittenRoot ⟨[⟨3, 2⟩, ⟨5, 1⟩], none, [], ⟨0, 0⟩⟩
            ⟨[⟨6, 2⟩, ⟨7, 1⟩], some 4, Hash.default, none⟩
            (earliestSlot [(7, Hash.default), (6, Hash.default), (5, Hash.default)]) true) ∧
        (⟨[⟨6, 2⟩, ⟨7, 1⟩], some 3, Hash.default, none⟩ : VoteStateUpdate) =
          { (⟨[⟨6, 2⟩, ⟨7, 1⟩], some 4, Hash.default, none⟩ : VoteStateUpdate) with
            root := rewrittenRoot ⟨[⟨3, 2⟩, ⟨5, 1⟩], none, [], ⟨0, 0⟩⟩
              ⟨[⟨6, 2⟩, ⟨7, 1⟩], some 4, Hash.default, none⟩
              (earliestSlot [(7, Hash.default), (6, Hash.default), (5, Hash.default)]) true
            lockouts := ([⟨6, 2⟩, ⟨7, 1⟩] : List Lockout).filter fun l =>
              !tooOld ⟨[⟨3, 2⟩, ⟨5, 1⟩], none, [], ⟨0, 0⟩⟩
                (earliestSlot [(7, Hash.default), (6, Hash.default), (5, Hash.default)]) l } :=
  checkUpdateVoteStateSlotsAreValid_accepts_iff (by decide) (by decide) (by decide) (by decide)

/-- A root above the update's one slot: the slot is in the history with the update's hash, the
root is in the history, and yet the walk, having found the root, cannot step back to the
older slot and refuses the update. -/
theorem checkUpdateVoteStateSlotsAreValid_refuses_root_above_slots :
    TowerWellFormed ⟨[], none, [], ⟨0, 0⟩⟩ ∧
      rewrittenRoot ⟨[], none, [], ⟨0, 0⟩⟩ ⟨[⟨5, 1⟩], some 10, Hash.default, none⟩
        (earliestSlot [(10, Hash.default), (5, Hash.default)]) false = some 10 ∧
      (10 : Nat) ∈ ([(10, Hash.default), (5, Hash.default)] : List SlotHash).map Prod.fst ∧
      ((5 : Nat), Hash.default) ∈ ([(10, Hash.default), (5, Hash.default)] : List SlotHash) ∧
      checkUpdateVoteStateSlotsAreValid ⟨[], none, [], ⟨0, 0⟩⟩
        ⟨[⟨5, 1⟩], some 10, Hash.default, none⟩ [(10, Hash.default), (5, Hash.default)] false =
          .error (.vote .slotsMismatch) :=
  ⟨by decide, rfl, by decide, by decide, by decide +kernel⟩

end PutValidator.Vote
