import PutValidator.Consensus.Tower
import PutValidator.Sdk.SlotHistory

/-! Restoring a saved tower against the ledger (`core/src/consensus.rs`).
`adjust_lockouts_with_slot_history` walks the tower's root and votes from the newest to the
oldest and checks each in the slot history. The newest slot the history has is the anchor: it
and every older vote are dropped, and the votes newer than it are kept, as votes on a fork the
ledger has not replayed. Three early returns reject a tower whose slots, newest first, do not
read as `Future`s, then slots of the history's window with no `NotFound` after a `Found`, then
`TooOld`s (`CheckOrder`); a tower with no anchor is rejected too. An `assert!` demands that the
slots strictly decrease, save the root repeated once as a vote for it (`AssertOrder`): it holds
when the root is at or below the oldest vote, and fires otherwise.

Of the fields of `Tower` beyond the vote state and the last vote, the pass writes only
`stray_restored_slot`, passed here beside the tower. The pass reads `Tower::last_voted_slot`,
the last slot of the last vote sent. -/
namespace PutValidator.Consensus

open PutValidator.Vote

/-- `TowerError`, of which the pass returns `FatallyInconsistent`. -/
inductive TowerError
  | fatallyInconsistent (msg : String)
deriving DecidableEq, Repr

/-- `VoteTransaction::slots`. -/
def VoteTransaction.slots : VoteTransaction → List Nat
  | .vote v => v.slots
  | .voteStateUpdate u => u.lockouts.map Lockout.slot

/-- `VoteTransaction::last_voted_slot`, and `Tower::last_voted_slot` of the last vote sent
(`None` when it is empty, else its slot at `len() - 1`). -/
def VoteTransaction.lastVotedSlot (v : VoteTransaction) : Option Nat := v.slots.getLast?

/-- The state of the newest-to-oldest pass of `adjust_lockouts_with_slot_history`. -/
structure AdjustState where
  stillInFuture : Bool
  pastOutsideHistory : Bool
  checkedSlot : Option Nat
  anchoredSlot : Option Nat
  retainFlagsForEachVoteInReverse : List Bool
deriving DecidableEq, Repr

/-- One slot of the pass. Each of the source's three checks is an early return and comes
before the flags change, so they are tested first; `none` is the panic of the `assert!`. -/
def adjustStep (slotHistory : SlotHistory) (towerRoot : Nat) (st : AdjustState)
    (slotInTower : Nat) : Option (Except TowerError AdjustState) :=
  let check := slotHistory.check slotInTower
  if st.anchoredSlot.isSome ∧ check = .notFound then
    -- this can't happen unless we're fed with bogus snapshot
    some (.error (.fatallyInconsistent "diverged ancestor?"))
  else if st.stillInFuture = false ∧ check = .future then
    some (.error (.fatallyInconsistent "time warped?"))
  else if st.pastOutsideHistory ∧ check ≠ .tooOld then
    some (.error (.fatallyInconsistent "not too old once after got too old?"))
  else if st.checkedSlot.any fun checkedSlot =>
      decide (¬(slotInTower = checkedSlot ∧ slotInTower = towerRoot) ∧ ¬slotInTower < checkedSlot) then
    -- `assert!(*slot_in_tower < checked_slot)`, unless voting for the root
    none
  else
    let anchoredSlot :=
      if st.anchoredSlot.isNone ∧ check = .found then some slotInTower else st.anchoredSlot
    some (.ok
      { stillInFuture := st.stillInFuture && check == .future
        pastOutsideHistory := st.pastOutsideHistory || check == .tooOld
        checkedSlot := some slotInTower
        anchoredSlot := anchoredSlot
        retainFlagsForEachVoteInReverse :=
          st.retainFlagsForEachVoteInReverse ++ [anchoredSlot.isNone] })

/-- The pass over the slots, newest first, stopping at the first early return or panic. -/
def adjustLoop (slotHistory : SlotHistory) (towerRoot : Nat) :
    AdjustState → List Nat → Option (Except TowerError AdjustState)
  | st, [] => some (.ok st)
  | st, slotInTower :: slots =>
      match adjustStep slotHistory towerRoot st slotInTower with
      | some (.ok st') => adjustLoop slotHistory towerRoot st' slots
      | some (.error e) => some (.error e)
      | none => none

/-- `Vec::retain` with a predicate that ignores the vote and takes the next flag: a vote is kept
when its flag is set. The pass gives one flag per vote, so `next().unwrap()` never fails. -/
def retainByFlags : List Lockout → List Bool → List Lockout
  | v :: votes, keep :: flags =>
      if keep then v :: retainByFlags votes flags else retainByFlags votes flags
  | _, _ => []

/-- `adjust_lockouts_with_slot_history`, with the tower's `stray_restored_slot` passed beside
it: the tower and `stray_restored_slot` after the pass, an early return, or `none` for a panic
(`root()` of a tower with no root, or one of the `assert!`s). -/
def adjustLockoutsWithSlotHistory (t : Tower) (strayRestoredSlot : Option Nat)
    (slotHistory : SlotHistory) : Option (Except TowerError (Tower × Option Nat)) := do
  let towerRoot ← t.root
  let slotsInTower := towerRoot :: t.voteState.votes.map Lockout.slot
  match ← adjustLoop slotHistory towerRoot ⟨true, false, none, none, []⟩ slotsInTower.reverse with
  | .error e => pure (.error e)
  | .ok st =>
      if st.anchoredSlot.isNone then
        pure (.error (.fatallyInconsistent "no common slot for rooted tower"))
      else
        -- pop the tower root's flag
        let retainFlagsForEachVote := st.retainFlagsForEachVoteInReverse.dropLast.reverse
        let t :=
          { t with
            voteState :=
              { t.voteState with votes := retainByFlags t.voteState.votes retainFlagsForEachVote } }
        if t.voteState.votes.isEmpty then
          -- all restored votes were behind: reset the last vote
          pure (.ok ({ t with lastVote := .vote ⟨[], Hash.default, none⟩ }, strayRestoredSlot))
        else if t.lastVote.lastVotedSlot = (t.voteState.votes.map Lockout.slot).getLast? then
          pure (.ok (t, t.lastVote.lastVotedSlot))
        else none

/-! ### The pass against the order of the checks -/

/-- What the pass demands of the checks of two slots, the first newer: no `NotFound` after a
`Found`, no `Future` after anything else, nothing but `TooOld` after a `TooOld`. -/
def CheckOrder (a b : Check) : Prop :=
  (a = .found → b ≠ .notFound) ∧ (b = .future → a = .future) ∧ (a = .tooOld → b = .tooOld)

/-- What the `assert!` demands of two slots, the first newer: the second is older, or both are
the root, voted for once. -/
def AssertOrder (towerRoot checkedSlot slotInTower : Nat) : Prop :=
  slotInTower < checkedSlot ∨ (slotInTower = checkedSlot ∧ slotInTower = towerRoot)

/-- The flags pushed for the slots, newest first: set for each slot before the first the history
has. -/
def unanchored (found : Nat → Bool) : List Nat → List Bool
  | [] => []
  | x :: xs => if found x then List.replicate (xs.length + 1) false else true :: unanchored found xs

theorem length_unanchored (found : Nat → Bool) (xs : List Nat) :
    (unanchored found xs).length = xs.length := by
  induction xs with
  | nil => rfl
  | cons x xs ih =>
      unfold unanchored
      split
      · exact List.length_replicate
      · rw [List.length_cons, ih, List.length_cons]

theorem unanchored_append_singleton (found : Nat → Bool) (p : List Nat) (x : Nat) :
    unanchored found (p ++ [x]) = unanchored found p ++ [((p ++ [x]).find? found).isNone] := by
  induction p with
  | nil =>
      show unanchored found [x] = [([x].find? found).isNone]
      unfold unanchored
      cases hx : found x <;> simp [hx, unanchored]
  | cons y p ih =>
      rw [List.cons_append]
      unfold unanchored
      cases hy : found y with
      | true =>
          simp only [if_true, List.find?_cons_of_pos hy, Option.isNone_some, List.length_append,
            List.length_singleton]
          exact List.replicate_succ' ..
      | false =>
          simp only [Bool.false_eq_true, if_false, ih, List.cons_append,
            List.find?_cons_of_neg (by simp [hy] : ¬found y = true)]

/-- The state of the pass after the slots `p`, newest first, when no early return fired. -/
def passState (slotHistory : SlotHistory) (p : List Nat) : AdjustState where
  stillInFuture := p.all (slotHistory.check · == .future)
  pastOutsideHistory := p.any (slotHistory.check · == .tooOld)
  checkedSlot := p.getLast?
  anchoredSlot := p.find? (slotHistory.check · == .found)
  retainFlagsForEachVoteInReverse := unanchored (slotHistory.check · == .found) p

section Pass

variable (slotHistory : SlotHistory) (towerRoot : Nat)

theorem find?_append_singleton (found : Nat → Bool) (p : List Nat) (x : Nat) :
    (p ++ [x]).find? found = if (p.find? found).isNone ∧ found x then some x else p.find? found := by
  rw [List.find?_append]
  cases hp : p.find? found with
  | some a => simp
  | none => cases hx : found x <;> simp [hx]

/-- One step of the pass with the order kept: the state of the slots so far and the new one. -/
theorem adjustStep_passState_ok {p : List Nat} {x : Nat}
    (hOrd : ∀ a ∈ p, CheckOrder (slotHistory.check a) (slotHistory.check x))
    (hAssert : ∀ y ∈ p.getLast?, AssertOrder towerRoot y x) :
    adjustStep slotHistory towerRoot (passState slotHistory p) x =
      some (.ok (passState slotHistory (p ++ [x]))) := by
  have hNotFound : ¬((passState slotHistory p).anchoredSlot.isSome ∧
      slotHistory.check x = .notFound) := by
    rintro ⟨hSome, hx⟩
    obtain ⟨a, ha⟩ := Option.isSome_iff_exists.mp hSome
    have hFound : slotHistory.check a = .found := by simpa using List.find?_some ha
    exact (hOrd a (List.mem_of_find?_eq_some ha)).1 hFound hx
  have hFuture : ¬((passState slotHistory p).stillInFuture = false ∧
      slotHistory.check x = .future) := by
    rintro ⟨hAll, hx⟩
    obtain ⟨a, ha, hNot⟩ := List.all_eq_false.mp hAll
    exact hNot (by simpa using (hOrd a ha).2.1 hx)
  have hTooOld : ¬((passState slotHistory p).pastOutsideHistory = true ∧
      slotHistory.check x ≠ .tooOld) := by
    rintro ⟨hAny, hx⟩
    obtain ⟨a, ha, hOld⟩ := List.any_eq_true.mp hAny
    exact hx ((hOrd a ha).2.2 (by simpa using hOld))
  have hNoPanic : ¬((passState slotHistory p).checkedSlot.any fun y =>
      decide (¬(x = y ∧ x = towerRoot) ∧ ¬x < y)) = true := by
    show ¬(p.getLast?.any _) = true
    cases hLast : p.getLast? with
    | none => exact Bool.false_ne_true
    | some y =>
        rw [Option.any_some, decide_eq_true_iff]
        rintro ⟨hNotRoot, hNotLt⟩
        rcases hAssert y (by rw [hLast]; rfl) with hLt | hRoot
        · exact hNotLt hLt
        · exact hNotRoot hRoot
  dsimp only [adjustStep]
  rw [if_neg hNotFound, if_neg hFuture, if_neg hTooOld, if_neg hNoPanic]
  simp only [passState, unanchored_append_singleton, find?_append_singleton, List.all_append,
    List.any_append, List.getLast?_concat]
  simp [beq_iff_eq]

/-- One step of the pass that breaks the order returns early. -/
theorem adjustStep_passState_error {p : List Nat} {x : Nat}
    (hOrd : ¬∀ a ∈ p, CheckOrder (slotHistory.check a) (slotHistory.check x)) :
    ∃ e, adjustStep slotHistory towerRoot (passState slotHistory p) x = some (.error e) := by
  obtain ⟨a, ha, hBad⟩ : ∃ a ∈ p, ¬CheckOrder (slotHistory.check a) (slotHistory.check x) := by
    simpa only [not_forall, exists_prop] using hOrd
  dsimp only [adjustStep]
  by_cases h₁ : (passState slotHistory p).anchoredSlot.isSome ∧ slotHistory.check x = .notFound
  · exact ⟨_, by rw [if_pos h₁]⟩
  rw [if_neg h₁]
  by_cases h₂ : (passState slotHistory p).stillInFuture = false ∧ slotHistory.check x = .future
  · exact ⟨_, by rw [if_pos h₂]⟩
  rw [if_neg h₂]
  -- the first two checks pass at `a`, so the third fails there
  have hFound : slotHistory.check a = .found → slotHistory.check x ≠ .notFound := fun hA hX =>
    h₁ ⟨List.find?_isSome.mpr ⟨a, ha, by simp [hA]⟩, hX⟩
  have hFuture : slotHistory.check x = .future → slotHistory.check a = .future := fun hX => by
    by_contra hA
    exact h₂ ⟨List.all_eq_false.mpr ⟨a, ha, by simpa using hA⟩, hX⟩
  have hTooOld : slotHistory.check a = .tooOld ∧ slotHistory.check x ≠ .tooOld := by
    by_contra hNo
    exact hBad ⟨hFound, hFuture, fun hA => by
      by_contra hX
      exact hNo ⟨hA, hX⟩⟩
  have h₃ : (passState slotHistory p).pastOutsideHistory = true ∧ slotHistory.check x ≠ .tooOld :=
    ⟨List.any_eq_true.mpr ⟨a, ha, by simp [hTooOld.1]⟩, hTooOld.2⟩
  exact ⟨_, by rw [if_pos h₃]⟩

/-- The pass over the slots `q` after `p`, the order kept and the `assert!` holding over all of
them, ends in the state of `p ++ q`. -/
theorem adjustLoop_ok {p q : List Nat}
    (hOrd : (p ++ q).Pairwise fun a b => CheckOrder (slotHistory.check a) (slotHistory.check b))
    (hAssert : (p ++ q).IsChain (AssertOrder towerRoot)) :
    adjustLoop slotHistory towerRoot (passState slotHistory p) q =
      some (.ok (passState slotHistory (p ++ q))) := by
  induction q generalizing p with
  | nil =>
      rw [List.append_nil]
      rfl
  | cons x q ih =>
      have hStepOrd : ∀ a ∈ p, CheckOrder (slotHistory.check a) (slotHistory.check x) :=
        fun a ha => (List.pairwise_append.mp hOrd).2.2 a ha x List.mem_cons_self
      have hStepAssert : ∀ y ∈ p.getLast?, AssertOrder towerRoot y x :=
        fun y hy => (List.isChain_append.mp hAssert).2.2 y hy x rfl
      have hNext : p ++ x :: q = p ++ [x] ++ q := by rw [List.append_assoc, List.singleton_append]
      rw [adjustLoop, adjustStep_passState_ok slotHistory towerRoot hStepOrd hStepAssert, hNext]
      exact ih (hNext ▸ hOrd) (hNext ▸ hAssert)

/-- The pass over slots that break the order, the slots so far keeping it, returns early. -/
theorem adjustLoop_error {p q : List Nat}
    (hp : p.Pairwise fun a b => CheckOrder (slotHistory.check a) (slotHistory.check b))
    (hOrd : ¬(p ++ q).Pairwise fun a b => CheckOrder (slotHistory.check a) (slotHistory.check b))
    (hAssert : (p ++ q).IsChain (AssertOrder towerRoot)) :
    ∃ e, adjustLoop slotHistory towerRoot (passState slotHistory p) q = some (.error e) := by
  induction q generalizing p with
  | nil => exact absurd (by rwa [List.append_nil]) hOrd
  | cons x q ih =>
      by_cases hStepOrd : ∀ a ∈ p, CheckOrder (slotHistory.check a) (slotHistory.check x)
      · -- the slot keeps the order: the pass goes on from `p ++ [x]`
        have hStepAssert : ∀ y ∈ p.getLast?, AssertOrder towerRoot y x :=
          fun y hy => (List.isChain_append.mp hAssert).2.2 y hy x rfl
        have hNext : p ++ x :: q = p ++ [x] ++ q := by rw [List.append_assoc, List.singleton_append]
        have hp' : (p ++ [x]).Pairwise fun a b =>
            CheckOrder (slotHistory.check a) (slotHistory.check b) :=
          List.pairwise_append.mpr ⟨hp, List.pairwise_singleton _ _, fun a ha b hb => by
            rw [List.mem_singleton.mp hb]
            exact hStepOrd a ha⟩
        rw [adjustLoop, adjustStep_passState_ok slotHistory towerRoot hStepOrd hStepAssert]
        exact ih hp' (hNext ▸ hOrd) (hNext ▸ hAssert)
      · obtain ⟨e, he⟩ := adjustStep_passState_error slotHistory towerRoot hStepOrd
        exact ⟨e, by rw [adjustLoop, he]⟩

end Pass


/-! ### The votes kept -/

theorem retainByFlags_append {l₁ : List Lockout} {f₁ : List Bool} (h : l₁.length = f₁.length)
    (l₂ : List Lockout) (f₂ : List Bool) :
    retainByFlags (l₁ ++ l₂) (f₁ ++ f₂) = retainByFlags l₁ f₁ ++ retainByFlags l₂ f₂ := by
  induction l₁ generalizing f₁ with
  | nil =>
      rw [List.eq_nil_of_length_eq_zero h.symm]
      rfl
  | cons v l₁ ih =>
      obtain ⟨keep, f₁, rfl⟩ := List.exists_cons_of_length_eq_add_one h.symm
      rw [List.cons_append, List.cons_append]
      cases keep <;> simp [retainByFlags, ih (Nat.succ.inj h)]

theorem retainByFlags_replicate_false (votes : List Lockout) (n : Nat) :
    retainByFlags votes (List.replicate n false) = [] := by
  induction votes generalizing n with
  | nil => cases n <;> rfl
  | cons v votes ih =>
      cases n with
      | zero => rfl
      | succ n => exact ih n

/-- Kept by the reversed flags of the votes newest first: the votes before the first the history
has, oldest first again. -/
theorem retainByFlags_unanchored (found : Nat → Bool) (newestFirst : List Lockout) :
    retainByFlags newestFirst.reverse (unanchored found (newestFirst.map Lockout.slot)).reverse =
      (newestFirst.takeWhile fun v => !found v.slot).reverse := by
  induction newestFirst with
  | nil => rfl
  | cons v votes ih =>
      rw [List.map_cons, unanchored]
      cases hv : found v.slot with
      | true =>
          simp [hv, List.reverse_replicate, retainByFlags_replicate_false]
      | false =>
          have hLength : votes.reverse.length = (unanchored found (votes.map Lockout.slot)).reverse.length := by
            rw [List.length_reverse, List.length_reverse, length_unanchored, List.length_map]
          simp only [Bool.false_eq_true, if_false, List.reverse_cons,
            retainByFlags_append hLength, ih, List.takeWhile_cons, hv, Bool.not_false, if_true]
          rfl

/-- On votes with slots decreasing, newest first, and a root at or below all of them, the votes
before the first slot the history has are those above it. -/
theorem takeWhile_eq_filter (found : Nat → Bool) {r a : Nat} :
    ∀ {newestFirst : List Lockout}, newestFirst.Pairwise (fun v w => w.slot < v.slot) →
      (∀ v ∈ newestFirst, r ≤ v.slot) → (newestFirst.map Lockout.slot ++ [r]).find? found = some a →
      (newestFirst.takeWhile fun v => !found v.slot) = newestFirst.filter fun v => a < v.slot
  | [], _, _, _ => rfl
  | v :: votes, hSorted, hRoot, hFind => by
      rw [List.pairwise_cons] at hSorted
      rw [List.map_cons, List.cons_append] at hFind
      cases hv : found v.slot with
      | true =>
          -- the newest vote is the anchor: nothing is kept
          rw [List.find?_cons_of_pos (by rw [hv])] at hFind
          cases hFind
          simp only [List.takeWhile_cons, hv, Bool.not_true, Bool.false_eq_true, if_false]
          refine (List.filter_eq_nil_iff.mpr fun w hw => ?_).symm
          rcases List.mem_cons.mp hw with rfl | hw
          · simp
          · simpa using Nat.le_of_lt (hSorted.1 w hw)
      | false =>
          -- the anchor is older: it lies below this vote, which is kept
          rw [List.find?_cons_of_neg (by rw [hv]; exact Bool.false_ne_true)] at hFind
          have hBelow : a < v.slot := by
            have hMem := List.mem_of_find?_eq_some hFind
            have hFound := List.find?_some hFind
            rcases List.mem_append.mp hMem with hMem | hMem
            · obtain ⟨w, hw, rfl⟩ := List.mem_map.mp hMem
              exact hSorted.1 w hw
            · rw [List.mem_singleton.mp hMem] at hFound ⊢
              have hLe := hRoot v List.mem_cons_self
              rcases Nat.lt_or_eq_of_le hLe with hLt | hEq
              · exact hLt
              · rw [hEq, hv] at hFound
                cases hFound
          simp only [List.takeWhile_cons, hv, Bool.not_false, if_true, List.filter_cons,
            decide_eq_true hBelow]
          exact congrArg (v :: ·) (takeWhile_eq_filter found hSorted.2
            (fun w hw => hRoot w (List.mem_cons_of_mem v hw)) hFind)

/-- Votes with increasing slots over a root at or below them keep the `assert!` of the pass. -/
theorem isChain_assertOrder {votes : List Lockout} {r : Nat}
    (hSorted : votes.IsChain fun a b => a.slot < b.slot) (hRoot : ∀ v ∈ votes, r ≤ v.slot) :
    (r :: votes.map Lockout.slot).reverse.IsChain (AssertOrder r) := by
  rw [List.reverse_cons]
  refine List.isChain_append.mpr ⟨?_, List.isChain_singleton r, ?_⟩
  · rw [List.isChain_reverse, List.isChain_map]
    exact hSorted.imp fun a b h => Or.inl h
  · -- the oldest vote, then the root
    intro y hy x hx
    rw [List.getLast?_reverse, List.head?_map] at hy
    obtain ⟨v, hv, rfl⟩ := Option.mem_map.mp hy
    obtain rfl : r = x := by simpa using hx
    rcases Nat.lt_or_eq_of_le (hRoot v (List.mem_of_mem_head? hv)) with hLt | hEq
    · exact Or.inl hLt
    · exact Or.inr ⟨hEq, rfl⟩

/-- The votes the pass keeps: those above the anchor, in order. -/
theorem retainByFlags_passState {votes : List Lockout} {r a : Nat} (slotHistory : SlotHistory)
    (hSorted : votes.IsChain fun a b => a.slot < b.slot) (hRoot : ∀ v ∈ votes, r ≤ v.slot)
    (hFind : (r :: votes.map Lockout.slot).reverse.find? (slotHistory.check · == .found) = some a) :
    retainByFlags votes ((passState slotHistory
          (r :: votes.map Lockout.slot).reverse).retainFlagsForEachVoteInReverse.dropLast.reverse) =
      votes.filter fun v => a < v.slot := by
  have hSorted' : votes.reverse.Pairwise fun v w => w.slot < v.slot :=
    List.pairwise_reverse.mpr (List.isChain_iff_pairwise.mp hSorted)
  rw [List.reverse_cons, ← List.map_reverse] at hFind
  simp only [passState, List.reverse_cons, ← List.map_reverse, unanchored_append_singleton,
    List.dropLast_concat]
  have hKept := retainByFlags_unanchored (slotHistory.check · == .found) votes.reverse
  rw [List.reverse_reverse] at hKept
  rw [hKept, takeWhile_eq_filter _ hSorted' (fun v hv => hRoot v (List.mem_reverse.mp hv)) hFind,
    List.filter_reverse, List.reverse_reverse]

/-- The order of the pass, split into its three conditions on the checks. -/
theorem pairwise_checkOrder_iff (slotHistory : SlotHistory) (xs : List Nat) :
    xs.Pairwise (fun a b => CheckOrder (slotHistory.check a) (slotHistory.check b)) ↔
      (xs.map slotHistory.check).Pairwise (fun a b => a = .found → b ≠ .notFound) ∧
        (xs.map slotHistory.check).Pairwise (fun a b => b = .future → a = .future) ∧
        (xs.map slotHistory.check).Pairwise (fun a b => a = .tooOld → b = .tooOld) := by
  rw [List.pairwise_map, List.pairwise_map, List.pairwise_map, ← List.pairwise_and_iff,
    ← List.pairwise_and_iff]
  rfl

section Adjust

variable {t : Tower} {r : Nat} (hRoot : t.voteState.rootSlot = some r)
  (hSorted : t.voteState.votes.IsChain fun a b => a.slot < b.slot)
  (hRootLe : ∀ v ∈ t.voteState.votes, r ≤ v.slot) (strayRestoredSlot : Option Nat)
  (slotHistory : SlotHistory)
include hRoot hSorted hRootLe

/-- The pass returns early exactly when the checks of the slots, newest first, break the order
or none of them is `Found`. -/
theorem adjustLockoutsWithSlotHistory_error_iff :
    (∃ e, adjustLockoutsWithSlotHistory t strayRestoredSlot slotHistory = some (.error e)) ↔
      ¬(r :: t.voteState.votes.map Lockout.slot).reverse.Pairwise
          (fun a b => CheckOrder (slotHistory.check a) (slotHistory.check b)) ∨
        (r :: t.voteState.votes.map Lockout.slot).reverse.find? (slotHistory.check · == .found) =
          none := by
  have hAssert := isChain_assertOrder hSorted hRootLe
  have hStart : (⟨true, false, none, none, []⟩ : AdjustState) = passState slotHistory [] := rfl
  unfold adjustLockoutsWithSlotHistory
  simp only [Tower.root, hRoot, Option.pure_def, Option.bind_eq_bind, Option.bind_some, hStart]
  by_cases hOrd : (r :: t.voteState.votes.map Lockout.slot).reverse.Pairwise
      (fun a b => CheckOrder (slotHistory.check a) (slotHistory.check b))
  · rw [adjustLoop_ok slotHistory r (p := []) (q := (r :: t.voteState.votes.map Lockout.slot).reverse)
      hOrd hAssert, List.nil_append]
    simp only [Option.bind_some, hOrd, not_true_eq_false, false_or]
    cases hFind : (r :: t.voteState.votes.map Lockout.slot).reverse.find?
        (slotHistory.check · == .found) with
    | none =>
        refine iff_of_true ⟨.fatallyInconsistent "no common slot for rooted tower", ?_⟩ rfl
        simp only [passState, hFind, Option.isNone_none, if_true]
    | some a =>
        -- anchored: the pass ends in `Ok` or in the last `assert!`
        simp only [passState, hFind, Option.isNone_some, Bool.false_eq_true, if_false,
          reduceCtorEq, iff_false, not_exists]
        intro e
        split_ifs <;> simp
  · obtain ⟨e, he⟩ := adjustLoop_error slotHistory r (p := [])
      (q := (r :: t.voteState.votes.map Lockout.slot).reverse) List.Pairwise.nil hOrd hAssert
    rw [he, Option.bind_some]
    exact iff_of_true ⟨e, rfl⟩ (Or.inl hOrd)

/-- When the pass ends in `Ok`, the history has one of the slots, and with `a` the newest of
them the tower keeps exactly its votes above `a`, in order. The last vote is reset when no vote
is left; otherwise `stray_restored_slot` becomes the last vote's slot. -/
theorem adjustLockoutsWithSlotHistory_ok {t' : Tower} {stray' : Option Nat}
    (h : adjustLockoutsWithSlotHistory t strayRestoredSlot slotHistory = some (.ok (t', stray'))) :
    ∃ a, (r :: t.voteState.votes.map Lockout.slot).reverse.find? (slotHistory.check · == .found) =
        some a ∧
      t'.voteState = { t.voteState with votes := t.voteState.votes.filter fun v => a < v.slot } ∧
      (t'.voteState.votes = [] →
        t'.lastVote = .vote ⟨[], Hash.default, none⟩ ∧ stray' = strayRestoredSlot) ∧
      (t'.voteState.votes ≠ [] → t'.lastVote = t.lastVote ∧ stray' = t.lastVote.lastVotedSlot) := by
  have hAssert := isChain_assertOrder hSorted hRootLe
  have hStart : (⟨true, false, none, none, []⟩ : AdjustState) = passState slotHistory [] := rfl
  unfold adjustLockoutsWithSlotHistory at h
  simp only [Tower.root, hRoot, Option.pure_def, Option.bind_eq_bind, Option.bind_some,
    hStart] at h
  by_cases hOrd : (r :: t.voteState.votes.map Lockout.slot).reverse.Pairwise
      (fun a b => CheckOrder (slotHistory.check a) (slotHistory.check b))
  · rw [adjustLoop_ok slotHistory r (p := []) (q := (r :: t.voteState.votes.map Lockout.slot).reverse)
      hOrd hAssert, List.nil_append, Option.bind_some] at h
    dsimp only at h
    cases hFind : (r :: t.voteState.votes.map Lockout.slot).reverse.find?
        (slotHistory.check · == .found) with
    | none =>
        simp only [passState, hFind, Option.isNone_none, if_true] at h
        cases h
    | some a =>
        refine ⟨a, rfl, ?_⟩
        have hAnchored : (passState slotHistory
            (r :: t.voteState.votes.map Lockout.slot).reverse).anchoredSlot = some a := hFind
        rw [hAnchored, retainByFlags_passState slotHistory hSorted hRootLe hFind] at h
        simp only [Option.isNone_some, Bool.false_eq_true, if_false] at h
        split_ifs at h with hEmpty hLast
        · -- every vote was behind the anchor
          cases h
          exact ⟨by dsimp only; rw [hRoot], fun _ => ⟨rfl, rfl⟩, fun hNe => absurd (List.isEmpty_iff.mp hEmpty) hNe⟩
        · cases h
          exact ⟨by dsimp only; rw [hRoot], fun hNil => absurd (List.isEmpty_iff.mpr hNil) hEmpty,
            fun _ => ⟨rfl, rfl⟩⟩
  · obtain ⟨e, he⟩ := adjustLoop_error slotHistory r (p := [])
      (q := (r :: t.voteState.votes.map Lockout.slot).reverse) List.Pairwise.nil hOrd hAssert
    rw [he, Option.bind_some] at h
    cases h

/-- `adjust_lockouts_with_slot_history` on a tower whose votes increase over its root: it returns
an error exactly when no slot of the tower is `Found` in the history, or, newest first, a
`NotFound` follows a `Found`, a `Future` follows another check, or a check follows a `TooOld`.
When it returns `Ok`, the anchor `a` is the newest slot `Found`, and the tower keeps its votes
above `a`, in order, resetting the last vote when none is left. -/
theorem adjustLockoutsWithSlotHistory_keeps_votes_after_anchor :
    ((∃ e, adjustLockoutsWithSlotHistory t strayRestoredSlot slotHistory = some (.error e)) ↔
      (∀ x ∈ r :: t.voteState.votes.map Lockout.slot, slotHistory.check x ≠ .found) ∨
        ¬((r :: t.voteState.votes.map Lockout.slot).reverse.map slotHistory.check).Pairwise
          (fun a b => a = .found → b ≠ .notFound) ∨
        ¬((r :: t.voteState.votes.map Lockout.slot).reverse.map slotHistory.check).Pairwise
          (fun a b => b = .future → a = .future) ∨
        ¬((r :: t.voteState.votes.map Lockout.slot).reverse.map slotHistory.check).Pairwise
          (fun a b => a = .tooOld → b = .tooOld)) ∧
    ∀ t' stray', adjustLockoutsWithSlotHistory t strayRestoredSlot slotHistory = some (.ok (t', stray')) →
      ∃ a, (r :: t.voteState.votes.map Lockout.slot).reverse.find? (slotHistory.check · == .found) =
          some a ∧
        t'.voteState = { t.voteState with votes := t.voteState.votes.filter fun v => a < v.slot } ∧
        (t'.voteState.votes = [] →
          t'.lastVote = .vote ⟨[], Hash.default, none⟩ ∧ stray' = strayRestoredSlot) ∧
        (t'.voteState.votes ≠ [] → t'.lastVote = t.lastVote ∧ stray' = t.lastVote.lastVotedSlot) := by
  refine ⟨?_, fun t' stray' h =>
    adjustLockoutsWithSlotHistory_ok hRoot hSorted hRootLe strayRestoredSlot slotHistory h⟩
  rw [adjustLockoutsWithSlotHistory_error_iff hRoot hSorted hRootLe, pairwise_checkOrder_iff,
    List.find?_eq_none]
  simp only [List.mem_reverse, beq_iff_eq]
  tauto

end Adjust

/-- A restart after the ledger replayed slots 1 to 3: the tower with root 1 and votes 2, 3 and 5
anchors at 3 and keeps its vote for 5. -/
theorem adjustLockoutsWithSlotHistory_keeps_votes_after_anchor_restart :
    let t : Tower :=
      ⟨{ VoteState.default with votes := [⟨2, 3⟩, ⟨3, 2⟩, ⟨5, 1⟩], rootSlot := some 1 },
        .vote ⟨[2, 3, 5], Hash.default, none⟩⟩
    let slotHistory := [1, 2, 3].foldl SlotHistory.add SlotHistory.default
    ((∃ e, adjustLockoutsWithSlotHistory t none slotHistory = some (.error e)) ↔
      (∀ x ∈ 1 :: t.voteState.votes.map Lockout.slot, slotHistory.check x ≠ .found) ∨
        ¬((1 :: t.voteState.votes.map Lockout.slot).reverse.map slotHistory.check).Pairwise
          (fun a b => a = .found → b ≠ .notFound) ∨
        ¬((1 :: t.voteState.votes.map Lockout.slot).reverse.map slotHistory.check).Pairwise
          (fun a b => b = .future → a = .future) ∨
        ¬((1 :: t.voteState.votes.map Lockout.slot).reverse.map slotHistory.check).Pairwise
          (fun a b => a = .tooOld → b = .tooOld)) ∧
    ∀ t' stray', adjustLockoutsWithSlotHistory t none slotHistory = some (.ok (t', stray')) →
      ∃ a, (1 :: t.voteState.votes.map Lockout.slot).reverse.find? (slotHistory.check · == .found) =
          some a ∧
        t'.voteState = { t.voteState with votes := t.voteState.votes.filter fun v => a < v.slot } ∧
        (t'.voteState.votes = [] → t'.lastVote = .vote ⟨[], Hash.default, none⟩ ∧ stray' = none) ∧
        (t'.voteState.votes ≠ [] → t'.lastVote = t.lastVote ∧ stray' = t.lastVote.lastVotedSlot) :=
  adjustLockoutsWithSlotHistory_keeps_votes_after_anchor rfl (by decide) (by decide) none _

example :
    adjustLockoutsWithSlotHistory
        ⟨{ VoteState.default with votes := [⟨2, 3⟩, ⟨3, 2⟩, ⟨5, 1⟩], rootSlot := some 1 },
          .vote ⟨[2, 3, 5], Hash.default, none⟩⟩
        none ([1, 2, 3].foldl SlotHistory.add SlotHistory.default) =
      some (.ok (⟨{ VoteState.default with votes := [⟨5, 1⟩], rootSlot := some 1 },
        .vote ⟨[2, 3, 5], Hash.default, none⟩⟩, some 5)) := by
  decide

/-- A root above the oldest vote trips the `assert!` of the pass: with the root 5 over a vote
for 3, neither in the history, the pass panics where a tower with no anchor should be
rejected. -/
theorem adjustLockoutsWithSlotHistory_panics_on_root_above_votes :
    (∀ x ∈ [5, 3], SlotHistory.default.check x ≠ .found) ∧
      adjustLockoutsWithSlotHistory
          ⟨{ VoteState.default with votes := [⟨3, 1⟩], rootSlot := some 5 },
            .vote ⟨[3], Hash.default, none⟩⟩
          none SlotHistory.default = none := by
  decide

end PutValidator.Consensus
