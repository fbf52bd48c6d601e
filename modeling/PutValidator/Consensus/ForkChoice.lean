import Mathlib
import PutValidator.Lib.SortedMap
import PutValidator.Sdk.EpochSchedule
import PutValidator.Sdk.Primitives

/-! Fork choice by the heaviest subtree, from `core/src/heaviest_subtree_fork_choice.rs`.

The tree is a map from `(slot, hash)` keys to `ForkInfo`s, each holding its parent, its
children, the stake voted on the node itself and on its whole subtree, the best slot of the
subtree, and the latest ancestor marked invalid. Votes are turned into a batch of update
operations in a `BTreeMap` keyed by `(node, label)` and replayed from the greatest key down, so
that children, whose keys are larger, are aggregated before their parents. New leaves take the
cheaper way of `propagate_new_leaf`. `split_off`, `purge_prune`, `set_tree_root` and `merge`
move nodes between trees.

The hash enters only through its order and its default, so it is a type parameter here. The
weights are `u128` sums of stake; they are kept as natural numbers, and only the subtraction
of `subtract_slot_stake` is checked, as a debug build checks it. Every `expect`, `unwrap` and
`assert!` is a `none`, and so is the end of the fuel of a loop, which a tree never reaches. -/
namespace PutValidator.Consensus

open Lib

/-- `SlotHashKey`, the pair `(Slot, Hash)`. -/
structure SlotHashKey (H : Type) where
  slot : Nat
  hash : H
deriving Repr

namespace SlotHashKey

variable {H : Type}

/-- The pair that the derived `Ord` of `(Slot, Hash)` compares: slots first. -/
def lexKey (k : SlotHashKey H) : Lex (Nat × H) := toLex (k.slot, k.hash)

theorem lexKey_injective : Function.Injective (lexKey (H := H)) := by
  rintro ⟨s, h⟩ ⟨s', h'⟩ hEq
  simp only [lexKey, toLex_inj, Prod.mk.injEq] at hEq
  rw [hEq.1, hEq.2]

instance [LinearOrder H] : LinearOrder (SlotHashKey H) := LinearOrder.lift' lexKey lexKey_injective

/-- `SlotHashKey::default()`. -/
instance [Inhabited H] : Inhabited (SlotHashKey H) := ⟨⟨0, default⟩⟩

theorem lt_iff [LinearOrder H] {a b : SlotHashKey H} :
    a < b ↔ a.slot < b.slot ∨ a.slot = b.slot ∧ a.hash < b.hash :=
  Prod.Lex.toLex_lt_toLex

theorem slot_le_of_lt [LinearOrder H] {a b : SlotHashKey H} (h : a < b) : a.slot ≤ b.slot := by
  rcases lt_iff.mp h with h | h
  · exact Nat.le_of_lt h
  · exact Nat.le_of_eq h.1

theorem lt_of_slot_lt [LinearOrder H] {a b : SlotHashKey H} (h : a.slot < b.slot) : a < b :=
  lt_iff.mpr (Or.inl h)

end SlotHashKey

/-- `ForkInfo`. `children` is a `BTreeSet`, listed in ascending order. -/
structure ForkInfo (H : Type) where
  stakeVotedAt : Nat
  stakeVotedSubtree : Nat
  bestSlot : SlotHashKey H
  parent : Option (SlotHashKey H)
  children : List (SlotHashKey H)
  latestInvalidAncestor : Option Nat
  isDuplicateConfirmed : Bool

namespace ForkInfo

variable {H : Type}

/-- `is_candidate`: no ancestor of the node, the node included, is marked invalid. -/
def isCandidate (info : ForkInfo H) : Bool := info.latestInvalidAncestor.isNone

def setDuplicateConfirmed (info : ForkInfo H) : ForkInfo H :=
  { info with isDuplicateConfirmed := true, latestInvalidAncestor := none }

def updateWithNewlyValidAncestor (info : ForkInfo H) (newlyValidAncestor : Nat) : ForkInfo H :=
  match info.latestInvalidAncestor with
  | some latestInvalidAncestor =>
      if latestInvalidAncestor ≤ newlyValidAncestor then { info with latestInvalidAncestor := none }
      else info
  | none => info

/-- `update_with_newly_invalid_ancestor`; `none` where its `assert!` fires on a duplicate
confirmed node. -/
def updateWithNewlyInvalidAncestor (info : ForkInfo H) (newlyInvalidAncestor : Nat) :
    Option (ForkInfo H) :=
  if info.isDuplicateConfirmed then none
  else if (info.latestInvalidAncestor.map fun latest => decide (latest < newlyInvalidAncestor)).getD
      true then
    some { info with latestInvalidAncestor := some newlyInvalidAncestor }
  else some info

end ForkInfo

/-- `UpdateLabel`; its derived `Ord` takes the variants in this order, then the slot. -/
inductive UpdateLabel
  | aggregate
  | add
  | markValid (slot : Nat)
  | markInvalid (slot : Nat)
  | subtract
deriving DecidableEq, Repr

namespace UpdateLabel

def rank : UpdateLabel → Lex (Nat × Nat)
  | aggregate => toLex (0, 0)
  | add => toLex (1, 0)
  | markValid slot => toLex (2, slot)
  | markInvalid slot => toLex (3, slot)
  | subtract => toLex (4, 0)

theorem rank_injective : Function.Injective rank := by
  intro a b h
  cases a <;> cases b <;> simp_all [rank]

instance : LinearOrder UpdateLabel := LinearOrder.lift' rank rank_injective

end UpdateLabel

inductive UpdateOperation
  | add (stake : Nat)
  | markValid (slot : Nat)
  | markInvalid (slot : Nat)
  | subtract (stake : Nat)
  | aggregate
deriving DecidableEq, Repr

/-- `update_stake`; `none` where it panics, on the operations without a stake. -/
def UpdateOperation.updateStake : UpdateOperation → Nat → Option UpdateOperation
  | .add stake, newStake => some (.add (stake + newStake))
  | .subtract stake, newStake => some (.subtract (stake + newStake))
  | _, _ => none

/-- `UpdateOperations`, a `BTreeMap<(SlotHashKey, UpdateLabel), UpdateOperation>`. -/
abbrev UpdateOperations (H : Type) [LinearOrder H] :=
  SortedMap (Lex (SlotHashKey H × UpdateLabel)) UpdateOperation

/-- The stake `generate_update_operations` reads for a vote: the voter's stake in the epoch of
the voted slot, `0` when that epoch has no stakes. -/
def voteStake (epochStakes : Nat → Option (Pubkey → Nat)) (epochSchedule : EpochSchedule)
    (pubkey : Pubkey) (slot : Nat) : Nat :=
  ((epochStakes (epochSchedule.getEpoch slot)).map fun stakes => stakes pubkey).getD 0

structure HeaviestSubtreeForkChoice (H : Type) [LinearOrder H] where
  forkInfos : SortedMap (SlotHashKey H) (ForkInfo H)
  latestVotes : SortedMap Pubkey (SlotHashKey H)
  treeRoot : SlotHashKey H

namespace HeaviestSubtreeForkChoice

variable {H : Type} [LinearOrder H]

/-! ### Reading the tree -/

def containsBlock (s : HeaviestSubtreeForkChoice H) (key : SlotHashKey H) : Bool :=
  (s.forkInfos.get? key).isSome

def bestSlot (s : HeaviestSubtreeForkChoice H) (key : SlotHashKey H) : Option (SlotHashKey H) :=
  (s.forkInfos.get? key).map (·.bestSlot)

def bestOverallSlot (s : HeaviestSubtreeForkChoice H) : Option (SlotHashKey H) := s.bestSlot s.treeRoot

def stakeVotedSubtree (s : HeaviestSubtreeForkChoice H) (key : SlotHashKey H) : Option Nat :=
  (s.forkInfos.get? key).map (·.stakeVotedSubtree)

def stakeVotedAt (s : HeaviestSubtreeForkChoice H) (key : SlotHashKey H) : Option Nat :=
  (s.forkInfos.get? key).map (·.stakeVotedAt)

def latestInvalidAncestor (s : HeaviestSubtreeForkChoice H) (key : SlotHashKey H) : Option Nat :=
  (s.forkInfos.get? key).bind (·.latestInvalidAncestor)

def isCandidate (s : HeaviestSubtreeForkChoice H) (key : SlotHashKey H) : Option Bool :=
  (s.forkInfos.get? key).map (·.isCandidate)

def isDuplicateConfirmed (s : HeaviestSubtreeForkChoice H) (key : SlotHashKey H) : Option Bool :=
  (s.forkInfos.get? key).map (·.isDuplicateConfirmed)

def parent (s : HeaviestSubtreeForkChoice H) (key : SlotHashKey H) : Option (SlotHashKey H) :=
  (s.forkInfos.get? key).bind (·.parent)

/-- `TreeDiff::children`. -/
def children (s : HeaviestSubtreeForkChoice H) (key : SlotHashKey H) : Option (List (SlotHashKey H)) :=
  (s.forkInfos.get? key).map (·.children)

/-- `AncestorIterator`: the parents of `key`, nearest first, up to `fuel` of them. It yields a
parent even when the parent has no `ForkInfo`, and stops there. -/
def ancestorIterator (s : HeaviestSubtreeForkChoice H) : Nat → SlotHashKey H → List (SlotHashKey H)
  | 0, _ => []
  | fuel + 1, key =>
      match s.parent key with
      | none => []
      | some parent => parent :: s.ancestorIterator fuel parent

/-- The ancestors of `key`, with as much fuel as the tree has nodes. -/
def ancestors (s : HeaviestSubtreeForkChoice H) (key : SlotHashKey H) : List (SlotHashKey H) :=
  s.ancestorIterator s.forkInfos.entries.length key

/-! ### New leaves -/

/-- The `ForkInfo` `add_new_leaf_slot` inserts for a new leaf. -/
def newLeafInfo (key : SlotHashKey H) (parent : Option (SlotHashKey H)) (latestInvalidAncestor : Option Nat) :
    ForkInfo H where
  stakeVotedAt := 0
  stakeVotedSubtree := 0
  bestSlot := key
  parent := parent
  children := []
  latestInvalidAncestor := latestInvalidAncestor
  isDuplicateConfirmed := parent.isNone

/-- `BTreeSet::insert` on the ascending list of children. -/
def insertChild (children : List (SlotHashKey H)) (key : SlotHashKey H) : List (SlotHashKey H) :=
  if key ∈ children then children else children.orderedInsert (· ≤ ·) key

/-- `new`: a tree of the root alone. It is `add_new_leaf_slot(tree_root, None)` on the empty
tree (`addNewLeafSlot_empty`). -/
def new (treeRoot : SlotHashKey H) : HeaviestSubtreeForkChoice H where
  forkInfos := SortedMap.empty.insert treeRoot (newLeafInfo treeRoot none none)
  latestVotes := .empty
  treeRoot := treeRoot

/-- The loop of `is_best_child` over the siblings: some candidate sibling is heavier, or as heavy
with a smaller key. -/
def isBestChildLoop (s : HeaviestSubtreeForkChoice H) (maybeBestChild : SlotHashKey H)
    (maybeBestChildWeight : Nat) : List (SlotHashKey H) → Option Bool
  | [] => some true
  | child :: rest => do
      let childWeight ← s.stakeVotedSubtree child
      let candidate ← s.isCandidate child
      if !candidate then s.isBestChildLoop maybeBestChild maybeBestChildWeight rest
      else if maybeBestChildWeight < childWeight ∨
          (maybeBestChildWeight = childWeight ∧ child < maybeBestChild) then some false
      else s.isBestChildLoop maybeBestChild maybeBestChildWeight rest

def isBestChild (s : HeaviestSubtreeForkChoice H) (maybeBestChild : SlotHashKey H) : Option Bool := do
  let maybeBestChildWeight ← s.stakeVotedSubtree maybeBestChild
  match s.parent maybeBestChild with
  | none => some true
  | some parent => do
      let children ← s.children parent
      s.isBestChildLoop maybeBestChild maybeBestChildWeight children

/-- The walk of `propagate_new_leaf` up from `ancestor`: each ancestor whose best slot was the
parent's best slot takes the new leaf, and the walk stops at the first that was not. -/
def propagateWalk (key parentBest : SlotHashKey H) :
    Nat → Option (SlotHashKey H) → HeaviestSubtreeForkChoice H → Option (HeaviestSubtreeForkChoice H)
  | _, none, s => some s
  | 0, some _, _ => none
  | fuel + 1, some ancestor, s => do
      let info ← s.forkInfos.get? ancestor
      if info.bestSlot = parentBest then
        propagateWalk key parentBest fuel info.parent
          { s with forkInfos := s.forkInfos.insert ancestor { info with bestSlot := key } }
      else some s

def propagateNewLeaf (s : HeaviestSubtreeForkChoice H) (key parent : SlotHashKey H) :
    Option (HeaviestSubtreeForkChoice H) := do
  let parentBest ← s.bestSlot parent
  let isBest ← s.isBestChild key
  if isBest then propagateWalk key parentBest s.forkInfos.entries.length (some parent) s
  else some s

def addNewLeafSlot (s : HeaviestSubtreeForkChoice H) (key : SlotHashKey H) (parent : Option (SlotHashKey H)) :
    Option (HeaviestSubtreeForkChoice H) :=
  if s.containsBlock key then some s
  else
    let parentLatestInvalidAncestor := parent.bind s.latestInvalidAncestor
    let s := { s with
      forkInfos := s.forkInfos.insert key (newLeafInfo key parent parentLatestInvalidAncestor) }
    match parent with
    | none => some s
    | some parent => do
        let parentInfo ← s.forkInfos.get? parent
        let parentInfo := { parentInfo with children := insertChild parentInfo.children key }
        let s := { s with forkInfos := s.forkInfos.insert parent parentInfo }
        s.propagateNewLeaf key parent

/-! ### Aggregation -/

/-- What the loop of `aggregate_slot` carries over the children. -/
structure AggregateAcc (H : Type) where
  stakeVotedSubtree : Nat
  bestChildStakeVotedSubtree : Nat
  bestChildSlotKey : SlotHashKey H
  bestSlotHashKey : SlotHashKey H
  isDuplicateConfirmed : Bool

/-- One child in the loop of `aggregate_slot`: its weight counts whether or not it is a
candidate; it becomes the best child when it is a candidate and the first one, or heavier, or
as heavy with a smaller key. -/
def aggregateChild (s : HeaviestSubtreeForkChoice H) (key : SlotHashKey H) (acc : AggregateAcc H)
    (child : SlotHashKey H) : Option (AggregateAcc H) := do
  let childInfo ← s.forkInfos.get? child
  let weight := childInfo.stakeVotedSubtree
  let acc := { acc with
    stakeVotedSubtree := acc.stakeVotedSubtree + weight
    isDuplicateConfirmed := acc.isDuplicateConfirmed || childInfo.isDuplicateConfirmed }
  if childInfo.isCandidate ∧ (acc.bestChildSlotKey = key ∨ acc.bestChildStakeVotedSubtree < weight ∨
      (weight = acc.bestChildStakeVotedSubtree ∧ child < acc.bestChildSlotKey)) then
    some { acc with
      bestChildStakeVotedSubtree := weight
      bestChildSlotKey := child
      bestSlotHashKey := childInfo.bestSlot }
  else some acc

def aggregateSlot (s : HeaviestSubtreeForkChoice H) (key : SlotHashKey H) :
    Option (HeaviestSubtreeForkChoice H) :=
  match s.forkInfos.get? key with
  | none => some s
  | some info => do
      let acc ← info.children.foldlM (s.aggregateChild key) ⟨info.stakeVotedAt, 0, key, key, false⟩
      let info := if acc.isDuplicateConfirmed then info.setDuplicateConfirmed else info
      let info := { info with stakeVotedSubtree := acc.stakeVotedSubtree, bestSlot := acc.bestSlotHashKey }
      some { s with forkInfos := s.forkInfos.insert key info }

def markForkValid (s : HeaviestSubtreeForkChoice H) (key : SlotHashKey H) (validSlot : Nat) :
    HeaviestSubtreeForkChoice H :=
  match s.forkInfos.get? key with
  | some info =>
      let info := info.updateWithNewlyValidAncestor validSlot
      let info := if key.slot = validSlot then { info with isDuplicateConfirmed := true } else info
      { s with forkInfos := s.forkInfos.insert key info }
  | none => s

def markForkInvalid (s : HeaviestSubtreeForkChoice H) (key : SlotHashKey H) (invalidSlot : Nat) :
    Option (HeaviestSubtreeForkChoice H) :=
  match s.forkInfos.get? key with
  | some info => do
      let info ← info.updateWithNewlyInvalidAncestor invalidSlot
      some { s with forkInfos := s.forkInfos.insert key info }
  | none => some s

def addSlotStake (s : HeaviestSubtreeForkChoice H) (key : SlotHashKey H) (stake : Nat) :
    HeaviestSubtreeForkChoice H :=
  match s.forkInfos.get? key with
  | some info => { s with forkInfos := s.forkInfos.insert key { info with
      stakeVotedAt := info.stakeVotedAt + stake
      stakeVotedSubtree := info.stakeVotedSubtree + stake } }
  | none => s

/-- `subtract_slot_stake`; `none` where a `u128` subtraction underflows. -/
def subtractSlotStake (s : HeaviestSubtreeForkChoice H) (key : SlotHashKey H) (stake : Nat) :
    Option (HeaviestSubtreeForkChoice H) :=
  match s.forkInfos.get? key with
  | some info =>
      if stake ≤ info.stakeVotedAt ∧ stake ≤ info.stakeVotedSubtree then
        some { s with forkInfos := s.forkInfos.insert key { info with
          stakeVotedAt := info.stakeVotedAt - stake
          stakeVotedSubtree := info.stakeVotedSubtree - stake } }
      else none
  | none => some s

/-- One operation of `process_update_operations`. -/
def applyUpdateOperation (s : HeaviestSubtreeForkChoice H)
    (entry : Lex (SlotHashKey H × UpdateLabel) × UpdateOperation) : Option (HeaviestSubtreeForkChoice H) :=
  let key := (ofLex entry.1).1
  match entry.2 with
  | .markValid validSlot => some (s.markForkValid key validSlot)
  | .markInvalid invalidSlot => s.markForkInvalid key invalidSlot
  | .aggregate => s.aggregateSlot key
  | .add stake => some (s.addSlotStake key stake)
  | .subtract stake => s.subtractSlotStake key stake

/-- `process_update_operations`: the operations from the greatest key down. -/
def processUpdateOperations (s : HeaviestSubtreeForkChoice H) (ops : UpdateOperations H) :
    Option (HeaviestSubtreeForkChoice H) :=
  ops.entries.reverse.foldlM applyUpdateOperation s

/-- `do_insert_aggregate_operation`: unless the node already has its aggregation, add it, after
the change of validity if there is one; say whether it was added. -/
def doInsertAggregateOperation (ops : UpdateOperations H) (modifyForkValidity : Option UpdateOperation)
    (key : SlotHashKey H) : UpdateOperations H × Bool :=
  if (ops.get? (toLex (key, .aggregate))).isSome then (ops, false)
  else
    let ops := match modifyForkValidity with
      | some (.markValid slot) => ops.insert (toLex (key, .markValid slot)) (.markValid slot)
      | some (.markInvalid slot) => ops.insert (toLex (key, .markInvalid slot)) (.markInvalid slot)
      | _ => ops
    (ops.insert (toLex (key, .aggregate)) .aggregate, true)

/-- `do_insert_aggregate_operations_across_ancestors`: stop at the first ancestor that already
has its aggregation. -/
def insertAcrossAncestors (modifyForkValidity : Option UpdateOperation) :
    UpdateOperations H → List (SlotHashKey H) → UpdateOperations H
  | ops, [] => ops
  | ops, ancestor :: rest =>
      match doInsertAggregateOperation ops modifyForkValidity ancestor with
      | (ops, true) => insertAcrossAncestors modifyForkValidity ops rest
      | (ops, false) => ops

def insertAggregateOperations (s : HeaviestSubtreeForkChoice H) (ops : UpdateOperations H)
    (key : SlotHashKey H) : UpdateOperations H :=
  insertAcrossAncestors none ops (s.ancestors key)

/-- `entry((key, label)).and_modify(update_stake).or_insert(op)`. -/
def upsertStakeOperation (ops : UpdateOperations H) (key : SlotHashKey H) (label : UpdateLabel)
    (op : UpdateOperation) (stake : Nat) : Option (UpdateOperations H) :=
  match ops.get? (toLex (key, label)) with
  | some existing => do
      let updated ← existing.updateStake stake
      some (ops.insert (toLex (key, label)) updated)
  | none => some (ops.insert (toLex (key, label)) op)

/-! ### Votes -/

/-- The loop of `generate_update_operations` over the votes. `observed` holds the voters seen
in the batch; a second vote of one of them panics. A vote for a slot below the root is dropped,
and so is one that is not later than the voter's latest vote (a smaller hash for the same slot
counts as later). Otherwise the latest vote moves, the voter's stake leaves the old node if it
has any, and comes to the new one. -/
def generateLoop (epochStakes : Nat → Option (Pubkey → Nat)) (epochSchedule : EpochSchedule) :
    List (Pubkey × SlotHashKey H) → HeaviestSubtreeForkChoice H → UpdateOperations H →
      SortedMap Pubkey Nat → Option (HeaviestSubtreeForkChoice H × UpdateOperations H)
  | [], s, ops, _ => some (s, ops)
  | (pubkey, newVote) :: rest, s, ops, observed =>
      if newVote.slot < s.treeRoot.slot then generateLoop epochStakes epochSchedule rest s ops observed
      else if (observed.get? pubkey).isSome then none
      else
        let observed := observed.insert pubkey newVote.slot
        let outdated := match s.latestVotes.get? pubkey with
          | some latest => decide (newVote.slot < latest.slot ∨
              (newVote.slot = latest.slot ∧ latest.hash ≤ newVote.hash))
          | none => false
        if outdated then generateLoop epochStakes epochSchedule rest s ops observed
        else do
          let old := s.latestVotes.get? pubkey
          let s := { s with latestVotes := s.latestVotes.insert pubkey newVote }
          let ops ← match old with
            | some old =>
                -- the `assert!` that the new vote is later
                if !(if newVote.slot = old.slot then newVote.hash < old.hash
                    else old.slot < newVote.slot) then none
                else
                  let stake := voteStake epochStakes epochSchedule pubkey old.slot
                  if 0 < stake then do
                    let ops ← upsertStakeOperation ops old .subtract (.subtract stake) stake
                    some (s.insertAggregateOperations ops old)
                  else some ops
            | none => some ops
          let stake := voteStake epochStakes epochSchedule pubkey newVote.slot
          let ops ← upsertStakeOperation ops newVote .add (.add stake) stake
          generateLoop epochStakes epochSchedule rest s (s.insertAggregateOperations ops newVote)
            observed

def generateUpdateOperations (s : HeaviestSubtreeForkChoice H) (pubkeyVotes : List (Pubkey × SlotHashKey H))
    (epochStakes : Nat → Option (Pubkey → Nat)) (epochSchedule : EpochSchedule) :
    Option (HeaviestSubtreeForkChoice H × UpdateOperations H) :=
  generateLoop epochStakes epochSchedule pubkeyVotes s .empty .empty

/-- `add_votes`, returning the tree and its best slot. -/
def addVotes (s : HeaviestSubtreeForkChoice H) (pubkeyVotes : List (Pubkey × SlotHashKey H))
    (epochStakes : Nat → Option (Pubkey → Nat)) (epochSchedule : EpochSchedule) :
    Option (HeaviestSubtreeForkChoice H × SlotHashKey H) := do
  let (s, ops) ← s.generateUpdateOperations pubkeyVotes epochStakes epochSchedule
  let s ← s.processUpdateOperations ops
  let best ← s.bestOverallSlot
  some (s, best)

/-! ### Moving subtrees -/

/-- The removal loop of `split_off`: pop a node, move its `ForkInfo` out, push its children. The
stack is a list with its top first. -/
def splitRemoveLoop : Nat → List (SlotHashKey H) → SortedMap (SlotHashKey H) (ForkInfo H) → SortedMap (SlotHashKey H) (ForkInfo H) →
    Option (SortedMap (SlotHashKey H) (ForkInfo H) × SortedMap (SlotHashKey H) (ForkInfo H))
  | _, [], forkInfos, split => some (forkInfos, split)
  | 0, _ :: _, _, _ => none
  | fuel + 1, current :: toVisit, forkInfos, split => do
      let info ← forkInfos.get? current
      splitRemoveLoop fuel (info.children.reverse ++ toVisit) (forkInfos.erase current)
        (split.insert current info)

/-- `split_off`: the subtree of `key` becomes a tree of its own, after its stake has been taken
out of its ancestors and the node marked invalid so that no ancestor picks it. -/
def splitOff (s : HeaviestSubtreeForkChoice H) (key : SlotHashKey H) :
    Option (HeaviestSubtreeForkChoice H × HeaviestSubtreeForkChoice H) := do
  if s.treeRoot = key then none
  let splitTreeRoot ← s.forkInfos.get? key
  let s := { s with forkInfos := s.forkInfos.insert key { splitTreeRoot with
    stakeVotedSubtree := 0, stakeVotedAt := 0, latestInvalidAncestor := some key.slot } }
  let s ← s.processUpdateOperations (s.insertAggregateOperations .empty key)
  let (forkInfos, splitForkInfos) ←
    splitRemoveLoop s.forkInfos.entries.length [key] s.forkInfos .empty
  let parentKey ← splitTreeRoot.parent
  let parentInfo ← forkInfos.get? parentKey
  let forkInfos := forkInfos.insert parentKey
    { parentInfo with children := parentInfo.children.erase key }
  let splitForkInfos := splitForkInfos.insert key { splitTreeRoot with parent := none }
  let splitLatestVotes := s.latestVotes.filter fun _ node => (splitForkInfos.get? node).isSome
  let latestVotes := s.latestVotes.filter fun _ node => (forkInfos.get? node).isSome
  some ({ s with forkInfos, latestVotes },
    { forkInfos := splitForkInfos, latestVotes := splitLatestVotes, treeRoot := key })

/-- The traversal of `purge_prune` from the root: the new root is recorded, a node below it is
purged after its children are pushed, and a node above it is split off with its subtree. -/
def purgePruneLoop (newRoot : SlotHashKey H) :
    Nat → List (SlotHashKey H) → HeaviestSubtreeForkChoice H → List (SlotHashKey H) → List (HeaviestSubtreeForkChoice H) →
      Option (SlotHashKey H) → Option (HeaviestSubtreeForkChoice H × List (SlotHashKey H) ×
        List (HeaviestSubtreeForkChoice H) × Option (SlotHashKey H))
  | _, [], s, purged, pruned, treeRoot => some (s, purged, pruned, treeRoot)
  | 0, _ :: _, _, _, _, _ => none
  | fuel + 1, current :: toVisit, s, purged, pruned, treeRoot =>
      if current = newRoot then purgePruneLoop newRoot fuel toVisit s purged pruned (some newRoot)
      else if current < newRoot then do
        let children ← s.children current
        purgePruneLoop newRoot fuel (children.reverse ++ toVisit) s (purged ++ [current]) pruned
          treeRoot
      else do
        let (s, split) ← s.splitOff current
        purgePruneLoop newRoot fuel toVisit s purged (pruned ++ [split]) treeRoot

/-- `fork_infos.remove(key).expect(..)` for each key in turn. -/
def removeAll (forkInfos : SortedMap (SlotHashKey H) (ForkInfo H)) (keys : List (SlotHashKey H)) :
    Option (SortedMap (SlotHashKey H) (ForkInfo H)) :=
  keys.foldlM (fun forkInfos key => (forkInfos.get? key).map fun _ => forkInfos.erase key) forkInfos

/-- `purge_prune`, returning the tree, the purged slots and the pruned subtrees. -/
def purgePrune (s : HeaviestSubtreeForkChoice H) (newRoot : SlotHashKey H) :
    Option (HeaviestSubtreeForkChoice H × List (SlotHashKey H) × List (HeaviestSubtreeForkChoice H)) := do
  let (s, purged, pruned, treeRoot) ←
    purgePruneLoop newRoot s.forkInfos.entries.length [s.treeRoot] s [] [] none
  let forkInfos ← removeAll s.forkInfos purged
  match treeRoot with
  | some treeRoot => do
      let rootInfo ← forkInfos.get? treeRoot
      let forkInfos := forkInfos.insert treeRoot { rootInfo with parent := none }
      some ({ s with forkInfos, treeRoot }, purged, pruned)
  | none => some ({ s with forkInfos }, purged, pruned)

/-- The loop of `TreeDiff::subtree_diff`: the nodes reachable from the stack without passing
through `root2`. -/
def subtreeDiffLoop (s : HeaviestSubtreeForkChoice H) (root2 : SlotHashKey H) :
    Nat → List (SlotHashKey H) → List (SlotHashKey H) → Option (List (SlotHashKey H))
  | _, [], reachable => some reachable
  | 0, _ :: _, _ => none
  | fuel + 1, current :: pending, reachable =>
      if current = root2 then s.subtreeDiffLoop root2 fuel pending reachable
      else do
        let children ← s.children current
        s.subtreeDiffLoop root2 fuel (children.reverse ++ pending)
          (if current ∈ reachable then reachable else reachable ++ [current])

/-- `subtree_diff(root1, root2)`, its `HashSet` as a list. -/
def subtreeDiff (s : HeaviestSubtreeForkChoice H) (root1 root2 : SlotHashKey H) : Option (List (SlotHashKey H)) :=
  if s.containsBlock root1 then s.subtreeDiffLoop root2 (s.forkInfos.entries.length + 1) [root1] []
  else some []

def setTreeRoot (s : HeaviestSubtreeForkChoice H) (newRoot : SlotHashKey H) :
    Option (HeaviestSubtreeForkChoice H) := do
  let removeSet ← s.subtreeDiff s.treeRoot newRoot
  let forkInfos ← removeAll s.forkInfos removeSet
  let rootInfo ← forkInfos.get? newRoot
  let forkInfos := forkInfos.insert newRoot { rootInfo with parent := none }
  some { s with forkInfos, treeRoot := newRoot }

/-- `mark_fork_invalid_candidate`: the node's subtree learns of the invalid slot, and the
ancestors are aggregated again; `none` where the node is duplicate confirmed. -/
def markForkInvalidCandidate [Inhabited H] (s : HeaviestSubtreeForkChoice H) (key : SlotHashKey H) :
    Option (HeaviestSubtreeForkChoice H) :=
  match s.forkInfos.get? key with
  | none => some s
  | some info =>
      if info.isDuplicateConfirmed then none
      else do
        let subtree ← s.subtreeDiff key default
        let ops := subtree.foldl (fun ops child =>
          (doInsertAggregateOperation ops (some (.markInvalid key.slot)) child).1) .empty
        s.processUpdateOperations (s.insertAggregateOperations ops key)

/-- `mark_fork_valid_candidate`, returning the tree and the node and ancestors that were not yet
duplicate confirmed. -/
def markForkValidCandidate [Inhabited H] (s : HeaviestSubtreeForkChoice H) (key : SlotHashKey H) :
    Option (HeaviestSubtreeForkChoice H × List (SlotHashKey H)) := do
  let newlyDuplicateConfirmed ← (key :: s.ancestors key).foldlM (fun acc ancestor => do
    let confirmed ← s.isDuplicateConfirmed ancestor
    some (if confirmed then acc else acc ++ [ancestor])) []
  let subtree ← s.subtreeDiff key default
  let ops := subtree.foldl (fun ops child =>
    (doInsertAggregateOperation ops (some (.markValid key.slot)) child).1) .empty
  let s ← s.processUpdateOperations (s.insertAggregateOperations ops key)
  some (s, newlyDuplicateConfirmed)

/-- `merge`: the nodes of `other` in key order, its root under `mergeLeaf`, then its latest
votes, of which `add_votes` keeps the later ones. -/
def merge (s : HeaviestSubtreeForkChoice H) (other : HeaviestSubtreeForkChoice H) (mergeLeaf : SlotHashKey H)
    (epochStakes : Nat → Option (Pubkey → Nat)) (epochSchedule : EpochSchedule) :
    Option (HeaviestSubtreeForkChoice H) := do
  if !s.containsBlock mergeLeaf then none
  let otherSlotsNodes := (other.forkInfos.entries.map fun e =>
    (e.1, e.2.parent.getD mergeLeaf)).mergeSort fun a b => a.1 ≤ b.1
  let s ← otherSlotsNodes.foldlM (fun s node => s.addNewLeafSlot node.1 (some node.2)) s
  let (s, _) ← s.addVotes other.latestVotes.entries epochStakes epochSchedule
  some s

end HeaviestSubtreeForkChoice

end PutValidator.Consensus
