import PutValidator.Lib.ListSet
import PutValidator.Lib.Word

/-! `RollingBitField` (`runtime/src/rolling_bit_field.rs`): a set of `u64` keys held as a ring
of `max_width` bits over the window `[min, max_exclusive)`, the key `k` at bit
`k % max_width`, with the keys that fall below the window kept in a hash set, `excess`. The bit
vector is a list of `max_width` booleans and the hash set a duplicate-free list
(`Lib.ListSet`), whose order stands for its iteration order. Keys and counts are naturals; every
key is below `u64::MAX`, so `key + 1` does not overflow. A failed `assert!` is `none`. -/
namespace PutValidator.Runtime

open Lib.Word

structure RollingBitField where
  maxWidth : Nat
  min : Nat
  maxExclusive : Nat
  bits : List Bool
  count : Nat
  /-- The keys below `min` that would make the window wider than `max_width`. -/
  excess : List Nat
deriving DecidableEq, Repr

namespace RollingBitField

/-- `RollingBitField::new`, with its two assertions on the width. -/
def new (maxWidth : Nat) : Option RollingBitField :=
  if 0 < maxWidth ∧ maxWidth = 2 ^ maxWidth.log2 then
    some
      { maxWidth := maxWidth, min := 0, maxExclusive := 0,
        bits := List.replicate maxWidth false, count := 0, excess := [] }
  else none

/-- The bit of a key. -/
def getAddress (f : RollingBitField) (key : Nat) : Nat := key % f.maxWidth

def allItemsInExcess (f : RollingBitField) : Bool := f.excess.length == f.count

/-- The bit of `key`, which may stand for another key of the same address: the caller checks
that `key` lies in the window. -/
def containsAssumeInRange (f : RollingBitField) (key : Nat) : Bool :=
  f.bits.getD (f.getAddress key) false

def contains (f : RollingBitField) (key : Nat) : Bool :=
  if key < f.maxExclusive then
    if f.min ≤ key then f.containsAssumeInRange key else decide (key ∈ f.excess)
  else false

def len (f : RollingBitField) : Nat := f.count

def isEmpty (f : RollingBitField) : Bool := f.len == 0

/-- `purge`, once `key` has left the bit field: when it was `min`, move `min` up to the next key
the bit field holds; when the bit field holds no key, set `min` to `max_exclusive`, so that
every key still in `excess` stays below it. -/
def purge (f : RollingBitField) (key : Nat) : RollingBitField :=
  if 0 < f.count ∧ f.allItemsInExcess = false then
    if key = f.min then
      match (List.range' (f.min + 1) (f.maxExclusive - (f.min + 1))).find?
          f.containsAssumeInRange with
      | some next => { f with min := next }
      | none => f
    else f
  else { f with min := f.maxExclusive }

theorem purge_maxExclusive (f : RollingBitField) (key : Nat) :
    (f.purge key).maxExclusive = f.maxExclusive := by
  unfold purge
  split
  · split
    · split <;> rfl
    · rfl
  · rfl

theorem purge_maxWidth (f : RollingBitField) (key : Nat) :
    (f.purge key).maxWidth = f.maxWidth := by
  unfold purge
  split
  · split
    · split <;> rfl
    · rfl
  · rfl

theorem purge_excess (f : RollingBitField) (key : Nat) : (f.purge key).excess = f.excess := by
  unfold purge
  split
  · split
    · split <;> rfl
    · rfl
  · rfl

/-- `purge` leaves `min`, moves it to `max_exclusive`, or moves it up inside the window. -/
theorem purge_min_cases (f : RollingBitField) (key : Nat) :
    (f.purge key).min = f.min ∨ (f.purge key).min = f.maxExclusive ∨
      (f.min < (f.purge key).min ∧ (f.purge key).min < f.maxExclusive) := by
  unfold purge
  split
  · split
    · split
      · rename_i next hFind
        have hMem := List.mem_range'_1.mp (List.mem_of_find?_eq_some hFind)
        exact Or.inr (Or.inr ⟨by dsimp only; omega, by dsimp only; omega⟩)
      · exact Or.inl rfl
    · exact Or.inl rfl
  · exact Or.inr (Or.inl rfl)

/-- What bounds the eviction loop: `min` stays at or below `max_exclusive` once it got there,
moves up, or joins `excess`, which it may do only once. -/
def evictMeasure (f : RollingBitField) : Nat :=
  2 * (f.maxExclusive + 1 - f.min) + (if f.min ∈ f.excess then 0 else 1) +
    3 * (if f.min ≤ f.maxExclusive then 0 else 1)

/-- The loop of `insert` for a key at or past `max_exclusive`: while the window up to `newMax`
would be wider than `max_width`, move the least key of the bit field to `excess`. It returns the
state and whether the bit field was emptied; `none` is the failed `assert!(inserted)`. -/
def evict (f : RollingBitField) (newMax : Nat) : Option (RollingBitField × Bool) :=
  if newMax - f.min ≤ f.maxWidth then some (f, false)
  else
    match h : Lib.ListSet.insert f.excess f.min with
    | (_, false) => none
    | (excess, true) =>
        let key := f.min
        let f' :=
          ({ f with excess := excess, bits := f.bits.set (f.getAddress key) false }).purge key
        if f'.allItemsInExcess then some (f', true)
        else evict f' newMax
termination_by f.evictMeasure
decreasing_by
  have hNew : f.min ∉ f.excess := by
    intro hMem
    rw [Lib.ListSet.insert_eq_of_mem hMem] at h
    cases h
  rw [Lib.ListSet.insert_eq_of_not_mem hNew, Prod.mk.injEq] at h
  obtain ⟨rfl, -⟩ := h
  have hExcess := purge_excess
    { f with excess := f.excess ++ [f.min], bits := f.bits.set (f.getAddress f.min) false }
    f.min
  have hMax := purge_maxExclusive
    { f with excess := f.excess ++ [f.min], bits := f.bits.set (f.getAddress f.min) false }
    f.min
  have hCases := purge_min_cases
    { f with excess := f.excess ++ [f.min], bits := f.bits.set (f.getAddress f.min) false }
    f.min
  simp only at hExcess hMax hCases
  unfold evictMeasure
  rw [hExcess, hMax]
  rcases hCases with hMin | hMin | ⟨hLo, hHi⟩
  · rw [hMin, if_pos (List.mem_append_right _ (List.mem_singleton_self _)), if_neg hNew]
    split <;> omega
  · rw [hMin, if_neg hNew, if_pos (Nat.le_refl _)]
    by_cases hLe : f.min ≤ f.maxExclusive
    · rw [if_pos hLe]
      rcases Nat.lt_or_ge f.min f.maxExclusive with hLt | hGe
      · split <;> omega
      · -- `min` was `max_exclusive` and has just joined `excess`
        have hEq : f.maxExclusive = f.min := by omega
        rw [if_pos (hEq ▸ List.mem_append_right _ (List.mem_singleton_self _))]
        omega
    · rw [if_neg hLe]
      split <;> omega
  · rw [if_neg hNew, if_pos (Nat.le_of_lt hHi), if_pos (Nat.le_of_lt (Nat.lt_trans hLo hHi))]
    split <;> omega

/-- The `update_bits` tail of `insert`: set the key's bit when it is clear, resetting the window
to the key when the bit field was empty and widening it to the key otherwise. -/
def updateBits (f : RollingBitField) (key : Nat) (bitsEmpty : Bool) : Option RollingBitField :=
  let address := f.getAddress key
  if f.bits.getD address false then some f
  else
    let bits := f.bits.set address true
    if bitsEmpty then
      some { f with bits := bits, min := key, maxExclusive := key + 1, count := f.count + 1 }
    else
      let min := Nat.min f.min key
      let maxExclusive := Nat.max f.maxExclusive (key + 1)
      -- `assert!(self.min + self.max_width >= self.max_exclusive)`
      if maxExclusive ≤ min + f.maxWidth then
        some
          { f with bits := bits, min := min, maxExclusive := maxExclusive, count := f.count + 1 }
      else none

def insert (f : RollingBitField) (key : Nat) : Option RollingBitField :=
  if f.count = 0 ∨ f.allItemsInExcess = true then f.updateBits key true
  else if key < f.min then
    -- below the window: into `excess`
    let (excess, inserted) := Lib.ListSet.insert f.excess key
    some { f with excess := excess, count := if inserted then f.count + 1 else f.count }
  else if key < f.maxExclusive then f.updateBits key false
  else
    match f.evict (key + 1) with
    | some (f', bitsEmpty) => f'.updateBits key bitsEmpty
    | none => none

/-- `remove`: the key leaves the bit field, or `excess` when it lies below the window; the
result says whether it was there. -/
def remove (f : RollingBitField) (key : Nat) : Bool × RollingBitField :=
  if f.min ≤ key then
    if key < f.maxExclusive then
      let address := f.getAddress key
      let get := f.bits.getD address false
      if get then
        (true, ({ f with count := f.count - 1, bits := f.bits.set address false }).purge key)
      else (false, f)
    else (false, f)
  else
    let (excess, remove) := Lib.ListSet.remove f.excess key
    (remove, { f with excess := excess, count := if remove then f.count - 1 else f.count })

/-- `RollingBitField::min`: the least key, looking through `excess` when it is not empty. -/
def min? (f : RollingBitField) : Option Nat :=
  if f.isEmpty then none
  else if f.excess.isEmpty then some f.min
  else
    let start := if f.allItemsInExcess then maxValue 64 else f.min
    some (f.excess.foldl Nat.min start)

def getAllLessThan (f : RollingBitField) (maxSlotExclusive : Nat) : List Nat :=
  f.excess.filter (· < maxSlotExclusive) ++
    ((List.range' f.min (f.maxExclusive - f.min)).takeWhile (· < maxSlotExclusive)).filter
      f.containsAssumeInRange

/-- The loop of `get_prior`, from `slot` down: it stops with the first key it holds, and gives
up when the slot it steps to is 0 or below `min`. -/
def getPriorFrom (f : RollingBitField) (min : Nat) : Nat → Option Nat
  | 0 => if f.contains 0 then some 0 else none
  | slot + 1 =>
      if f.contains (slot + 1) then some (slot + 1)
      else if slot = 0 ∨ slot < min then none
      else f.getPriorFrom min slot

def getPrior (f : RollingBitField) (maxSlotExclusive : Nat) : Option Nat :=
  f.min?.bind fun min => f.getPriorFrom min (maxSlotExclusive - 1)

def getAll (f : RollingBitField) : List Nat :=
  f.excess ++ (List.range' f.min (f.maxExclusive - f.min)).filter f.containsAssumeInRange

end RollingBitField

end PutValidator.Runtime
