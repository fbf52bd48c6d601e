import PutValidator.Lib.Ring
import PutValidator.Lib.Word

/-! The slot-history sysvar (`sdk/program/src/slot_history.rs`): a ring of `MAX_ENTRIES` bits,
slot `s` at bit `s % MAX_ENTRIES`, with `next_slot` one past the newest slot added. The bit
vector of the `bv` crate is a function from bit indices to bits; `add` and `check` read and write
only those below `MAX_ENTRIES`, and `set_block(i, 0)` clears the 64 bits of block `i`. Slots are
`u64`: `next_slot = slot + 1` and `newest = next_slot - 1` wrap as in a release build, so that
adding `u64::MAX` leaves `next_slot` at 0.

Along every run of `add`s of increasing slots below `u64::MAX` the ring stands for the window of `MAX_ENTRIES`
slots up to the newest (`Represents`): each bit of the window says whether its slot was added,
whatever bits the earlier laps of the ring left, so `check` answers for the set of slots added. -/
namespace PutValidator

open Lib.Ring Lib.Word

/-- `MAX_ENTRIES`: a million slots, about five days. -/
def maxEntries : Nat := 1024 * 1024

/-- `bv::BitVec::set_block`: the 64 bits of block `i` become those of `value`. -/
def setBlock (bits : Nat → Bool) (i value : Nat) : Nat → Bool :=
  fun j => if j / 64 = i then value.testBit (j % 64) else bits j

/-- Clearing the first `k` blocks clears every bit of them and leaves the others. -/
theorem foldl_setBlock_zero (bits : Nat → Bool) (k j : Nat) :
    (List.range k).foldl (fun bits i => setBlock bits i 0) bits j =
      if j / 64 < k then false else bits j := by
  induction k with
  | zero => rfl
  | succ k ih =>
      rw [List.range_succ, List.foldl_append, List.foldl_cons, List.foldl_nil]
      show (if j / 64 = k then Nat.testBit 0 (j % 64) else _) = _
      by_cases hk : j / 64 = k
      · rw [if_pos hk, if_pos (by omega), Nat.zero_testBit]
      · rw [if_neg hk, ih]
        by_cases hj : j / 64 < k
        · rw [if_pos hj, if_pos (by omega)]
        · rw [if_neg hj, if_neg (by omega)]

structure SlotHistory where
  bits : Nat → Bool
  nextSlot : Nat

inductive Check
  | future
  | tooOld
  | found
  | notFound
deriving DecidableEq, Repr

namespace SlotHistory

/-- `SlotHistory::default`: slot 0 alone. -/
def default : SlotHistory :=
  { bits := Function.update (fun _ => false) 0 true, nextSlot := 1 }

def add (h : SlotHistory) (slot : Nat) : SlotHistory :=
  let bits :=
    if slot > h.nextSlot ∧ slot - h.nextSlot ≥ maxEntries then
      -- wrapped past the current history: clear every block
      (List.range (maxEntries / 64)).foldl (fun bits i => setBlock bits i 0) h.bits
    else
      (List.range' h.nextSlot (slot - h.nextSlot)).foldl
        (fun bits skipped => Function.update bits (skipped % maxEntries) false) h.bits
  -- `slot + 1` on `u64` wraps at `u64::MAX`
  { bits := Function.update bits (slot % maxEntries) true,
    nextSlot := if slot = maxValue 64 then 0 else slot + 1 }

def oldest (h : SlotHistory) : Nat := h.nextSlot - maxEntries

/-- `next_slot - 1` on `u64`, which wraps at 0. -/
def newest (h : SlotHistory) : Nat := if h.nextSlot = 0 then maxValue 64 else h.nextSlot - 1

def check (h : SlotHistory) (slot : Nat) : Check :=
  if slot > h.newest then .future
  else if slot < h.oldest then .tooOld
  else if h.bits (slot % maxEntries) then .found
  else .notFound

/-- Below `u64::MAX` the new `next_slot` does not wrap. -/
theorem nextSlot_add (h : SlotHistory) {slot : Nat} (hSlot : slot < maxValue 64) :
    (h.add slot).nextSlot = slot + 1 :=
  if_neg (Nat.ne_of_lt hSlot)

/-- `newest` undoes the `+ 1` of `add`, its wrap at `u64::MAX` included. -/
theorem newest_add (h : SlotHistory) (slot : Nat) : (h.add slot).newest = slot := by
  by_cases hMax : slot = maxValue 64
  · have hNext : (h.add slot).nextSlot = 0 := if_pos hMax
    rw [newest, hNext, if_pos rfl, hMax]
  · have hNext : (h.add slot).nextSlot = slot + 1 := if_neg hMax
    rw [newest, hNext, if_neg (Nat.succ_ne_zero slot), Nat.add_sub_cancel]

/-- Away from the wrap, `newest` is one below `next_slot`. -/
theorem newest_eq {h : SlotHistory} (hPos : 0 < h.nextSlot) : h.newest = h.nextSlot - 1 :=
  if_neg (Nat.pos_iff_ne_zero.mp hPos)

/-- After a run of `add`s the newest slot is the last one added. -/
theorem newest_foldl_add (h : SlotHistory) (slots : List Nat) :
    (slots.foldl add h).newest = slots.getLast?.getD h.newest := by
  induction slots generalizing h with
  | nil => rfl
  | cons s slots ih => rw [List.foldl_cons, ih, List.getLast?_cons, Option.getD_some, newest_add]

/-- The window of `MAX_ENTRIES` slots ending at `slot`: its slots never share a bit. -/
theorem eq_of_mod_eq_of_window (slot : Nat) {a b : Nat} (ha : slot + 1 - maxEntries ≤ a) (ha' : a ≤ slot)
    (hb : slot + 1 - maxEntries ≤ b) (hb' : b ≤ slot) (h : a % maxEntries = b % maxEntries) :
    a = b :=
  eq_of_mod_eq ha (by omega) hb (by omega) h

/-- The invariant of a slot history standing for the set `S` of the slots it was given:
`next_slot` is one past the newest of them and has not wrapped, and each bit of the window of
`MAX_ENTRIES` slots up to the newest says whether its slot is in `S`. -/
structure Represents (h : SlotHistory) (S : Finset Nat) : Prop where
  nextSlot_pos : 0 < h.nextSlot
  newest_mem : h.newest ∈ S
  lt_nextSlot : ∀ x ∈ S, x < h.nextSlot
  bit_iff : ∀ x, h.oldest ≤ x → x ≤ h.newest → (h.bits (x % maxEntries) = true ↔ x ∈ S)

theorem Represents.newest_eq {h : SlotHistory} {S : Finset Nat} (hRep : Represents h S) :
    h.newest = h.nextSlot - 1 :=
  SlotHistory.newest_eq hRep.nextSlot_pos

theorem Represents.default : Represents default {0} where
  nextSlot_pos := Nat.one_pos
  newest_mem := Finset.mem_singleton_self 0
  lt_nextSlot x hx := by
    rw [Finset.mem_singleton.mp hx]
    exact Nat.one_pos
  bit_iff x _ hx := by
    have hNewest : SlotHistory.default.newest = 0 := SlotHistory.newest_eq Nat.one_pos
    obtain rfl : x = 0 := Nat.le_zero.mp (hNewest ▸ hx)
    simp [SlotHistory.default]

/-- Under the invariant, `check` answers for the set. -/
theorem Represents.check_eq {h : SlotHistory} {S : Finset Nat} (hRep : Represents h S)
    (x : Nat) :
    h.check x =
      if x > h.newest then .future
      else if x < h.oldest then .tooOld
      else if x ∈ S then .found else .notFound := by
  unfold check
  by_cases hNew : x > h.newest
  · rw [if_pos hNew, if_pos hNew]
  · rw [if_neg hNew, if_neg hNew]
    by_cases hOld : x < h.oldest
    · rw [if_pos hOld, if_pos hOld]
    · rw [if_neg hOld, if_neg hOld]
      have hBit := hRep.bit_iff x (Nat.le_of_not_lt hOld) (Nat.le_of_not_lt hNew)
      by_cases hx : x ∈ S
      · rw [if_pos (hBit.mpr hx), if_pos hx]
      · rw [if_neg (mt hBit.mp hx), if_neg hx]

section Add

variable {h : SlotHistory} {S : Finset Nat} (hRep : Represents h S) {slot : Nat}
  (hSlot : h.newest ≤ slot) (hU64 : slot < maxValue 64)
include hRep hSlot

/-- A slot of the new window other than the new slot reads the bit that the clearing loop left,
and that bit says whether the slot was in the set. -/
theorem Represents.bit_iff_add {x : Nat} (hx : slot + 1 - maxEntries ≤ x) (hx' : x < slot) :
    (h.add slot).bits (x % maxEntries) = true ↔ x ∈ S := by
  have hPos := hRep.nextSlot_pos
  have hLt := hRep.lt_nextSlot
  have hNe : x % maxEntries ≠ slot % maxEntries := fun hMod =>
    Nat.ne_of_lt hx' (eq_of_mod_eq_of_window slot hx (Nat.le_of_lt hx') (by omega) (Nat.le_refl _)
      hMod)
  rw [hRep.newest_eq] at hSlot
  dsimp only [SlotHistory.add]
  rw [Function.update_of_ne hNe]
  split
  · -- wrapped: every bit is clear, and the new window lies past every old slot
    rename_i hWrap
    have hBlock : x % maxEntries / 64 < maxEntries / 64 := by
      have := Nat.mod_lt x (show 0 < maxEntries by decide)
      unfold maxEntries at this ⊢
      omega
    rw [foldl_setBlock_zero, if_pos hBlock]
    refine ⟨nofun, fun hMem => ?_⟩
    have := hLt x hMem
    omega
  · by_cases hSkip : h.nextSlot ≤ x
    · -- a skipped slot: cleared, and not in the set
      have hMem : x ∈ List.range' h.nextSlot (slot - h.nextSlot) :=
        List.mem_range'_1.mpr (by omega)
      rw [foldl_update_of_mem (· % maxEntries) false hMem]
      exact ⟨nofun, fun hxS => absurd (hLt x hxS) (by omega)⟩
    · -- an old slot: no skipped slot shares its bit, and the old window holds it
      have hNeSkipped : ∀ k ∈ List.range' h.nextSlot (slot - h.nextSlot),
          k % maxEntries ≠ x % maxEntries := by
        intro k hk hMod
        have hk' := List.mem_range'_1.mp hk
        have := eq_of_mod_eq_of_window slot (by omega) (by omega) hx (by omega) hMod
        omega
      rw [foldl_update_of_forall_ne (· % maxEntries) false hNeSkipped]
      exact hRep.bit_iff x (by unfold oldest; omega) (by rw [hRep.newest_eq]; omega)

include hU64 in
/-- `add` of a slot at or past the newest and below `u64::MAX` keeps the invariant for the set
with the slot. -/
theorem Represents.add : Represents (h.add slot) (insert slot S) := by
  have hNext : (h.add slot).nextSlot = slot + 1 := nextSlot_add h hU64
  have hNewest : (h.add slot).newest = slot := newest_add h slot
  refine ⟨hNext ▸ Nat.succ_pos slot, by rw [hNewest]; exact Finset.mem_insert_self slot S,
    fun x hx => ?_, fun x hx hx' => ?_⟩
  · rw [hNext]
    rcases Finset.mem_insert.mp hx with rfl | hx
    · exact Nat.lt_succ_self x
    · have := hRep.lt_nextSlot x hx
      rw [hRep.newest_eq] at hSlot
      omega
  · rw [oldest, hNext] at hx
    rw [hNewest] at hx'
    rw [Finset.mem_insert]
    by_cases hEq : x = slot
    · subst hEq
      dsimp only [SlotHistory.add]
      rw [Function.update_self]
      exact ⟨fun _ => Or.inl rfl, fun _ => rfl⟩
    · rw [or_iff_right hEq]
      exact hRep.bit_iff_add hSlot hx (Nat.lt_of_le_of_ne hx' hEq)

end Add

/-- A run of `add`s of increasing slots below `u64::MAX`, each at or past the newest, keeps the
invariant for the set with the slots. -/
theorem Represents.foldl_add {h : SlotHistory} {S : Finset Nat} (hRep : Represents h S)
    {slots : List Nat} (hInc : slots.Pairwise (· < ·)) (hFirst : ∀ s ∈ slots, h.newest ≤ s)
    (hU64 : ∀ s ∈ slots, s < maxValue 64) :
    Represents (slots.foldl SlotHistory.add h) (S ∪ slots.toFinset) := by
  induction slots generalizing h S with
  | nil => simpa using hRep
  | cons s slots ih =>
      rw [List.pairwise_cons] at hInc
      have hNext := ih (hRep.add (hFirst s List.mem_cons_self) (hU64 s List.mem_cons_self)) hInc.2
        (fun t ht => (newest_add h s).symm ▸ Nat.le_of_lt (hInc.1 t ht))
        fun t ht => hU64 t (List.mem_cons_of_mem s ht)
      have hSet : S ∪ (s :: slots).toFinset = insert s S ∪ slots.toFinset := by
        ext x
        simp
      rw [List.foldl_cons, hSet]
      exact hNext

end SlotHistory

open SlotHistory in
/-- `SlotHistory` refines the window of added slots: after `add`s of strictly increasing slots
below `u64::MAX` to `SlotHistory::default`, the newest slot is the last one added (0 when none
was), and `check(x)` is `Future` past it, `TooOld` below the window of `MAX_ENTRIES` slots ending
at it, and otherwise `Found` exactly for 0 and the added slots. -/
theorem slotHistory_check_of_adds {slots : List Nat} (hInc : slots.Pairwise (· < ·))
    (hU64 : ∀ s ∈ slots, s < maxValue 64) (x : Nat) :
    (slots.foldl add default).newest = slots.getLast?.getD 0 ∧
      (slots.foldl add default).check x =
        if x > slots.getLast?.getD 0 then .future
        else if x < slots.getLast?.getD 0 + 1 - maxEntries then .tooOld
        else if x = 0 ∨ x ∈ slots then .found else .notFound := by
  have hRep := Represents.default.foldl_add hInc (fun s _ => Nat.zero_le s) hU64
  have hNewest : (slots.foldl add default).newest = slots.getLast?.getD 0 :=
    newest_foldl_add default slots
  refine ⟨hNewest, ?_⟩
  have hOldest : (slots.foldl add default).oldest = slots.getLast?.getD 0 + 1 - maxEntries := by
    have := hRep.nextSlot_pos
    unfold oldest
    rw [hRep.newest_eq] at hNewest
    omega
  rw [hRep.check_eq, hNewest, hOldest]
  simp

open SlotHistory in
/-- Slots 3, 5 and 9 added, the skipped slot 4 checked. -/
theorem slotHistory_check_of_adds_skipped :
    ([3, 5, 9].foldl add default).newest = [3, 5, 9].getLast?.getD 0 ∧
      ([3, 5, 9].foldl add default).check 4 =
        if 4 > [3, 5, 9].getLast?.getD 0 then .future
        else if 4 < [3, 5, 9].getLast?.getD 0 + 1 - maxEntries then .tooOld
        else if 4 = 0 ∨ 4 ∈ [3, 5, 9] then .found else .notFound :=
  slotHistory_check_of_adds (by decide) (by decide) 4

open SlotHistory in
/-- Adding `u64::MAX` wraps `next_slot` to 0: the window then reaches back to slot 0, which
`check` does not call `TooOld`, and the clearing of every block has forgotten it. -/
theorem slotHistory_forgets_slot_zero_at_u64_max :
    ([maxValue 64].foldl add default).newest = maxValue 64 ∧
      ([maxValue 64].foldl add default).oldest = 0 ∧
      ([maxValue 64].foldl add default).check 0 = .notFound := by
  have hNext : ([maxValue 64].foldl add default).nextSlot = 0 :=
    (if_pos rfl : (if maxValue 64 = maxValue 64 then 0 else maxValue 64 + 1) = 0)
  have hNewest : ([maxValue 64].foldl add default).newest = maxValue 64 :=
    newest_add default (maxValue 64)
  have hOldest : ([maxValue 64].foldl add default).oldest = 0 := by
    rw [oldest, hNext, Nat.zero_sub]
  -- the slot is more than `MAX_ENTRIES` past `next_slot = 1`, so every block is cleared
  have hBit : ([maxValue 64].foldl add default).bits 0 = false := by
    have hWrap : maxValue 64 > default.nextSlot ∧ maxValue 64 - default.nextSlot ≥ maxEntries := by
      decide
    dsimp only [List.foldl, add]
    rw [if_pos hWrap, Function.update_of_ne (by decide), foldl_setBlock_zero, if_pos (by decide)]
  refine ⟨hNewest, hOldest, ?_⟩
  rw [check, hNewest, hOldest, if_neg (Nat.not_lt_zero _), if_neg (by decide), Nat.zero_mod, hBit]
  rfl

example : ([3, 5, 9].foldl SlotHistory.add SlotHistory.default).check 4 = .notFound := by decide

example : ([3, 5, 9].foldl SlotHistory.add SlotHistory.default).check 5 = .found := by decide

end PutValidator
