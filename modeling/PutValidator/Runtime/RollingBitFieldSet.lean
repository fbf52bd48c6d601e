import PutValidator.Runtime.RollingBitField
import PutValidator.Lib.List

/-! `RollingBitField` against the set of keys it stands for. `Represents f S` is the
representation invariant: the keys of `excess` lie below `min`, the set bits are those of the
keys of the window `[min, max_exclusive)`, which is at most `max_width` wide so that each bit
stands for one key, `min` is the least key of the bit field when it holds one, and `count`
counts both parts. `remove` keeps it always; `insert` keeps it except for one kind of insert,
made while every key is in `excess`, of a key at or below one of them (`SafeInsert`): the
window is then reset to that key and the keys of `excess` above it are lost. Under the
invariant every query answers for the set, save that `get_prior` never reaches slot 0 from a
bound above 1. -/
namespace PutValidator.Runtime

open Lib.Word Lib.List

/-! ### The set model -/

/-- The least key of a finite set, `none` when it is empty. -/
def least (S : Finset Nat) : Option Nat := if h : S.Nonempty then some (S.min' h) else none

/-- The greatest key of a finite set, `none` when it is empty. -/
def greatest (S : Finset Nat) : Option Nat := if h : S.Nonempty then some (S.max' h) else none

theorem least_eq_some {S : Finset Nat} {x : Nat} (hx : x ∈ S) (h : ∀ y ∈ S, x ≤ y) :
    least S = some x := by
  rw [least, dif_pos ⟨x, hx⟩]
  exact congrArg some (Nat.le_antisymm (S.min'_le x hx) (S.le_min' _ x h))

theorem least_eq_none {S : Finset Nat} (h : S = ∅) : least S = none := by
  subst h
  rfl

theorem greatest_eq_some {S : Finset Nat} {x : Nat} (hx : x ∈ S) (h : ∀ y ∈ S, y ≤ x) :
    greatest S = some x := by
  rw [greatest, dif_pos ⟨x, hx⟩]
  exact congrArg some (Nat.le_antisymm (S.max'_le _ x h) (S.le_max' x hx))

theorem greatest_eq_none {S : Finset Nat} (h : S = ∅) : greatest S = none := by
  subst h
  rfl

namespace RollingBitField

/-- A key the bit field holds: in the window, with its bit set. -/
def InBits (f : RollingBitField) (k : Nat) : Prop :=
  f.min ≤ k ∧ k < f.maxExclusive ∧ f.containsAssumeInRange k = true

/-- The representation invariant of a bit field standing for the set `S`. -/
structure Represents (f : RollingBitField) (S : Finset Nat) : Prop where
  width_pos : 0 < f.maxWidth
  bits_length : f.bits.length = f.maxWidth
  excess_nodup : f.excess.Nodup
  excess_lt : ∀ x ∈ f.excess, x < f.min
  min_le : f.min ≤ f.maxExclusive
  window_le : f.maxExclusive ≤ f.min + f.maxWidth
  bit_in_window : ∀ a, f.bits.getD a false = true →
    ∃ k, f.min ≤ k ∧ k < f.maxExclusive ∧ f.getAddress k = a
  min_set : f.min < f.maxExclusive → f.containsAssumeInRange f.min = true
  mem_iff : ∀ k, k ∈ S ↔ k ∈ f.excess ∨ f.InBits k
  count_eq : f.count = S.card
  count_bits : f.count = f.bits.count true + f.excess.length

/-- Two keys of a window at most `max_width` wide have different bits. -/
theorem eq_of_getAddress_eq {f : RollingBitField} {lo k k' : Nat} (hk : lo ≤ k)
    (hk' : k < lo + f.maxWidth) (hl : lo ≤ k') (hl' : k' < lo + f.maxWidth)
    (h : f.getAddress k = f.getAddress k') : k = k' := by
  unfold getAddress at h
  -- the distance of two keys with one address is a multiple of the width below it
  have hDist : ∀ {a b : Nat}, a ≤ b → b < a + f.maxWidth → a % f.maxWidth = b % f.maxWidth →
      a = b := by
    intro a b hab hba hMod
    have hDvd : f.maxWidth ∣ b - a := Nat.dvd_of_mod_eq_zero (Nat.sub_mod_eq_zero_of_mod_eq hMod.symm)
    have := Nat.eq_zero_of_dvd_of_lt hDvd (by omega)
    omega
  rcases Nat.le_total k k' with hle | hle
  · exact hDist hle (by omega) h
  · exact (hDist hle (by omega) h.symm).symm

/-- With the counts of the invariant, every key is in `excess` exactly when no bit is set. -/
theorem getD_eq_false_of_allItemsInExcess {f : RollingBitField}
    (hCount : f.count = f.bits.count true + f.excess.length) (hAll : f.allItemsInExcess = true)
    (a : Nat) : f.bits.getD a false = false := by
  have hZero : f.bits.count true = 0 := by
    simp only [allItemsInExcess, beq_iff_eq] at hAll
    omega
  rw [List.count_eq_zero] at hZero
  cases hBit : f.bits.getD a false with
  | false => rfl
  | true => exact absurd (mem_of_getD_eq_true hBit) hZero

theorem exists_getD_of_allItemsInExcess_eq_false {f : RollingBitField}
    (hCount : f.count = f.bits.count true + f.excess.length) (hAll : f.allItemsInExcess = false) :
    ∃ a, f.bits.getD a false = true := by
  have hPos : 0 < f.bits.count true := by
    simp only [allItemsInExcess, beq_eq_false_iff_ne, ne_eq] at hAll
    omega
  exact exists_getD_eq_true (List.count_pos_iff.mp hPos)

section Represents

variable {f : RollingBitField} {S : Finset Nat} (h : Represents f S)
include h

theorem Represents.address_lt (k : Nat) : f.getAddress k < f.bits.length := by
  rw [h.bits_length]
  exact Nat.mod_lt _ h.width_pos

theorem Represents.eq_of_inWindow {k k' : Nat} (hk : f.min ≤ k) (hk' : k < f.maxExclusive)
    (hl : f.min ≤ k') (hl' : k' < f.maxExclusive) (hAddr : f.getAddress k = f.getAddress k') :
    k = k' :=
  eq_of_getAddress_eq hk (by have := h.window_le; omega) hl (by have := h.window_le; omega) hAddr

/-- Every key of `excess` is outside the window. -/
theorem Represents.not_inBits_of_mem_excess {k : Nat} (hk : k ∈ f.excess) : ¬f.InBits k :=
  fun hIn => absurd hIn.1 (Nat.not_le.mpr (h.excess_lt k hk))

/-- With every key in `excess`, no bit is set. -/
theorem Represents.getD_eq_false (hAll : f.allItemsInExcess = true) (a : Nat) :
    f.bits.getD a false = false :=
  getD_eq_false_of_allItemsInExcess h.count_bits hAll a

theorem Represents.not_inBits (hAll : f.allItemsInExcess = true) (k : Nat) : ¬f.InBits k := by
  intro hIn
  have := hIn.2.2
  rw [containsAssumeInRange, h.getD_eq_false hAll] at this
  cases this

/-- Without every key in `excess`, the bit field holds a key, and `min` first of all. -/
theorem Represents.min_inBits (hAll : f.allItemsInExcess = false) : f.InBits f.min := by
  obtain ⟨a, ha⟩ := exists_getD_of_allItemsInExcess_eq_false h.count_bits hAll
  obtain ⟨k, hk, hk', -⟩ := h.bit_in_window a ha
  have hLt : f.min < f.maxExclusive := by omega
  exact ⟨Nat.le_refl _, hLt, h.min_set hLt⟩

/-- The keys the set holds when every key is in `excess`. -/
theorem Represents.mem_iff_of_allItemsInExcess (hAll : f.allItemsInExcess = true) (k : Nat) :
    k ∈ S ↔ k ∈ f.excess := by
  rw [h.mem_iff]
  exact or_iff_left (h.not_inBits hAll k)

/-- `contains` answers for the set. -/
theorem Represents.contains_eq (k : Nat) : f.contains k = decide (k ∈ S) := by
  rw [Bool.eq_iff_iff, decide_eq_true_iff, h.mem_iff]
  unfold contains
  by_cases hMax : k < f.maxExclusive
  · rw [if_pos hMax]
    by_cases hMin : f.min ≤ k
    · rw [if_pos hMin]
      -- above `min`, the key is not in `excess`
      have hNot : k ∉ f.excess := fun hk => absurd hMin (Nat.not_le.mpr (h.excess_lt k hk))
      exact ⟨fun hBit => Or.inr ⟨hMin, hMax, hBit⟩,
        fun hk => (hk.resolve_left hNot).2.2⟩
    · rw [if_neg hMin, decide_eq_true_iff]
      exact ⟨Or.inl, fun hk => hk.resolve_right fun hIn => hMin hIn.1⟩
  · rw [if_neg hMax]
    simp only [Bool.false_eq_true, false_iff, not_or]
    exact ⟨fun hk => hMax (Nat.lt_of_lt_of_le (h.excess_lt k hk) h.min_le),
      fun hIn => hMax hIn.2.1⟩

theorem Represents.len_eq : f.len = S.card := h.count_eq

/-- Writing the bit of a key of the window changes what that key reads, and no other key of
the window. -/
theorem Represents.getD_set_address {k x : Nat} (hk : f.min ≤ k) (hk' : k < f.maxExclusive)
    (hx : f.min ≤ x) (hx' : x < f.maxExclusive) (b : Bool) :
    (f.bits.set (f.getAddress k) b).getD (f.getAddress x) false =
      if x = k then b else f.containsAssumeInRange x := by
  rw [getD_set, containsAssumeInRange]
  by_cases hxk : x = k
  · subst hxk
    simp [h.address_lt]
  · have hAddr : f.getAddress k ≠ f.getAddress x := fun hEq =>
      hxk (h.eq_of_inWindow hx hx' hk hk' hEq.symm)
    simp [hAddr, hxk]

/-- Setting the bit of a key sets the bit of every key at its address, and no other. -/
theorem Represents.getD_set_true (k x : Nat) :
    (f.bits.set (f.getAddress k) true).getD (f.getAddress x) false =
      (decide (f.getAddress x = f.getAddress k) || f.containsAssumeInRange x) := by
  rw [getD_set, containsAssumeInRange]
  by_cases hAddr : f.getAddress k = f.getAddress x
  · rw [if_pos ⟨hAddr, h.address_lt k⟩, hAddr]
    simp
  · rw [if_neg fun hc => hAddr hc.1]
    simp [Ne.symm hAddr]

/-- Within `max_width` of `min`, a set bit at a key's address is that key's own. -/
theorem Represents.inBits_of_lt_maxWidth {x : Nat} (hx : f.min ≤ x) (hx' : x < f.min + f.maxWidth)
    (hBit : f.containsAssumeInRange x = true) : f.InBits x := by
  obtain ⟨j, hj, hj', hAddr⟩ := h.bit_in_window _ hBit
  have hEq := eq_of_getAddress_eq hj (by have := h.window_le; omega) hx hx' hAddr
  subst hEq
  exact ⟨hj, hj', hBit⟩

end Represents

/-! ### `purge` -/

/-- A bit field with the bit of `key` just cleared: the invariant, save that `min` may be that
key, and that it may have just joined `excess`. -/
structure PrePurge (f : RollingBitField) (S : Finset Nat) (key : Nat) : Prop where
  width_pos : 0 < f.maxWidth
  bits_length : f.bits.length = f.maxWidth
  excess_nodup : f.excess.Nodup
  excess_lt : ∀ x ∈ f.excess, x < f.min ∨ (x = f.min ∧ key = f.min ∧ f.min < f.maxExclusive)
  min_le : f.min ≤ f.maxExclusive
  window_le : f.maxExclusive ≤ f.min + f.maxWidth
  bit_in_window : ∀ a, f.bits.getD a false = true →
    ∃ k, f.min ≤ k ∧ k < f.maxExclusive ∧ f.getAddress k = a
  min_set : f.min < f.maxExclusive → key ≠ f.min → f.containsAssumeInRange f.min = true
  key_clear : key = f.min → f.containsAssumeInRange f.min = false
  mem_iff : ∀ k, k ∈ S ↔ k ∈ f.excess ∨ f.InBits k
  count_eq : f.count = S.card
  count_bits : f.count = f.bits.count true + f.excess.length

/-- `purge` moves only `min`: a new `min` above `excess`, at or below every key of the bits and
set when it lies in the window, restores the invariant. -/
theorem PrePurge.withMin {f : RollingBitField} {S : Finset Nat} {key : Nat} (h : PrePurge f S key)
    {m : Nat} (hMin : f.min ≤ m) (hExcess : ∀ x ∈ f.excess, x < m) (hLe : m ≤ f.maxExclusive)
    (hBits : ∀ j, f.min ≤ j → j < f.maxExclusive → f.containsAssumeInRange j = true → m ≤ j)
    (hSet : m < f.maxExclusive → f.containsAssumeInRange m = true) :
    Represents { f with min := m } S where
  width_pos := h.width_pos
  bits_length := h.bits_length
  excess_nodup := h.excess_nodup
  excess_lt := hExcess
  min_le := hLe
  window_le := by have := h.window_le; dsimp only; omega
  bit_in_window a ha := by
    obtain ⟨j, hj, hj', hAddr⟩ := h.bit_in_window a ha
    exact ⟨j, hBits j hj hj' (by rw [containsAssumeInRange, hAddr, ha]), hj', hAddr⟩
  min_set := hSet
  mem_iff x := by
    rw [h.mem_iff x]
    exact or_congr Iff.rfl ⟨fun hIn => ⟨hBits x hIn.1 hIn.2.1 hIn.2.2, hIn.2⟩,
      fun hIn => ⟨Nat.le_trans hMin hIn.1, hIn.2⟩⟩
  count_eq := h.count_eq
  count_bits := h.count_bits

/-- `purge` restores the invariant: `min` moves to the next key of the bits, or, with none
left, to `max_exclusive`. -/
theorem PrePurge.purge {f : RollingBitField} {S : Finset Nat} {key : Nat}
    (h : PrePurge f S key) : Represents (f.purge key) S := by
  unfold RollingBitField.purge
  by_cases hLive : 0 < f.count ∧ f.allItemsInExcess = false
  · rw [if_pos hLive]
    by_cases hKey : key = f.min
    · rw [if_pos hKey]
      have hClear := h.key_clear hKey
      -- a key is left in the bits, above `min`
      obtain ⟨a, ha⟩ := exists_getD_of_allItemsInExcess_eq_false h.count_bits hLive.2
      obtain ⟨k, hk, hk', rfl⟩ := h.bit_in_window a ha
      have hkMin : k ≠ f.min := fun hEq => by
        rw [hEq] at ha
        rw [containsAssumeInRange, ha] at hClear
        cases hClear
      cases hFind : (List.range' (f.min + 1) (f.maxExclusive - (f.min + 1))).find?
          f.containsAssumeInRange with
      | none =>
          rw [List.find?_range'_eq_none] at hFind
          have := hFind k (by omega) (by omega)
          rw [containsAssumeInRange, ha] at this
          cases this
      | some next =>
          rw [List.find?_range'_eq_some, List.mem_range'_1] at hFind
          obtain ⟨hNextBit, hNextMem, hBefore⟩ := hFind
          refine h.withMin (by omega) (fun x hx => ?_) (by omega) (fun j hj hj' hBit => ?_)
            fun _ => hNextBit
          · rcases h.excess_lt x hx with hLt | ⟨rfl, -, -⟩ <;> omega
          · -- no key of the bits lies between `min` and `next`
            by_contra hLt
            rcases Nat.lt_or_ge f.min j with hGt | hLe
            · have := hBefore j (by omega) (by omega)
              rw [hBit] at this
              cases this
            · obtain rfl : j = f.min := by omega
              rw [hClear] at hBit
              cases hBit
    · rw [if_neg hKey]
      exact
        { h with
          excess_lt := fun x hx => (h.excess_lt x hx).resolve_right fun ⟨_, hEq, _⟩ => hKey hEq
          min_set := fun hLt => h.min_set hLt hKey }
  · rw [if_neg hLive]
    -- the bits hold no key: every key is in `excess`
    have hAll : f.allItemsInExcess = true := by
      by_cases hZero : f.count = 0
      · have := h.count_bits
        simp only [allItemsInExcess, beq_iff_eq]
        omega
      · cases hA : f.allItemsInExcess
        · exact absurd ⟨Nat.pos_of_ne_zero hZero, hA⟩ hLive
        · rfl
    have hClear := getD_eq_false_of_allItemsInExcess h.count_bits hAll
    refine h.withMin h.min_le (fun x hx => ?_) (Nat.le_refl _) (fun j _ _ hBit => ?_)
      fun hLt => absurd hLt (Nat.lt_irrefl _)
    · have := h.min_le
      rcases h.excess_lt x hx with hLt | ⟨rfl, -, hLt⟩ <;> omega
    · rw [containsAssumeInRange, hClear] at hBit
      cases hBit

/-! ### `remove` -/

section Remove

variable {f : RollingBitField} {S : Finset Nat} (h : Represents f S)
include h

/-- Clearing the bit of a key of the bits takes that key, and only it, out of the bits. -/
theorem Represents.inBits_clear {k : Nat} (hk : f.InBits k) (x : Nat) :
    InBits { f with bits := f.bits.set (f.getAddress k) false } x ↔ f.InBits x ∧ x ≠ k := by
  constructor
  · rintro ⟨hx, hx', hBit⟩
    change (f.bits.set (f.getAddress k) false).getD (f.getAddress x) false = true at hBit
    rw [h.getD_set_address hk.1 hk.2.1 hx hx'] at hBit
    by_cases hxk : x = k
    · rw [if_pos hxk] at hBit
      cases hBit
    · rw [if_neg hxk] at hBit
      exact ⟨⟨hx, hx', hBit⟩, hxk⟩
  · rintro ⟨⟨hx, hx', hBit⟩, hxk⟩
    refine ⟨hx, hx', ?_⟩
    show (f.bits.set (f.getAddress k) false).getD (f.getAddress x) false = true
    rw [h.getD_set_address hk.1 hk.2.1 hx hx', if_neg hxk]
    exact hBit

theorem Represents.bit_in_window_clear {k a : Nat}
    (ha : (f.bits.set (f.getAddress k) false).getD a false = true) :
    ∃ j, f.min ≤ j ∧ j < f.maxExclusive ∧ f.getAddress j = a := by
  rw [getD_set] at ha
  split at ha
  · cases ha
  · exact h.bit_in_window a ha

theorem Represents.count_clear {k : Nat} (hk : f.InBits k) :
    (f.bits.set (f.getAddress k) false).count true + 1 = f.bits.count true := by
  have hCount := count_true_set f.bits (h.address_lt k) false
  have hBit : f.bits.getD (f.getAddress k) false = true := hk.2.2
  have hPos : 0 < f.bits.count true := List.count_pos_iff.mpr (mem_of_getD_eq_true hBit)
  rw [hBit] at hCount
  simp only [if_true, Bool.false_eq_true, if_false] at hCount
  omega

theorem Represents.count_set {k : Nat} (hBit : f.bits.getD (f.getAddress k) false = false) :
    (f.bits.set (f.getAddress k) true).count true = f.bits.count true + 1 := by
  have hCount := count_true_set f.bits (h.address_lt k) true
  rw [hBit] at hCount
  simp only [Bool.false_eq_true, if_false, if_true] at hCount
  omega

theorem Represents.clear_self {k : Nat} (hk : f.InBits k) :
    (f.bits.set (f.getAddress k) false).getD (f.getAddress k) false = false := by
  rw [h.getD_set_address hk.1 hk.2.1 hk.1 hk.2.1, if_pos rfl]

/-- Taking a key of the bits out leaves a bit field ready for `purge`. -/
theorem Represents.prePurge_clear {k : Nat} (hk : f.InBits k) :
    PrePurge { f with count := f.count - 1, bits := f.bits.set (f.getAddress k) false }
      (S.erase k) k where
  width_pos := h.width_pos
  bits_length := by rw [List.length_set, h.bits_length]
  excess_nodup := h.excess_nodup
  excess_lt x hx := Or.inl (h.excess_lt x hx)
  min_le := h.min_le
  window_le := h.window_le
  bit_in_window _ ha := h.bit_in_window_clear ha
  min_set hLt hNe := (h.inBits_clear hk f.min).mpr ⟨⟨Nat.le_refl _, hLt, h.min_set hLt⟩,
    Ne.symm hNe⟩ |>.2.2
  key_clear hEq := by
    show (f.bits.set (f.getAddress k) false).getD (f.getAddress f.min) false = false
    rw [← hEq]
    exact h.clear_self hk
  mem_iff x := by
    have hClear :
        InBits { f with count := f.count - 1, bits := f.bits.set (f.getAddress k) false } x ↔
          f.InBits x ∧ x ≠ k :=
      h.inBits_clear hk x
    rw [Finset.mem_erase, h.mem_iff x, hClear]
    constructor
    · rintro ⟨hNe, hx | hx⟩
      · exact Or.inl hx
      · exact Or.inr ⟨hx, hNe⟩
    · rintro (hx | ⟨hx, hNe⟩)
      · exact ⟨fun hEq => h.not_inBits_of_mem_excess hx (hEq ▸ hk), Or.inl hx⟩
      · exact ⟨hNe, Or.inr hx⟩
  count_eq := by
    have hMem : k ∈ S := (h.mem_iff k).mpr (Or.inr hk)
    rw [Finset.card_erase_of_mem hMem, ← h.count_eq]
  count_bits := by
    have := h.count_clear hk
    have := h.count_bits
    dsimp only
    omega

/-- `remove` says whether the key was in the set and keeps the invariant for the set without
it. -/
theorem Represents.remove (k : Nat) :
    (f.remove k).1 = decide (k ∈ S) ∧ Represents (f.remove k).2 (S.erase k) := by
  unfold RollingBitField.remove
  by_cases hMin : f.min ≤ k
  · rw [if_pos hMin]
    by_cases hMax : k < f.maxExclusive
    · rw [if_pos hMax]
      by_cases hBit : f.bits.getD (f.getAddress k) false = true
      · simp only [hBit, if_true]
        have hk : f.InBits k := ⟨hMin, hMax, hBit⟩
        exact ⟨(decide_eq_true ((h.mem_iff k).mpr (Or.inr hk))).symm,
          (h.prePurge_clear hk).purge⟩
      · -- a key of the window with its bit clear is not in the set
        have hNot : k ∉ S := fun hk =>
          (((h.mem_iff k).mp hk).resolve_left fun hx => absurd hMin
            (Nat.not_le.mpr (h.excess_lt k hx))).2.2 |> hBit
        simp only [hBit, Bool.false_eq_true, if_false]
        rw [Finset.erase_eq_of_notMem hNot]
        exact ⟨(decide_eq_false hNot).symm, h⟩
    · rw [if_neg hMax]
      have hNot : k ∉ S := by
        have hContains := h.contains_eq k
        rw [contains, if_neg hMax] at hContains
        exact decide_eq_false_iff_not.mp hContains.symm
      rw [Finset.erase_eq_of_notMem hNot]
      exact ⟨(decide_eq_false hNot).symm, h⟩
  · rw [if_neg hMin]
    -- below the window, the key is in the set exactly when it is in `excess`
    have hIff : k ∈ S ↔ k ∈ f.excess :=
      (h.mem_iff k).trans (or_iff_left fun hIn => hMin hIn.1)
    by_cases hx : k ∈ f.excess
    · simp only [Lib.ListSet.remove, hx, if_true]
      refine ⟨(decide_eq_true (hIff.mpr hx)).symm, ?_⟩
      exact
        { h with
          excess_nodup := h.excess_nodup.erase k
          excess_lt := fun y hy => h.excess_lt y (List.mem_of_mem_erase hy)
          mem_iff := fun y => by
            rw [Finset.mem_erase, h.mem_iff y, h.excess_nodup.mem_erase_iff]
            constructor
            · rintro ⟨hNe, hy | hy⟩
              · exact Or.inl ⟨hNe, hy⟩
              · exact Or.inr hy
            · rintro (⟨hNe, hy⟩ | hy)
              · exact ⟨hNe, Or.inl hy⟩
              · exact ⟨fun hEq => hMin (hEq ▸ hy.1), Or.inr hy⟩
          count_eq := by
            rw [Finset.card_erase_of_mem (hIff.mpr hx), ← h.count_eq]
          count_bits := by
            have hLen := List.length_erase_of_mem hx
            have hPos := List.length_pos_of_mem hx
            have := h.count_bits
            dsimp only
            omega }
    · simp only [Lib.ListSet.remove, hx, if_false]
      rw [Finset.erase_eq_of_notMem (fun hk => hx (hIff.mp hk))]
      exact ⟨(decide_eq_false (fun hk => hx (hIff.mp hk))).symm, h⟩

end Remove

/-! ### `insert` -/

/-- The inserts the bit field gets right: all but an insert, made while every key is in
`excess`, of a key at or below one of them. -/
def SafeInsert (f : RollingBitField) (key : Nat) : Prop :=
  f.count = 0 ∨ f.allItemsInExcess = false ∨ ∀ x ∈ f.excess, x < key

instance (f : RollingBitField) (key : Nat) : Decidable (f.SafeInsert key) :=
  inferInstanceAs (Decidable (_ ∨ _ ∨ _))

section Insert

variable {f : RollingBitField} {S : Finset Nat} (h : Represents f S)
include h

/-- With every key in `excess` and all of them below the key, `update_bits` resets the window
to the key. -/
theorem Represents.updateBits_reset {key : Nat} (hAll : f.allItemsInExcess = true)
    (hBelow : ∀ x ∈ f.excess, x < key) :
    ∃ f', f.updateBits key true = some f' ∧ Represents f' (Insert.insert key S) := by
  have hClear := h.getD_eq_false hAll
  have hNot : key ∉ S := fun hk =>
    Nat.lt_irrefl key (hBelow key ((h.mem_iff_of_allItemsInExcess hAll key).mp hk))
  -- the one bit set afterwards is the key's
  have hSet : ∀ a, (f.bits.set (f.getAddress key) true).getD a false = true ↔
      a = f.getAddress key := by
    intro a
    rw [getD_set, hClear a]
    simp [h.address_lt key, eq_comm]
  unfold updateBits
  simp only [hClear, Bool.false_eq_true, if_false, if_true]
  refine ⟨_, rfl, ?_⟩
  exact
    { width_pos := h.width_pos
      bits_length := by rw [List.length_set, h.bits_length]
      excess_nodup := h.excess_nodup
      excess_lt := hBelow
      min_le := Nat.le_succ key
      window_le := by have := h.width_pos; dsimp only; omega
      bit_in_window := fun a ha => ⟨key, Nat.le_refl _, Nat.lt_succ_self key, ((hSet a).mp ha).symm⟩
      min_set := fun _ => (hSet _).mpr rfl
      mem_iff := fun x => by
        rw [Finset.mem_insert, h.mem_iff_of_allItemsInExcess hAll x]
        constructor
        · rintro (rfl | hx)
          · exact Or.inr ⟨Nat.le_refl _, Nat.lt_succ_self _, (hSet _).mpr rfl⟩
          · exact Or.inl hx
        · rintro (hx | ⟨hx, hx', -⟩)
          · exact Or.inr hx
          · exact Or.inl (by dsimp only at hx hx'; omega)
      count_eq := by
        rw [Finset.card_insert_of_notMem hNot, ← h.count_eq]
      count_bits := by
        have := h.count_set (k := key) (hClear _)
        have := h.count_bits
        dsimp only
        omega }

/-- With a key of the bits and the key itself inside one window of `max_width`, `update_bits`
widens the window to the key. -/
theorem Represents.updateBits_widen {key : Nat} (hAll : f.allItemsInExcess = false)
    (hMin : f.min ≤ key) (hWidth : key < f.min + f.maxWidth) :
    ∃ f', f.updateBits key false = some f' ∧ Represents f' (Insert.insert key S) := by
  have hMinLt := (h.min_inBits hAll).2.1
  unfold updateBits
  by_cases hBit : f.bits.getD (f.getAddress key) false = true
  · -- the key is already in the bits
    rw [if_pos hBit]
    have hk : key ∈ S := (h.mem_iff key).mpr (Or.inr (h.inBits_of_lt_maxWidth hMin hWidth hBit))
    rw [Finset.insert_eq_of_mem hk]
    exact ⟨f, rfl, h⟩
  · have hNot : key ∉ S := fun hk => by
      rcases (h.mem_iff key).mp hk with hx | hIn
      · exact absurd (h.excess_lt key hx) (Nat.not_lt.mpr hMin)
      · exact hBit hIn.2.2
    have hMinEq : Nat.min f.min key = f.min := Nat.min_eq_left hMin
    have hMaxLe : Nat.max f.maxExclusive (key + 1) ≤ f.min + f.maxWidth :=
      Nat.max_le.mpr ⟨h.window_le, hWidth⟩
    have hSet := h.getD_set_true key
    simp only [hBit, Bool.false_eq_true, if_false]
    rw [hMinEq, if_pos hMaxLe]
    refine ⟨_, rfl, ?_⟩
    exact
      { width_pos := h.width_pos
        bits_length := by rw [List.length_set, h.bits_length]
        excess_nodup := h.excess_nodup
        excess_lt := h.excess_lt
        min_le := Nat.le_trans h.min_le (Nat.le_max_left _ _)
        window_le := hMaxLe
        bit_in_window := fun a ha => by
          rw [getD_set] at ha
          split at ha
          · rename_i hEq
            exact ⟨key, hMin, Nat.lt_of_lt_of_le (Nat.lt_succ_self key) (Nat.le_max_right _ _),
              hEq.1⟩
          · obtain ⟨j, hj, hj', hAddr⟩ := h.bit_in_window a ha
            exact ⟨j, hj, Nat.lt_of_lt_of_le hj' (Nat.le_max_left _ _), hAddr⟩
        min_set := fun _ => by
          show (f.bits.set (f.getAddress key) true).getD (f.getAddress f.min) false = true
          rw [hSet, h.min_set hMinLt, Bool.or_true]
        mem_iff := fun x => by
          rw [Finset.mem_insert, h.mem_iff x]
          constructor
          · rintro (rfl | hx | hIn)
            · refine Or.inr ⟨hMin, Nat.lt_of_lt_of_le (Nat.lt_succ_self _) (Nat.le_max_right _ _),
                ?_⟩
              show (f.bits.set (f.getAddress x) true).getD (f.getAddress x) false = true
              rw [hSet]
              simp
            · exact Or.inl hx
            · refine Or.inr ⟨hIn.1, Nat.lt_of_lt_of_le hIn.2.1 (Nat.le_max_left _ _), ?_⟩
              show (f.bits.set (f.getAddress key) true).getD (f.getAddress x) false = true
              rw [hSet, hIn.2.2, Bool.or_true]
          · rintro (hx | ⟨hx, hx', hBitX⟩)
            · exact Or.inr (Or.inl hx)
            · change (f.bits.set (f.getAddress key) true).getD (f.getAddress x) false = true
                at hBitX
              rw [hSet] at hBitX
              have hx'' : x < f.min + f.maxWidth := Nat.lt_of_lt_of_le hx' hMaxLe
              by_cases hAddr : f.getAddress x = f.getAddress key
              · exact Or.inl (eq_of_getAddress_eq hx hx'' hMin hWidth hAddr)
              · simp only [hAddr, decide_false, Bool.false_or] at hBitX
                exact Or.inr (Or.inr (h.inBits_of_lt_maxWidth hx hx'' hBitX))
        count_eq := by
          rw [Finset.card_insert_of_notMem hNot, ← h.count_eq]
        count_bits := by
          have := h.count_set (Bool.not_eq_true _ ▸ hBit)
          have := h.count_bits
          dsimp only
          omega }

/-- Moving the least key of the bits to `excess` leaves a bit field ready for `purge`. -/
theorem Represents.prePurge_evict (hAll : f.allItemsInExcess = false) :
    PrePurge
      { f with
        excess := f.excess ++ [f.min]
        bits := f.bits.set (f.getAddress f.min) false }
      S f.min where
  width_pos := h.width_pos
  bits_length := by rw [List.length_set, h.bits_length]
  excess_nodup := List.nodup_append.mpr ⟨h.excess_nodup, List.nodup_singleton _,
    fun x hx y hy hxy => by
      rw [List.mem_singleton] at hy
      exact absurd (h.excess_lt x hx) (by omega)⟩
  excess_lt x hx := by
    rcases List.mem_append.mp hx with hx | hx
    · exact Or.inl (h.excess_lt x hx)
    · rw [List.mem_singleton] at hx
      exact Or.inr ⟨hx, rfl, (h.min_inBits hAll).2.1⟩
  min_le := h.min_le
  window_le := h.window_le
  bit_in_window _ ha := h.bit_in_window_clear ha
  min_set _ hNe := absurd rfl hNe
  key_clear _ := h.clear_self (h.min_inBits hAll)
  mem_iff x := by
    have hClear :
        InBits
            { f with
              excess := f.excess ++ [f.min]
              bits := f.bits.set (f.getAddress f.min) false } x ↔
          f.InBits x ∧ x ≠ f.min :=
      h.inBits_clear (h.min_inBits hAll) x
    rw [h.mem_iff x, hClear, List.mem_append, List.mem_singleton]
    constructor
    · rintro (hx | hIn)
      · exact Or.inl (Or.inl hx)
      · by_cases hxm : x = f.min
        · exact Or.inl (Or.inr hxm)
        · exact Or.inr ⟨hIn, hxm⟩
    · rintro ((hx | rfl) | ⟨hIn, -⟩)
      · exact Or.inl hx
      · exact Or.inr (h.min_inBits hAll)
      · exact Or.inr hIn
  count_eq := h.count_eq
  count_bits := by
    have := h.count_clear (h.min_inBits hAll)
    have := h.count_bits
    simp only [List.length_append, List.length_singleton]
    omega

end Insert

/-- The eviction loop keeps the invariant and the window's top; it stops once the window up to
`newMax` fits, with a key left in the bits, or once every key is in `excess`. -/
theorem Represents.evict {f : RollingBitField} {S : Finset Nat} (h : Represents f S)
    (newMax : Nat) (hAll : f.allItemsInExcess = false) :
    ∃ f' bitsEmpty, f.evict newMax = some (f', bitsEmpty) ∧ Represents f' S ∧
      f'.maxExclusive = f.maxExclusive ∧ f'.maxWidth = f.maxWidth ∧
      (bitsEmpty = false → newMax - f'.min ≤ f'.maxWidth ∧ f'.allItemsInExcess = false) ∧
      (bitsEmpty = true → f'.allItemsInExcess = true) := by
  fun_induction RollingBitField.evict f newMax with
  | case1 f hFit => exact ⟨f, false, rfl, h, rfl, rfl, fun _ => ⟨hFit, hAll⟩, nofun⟩
  | case2 f hWide excess hInsert =>
      -- `min` is below every key of `excess`, so it is inserted
      rw [Lib.ListSet.insert_eq_of_not_mem fun hx => Nat.lt_irrefl _ (h.excess_lt _ hx)]
        at hInsert
      cases hInsert
  | case3 f hWide excess hInsert key f' hDone =>
      rw [Lib.ListSet.insert_eq_of_not_mem fun hx => Nat.lt_irrefl _ (h.excess_lt _ hx),
        Prod.mk.injEq] at hInsert
      obtain ⟨rfl, -⟩ := hInsert
      exact ⟨f', true, rfl, (h.prePurge_evict hAll).purge, purge_maxExclusive _ _,
        purge_maxWidth _ _, nofun, fun _ => hDone⟩
  | case4 f hWide excess hInsert key f' hDone ih =>
      rw [Lib.ListSet.insert_eq_of_not_mem fun hx => Nat.lt_irrefl _ (h.excess_lt _ hx),
        Prod.mk.injEq] at hInsert
      obtain ⟨rfl, -⟩ := hInsert
      obtain ⟨g, b, hEvict, hg, hMax, hWidth, hFalse, hTrue⟩ :=
        ih (h.prePurge_evict hAll).purge (Bool.eq_false_iff.mpr hDone)
      exact ⟨g, b, hEvict, hg, hMax.trans (purge_maxExclusive _ _),
        hWidth.trans (purge_maxWidth _ _), hFalse, hTrue⟩

section Insert

variable {f : RollingBitField} {S : Finset Nat} (h : Represents f S)
include h

/-- `insert` of a key the bit field gets right keeps the invariant for the set with the key. -/
theorem Represents.insert {key : Nat} (hSafe : f.SafeInsert key) :
    ∃ f', f.insert key = some f' ∧ Represents f' (Insert.insert key S) := by
  unfold RollingBitField.insert
  by_cases hEmpty : f.count = 0 ∨ f.allItemsInExcess = true
  · rw [if_pos hEmpty]
    -- an empty bit field: every key is in `excess`, and below the key
    have hZeroExcess : f.count = 0 → f.excess = [] := fun hZero =>
      List.eq_nil_of_length_eq_zero (by have := h.count_bits; omega)
    have hAll : f.allItemsInExcess = true := by
      rcases hEmpty with hZero | hAll
      · simp [allItemsInExcess, hZeroExcess hZero, hZero]
      · exact hAll
    have hBelow : ∀ x ∈ f.excess, x < key := by
      rcases hSafe with hZero | hNot | hBelow
      · intro x hx
        rw [hZeroExcess hZero] at hx
        cases hx
      · rw [hAll] at hNot
        cases hNot
      · exact hBelow
    exact h.updateBits_reset hAll hBelow
  · rw [if_neg hEmpty]
    have hAll : f.allItemsInExcess = false := Bool.eq_false_iff.mpr fun hAll => hEmpty (Or.inr hAll)
    by_cases hLow : key < f.min
    · rw [if_pos hLow]
      -- below the window: into `excess`
      have hIff : key ∈ S ↔ key ∈ f.excess :=
        (h.mem_iff key).trans (or_iff_left fun hIn => Nat.not_le.mpr hLow hIn.1)
      by_cases hx : key ∈ f.excess
      · simp only [Lib.ListSet.insert, hx, if_true]
        rw [Finset.insert_eq_of_mem (hIff.mpr hx)]
        exact ⟨_, rfl, h⟩
      · simp only [Lib.ListSet.insert, hx, ↓reduceIte]
        refine ⟨_, rfl, ?_⟩
        exact
          { h with
            excess_nodup := List.nodup_append.mpr ⟨h.excess_nodup, List.nodup_singleton _,
              fun x hx' y hy hxy => by
                rw [List.mem_singleton] at hy
                subst hy hxy
                exact hx hx'⟩
            excess_lt := fun x hx' => by
              rcases List.mem_append.mp hx' with hx' | hx'
              · exact h.excess_lt x hx'
              · rw [List.mem_singleton] at hx'
                rw [hx']
                exact hLow
            mem_iff := fun x => by
              rw [Finset.mem_insert, h.mem_iff x, List.mem_append, List.mem_singleton]
              constructor
              · rintro (rfl | hx' | hIn)
                · exact Or.inl (Or.inr rfl)
                · exact Or.inl (Or.inl hx')
                · exact Or.inr hIn
              · rintro ((hx' | rfl) | hIn)
                · exact Or.inr (Or.inl hx')
                · exact Or.inl rfl
                · exact Or.inr (Or.inr hIn)
            count_eq := by
              rw [Finset.card_insert_of_notMem (fun hk => hx (hIff.mp hk)), ← h.count_eq]
            count_bits := by
              have := h.count_bits
              simp only [List.length_append, List.length_singleton]
              omega }
    · rw [if_neg hLow]
      have hMin : f.min ≤ key := Nat.le_of_not_lt hLow
      by_cases hIn : key < f.maxExclusive
      · rw [if_pos hIn]
        exact h.updateBits_widen hAll hMin (by have := h.window_le; omega)
      · rw [if_neg hIn]
        -- at or past the window's top: evict until the key fits
        obtain ⟨f', b, hEvict, h', hMax, hWidth, hFalse, hTrue⟩ := h.evict (key + 1) hAll
        rw [hEvict]
        cases b
        · obtain ⟨hFit, hAll'⟩ := hFalse rfl
          have hMin' : f'.min ≤ key := by have := h'.min_le; omega
          exact h'.updateBits_widen hAll' hMin' (by omega)
        · exact h'.updateBits_reset (hTrue rfl) fun x hx => by
            have := h'.excess_lt x hx
            have := h'.min_le
            omega

/-- The insert the bit field gets wrong: with every key in `excess`, a key at or below one of
them resets the window to that key, and the state no longer stands for the set. -/
theorem Represents.insert_not_represents {key : Nat} (hUnsafe : ¬f.SafeInsert key)
    {f' : RollingBitField} (hInsert : f.insert key = some f') : ¬Represents f' (Insert.insert key S) := by
  simp only [SafeInsert, not_or, Bool.not_eq_false, not_forall, Nat.not_lt] at hUnsafe
  obtain ⟨-, hAll, x, hx, hLe⟩ := hUnsafe
  unfold RollingBitField.insert updateBits at hInsert
  simp only [hAll, or_true, if_true, h.getD_eq_false hAll, Bool.false_eq_true, if_false,
    Option.some.injEq] at hInsert
  subst hInsert
  intro hRep
  exact absurd (hRep.excess_lt x hx) (Nat.not_lt.mpr hLe)

end Insert

/-! ### The queries -/

section Queries

variable {f : RollingBitField} {S : Finset Nat} (h : Represents f S)
include h

/-- `min()` is the least key of the set, every key being at most `u64::MAX`, the start of the
fold over `excess` when every key is there. -/
theorem Represents.min?_eq (hMax : ∀ x ∈ S, x ≤ maxValue 64) : f.min? = least S := by
  unfold RollingBitField.min?
  by_cases hEmpty : f.isEmpty = true
  · rw [if_pos hEmpty]
    have hZero : f.count = 0 := by simpa [isEmpty, len] using hEmpty
    exact (least_eq_none (Finset.card_eq_zero.mp (h.count_eq ▸ hZero))).symm
  · rw [if_neg hEmpty]
    have hPos : 0 < f.count := by
      simp only [isEmpty, len, beq_iff_eq] at hEmpty
      omega
    by_cases hNoExcess : f.excess.isEmpty = true
    · rw [if_pos hNoExcess]
      -- every key is in the bits, and `min` is the least of them
      have hNil : f.excess = [] := List.isEmpty_iff.mp hNoExcess
      have hAll : f.allItemsInExcess = false := by
        simp only [allItemsInExcess, hNil, List.length_nil, beq_eq_false_iff_ne]
        omega
      refine (least_eq_some ((h.mem_iff _).mpr (Or.inr (h.min_inBits hAll))) fun y hy => ?_).symm
      rcases (h.mem_iff y).mp hy with hx | hIn
      · rw [hNil] at hx
        cases hx
      · exact hIn.1
    · rw [if_neg hNoExcess]
      obtain ⟨e, he⟩ := List.exists_mem_of_ne_nil f.excess fun hNil => hNoExcess (by rw [hNil]; rfl)
      by_cases hAll : f.allItemsInExcess = true
      · -- every key is in `excess`: the fold from `u64::MAX` ends at one of them
        simp only [hAll, if_true]
        have hLe := foldl_min_le_of_mem he (maxValue 64)
        have hMem : f.excess.foldl Nat.min (maxValue 64) ∈ f.excess := by
          rcases foldl_min_eq_or_mem f.excess (maxValue 64) with hEq | hMem
          · have heMax := hMax e ((h.mem_iff e).mpr (Or.inl he))
            have hEq' : f.excess.foldl Nat.min (maxValue 64) = e := by omega
            rw [hEq']
            exact he
          · exact hMem
        refine (least_eq_some ((h.mem_iff_of_allItemsInExcess hAll _).mpr hMem) fun y hy => ?_).symm
        exact foldl_min_le_of_mem ((h.mem_iff_of_allItemsInExcess hAll y).mp hy) _
      · -- some key is in the bits: the fold starts at `min`
        rw [Bool.not_eq_true] at hAll
        simp only [hAll, Bool.false_eq_true, if_false]
        have hMin := h.min_inBits hAll
        have hMem : f.excess.foldl Nat.min f.min ∈ S := by
          rcases foldl_min_eq_or_mem f.excess f.min with hEq | hMem
          · rw [hEq]
            exact (h.mem_iff _).mpr (Or.inr hMin)
          · exact (h.mem_iff _).mpr (Or.inl hMem)
        refine (least_eq_some hMem fun y hy => ?_).symm
        rcases (h.mem_iff y).mp hy with hx | hIn
        · exact foldl_min_le_of_mem hx _
        · exact Nat.le_trans (foldl_min_le_init _ _) hIn.1

/-- The window's keys `range' min (max_exclusive - min)` are those of `[min, max_exclusive)`. -/
theorem Represents.mem_window (x : Nat) :
    x ∈ List.range' f.min (f.maxExclusive - f.min) ↔ f.min ≤ x ∧ x < f.maxExclusive := by
  have := h.min_le
  rw [List.mem_range'_1]
  omega

/-- The keys of `excess` and those of the window's bits never meet. -/
theorem Represents.excess_disjoint_window {x y : Nat} (hx : x ∈ f.excess)
    (hy : y ∈ List.range' f.min (f.maxExclusive - f.min)) : x ≠ y := by
  have := h.excess_lt x hx
  have := ((h.mem_window y).mp hy).1
  omega

/-- `get_all` lists every key of the set once. -/
theorem Represents.getAll_nodup : f.getAll.Nodup := by
  refine List.nodup_append.mpr ⟨h.excess_nodup, (List.nodup_range').filter _, ?_⟩
  intro x hx y hy
  exact h.excess_disjoint_window hx (List.mem_of_mem_filter hy)

theorem Represents.mem_getAll (x : Nat) : x ∈ f.getAll ↔ x ∈ S := by
  rw [getAll, List.mem_append, List.mem_filter, h.mem_window, h.mem_iff x, InBits, and_assoc]

/-- `get_all_less_than` lists every key of the set below the bound once. -/
theorem Represents.getAllLessThan_nodup (m : Nat) : (f.getAllLessThan m).Nodup := by
  unfold getAllLessThan
  rw [takeWhile_range'_lt]
  refine List.nodup_append.mpr ⟨h.excess_nodup.filter _, (List.nodup_range').filter _, ?_⟩
  · intro x hx y hy
    refine h.excess_disjoint_window (List.mem_of_mem_filter hx) ?_
    have hy' := List.mem_range'_1.mp (List.mem_of_mem_filter hy)
    exact (h.mem_window y).mpr (by omega)

theorem Represents.mem_getAllLessThan (m x : Nat) :
    x ∈ f.getAllLessThan m ↔ x ∈ S ∧ x < m := by
  rw [getAllLessThan, List.mem_append, List.mem_filter, List.mem_filter, takeWhile_range'_lt,
    List.mem_range'_1, h.mem_iff x, InBits, decide_eq_true_iff]
  have := h.min_le
  constructor
  · rintro (⟨hx, hxm⟩ | ⟨hx, hBit⟩)
    · exact ⟨Or.inl hx, hxm⟩
    · exact ⟨Or.inr ⟨hx.1, by omega, hBit⟩, by omega⟩
  · rintro ⟨hx | ⟨hx, hx', hBit⟩, hxm⟩
    · exact Or.inl ⟨hx, hxm⟩
    · exact Or.inr ⟨⟨hx, by omega⟩, hBit⟩

/-- From `slot` down, the loop of `get_prior` finds the greatest key at `slot` or in
`[1, slot)`, `lo` being at or below every key: it never looks at 0 below a slot above 0. -/
theorem Represents.getPriorFrom_eq {lo : Nat} (hLo : ∀ x ∈ S, lo ≤ x) (slot : Nat) :
    f.getPriorFrom lo slot = greatest (S.filter fun x => x = slot ∨ 1 ≤ x ∧ x < slot) := by
  induction slot with
  | zero =>
      rw [RollingBitField.getPriorFrom, h.contains_eq]
      have hFilter : S.filter (fun x => x = 0 ∨ 1 ≤ x ∧ x < 0) = S.filter (· = 0) :=
        Finset.filter_congr fun x _ => by omega
      rw [hFilter]
      by_cases h0 : 0 ∈ S
      · rw [if_pos (decide_eq_true h0)]
        have h0' : 0 ∈ S.filter (· = 0) := Finset.mem_filter.mpr ⟨h0, rfl⟩
        refine (greatest_eq_some h0' fun y hy => ?_).symm
        have := (Finset.mem_filter.mp hy).2
        omega
      · rw [if_neg (by simpa using h0)]
        refine (greatest_eq_none (Finset.filter_eq_empty_iff.mpr fun y hy hy0 => ?_)).symm
        have hy0' : y = 0 := by simpa using hy0
        exact h0 (hy0' ▸ hy)
  | succ slot ih =>
      rw [RollingBitField.getPriorFrom, h.contains_eq]
      by_cases hs : slot + 1 ∈ S
      · rw [if_pos (decide_eq_true hs)]
        refine (greatest_eq_some (Finset.mem_filter.mpr ⟨hs, Or.inl rfl⟩) fun y hy => ?_).symm
        have := (Finset.mem_filter.mp hy).2
        omega
      · rw [if_neg (by simpa using hs)]
        -- `slot + 1` not being a key, a key of its search lies in `[1, slot]`
        have hBelow : ∀ y ∈ S, (y = slot + 1 ∨ 1 ≤ y ∧ y < slot + 1) → 1 ≤ y ∧ y ≤ slot := by
          intro y hy hy'
          have : y ≠ slot + 1 := fun hEq => hs (hEq ▸ hy)
          omega
        by_cases hStop : slot = 0 ∨ slot < lo
        · rw [if_pos hStop]
          refine (greatest_eq_none (Finset.filter_eq_empty_iff.mpr fun y hy hy' => ?_)).symm
          have := hLo y hy
          have := hBelow y hy hy'
          omega
        · rw [if_neg hStop, ih]
          refine congrArg greatest (Finset.filter_congr fun y hy => ?_)
          constructor
          · intro hy'
            omega
          · intro hy'
            have := hBelow y hy
            omega

/-- `get_prior(m)` is the greatest key at `m - 1` or in `[1, m - 1)`: the greatest key below `m`,
save that 0 is never found from `m` above 1 and is found from `m = 0`. -/
theorem Represents.getPrior_eq (hMax : ∀ x ∈ S, x ≤ maxValue 64) (m : Nat) :
    f.getPrior m = greatest (S.filter fun x => x = m - 1 ∨ 1 ≤ x ∧ x < m - 1) := by
  rw [getPrior, h.min?_eq hMax]
  by_cases hS : S.Nonempty
  · rw [least, dif_pos hS, Option.bind_some]
    exact h.getPriorFrom_eq (fun x hx => S.min'_le x hx) _
  · rw [Finset.not_nonempty_iff_eq_empty] at hS
    subst hS
    rfl

end Queries

end RollingBitField

end PutValidator.Runtime
