import PutValidator.Lib.Word
import PutValidator.Lib.Intervals

/-! The epoch schedule (`sdk/program/src/epoch_schedule.rs`): with warmup, the epochs before
`first_normal_epoch` start at `MINIMUM_SLOTS_PER_EPOCH` slots and double, and every later epoch
has `slots_per_epoch` slots. The epochs are intervals of slots laid end to end with the lengths
`get_slots_in_epoch` gives (`Lib.Intervals`): `get_first_slot_in_epoch` is where an epoch starts,
and `get_epoch_and_slot_index` finds the epoch that holds a slot, through a power of two in
warmup and a division after it. -/
namespace PutValidator

open Lib.Word Lib.Intervals

/-- `MINIMUM_SLOTS_PER_EPOCH`. -/
def minimumSlotsPerEpoch : Nat := 32

structure EpochSchedule where
  slotsPerEpoch : Nat
  leaderScheduleSlotOffset : Nat
  warmup : Bool
  firstNormalEpoch : Nat
  firstNormalSlot : Nat
deriving DecidableEq, Repr

namespace EpochSchedule

/-- `EpochSchedule::custom`; `none` where its `assert!` panics. -/
def custom (slotsPerEpoch leaderScheduleSlotOffset : Nat) (warmup : Bool) :
    Option EpochSchedule :=
  if minimumSlotsPerEpoch ≤ slotsPerEpoch then
    if warmup then
      let nextPowerOfTwo := Lib.Word.nextPowerOfTwo 64 slotsPerEpoch
      let log2SlotsPerEpoch :=
        trailingZeros 64 nextPowerOfTwo - trailingZeros 64 minimumSlotsPerEpoch
      some ⟨slotsPerEpoch, leaderScheduleSlotOffset, warmup, log2SlotsPerEpoch,
        nextPowerOfTwo - minimumSlotsPerEpoch⟩
    else some ⟨slotsPerEpoch, leaderScheduleSlotOffset, warmup, 0, 0⟩
  else none

/-- `get_slots_in_epoch`: `2u64.saturating_pow((epoch as u32).saturating_add(5))` in warmup,
5 being the trailing zeros of `MINIMUM_SLOTS_PER_EPOCH`, a power of two; a power of two from
`2^64` on saturates at `u64::MAX`. -/
def getSlotsInEpoch (s : EpochSchedule) (epoch : Nat) : Nat :=
  if epoch < s.firstNormalEpoch then
    let exponent := Lib.Word.saturatingAdd 32 (epoch % 2 ^ 32) minimumSlotsPerEpoch.log2
    if 64 ≤ exponent then Lib.Word.maxValue 64 else 2 ^ exponent
  else s.slotsPerEpoch

/-- `get_epoch_and_slot_index`: the epoch that holds `slot`, and the slot's index in it. -/
def getEpochAndSlotIndex (s : EpochSchedule) (slot : Nat) : Nat × Nat :=
  if slot < s.firstNormalSlot then
    let epoch := trailingZeros 64 (nextPowerOfTwo 64
        (saturatingAdd 64 (saturatingAdd 64 slot minimumSlotsPerEpoch) 1)) -
      trailingZeros 64 minimumSlotsPerEpoch - 1
    let epochLen :=
      saturatingPow 64 2 (saturatingAdd 32 epoch (trailingZeros 64 minimumSlotsPerEpoch))
    (epoch, slot - (epochLen - minimumSlotsPerEpoch))
  else
    let normalSlotIndex := slot - s.firstNormalSlot
    -- `checked_div` and `checked_rem` give `0` for a zero `slots_per_epoch`
    let normalEpochIndex := normalSlotIndex / s.slotsPerEpoch
    let epoch := saturatingAdd 64 s.firstNormalEpoch normalEpochIndex
    let slotIndex := if s.slotsPerEpoch = 0 then 0 else normalSlotIndex % s.slotsPerEpoch
    (epoch, slotIndex)

/-- `get_epoch`. -/
def getEpoch (s : EpochSchedule) (slot : Nat) : Nat := (s.getEpochAndSlotIndex slot).1

/-- `get_first_slot_in_epoch`. -/
def getFirstSlotInEpoch (s : EpochSchedule) (epoch : Nat) : Nat :=
  if epoch ≤ s.firstNormalEpoch then
    saturatingMul 64 (saturatingPow 64 2 (epoch % 2 ^ 32) - 1) minimumSlotsPerEpoch
  else
    saturatingAdd 64 (saturatingMul 64 (epoch - s.firstNormalEpoch) s.slotsPerEpoch)
      s.firstNormalSlot

/-- `get_last_slot_in_epoch`. -/
def getLastSlotInEpoch (s : EpochSchedule) (epoch : Nat) : Nat :=
  saturatingAdd 64 (s.getFirstSlotInEpoch epoch) (s.getSlotsInEpoch epoch) - 1

/-- `get_leader_schedule_epoch`: the epoch whose leader schedule is fixed at `slot`. -/
def getLeaderScheduleEpoch (s : EpochSchedule) (slot : Nat) : Nat :=
  if slot < s.firstNormalSlot then
    -- in warmup, as if `leader_schedule_slot_offset` were `slots_per_epoch`
    saturatingAdd 64 (s.getEpochAndSlotIndex slot).1 1
  else
    let newSlotsSinceFirstNormalSlot := slot - s.firstNormalSlot
    let newFirstNormalLeaderScheduleSlot :=
      saturatingAdd 64 newSlotsSinceFirstNormalSlot s.leaderScheduleSlotOffset
    let newEpochsSinceFirstNormalLeaderSchedule :=
      newFirstNormalLeaderScheduleSlot / s.slotsPerEpoch
    saturatingAdd 64 s.firstNormalEpoch newEpochsSinceFirstNormalLeaderSchedule

/-- What `custom` builds: at least `MINIMUM_SLOTS_PER_EPOCH` slots an epoch, warmup epochs of
`MINIMUM_SLOTS_PER_EPOCH * 2 ^ e` slots that end at `first_normal_slot` and none longer than a
normal epoch, and few enough of them that no computation on them saturates. -/
structure WellFormed (s : EpochSchedule) : Prop where
  minimum : minimumSlotsPerEpoch ≤ s.slotsPerEpoch
  firstNormalSlot_eq : s.firstNormalSlot = minimumSlotsPerEpoch * (2 ^ s.firstNormalEpoch - 1)
  warmup_le : minimumSlotsPerEpoch * 2 ^ s.firstNormalEpoch ≤ 2 * s.slotsPerEpoch
  firstNormalEpoch_le : s.firstNormalEpoch ≤ 58

theorem trailingZeros_minimumSlotsPerEpoch : trailingZeros 64 minimumSlotsPerEpoch = 5 := by
  decide

/-- `custom` builds a well-formed schedule when `slots_per_epoch` has a next power of two. -/
theorem custom_wellFormed {slotsPerEpoch leaderScheduleSlotOffset : Nat} {warmup : Bool}
    {s : EpochSchedule} (h : custom slotsPerEpoch leaderScheduleSlotOffset warmup = some s)
    (hSmall : slotsPerEpoch ≤ 2 ^ 63) : s.WellFormed := by
  unfold custom at h
  split at h
  case isFalse => cases h
  case isTrue hMin =>
    cases warmup
    case false =>
      cases h
      refine ⟨hMin, rfl, ?_, Nat.zero_le _⟩
      show minimumSlotsPerEpoch * 2 ^ 0 ≤ 2 * slotsPerEpoch
      unfold minimumSlotsPerEpoch at hMin ⊢
      omega
    case true =>
      cases h
      -- the next power of two is `2 ^ k` with `2 ^ (k - 1) < slots_per_epoch ≤ 2 ^ k`
      obtain ⟨k, hk⟩ : ∃ k, Nat.log2 (slotsPerEpoch - 1) = k := ⟨_, rfl⟩
      have hLow : 2 ^ k ≤ slotsPerEpoch - 1 := hk ▸ Nat.log2_self_le (by
        unfold minimumSlotsPerEpoch at hMin
        omega)
      have hHigh : slotsPerEpoch - 1 < 2 ^ (k + 1) := hk ▸ Nat.lt_log2_self
      have hFive : 4 ≤ k := by
        by_contra hLt
        have : 2 ^ (k + 1) ≤ 2 ^ 4 := Nat.pow_le_pow_right (by decide) (by omega)
        unfold minimumSlotsPerEpoch at hMin
        omega
      have hSixtyTwo : k ≤ 62 := by
        by_contra hLt
        have : 2 ^ 63 ≤ 2 ^ k := Nat.pow_le_pow_right (by decide) (by omega)
        omega
      have hPow : 2 ^ (k + 1) = minimumSlotsPerEpoch * 2 ^ (k + 1 - 5) := by
        rw [minimumSlotsPerEpoch, show (32 : Nat) = 2 ^ 5 from rfl, ← Nat.pow_add]
        congr 1
        omega
      have hNext : nextPowerOfTwo 64 slotsPerEpoch = 2 ^ (k + 1) :=
        nextPowerOfTwo_eq (by omega) (by rw [Nat.pow_succ]; omega) (by omega)
      simp only [hNext, trailingZeros_two_pow (show k + 1 < 64 by omega),
        trailingZeros_minimumSlotsPerEpoch]
      refine ⟨hMin, ?_, ?_, ?_⟩
      · show 2 ^ (k + 1) - minimumSlotsPerEpoch = minimumSlotsPerEpoch * (2 ^ (k + 1 - 5) - 1)
        rw [Nat.mul_sub, Nat.mul_one, ← hPow]
      · show minimumSlotsPerEpoch * 2 ^ (k + 1 - 5) ≤ 2 * slotsPerEpoch
        rw [← hPow, Nat.pow_succ]
        omega
      · show k + 1 - 5 ≤ 58
        omega

/-! ### The epochs as intervals of slots -/

section Intervals

variable {s : EpochSchedule}

/-- A warmup epoch has `MINIMUM_SLOTS_PER_EPOCH * 2 ^ epoch` slots. -/
theorem getSlotsInEpoch_of_lt (hs : s.WellFormed) {epoch : Nat}
    (h : epoch < s.firstNormalEpoch) :
    s.getSlotsInEpoch epoch = minimumSlotsPerEpoch * 2 ^ epoch := by
  have hLe := hs.firstNormalEpoch_le
  have hLog : minimumSlotsPerEpoch.log2 = 5 := by decide
  have hMod : epoch % 2 ^ 32 = epoch := Nat.mod_eq_of_lt (by omega)
  have hExponent : saturatingAdd 32 (epoch % 2 ^ 32) minimumSlotsPerEpoch.log2 = epoch + 5 := by
    rw [hMod, hLog, saturatingAdd_of_le (by unfold maxValue; omega)]
  simp only [getSlotsInEpoch, if_pos h, hExponent, if_neg (show ¬64 ≤ epoch + 5 by omega)]
  rw [Nat.pow_add, Nat.mul_comm]
  rfl

theorem getSlotsInEpoch_of_le {epoch : Nat} (h : s.firstNormalEpoch ≤ epoch) :
    s.getSlotsInEpoch epoch = s.slotsPerEpoch := by
  simp [getSlotsInEpoch, Nat.not_lt.mpr h]

/-- No epoch is empty, and none is longer than a normal one. -/
theorem getSlotsInEpoch_pos_le (hs : s.WellFormed) (epoch : Nat) :
    0 < s.getSlotsInEpoch epoch ∧ s.getSlotsInEpoch epoch ≤ s.slotsPerEpoch := by
  have hMin := hs.minimum
  unfold minimumSlotsPerEpoch at hMin
  rcases Nat.lt_or_ge epoch s.firstNormalEpoch with h | h
  · -- a warmup epoch is at most half as long as the first normal one would be in warmup
    have hDouble : 2 * 2 ^ epoch ≤ 2 ^ s.firstNormalEpoch := by
      rw [← Nat.pow_succ']
      exact Nat.pow_le_pow_right (by decide) h
    have hWarmup := hs.warmup_le
    have := Nat.two_pow_pos epoch
    rw [getSlotsInEpoch_of_lt hs h]
    unfold minimumSlotsPerEpoch at hWarmup ⊢
    omega
  · rw [getSlotsInEpoch_of_le h]
    omega

/-- The warmup epochs start at `MINIMUM_SLOTS_PER_EPOCH * (2 ^ epoch - 1)`. -/
theorem start_of_le (hs : s.WellFormed) {epoch : Nat} (h : epoch ≤ s.firstNormalEpoch) :
    start s.getSlotsInEpoch epoch = minimumSlotsPerEpoch * (2 ^ epoch - 1) := by
  induction epoch with
  | zero => rfl
  | succ epoch ih =>
      have := Nat.two_pow_pos epoch
      rw [start_succ, ih (by omega), getSlotsInEpoch_of_lt hs (by omega), Nat.pow_succ]
      unfold minimumSlotsPerEpoch
      omega

/-- The normal epochs start at `first_normal_slot` and follow each other every
`slots_per_epoch` slots. -/
theorem start_firstNormalEpoch_add (hs : s.WellFormed) (k : Nat) :
    start s.getSlotsInEpoch (s.firstNormalEpoch + k) = s.firstNormalSlot + k * s.slotsPerEpoch := by
  induction k with
  | zero => rw [Nat.add_zero, start_of_le hs le_rfl, hs.firstNormalSlot_eq, Nat.zero_mul, Nat.add_zero]
  | succ k ih =>
      rw [← Nat.add_assoc, start_succ, ih, getSlotsInEpoch_of_le (by omega), Nat.succ_mul,
        Nat.add_assoc]

theorem start_firstNormalEpoch (hs : s.WellFormed) :
    start s.getSlotsInEpoch s.firstNormalEpoch = s.firstNormalSlot := by
  simpa using start_firstNormalEpoch_add hs 0

/-- `get_first_slot_in_epoch` is where the epoch starts, while that is a `u64`. -/
theorem getFirstSlotInEpoch_eq (hs : s.WellFormed) {epoch : Nat}
    (h : start s.getSlotsInEpoch epoch ≤ maxValue 64) :
    s.getFirstSlotInEpoch epoch = start s.getSlotsInEpoch epoch := by
  have hFne := hs.firstNormalEpoch_le
  unfold getFirstSlotInEpoch
  split
  case isTrue hLe =>
    rw [start_of_le hs hLe] at h ⊢
    rw [Nat.mod_eq_of_lt (show epoch < 2 ^ 32 by omega),
      saturatingPow_two_of_lt (show epoch < 64 by omega),
      saturatingMul_of_le (by rw [Nat.mul_comm]; exact h), Nat.mul_comm]
  case isFalse hGt =>
    obtain ⟨k, rfl⟩ : ∃ k, epoch = s.firstNormalEpoch + k := ⟨epoch - s.firstNormalEpoch, by omega⟩
    rw [start_firstNormalEpoch_add hs] at h ⊢
    rw [Nat.add_sub_cancel_left, saturatingMul_of_le (by omega), saturatingAdd_of_le (by omega),
      Nat.add_comm]

/-- In warmup, `get_epoch_and_slot_index` reads the epoch off the power of two above the slot:
`L = log2 (slot + 32)` gives epoch `L - 5`, which starts at `2 ^ L - 32`. -/
theorem getEpochAndSlotIndex_of_lt (hs : s.WellFormed) {slot : Nat}
    (h : slot < s.firstNormalSlot) :
    Holds s.getSlotsInEpoch (s.getEpoch slot) slot ∧
      (s.getEpochAndSlotIndex slot).2 = slot - start s.getSlotsInEpoch (s.getEpoch slot) := by
  have hFne := hs.firstNormalEpoch_le
  have hFns := hs.firstNormalSlot_eq
  have hWarmupEnd : s.firstNormalSlot + minimumSlotsPerEpoch = 2 ^ (s.firstNormalEpoch + 5) := by
    have := Nat.two_pow_pos s.firstNormalEpoch
    rw [hFns, Nat.pow_add]
    unfold minimumSlotsPerEpoch
    omega
  have hFnsBound : s.firstNormalSlot + minimumSlotsPerEpoch ≤ 2 ^ 63 := by
    rw [hWarmupEnd]
    exact Nat.pow_le_pow_right (by decide) (by omega)
  obtain ⟨L, hL⟩ : ∃ L, Nat.log2 (slot + minimumSlotsPerEpoch) = L := ⟨_, rfl⟩
  have hLow : 2 ^ L ≤ slot + minimumSlotsPerEpoch :=
    hL ▸ Nat.log2_self_le (by unfold minimumSlotsPerEpoch; omega)
  have hHigh : slot + minimumSlotsPerEpoch < 2 ^ (L + 1) := hL ▸ Nat.lt_log2_self
  have hFive : 5 ≤ L := by
    by_contra hLt
    have : 2 ^ (L + 1) ≤ 2 ^ 5 := Nat.pow_le_pow_right (by decide) (by omega)
    unfold minimumSlotsPerEpoch at hHigh
    omega
  have hTop : L < s.firstNormalEpoch + 5 := by
    by_contra hGe
    have : 2 ^ (s.firstNormalEpoch + 5) ≤ 2 ^ L := Nat.pow_le_pow_right (by decide) (by omega)
    omega
  have hPow : 2 ^ L = minimumSlotsPerEpoch * 2 ^ (L - 5) := by
    rw [minimumSlotsPerEpoch, show (32 : Nat) = 2 ^ 5 from rfl, ← Nat.pow_add]
    congr 1
    omega
  have hPowSucc : 2 ^ (L - 5 + 1) = 2 * 2 ^ (L - 5) := Nat.pow_succ'
  have hSucc : 2 ^ (L + 1) = 2 * 2 ^ L := Nat.pow_succ'
  -- the sums of the source do not saturate, and the next power of two is `2 ^ (L + 1)`
  have hSum : saturatingAdd 64 (saturatingAdd 64 slot minimumSlotsPerEpoch) 1 =
      slot + minimumSlotsPerEpoch + 1 := by
    rw [saturatingAdd_of_le (show slot + minimumSlotsPerEpoch ≤ maxValue 64 by
      unfold maxValue; omega), saturatingAdd_of_le (show slot + minimumSlotsPerEpoch + 1 ≤
      maxValue 64 by unfold maxValue; omega)]
  have hNext : nextPowerOfTwo 64 (slot + minimumSlotsPerEpoch + 1) = 2 ^ (L + 1) :=
    nextPowerOfTwo_eq (by omega) (by omega) (by omega)
  have hEpoch : s.getEpoch slot = L - 5 := by
    simp only [getEpoch, getEpochAndSlotIndex, if_pos h, hSum, hNext,
      trailingZeros_two_pow (show L + 1 < 64 by omega), trailingZeros_minimumSlotsPerEpoch]
    omega
  have hIndex : (s.getEpochAndSlotIndex slot).2 = slot - (2 ^ L - minimumSlotsPerEpoch) := by
    simp only [getEpochAndSlotIndex, if_pos h, hSum, hNext,
      trailingZeros_two_pow (show L + 1 < 64 by omega), trailingZeros_minimumSlotsPerEpoch,
      show L + 1 - 5 - 1 = L - 5 by omega, saturatingAdd_of_le (show L - 5 + 5 ≤ maxValue 32 by
        unfold maxValue; omega), show L - 5 + 5 = L by omega,
      saturatingPow_two_of_lt (show L < 64 by omega)]
  have hStart : start s.getSlotsInEpoch (L - 5) = 2 ^ L - minimumSlotsPerEpoch := by
    rw [start_of_le hs (by omega), hPow]
    unfold minimumSlotsPerEpoch
    omega
  have hStartSucc : start s.getSlotsInEpoch (L - 5 + 1) = 2 ^ (L + 1) - minimumSlotsPerEpoch := by
    rw [start_of_le hs (by omega), hSucc, hPowSucc, hPow]
    unfold minimumSlotsPerEpoch
    omega
  rw [hEpoch, hIndex, hStart]
  exact ⟨⟨by rw [hStart]; omega, by rw [hStartSucc]; omega⟩, rfl⟩

/-- After warmup, `get_epoch_and_slot_index` divides the distance from `first_normal_slot` by
`slots_per_epoch`. -/
theorem getEpochAndSlotIndex_of_le (hs : s.WellFormed) {slot : Nat}
    (h : s.firstNormalSlot ≤ slot) (hSlot : slot < 2 ^ 64) :
    Holds s.getSlotsInEpoch (s.getEpoch slot) slot ∧
      (s.getEpochAndSlotIndex slot).2 = slot - start s.getSlotsInEpoch (s.getEpoch slot) := by
  have hMin := hs.minimum
  have hFne := hs.firstNormalEpoch_le
  unfold minimumSlotsPerEpoch at hMin
  have hPos : 0 < s.slotsPerEpoch := by omega
  obtain ⟨q, hq⟩ : ∃ q, (slot - s.firstNormalSlot) / s.slotsPerEpoch = q := ⟨_, rfl⟩
  have hDiv := Nat.div_add_mod (slot - s.firstNormalSlot) s.slotsPerEpoch
  have hMod := Nat.mod_lt (slot - s.firstNormalSlot) hPos
  rw [hq, Nat.mul_comm] at hDiv
  have hq32 : q * 32 ≤ q * s.slotsPerEpoch := Nat.mul_le_mul_left q hMin
  have hEpoch : s.getEpoch slot = s.firstNormalEpoch + q := by
    simp only [getEpoch, getEpochAndSlotIndex, if_neg (Nat.not_lt.mpr h), hq]
    exact saturatingAdd_of_le (by unfold maxValue; omega)
  have hIndex : (s.getEpochAndSlotIndex slot).2 = (slot - s.firstNormalSlot) % s.slotsPerEpoch := by
    simp only [getEpochAndSlotIndex, if_neg (Nat.not_lt.mpr h), if_neg (Nat.ne_of_gt hPos)]
  have hStart := start_firstNormalEpoch_add hs q
  have hStartSucc := start_firstNormalEpoch_add hs (q + 1)
  rw [← Nat.add_assoc, Nat.succ_mul] at hStartSucc
  rw [hEpoch, hIndex, hStart]
  exact ⟨⟨by rw [hStart]; omega, by rw [hStartSucc]; omega⟩, by omega⟩

/-- `get_epoch_and_slot_index` gives the epoch that holds the slot, and the slot's distance from
the epoch's start. -/
theorem getEpochAndSlotIndex_spec (hs : s.WellFormed) {slot : Nat} (hSlot : slot < 2 ^ 64) :
    Holds s.getSlotsInEpoch (s.getEpoch slot) slot ∧
      (s.getEpochAndSlotIndex slot).2 = slot - start s.getSlotsInEpoch (s.getEpoch slot) := by
  rcases Nat.lt_or_ge slot s.firstNormalSlot with h | h
  · exact getEpochAndSlotIndex_of_lt hs h
  · exact getEpochAndSlotIndex_of_le hs h hSlot

end Intervals

/-! ### Slots, epochs and leader schedule epochs -/

section Slots

variable {s : EpochSchedule}

/-- A slot is the first slot of its epoch plus its index, and the index is inside the epoch. -/
theorem getFirstSlotInEpoch_add_slotIndex (hs : s.WellFormed) {slot : Nat}
    (hSlot : slot < 2 ^ 64) :
    s.getFirstSlotInEpoch (s.getEpochAndSlotIndex slot).1 + (s.getEpochAndSlotIndex slot).2 =
        slot ∧
      (s.getEpochAndSlotIndex slot).2 < s.getSlotsInEpoch (s.getEpochAndSlotIndex slot).1 := by
  obtain ⟨hHolds, hIndex⟩ := getEpochAndSlotIndex_spec hs hSlot
  have hFirst := getFirstSlotInEpoch_eq hs
    (show start s.getSlotsInEpoch (s.getEpoch slot) ≤ maxValue 64 by
      have := hHolds.1
      unfold maxValue
      omega)
  have hLt := hHolds.sub_lt
  have := hHolds.1
  unfold getEpoch at hFirst hHolds hIndex hLt this
  rw [hFirst, hIndex]
  exact ⟨by omega, hLt⟩

/-- The epoch of a slot ends one slot before the next epoch starts, while the next epoch starts
at a `u64`. -/
theorem getLastSlotInEpoch_add_one (hs : s.WellFormed) {slot : Nat}
    (hSlot : slot + s.slotsPerEpoch < 2 ^ 64) :
    s.getLastSlotInEpoch (s.getEpoch slot) + 1 = s.getFirstSlotInEpoch (s.getEpoch slot + 1) := by
  obtain ⟨hHolds, -⟩ := getEpochAndSlotIndex_spec hs (show slot < 2 ^ 64 by omega)
  have hNext : start s.getSlotsInEpoch (s.getEpoch slot + 1) =
      start s.getSlotsInEpoch (s.getEpoch slot) + s.getSlotsInEpoch (s.getEpoch slot) :=
    start_succ _
  have hLen := (getSlotsInEpoch_pos_le hs (s.getEpoch slot)).2
  have := hHolds.1
  have := hHolds.2
  have hBound : start s.getSlotsInEpoch (s.getEpoch slot + 1) ≤ maxValue 64 := by
    unfold maxValue
    omega
  unfold getLastSlotInEpoch
  rw [getFirstSlotInEpoch_eq hs hBound, getFirstSlotInEpoch_eq hs (by omega),
    saturatingAdd_of_le (by omega)]
  omega

/-- `get_epoch` grows with the slot. -/
theorem getEpoch_mono (hs : s.WellFormed) {slot slot' : Nat} (h : slot ≤ slot')
    (hSlot : slot' < 2 ^ 64) : s.getEpoch slot ≤ s.getEpoch slot' :=
  (getEpochAndSlotIndex_spec hs (by omega)).1.index_le (getEpochAndSlotIndex_spec hs hSlot).1 h

/-- From a slot to the next, `get_epoch` grows by at most one. -/
theorem getEpoch_succ_le (hs : s.WellFormed) {slot : Nat} (hSlot : slot + 1 < 2 ^ 64) :
    s.getEpoch (slot + 1) ≤ s.getEpoch slot + 1 :=
  (getEpochAndSlotIndex_spec hs (by omega)).1.index_succ_le
    (fun epoch => (getSlotsInEpoch_pos_le hs epoch).1) (getEpochAndSlotIndex_spec hs hSlot).1

/-- Every warmup slot is in a warmup epoch. -/
theorem getEpoch_lt_of_lt (hs : s.WellFormed) {slot : Nat} (h : slot < s.firstNormalSlot) :
    s.getEpoch slot < s.firstNormalEpoch := by
  by_contra hGe
  have hStart : start s.getSlotsInEpoch s.firstNormalEpoch ≤
      start s.getSlotsInEpoch (s.getEpoch slot) := start_mono (by omega)
  have := (getEpochAndSlotIndex_of_lt hs h).1.1
  rw [start_firstNormalEpoch hs] at hStart
  omega

/-- In warmup the leader schedule epoch is the next epoch. -/
theorem getLeaderScheduleEpoch_of_lt (hs : s.WellFormed) {slot : Nat}
    (h : slot < s.firstNormalSlot) : s.getLeaderScheduleEpoch slot = s.getEpoch slot + 1 := by
  have := getEpoch_lt_of_lt hs h
  have := hs.firstNormalEpoch_le
  simp only [getLeaderScheduleEpoch, if_pos h]
  exact saturatingAdd_of_le (by unfold getEpoch maxValue at *; omega)

/-- After warmup the leader schedule epoch counts whole epochs from `first_normal_slot`, moved on
by `leader_schedule_slot_offset`. -/
theorem getLeaderScheduleEpoch_of_le (hs : s.WellFormed) {slot : Nat}
    (h : s.firstNormalSlot ≤ slot) (hSlot : slot + s.leaderScheduleSlotOffset < 2 ^ 64) :
    s.getLeaderScheduleEpoch slot = s.firstNormalEpoch +
      (slot - s.firstNormalSlot + s.leaderScheduleSlotOffset) / s.slotsPerEpoch := by
  have hFne := hs.firstNormalEpoch_le
  have hDiv : (slot - s.firstNormalSlot + s.leaderScheduleSlotOffset) / s.slotsPerEpoch ≤
      (slot - s.firstNormalSlot + s.leaderScheduleSlotOffset) / 32 :=
    Nat.div_le_div_left hs.minimum (by decide)
  simp only [getLeaderScheduleEpoch, if_neg (Nat.not_lt.mpr h)]
  rw [saturatingAdd_of_le (show slot - s.firstNormalSlot + s.leaderScheduleSlotOffset ≤
    maxValue 64 by unfold maxValue; omega)]
  exact saturatingAdd_of_le (by unfold maxValue; omega)

/-- `get_leader_schedule_epoch` grows with the slot. -/
theorem getLeaderScheduleEpoch_mono (hs : s.WellFormed) {slot slot' : Nat} (h : slot ≤ slot')
    (hSlot : slot' + s.leaderScheduleSlotOffset < 2 ^ 64) :
    s.getLeaderScheduleEpoch slot ≤ s.getLeaderScheduleEpoch slot' := by
  rcases Nat.lt_or_ge slot' s.firstNormalSlot with h' | h'
  · -- both in warmup: the next epoch of each
    rw [getLeaderScheduleEpoch_of_lt hs (by omega), getLeaderScheduleEpoch_of_lt hs h']
    exact Nat.succ_le_succ (getEpoch_mono hs h (by omega))
  · rw [getLeaderScheduleEpoch_of_le hs h' hSlot]
    rcases Nat.lt_or_ge slot s.firstNormalSlot with hw | hw
    · -- from warmup to normal: a warmup epoch is before `first_normal_epoch`
      rw [getLeaderScheduleEpoch_of_lt hs hw]
      exact Nat.succ_le_of_lt (Nat.lt_of_lt_of_le (getEpoch_lt_of_lt hs hw) (Nat.le_add_right _ _))
    · rw [getLeaderScheduleEpoch_of_le hs hw (by omega)]
      exact Nat.add_le_add_left (Nat.div_le_div_right (by omega)) _

/-- With an offset below two epochs, `get_leader_schedule_epoch` grows by at most one from a
slot to the next, across the end of warmup too. -/
theorem getLeaderScheduleEpoch_succ_le (hs : s.WellFormed)
    (hOffset : s.leaderScheduleSlotOffset < 2 * s.slotsPerEpoch) {slot : Nat}
    (hSlot : slot + 1 + s.leaderScheduleSlotOffset < 2 ^ 64) :
    s.getLeaderScheduleEpoch (slot + 1) ≤ s.getLeaderScheduleEpoch slot + 1 := by
  have hMin := hs.minimum
  unfold minimumSlotsPerEpoch at hMin
  have hPos : 0 < s.slotsPerEpoch := by omega
  rcases Nat.lt_or_ge (slot + 1) s.firstNormalSlot with h | h
  · rw [getLeaderScheduleEpoch_of_lt hs h, getLeaderScheduleEpoch_of_lt hs (by omega)]
    exact Nat.succ_le_succ (getEpoch_succ_le hs (by omega))
  · rw [getLeaderScheduleEpoch_of_le hs h hSlot]
    rcases Nat.lt_or_ge slot s.firstNormalSlot with hw | hw
    · -- the last warmup slot is in the last warmup epoch, whose leader schedule epoch is
      -- `first_normal_epoch`; the offset moves the next one on by at most one
      have hLast : slot + 1 = s.firstNormalSlot := by omega
      have hEpoch : s.getEpoch slot + 1 = s.firstNormalEpoch := by
        have hLt := getEpoch_lt_of_lt hs hw
        have hBelow := (getEpochAndSlotIndex_of_lt hs hw).1.2
        by_contra hNe
        -- otherwise a whole warmup epoch would fit between `slot` and `first_normal_slot`
        have hStart : start s.getSlotsInEpoch (s.getEpoch slot + 1 + 1) ≤
            start s.getSlotsInEpoch s.firstNormalEpoch := start_mono (by omega)
        have hNext : start s.getSlotsInEpoch (s.getEpoch slot + 1 + 1) =
            start s.getSlotsInEpoch (s.getEpoch slot + 1) + s.getSlotsInEpoch (s.getEpoch slot + 1) :=
          start_succ _
        have hLen := (getSlotsInEpoch_pos_le hs (s.getEpoch slot + 1)).1
        rw [start_firstNormalEpoch hs] at hStart
        omega
      have hSteps : s.leaderScheduleSlotOffset / s.slotsPerEpoch ≤ 1 :=
        Nat.le_of_lt_succ ((Nat.div_lt_iff_lt_mul hPos).mpr (by omega))
      rw [getLeaderScheduleEpoch_of_lt hs hw, hEpoch, hLast, Nat.sub_self, Nat.zero_add]
      omega
    · rw [getLeaderScheduleEpoch_of_le hs hw (by omega)]
      -- one more slot moves the quotient on by at most one
      have hStep : (slot + 1 - s.firstNormalSlot + s.leaderScheduleSlotOffset) / s.slotsPerEpoch ≤
          (slot - s.firstNormalSlot + s.leaderScheduleSlotOffset) / s.slotsPerEpoch + 1 := by
        rw [← Nat.add_div_right _ hPos]
        exact Nat.div_le_div_right (by omega)
      omega

end Slots

theorem custom_fields {slotsPerEpoch leaderScheduleSlotOffset : Nat} {warmup : Bool}
    {s : EpochSchedule} (h : custom slotsPerEpoch leaderScheduleSlotOffset warmup = some s) :
    s.slotsPerEpoch = slotsPerEpoch ∧ s.leaderScheduleSlotOffset = leaderScheduleSlotOffset := by
  unfold custom at h
  split at h
  · cases warmup <;> (cases h; exact ⟨rfl, rfl⟩)
  · cases h

/-- The schedules `custom` builds cut the `u64` slots into consecutive epochs: each slot is the
first slot of its epoch plus an index inside the epoch, each epoch ends right before the next
one starts, and `get_epoch` grows with the slot by at most one at a time. The leader schedule
epoch grows with the slot, and by at most one at a time when the offset is below two epochs. -/
theorem epoch_schedule_partitions_slots {slotsPerEpoch leaderScheduleSlotOffset : Nat}
    {warmup : Bool} {s : EpochSchedule}
    (hCustom : custom slotsPerEpoch leaderScheduleSlotOffset warmup = some s)
    (hSmall : slotsPerEpoch ≤ 2 ^ 63) :
    (∀ slot, slot + slotsPerEpoch < 2 ^ 64 →
      s.getFirstSlotInEpoch (s.getEpochAndSlotIndex slot).1 + (s.getEpochAndSlotIndex slot).2 =
          slot ∧
        (s.getEpochAndSlotIndex slot).2 < s.getSlotsInEpoch (s.getEpochAndSlotIndex slot).1 ∧
        s.getLastSlotInEpoch (s.getEpochAndSlotIndex slot).1 + 1 =
          s.getFirstSlotInEpoch ((s.getEpochAndSlotIndex slot).1 + 1)) ∧
    (∀ slot slot', slot ≤ slot' → slot' < 2 ^ 64 → s.getEpoch slot ≤ s.getEpoch slot') ∧
    (∀ slot, slot + 1 < 2 ^ 64 → s.getEpoch (slot + 1) ≤ s.getEpoch slot + 1) ∧
    (∀ slot slot', slot ≤ slot' → slot' + leaderScheduleSlotOffset < 2 ^ 64 →
      s.getLeaderScheduleEpoch slot ≤ s.getLeaderScheduleEpoch slot') ∧
    (leaderScheduleSlotOffset < 2 * slotsPerEpoch →
      ∀ slot, slot + 1 + leaderScheduleSlotOffset < 2 ^ 64 →
        s.getLeaderScheduleEpoch (slot + 1) ≤ s.getLeaderScheduleEpoch slot + 1) := by
  have hs := custom_wellFormed hCustom hSmall
  obtain ⟨rfl, rfl⟩ := custom_fields hCustom
  refine ⟨fun slot hSlot => ?_, fun _ _ h hSlot => getEpoch_mono hs h hSlot,
    fun _ hSlot => getEpoch_succ_le hs hSlot,
    fun _ _ h hSlot => getLeaderScheduleEpoch_mono hs h hSlot,
    fun hOffset _ hSlot => getLeaderScheduleEpoch_succ_le hs hOffset hSlot⟩
  obtain ⟨hFirst, hIndex⟩ := getFirstSlotInEpoch_add_slotIndex hs (show slot < 2 ^ 64 by omega)
  exact ⟨hFirst, hIndex, getLastSlotInEpoch_add_one hs hSlot⟩

/-- `EpochSchedule::custom(48, 24, true)`: one warmup epoch of 32 slots, then epochs of 48. -/
def fortyEightSchedule : EpochSchedule := ⟨48, 24, true, 1, 32⟩

theorem epoch_schedule_partitions_slots_forty_eight :
    fortyEightSchedule.getFirstSlotInEpoch (fortyEightSchedule.getEpochAndSlotIndex 100).1 +
        (fortyEightSchedule.getEpochAndSlotIndex 100).2 = 100 ∧
      (fortyEightSchedule.getEpochAndSlotIndex 100).2 <
        fortyEightSchedule.getSlotsInEpoch (fortyEightSchedule.getEpochAndSlotIndex 100).1 ∧
      fortyEightSchedule.getLastSlotInEpoch (fortyEightSchedule.getEpochAndSlotIndex 100).1 + 1 =
        fortyEightSchedule.getFirstSlotInEpoch
          ((fortyEightSchedule.getEpochAndSlotIndex 100).1 + 1) :=
  (epoch_schedule_partitions_slots (show custom 48 24 true = some fortyEightSchedule by decide)
    (by decide)).1 100 (by decide)

/-- With an offset of two epochs, the leader schedule epoch goes from `1` at the last warmup slot
to `3` at the first normal slot, skipping epoch `2`. -/
theorem getLeaderScheduleEpoch_skips_at_warmup_end :
    (custom 64 128 true).map (fun s => (s.getLeaderScheduleEpoch 31, s.getLeaderScheduleEpoch 32)) =
      some (1, 3) := by
  decide

end EpochSchedule

end PutValidator
