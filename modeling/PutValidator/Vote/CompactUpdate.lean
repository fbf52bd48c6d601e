import PutValidator.Vote.Program
import PutValidator.Sdk.SerdeVarint
import PutValidator.Sdk.VersionedTransaction

/-! `serde_compact_vote_state_update` (`sdk/program/src/vote/state/mod.rs`): the wire form of a
`VoteStateUpdate` in a compact vote. The root travels as a `u64` with `Slot::MAX` for none, each
lockout as its distance from the slot before it (the root, or `0` without one) in a
`serde_varint` with its confirmation count as a `u8`, and the lockouts as a `short_vec`.
`serialize` refuses a lockout below the slot before it, a count past `u8::MAX` and, inside
`short_vec::serialize`, more than `u16::MAX` lockouts; `deserialize` adds the distances back with
`checked_add`. Every update that `serialize` accepts and whose root is not `Slot::MAX` is read
back by `deserialize`, and whatever `deserialize` reads is such an update followed by other
bytes. -/
namespace PutValidator.Vote

open Lib.Codec Lib.Word Lib.Except

/-- The errors of `serialize` and `deserialize`, by their messages. -/
inductive CompactError
  /-- "Invalid vote lockout": a lockout below the slot before it. -/
  | invalidVoteLockout
  /-- "Invalid confirmation count": a count past `u8::MAX`. -/
  | invalidConfirmationCount
  /-- "length larger than u16", from `short_vec::serialize`. -/
  | lengthLargerThanU16
  /-- "Invalid lockout offset": a slot past `u64::MAX`. -/
  | invalidLockoutOffset
  /-- The deserializer's own error: the bytes do not hold a `CompactVoteStateUpdate`. -/
  | malformed
deriving DecidableEq, Repr

/-- `LockoutOffset`: a lockout as its distance from the slot before it. -/
structure LockoutOffset where
  offset : Nat
  confirmationCount : UInt8
deriving DecidableEq, Repr

/-- `CompactVoteStateUpdate`: the root is `Slot::MAX` when there is none. -/
structure CompactVoteStateUpdate where
  root : Nat
  lockoutOffsets : List LockoutOffset
  hash : Hash
  timestamp : Option Int
deriving DecidableEq, Repr

namespace Wire

/-- `LockoutOffset`: the offset as a `serde_varint`, then the count. -/
def lockoutOffset : Codec LockoutOffset :=
  map (pair (SerdeVarint.varint 64 (by decide)) byte) (fun fields => ⟨fields.1, fields.2⟩)
    (fun o => (o.offset, o.confirmationCount)) (fun _ => rfl) (fun _ => rfl)

/-- `Option<UnixTimestamp>`: a tag byte, then the `i64`. -/
def optionUnixTimestamp : Codec (Option Int) :=
  map (sum (uintLE 1) unit (intLE 8 (by decide)))
    (fun | .inl () => none | .inr t => some t)
    (fun | none => .inl () | some t => .inr t)
    (fun | .inl () => rfl | .inr _ => rfl) (fun | none => rfl | some _ => rfl)

def compactVoteStateUpdate : Codec CompactVoteStateUpdate :=
  map (pair (uintLE 8) (pair (shortVec lockoutOffset) (pair PutValidator.Wire.hash
      optionUnixTimestamp)))
    (fun fields => ⟨fields.1, fields.2.1, fields.2.2.1, fields.2.2.2⟩)
    (fun c => (c.root, c.lockoutOffsets, c.hash, c.timestamp)) (fun _ => rfl) (fun _ => rfl)

/-- The layout holds the updates whose integers fit their Rust types and whose list fits a
`ShortU16`. -/
theorem compactVoteStateUpdate_canonical {c : CompactVoteStateUpdate} :
    compactVoteStateUpdate.Canonical c ↔
      c.root < 2 ^ 64 ∧ c.lockoutOffsets.length < 2 ^ 16 ∧
        (∀ o ∈ c.lockoutOffsets, o.offset < 2 ^ 64) ∧
          ∀ t ∈ c.timestamp, minSigned 64 ≤ t ∧ t ≤ maxSigned 64 := by
  rcases c with ⟨root, offsets, hash, _ | t⟩ <;>
    simp [compactVoteStateUpdate, optionUnixTimestamp, lockoutOffset, PutValidator.Wire.hash,
      shortVec, prefixed, shortU16, SerdeVarint.varint, intLE, map, sum, pair, uintLE, unit,
      fixed, byte, and_assoc]

end Wire

namespace VoteStateUpdate

/-- The integers fit their Rust types: slots and the root are `u64`, the timestamp an `i64`. -/
def Fits (update : VoteStateUpdate) : Prop :=
  (∀ lockout ∈ update.lockouts, lockout.slot ≤ slotMax) ∧ (∀ root ∈ update.root, root ≤ slotMax) ∧
    ∀ t ∈ update.timestamp, minSigned 64 ≤ t ∧ t ≤ maxSigned 64

/-- No lockout is below the slot before it, the first one below the root (`0` without one). -/
def SlotsClimb (update : VoteStateUpdate) : Prop :=
  (update.root.getD 0 :: update.lockouts.map Lockout.slot).IsChain (· ≤ ·)

instance : DecidablePred Fits := fun _ => by unfold Fits; infer_instance

instance : DecidablePred SlotsClimb := fun _ => by unfold SlotsClimb; infer_instance

/-- Slots that do not decrease and none of which is below the root climb from the root. -/
theorem slotsClimb_of_isChain {update : VoteStateUpdate}
    (hChain : (update.lockouts.map Lockout.slot).IsChain (· ≤ ·))
    (hRoot : ∀ lockout ∈ update.lockouts, update.root.getD 0 ≤ lockout.slot) :
    update.SlotsClimb := by
  unfold SlotsClimb
  cases hLockouts : update.lockouts with
  | nil => exact List.IsChain.singleton _
  | cons first rest =>
      rw [hLockouts] at hChain hRoot
      exact List.isChain_cons_cons.mpr ⟨hRoot first List.mem_cons_self, hChain⟩

end VoteStateUpdate

namespace SerdeCompactVoteStateUpdate

/-- The `scan` of `serialize` from `slot`: each lockout's distance from the slot before it; the
first lockout that does not fit ends the `collect` with its error. -/
def lockoutOffsets (slot : Nat) : List Lockout → Except CompactError (List LockoutOffset)
  | [] => .ok []
  | lockout :: rest => do
      let offset ← okOr (checkedSub lockout.slot slot) .invalidVoteLockout
      -- `u8::try_from`
      failIf (maxValue 8 < lockout.confirmationCount) .invalidConfirmationCount
      let offsets ← lockoutOffsets lockout.slot rest
      pure (⟨offset, lockout.confirmationCount.toUInt8⟩ :: offsets)

/-- `serde_compact_vote_state_update::serialize` into bincode. -/
def serialize (voteStateUpdate : VoteStateUpdate) : Except CompactError (List UInt8) := do
  let offsets ← lockoutOffsets (voteStateUpdate.root.getD 0) voteStateUpdate.lockouts
  -- the length check of `short_vec::serialize`
  failIf (maxValue 16 < offsets.length) .lengthLargerThanU16
  pure (Wire.compactVoteStateUpdate.encode
    ⟨voteStateUpdate.root.getD slotMax, offsets, voteStateUpdate.hash, voteStateUpdate.timestamp⟩)

/-- The `scan` of `deserialize` from `slot`: each offset added to the slot before it. -/
def lockouts (slot : Nat) : List LockoutOffset → Except CompactError (List Lockout)
  | [] => .ok []
  | lockoutOffset :: rest => do
      let slot ← okOr (checkedAdd 64 slot lockoutOffset.offset) .invalidLockoutOffset
      let lockouts ← lockouts slot rest
      pure (⟨slot, lockoutOffset.confirmationCount.toNat⟩ :: lockouts)

/-- `serde_compact_vote_state_update::deserialize` from bincode; the bytes after the update are
left to the caller. -/
def deserialize (bytes : List UInt8) : Except CompactError VoteStateUpdate := do
  let some (compact, _) := Wire.compactVoteStateUpdate.decode bytes | throw .malformed
  let root := if compact.root ≠ slotMax then some compact.root else none
  let lockouts ← lockouts (root.getD 0) compact.lockoutOffsets
  pure ⟨lockouts, root, compact.hash, compact.timestamp⟩

/-! ### The two scans -/

section Scans

variable {slot : Nat}

/-- One lockout through the scan of `serialize`. -/
theorem lockoutOffsets_cons_eq_ok {lockout : Lockout} {rest : List Lockout}
    {offsets : List LockoutOffset} :
    lockoutOffsets slot (lockout :: rest) = .ok offsets ↔
      slot ≤ lockout.slot ∧ lockout.confirmationCount ≤ maxValue 8 ∧
        ∃ tail, lockoutOffsets lockout.slot rest = .ok tail ∧
          offsets = ⟨lockout.slot - slot, lockout.confirmationCount.toUInt8⟩ :: tail := by
  simp only [lockoutOffsets, bind_eq_ok, okOr_eq_ok, checkedSub_eq_some, failIf_eq_ok,
    pure_eq_ok, not_lt]
  constructor
  · rintro ⟨_, ⟨hSlot, rfl⟩, _, hCount, tail, hTail, rfl⟩
    exact ⟨hSlot, hCount, tail, hTail, rfl⟩
  · rintro ⟨hSlot, hCount, tail, hTail, rfl⟩
    exact ⟨_, ⟨hSlot, rfl⟩, (), hCount, tail, hTail, rfl⟩

/-- One offset through the scan of `deserialize`. -/
theorem lockouts_cons_eq_ok {lockoutOffset : LockoutOffset} {rest : List LockoutOffset}
    {ls : List Lockout} :
    lockouts slot (lockoutOffset :: rest) = .ok ls ↔
      slot + lockoutOffset.offset ≤ maxValue 64 ∧
        ∃ tail, lockouts (slot + lockoutOffset.offset) rest = .ok tail ∧
          ls = ⟨slot + lockoutOffset.offset, lockoutOffset.confirmationCount.toNat⟩ :: tail := by
  simp only [lockouts, bind_eq_ok, okOr_eq_ok, checkedAdd_eq_some, pure_eq_ok]
  constructor
  · rintro ⟨_, ⟨hFits, rfl⟩, tail, hTail, rfl⟩
    exact ⟨hFits, tail, hTail, rfl⟩
  · rintro ⟨hFits, tail, hTail, rfl⟩
    exact ⟨_, ⟨hFits, rfl⟩, tail, hTail, rfl⟩

/-- The scan of `serialize` succeeds exactly on lockouts that climb from `slot` with counts
that fit a `u8`. -/
theorem lockoutOffsets_isOk_iff {ls : List Lockout} :
    (∃ offsets, lockoutOffsets slot ls = .ok offsets) ↔
      (slot :: ls.map Lockout.slot).IsChain (· ≤ ·) ∧
        ∀ lockout ∈ ls, lockout.confirmationCount ≤ maxValue 8 := by
  induction ls generalizing slot with
  | nil => simp [lockoutOffsets]
  | cons lockout rest ih =>
      simp only [lockoutOffsets_cons_eq_ok, List.map_cons, List.isChain_cons_cons,
        List.forall_mem_cons]
      constructor
      · rintro ⟨_, hSlot, hCount, tail, hTail, -⟩
        obtain ⟨hChain, hCounts⟩ := ih.mp ⟨tail, hTail⟩
        exact ⟨⟨hSlot, hChain⟩, hCount, hCounts⟩
      · rintro ⟨⟨hSlot, hChain⟩, hCount, hCounts⟩
        obtain ⟨tail, hTail⟩ := ih.mpr ⟨hChain, hCounts⟩
        exact ⟨_, hSlot, hCount, tail, hTail, rfl⟩

theorem length_of_lockoutOffsets_eq_ok {ls : List Lockout} {offsets : List LockoutOffset}
    (h : lockoutOffsets slot ls = .ok offsets) : offsets.length = ls.length := by
  induction ls generalizing slot offsets with
  | nil =>
      cases h
      rfl
  | cons lockout rest ih =>
      obtain ⟨-, -, tail, hTail, rfl⟩ := lockoutOffsets_cons_eq_ok.mp h
      simp [ih hTail]

/-- An offset is at most the slot it leads to. -/
theorem offset_le_of_lockoutOffsets_eq_ok {ls : List Lockout} {offsets : List LockoutOffset}
    (h : lockoutOffsets slot ls = .ok offsets) (hSlots : ∀ lockout ∈ ls, lockout.slot ≤ slotMax) :
    ∀ o ∈ offsets, o.offset ≤ slotMax := by
  induction ls generalizing slot offsets with
  | nil =>
      cases h
      simp
  | cons lockout rest ih =>
      obtain ⟨-, -, tail, hTail, rfl⟩ := lockoutOffsets_cons_eq_ok.mp h
      have hFirst := hSlots lockout List.mem_cons_self
      simp only [List.forall_mem_cons] at hSlots ⊢
      exact ⟨Nat.le_trans (Nat.sub_le _ _) hFirst, ih hTail hSlots.2⟩

/-- On `u64` slots the scan of `deserialize` from `slot - d` undoes the scan of `serialize`
from `slot`, up to moving every slot down by `d`. -/
theorem lockouts_of_lockoutOffsets_eq_ok_sub {ls : List Lockout} {offsets : List LockoutOffset}
    (h : lockoutOffsets slot ls = .ok offsets) (hSlots : ∀ lockout ∈ ls, lockout.slot ≤ slotMax)
    {d : Nat} (hd : d ≤ slot) :
    lockouts (slot - d) offsets = .ok (ls.map fun lockout => { lockout with slot := lockout.slot - d }) := by
  induction ls generalizing slot offsets with
  | nil =>
      cases h
      rfl
  | cons lockout rest ih =>
      obtain ⟨hSlot, hCount, tail, hTail, rfl⟩ := lockoutOffsets_cons_eq_ok.mp h
      simp only [List.forall_mem_cons] at hSlots
      have hSum : slot - d + (lockout.slot - slot) = lockout.slot - d := by omega
      have hCount' : lockout.confirmationCount.toUInt8.toNat = lockout.confirmationCount := by
        simp only [maxValue] at hCount
        simp
        omega
      rw [lockouts_cons_eq_ok, hSum, hCount']
      exact ⟨by unfold slotMax at hSlots; omega, _, ih hTail hSlots.2 (by omega), rfl⟩

/-- On `u64` slots the scan of `deserialize` undoes the scan of `serialize`. -/
theorem lockouts_of_lockoutOffsets_eq_ok {ls : List Lockout} {offsets : List LockoutOffset}
    (h : lockoutOffsets slot ls = .ok offsets) (hSlots : ∀ lockout ∈ ls, lockout.slot ≤ slotMax) :
    lockouts slot offsets = .ok ls := by
  simpa using lockouts_of_lockoutOffsets_eq_ok_sub h hSlots (Nat.zero_le slot)

/-- Conversely, what the scan of `deserialize` reads is on `u64` slots and the scan of
`serialize` gives the offsets back. -/
theorem lockoutOffsets_of_lockouts_eq_ok {offsets : List LockoutOffset} {ls : List Lockout}
    (h : lockouts slot offsets = .ok ls) :
    lockoutOffsets slot ls = .ok offsets ∧ ∀ lockout ∈ ls, lockout.slot ≤ slotMax := by
  induction offsets generalizing slot ls with
  | nil =>
      cases h
      exact ⟨rfl, by simp⟩
  | cons o rest ih =>
      obtain ⟨hFits, tail, hTail, rfl⟩ := lockouts_cons_eq_ok.mp h
      obtain ⟨hOffsets, hSlots⟩ := ih hTail
      have hCount : o.confirmationCount.toNat ≤ maxValue 8 := by
        have := o.confirmationCount.toNat_lt
        simp only [maxValue]
        omega
      refine ⟨lockoutOffsets_cons_eq_ok.mpr ⟨Nat.le_add_right _ _, hCount, rest, hOffsets, ?_⟩, ?_⟩
      · simp only [Nat.add_sub_cancel_left, UInt8.ofNat_toNat]
      · simpa only [List.forall_mem_cons] using ⟨hFits, hSlots⟩

end Scans

/-! ### The root -/

section Root

variable {root : Nat}

/-- `unwrap_or(Slot::MAX)` gives back the word that `deserialize` reads the root from. -/
theorem getD_readRoot : (if root ≠ slotMax then some root else none).getD slotMax = root := by
  split <;> simp_all

theorem readRoot_ne_slotMax : (if root ≠ slotMax then some root else none) ≠ some slotMax := by
  split <;> simp_all

/-- Any root other than `Slot::MAX` is read back from its word. -/
theorem readRoot_getD {r : Option Nat} (h : r ≠ some slotMax) :
    (if r.getD slotMax ≠ slotMax then some (r.getD slotMax) else none) = r := by
  cases r with
  | none => simp
  | some r => simp_all

end Root

/-! ### `serialize` and `deserialize` -/

section Serde

variable {update : VoteStateUpdate} {bytes : List UInt8}

/-- What `serialize` writes: the compact form of the update, once both checks pass. -/
theorem serialize_eq_ok :
    serialize update = .ok bytes ↔
      ∃ offsets, lockoutOffsets (update.root.getD 0) update.lockouts = .ok offsets ∧
        offsets.length ≤ maxValue 16 ∧
          bytes = Wire.compactVoteStateUpdate.encode
            ⟨update.root.getD slotMax, offsets, update.hash, update.timestamp⟩ := by
  simp only [serialize, bind_eq_ok, failIf_eq_ok, pure_eq_ok, not_lt]
  constructor
  · rintro ⟨offsets, hOffsets, _, hLength, rfl⟩
    exact ⟨offsets, hOffsets, hLength, rfl⟩
  · rintro ⟨offsets, hOffsets, hLength, rfl⟩
    exact ⟨offsets, hOffsets, (), hLength, rfl⟩

/-- `serialize` succeeds exactly on updates whose lockouts climb from the root, whose counts
fit a `u8` and whose list fits a `ShortU16`. -/
theorem serialize_isOk_iff :
    (∃ bytes, serialize update = .ok bytes) ↔
      update.SlotsClimb ∧ (∀ lockout ∈ update.lockouts, lockout.confirmationCount ≤ maxValue 8) ∧
        update.lockouts.length ≤ maxValue 16 := by
  simp only [serialize_eq_ok]
  constructor
  · rintro ⟨_, offsets, hOffsets, hLength, -⟩
    obtain ⟨hClimb, hCounts⟩ := lockoutOffsets_isOk_iff.mp ⟨offsets, hOffsets⟩
    exact ⟨hClimb, hCounts, length_of_lockoutOffsets_eq_ok hOffsets ▸ hLength⟩
  · rintro ⟨hClimb, hCounts, hLength⟩
    obtain ⟨offsets, hOffsets⟩ := lockoutOffsets_isOk_iff.mpr ⟨hClimb, hCounts⟩
    exact ⟨_, offsets, hOffsets, (length_of_lockoutOffsets_eq_ok hOffsets).symm ▸ hLength, rfl⟩

/-- An update that `serialize` accepts, on `u64` slots and with a root other than `Slot::MAX`,
is read back by `deserialize`, whatever bytes follow it. -/
theorem deserialize_serialize (h : serialize update = .ok bytes) (hFits : update.Fits)
    (hRoot : update.root ≠ some slotMax) (rest : List UInt8) :
    deserialize (bytes ++ rest) = .ok update := by
  obtain ⟨offsets, hOffsets, hLength, rfl⟩ := serialize_eq_ok.mp h
  obtain ⟨hSlots, hRootFits, hTimestamp⟩ := hFits
  have hWord : ∀ n ≤ slotMax, n < 2 ^ 64 := fun n hn => by
    unfold slotMax maxValue at hn
    omega
  have hCanonical : Wire.compactVoteStateUpdate.Canonical
      ⟨update.root.getD slotMax, offsets, update.hash, update.timestamp⟩ := by
    refine Wire.compactVoteStateUpdate_canonical.mpr ⟨?_, ?_, ?_, hTimestamp⟩
    · cases hr : update.root with
      | none => exact hWord _ le_rfl
      | some r => exact hWord _ (hRootFits r hr)
    · show offsets.length < 2 ^ 16
      simp only [maxValue] at hLength
      omega
    · exact fun o ho => hWord _ (offset_le_of_lockoutOffsets_eq_ok hOffsets hSlots o ho)
  simp only [deserialize, Wire.compactVoteStateUpdate.decode_encode _ rest hCanonical,
    readRoot_getD hRoot, lockouts_of_lockoutOffsets_eq_ok hOffsets hSlots]
  rfl

/-- Whatever `deserialize` reads is an update on `u64` slots with a root other than
`Slot::MAX`, and the bytes it read are what `serialize` writes for that update. -/
theorem serialize_of_deserialize (h : deserialize bytes = .ok update) :
    update.Fits ∧ update.root ≠ some slotMax ∧
      ∃ encoded rest, serialize update = .ok encoded ∧ bytes = encoded ++ rest := by
  unfold deserialize at h
  cases hDecode : Wire.compactVoteStateUpdate.decode bytes with
  | none => simp [hDecode] at h
  | some read =>
      obtain ⟨compact, rest⟩ := read
      obtain ⟨hCanonical, rfl⟩ := Wire.compactVoteStateUpdate.decode_sound hDecode
      obtain ⟨hRootWord, hLength, -, hTimestamp⟩ :=
        Wire.compactVoteStateUpdate_canonical.mp hCanonical
      simp only [hDecode, bind_eq_ok, pure_eq_ok] at h
      obtain ⟨ls, hLockouts, rfl⟩ := h
      obtain ⟨hOffsets, hSlots⟩ := lockoutOffsets_of_lockouts_eq_ok hLockouts
      refine ⟨⟨hSlots, ?_, hTimestamp⟩, readRoot_ne_slotMax, _, rest,
        serialize_eq_ok.mpr ⟨compact.lockoutOffsets, hOffsets, ?_, rfl⟩, ?_⟩
      · intro r hr
        have hr' : compact.root = r := by
          split at hr <;> simp_all
        unfold slotMax maxValue
        omega
      · simp only [maxValue]
        omega
      · simp only [getD_readRoot]

theorem serialize_of_deserialize_climbing :
    deserialize (Wire.compactVoteStateUpdate.encode
        ⟨5, [⟨2, 31⟩, ⟨0, 2⟩, ⟨293, 1⟩], ⟨Vector.replicate 32 0⟩, some (-2)⟩) =
      .ok ⟨[⟨7, 31⟩, ⟨7, 2⟩, ⟨300, 1⟩], some 5, ⟨Vector.replicate 32 0⟩, some (-2)⟩ ∧
    VoteStateUpdate.Fits ⟨[⟨7, 31⟩, ⟨7, 2⟩, ⟨300, 1⟩], some 5, ⟨Vector.replicate 32 0⟩, some (-2)⟩ :=
  (fun h => ⟨h, (serialize_of_deserialize h).1⟩) (by decide)

/-- A root of `Slot::MAX` passes `serialize` but is written as the word for none, and every
lockout, on slot `Slot::MAX` too, as offset `0`: `deserialize` reads the update back without a
root and with every lockout on slot `0`. -/
theorem deserialize_serialize_of_root_eq_slotMax (h : serialize update = .ok bytes)
    (hFits : update.Fits) (hRoot : update.root = some slotMax) (rest : List UInt8) :
    deserialize (bytes ++ rest) =
      .ok ⟨update.lockouts.map fun lockout => { lockout with slot := 0 }, none, update.hash,
        update.timestamp⟩ := by
  obtain ⟨offsets, hOffsets, hLength, rfl⟩ := serialize_eq_ok.mp h
  obtain ⟨hSlots, -, hTimestamp⟩ := hFits
  simp only [hRoot, Option.getD_some] at hOffsets ⊢
  have hCanonical : Wire.compactVoteStateUpdate.Canonical
      ⟨slotMax, offsets, update.hash, update.timestamp⟩ := by
    refine Wire.compactVoteStateUpdate_canonical.mpr ⟨show slotMax < 2 ^ 64 by decide, ?_, ?_,
      hTimestamp⟩
    · show offsets.length < 2 ^ 16
      simp only [maxValue] at hLength
      omega
    · intro o ho
      have := offset_le_of_lockoutOffsets_eq_ok hOffsets hSlots o ho
      unfold slotMax maxValue at this
      omega
  have hLockouts := lockouts_of_lockoutOffsets_eq_ok_sub hOffsets hSlots (le_refl slotMax)
  -- every lockout is at `Slot::MAX`, so moving it down by `Slot::MAX` puts it on slot `0`
  have hZero : ∀ lockout ∈ update.lockouts, lockout.slot - slotMax = 0 :=
    fun lockout hl => Nat.sub_eq_zero_of_le (hSlots lockout hl)
  rw [Nat.sub_self, List.map_congr_left (fun lockout hl => by rw [hZero lockout hl])] at hLockouts
  simp only [deserialize, Wire.compactVoteStateUpdate.decode_encode _ rest hCanonical,
    ne_eq, not_true_eq_false, if_false, Option.getD_none, hLockouts]
  rfl

theorem deserialize_serialize_of_root_eq_slotMax_two_lockouts :
    deserialize (Wire.compactVoteStateUpdate.encode
        ⟨slotMax, [⟨0, 31⟩, ⟨0, 2⟩], ⟨Vector.replicate 32 0⟩, some 3⟩ ++ [7]) =
      .ok ⟨[⟨0, 31⟩, ⟨0, 2⟩], none, ⟨Vector.replicate 32 0⟩, some 3⟩ :=
  deserialize_serialize_of_root_eq_slotMax
    (show serialize ⟨[⟨slotMax, 31⟩, ⟨slotMax, 2⟩], some slotMax, ⟨Vector.replicate 32 0⟩, some 3⟩ =
      .ok _ from rfl) (by decide) rfl [7]

end Serde

/-- The compact encoding round-trips every update on `u64` slots whose lockout slots do not
decrease, none below the root, whose counts fit a `u8`, whose list fits a `ShortU16` and whose
root is not `Slot::MAX`; and `serialize` fails exactly when a lockout is below the slot before
it, a count is past `u8::MAX`, or there are more than `u16::MAX` lockouts. -/
theorem serde_compact_vote_state_update_round_trip :
    (∀ update : VoteStateUpdate, update.Fits → update.root ≠ some slotMax →
      (update.lockouts.map Lockout.slot).IsChain (· ≤ ·) →
      (∀ lockout ∈ update.lockouts, update.root.getD 0 ≤ lockout.slot) →
      (∀ lockout ∈ update.lockouts, lockout.confirmationCount ≤ maxValue 8) →
      update.lockouts.length ≤ maxValue 16 →
      ∃ bytes, serialize update = .ok bytes ∧ ∀ rest, deserialize (bytes ++ rest) = .ok update) ∧
    ∀ update : VoteStateUpdate, (∃ e, serialize update = .error e) ↔
      ¬update.SlotsClimb ∨
        (∃ lockout ∈ update.lockouts, maxValue 8 < lockout.confirmationCount) ∨
          maxValue 16 < update.lockouts.length := by
  refine ⟨fun update hFits hRoot hChain hAbove hCounts hLength => ?_, fun update => ?_⟩
  · obtain ⟨bytes, hBytes⟩ := serialize_isOk_iff.mpr
      ⟨VoteStateUpdate.slotsClimb_of_isChain hChain hAbove, hCounts, hLength⟩
    exact ⟨bytes, hBytes, deserialize_serialize hBytes hFits hRoot⟩
  · -- `serialize` either fails or writes bytes, and `serialize_isOk_iff` says when it writes
    have hError : (∃ e, serialize update = .error e) ↔ ¬∃ bytes, serialize update = .ok bytes := by
      cases serialize update <;> simp
    rw [hError, serialize_isOk_iff]
    simp only [not_and_or, not_forall, not_le, exists_prop]

/-- A climbing tower of three lockouts above root `5`, with a negative timestamp. -/
def climbingUpdate : VoteStateUpdate :=
  ⟨[⟨7, 31⟩, ⟨7, 2⟩, ⟨300, 1⟩], some 5, ⟨Vector.replicate 32 0⟩, some (-2)⟩

theorem serde_compact_vote_state_update_round_trip_climbing :
    ∃ bytes, serialize climbingUpdate = .ok bytes ∧
      ∀ rest, deserialize (bytes ++ rest) = .ok climbingUpdate :=
  serde_compact_vote_state_update_round_trip.1 climbingUpdate (by decide) (by decide) (by decide)
    (by decide) (by decide) (by decide)

/-- `u16::MAX + 1` lockouts on slot `0`, each confirmed once, without a root. -/
def longUpdate : VoteStateUpdate :=
  ⟨List.replicate (maxValue 16 + 1) ⟨0, 1⟩, none, ⟨Vector.replicate 32 0⟩, none⟩

/-- `longUpdate` climbs and its counts fit a `u8`, yet `serialize` refuses it in
`short_vec::serialize`. -/
theorem serialize_refuses_climbing_long_update :
    longUpdate.SlotsClimb ∧
      (∀ lockout ∈ longUpdate.lockouts, lockout.confirmationCount ≤ maxValue 8) ∧
        serialize longUpdate = .error .lengthLargerThanU16 := by
  have hClimb : longUpdate.SlotsClimb := by
    show (0 :: (List.replicate (maxValue 16 + 1) (⟨0, 1⟩ : Lockout)).map Lockout.slot).IsChain _
    rw [List.map_replicate, ← List.replicate_succ]
    exact List.isChain_iff_pairwise.mpr (List.pairwise_replicate.mpr (Or.inr le_rfl))
  have hCounts : ∀ lockout ∈ longUpdate.lockouts, lockout.confirmationCount ≤ maxValue 8 := by
    intro lockout hl
    rw [(List.mem_replicate.mp hl).2]
    decide
  obtain ⟨offsets, hOffsets⟩ := lockoutOffsets_isOk_iff.mpr ⟨hClimb, hCounts⟩
  have hLength : offsets.length = maxValue 16 + 1 := by
    rw [length_of_lockoutOffsets_eq_ok hOffsets]
    exact List.length_replicate
  refine ⟨hClimb, hCounts, ?_⟩
  simp only [serialize, hOffsets, bind_ok, hLength, failIf_of_cond _ (Nat.lt_succ_self _),
    bind_error]

end SerdeCompactVoteStateUpdate

end PutValidator.Vote
