import PutValidator.Sdk.Primitives
import PutValidator.Lib.Word

/-! The Proof-of-History generator (`entry/src/poh.rs`). A `Poh` hashes its hash over and
over; `hash` advances it by up to a given number of hashes, `record` mixes a hash in and makes
an entry, and `tick` makes an entry once the tick's hashes are used up, or at every tick in low
power mode. An assertion that fails, or a `u64` subtraction that underflows, is `none`. What a
run of calls produces is said by `Generates`: the hashes left in the tick, how the current hash
comes from the last entry's, and that every entry is linked to the one before it. The clock of
`slot_start_time` is not modelled; nothing here reads it. -/
namespace PutValidator

/-- `LOW_POWER_MODE`: `u64::MAX` hashes per tick, so that every tick makes an entry. -/
def lowPowerMode : Nat := Lib.Word.maxValue 64

/-- `hash(h.as_ref())`: one SHA-256 of a hash. -/
def Hash.rehash (sha256 : List UInt8 → Hash) (h : Hash) : Hash := sha256 h.bytes.toList

/-- `hashv(&[h.as_ref(), mixin.as_ref()])`: the SHA-256 of a hash followed by a mixin. -/
def Hash.mixIn (sha256 : List UInt8 → Hash) (h mixin : Hash) : Hash :=
  sha256 (h.bytes.toList ++ mixin.bytes.toList)

structure Poh where
  hash : Hash
  numHashes : Nat
  hashesPerTick : Nat
  remainingHashes : Nat
  tickNumber : Nat
deriving DecidableEq, Repr

structure PohEntry where
  numHashes : Nat
  hash : Hash
deriving DecidableEq, Repr

namespace Poh

variable (sha256 : List UInt8 → Hash)

/-- `Poh::new_with_slot_info`; `none` where `hashes_per_tick > 1` fails. -/
def newWithSlotInfo (hash : Hash) (hashesPerTick : Option UInt64) (tickNumber : Nat) :
    Option Poh :=
  let hashesPerTick := (hashesPerTick.map UInt64.toNat).getD lowPowerMode
  if 1 < hashesPerTick then some ⟨hash, 0, hashesPerTick, hashesPerTick, tickNumber⟩ else none

def new (hash : Hash) (hashesPerTick : Option UInt64) : Option Poh :=
  newWithSlotInfo hash hashesPerTick 0

/-- `Poh::hash`, named apart from the field: up to `maxNumHashes` hashes, one short of the
tick; whether the caller must tick next. -/
def hashMax (p : Poh) (maxNumHashes : Nat) : Option (Bool × Poh) := do
  -- `remaining_hashes - 1` underflows
  guard (p.remainingHashes ≠ 0)
  let numHashes := min (p.remainingHashes - 1) maxNumHashes
  let p := { p with
    hash := (Hash.rehash sha256)^[numHashes] p.hash
    numHashes := p.numHashes + numHashes
    remainingHashes := p.remainingHashes - numHashes }
  guard (0 < p.remainingHashes)
  pure (p.remainingHashes == 1, p)

/-- `Poh::record`: no entry while the tick is due. -/
def record (p : Poh) (mixin : Hash) : Option (Option PohEntry × Poh) := do
  if p.remainingHashes = 1 then return (none, p)
  -- `remaining_hashes -= 1` underflows
  guard (p.remainingHashes ≠ 0)
  let hash := Hash.mixIn sha256 p.hash mixin
  pure (some ⟨p.numHashes + 1, hash⟩,
    { p with hash, numHashes := 0, remainingHashes := p.remainingHashes - 1 })

def tick (p : Poh) : Option (Option PohEntry × Poh) := do
  -- `remaining_hashes -= 1` underflows
  guard (p.remainingHashes ≠ 0)
  let p := { p with
    hash := Hash.rehash sha256 p.hash
    numHashes := p.numHashes + 1
    remainingHashes := p.remainingHashes - 1 }
  if p.hashesPerTick ≠ lowPowerMode ∧ p.remainingHashes ≠ 0 then return (none, p)
  pure (some ⟨p.numHashes, p.hash⟩,
    { p with remainingHashes := p.hashesPerTick, numHashes := 0, tickNumber := p.tickNumber + 1 })

end Poh

/-- A call on the generator. -/
inductive PohCall
  | hash (maxNumHashes : Nat)
  | record (mixin : Hash)
  | tick
deriving DecidableEq, Repr

namespace Poh

variable (sha256 : List UInt8 → Hash)

/-- One call, and the entry it produced with its mixin: `some` for a record, `none` for a
tick. -/
def step (p : Poh) : PohCall → Option (Option (PohEntry × Option Hash) × Poh)
  | .hash maxNumHashes => (p.hashMax sha256 maxNumHashes).map fun r => (none, r.2)
  | .record mixin => (p.record sha256 mixin).map fun r => (r.1.map (·, some mixin), r.2)
  | .tick => (p.tick sha256).map fun r => (r.1.map (·, none), r.2)

/-- The calls one after the other, and the entries they produced in order. -/
def run (p : Poh) : List PohCall → Option (List (PohEntry × Option Hash) × Poh)
  | [] => some ([], p)
  | call :: calls => do
      let (entry, p) ← p.step sha256 call
      let (entries, p) ← p.run calls
      pure (entry.toList ++ entries, p)

end Poh

/-! ### What the generator produced -/

section Produced

variable (sha256 : List UInt8 → Hash)

/-- The hash of the last entry, or the start where there is none. -/
def lastHash (start : Hash) (entries : List (PohEntry × Option Hash)) : Hash :=
  entries.foldl (fun _ entry => entry.1.hash) start

/-- An entry's link to the hash before it: a tick is that many hashes on, a record that many
less one and then its mixin, each within what `next_hash` recomputes in low power mode. -/
def EntryLinked (previous : Hash) (entry : PohEntry × Option Hash) : Prop :=
  1 ≤ entry.1.numHashes ∧
    match entry.2 with
    | none => entry.1.numHashes ≤ lowPowerMode ∧
        entry.1.hash = (Hash.rehash sha256)^[entry.1.numHashes] previous
    | some mixin => entry.1.numHashes < lowPowerMode ∧
        entry.1.hash = Hash.mixIn sha256 ((Hash.rehash sha256)^[entry.1.numHashes - 1] previous) mixin

/-- Every entry is linked to the one before it, the first to the start. -/
def Linked : Hash → List (PohEntry × Option Hash) → Prop
  | _, [] => True
  | previous, entry :: rest => EntryLinked sha256 previous entry ∧ Linked entry.1.hash rest

/-- The hashes of the entries since the last tick entry, one entry more. -/
def sinceTick (count : Nat) (entry : PohEntry × Option Hash) : Nat :=
  if entry.2.isSome then count + entry.1.numHashes else 0

def hashesSinceTick (entries : List (PohEntry × Option Hash)) : Nat :=
  entries.foldl sinceTick 0

/-- The count of hashes since the last tick, one entry more; `none` when a tick entry does not
close exactly `hashesPerTick` hashes. -/
def tickStep (hashesPerTick count : Nat) (entry : PohEntry × Option Hash) : Option Nat :=
  if entry.2.isSome then some (count + entry.1.numHashes)
  else if count + entry.1.numHashes = hashesPerTick then some 0 else none

def tickCounts (hashesPerTick : Nat) (entries : List (PohEntry × Option Hash)) : Option Nat :=
  entries.foldlM (tickStep hashesPerTick) 0

variable {sha256}

@[simp] theorem lastHash_append_singleton (start : Hash) (entries : List (PohEntry × Option Hash))
    (entry : PohEntry × Option Hash) : lastHash start (entries ++ [entry]) = entry.1.hash := by
  simp [lastHash]

@[simp] theorem lastHash_nil (start : Hash) : lastHash start [] = start := rfl

theorem lastHash_cons (start : Hash) (entry : PohEntry × Option Hash)
    (rest : List (PohEntry × Option Hash)) :
    lastHash start (entry :: rest) = lastHash entry.1.hash rest :=
  rfl

theorem linked_append {start : Hash} {entries : List (PohEntry × Option Hash)}
    {entry : PohEntry × Option Hash} :
    Linked sha256 start (entries ++ [entry]) ↔
      Linked sha256 start entries ∧ EntryLinked sha256 (lastHash start entries) entry := by
  induction entries generalizing start with
  | nil => simp [Linked]
  | cons head rest ih => simp only [List.cons_append, Linked, ih, lastHash_cons, and_assoc]

@[simp] theorem hashesSinceTick_append (entries : List (PohEntry × Option Hash))
    (entry : PohEntry × Option Hash) :
    hashesSinceTick (entries ++ [entry]) = sinceTick (hashesSinceTick entries) entry := by
  simp [hashesSinceTick]

@[simp] theorem tickCounts_append (hashesPerTick : Nat) (entries : List (PohEntry × Option Hash))
    (entry : PohEntry × Option Hash) :
    tickCounts hashesPerTick (entries ++ [entry]) =
      (tickCounts hashesPerTick entries).bind fun count => tickStep hashesPerTick count entry := by
  simp [tickCounts, List.foldlM_append]

end Produced

/-! ### The calls on a generator -/

namespace Poh

variable {sha256 : List UInt8 → Hash} {p : Poh}

theorem hashMax_eq (h : 1 ≤ p.remainingHashes) (maxNumHashes : Nat) :
    p.hashMax sha256 maxNumHashes = some
      (p.remainingHashes - min (p.remainingHashes - 1) maxNumHashes == 1,
        { p with
          hash := (Hash.rehash sha256)^[min (p.remainingHashes - 1) maxNumHashes] p.hash
          numHashes := p.numHashes + min (p.remainingHashes - 1) maxNumHashes
          remainingHashes := p.remainingHashes - min (p.remainingHashes - 1) maxNumHashes }) := by
  have hLeft : 0 < p.remainingHashes - min (p.remainingHashes - 1) maxNumHashes := by omega
  simp [hashMax, show p.remainingHashes ≠ 0 by omega, hLeft]

theorem record_of_due {mixin : Hash} (h : p.remainingHashes = 1) :
    p.record sha256 mixin = some (none, p) := by
  simp [record, h]

theorem record_eq {mixin : Hash} (h : 2 ≤ p.remainingHashes) :
    p.record sha256 mixin = some (some ⟨p.numHashes + 1, Hash.mixIn sha256 p.hash mixin⟩, { p with
      hash := Hash.mixIn sha256 p.hash mixin
      numHashes := 0
      remainingHashes := p.remainingHashes - 1 }) := by
  simp [record, show p.remainingHashes ≠ 1 by omega, show p.remainingHashes ≠ 0 by omega]

/-- A tick before the tick's last hash, outside low power mode, makes no entry. -/
theorem tick_of_early (h : 2 ≤ p.remainingHashes) (hPower : p.hashesPerTick ≠ lowPowerMode) :
    p.tick sha256 = some (none, { p with
      hash := Hash.rehash sha256 p.hash
      numHashes := p.numHashes + 1
      remainingHashes := p.remainingHashes - 1 }) := by
  simp [tick, show p.remainingHashes ≠ 0 by omega, show p.remainingHashes - 1 ≠ 0 by omega, hPower]

/-- A tick at the tick's last hash, or any tick in low power mode, makes an entry and starts
the next tick. -/
theorem tick_of_due (h : 1 ≤ p.remainingHashes)
    (hDue : p.hashesPerTick = lowPowerMode ∨ p.remainingHashes = 1) :
    p.tick sha256 = some (some ⟨p.numHashes + 1, Hash.rehash sha256 p.hash⟩, { p with
      hash := Hash.rehash sha256 p.hash
      numHashes := 0
      remainingHashes := p.hashesPerTick
      tickNumber := p.tickNumber + 1 }) := by
  have hNoEntry : ¬(p.hashesPerTick ≠ lowPowerMode ∧ p.remainingHashes - 1 ≠ 0) := by omega
  simp [tick, show p.remainingHashes ≠ 0 by omega, hNoEntry]

end Poh

/-! ### The invariant of a run -/

/-- What holds of a generator that produced `entries` from `start`: the hashes left in the tick
are at least one and, with the entries and hashes since the last tick, make up the tick; the
current hash is the last entry's hashed on; the entries are linked; and outside low power mode
every tick entry closes exactly one tick of hashes. -/
structure Generates (sha256 : List UInt8 → Hash) (start : Hash)
    (entries : List (PohEntry × Option Hash)) (p : Poh) : Prop where
  hashesPerTick_gt : 1 < p.hashesPerTick
  hashesPerTick_le : p.hashesPerTick ≤ lowPowerMode
  remaining_pos : 1 ≤ p.remainingHashes
  count : hashesSinceTick entries + p.numHashes + p.remainingHashes = p.hashesPerTick
  hash_eq : p.hash = (Hash.rehash sha256)^[p.numHashes] (lastHash start entries)
  linked : Linked sha256 start entries
  ticks : p.hashesPerTick ≠ lowPowerMode →
    tickCounts p.hashesPerTick entries = some (hashesSinceTick entries)

namespace Generates

variable {sha256 : List UInt8 → Hash} {start : Hash} {entries : List (PohEntry × Option Hash)}
  {p : Poh}

theorem remaining_le (h : Generates sha256 start entries p) :
    p.remainingHashes ≤ p.hashesPerTick := by
  have := h.count
  omega

/-- A new generator has produced nothing. -/
theorem new {hashesPerTick : Option UInt64} (hNew : Poh.new start hashesPerTick = some p) :
    Generates sha256 start [] p := by
  simp only [Poh.new, Poh.newWithSlotInfo] at hNew
  split at hNew
  · rename_i hGt
    cases hNew
    have hLe : (hashesPerTick.map UInt64.toNat).getD lowPowerMode ≤ lowPowerMode := by
      cases hashesPerTick with
      | none => exact le_rfl
      | some k =>
          have := k.toNat_lt
          simp only [Option.map_some, Option.getD_some, lowPowerMode, Lib.Word.maxValue]
          omega
    exact ⟨hGt, hLe, Nat.le_of_lt hGt, by simp [hashesSinceTick], rfl, trivial,
      fun _ => by simp [tickCounts, hashesSinceTick]⟩
  · cases hNew

/-- `hash` keeps the invariant and produces nothing. -/
theorem hashMax (h : Generates sha256 start entries p) (maxNumHashes : Nat) :
    ∃ due p', p.hashMax sha256 maxNumHashes = some (due, p') ∧
      p'.hashesPerTick = p.hashesPerTick ∧ Generates sha256 start entries p' := by
  have hPos := h.remaining_pos
  have hCount := h.count
  refine ⟨_, _, Poh.hashMax_eq hPos maxNumHashes, rfl, h.hashesPerTick_gt, h.hashesPerTick_le,
    by dsimp only; omega, by dsimp only; omega, ?_, h.linked, h.ticks⟩
  -- the new hashes continue those since the last entry
  dsimp only
  rw [Nat.add_comm, Function.iterate_add_apply, ← h.hash_eq]

/-- `record` keeps the invariant, and its entry is linked and counted. -/
theorem record (h : Generates sha256 start entries p) (mixin : Hash) :
    ∃ entry p', p.record sha256 mixin = some (entry, p') ∧ p'.hashesPerTick = p.hashesPerTick ∧
      Generates sha256 start (entries ++ (entry.map (·, some mixin)).toList) p' := by
  have hPos := h.remaining_pos
  have hCount := h.count
  have hLe := h.hashesPerTick_le
  by_cases hDue : p.remainingHashes = 1
  · exact ⟨none, p, Poh.record_of_due hDue, rfl, by simpa using h⟩
  · have hTwo : 2 ≤ p.remainingHashes := by omega
    refine ⟨_, _, Poh.record_eq hTwo, rfl, h.hashesPerTick_gt, h.hashesPerTick_le,
      by dsimp only; omega, ?_, by simp, ?_, fun hPower => ?_⟩
    · simp only [Option.map_some, Option.toList_some, hashesSinceTick_append, sinceTick,
        Option.isSome_some, if_true]
      omega
    · -- the record is the current hash, mixed
      simp only [Option.map_some, Option.toList_some]
      refine linked_append.mpr ⟨h.linked, by dsimp only; omega, by dsimp only; omega, ?_⟩
      simp [h.hash_eq]
    · simp [h.ticks hPower, tickStep, sinceTick]

/-- `tick` keeps the invariant, and its entry, if any, is linked and closes the tick. -/
theorem tick (h : Generates sha256 start entries p) :
    ∃ entry p', p.tick sha256 = some (entry, p') ∧ p'.hashesPerTick = p.hashesPerTick ∧
      Generates sha256 start (entries ++ (entry.map (·, none)).toList) p' := by
  have hPos := h.remaining_pos
  have hCount := h.count
  have hLe := h.hashesPerTick_le
  have hGt := h.hashesPerTick_gt
  by_cases hDue : p.hashesPerTick = lowPowerMode ∨ p.remainingHashes = 1
  · refine ⟨_, _, Poh.tick_of_due hPos hDue, rfl, hGt, hLe, by dsimp only; omega, ?_, by simp,
      ?_, fun hPower => ?_⟩
    · simp [sinceTick]
    · -- the tick entry is the current hash, hashed once more
      simp only [Option.map_some, Option.toList_some]
      refine linked_append.mpr ⟨h.linked, by dsimp only; omega, by dsimp only; omega, ?_⟩
      dsimp only
      rw [Function.iterate_succ_apply', ← h.hash_eq]
    · -- outside low power mode the tick is due: its hashes close the tick
      have hOne : p.remainingHashes = 1 := hDue.resolve_left hPower
      simp [h.ticks hPower, tickStep, sinceTick]
      omega
  · have hTwo : 2 ≤ p.remainingHashes := by omega
    have hPower : p.hashesPerTick ≠ lowPowerMode := fun hLow => hDue (.inl hLow)
    refine ⟨_, _, Poh.tick_of_early hTwo hPower, rfl, hGt, hLe, by dsimp only; omega,
      by simp only [Option.map_none, Option.toList_none, List.append_nil]; omega, ?_,
      by simpa using h.linked, fun _ => by simpa using h.ticks hPower⟩
    simp only [Option.map_none, Option.toList_none, List.append_nil]
    rw [Function.iterate_succ_apply', ← h.hash_eq]

/-- One call keeps the invariant. -/
theorem step (h : Generates sha256 start entries p) (call : PohCall) :
    ∃ entry p', p.step sha256 call = some (entry, p') ∧ p'.hashesPerTick = p.hashesPerTick ∧
      Generates sha256 start (entries ++ entry.toList) p' := by
  cases call with
  | hash maxNumHashes =>
      obtain ⟨due, p', hRun, hSame, h'⟩ := h.hashMax maxNumHashes
      exact ⟨none, p', by simp [Poh.step, hRun], hSame, by simpa using h'⟩
  | record mixin =>
      obtain ⟨entry, p', hRun, hSame, h'⟩ := h.record mixin
      exact ⟨_, p', by simp [Poh.step, hRun], hSame, h'⟩
  | tick =>
      obtain ⟨entry, p', hRun, hSame, h'⟩ := h.tick
      exact ⟨_, p', by simp [Poh.step, hRun], hSame, h'⟩

/-- A run of calls never fails and keeps the invariant: by induction on the calls, each through
`step`. -/
theorem run (h : Generates sha256 start entries p) (calls : List PohCall) :
    ∃ produced p', p.run sha256 calls = some (produced, p') ∧
      p'.hashesPerTick = p.hashesPerTick ∧ Generates sha256 start (entries ++ produced) p' := by
  induction calls generalizing entries p with
  | nil => exact ⟨[], p, rfl, rfl, by simpa using h⟩
  | cons call calls ih =>
      obtain ⟨entry, p₁, hStep, hSame₁, h₁⟩ := h.step call
      obtain ⟨produced, p', hRun, hSame, h'⟩ := ih h₁
      refine ⟨entry.toList ++ produced, p', by simp [Poh.run, hStep, hRun], hSame.trans hSame₁, ?_⟩
      simpa using h'

end Generates

end PutValidator
