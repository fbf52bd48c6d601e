import PutValidator.Entry.Poh
import PutValidator.Sdk.VersionedTransaction

/-! The entry verifier (`entry/src/entry.rs`): `next_hash` recomputes an entry's hash from the
hash before it with a `Poh` of its own in low power mode, `verify_cpu_generic` checks every entry
against the one before it, and `verify_tick_hash_count` checks that the ticks close exactly one
tick of hashes. The hash of an entry's transactions, the Merkle root of their signatures, is a
parameter. What the generator of `Poh` produces passes both checks: its entries are linked, by
`Generates`, in the very form `next_hash` recomputes. -/
namespace PutValidator

structure Entry where
  numHashes : Nat
  hash : Hash
  transactions : List VersionedTransaction

def Entry.isTick (entry : Entry) : Bool := entry.transactions.isEmpty

section Verify

variable (sha256 : List UInt8 → Hash) (hashTransactions : List VersionedTransaction → Hash)

/-- `next_hash`: the hash `numHashes` hashes after `startHash`, the last one mixing in the hash
of the transactions; `none` where an `unwrap` panics. -/
def nextHash (startHash : Hash) (numHashes : Nat) (transactions : List VersionedTransaction) :
    Option Hash := do
  if numHashes = 0 ∧ transactions.isEmpty = true then return startHash
  let poh ← Poh.new startHash none
  let (_, poh) ← poh.hashMax sha256 (numHashes - 1)
  if transactions.isEmpty then
    let (entry, _) ← poh.tick sha256
    let entry ← entry
    pure entry.hash
  else
    let (entry, _) ← poh.record sha256 (hashTransactions transactions)
    let entry ← entry
    pure entry.hash

/-- `Entry::verify`. -/
def Entry.verify (entry : Entry) (startHash : Hash) : Option Bool := do
  let refHash ← nextHash sha256 hashTransactions startHash entry.numHashes entry.transactions
  pure (entry.hash == refHash)

/-- `verify_cpu_generic`: every entry against the hash of the one before it, the first against
the start. The threads of the source are not modelled. -/
def verifyCpuGeneric (entries : List Entry) (startHash : Hash) : Option Bool :=
  (((⟨0, startHash, []⟩ : Entry) :: entries).zip entries).allM
    fun pair => pair.2.verify sha256 hashTransactions pair.1.hash

end Verify

/-- The loop of `verify_tick_hash_count` from the count `tickHashCount`: the result, and the
count it leaves. -/
def tickHashCountLoop (hashesPerTick : Nat) : Nat → List Entry → Bool × Nat
  | tickHashCount, [] => (decide (tickHashCount < hashesPerTick), tickHashCount)
  | tickHashCount, entry :: rest =>
      let tickHashCount := Lib.Word.saturatingAdd 64 tickHashCount entry.numHashes
      if entry.isTick then
        if tickHashCount ≠ hashesPerTick then (false, tickHashCount)
        else tickHashCountLoop hashesPerTick 0 rest
      else tickHashCountLoop hashesPerTick tickHashCount rest

/-- `verify_tick_hash_count`: the result, and the count it leaves in `tick_hash_count` for the
next slice. -/
def verifyTickHashCount (entries : List Entry) (tickHashCount hashesPerTick : Nat) : Bool × Nat :=
  if hashesPerTick = 0 then (true, tickHashCount)
  else tickHashCountLoop hashesPerTick tickHashCount entries

/-- A produced entry as an `Entry`: a record with transactions whose hash is its mixin, a tick
with none. -/
def Converts (hashTransactions : List VersionedTransaction → Hash)
    (produced : PohEntry × Option Hash) (entry : Entry) : Prop :=
  entry.numHashes = produced.1.numHashes ∧ entry.hash = produced.1.hash ∧
    match produced.2 with
    | some mixin => entry.transactions ≠ [] ∧ hashTransactions entry.transactions = mixin
    | none => entry.transactions = []

/-! ### `next_hash` on linked entries -/

section NextHash

variable {sha256 : List UInt8 → Hash} {hashTransactions : List VersionedTransaction → Hash}
  {startHash : Hash} {numHashes : Nat}

theorem Poh.new_none (hash : Hash) :
    Poh.new hash none = some ⟨hash, 0, lowPowerMode, lowPowerMode, 0⟩ := by
  simp [Poh.new, Poh.newWithSlotInfo, lowPowerMode, Lib.Word.maxValue]

/-- The low power `Poh` of `next_hash` after its first hashes. -/
theorem hashMax_new_none (hLe : numHashes ≤ lowPowerMode) :
    (Poh.mk startHash 0 lowPowerMode lowPowerMode 0).hashMax sha256 (numHashes - 1) =
      some (lowPowerMode - (numHashes - 1) == 1, ⟨(Hash.rehash sha256)^[numHashes - 1] startHash,
        numHashes - 1, lowPowerMode, lowPowerMode - (numHashes - 1), 0⟩) := by
  have hPos : 1 ≤ lowPowerMode := by simp only [lowPowerMode, Lib.Word.maxValue]; omega
  have hMin : min (lowPowerMode - 1) (numHashes - 1) = numHashes - 1 := by omega
  simp only [@Poh.hashMax_eq sha256 ⟨startHash, 0, lowPowerMode, lowPowerMode, 0⟩ hPos, hMin,
    Nat.zero_add]

/-- A tick entry is its hashes on from the previous hash. -/
theorem nextHash_tick (hPos : 1 ≤ numHashes) (hLe : numHashes ≤ lowPowerMode) :
    nextHash sha256 hashTransactions startHash numHashes [] =
      some ((Hash.rehash sha256)^[numHashes] startHash) := by
  have hTick := @Poh.tick_of_due sha256
    ⟨(Hash.rehash sha256)^[numHashes - 1] startHash, numHashes - 1, lowPowerMode,
      lowPowerMode - (numHashes - 1), 0⟩ (by dsimp only; omega) (.inl rfl)
  have hSucc : numHashes - 1 + 1 = numHashes := by omega
  simp only [nextHash, show numHashes ≠ 0 by omega, false_and, if_false, Poh.new_none,
    hashMax_new_none hLe, List.isEmpty_nil, if_true, hTick, Option.bind_eq_bind, Option.bind_some]
  rw [← Function.iterate_succ_apply' (Hash.rehash sha256), Nat.succ_eq_add_one, hSucc]
  rfl

/-- A record entry is its hashes less one on from the previous hash, then the mixin. -/
theorem nextHash_record {transactions : List VersionedTransaction} (hNonempty : transactions ≠ [])
    (hLt : numHashes < lowPowerMode) :
    nextHash sha256 hashTransactions startHash numHashes transactions =
      some (Hash.mixIn sha256 ((Hash.rehash sha256)^[numHashes - 1] startHash)
        (hashTransactions transactions)) := by
  have hRecord := @Poh.record_eq sha256
    ⟨(Hash.rehash sha256)^[numHashes - 1] startHash, numHashes - 1, lowPowerMode,
      lowPowerMode - (numHashes - 1), 0⟩ (hashTransactions transactions)
      (by have : 2 ≤ lowPowerMode := (by simp only [lowPowerMode, Lib.Word.maxValue]; omega)
          dsimp only; omega)
  have hFull : transactions.isEmpty = false := List.isEmpty_eq_false_iff.mpr hNonempty
  simp only [nextHash, hFull, Bool.false_eq_true, and_false, if_false, Poh.new_none,
    hashMax_new_none hLt.le, hRecord, Option.bind_eq_bind, Option.bind_some]
  rfl

/-- An entry converted from a linked produced entry passes `Entry::verify`. -/
theorem Entry.verify_of_linked {previous : Hash} {produced : PohEntry × Option Hash}
    {entry : Entry} (hLinked : EntryLinked sha256 previous produced)
    (hConverts : Converts hashTransactions produced entry) :
    entry.verify sha256 hashTransactions previous = some true := by
  obtain ⟨hNum, hHash, hKind⟩ := hConverts
  obtain ⟨hPos, hLink⟩ := hLinked
  rcases hMixin : produced.2 with _ | mixin
  · -- a tick
    rw [hMixin] at hKind hLink
    obtain ⟨hLe, hTickHash⟩ := hLink
    simp [Entry.verify, hKind, hNum, nextHash_tick hPos hLe, hHash, hTickHash]
  · -- a record
    rw [hMixin] at hKind hLink
    obtain ⟨hNonempty, hMixinHash⟩ := hKind
    obtain ⟨hLt, hRecordHash⟩ := hLink
    simp [Entry.verify, hNum, nextHash_record hNonempty hLt, hHash, hRecordHash, hMixinHash]

/-- Entries converted from linked produced entries pass the check of every entry against the
one before it: by induction on the entries, the one before being any entry with the previous
hash. -/
theorem allM_verify_of_linked {previous : Hash} {before : Entry} (hBefore : before.hash = previous)
    {produced : List (PohEntry × Option Hash)} {entries : List Entry}
    (hLinked : Linked sha256 previous produced)
    (hConverts : List.Forall₂ (Converts hashTransactions) produced entries) :
    ((before :: entries).zip entries).allM
      (fun pair => pair.2.verify sha256 hashTransactions pair.1.hash) = some true := by
  induction hConverts generalizing previous before with
  | nil => rfl
  | @cons p entry ps rest hEntry _ ih =>
      obtain ⟨hFirst, hRest⟩ := hLinked
      have hVerified := Entry.verify_of_linked hFirst hEntry
      rw [← hBefore] at hVerified
      simp only [List.zip_cons_cons, List.allM_cons, hVerified, Option.bind_eq_bind,
        Option.bind_some]
      exact ih hEntry.2.1 hRest

end NextHash

/-! ### The tick count -/

section TickCount

variable {hashesPerTick : Nat}

/-- While every tick entry closes the tick, the count before a slice that ends below the tick
is at most the tick. -/
theorem le_of_foldlM_tickStep {produced : List (PohEntry × Option Hash)} {count final : Nat}
    (h : produced.foldlM (tickStep hashesPerTick) count = some final)
    (hFinal : final < hashesPerTick) : count ≤ hashesPerTick := by
  induction produced generalizing count with
  | nil =>
      simp only [List.foldlM_nil] at h
      cases h
      omega
  | cons entry rest ih =>
      simp only [List.foldlM_cons] at h
      cases hStep : tickStep hashesPerTick count entry with
      | none => simp [hStep] at h
      | some next =>
          simp only [hStep, Option.bind_eq_bind, Option.bind_some] at h
          unfold tickStep at hStep
          split at hStep
          · cases hStep
            have := ih h
            omega
          · split at hStep
            · omega
            · cases hStep

/-- The loop of `verify_tick_hash_count` over converted entries follows the tick counts: by
induction on the entries, each step without saturation since the counts stay within the tick. -/
theorem tickHashCountLoop_eq {hashTransactions : List VersionedTransaction → Hash}
    (hFits : hashesPerTick ≤ Lib.Word.maxValue 64) {produced : List (PohEntry × Option Hash)}
    {entries : List Entry} (hConverts : List.Forall₂ (Converts hashTransactions) produced entries)
    {count final : Nat} (h : produced.foldlM (tickStep hashesPerTick) count = some final)
    (hFinal : final < hashesPerTick) :
    tickHashCountLoop hashesPerTick count entries = (true, final) := by
  induction hConverts generalizing count with
  | nil =>
      simp only [List.foldlM_nil, Option.pure_def, Option.some.injEq] at h
      subst h
      simp [tickHashCountLoop, hFinal]
  | @cons p entry ps rest hEntry _ ih =>
      obtain ⟨hNum, -, hKind⟩ := hEntry
      simp only [List.foldlM_cons] at h
      cases hStep : tickStep hashesPerTick count p with
      | none => simp [hStep] at h
      | some next =>
          simp only [hStep, Option.bind_eq_bind, Option.bind_some] at h
          have hNext := le_of_foldlM_tickStep h hFinal
          unfold tickStep at hStep
          rcases hMixin : p.2 with _ | mixin
          · -- a tick entry closes the tick exactly
            rw [hMixin] at hKind
            simp only [hMixin, Option.isSome_none, Bool.false_eq_true, if_false] at hStep
            split at hStep
            · rename_i hClose
              cases hStep
              have hNoSat : Lib.Word.saturatingAdd 64 count entry.numHashes = hashesPerTick := by
                simp only [Lib.Word.saturatingAdd, hNum]
                omega
              simp [tickHashCountLoop, Entry.isTick, hKind, hNoSat, ih h]
            · cases hStep
          · -- a record entry adds its hashes
            rw [hMixin] at hKind
            simp only [hMixin, Option.isSome_some, if_true, Option.some.injEq] at hStep
            subst hStep
            have hNoSat : Lib.Word.saturatingAdd 64 count entry.numHashes =
                count + p.1.numHashes := by
              simp only [Lib.Word.saturatingAdd, hNum]
              omega
            have hNotTick : entry.isTick = false := by
              simpa [Entry.isTick] using hKind.1
            simp [tickHashCountLoop, hNotTick, hNoSat, ih h]

end TickCount

/-! ### The generator and the verifier agree -/

/-- The Proof-of-History generator and the entry verifier agree. For every `Poh` made by
`Poh::new` (with a tick size above one, or in low power mode) and every sequence of calls: the
calls never panic, and the hashes left in the tick stay between one and the tick; the produced
entries, as `Entry`s, pass `verify_cpu_generic` from the start hash; and outside low power mode
they pass `verify_tick_hash_count` for the tick size. -/
theorem poh_entries_verify {sha256 : List UInt8 → Hash}
    {hashTransactions : List VersionedTransaction → Hash} {start : Hash}
    {hashesPerTick : Option UInt64} {p : Poh} (hNew : Poh.new start hashesPerTick = some p)
    (calls : List PohCall) :
    ∃ produced p', p.run sha256 calls = some (produced, p') ∧
      1 ≤ p'.remainingHashes ∧ p'.remainingHashes ≤ p.hashesPerTick ∧
      ∀ entries, List.Forall₂ (Converts hashTransactions) produced entries →
        verifyCpuGeneric sha256 hashTransactions entries start = some true ∧
        (p.hashesPerTick ≠ lowPowerMode →
          (verifyTickHashCount entries 0 p.hashesPerTick).1 = true) := by
  have hStart : Generates sha256 start [] p := Generates.new hNew
  obtain ⟨produced, p', hRun, hSame, hGenerates⟩ := hStart.run calls
  rw [List.nil_append] at hGenerates
  have hLe := hGenerates.remaining_le
  rw [hSame] at hLe
  refine ⟨produced, p', hRun, hGenerates.remaining_pos, hLe, fun entries hConverts =>
    ⟨allM_verify_of_linked rfl hGenerates.linked hConverts, fun hPower => ?_⟩⟩
  -- the hashes since the last tick stay below the tick
  have hTicks := hGenerates.ticks (hSame ▸ hPower)
  have hCount := hGenerates.count
  have hPos := hGenerates.remaining_pos
  have hFits := hGenerates.hashesPerTick_le
  have hGt := hStart.hashesPerTick_gt
  rw [hSame] at hTicks hCount hFits
  rw [verifyTickHashCount, if_neg (by omega),
    tickHashCountLoop_eq hFits hConverts hTicks (by omega)]

/-- A tick of two hashes, from the zero hash: a `hash` call, a record and two ticks. -/
theorem poh_entries_verify_two_hashes_per_tick :
    Poh.new ⟨Vector.replicate 32 0⟩ (some 2) = some ⟨⟨Vector.replicate 32 0⟩, 0, 2, 2, 0⟩ ∧
    ∃ produced p', (Poh.mk ⟨Vector.replicate 32 0⟩ 0 2 2 0).run (fun bytes => ⟨Vector.replicate 32
        bytes.length.toUInt8⟩) [.hash 5, .record ⟨Vector.replicate 32 1⟩, .tick, .tick] =
        some (produced, p') ∧
      1 ≤ p'.remainingHashes ∧ p'.remainingHashes ≤ 2 ∧
      ∀ entries, List.Forall₂ (Converts fun _ => ⟨Vector.replicate 32 1⟩) produced entries →
        verifyCpuGeneric (fun bytes => ⟨Vector.replicate 32 bytes.length.toUInt8⟩)
          (fun _ => ⟨Vector.replicate 32 1⟩) entries ⟨Vector.replicate 32 0⟩ = some true ∧
        ((2 : Nat) ≠ lowPowerMode → (verifyTickHashCount entries 0 2).1 = true) := by
  have hNew : Poh.new ⟨Vector.replicate 32 0⟩ (some 2) =
      some ⟨⟨Vector.replicate 32 0⟩, 0, 2, 2, 0⟩ := rfl
  exact ⟨hNew, poh_entries_verify hNew _⟩

end PutValidator
