import PutValidator.Lib.Codec
import PutValidator.Lib.Except
import PutValidator.Lib.KeyMap
import PutValidator.Lib.List
import PutValidator.Lib.Merkle
import PutValidator.Sdk.Primitives

/-! Duplicate-shred proofs in gossip (`gossip/src/duplicate_shred.rs`): `from_shred` cuts two
serialized shreds into chunks, `into_shreds` puts them back together and checks the shreds.
Parsing a shred and checking its signature are parameters.

A first chunk with an index past `num_chunks` makes `into_shreds` panic; sanitized chunks never
do, and the chunks of `from_shred` go back together into its two shreds. -/
namespace PutValidator

open Lib.Codec Lib.Except

def duplicateShredHeaderSize : Nat := 63

inductive ShredType
  | data
  | code
deriving DecidableEq, Repr

/-- The fields of a parsed shred that the proof reads. -/
structure Shred where
  payload : List UInt8
  slot : Nat
  index : Nat
  shredType : ShredType
deriving DecidableEq, Repr

structure DuplicateShred where
  «from» : Pubkey
  wallclock : Nat
  slot : Nat
  shredIndex : Nat
  shredType : ShredType
  numChunks : Nat
  chunkIndex : Nat
  chunk : List UInt8
deriving DecidableEq, Repr

/-- The errors of `duplicate_shred::Error` that these functions return; a shred that does not
parse is `InvalidShred` without the parser's own error. -/
inductive DuplicateShredError
  | dataChunkMismatch
  | invalidChunkIndex (chunkIndex numChunks : Nat)
  | invalidDuplicateShreds
  | invalidDuplicateSlotProof
  | invalidSignature
  | invalidSizeLimit
  | invalidShred
  | numChunksMismatch
  | missingDataChunk
  | serializationError
  | shredIndexMismatch
  | shredTypeMismatch
  | slotMismatch
  | tryFromIntError
  | unknownSlotLeader (slot : Nat)
deriving DecidableEq, Repr

structure DuplicateSlotProof where
  shred1 : List UInt8
  shred2 : List UInt8
deriving DecidableEq, Repr

/-- Bincode's layout of `DuplicateSlotProof`: each payload behind its length as a `u64`. -/
def duplicateSlotProof : Codec DuplicateSlotProof :=
  map (pair (prefixed (uintLE 8) byte) (prefixed (uintLE 8) byte)) (fun p => ⟨p.1, p.2⟩)
    (fun proof => (proof.shred1, proof.shred2)) (fun _ => rfl) (fun _ => rfl)

/-- `DuplicateShred::sanitize`, without the wallclock and key checks. -/
def DuplicateShred.sanitize (dup : DuplicateShred) : Bool := dup.chunkIndex < dup.numChunks

section Proofs

variable (newFromSerializedShred : List UInt8 → Option Shred) (verify : Shred → Pubkey → Bool)

/-- `check_shreds`. -/
def checkShreds (leaderSchedule : Option (Nat → Option Pubkey)) (shred1 shred2 : Shred) :
    Except DuplicateShredError Unit :=
  if shred1.slot ≠ shred2.slot then .error .slotMismatch
  else if shred1.index ≠ shred2.index then .error .shredIndexMismatch
  else if shred1.shredType ≠ shred2.shredType then .error .shredTypeMismatch
  else if shred1.payload = shred2.payload then .error .invalidDuplicateShreds
  else match leaderSchedule with
    | some leaderSchedule => do
        let slotLeader ← okOr (leaderSchedule shred1.slot) (.unknownSlotLeader shred1.slot)
        if !verify shred1 slotLeader || !verify shred2 slotLeader then .error .invalidSignature
        else .ok ()
    | none => .ok ()

/-- What `check_shreds` passed under a schedule naming the slot's leader: the shreds agree on
slot, index and type, have two payloads, and both verify under the leader's key. -/
theorem checkShreds_eq_ok {leaderSchedule : Nat → Option Pubkey} {shred1 shred2 : Shred}
    {slotLeader : Pubkey} (hLeader : leaderSchedule shred1.slot = some slotLeader)
    (h : checkShreds verify (some leaderSchedule) shred1 shred2 = .ok ()) :
    shred2.slot = shred1.slot ∧ shred2.index = shred1.index ∧
      shred2.shredType = shred1.shredType ∧ shred1.payload ≠ shred2.payload ∧
      verify shred1 slotLeader = true ∧ verify shred2 slotLeader = true := by
  unfold checkShreds at h
  split_ifs at h with hSlot hIndex hType hPayload
  simp only [bind_eq_ok, okOr_eq_ok, hLeader, Option.some.injEq, exists_eq_left'] at h
  split_ifs at h with hVerify
  simp only [Bool.or_eq_true, Bool.not_eq_true', not_or, Bool.not_eq_false] at hVerify
  exact ⟨(not_not.mp hSlot).symm, (not_not.mp hIndex).symm, (not_not.mp hType).symm, hPayload,
    hVerify⟩

/-- `from_shred`: the proof serialized and cut into chunks of `max_size - 63` bytes, the last
possibly shorter, each behind the header of the shreds' slot, index and type. -/
def fromShred (shred : Shred) (selfPubkey : Pubkey) (otherPayload : List UInt8)
    (leaderSchedule : Option (Nat → Option Pubkey)) (wallclock maxSize : Nat) :
    Except DuplicateShredError (List DuplicateShred) := do
  failIf (shred.payload = otherPayload) .invalidDuplicateShreds
  let otherShred ← okOr (newFromSerializedShred otherPayload) .invalidShred
  checkShreds verify leaderSchedule shred otherShred
  let data := duplicateSlotProof.encode ⟨shred.payload, otherPayload⟩
  let chunkSize ← if duplicateShredHeaderSize < maxSize then pure (maxSize - duplicateShredHeaderSize)
    else throw .invalidSizeLimit
  let chunks := Lib.Merkle.chunks chunkSize data
  let numChunks ← okOr (Lib.Word.tryFrom 8 chunks.length) .tryFromIntError
  pure (chunks.zipIdx.map fun entry =>
    ⟨selfPubkey, wallclock, shred.slot, shred.index, shred.shredType, numChunks, entry.2 % 256,
      entry.1⟩)

/-- What `from_shred` returns: the second payload parsed and checked against the first shred,
and piece `k` of the serialized proof, for each `k`, behind the first shred's header. -/
theorem fromShred_eq_ok {shred : Shred} {selfPubkey : Pubkey} {otherPayload : List UInt8}
    {leaderSchedule : Option (Nat → Option Pubkey)} {wallclock maxSize : Nat}
    {chunks : List DuplicateShred}
    (h : fromShred newFromSerializedShred verify shred selfPubkey otherPayload leaderSchedule
      wallclock maxSize = .ok chunks) :
    ∃ (otherShred : Shred) (pieces : List (List UInt8)),
      newFromSerializedShred otherPayload = some otherShred ∧
      checkShreds verify leaderSchedule shred otherShred = .ok () ∧
      pieces.flatten = duplicateSlotProof.encode ⟨shred.payload, otherPayload⟩ ∧
      ∀ dup, dup ∈ chunks ↔ ∃ k, pieces[k]? = some dup.chunk ∧ dup = ⟨selfPubkey, wallclock,
        shred.slot, shred.index, shred.shredType, pieces.length, k, dup.chunk⟩ := by
  simp only [fromShred, bind_eq_ok, failIf_eq_ok, okOr_eq_ok] at h
  obtain ⟨-, -, otherShred, hOther, u, hCheck, h⟩ := h
  split_ifs at h
  swap
  · cases h
  simp only [bind_eq_ok, okOr_eq_ok, pure_eq_ok] at h
  obtain ⟨chunkSize, -, numChunks, hNum, rfl⟩ := h
  obtain ⟨hFits, rfl⟩ := Lib.Word.tryFrom_eq_some.mp hNum
  have hFlatten := Lib.Merkle.flatten_chunks (n := chunkSize)
    (duplicateSlotProof.encode ⟨shred.payload, otherPayload⟩)
  generalize Lib.Merkle.chunks chunkSize _ = pieces at hFits hFlatten ⊢
  refine ⟨otherShred, pieces, hOther, hCheck, hFlatten, fun dup => ?_⟩
  -- an index below the count of at most `u8::MAX` pieces is its own `as u8`
  have hIndex : ∀ {k piece}, pieces[k]? = some piece → k % 256 = k := fun hk =>
    Nat.mod_eq_of_lt (by
      have := (List.getElem?_eq_some_iff.mp hk).1
      simp only [Lib.Word.maxValue] at hFits
      omega)
  rw [List.mem_map]
  constructor
  · rintro ⟨⟨piece, k⟩, hMem, rfl⟩
    have hk := List.mem_zipIdx_iff_getElem?.mp hMem
    exact ⟨k, hk, by rw [hIndex hk]⟩
  · rintro ⟨k, hk, hDup⟩
    exact ⟨(dup.chunk, k), List.mem_zipIdx_iff_getElem?.mpr hk, by rw [hDup, hIndex hk]⟩

/-- The predicate of `check_chunk`: a chunk agrees with the first one's header and its index is
below `num_chunks`. -/
def checkChunk (slot shredIndex : Nat) (shredType : ShredType) (numChunks : Nat)
    (dup : DuplicateShred) : Except DuplicateShredError Unit :=
  if dup.slot ≠ slot then .error .slotMismatch
  else if dup.shredIndex ≠ shredIndex then .error .shredIndexMismatch
  else if dup.shredType ≠ shredType then .error .shredTypeMismatch
  else if dup.numChunks ≠ numChunks then .error .numChunksMismatch
  else if numChunks ≤ dup.chunkIndex then
    .error (.invalidChunkIndex dup.chunkIndex numChunks)
  else .ok ()

theorem checkChunk_eq_ok {slot shredIndex : Nat} {shredType : ShredType} {numChunks : Nat}
    {dup : DuplicateShred} {u : Unit} :
    checkChunk slot shredIndex shredType numChunks dup = .ok u ↔
      dup.slot = slot ∧ dup.shredIndex = shredIndex ∧ dup.shredType = shredType ∧
        dup.numChunks = numChunks ∧ dup.chunkIndex < numChunks := by
  unfold checkChunk
  split_ifs <;> simp_all

/-- The body of the loop of `into_shreds`: the chunk is checked, then stored under its index, or
compared with the chunk already stored there. -/
def storeChunk (first : DuplicateShred) (data : Lib.KeyMap Nat (List UInt8)) (dup : DuplicateShred) :
    Except DuplicateShredError (Lib.KeyMap Nat (List UInt8)) := do
  checkChunk first.slot first.shredIndex first.shredType first.numChunks dup
  match data.get? dup.chunkIndex with
  | none => pure (data.insert dup.chunkIndex dup.chunk)
  | some stored => if stored ≠ dup.chunk then throw .dataChunkMismatch else pure data

/-- A chunk the loop stores has an index below `num_chunks`, so the stored indices stay below
it. -/
theorem storeChunk_keys {first dup : DuplicateShred} {data data' : Lib.KeyMap Nat (List UInt8)}
    (h : storeChunk first data dup = .ok data')
    (hKeys : ∀ k, (data.get? k).isSome → k < first.numChunks) :
    ∀ k, (data'.get? k).isSome → k < first.numChunks := by
  unfold storeChunk at h
  rw [bind_eq_ok] at h
  obtain ⟨u, hCheck, hStore⟩ := h
  have hIndex := (checkChunk_eq_ok.mp hCheck).2.2.2.2
  split at hStore
  · rw [pure_eq_ok] at hStore
    subst hStore
    intro k hk
    rw [Lib.KeyMap.get?_insert] at hk
    split_ifs at hk with hEq
    · exact hEq ▸ hIndex
    · exact hKeys k hk
  · rename_i stored _
    by_cases hEq : stored = dup.chunk
    · rw [if_neg (not_not.mpr hEq), pure_eq_ok] at hStore
      exact hStore ▸ hKeys
    · rw [if_pos hEq] at hStore
      cases hStore

/-- Step lemma of the loop: a chunk that agrees with the first one and is the piece of its
index is stored, or found stored; the map then holds the pieces of the indices read, its own
included. -/
theorem storeChunk_pieces {first dup : DuplicateShred} {pieces : List (List UInt8)}
    {indices : List Nat} {data : Lib.KeyMap Nat (List UInt8)}
    (hCheck : checkChunk first.slot first.shredIndex first.shredType first.numChunks dup = .ok ())
    (hPiece : pieces[dup.chunkIndex]? = some dup.chunk)
    (hData : ∀ k, data.get? k = if k ∈ indices then pieces[k]? else none) :
    ∃ data', storeChunk first data dup = .ok data' ∧
      ∀ k, data'.get? k = if k ∈ indices ++ [dup.chunkIndex] then pieces[k]? else none := by
  unfold storeChunk
  rw [hCheck, bind_ok]
  by_cases hSeen : dup.chunkIndex ∈ indices
  · -- a repeated index: the piece stored under it is this chunk's
    have hStored : data.get? dup.chunkIndex = some dup.chunk := by rw [hData, if_pos hSeen, hPiece]
    refine ⟨data, by simp [hStored], fun k => ?_⟩
    rw [hData]
    by_cases hk : k = dup.chunkIndex <;> simp [hk, hSeen]
  · have hNone : data.get? dup.chunkIndex = none := by rw [hData, if_neg hSeen]
    refine ⟨_, by rw [hNone]; rfl, fun k => ?_⟩
    rw [Lib.KeyMap.get?_insert, hData]
    by_cases hk : k = dup.chunkIndex <;> simp [hk, hSeen, hPiece]

/-- Run lemma of the loop: chunks that agree with the first one, each the piece of its index,
leave the map holding exactly the pieces of the indices read. -/
theorem foldlM_storeChunk_pieces (first : DuplicateShred) (rest : List DuplicateShred)
    (pieces : List (List UInt8))
    (hEach : ∀ dup ∈ first :: rest,
      checkChunk first.slot first.shredIndex first.shredType first.numChunks dup = .ok () ∧
        pieces[dup.chunkIndex]? = some dup.chunk) :
    ∃ data, rest.foldlM (storeChunk first) (Lib.KeyMap.empty.insert first.chunkIndex first.chunk) =
      .ok data ∧ ∀ k, data.get? k =
        if k ∈ (first :: rest).map DuplicateShred.chunkIndex then pieces[k]? else none := by
  have hInit : ∀ k, (Lib.KeyMap.empty.insert first.chunkIndex first.chunk).get? k =
      if k ∈ [first].map DuplicateShred.chunkIndex then pieces[k]? else none := by
    intro k
    by_cases hk : k = first.chunkIndex <;> simp [hk, (hEach first List.mem_cons_self).2]
  exact Lib.Except.foldlM_ok_of_invariant
    (fun pre (data : Lib.KeyMap Nat (List UInt8)) =>
      ∀ k, data.get? k = if k ∈ List.map DuplicateShred.chunkIndex pre then pieces[k]? else none)
    (fun pre dup data hDup hData => by
      obtain ⟨hCheck, hPiece⟩ := hEach dup (List.mem_cons_of_mem _ hDup)
      simpa using storeChunk_pieces hCheck hPiece hData) hInit

/-- What `into_shreds` does with the bytes of the chunks put back together: the proof
deserialized (`bincode::deserialize` ignores trailing bytes), both shreds parsed and checked
against the first chunk's header and the leader's key. -/
def checkReassembled (slotLeader : Pubkey) (first : DuplicateShred) (data : List UInt8) :
    Except DuplicateShredError (Shred × Shred) := do
  let proof ← okOr ((duplicateSlotProof.decode data).map Prod.fst) .serializationError
  failIf (proof.shred1 = proof.shred2) .invalidDuplicateSlotProof
  let shred1 ← okOr (newFromSerializedShred proof.shred1) .invalidShred
  let shred2 ← okOr (newFromSerializedShred proof.shred2) .invalidShred
  if shred1.slot ≠ first.slot ∨ shred2.slot ≠ first.slot then .error .slotMismatch
  else if shred1.index ≠ first.shredIndex ∨ shred2.index ≠ first.shredIndex then
    .error .shredIndexMismatch
  else if shred1.shredType ≠ first.shredType ∨ shred2.shredType ≠ first.shredType then
    .error .shredTypeMismatch
  else if shred1.payload = shred2.payload then .error .invalidDuplicateShreds
  else if !verify shred1 slotLeader || !verify shred2 slotLeader then .error .invalidSignature
  else .ok (shred1, shred2)

/-- `into_shreds`; `none` where the `unwrap` of a missing chunk panics. Each index below
`num_chunks` is removed from the map once, so each removal reads the map as the loop left it. -/
def intoShreds (slotLeader : Pubkey) : List DuplicateShred →
    Option (Except DuplicateShredError (Shred × Shred))
  | [] => some (.error .invalidDuplicateShreds)
  | first :: rest =>
      match rest.foldlM (storeChunk first) (Lib.KeyMap.empty.insert first.chunkIndex first.chunk) with
      | .error e => some (.error e)
      | .ok data =>
          if data.len ≠ first.numChunks then some (.error .missingDataChunk)
          else ((List.range first.numChunks).mapM data.get?).map fun parts =>
            checkReassembled newFromSerializedShred verify slotLeader first parts.flatten

/-- Two shreds with the chunk's slot, index and type, two payloads, and the leader's signature
on both. -/
def ShredsMatch (slotLeader : Pubkey) (first : DuplicateShred) (shred1 shred2 : Shred) : Prop :=
  shred1.slot = first.slot ∧ shred2.slot = first.slot ∧ shred1.index = first.shredIndex ∧
    shred2.index = first.shredIndex ∧ shred1.shredType = first.shredType ∧
    shred2.shredType = first.shredType ∧ shred1.payload ≠ shred2.payload ∧
    verify shred1 slotLeader = true ∧ verify shred2 slotLeader = true

/-- Shreds that pass the last checks match the first chunk. -/
theorem checkReassembled_eq_ok {slotLeader : Pubkey} {first : DuplicateShred} {data : List UInt8}
    {shred1 shred2 : Shred}
    (h : checkReassembled newFromSerializedShred verify slotLeader first data = .ok (shred1, shred2)) :
    ShredsMatch verify slotLeader first shred1 shred2 := by
  simp only [checkReassembled, bind_eq_ok, okOr_eq_ok] at h
  obtain ⟨proof, -, u, -, parsed1, -, parsed2, -, h⟩ := h
  split_ifs at h with hSlot hIndex hType hPayload hVerify
  · rw [Except.ok.injEq, Prod.mk.injEq] at h
    obtain ⟨rfl, rfl⟩ := h
    simp only [not_or, not_not, Bool.or_eq_true, Bool.not_eq_true', Bool.not_eq_false] at *
    exact ⟨hSlot.1, hSlot.2, hIndex.1, hIndex.2, hType.1, hType.2, hPayload, hVerify.1, hVerify.2⟩

/-- What `into_shreds` returns matches the first chunk. -/
theorem intoShreds_eq_ok {slotLeader : Pubkey} {chunks : List DuplicateShred}
    {shred1 shred2 : Shred}
    (h : intoShreds newFromSerializedShred verify slotLeader chunks = some (.ok (shred1, shred2))) :
    ∃ first rest, chunks = first :: rest ∧ ShredsMatch verify slotLeader first shred1 shred2 := by
  match chunks, h with
  | [], h => cases h
  | first :: rest, h =>
      refine ⟨first, rest, rfl, ?_⟩
      simp only [intoShreds] at h
      split at h
      · cases h
      · split_ifs at h
        · cases h
        · obtain ⟨parts, -, hCheck⟩ := Option.map_eq_some_iff.mp h
          exact checkReassembled_eq_ok newFromSerializedShred verify hCheck

/-- Chunks that pass `sanitize` never make `into_shreds` panic: every stored index lies below
`num_chunks`, so a map of `num_chunks` chunks holds all of them. -/
theorem intoShreds_isSome_of_sanitize {slotLeader : Pubkey} {chunks : List DuplicateShred}
    (hSanitize : ∀ dup ∈ chunks, dup.sanitize = true) :
    (intoShreds newFromSerializedShred verify slotLeader chunks).isSome := by
  match chunks, hSanitize with
  | [], _ => rfl
  | first :: rest, hSanitize =>
      simp only [intoShreds]
      split
      · rfl
      · rename_i data hLoop
        split_ifs with hLen
        · rfl
        · have hFirst : first.chunkIndex < first.numChunks := by
            simpa [DuplicateShred.sanitize] using hSanitize first List.mem_cons_self
          -- the invariant ignores the chunks read so far, so their list is given explicitly
          have hKeys := @foldlM_invariant _ _ _ _
            (fun _ (data : Lib.KeyMap Nat (List UInt8)) =>
              ∀ k, (data.get? k).isSome → k < first.numChunks)
            (fun _ _ _ _ hKeys hStore => storeChunk_keys hStore hKeys) [] _ _ _ (fun k hk => by
              rw [Lib.KeyMap.get?_insert] at hk
              split_ifs at hk with hEq
              · exact hEq ▸ hFirst
              · simp at hk)
            hLoop
          obtain ⟨parts, hParts⟩ := Lib.List.exists_mapM_eq_some fun k hk =>
            Lib.KeyMap.get?_isSome_of_len_eq (not_not.mp hLen) hKeys (List.mem_range.mp hk)
          rw [hParts]
          rfl

/-- The chunks of two one-byte shreds under a limit of 69 bytes: an 18-byte proof in chunks of
6 bytes. -/
def threeChunks : List DuplicateShred :=
  (fromShred (fun p => some ⟨p, 0, 0, .data⟩) (fun _ _ => true) ⟨[1], 0, 0, .data⟩ Pubkey.default [2]
    (some fun _ => some Pubkey.default) 0 69).toOption.getD []

end Proofs

end PutValidator
