import PutValidator.Runtime.Rent
import PutValidator.Lib.Merkle
import PutValidator.Lib.SortedRuns

/-! The accounts hash (`runtime/src/accounts_hash.rs`). The scan of the stored accounts leaves,
for each slot group (the oldest first) and each pubkey bin, the bin's entries sorted by pubkey,
the entries of one pubkey in the order they were stored. `de_dup_accounts_in_parallel` merges one
bin across the groups, keeping the newest version of each pubkey, writes the hashes of what it
keeps in pubkey order and sums the lamports; `rest_of_hash_calculation` does this for every bin
and takes the Merkle root of all the hashes, reading them back file by file. The parallel
iterators run in order here: the bins are independent and their lamport totals only add up.
SHA-256 and BLAKE3 are parameters, a file of hashes is the list of its hashes, and a panic (an
index out of bounds, the capitalization overflow) is `none`. -/
namespace PutValidator

/-- The derived `Ord` of `Pubkey`, as a linear order whose equality test is the derived one. -/
instance : LinearOrder Pubkey :=
  { linearOrderOfSTO (· < ·) with
    toDecidableEq := instDecidableEqPubkey
    toDecidableLT := instDecidableLTPubkey
    compare := fun a b => compareOfLessAndEq a b
    compare_eq_compareOfLessAndEq := fun _ _ => rfl }

variable (sha256 blake3 : List UInt8 → Hash)

/-- `CalculateHashIntermediate`: what the scan keeps of one stored account. -/
structure CalculateHashIntermediate where
  hash : Hash
  lamports : Nat
  pubkey : Pubkey
deriving DecidableEq, Repr

/-- `SortedDataByPubkey`: the entries of one slot group, bin by bin. -/
abbrev SortedDataByPubkey := List (List CalculateHashIntermediate)

/-- `AccountHashesFile`: the hashes written to one temporary file. -/
abbrev AccountHashesFile := List Hash

inductive ZeroLamportAccounts
  | excluded
  | included
deriving DecidableEq, Repr

/-- `AccountsHasher`, without the directory of its temporary files. -/
structure AccountsHasher where
  fillerAccountSuffix : Option Pubkey
  zeroLamportAccounts : ZeroLamportAccounts

/-- `MERKLE_FANOUT`. -/
def merkleFanout : Lib.Merkle.Fanout := ⟨16, by decide⟩

/-- `PUBKEY_BINS_FOR_CALCULATING_HASHES`. -/
def pubkeyBinsForCalculatingHashes : Nat := 65536

/-- `Hasher::default()` fed each hash in turn, then `result()`: SHA-256 of their bytes. -/
def hasherResult (hashes : List Hash) : Hash := sha256 (hashes.flatMap fun h => h.bytes.toList)

def AccountsHasher.fillerAccountsEnabled (self : AccountsHasher) : Bool :=
  self.fillerAccountSuffix.isSome

def AccountsHasher.isFillerAccount (self : AccountsHasher) (pubkey : Pubkey) : Bool :=
  isFillerAccountHelper pubkey self.fillerAccountSuffix

/-- `checked_cast_for_capitalization`: a sum of two `u128` values as a `u128`, or a panic. -/
def checkedCastForCapitalization (balance : Nat) : Option Nat :=
  if balance < 2 ^ 128 then some balance else none

/-! ### `de_dup_accounts_in_parallel` -/

/-- The cursors of `de_dup_accounts_in_parallel`: the position reached in each slot group's bin,
and for each group not yet exhausted, in group order, the pubkey at its position and the group's
number. -/
structure DeDupCursors where
  indexes : List Nat
  firstItems : List Pubkey
  firstItemToPubkeyDivision : List Nat
deriving DecidableEq, Repr

/-- The `while` loop of `get_item`: the first position from `index` on whose pubkey is not
`key`, or the end of the bin. -/
def skipKey (key : Pubkey) (bin : List CalculateHashIntermediate) (index : Nat) : Nat :=
  if h : index < bin.length then
    if bin[index].pubkey = key then skipKey key bin (index + 1) else index
  else index
termination_by bin.length - index

/-- One round of the scan for the smallest pubkey, on `(min_index, min_pubkey,
duplicate_pubkey_indexes)` and the pubkey at `first_item_index`: an equal pubkey in a later group
records the earlier position as a duplicate. -/
def scanStep (acc : Nat × Pubkey × List Nat) (item : Pubkey × Nat) : Nat × Pubkey × List Nat :=
  match compare acc.2.1 item.1 with
  | .lt => acc
  | .eq => (item.2, acc.2.1, acc.2.2 ++ [acc.1])
  | .gt => (item.2, item.1, acc.2.2)

/-- The inner `while` loop, from the first group's pubkey over the others. -/
def scanMin (firstItems : List Pubkey) (first : Pubkey) : Nat × Pubkey × List Nat :=
  (firstItems.zipIdx.drop 1).foldl scanStep (0, first, [])

/-- Adding a chosen entry: its hash and lamports, unless it has no lamports (then, for an
incremental hash, the hash of its pubkey) or is a filler account. -/
def AccountsHasher.addItem (self : AccountsHasher) (item : CalculateHashIntermediate)
    (acc : AccountHashesFile × Nat) : Option (AccountHashesFile × Nat) :=
  if item.lamports ≠ 0 then
    if !(self.fillerAccountsEnabled && self.isFillerAccount item.pubkey) then do
      let overallSum ← checkedCastForCapitalization (item.lamports + acc.2)
      pure (acc.1 ++ [item.hash], overallSum)
    else pure acc
  else if self.zeroLamportAccounts = .included then
    pure (acc.1 ++ [blake3 item.pubkey.bytes.toList], acc.2)
  else pure acc

section DeDup

variable (pubkeyDivision : List SortedDataByPubkey) (pubkeyBin : Nat)

/-- `get_item`: the entry before the end of the current pubkey's stretch in the group at
position `minIndex`, with that group's cursor moved past the pubkey, and the group dropped once
its bin runs out. -/
def getItem (minIndex : Nat) (c : DeDupCursors) :
    Option (CalculateHashIntermediate × DeDupCursors) := do
  let key ← c.firstItems[minIndex]?
  let divisionIndex ← c.firstItemToPubkeyDivision[minIndex]?
  let bins ← pubkeyDivision[divisionIndex]?
  let bin ← bins[pubkeyBin]?
  let index ← c.indexes[divisionIndex]?
  let index := skipKey key bin (index + 1)
  let c := if h : index < bin.length then
      { c with firstItems := c.firstItems.set minIndex bin[index].pubkey,
               indexes := c.indexes.set divisionIndex index }
    else c
  let c := if bin.length ≤ index then
      { c with firstItems := c.firstItems.eraseIdx minIndex,
               firstItemToPubkeyDivision := c.firstItemToPubkeyDivision.eraseIdx minIndex }
    else c
  let item ← bin[index - 1]?
  pure (item, c)

/-- Skipping past the duplicates, latest position first, since `get_item` may remove one. -/
def skipDuplicates (duplicatePubkeyIndexes : List Nat) (c : DeDupCursors) : Option DeDupCursors :=
  duplicatePubkeyIndexes.reverse.foldlM
    (fun c i => (getItem pubkeyDivision pubkeyBin i c).map Prod.snd) c

/-- The outer `while` loop, once per distinct pubkey. Each round consumes at least one entry, so
`fuel` above the number of entries left is enough. -/
def AccountsHasher.deDupLoop (self : AccountsHasher) :
    Nat → DeDupCursors → AccountHashesFile × Nat → Option (AccountHashesFile × Nat)
  | 0, _, _ => none
  | fuel + 1, c, acc =>
      match c.firstItems with
      | [] => some acc
      | first :: _ => do
          let (minIndex, _, duplicatePubkeyIndexes) := scanMin c.firstItems first
          let (item, c) ← getItem pubkeyDivision pubkeyBin minIndex c
          let acc ← self.addItem blake3 item acc
          let c ← skipDuplicates pubkeyDivision pubkeyBin duplicatePubkeyIndexes c
          self.deDupLoop fuel c acc

/-- The first loop of `de_dup_accounts_in_parallel`: a cursor for each group whose bin is there
and not empty, and the number of entries (`unreduced_count`). -/
def initialCursors : DeDupCursors × Nat :=
  pubkeyDivision.zipIdx.foldl
    (fun (acc : DeDupCursors × Nat) (bins, i) =>
      match bins[pubkeyBin]? with
      | some (first :: rest) =>
          ({ acc.1 with firstItems := acc.1.firstItems ++ [first.pubkey],
                        firstItemToPubkeyDivision := acc.1.firstItemToPubkeyDivision ++ [i] },
            acc.2 + (rest.length + 1))
      | _ => acc)
    (⟨List.replicate pubkeyDivision.length 0, [], []⟩, 0)

/-- `de_dup_accounts_in_parallel`: the hashes kept from the bin, their lamports, and the number
of entries the bin had. -/
def AccountsHasher.deDupAccountsInParallel (self : AccountsHasher) :
    Option (AccountHashesFile × Nat × Nat) := do
  let (c, unreducedCount) := initialCursors pubkeyDivision pubkeyBin
  let (hashes, overallSum) ←
    self.deDupLoop blake3 pubkeyDivision pubkeyBin (unreducedCount + 1) c ([], 0)
  pure (hashes, overallSum, unreducedCount)

end DeDup

/-- `de_dup_accounts`: every bin below `maxBin`, and the total of their lamports. -/
def AccountsHasher.deDupAccounts (self : AccountsHasher)
    (sortedDataByPubkey : List SortedDataByPubkey) (maxBin : Nat) :
    Option (List AccountHashesFile × Nat) :=
  (List.range maxBin).foldlM
    (fun (acc : List AccountHashesFile × Nat) bin => do
      let (hashesFile, lamportsBin, _) ←
        self.deDupAccountsInParallel blake3 sortedDataByPubkey bin
      let lamportsSum ← checkedCastForCapitalization (acc.2 + lamportsBin)
      pure (acc.1 ++ [hashesFile], lamportsSum))
    ([], 0)

/-! ### The Merkle root -/

/-- `AccountsHasher::div_ceil`. -/
def divCeil (x y : Nat) : Nat := x / y + if x % y ≠ 0 then 1 else 0

theorem divCeil_eq {x y : Nat} (hy : 0 < y) : divCeil x y = (x + y - 1) / y := by
  have hSplit : x + y - 1 = (x % y + y - 1) + y * (x / y) := by
    have := Nat.div_add_mod x y
    have := Nat.mod_lt x hy
    omega
  rw [divCeil, hSplit, Nat.add_mul_div_left _ _ hy, Nat.add_comm]
  congr 1
  by_cases hMod : x % y = 0
  · rw [if_neg (by simpa using hMod), hMod, Nat.zero_add, Nat.div_eq_of_lt (by omega)]
  · rw [if_pos hMod, Nat.div_eq_of_lt_le (k := 1) (by omega) (by have := Nat.mod_lt x hy; omega)]

/-- A level of two or more hashes is shorter. -/
theorem divCeil_lt {x y : Nat} (hy : 2 ≤ y) (hx : 0 < x) (hOne : divCeil x y ≠ 1) :
    divCeil x y < x := by
  rw [divCeil_eq (by omega)] at hOne ⊢
  by_cases hSmall : x ≤ y
  · exact absurd (Nat.div_eq_of_lt_le (k := 1) (by omega) (by omega)) hOne
  · rw [Nat.div_lt_iff_lt_mul (by omega)]
    have hDouble : x * 2 ≤ x * y := Nat.mul_le_mul_left _ hy
    omega

/-- One level of `compute_merkle_root_loop`: the hash of each group of `fanout` hashes. -/
theorem map_range_hasherResult (fanout : Lib.Merkle.Fanout) (hashes : List Hash) :
    (List.range (divCeil hashes.length fanout.size)).map
        (fun i => hasherResult sha256
          ((hashes.take (min (i * fanout.size + fanout.size) hashes.length)).drop
            (i * fanout.size))) =
      Lib.Merkle.level fanout (hasherResult sha256) hashes := by
  have hPos : 0 < fanout.size := by have := fanout.two_le; omega
  rw [divCeil_eq hPos, Lib.Merkle.map_range_slices hPos]
  rfl

/-- `compute_merkle_root_loop`, on hashes. -/
def computeMerkleRootLoop (hashes : List Hash) (fanout : Lib.Merkle.Fanout) : Hash :=
  if hEmpty : hashes = [] then hasherResult sha256 []
  else
    let totalHashes := hashes.length
    let chunks := divCeil totalHashes fanout.size
    let result := (List.range chunks).map fun i =>
      let startIndex := i * fanout.size
      let endIndex := min (startIndex + fanout.size) totalHashes
      hasherResult sha256 ((hashes.take endIndex).drop startIndex)
    if hOne : result.length = 1 then result[0] else computeMerkleRootLoop result fanout
termination_by hashes.length
decreasing_by
  simp only [result, chunks, totalHashes, List.length_map, List.length_range] at hOne ⊢
  exact divCeil_lt fanout.two_le (List.length_pos_iff.mpr hEmpty) hOne

/-- The loop computes the Merkle root of the library's levels. -/
theorem computeMerkleRootLoop_eq_root (hashes : List Hash) (fanout : Lib.Merkle.Fanout) :
    computeMerkleRootLoop sha256 hashes fanout =
      Lib.Merkle.root fanout (hasherResult sha256) hashes := by
  fun_induction computeMerkleRootLoop sha256 hashes fanout with
  | case1 => simp
  | case2 hashes hEmpty totalHashes chunks result hOne =>
      have hResult : result = Lib.Merkle.level fanout (hasherResult sha256) hashes :=
        map_range_hasherResult sha256 fanout hashes
      have hOne' : (Lib.Merkle.level fanout (hasherResult sha256) hashes).length = 1 := hResult ▸ hOne
      rw [Lib.Merkle.root_of_ne_nil _ _ hEmpty, dif_pos hOne']
      exact List.getElem_of_eq hResult _
  | case3 hashes hEmpty totalHashes chunks result hOne ih =>
      have hResult : result = Lib.Merkle.level fanout (hasherResult sha256) hashes :=
        map_range_hasherResult sha256 fanout hashes
      have hOne' : (Lib.Merkle.level fanout (hasherResult sha256) hashes).length ≠ 1 := hResult ▸ hOne
      rw [Lib.Merkle.root_of_ne_nil _ _ hEmpty, dif_neg hOne', ih, hResult]

/-- `calculate_three_level_chunks`: `(num_hashes_per_chunk, levels_hashed, three_level)`. -/
def calculateThreeLevelChunks (totalHashes fanout : Nat)
    (maxLevelsPerPass specificLevelCount : Option Nat) : Nat × Nat × Bool :=
  let target := fanout ^ 3
  let threshold := target * fanout
  let threeLevel :=
    decide (3 ≤ maxLevelsPerPass.getD (Lib.Word.maxValue 64)) && decide (threshold ≤ totalHashes)
  let threeLevel :=
    if threeLevel then (specificLevelCount.map fun v => decide (3 ≤ v)).getD threeLevel
    else threeLevel
  if threeLevel then (target, 3, true) else (fanout, 1, false)

/-- Where `compute_merkle_root_from_slices` reads: the slice it holds and its position in it. -/
structure SliceCursor where
  data : List Hash
  dataIndex : Nat

/-- Reading the hash at overall position `i`: a new slice from `get i` once the one held runs
out. -/
def SliceCursor.read (get : Nat → Option (List Hash)) (i : Nat) (c : SliceCursor) :
    Option (Hash × SliceCursor) := do
  let c ← if c.data.length ≤ c.dataIndex then (get i).map (fun data => ⟨data, 0⟩) else pure c
  let hash ← c.data[c.dataIndex]?
  pure (hash, { c with dataIndex := c.dataIndex + 1 })

/-- Reading `count` hashes from overall position `i` on. -/
def SliceCursor.readRun (get : Nat → Option (List Hash)) :
    Nat → Nat → SliceCursor → Option (List Hash × SliceCursor)
  | 0, _, c => some ([], c)
  | count + 1, i, c => do
      let (hash, c) ← c.read get i
      let (rest, c) ← SliceCursor.readRun get count (i + 1) c
      pure (hash :: rest, c)

/-- The `for _j in 0..fanout` loop of the three-level pass: up to `remaining` groups of at most
`fanout` hashes, each hashed by `hasher_k`, stopping at `endIndex`. -/
def hashGroups (get : Nat → Option (List Hash)) (fanout endIndex : Nat) :
    Nat → Nat → SliceCursor → Option (List Hash × Nat × SliceCursor)
  | 0, i, c => some ([], i, c)
  | remaining + 1, i, c => do
      let count := min (endIndex - i) fanout
      let (items, c) ← c.readRun get count i
      let i := i + count
      let hashK := hasherResult sha256 items
      if endIndex ≤ i then pure ([hashK], i, c)
      else do
        let (rest, i, c) ← hashGroups get fanout endIndex remaining i c
        pure (hashK :: rest, i, c)

/-- The `while i < end_index` loop of the three-level pass: each round hashes `hasher_j`'s
groups. Each round reads at least one hash, so `fuel` above `endIndex - i` is enough. -/
def hashGroupsOfGroups (get : Nat → Option (List Hash)) (fanout endIndex : Nat) :
    Nat → Nat → SliceCursor → Option (List Hash)
  | 0, _, _ => none
  | fuel + 1, i, c =>
      if i < endIndex then do
        let (hashJs, i, c) ← hashGroups sha256 get fanout endIndex fanout i c
        let rest ← hashGroupsOfGroups get fanout endIndex fuel i c
        pure (hasherResult sha256 hashJs :: rest)
      else pure []

/-- The closure of `compute_merkle_root_from_slices` for one chunk: one level of its hashes, or
three at once. -/
def hashChunk (get : Nat → Option (List Hash)) (fanout : Nat) (threeLevel : Bool)
    (data : List Hash) (startIndex endIndex : Nat) : Option Hash :=
  let c : SliceCursor := ⟨data, startIndex⟩
  if !threeLevel then
    (c.readRun get (endIndex - startIndex) startIndex).map fun r => hasherResult sha256 r.1
  else
    (hashGroupsOfGroups sha256 get fanout endIndex (endIndex - startIndex + 1) startIndex c).map
      (hasherResult sha256)

/-- `compute_merkle_root_from_slices` as every caller outside the tests calls it, with no
`specific_level_count`: the root of `totalHashes` hashes that `get start` hands out in slices
starting at `start`. -/
def computeMerkleRootFromSlices (totalHashes : Nat) (fanout : Lib.Merkle.Fanout)
    (maxLevelsPerPass : Option Nat) (get : Nat → Option (List Hash)) : Option Hash :=
  if totalHashes = 0 then some (hasherResult sha256 [])
  else do
    let (numHashesPerChunk, _, threeLevel) :=
      calculateThreeLevelChunks totalHashes fanout.size maxLevelsPerPass none
    let chunks := divCeil totalHashes numHashesPerChunk
    let data ← get 0
    let result ← (List.range chunks).mapM fun i =>
      let startIndex := i * numHashesPerChunk
      let endIndex := min (startIndex + numHashesPerChunk) totalHashes
      hashChunk sha256 get fanout.size threeLevel data startIndex endIndex
    pure (if h : result.length = 1 then result[0] else computeMerkleRootLoop sha256 result fanout)

/-! ### Reading the files back -/

structure CumulativeOffset where
  index : List Nat
  startOffset : Nat
deriving DecidableEq, Repr

structure CumulativeOffsets where
  cumulativeOffsets : List CumulativeOffset
  totalCount : Nat
deriving DecidableEq, Repr

/-- `CumulativeOffsets::new`: where each nonempty source starts, and the total. -/
def CumulativeOffsets.new (lens : List Nat) : CumulativeOffsets :=
  let (cumulativeOffsets, totalCount) := lens.zipIdx.foldl
    (fun (acc : List CumulativeOffset × Nat) (len, i) =>
      if 0 < len then (acc.1 ++ [⟨[i], acc.2⟩], acc.2 + len) else acc)
    ([], 0)
  ⟨cumulativeOffsets, totalCount⟩

/-- `binary_search_by` on the start offsets, which strictly increase: the position of the offset
equal to `start`, or else the number of offsets below `start`, where it would be inserted. -/
def searchStartOffset (offsets : List CumulativeOffset) (start : Nat) : Except Nat Nat :=
  match offsets.findIdx? (·.startOffset == start) with
  | some index => .ok index
  | none => .error (offsets.countP (·.startOffset < start))

/-- `find_index`: the source holding overall position `start`. -/
def CumulativeOffsets.findIndex (self : CumulativeOffsets) (start : Nat) : Option Nat :=
  if self.cumulativeOffsets.isEmpty then none
  else match searchStartOffset self.cumulativeOffsets start with
    | .ok index => some index
    | .error index => if index = 0 then none else some (index - 1)

/-- `find`: the position within the source, and the source's offset. -/
def CumulativeOffsets.find (self : CumulativeOffsets) (start : Nat) :
    Option (Nat × CumulativeOffset) := do
  let index ← self.findIndex start
  let offset ← self.cumulativeOffsets[index]?
  if offset.startOffset ≤ start then pure (start - offset.startOffset, offset) else none

/-- `MmapAccountHashesFile::read`: the hashes from `index` on. -/
def readHashes (file : List Hash) (index : Nat) : Option (List Hash) :=
  if index ≤ file.length then some (file.drop index) else none

structure CumulativeHashesFromFiles where
  readers : List (List Hash)
  cumulative : CumulativeOffsets

/-- `CumulativeHashesFromFiles::from_files`: a file with no hash has no reader. -/
def CumulativeHashesFromFiles.fromFiles (hashes : List AccountHashesFile) :
    CumulativeHashesFromFiles :=
  let readers := hashes.filter fun file => !file.isEmpty
  ⟨readers, CumulativeOffsets.new (readers.map List.length)⟩

def CumulativeHashesFromFiles.totalCount (self : CumulativeHashesFromFiles) : Nat :=
  self.cumulative.totalCount

/-- `get_slice`: the longest slice starting at overall position `start`. -/
def CumulativeHashesFromFiles.getSlice (self : CumulativeHashesFromFiles) (start : Nat) :
    Option (List Hash) := do
  let (start, offset) ← self.cumulative.find start
  let dataSourceIndex ← offset.index[0]?
  let data ← self.readers[dataSourceIndex]?
  readHashes data start

/-- `rest_of_hash_calculation`: the root of the hashes kept from every bin, and their lamports. -/
def AccountsHasher.restOfHashCalculation (self : AccountsHasher)
    (dataSectionsByPubkey : List SortedDataByPubkey) : Option (Hash × Nat) := do
  let (hashes, totalLamports) ←
    self.deDupAccounts blake3 dataSectionsByPubkey pubkeyBinsForCalculatingHashes
  let cumulative := CumulativeHashesFromFiles.fromFiles hashes
  let hash ← computeMerkleRootFromSlices sha256 cumulative.totalCount merkleFanout none
    cumulative.getSlice
  pure (hash, totalLamports)

end PutValidator
