import PutValidator.Runtime.AccountsHashDeDup
import PutValidator.Lib.List

/-! The Merkle root of the hashes read back in slices (`compute_merkle_root_from_slices`). The
hashes form one list, and `get_hash_slice_starting_at_index` hands out at each position a nonempty
piece of it that starts there. Each chunk's closure reads its hashes through a cursor that fetches
a new piece once the one it holds runs out; what the cursor holds from its position on is always a
prefix of the hashes from the position it reads next, so it reads exactly its chunk. A chunk is
hashed one level at a time or three levels at once, and the loop hashes the levels left, so the
root is the library's. -/
namespace PutValidator

open Lib.Merkle

variable (sha256 : List UInt8 → Hash)

/-! ### Reading the hashes in slices -/

section Slices

variable (hashes : List Hash) (get : Nat → Option (List Hash))

/-- `get_hash_slice_starting_at_index` over `hashes`: at every position, a nonempty slice of the
hashes from there on. -/
def SlicesOf : Prop :=
  ∀ i < hashes.length, ∃ s, get i = some s ∧ s ≠ [] ∧ s <+: hashes.drop i

/-- A cursor that reads position `i` next: what it holds from its position on is a prefix of the
hashes from `i` on. -/
def SliceCursor.At (c : SliceCursor) (i : Nat) : Prop :=
  c.data.drop c.dataIndex <+: hashes.drop i

variable {hashes get}

/-- A nonempty prefix of the hashes from `i` on starts with the hash at `i`. -/
theorem getElem?_zero_of_prefix {s : List Hash} {i : Nat} (hs : s ≠ [])
    (hPre : s <+: hashes.drop i) : s[0]? = hashes[i]? := by
  obtain ⟨t, ht⟩ := hPre
  obtain ⟨a, s', rfl⟩ := List.exists_cons_of_ne_nil hs
  have hHead : (hashes.drop i)[0]? = some a := by
    rw [← ht]
    rfl
  rw [List.getElem?_drop, Nat.add_zero] at hHead
  rw [hHead]
  rfl

/-- A cursor that holds a hash reads the one at `i`, and moves on to read `i + 1`. -/
theorem SliceCursor.At.next {c : SliceCursor} {i : Nat} (hc : c.At hashes i)
    (hi : i < hashes.length) (hHeld : c.dataIndex < c.data.length) :
    c.data[c.dataIndex]? = some hashes[i] ∧
      ({ c with dataIndex := c.dataIndex + 1 } : SliceCursor).At hashes (i + 1) := by
  have hNe : c.data.drop c.dataIndex ≠ [] := by
    simp only [ne_eq, List.drop_eq_nil_iff]
    omega
  have hHead := getElem?_zero_of_prefix hNe hc
  rw [List.getElem?_drop, Nat.add_zero] at hHead
  refine ⟨by rw [hHead, List.getElem?_eq_getElem hi], ?_⟩
  have hNext := hc.drop 1
  simpa [SliceCursor.At, List.drop_drop, Nat.add_comm] using hNext

/-- A read at position `i` gives the hash there and leaves the cursor to read `i + 1`. -/
theorem SliceCursor.read_eq (hGet : SlicesOf hashes get) {c : SliceCursor} {i : Nat}
    (hc : c.At hashes i) (hi : i < hashes.length) :
    ∃ c', c.read get i = some (hashes[i], c') ∧ c'.At hashes (i + 1) := by
  unfold SliceCursor.read
  by_cases hLe : c.data.length ≤ c.dataIndex
  · -- the slice held has run out: a new one from `i`
    obtain ⟨s, hs, hNe, hPre⟩ := hGet i hi
    have hNew : (⟨s, 0⟩ : SliceCursor).At hashes i := by simpa [SliceCursor.At] using hPre
    obtain ⟨hHash, hNext⟩ := hNew.next hi (List.length_pos_iff.mpr hNe)
    exact ⟨_, by simp [hLe, hs, hHash], hNext⟩
  · obtain ⟨hHash, hNext⟩ := hc.next hi (by omega)
    exact ⟨_, by simp [hLe, hHash], hNext⟩

/-- Reading `count` hashes from position `i` on gives the hashes there. -/
theorem SliceCursor.readRun_eq (hGet : SlicesOf hashes get) (count : Nat) {i : Nat}
    {c : SliceCursor} (hc : c.At hashes i) (hCount : i + count ≤ hashes.length) :
    ∃ c', SliceCursor.readRun get count i c = some ((hashes.drop i).take count, c') ∧
      c'.At hashes (i + count) := by
  induction count generalizing i c with
  | zero => exact ⟨c, by simp [SliceCursor.readRun], by simpa using hc⟩
  | succ count ih =>
      obtain ⟨c₁, hRead, hc₁⟩ := c.read_eq hGet hc (by omega)
      obtain ⟨c₂, hRest, hc₂⟩ := ih hc₁ (by omega)
      have hTake : (hashes.drop i).take (count + 1) = hashes[i] :: (hashes.drop (i + 1)).take count := by
        rw [List.drop_eq_getElem_cons (by omega), List.take_succ_cons]
      have hEnd : i + (count + 1) = i + 1 + count := by omega
      refine ⟨c₂, ?_, hEnd ▸ hc₂⟩
      simp only [SliceCursor.readRun, hRead, hRest, hTake, Option.bind_eq_bind, Option.bind_some]
      rfl

end Slices

/-! ### One chunk -/

section Chunk

variable {hashes : List Hash} {get : Nat → Option (List Hash)} (F : Fanout)

/-- The hashes the first `count` of those from `i` to `endIndex` are, read from `i` on. -/
theorem take_drop_take (endIndex : Nat) {i count : Nat} (hCount : count ≤ endIndex - i) :
    (hashes.drop i).take count = ((hashes.take endIndex).drop i).take count := by
  rw [List.drop_take, List.take_take, Nat.min_eq_left hCount]

/-- Up to `remaining` groups of `fanout` hashes from `i` on, stopping at `endIndex`: the hash of
each group of the hashes from `i` to `endIndex`, as far as `remaining` groups reach. -/
theorem hashGroups_eq (hGet : SlicesOf hashes get) {endIndex : Nat}
    (hEnd : endIndex ≤ hashes.length) (remaining : Nat) {i : Nat} {c : SliceCursor}
    (hc : c.At hashes i) (hi : i < endIndex) :
    ∃ c', hashGroups sha256 get F.size endIndex remaining i c =
        some ((chunks F.size (((hashes.take endIndex).drop i).take (remaining * F.size))).map
            (hasherResult sha256),
          i + min (remaining * F.size) (endIndex - i), c') ∧
      c'.At hashes (i + min (remaining * F.size) (endIndex - i)) := by
  have hF : 0 < F.size := by have := F.two_le; omega
  induction remaining generalizing i c with
  | zero => exact ⟨c, by simp [hashGroups], by simpa using hc⟩
  | succ remaining ih =>
      have hSpanLen : ((hashes.take endIndex).drop i).length = endIndex - i := by
        simp only [List.length_drop, List.length_take]
        omega
      have hSpanNe : (hashes.take endIndex).drop i ≠ [] := by
        intro hNil
        rw [hNil, List.length_nil] at hSpanLen
        omega
      obtain ⟨c₁, hRead, hc₁⟩ :=
        c.readRun_eq hGet (min (endIndex - i) F.size) hc (by omega)
      by_cases hLast : endIndex ≤ i + min (endIndex - i) F.size
      · -- the hashes left fit in one group, the last one
        have hShort : endIndex - i ≤ F.size := by omega
        have hMin : min ((remaining + 1) * F.size) (endIndex - i) = endIndex - i := by
          have : F.size ≤ (remaining + 1) * F.size := Nat.le_mul_of_pos_left _ (Nat.succ_pos _)
          omega
        have hItems : (hashes.drop i).take (min (endIndex - i) F.size) =
            (hashes.take endIndex).drop i := by
          rw [take_drop_take endIndex (Nat.min_le_left _ _), List.take_of_length_le (by omega)]
        have hGroups : chunks F.size (((hashes.take endIndex).drop i).take ((remaining + 1) * F.size)) =
            [(hashes.take endIndex).drop i] := by
          rw [List.take_of_length_le (by rw [hSpanLen, hMin.symm]; exact Nat.min_le_left _ _),
            chunks_of_length_le hF hSpanNe (by omega)]
        refine ⟨c₁, ?_, by rwa [hMin, show i + (endIndex - i) = i + min (endIndex - i) F.size by omega]⟩
        simp only [hashGroups, hRead, Option.bind_eq_bind, Option.bind_some, if_pos hLast, hItems,
          hGroups, hMin, List.map_singleton]
        congr 3
        omega
      · -- a whole group, then the groups after it
        have hCount : min (endIndex - i) F.size = F.size := by omega
        rw [hCount] at hRead hc₁ hLast
        obtain ⟨c₂, hRest, hc₂⟩ := ih hc₁ (by omega)
        have hIdx : i + F.size + min (remaining * F.size) (endIndex - (i + F.size)) =
            i + min ((remaining + 1) * F.size) (endIndex - i) := by
          rw [Nat.succ_mul]
          omega
        have hGroups : chunks F.size (((hashes.take endIndex).drop i).take ((remaining + 1) * F.size)) =
            ((hashes.drop i).take F.size) ::
              chunks F.size (((hashes.take endIndex).drop (i + F.size)).take (remaining * F.size)) := by
          rw [chunks_take_succ_mul hF hSpanNe, List.drop_drop, ← take_drop_take endIndex (by omega)]
        refine ⟨c₂, ?_, hIdx ▸ hc₂⟩
        simp only [hashGroups]
        rw [hCount, hRead]
        simp only [Option.bind_eq_bind, Option.bind_some, if_neg hLast, hRest, hGroups, List.map_cons,
          hIdx]
        rfl

/-- The `while` loop of the three-level pass: the hash of the level of each group of
`fanout * fanout` hashes from `i` to `endIndex`. -/
theorem hashGroupsOfGroups_eq (hGet : SlicesOf hashes get) {endIndex : Nat}
    (hEnd : endIndex ≤ hashes.length) (fuel : Nat) {i : Nat} {c : SliceCursor}
    (hc : c.At hashes i) (hFuel : endIndex - i < fuel) :
    hashGroupsOfGroups sha256 get F.size endIndex fuel i c =
      some ((chunks (F.size * F.size) ((hashes.take endIndex).drop i)).map
        fun g => hasherResult sha256 (level F (hasherResult sha256) g)) := by
  have hF : 0 < F.size := by have := F.two_le; omega
  induction fuel generalizing i c with
  | zero => exact absurd hFuel (Nat.not_lt_zero _)
  | succ fuel ih =>
      by_cases hi : i < endIndex
      · obtain ⟨c', hGroups, hc'⟩ := hashGroups_eq sha256 F hGet hEnd F.size hc hi
        have hStep : 0 < min (F.size * F.size) (endIndex - i) :=
          Nat.lt_min.mpr ⟨Nat.mul_pos hF hF, by omega⟩
        have hRest := ih hc' (by omega)
        -- the groups left start where this round stopped
        have hNext : (hashes.take endIndex).drop (i + min (F.size * F.size) (endIndex - i)) =
            ((hashes.take endIndex).drop i).drop (F.size * F.size) := by
          rw [List.drop_drop]
          by_cases hWhole : F.size * F.size ≤ endIndex - i
          · rw [Nat.min_eq_left hWhole]
          · rw [List.drop_eq_nil_of_le (by simp; omega), List.drop_eq_nil_of_le (by simp; omega)]
        have hSpanNe : (hashes.take endIndex).drop i ≠ [] := by
          simp only [ne_eq, List.drop_eq_nil_iff, List.length_take]
          omega
        simp only [hashGroupsOfGroups, if_pos hi, hGroups, Option.bind_eq_bind, Option.bind_some,
          hRest, hNext]
        rw [chunks_of_ne_nil (Nat.mul_pos hF hF) hSpanNe, List.map_cons]
        rfl
      · have hNil : (hashes.take endIndex).drop i = [] := List.drop_eq_nil_of_le (by simp; omega)
        simp [hashGroupsOfGroups, hi, hNil, pure]

/-- A chunk's closure: the hash of the chunk's hashes, or of two levels over them. -/
theorem hashChunk_eq (hGet : SlicesOf hashes get) {data : List Hash} (hData : data <+: hashes)
    (threeLevel : Bool) {startIndex endIndex : Nat} (hStart : startIndex ≤ endIndex)
    (hEnd : endIndex ≤ hashes.length) :
    hashChunk sha256 get F.size threeLevel data startIndex endIndex =
      some (if threeLevel then
          hasherResult sha256 (level F (hasherResult sha256)
            (level F (hasherResult sha256) ((hashes.take endIndex).drop startIndex)))
        else hasherResult sha256 ((hashes.take endIndex).drop startIndex)) := by
  have hc : (⟨data, startIndex⟩ : SliceCursor).At hashes startIndex := hData.drop startIndex
  cases threeLevel with
  | false =>
      obtain ⟨c', hRead, -⟩ := SliceCursor.readRun_eq hGet (endIndex - startIndex) hc (by omega)
      simp only [hashChunk, Bool.not_false, if_true, hRead, Option.map_some]
      rw [take_drop_take endIndex (Nat.le_refl _), List.take_of_length_le (by simp; omega)]
      rfl
  | true =>
      simp only [hashChunk, Bool.not_true, Bool.false_eq_true, if_false,
        hashGroupsOfGroups_eq sha256 F hGet hEnd (endIndex - startIndex + 1) hc (by omega),
        Option.map_some, level_level]
      rfl

end Chunk

/-! ### Reading the files back -/

section Files

/-- One round of `CumulativeOffsets::new`, on a source's length and number. -/
def CumulativeOffsets.newStep (acc : List CumulativeOffset × Nat) : Nat × Nat → List CumulativeOffset × Nat
  | (len, i) => if 0 < len then (acc.1 ++ [⟨[i], acc.2⟩], acc.2 + len) else acc

theorem CumulativeOffsets.new_eq_foldl (lens : List Nat) :
    CumulativeOffsets.new lens =
      ⟨(lens.zipIdx.foldl CumulativeOffsets.newStep ([], 0)).1,
        (lens.zipIdx.foldl CumulativeOffsets.newStep ([], 0)).2⟩ := rfl

/-- With every source nonempty, source `j` starts after the sources before it. -/
theorem CumulativeOffsets.foldl_newStep {lens : List Nat} (hPos : ∀ len ∈ lens, 0 < len) :
    lens.zipIdx.foldl CumulativeOffsets.newStep ([], 0) =
      ((List.range lens.length).map (fun j => ⟨[j], (lens.take j).sum⟩), lens.sum) := by
  induction lens using List.reverseRecOn with
  | nil => rfl
  | append_singleton lens len ih =>
      have hLen : 0 < len := hPos len (by simp)
      rw [List.zipIdx_append, List.foldl_append, ih (fun l hl => hPos l (by simp [hl]))]
      simp only [List.zipIdx_singleton, Nat.zero_add, List.foldl_cons, List.foldl_nil,
        CumulativeOffsets.newStep, if_pos hLen, List.length_append, List.length_singleton,
        List.range_succ, List.map_append, List.map_singleton, List.sum_append, List.sum_singleton,
        List.take_left' rfl]
      congr 2
      apply List.map_congr_left
      intro j hj
      rw [List.take_append_of_le_length (Nat.le_of_lt (List.mem_range.mp hj))]

/-- A position below the total lies in some source: past the sources before it and before the
end of its own. -/
theorem exists_take_sum_le_lt {lens : List Nat} {start : Nat} (hStart : start < lens.sum) :
    ∃ j < lens.length, (lens.take j).sum ≤ start ∧ start < (lens.take (j + 1)).sum := by
  induction lens generalizing start with
  | nil => exact absurd hStart (Nat.not_lt_zero _)
  | cons len lens ih =>
      by_cases hHere : start < len
      · exact ⟨0, by simp, by simp, by simpa using hHere⟩
      · obtain ⟨j, hj, hLo, hHi⟩ := ih (show start - len < lens.sum by simp at hStart; omega)
        exact ⟨j + 1, by simpa using hj, by simp; omega, by simp [List.take_succ_cons] at hHi ⊢; omega⟩

/-- The start offsets `CumulativeOffsets::new` records for nonempty sources of lengths `lens`. -/
def startOffsets (lens : List Nat) : List CumulativeOffset :=
  (List.range lens.length).map fun j => ⟨[j], (lens.take j).sum⟩

variable {lens : List Nat}

/-- Nonempty sources start at strictly increasing offsets. -/
theorem take_sum_lt (hPos : ∀ len ∈ lens, 0 < len) {k j : Nat} (hkj : k < j) (hj : j ≤ lens.length) :
    (lens.take k).sum < (lens.take j).sum := by
  induction j with
  | zero => exact absurd hkj (Nat.not_lt_zero _)
  | succ j ih =>
      have hHere : 0 < lens[j] := hPos _ (List.getElem_mem _)
      rw [List.sum_take_succ lens j (by omega)]
      by_cases hk : k = j
      · rw [hk]
        omega
      · have := ih (by omega) (by omega)
        omega

theorem take_sum_le (hPos : ∀ len ∈ lens, 0 < len) {k j : Nat} (hkj : k ≤ j) (hj : j ≤ lens.length) :
    (lens.take k).sum ≤ (lens.take j).sum := by
  rcases Nat.lt_or_eq_of_le hkj with hLt | rfl
  · exact (take_sum_lt hPos hLt hj).le
  · exact Nat.le_refl _

/-- `find_index` finds the source holding position `start`: the start offset equal to `start`, or
else the last one below it. -/
theorem CumulativeOffsets.findIndex_eq (hPos : ∀ len ∈ lens, 0 < len) {start j : Nat}
    (hj : j < lens.length) (hLo : (lens.take j).sum ≤ start) (hHi : start < (lens.take (j + 1)).sum) :
    (⟨startOffsets lens, lens.sum⟩ : CumulativeOffsets).findIndex start = some j := by
  -- a start offset is below `start` exactly for the sources up to `j`
  have hBelow : ∀ k < lens.length, (lens.take k).sum < start ↔ k < j ∨ (k = j ∧ (lens.take j).sum ≠ start) := by
    intro k hk
    rcases Nat.lt_trichotomy k j with hkj | rfl | hjk
    · have := take_sum_lt hPos hkj hj.le
      omega
    · omega
    · have := take_sum_le hPos (show j + 1 ≤ k by omega) hk.le
      omega
  have hNe : (startOffsets lens).isEmpty = false := by
    simp only [startOffsets, List.isEmpty_eq_false_iff, ne_eq, List.map_eq_nil_iff, List.range_eq_nil]
    omega
  simp only [findIndex, hNe, Bool.false_eq_true, if_false, searchStartOffset]
  by_cases hEq : (lens.take j).sum = start
  · -- `start` is where source `j` starts
    have hFound : (startOffsets lens).findIdx? (·.startOffset == start) = some j := by
      rw [List.findIdx?_eq_some_iff_getElem]
      refine ⟨by simpa [startOffsets] using hj, by simp [startOffsets, hEq], fun k hk => ?_⟩
      have := (hBelow k (by omega)).mpr (.inl hk)
      simp only [startOffsets, List.getElem_map, List.getElem_range, beq_iff_eq]
      omega
    rw [hFound]
  · -- `start` lies inside source `j`, and the `j + 1` offsets up to its own lie below it
    have hNone : (startOffsets lens).findIdx? (·.startOffset == start) = none := by
      rw [List.findIdx?_eq_none_iff]
      intro o ho
      obtain ⟨k, hk, rfl⟩ := List.mem_map.mp ho
      have hk' := List.mem_range.mp hk
      rcases Nat.lt_or_ge k (j + 1) with hkj | hkj
      · have := (hBelow k hk').mpr (by omega)
        simp only [beq_eq_false_iff_ne, ne_eq]
        omega
      · have := take_sum_le hPos hkj hk'.le
        simp only [beq_eq_false_iff_ne, ne_eq]
        omega
    have hCount : (startOffsets lens).countP (·.startOffset < start) = j + 1 := by
      have hSplit : lens.length = (j + 1) + (lens.length - (j + 1)) := by omega
      rw [startOffsets, List.countP_map, hSplit, List.range_add, List.countP_append,
        List.countP_eq_length.mpr, List.countP_eq_zero.mpr, Nat.add_zero, List.length_range]
      · intro k hk
        obtain ⟨m, hm, rfl⟩ := List.mem_map.mp hk
        have hm' := List.mem_range.mp hm
        have := take_sum_le hPos (Nat.le_add_right (j + 1) m) (by omega)
        simp only [Function.comp_apply, decide_eq_true_eq]
        omega
      · intro k hk
        have := (hBelow k (by have := List.mem_range.mp hk; omega)).mpr (by have := List.mem_range.mp hk; omega)
        simpa using this
    rw [hNone]
    simp only [hCount, Nat.add_one_ne_zero, if_false, Nat.add_sub_cancel]

/-- What the files hold from a position inside file `j` on: the rest of file `j`, then the files
after it. -/
theorem drop_flatten_of_mem {readers : List (List Hash)} {j start : Nat} (hj : j < readers.length)
    (hLo : ((readers.map List.length).take j).sum ≤ start)
    (hIn : start - ((readers.map List.length).take j).sum ≤ readers[j].length) :
    readers.flatten.drop start =
      readers[j].drop (start - ((readers.map List.length).take j).sum) ++
        (readers.drop (j + 1)).flatten := by
  have hFront : ((readers.take j).flatten).length = ((readers.map List.length).take j).sum := by
    rw [List.length_flatten, List.map_take]
  calc readers.flatten.drop start
      = ((readers.take j).flatten ++ (readers[j] ++ (readers.drop (j + 1)).flatten)).drop start := by
        rw [← List.flatten_cons, ← List.drop_eq_getElem_cons hj, ← List.flatten_append,
          List.take_append_drop]
    _ = (readers[j] ++ (readers.drop (j + 1)).flatten).drop
          (start - ((readers.map List.length).take j).sum) := by
        rw [List.drop_append, List.drop_eq_nil_of_le (by omega), List.nil_append, hFront]
    _ = _ := List.drop_append_of_le_length hIn

/-- The offsets of the files `from_files` keeps: every file it keeps is nonempty. -/
theorem CumulativeHashesFromFiles.cumulative_fromFiles (files : List AccountHashesFile) :
    (CumulativeHashesFromFiles.fromFiles files).cumulative =
      ⟨startOffsets ((CumulativeHashesFromFiles.fromFiles files).readers.map List.length),
        ((CumulativeHashesFromFiles.fromFiles files).readers.map List.length).sum⟩ := by
  have hPos : ∀ len ∈ (files.filter fun file => !file.isEmpty).map List.length, 0 < len := by
    intro len hl
    obtain ⟨r, hr, rfl⟩ := List.mem_map.mp hl
    have hNe := (List.mem_filter.mp hr).2
    simpa [List.length_pos_iff] using hNe
  simp only [fromFiles]
  rw [CumulativeOffsets.new_eq_foldl, CumulativeOffsets.foldl_newStep hPos]
  rfl

/-- The files hold all the hashes, in order. -/
theorem CumulativeHashesFromFiles.totalCount_fromFiles (files : List AccountHashesFile) :
    (CumulativeHashesFromFiles.fromFiles files).totalCount = files.flatten.length := by
  rw [totalCount, cumulative_fromFiles, ← List.length_flatten]
  simp only [fromFiles]
  rw [List.flatten_filter_not_isEmpty]

/-- `get_slice` at a position inside file `j`: the rest of file `j`. -/
theorem CumulativeHashesFromFiles.getSlice_eq {readers : List (List Hash)}
    (hPos : ∀ len ∈ readers.map List.length, 0 < len) {start j : Nat} (hj : j < readers.length)
    (hLo : ((readers.map List.length).take j).sum ≤ start)
    (hIn : start - ((readers.map List.length).take j).sum < readers[j].length) :
    (⟨readers, ⟨startOffsets (readers.map List.length), (readers.map List.length).sum⟩⟩ :
        CumulativeHashesFromFiles).getSlice start =
      some (readers[j].drop (start - ((readers.map List.length).take j).sum)) := by
  have hj' : j < (readers.map List.length).length := by simpa using hj
  have hHi : start < ((readers.map List.length).take (j + 1)).sum := by
    rw [List.sum_take_succ _ _ hj', List.getElem_map]
    omega
  simp only [getSlice, CumulativeOffsets.find]
  rw [CumulativeOffsets.findIndex_eq hPos hj' hLo hHi]
  have hEnd : start ≤ readers[j].length + ((readers.map List.length).take j).sum := by omega
  simp [startOffsets, hj, hLo, readHashes, hEnd]

/-- `get_slice` over the files hands out, at every position, the rest of the file holding it. -/
theorem CumulativeHashesFromFiles.slicesOf_fromFiles (files : List AccountHashesFile) :
    SlicesOf files.flatten (CumulativeHashesFromFiles.fromFiles files).getSlice := by
  have hFiles : CumulativeHashesFromFiles.fromFiles files =
      ⟨(fromFiles files).readers, ⟨startOffsets ((fromFiles files).readers.map List.length),
        ((fromFiles files).readers.map List.length).sum⟩⟩ := by
    rw [← cumulative_fromFiles]
  have hPos : ∀ len ∈ (fromFiles files).readers.map List.length, 0 < len := by
    intro len hl
    obtain ⟨r, hr, rfl⟩ := List.mem_map.mp hl
    have hNe := (List.mem_filter.mp hr).2
    simpa [List.length_pos_iff] using hNe
  have hFlat : files.flatten = (fromFiles files).readers.flatten := List.flatten_filter_not_isEmpty.symm
  rw [hFiles, hFlat]
  generalize (fromFiles files).readers = readers at hPos
  intro start hStart
  rw [List.length_flatten] at hStart
  obtain ⟨j, hj, hLo, hHi⟩ := exists_take_sum_le_lt hStart
  have hjr : j < readers.length := by simpa using hj
  rw [List.sum_take_succ _ _ hj, List.getElem_map] at hHi
  have hIn : start - ((readers.map List.length).take j).sum < readers[j].length := by omega
  refine ⟨_, getSlice_eq hPos hjr hLo hIn, ?_, ?_⟩
  · simpa [List.drop_eq_nil_iff] using hIn
  · rw [drop_flatten_of_mem hjr hLo hIn.le]
    exact List.prefix_append _ _

end Files

/-! ### The root -/

section Root

variable {hashes : List Hash} {get : Nat → Option (List Hash)} (F : Fanout)

/-- With no level count asked for, three levels are hashed at once exactly when there are at
least `fanout ^ 4` hashes. -/
theorem calculateThreeLevelChunks_none (totalHashes fanout : Nat) :
    calculateThreeLevelChunks totalHashes fanout none none =
      if fanout ^ 3 * fanout ≤ totalHashes then (fanout ^ 3, 3, true) else (fanout, 1, false) := by
  have hMax : 3 ≤ Lib.Word.maxValue 64 := by simp [Lib.Word.maxValue]
  by_cases hThree : fanout ^ 3 * fanout ≤ totalHashes <;>
    simp [calculateThreeLevelChunks, hThree, hMax]

/-- Every chunk starts before the end of the hashes. -/
theorem mul_lt_of_lt_divCeil {i x y : Nat} (hy : 0 < y) (hi : i < divCeil x y) : i * y < x := by
  rw [divCeil_eq hy] at hi
  have hLe := (Nat.le_div_iff_mul_le hy).mp hi
  rw [Nat.succ_mul] at hLe
  omega

/-- The closures over all chunks of `n` hashes give, chunk by chunk, the hash of the chunk or of
two levels over it. -/
theorem mapM_hashChunk (hGet : SlicesOf hashes get) {data : List Hash} (hData : data <+: hashes)
    (threeLevel : Bool) {n : Nat} (hn : 0 < n) :
    (List.range (divCeil hashes.length n)).mapM
        (fun i => hashChunk sha256 get F.size threeLevel data (i * n) (min (i * n + n) hashes.length)) =
      some ((chunks n hashes).map fun g =>
        if threeLevel then
          hasherResult sha256 (level F (hasherResult sha256) (level F (hasherResult sha256) g))
        else hasherResult sha256 g) := by
  rw [Lib.List.mapM_eq_some_of_forall fun i hi =>
      hashChunk_eq sha256 F hGet hData threeLevel
        (show i * n ≤ min (i * n + n) hashes.length from
          Nat.le_min.mpr ⟨Nat.le_add_right _ _, (mul_lt_of_lt_divCeil hn (List.mem_range.mp hi)).le⟩)
        (Nat.min_le_right _ _),
    divCeil_eq hn]
  exact congrArg some (map_range_slices hn (fun g =>
    if threeLevel then
      hasherResult sha256 (level F (hasherResult sha256) (level F (hasherResult sha256) g))
    else hasherResult sha256 g) hashes)

/-- `compute_merkle_root_from_slices` over slices of the hashes computes their Merkle root. -/
theorem computeMerkleRootFromSlices_eq (hGet : SlicesOf hashes get) :
    computeMerkleRootFromSlices sha256 hashes.length F none get =
      some (root F (hasherResult sha256) hashes) := by
  have hF : 0 < F.size := by have := F.two_le; omega
  by_cases hNil : hashes = []
  · subst hNil
    simp [computeMerkleRootFromSlices]
  have hLen : 0 < hashes.length := List.length_pos_iff.mpr hNil
  obtain ⟨data, hData, -, hPre⟩ := hGet 0 hLen
  rw [List.drop_zero] at hPre
  unfold computeMerkleRootFromSlices
  rw [if_neg (Nat.pos_iff_ne_zero.mp hLen), calculateThreeLevelChunks_none]
  by_cases hThree : F.size ^ 3 * F.size ≤ hashes.length
  · -- three levels at once: the chunks' hashes are the third level
    have hLevels : (chunks (F.size ^ 3) hashes).map (fun g =>
          hasherResult sha256 (level F (hasherResult sha256) (level F (hasherResult sha256) g))) =
        level F (hasherResult sha256) (level F (hasherResult sha256)
          (level F (hasherResult sha256) hashes)) := by
      rw [level_level_level, show F.size ^ 3 = F.size * F.size * F.size by rw [Nat.pow_succ, Nat.pow_two]]
    -- each of the three levels has at least `fanout` hashes, so none is the root yet
    have h₁ : F.size ^ 3 ≤ (level F (hasherResult sha256) hashes).length :=
      pow_le_length_level F _ hThree
    have h₂ : F.size ^ 2 ≤ (level F (hasherResult sha256) (level F (hasherResult sha256) hashes)).length :=
      pow_le_length_level F _ h₁
    have h₃ : F.size ^ 1 ≤ (level F (hasherResult sha256) (level F (hasherResult sha256)
        (level F (hasherResult sha256) hashes))).length :=
      pow_le_length_level F _ h₂
    rw [Nat.pow_one] at h₃
    have hTwo := F.two_le
    have hPow₂ : F.size ≤ F.size ^ 2 := Nat.le_self_pow (by decide) _
    have hPow₃ : F.size ≤ F.size ^ 3 := Nat.le_self_pow (by decide) _
    rw [if_pos hThree]
    simp only [hData, Option.bind_eq_bind, Option.bind_some]
    rw [mapM_hashChunk sha256 F hGet hPre true (Nat.pow_pos hF)]
    simp only [if_true, Option.bind_some, hLevels]
    rw [dif_neg (by omega), computeMerkleRootLoop_eq_root,
      root_level F _ (List.ne_nil_of_length_pos (by omega)) (by omega),
      root_level F _ (List.ne_nil_of_length_pos (by omega)) (by omega),
      root_level F _ hNil (by omega)]
    rfl
  · -- one level: the chunks' hashes are the first level
    rw [if_neg hThree]
    simp only [hData, Option.bind_eq_bind, Option.bind_some]
    rw [mapM_hashChunk sha256 F hGet hPre false hF]
    simp only [Bool.false_eq_true, if_false, Option.bind_some]
    have hLevel : (chunks F.size hashes).map (fun g => hasherResult sha256 g) =
        level F (hasherResult sha256) hashes := rfl
    rw [hLevel]
    by_cases hOne : (level F (hasherResult sha256) hashes).length = 1
    · rw [dif_pos hOne, root_of_ne_nil F _ hNil, dif_pos hOne]
      rfl
    · rw [dif_neg hOne, computeMerkleRootLoop_eq_root, root_level F _ hNil hOne]
      rfl

end Root

/-! ### The accounts hash -/

section Calculation

variable (blake3 : List UInt8 → Hash)

/-- `rest_of_hash_calculation` on bins sorted by pubkey: the fanout-16 Merkle root of the hashes
each bin keeps, bin after bin, with the total of their lamports, or a panic once that total
leaves `u128`. -/
theorem AccountsHasher.restOfHashCalculation_eq (self : AccountsHasher) {data : List SortedDataByPubkey}
    (hSorted : ∀ bins ∈ data, ∀ bin ∈ bins, bin.Pairwise (fun a b => a.pubkey ≤ b.pubkey)) :
    self.restOfHashCalculation sha256 blake3 data =
      if ((List.range pubkeyBinsForCalculatingHashes).map (self.binLamports data)).sum < 2 ^ 128 then
        some (root merkleFanout (hasherResult sha256)
            ((List.range pubkeyBinsForCalculatingHashes).flatMap (self.binHashes blake3 data)),
          ((List.range pubkeyBinsForCalculatingHashes).map (self.binLamports data)).sum)
      else none := by
  unfold restOfHashCalculation
  rw [self.deDupAccounts_eq blake3 hSorted]
  by_cases hSum : ((List.range pubkeyBinsForCalculatingHashes).map (self.binLamports data)).sum < 2 ^ 128
  · rw [if_pos hSum, if_pos hSum]
    simp only [Option.bind_eq_bind, Option.bind_some]
    rw [CumulativeHashesFromFiles.totalCount_fromFiles,
      computeMerkleRootFromSlices_eq sha256 merkleFanout (CumulativeHashesFromFiles.slicesOf_fromFiles _),
      List.flatMap_def]
    rfl
  · rw [if_neg hSum, if_neg hSum]
    rfl

/-- What the accounts hash computes from slot groups (the oldest first) whose bins are sorted by
pubkey. Each bin gives one entry for each distinct pubkey it holds, in strictly increasing pubkey
order: the pubkey's last entry in the last slot group that holds it. That entry gives its hash
unless it has no lamports (then, for an incremental hash, the hash of its pubkey) or is a filler
account, and its lamports unless it is a filler account; `de_dup_accounts_in_parallel` returns
these with the number of entries of the bin, and `rest_of_hash_calculation` the fanout-16 Merkle
root of the hashes of all bins, bin after bin, with the total of their lamports. A total that
leaves `u128` panics. -/
structure AccountsHashSpec (self : AccountsHasher) (data : List SortedDataByPubkey) : Prop where
  deDup_eq : ∀ pubkeyBin, self.deDupAccountsInParallel blake3 data pubkeyBin =
    if self.binLamports data pubkeyBin < 2 ^ 128 then
      some (self.binHashes blake3 data pubkeyBin, self.binLamports data pubkeyBin,
        Lib.SortedRuns.size (binRuns data pubkeyBin))
    else none
  pubkeys_sorted : ∀ pubkeyBin, (binPubkeys data pubkeyBin).Pairwise (· < ·)
  mem_pubkeys : ∀ pubkeyBin k, k ∈ binPubkeys data pubkeyBin ↔
    ∃ bins ∈ data, ∃ entry ∈ (bins[pubkeyBin]?).getD [], entry.pubkey = k
  newest_pubkey : ∀ pubkeyBin k, k ∈ binPubkeys data pubkeyBin →
    ∃ entry, newestEntry data pubkeyBin k = some entry ∧ entry.pubkey = k
  root_eq : self.restOfHashCalculation sha256 blake3 data =
    if ((List.range pubkeyBinsForCalculatingHashes).map (self.binLamports data)).sum < 2 ^ 128 then
      some (root merkleFanout (hasherResult sha256)
          ((List.range pubkeyBinsForCalculatingHashes).flatMap (self.binHashes blake3 data)),
        ((List.range pubkeyBinsForCalculatingHashes).map (self.binLamports data)).sum)
    else none

theorem mem_binPubkeys {data : List SortedDataByPubkey} {pubkeyBin : Nat} {k : Pubkey} :
    k ∈ binPubkeys data pubkeyBin ↔
      ∃ bins ∈ data, ∃ entry ∈ (bins[pubkeyBin]?).getD [], entry.pubkey = k := by
  rw [binPubkeys, Lib.SortedRuns.mem_sortedKeys]
  simp [Lib.SortedRuns.Mem, binRuns]

/-- The accounts hash keeps exactly the newest version of each account, bin by bin, and hashes
what it keeps into the Merkle root. -/
theorem accounts_hash_keeps_newest_versions (self : AccountsHasher) (data : List SortedDataByPubkey)
    (hSorted : ∀ bins ∈ data, ∀ bin ∈ bins, bin.Pairwise (fun a b => a.pubkey ≤ b.pubkey)) :
    AccountsHashSpec sha256 blake3 self data where
  deDup_eq _ := self.deDupAccountsInParallel_eq blake3 hSorted
  pubkeys_sorted _ := Lib.SortedRuns.pairwise_sortedKeys _
  mem_pubkeys _ _ := mem_binPubkeys
  newest_pubkey pubkeyBin k hk := by
    obtain ⟨entry, hEntry⟩ := Option.isSome_iff_exists.mp
      (Lib.SortedRuns.newest_isSome (Lib.SortedRuns.mem_sortedKeys.mp hk))
    exact ⟨entry, hEntry, Lib.SortedRuns.key_of_newest_eq_some hEntry⟩
  root_eq := self.restOfHashCalculation_eq sha256 blake3 hSorted

/-- One slot group with two entries of one pubkey in bin 0. -/
theorem accounts_hash_keeps_newest_versions_one_group :
    (∀ bins ∈ [[[(⟨Hash.default, 1, Pubkey.default⟩ : CalculateHashIntermediate),
        ⟨⟨Vector.replicate 32 1⟩, 2, Pubkey.default⟩]]], ∀ bin ∈ bins,
        bin.Pairwise (fun a b => a.pubkey ≤ b.pubkey)) ∧
      AccountsHashSpec (fun _ => Hash.default) (fun _ => Hash.default) ⟨none, .excluded⟩
        [[[⟨Hash.default, 1, Pubkey.default⟩, ⟨⟨Vector.replicate 32 1⟩, 2, Pubkey.default⟩]]] :=
  ⟨by decide, accounts_hash_keeps_newest_versions _ _ _ _ (by decide)⟩

end Calculation

end PutValidator
