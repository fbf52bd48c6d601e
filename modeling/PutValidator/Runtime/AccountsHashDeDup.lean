import PutValidator.Runtime.AccountsHash

/-! De-duplication keeps the newest version of each account. What the cursors of
`de_dup_accounts_in_parallel` have left is a list of sorted runs, one per slot group not yet
exhausted, and each round of the merge is a step of `Lib.SortedRuns`: `get_item` advances one run
past its current pubkey, the scan picks the smallest pubkey with the last group that holds it,
and the duplicates it records are runs whose pubkey a later group still holds. So the merge emits
the sorted distinct pubkeys of the bin, each with its last entry in the last slot group that holds
it, and `add_item` turns these entries into hashes and a lamport total. -/
namespace PutValidator

open Lib.SortedRuns

variable (blake3 : List UInt8 → Hash)

/-! ### What a bin should give -/

/-- The bin `pubkeyBin` of each slot group, the oldest group first. -/
def binRuns (data : List SortedDataByPubkey) (pubkeyBin : Nat) :
    List (List CalculateHashIntermediate) :=
  data.map fun bins => (bins[pubkeyBin]?).getD []

/-- The entry that counts for pubkey `k`: its last entry in the last slot group that holds it. -/
def newestEntry (data : List SortedDataByPubkey) (pubkeyBin : Nat) (k : Pubkey) :
    Option CalculateHashIntermediate :=
  newest CalculateHashIntermediate.pubkey (binRuns data pubkeyBin) k

/-- The distinct pubkeys of a bin, in increasing order. -/
def binPubkeys (data : List SortedDataByPubkey) (pubkeyBin : Nat) : List Pubkey :=
  sortedKeys CalculateHashIntermediate.pubkey (binRuns data pubkeyBin)

/-- The entries de-duplication keeps from a bin, in pubkey order. -/
def keptEntries (data : List SortedDataByPubkey) (pubkeyBin : Nat) :
    List CalculateHashIntermediate :=
  (binPubkeys data pubkeyBin).filterMap (newestEntry data pubkeyBin)

/-- The hash `add_item` writes for a kept entry, if any. -/
def AccountsHasher.itemHash (self : AccountsHasher) (item : CalculateHashIntermediate) :
    Option Hash :=
  if item.lamports ≠ 0 then
    if !(self.fillerAccountsEnabled && self.isFillerAccount item.pubkey) then some item.hash
    else none
  else if self.zeroLamportAccounts = .included then some (blake3 item.pubkey.bytes.toList)
  else none

/-- The lamports `add_item` counts for a kept entry: none for a filler account. -/
def AccountsHasher.itemLamports (self : AccountsHasher) (item : CalculateHashIntermediate) : Nat :=
  if self.fillerAccountsEnabled && self.isFillerAccount item.pubkey then 0 else item.lamports

/-- The hashes a bin should give. -/
def AccountsHasher.binHashes (self : AccountsHasher) (data : List SortedDataByPubkey)
    (pubkeyBin : Nat) : List Hash :=
  (keptEntries data pubkeyBin).filterMap (self.itemHash blake3)

/-- The lamports a bin should give. -/
def AccountsHasher.binLamports (self : AccountsHasher) (data : List SortedDataByPubkey)
    (pubkeyBin : Nat) : Nat :=
  ((keptEntries data pubkeyBin).map self.itemLamports).sum

/-! ### `add_item` -/

/-- One entry: its hash and lamports, or a panic once the total leaves `u128`. -/
theorem AccountsHasher.addItem_eq (self : AccountsHasher) (item : CalculateHashIntermediate)
    {acc : AccountHashesFile × Nat} (hAcc : acc.2 < 2 ^ 128) :
    self.addItem blake3 item acc =
      if acc.2 + self.itemLamports item < 2 ^ 128 then
        some (acc.1 ++ (self.itemHash blake3 item).toList, acc.2 + self.itemLamports item)
      else none := by
  unfold addItem itemHash itemLamports
  by_cases hZero : item.lamports = 0
  · by_cases hFiller : (self.fillerAccountsEnabled && self.isFillerAccount item.pubkey) = true
    · by_cases hIncl : self.zeroLamportAccounts = .included <;>
        simp [hZero, hFiller, hIncl, hAcc, -Nat.reducePow]
    · by_cases hIncl : self.zeroLamportAccounts = .included <;>
        simp [hZero, hFiller, hIncl, hAcc, -Nat.reducePow]
  · by_cases hFiller : (self.fillerAccountsEnabled && self.isFillerAccount item.pubkey) = true
    · simp [hZero, hFiller, hAcc, -Nat.reducePow]
    · by_cases hSum : acc.2 + item.lamports < 2 ^ 128 <;>
        simp [hZero, hFiller, checkedCastForCapitalization, Nat.add_comm item.lamports, hSum,
          -Nat.reducePow]

/-- A run of entries: their hashes and the total of their lamports, or a panic once some partial
total leaves `u128`, which is exactly when the whole total does. -/
theorem AccountsHasher.foldlM_addItem (self : AccountsHasher) (items : List CalculateHashIntermediate)
    {acc : AccountHashesFile × Nat} (hAcc : acc.2 < 2 ^ 128) :
    items.foldlM (fun acc item => self.addItem blake3 item acc) acc =
      if acc.2 + (items.map self.itemLamports).sum < 2 ^ 128 then
        some (acc.1 ++ items.filterMap (self.itemHash blake3),
          acc.2 + (items.map self.itemLamports).sum)
      else none := by
  induction items generalizing acc with
  | nil => simp [hAcc, -Nat.reducePow]
  | cons item items ih =>
      rw [List.foldlM_cons, self.addItem_eq blake3 item hAcc]
      by_cases hItem : acc.2 + self.itemLamports item < 2 ^ 128
      · rw [if_pos hItem, Option.bind_eq_bind, Option.bind_some, ih hItem]
        simp only [List.map_cons, List.sum_cons, List.filterMap_cons, List.append_assoc,
          ← Nat.add_assoc]
        cases self.itemHash blake3 item <;> rfl
      · have hTotal : ¬ acc.2 + ((item :: items).map self.itemLamports).sum < 2 ^ 128 := by
          simp only [List.map_cons, List.sum_cons]
          omega
        rw [if_neg hItem, if_neg hTotal]
        rfl

/-! ### The scan for the smallest pubkey -/

/-- What the scan over the groups' current pubkeys `ks` finds: the smallest pubkey `m`, the last
position `mi` holding it, and duplicates below `mi` that hold `m` or a pubkey held again at a
later position. -/
structure ScanSpec (ks : List Pubkey) (mi : Nat) (m : Pubkey) (dups : List Nat) : Prop where
  min_at : ks[mi]? = some m
  min_le : ∀ k ∈ ks, m ≤ k
  last : ∀ j k, ks[j]? = some k → mi < j → k ≠ m
  dups_sorted : dups.Pairwise (· < ·)
  dups_lt : ∀ d ∈ dups, d < mi
  min_dup : ∀ j, ks[j]? = some m → j = mi ∨ j ∈ dups
  dup_later : ∀ d ∈ dups, ∀ k, ks[d]? = some k → k = m ∨ ∃ j, d < j ∧ ks[j]? = some k

theorem getElem?_append_singleton {ks : List Pubkey} {x k : Pubkey} {j : Nat}
    (h : (ks ++ [x])[j]? = some k) : (j < ks.length ∧ ks[j]? = some k) ∨ (j = ks.length ∧ k = x) := by
  rw [List.getElem?_append] at h
  split at h
  · exact .inl ⟨by assumption, h⟩
  · rename_i hj
    have hEq : j - ks.length = 0 := by
      have := (List.getElem?_eq_some_iff.mp h).1
      simp at this
      omega
    rw [hEq] at h
    exact .inr ⟨by omega, (Option.some.inj h).symm⟩

theorem getElem?_append_of_getElem? {ks : List Pubkey} {x k : Pubkey} {j : Nat}
    (h : ks[j]? = some k) : (ks ++ [x])[j]? = some k := by
  rw [List.getElem?_append_left (List.getElem?_eq_some_iff.mp h).1, h]

/-- No position of `ks ++ [x]` lies past `ks.length`. -/
theorem not_length_lt_of_getElem?_append {ks : List Pubkey} {x k : Pubkey} {j : Nat}
    (h : (ks ++ [x])[j]? = some k) : ¬ks.length < j := by
  have := (List.getElem?_eq_some_iff.mp h).1
  simp at this
  omega

/-- A duplicate found so far still holds the smallest pubkey or one held again later, on one more
position. -/
theorem ScanSpec.dup_later_append {ks : List Pubkey} {mi : Nat} {m : Pubkey} {dups : List Nat}
    (h : ScanSpec ks mi m dups) {d : Nat} (hd : d ∈ dups) {x k : Pubkey}
    (hk : (ks ++ [x])[d]? = some k) : k = m ∨ ∃ j, d < j ∧ (ks ++ [x])[j]? = some k := by
  have hmi : mi < ks.length := (List.getElem?_eq_some_iff.mp h.min_at).1
  rcases getElem?_append_singleton hk with ⟨-, hk⟩ | ⟨hdLen, -⟩
  · exact (h.dup_later d hd k hk).imp_right
      (Exists.imp fun _ hj => ⟨hj.1, getElem?_append_of_getElem? hj.2⟩)
  · exact absurd (hdLen ▸ h.dups_lt d hd) (Nat.not_lt.mpr (Nat.le_of_lt hmi))

/-- One round of the scan keeps what it has found, on one more position. -/
theorem ScanSpec.step {ks : List Pubkey} {mi : Nat} {m : Pubkey} {dups : List Nat}
    (h : ScanSpec ks mi m dups) (x : Pubkey) :
    ScanSpec (ks ++ [x]) (scanStep (mi, m, dups) (x, ks.length)).1
      (scanStep (mi, m, dups) (x, ks.length)).2.1 (scanStep (mi, m, dups) (x, ks.length)).2.2 := by
  have hmi : mi < ks.length := (List.getElem?_eq_some_iff.mp h.min_at).1
  rcases hCmp : compare m x with _ | _ | _
  · -- a larger pubkey: nothing changes
    have hmx : m < x := compare_lt_iff_lt.mp hCmp
    simp only [scanStep, hCmp]
    refine ⟨getElem?_append_of_getElem? h.min_at,
      List.forall_mem_append.mpr ⟨h.min_le, List.forall_mem_singleton.mpr hmx.le⟩, ?_,
      h.dups_sorted, h.dups_lt, ?_, fun d hd k hk => h.dup_later_append hd hk⟩
    · intro j k hj hmj
      rcases getElem?_append_singleton hj with ⟨-, hj⟩ | ⟨-, rfl⟩
      · exact h.last j k hj hmj
      · exact ne_of_gt hmx
    · intro j hj
      rcases getElem?_append_singleton hj with ⟨-, hj⟩ | ⟨-, hEq⟩
      · exact h.min_dup j hj
      · exact absurd hEq (ne_of_lt hmx)
  · -- the same pubkey in a later group: the earlier position becomes a duplicate
    have hmx : m = x := compare_eq_iff_eq.mp hCmp
    subst hmx
    simp only [scanStep, hCmp]
    refine ⟨List.getElem?_concat_length,
      List.forall_mem_append.mpr ⟨h.min_le, List.forall_mem_singleton.mpr le_rfl⟩,
      fun j k hj hmj => absurd hmj (not_length_lt_of_getElem?_append hj), ?_, ?_, ?_, ?_⟩
    · exact List.pairwise_append.mpr ⟨h.dups_sorted, List.pairwise_singleton _ _,
        fun d hd e he => (List.mem_singleton.mp he) ▸ h.dups_lt d hd⟩
    · intro d hd
      rcases List.mem_append.mp hd with hd | hd
      · exact Nat.lt_trans (h.dups_lt d hd) hmi
      · exact (List.mem_singleton.mp hd) ▸ hmi
    · intro j hj
      rcases getElem?_append_singleton hj with ⟨-, hj⟩ | ⟨hjLen, -⟩
      · rcases h.min_dup j hj with rfl | hd
        · exact .inr (List.mem_append_right _ (List.mem_singleton_self _))
        · exact .inr (List.mem_append_left _ hd)
      · exact .inl hjLen
    · intro d hd k hk
      rcases List.mem_append.mp hd with hd | hd
      · exact h.dup_later_append hd hk
      · -- the earlier position holds the smallest pubkey itself
        rw [List.mem_singleton.mp hd, getElem?_append_of_getElem? h.min_at] at hk
        exact .inl (Option.some.inj hk).symm
  · -- a smaller pubkey: the scan starts over from it, keeping the duplicates found so far
    have hxm : x < m := compare_gt_iff_gt.mp hCmp
    simp only [scanStep, hCmp]
    refine ⟨List.getElem?_concat_length, List.forall_mem_append.mpr
        ⟨fun k hk => (hxm.trans_le (h.min_le k hk)).le, List.forall_mem_singleton.mpr le_rfl⟩,
      fun j k hj hmj => absurd hmj (not_length_lt_of_getElem?_append hj), h.dups_sorted,
      fun d hd => Nat.lt_trans (h.dups_lt d hd) hmi, ?_, ?_⟩
    · intro j hj
      rcases getElem?_append_singleton hj with ⟨-, hj⟩ | ⟨hjLen, -⟩
      · exact absurd (h.min_le x (List.mem_of_getElem? hj)) (not_le.mpr hxm)
      · exact .inl hjLen
    · intro d hd k hk
      rcases h.dup_later_append hd hk with rfl | hLat
      · -- the old smallest pubkey is still held at the old last position
        exact .inr ⟨mi, h.dups_lt d hd, getElem?_append_of_getElem? h.min_at⟩
      · exact .inr hLat

/-- The scan from the first group's pubkey. -/
theorem scanMin_spec {ks : List Pubkey} {first : Pubkey} {rest : List Pubkey}
    (hks : ks = first :: rest) :
    ScanSpec ks (scanMin ks first).1 (scanMin ks first).2.1 (scanMin ks first).2.2 := by
  induction ks using List.reverseRecOn generalizing first rest with
  | nil => exact absurd hks (List.cons_ne_nil _ _).symm
  | append_singleton ks x ih =>
      by_cases hNil : ks = []
      · subst hNil
        simp only [List.nil_append, List.cons.injEq] at hks
        obtain ⟨rfl, rfl⟩ := hks
        have hBase : scanMin ([] ++ [x]) x = (0, x, []) := rfl
        rw [hBase]
        refine ⟨rfl, fun k hk => by simp at hk; rw [hk],
          fun j k hj hmj => absurd hmj (not_length_lt_of_getElem?_append hj),
          List.Pairwise.nil, fun d hd => absurd hd List.not_mem_nil, fun j hj => ?_,
          fun d hd => absurd hd List.not_mem_nil⟩
        · have := (List.getElem?_eq_some_iff.mp hj).1
          simp at this
          exact .inl this
      · obtain ⟨first', rest', hks'⟩ := List.exists_cons_of_ne_nil hNil
        have hFirst : first = first' := by
          rw [hks', List.cons_append, List.cons.injEq] at hks
          exact hks.1.symm
        subst hFirst
        have hSplit : scanMin (ks ++ [x]) first = scanStep (scanMin ks first) (x, ks.length) := by
          simp only [scanMin, List.zipIdx_append, Nat.zero_add]
          rw [List.drop_append_of_le_length (by rw [hks']; simp),
            List.foldl_append]
          rfl
        rw [hSplit]
        exact (ih hks').step x

/-! ### `get_item` on one bin -/

/-- The stretch of `key` from position `i` on ends where `skipKey` stops. -/
theorem skipKey_eq (key : Pubkey) (bin : List CalculateHashIntermediate) (i : Nat) :
    skipKey key bin i = i + ((bin.drop i).takeWhile (·.pubkey = key)).length := by
  fun_induction skipKey key bin i with
  | case1 i hi hKey ih =>
      rw [ih, List.drop_eq_getElem_cons hi, List.takeWhile_cons, if_pos (by simpa using hKey),
        List.length_cons]
      omega
  | case2 i hi hKey =>
      rw [List.drop_eq_getElem_cons hi, List.takeWhile_cons, if_neg (by simpa using hKey)]
      rfl
  | case3 i hi =>
      rw [List.drop_eq_nil_of_le (by omega)]
      rfl

section Bin

variable {key : Pubkey} {bin : List CalculateHashIntermediate} {i : Nat}

/-- Past the stretch is the run without its head's pubkey. -/
theorem drop_skipKey (hi : i < bin.length) (hKey : bin[i].pubkey = key) :
    bin.drop (skipKey key bin (i + 1)) = dropHeadRun CalculateHashIntermediate.pubkey (bin.drop i) := by
  have hSplit := List.takeWhile_append_dropWhile
    (p := fun b : CalculateHashIntermediate => decide (b.pubkey = key)) (l := bin.drop (i + 1))
  rw [skipKey_eq, ← List.drop_drop, List.drop_eq_getElem_cons hi, dropHeadRun, hKey]
  exact (congrArg (List.drop _) hSplit).symm.trans List.drop_left

/-- The entry `get_item` returns ends the head's stretch. -/
theorem getElem?_skipKey_sub_one (hi : i < bin.length) (hKey : bin[i].pubkey = key) :
    bin[skipKey key bin (i + 1) - 1]? =
      ((bin.drop i).takeWhile (·.pubkey = key)).getLast? := by
  have hStretch : (bin.drop i).takeWhile (·.pubkey = key) =
      bin[i] :: (bin.drop (i + 1)).takeWhile (·.pubkey = key) := by
    rw [List.drop_eq_getElem_cons hi, List.takeWhile_cons, if_pos (by simpa using hKey)]
  have hSplit : bin.drop i = (bin[i] :: (bin.drop (i + 1)).takeWhile (·.pubkey = key)) ++
      (bin.drop (i + 1)).dropWhile (·.pubkey = key) := by
    rw [List.cons_append, List.takeWhile_append_dropWhile, List.drop_eq_getElem_cons hi]
  rw [skipKey_eq, hStretch, List.getLast?_eq_getElem?, List.length_cons, Nat.add_sub_cancel]
  have hPos : i + 1 + ((bin.drop (i + 1)).takeWhile (·.pubkey = key)).length - 1 =
      i + ((bin.drop (i + 1)).takeWhile (·.pubkey = key)).length := by omega
  rw [hPos, ← List.getElem?_drop, hSplit, List.getElem?_append_left (by simp)]

end Bin

/-! ### The cursors as runs -/

section Cursors

variable (pubkeyDivision : List SortedDataByPubkey) (pubkeyBin : Nat)

/-- The bin of slot group `d`. -/
def groupBin (d : Nat) : List CalculateHashIntermediate :=
  ((pubkeyDivision[d]?).bind (·[pubkeyBin]?)).getD []

/-- What the cursors have left of each group not yet exhausted, in group order. -/
def DeDupCursors.runs (c : DeDupCursors) : List (List CalculateHashIntermediate) :=
  c.firstItemToPubkeyDivision.map fun d =>
    (groupBin pubkeyDivision pubkeyBin d).drop (c.indexes.getD d 0)

/-- The pubkey a run starts with. -/
def headPubkey (r : List CalculateHashIntermediate) : Pubkey :=
  (r.head?.map (·.pubkey)).getD Pubkey.default

/-- The invariant of the cursors: each group not yet exhausted has its bin and a position inside
it, the groups stay in order, and `first_items` holds the pubkey at each position. -/
structure DeDupCursors.Wf (c : DeDupCursors) : Prop where
  indexes_length : c.indexes.length = pubkeyDivision.length
  divisions_lt : c.firstItemToPubkeyDivision.Pairwise (· < ·)
  bin_some : ∀ d ∈ c.firstItemToPubkeyDivision,
    ∃ bins bin, pubkeyDivision[d]? = some bins ∧ bins[pubkeyBin]? = some bin
  index_lt : ∀ d ∈ c.firstItemToPubkeyDivision,
    c.indexes.getD d 0 < (groupBin pubkeyDivision pubkeyBin d).length
  first_items : c.firstItems = (c.runs pubkeyDivision pubkeyBin).map headPubkey

variable {pubkeyDivision pubkeyBin}

theorem DeDupCursors.length_runs (c : DeDupCursors) :
    (c.runs pubkeyDivision pubkeyBin).length = c.firstItemToPubkeyDivision.length :=
  List.length_map _

theorem DeDupCursors.Wf.runs_ne_nil {c : DeDupCursors} (hWf : c.Wf pubkeyDivision pubkeyBin) :
    ∀ r ∈ c.runs pubkeyDivision pubkeyBin, r ≠ [] := by
  intro r hr
  obtain ⟨d, hd, rfl⟩ := List.mem_map.mp hr
  have hLt := hWf.index_lt d hd
  intro hNil
  have := congrArg List.length hNil
  simp only [List.length_drop, List.length_nil] at this
  omega

/-- The runs are suffixes of the bins, so sorted bins give sorted runs. -/
theorem DeDupCursors.Wf.runs_wf {c : DeDupCursors} (hWf : c.Wf pubkeyDivision pubkeyBin)
    (hSorted : ∀ d, (groupBin pubkeyDivision pubkeyBin d).Pairwise (fun a b => a.pubkey ≤ b.pubkey)) :
    Lib.SortedRuns.Wf CalculateHashIntermediate.pubkey (c.runs pubkeyDivision pubkeyBin) := by
  intro r hr
  refine ⟨hWf.runs_ne_nil r hr, ?_⟩
  obtain ⟨d, -, rfl⟩ := List.mem_map.mp hr
  exact (hSorted d).sublist (List.drop_sublist _ _)

/-- The cursors after `get_item` at position `j`: the group's position moved to `index`, or the
group dropped once `index` is past its bin. -/
def DeDupCursors.advanced (c : DeDupCursors) (j d index : Nat) (bin : List CalculateHashIntermediate) :
    DeDupCursors :=
  if h : index < bin.length then
    { c with firstItems := c.firstItems.set j bin[index].pubkey,
             indexes := c.indexes.set d index }
  else
    { c with firstItems := c.firstItems.eraseIdx j,
             firstItemToPubkeyDivision := c.firstItemToPubkeyDivision.eraseIdx j }

/-- `get_item` once its lookups succeed. -/
theorem getItem_eq_of {c : DeDupCursors} {j d idx : Nat} {key : Pubkey}
    {bins : SortedDataByPubkey} {bin : List CalculateHashIntermediate}
    (hKey : c.firstItems[j]? = some key) (hDiv : c.firstItemToPubkeyDivision[j]? = some d)
    (hBins : pubkeyDivision[d]? = some bins) (hBin : bins[pubkeyBin]? = some bin)
    (hIdx : c.indexes[d]? = some idx) :
    getItem pubkeyDivision pubkeyBin j c =
      (bin[skipKey key bin (idx + 1) - 1]?).map
        (fun item => (item, c.advanced j d (skipKey key bin (idx + 1)) bin)) := by
  simp only [getItem, hKey, hDiv, hBins, hBin, hIdx, Option.bind_eq_bind, Option.bind_some,
    DeDupCursors.advanced]
  by_cases hLt : skipKey key bin (idx + 1) < bin.length
  · simp only [hLt, Nat.not_le.mpr hLt, dite_true, if_false]
    cases bin[skipKey key bin (idx + 1) - 1]? <;> rfl
  · simp only [hLt, Nat.le_of_not_lt hLt, dite_false, if_true]
    cases bin[skipKey key bin (idx + 1) - 1]? <;> rfl

/-- Moving the position of the group at `j` changes only run `j`. -/
theorem DeDupCursors.runs_advanced_of_lt {c : DeDupCursors} (hWf : c.Wf pubkeyDivision pubkeyBin)
    {j : Nat} (hj : j < c.firstItemToPubkeyDivision.length) {index : Nat}
    {bin : List CalculateHashIntermediate}
    (hBin : groupBin pubkeyDivision pubkeyBin c.firstItemToPubkeyDivision[j] = bin)
    (hLt : index < bin.length) :
    (c.advanced j c.firstItemToPubkeyDivision[j] index bin).runs pubkeyDivision pubkeyBin =
      (c.runs pubkeyDivision pubkeyBin).set j (bin.drop index) := by
  have hNodup : c.firstItemToPubkeyDivision.Nodup := hWf.divisions_lt.imp Nat.ne_of_lt
  have hdLt : c.firstItemToPubkeyDivision[j] < c.indexes.length := by
    obtain ⟨bins, b, hBins, -⟩ := hWf.bin_some _ (List.getElem_mem hj)
    rw [hWf.indexes_length]
    exact (List.getElem?_eq_some_iff.mp hBins).1
  simp only [advanced, dif_pos hLt, runs]
  apply List.ext_getElem (by simp)
  intro i hi hi'
  simp only [List.getElem_map, List.getElem_set]
  split
  · -- the run of the group that moved
    subst i
    rw [List.getD_eq_getElem?_getD, List.getElem?_set_self hdLt, Option.getD_some, hBin]
  · -- any other group is another slot group, whose position is kept
    rename_i hij
    have hi₀ : i < c.firstItemToPubkeyDivision.length := by simpa using hi
    have hNe : c.firstItemToPubkeyDivision[j] ≠ c.firstItemToPubkeyDivision[i] := fun h =>
      hij ((List.Nodup.getElem_inj_iff hNodup).mp h)
    rw [List.getD_eq_getElem?_getD, List.getElem?_set_ne hNe, ← List.getD_eq_getElem?_getD]

/-- Dropping the group at `j` drops run `j`. -/
theorem DeDupCursors.runs_advanced_of_le (c : DeDupCursors) {j d index : Nat}
    {bin : List CalculateHashIntermediate} (hLe : bin.length ≤ index) :
    (c.advanced j d index bin).runs pubkeyDivision pubkeyBin =
      (c.runs pubkeyDivision pubkeyBin).eraseIdx j := by
  simp only [advanced, dif_neg (Nat.not_lt.mpr hLe), runs]
  exact (List.eraseIdx_map _ _ _).symm

theorem headPubkey_drop {bin : List CalculateHashIntermediate} {i : Nat} (hi : i < bin.length) :
    headPubkey (bin.drop i) = bin[i].pubkey := by
  rw [List.drop_eq_getElem_cons hi]
  rfl

/-- `get_item` keeps the invariant. -/
theorem DeDupCursors.Wf.advanced {c : DeDupCursors} (hWf : c.Wf pubkeyDivision pubkeyBin)
    {j : Nat} (hj : j < c.firstItemToPubkeyDivision.length) {index : Nat}
    {bin : List CalculateHashIntermediate}
    (hBin : groupBin pubkeyDivision pubkeyBin c.firstItemToPubkeyDivision[j] = bin) :
    (c.advanced j c.firstItemToPubkeyDivision[j] index bin).Wf pubkeyDivision pubkeyBin := by
  by_cases hLt : index < bin.length
  · have hRuns := c.runs_advanced_of_lt hWf hj hBin hLt
    simp only [DeDupCursors.advanced, dif_pos hLt] at hRuns ⊢
    refine ⟨by simp [hWf.indexes_length], hWf.divisions_lt, hWf.bin_some, ?_, ?_⟩
    · -- the moved position is inside the bin, and the others are kept
      intro d hd
      rw [List.getD_eq_getElem?_getD, List.getElem?_set]
      split
      · rename_i hEq
        subst hEq
        have hdLt : c.firstItemToPubkeyDivision[j] < c.indexes.length := by
          obtain ⟨bins, b, hBins, -⟩ := hWf.bin_some _ hd
          rw [hWf.indexes_length]
          exact (List.getElem?_eq_some_iff.mp hBins).1
        rw [if_pos hdLt, Option.getD_some, hBin]
        exact hLt
      · rw [← List.getD_eq_getElem?_getD]
        exact hWf.index_lt d hd
    · rw [hRuns, List.map_set, ← hWf.first_items, headPubkey_drop hLt]
  · have hRuns : (c.advanced j c.firstItemToPubkeyDivision[j] index bin).runs pubkeyDivision
        pubkeyBin = (c.runs pubkeyDivision pubkeyBin).eraseIdx j :=
      c.runs_advanced_of_le (Nat.le_of_not_lt hLt)
    simp only [DeDupCursors.advanced, dif_neg hLt] at hRuns ⊢
    refine ⟨hWf.indexes_length, hWf.divisions_lt.sublist (List.eraseIdx_sublist _ _),
      fun d hd => hWf.bin_some d (List.mem_of_mem_eraseIdx hd),
      fun d hd => hWf.index_lt d (List.mem_of_mem_eraseIdx hd), ?_⟩
    rw [hRuns, ← List.eraseIdx_map, ← hWf.first_items]

/-- `get_item` at position `j` returns the entry ending the run's first stretch and advances that
run past its pubkey. -/
theorem getItem_spec {c : DeDupCursors} (hWf : c.Wf pubkeyDivision pubkeyBin) {j : Nat}
    (hj : j < (c.runs pubkeyDivision pubkeyBin).length) :
    ∃ item c', getItem pubkeyDivision pubkeyBin j c = some (item, c') ∧
      c'.Wf pubkeyDivision pubkeyBin ∧
      c'.runs pubkeyDivision pubkeyBin =
        advanceAt CalculateHashIntermediate.pubkey (fun i => i == j) (c.runs pubkeyDivision pubkeyBin) ∧
      some item = ((c.runs pubkeyDivision pubkeyBin)[j].takeWhile
        (·.pubkey = headPubkey (c.runs pubkeyDivision pubkeyBin)[j])).getLast? := by
  have hj' : j < c.firstItemToPubkeyDivision.length := by simpa [DeDupCursors.length_runs] using hj
  -- the lookups of `get_item` all succeed
  obtain ⟨bins, bin, hBins, hBin⟩ := hWf.bin_some _ (List.getElem_mem hj')
  have hGroup : groupBin pubkeyDivision pubkeyBin c.firstItemToPubkeyDivision[j] = bin := by
    simp [groupBin, hBins, hBin]
  have hdLt : c.firstItemToPubkeyDivision[j] < c.indexes.length := by
    rw [hWf.indexes_length]
    exact (List.getElem?_eq_some_iff.mp hBins).1
  have hIdx : c.indexes[c.firstItemToPubkeyDivision[j]]? =
      some (c.indexes.getD c.firstItemToPubkeyDivision[j] 0) := by
    rw [List.getD_eq_getElem?_getD, List.getElem?_eq_getElem hdLt, Option.getD_some]
  have hIdxLt : c.indexes.getD c.firstItemToPubkeyDivision[j] 0 < bin.length :=
    hGroup ▸ hWf.index_lt _ (List.getElem_mem hj')
  have hRun : (c.runs pubkeyDivision pubkeyBin)[j] =
      bin.drop (c.indexes.getD c.firstItemToPubkeyDivision[j] 0) := by
    simp [DeDupCursors.runs, hGroup]
  have hKey : c.firstItems[j]? = some bin[c.indexes.getD c.firstItemToPubkeyDivision[j] 0].pubkey := by
    rw [hWf.first_items, List.getElem?_map, List.getElem?_eq_getElem hj, Option.map_some, hRun,
      headPubkey_drop hIdxLt]
  rw [getItem_eq_of hKey (List.getElem?_eq_getElem hj') hBins hBin hIdx,
    getElem?_skipKey_sub_one hIdxLt rfl]
  -- the stretch is not empty: it starts with the run's head
  set idx := c.indexes.getD c.firstItemToPubkeyDivision[j] 0
  have hHead : headPubkey (c.runs pubkeyDivision pubkeyBin)[j] = bin[idx].pubkey := by
    rw [hRun, headPubkey_drop hIdxLt]
  obtain ⟨item, hItem⟩ : ∃ item, ((bin.drop idx).takeWhile (·.pubkey = bin[idx].pubkey)).getLast? =
      some item := by
    rw [List.drop_eq_getElem_cons hIdxLt, List.takeWhile_cons, if_pos (by simp)]
    exact ⟨_, List.getLast?_eq_some_getLast (List.cons_ne_nil _ _)⟩
  refine ⟨item, _, by rw [hItem]; rfl, hWf.advanced hj' hGroup, ?_, by rw [hHead, hRun, hItem]⟩
  -- the run advances past its head's pubkey, and is dropped when nothing is left
  have hDrop : dropHeadRun CalculateHashIntermediate.pubkey (c.runs pubkeyDivision pubkeyBin)[j] =
      bin.drop (skipKey bin[idx].pubkey bin (idx + 1)) := by
    rw [hRun, drop_skipKey hIdxLt rfl]
  rw [advanceAt_single hj, hDrop]
  by_cases hLt : skipKey bin[idx].pubkey bin (idx + 1) < bin.length
  · rw [c.runs_advanced_of_lt hWf hj' hGroup hLt, keepNonempty, if_neg (by simpa using hLt),
      List.set_eq_take_append_cons_drop, if_pos hj]
    simp
  · have hNil : bin.drop (skipKey bin[idx].pubkey bin (idx + 1)) = [] :=
      List.drop_eq_nil_of_le (Nat.le_of_not_lt hLt)
    rw [c.runs_advanced_of_le (Nat.le_of_not_lt hLt), hNil, keepNonempty, if_pos rfl,
      List.append_nil, List.eraseIdx_eq_take_drop_succ]

/-- `get_item` at positions in decreasing order advances all of them: each removal moves only the
positions after it. -/
theorem foldlM_getItem_spec {c : DeDupCursors} (hWf : c.Wf pubkeyDivision pubkeyBin)
    {positions : List Nat} (hDesc : positions.Pairwise (· > ·))
    (hLt : ∀ p ∈ positions, p < (c.runs pubkeyDivision pubkeyBin).length) :
    ∃ c', positions.foldlM (fun c i => (getItem pubkeyDivision pubkeyBin i c).map Prod.snd) c =
        some c' ∧ c'.Wf pubkeyDivision pubkeyBin ∧
      c'.runs pubkeyDivision pubkeyBin = advanceAt CalculateHashIntermediate.pubkey
        (fun i => decide (i ∈ positions)) (c.runs pubkeyDivision pubkeyBin) := by
  induction positions generalizing c with
  | nil =>
      exact ⟨c, rfl, hWf, (advanceAt_of_forall_false (fun i => by simp) _).symm⟩
  | cons p ps ih =>
      obtain ⟨hAbove, hDesc'⟩ := List.pairwise_cons.mp hDesc
      have hp := hLt p List.mem_cons_self
      obtain ⟨item, c₁, hGet, hWf₁, hRuns₁, -⟩ := getItem_spec hWf hp
      have hLt₁ : ∀ q ∈ ps, q < (c₁.runs pubkeyDivision pubkeyBin).length := fun q hq => by
        rw [hRuns₁]
        exact Nat.lt_of_lt_of_le (hAbove q hq) (le_length_advanceAt_single hp)
      obtain ⟨c', hFold, hWf', hRuns'⟩ := ih hWf₁ hDesc' hLt₁
      refine ⟨c', ?_, hWf', ?_⟩
      · rw [List.foldlM_cons, hGet]
        exact hFold
      · rw [hRuns', hRuns₁, advanceAt_advanceAt (fun i j hi hj => by
          simp only [beq_iff_eq] at hj
          subst hj
          exact hAbove i (by simpa using hi))]
        congr 1
        funext i
        by_cases hi : i = p <;> simp [hi]

theorem headKey_eq_some {r : List CalculateHashIntermediate} (hr : r ≠ []) :
    headKey CalculateHashIntermediate.pubkey r = some (headPubkey r) := by
  obtain ⟨a, r', rfl⟩ := List.exists_cons_of_ne_nil hr
  rfl

/-- One round of the merge: the scan, `get_item` at the smallest pubkey and the skipping of the
duplicates take the smallest pubkey out of the runs with its newest entry. -/
theorem deDupRound_spec {c : DeDupCursors} (hWf : c.Wf pubkeyDivision pubkeyBin)
    (hRuns : Lib.SortedRuns.Wf CalculateHashIntermediate.pubkey (c.runs pubkeyDivision pubkeyBin))
    {first : Pubkey} {rest : List Pubkey} (hFirst : c.firstItems = first :: rest) :
    ∃ item c₁ c₂, getItem pubkeyDivision pubkeyBin (scanMin c.firstItems first).1 c = some (item, c₁) ∧
      skipDuplicates pubkeyDivision pubkeyBin (scanMin c.firstItems first).2.2 c₁ = some c₂ ∧
      c₂.Wf pubkeyDivision pubkeyBin ∧
      MergeRound CalculateHashIntermediate.pubkey (c.runs pubkeyDivision pubkeyBin)
        (c₂.runs pubkeyDivision pubkeyBin) (scanMin c.firstItems first).2.1 item := by
  have hScan := scanMin_spec hFirst
  set mi := (scanMin c.firstItems first).1
  set m := (scanMin c.firstItems first).2.1
  set dups := (scanMin c.firstItems first).2.2
  set runs := c.runs pubkeyDivision pubkeyBin
  -- the scanned pubkeys are the heads of the runs
  have hHeadAt : ∀ j (hj : j < runs.length),
      headKey CalculateHashIntermediate.pubkey runs[j] = c.firstItems[j]? := fun j hj => by
    rw [hWf.first_items, List.getElem?_map, List.getElem?_eq_getElem hj, Option.map_some,
      headKey_eq_some (hRuns _ (List.getElem_mem hj)).1]
  have hLen : c.firstItems.length = runs.length := by rw [hWf.first_items, List.length_map]
  have hmi : mi < runs.length := hLen ▸ (List.getElem?_eq_some_iff.mp hScan.min_at).1
  obtain ⟨item, c₁, hGet, hWf₁, hRuns₁, hItem⟩ := getItem_spec hWf hmi
  -- the duplicates, latest first, are all below the smallest pubkey's position
  have hDesc : dups.reverse.Pairwise (· > ·) := List.pairwise_reverse.mpr hScan.dups_sorted
  have hLt₁ : ∀ p ∈ dups.reverse, p < (c₁.runs pubkeyDivision pubkeyBin).length := fun p hp => by
    rw [hRuns₁]
    exact Nat.lt_of_lt_of_le (hScan.dups_lt p (List.mem_reverse.mp hp))
      (le_length_advanceAt_single hmi)
  obtain ⟨c₂, hSkip, hWf₂, hRuns₂⟩ := foldlM_getItem_spec hWf₁ hDesc hLt₁
  refine ⟨item, c₁, c₂, hGet, hSkip, hWf₂, ?_⟩
  have hSel : c₂.runs pubkeyDivision pubkeyBin = advanceAt CalculateHashIntermediate.pubkey
      (fun i => (i == mi) || decide (i ∈ dups.reverse)) runs := by
    rw [hRuns₂, hRuns₁, advanceAt_advanceAt (fun i j hi hj => by
      simp only [beq_iff_eq] at hj
      subst hj
      exact hScan.dups_lt i (List.mem_reverse.mp (by simpa using hi)))]
  rw [hSel]
  have hHeadMi : headKey CalculateHashIntermediate.pubkey runs[mi] = some m :=
    (hHeadAt mi hmi).trans hScan.min_at
  refine advanceAt_mergeRound hRuns hmi hHeadMi ?_ ?_ (by simp) ?_ ?_ ?_
  · -- every key lies at or above the head of its run, and every head at or above `m`
    rintro k ⟨r, hr, a, ha, rfl⟩
    obtain ⟨j, hj, rfl⟩ := List.getElem_of_mem hr
    obtain ⟨b, r', hr'⟩ := List.exists_cons_of_ne_nil (hRuns _ (List.getElem_mem hj)).1
    have hHead : c.firstItems[j]? = some b.pubkey := by
      rw [← hHeadAt j hj, hr']
      rfl
    have hmb : m ≤ b.pubkey := hScan.min_le _ (List.mem_of_getElem? hHead)
    have hs := (hRuns _ (List.getElem_mem hj)).2
    rw [hr'] at ha hs
    rcases List.mem_cons.mp ha with rfl | ha
    · exact hmb
    · exact le_trans hmb ((List.pairwise_cons.mp hs).1 a ha)
  · intro j hj hmj hHead
    exact hScan.last j m ((hHeadAt j hj).symm.trans hHead) hmj rfl
  · intro j hj hHead
    rcases hScan.min_dup j ((hHeadAt j hj).symm.trans hHead) with rfl | hd
    · simp
    · simp [hd]
  · -- a duplicate's pubkey other than `m` is held again by a later run
    intro j hj hSelj k hk hkm
    have hks : c.firstItems[j]? = some k := (hHeadAt j hj).symm.trans hk
    have hDup : j ∈ dups := by
      rcases Bool.or_eq_true_iff.mp hSelj with hEq | hIn
      · simp only [beq_iff_eq] at hEq
        subst hEq
        exact absurd (Option.some.inj (hks.symm.trans hScan.min_at)) hkm
      · simpa using hIn
    rcases hScan.dup_later j hDup k hks with hEq | ⟨j', hjj', hks'⟩
    · exact absurd hEq hkm
    · have hj' : j' < runs.length := hLen ▸ (List.getElem?_eq_some_iff.mp hks').1
      obtain ⟨b, r', hr'⟩ := List.exists_cons_of_ne_nil (hRuns _ (List.getElem_mem hj')).1
      have hb : b.pubkey = k := by
        have := (hHeadAt j' hj').trans hks'
        rw [hr'] at this
        simpa [headKey] using this
      refine ⟨runs[j'], ?_, b, by rw [hr']; exact List.mem_cons_self, hb⟩
      rw [List.mem_drop_iff_getElem]
      exact ⟨j' - (j + 1), by omega, by congr 1; omega⟩
  · -- the entry `get_item` returned ends the stretch of `m` in its run
    obtain ⟨b, r', hr'⟩ := List.exists_cons_of_ne_nil (hRuns _ (List.getElem_mem hmi)).1
    have hbm : b.pubkey = m := by
      have := hHeadMi
      rw [hr'] at this
      simpa [headKey] using this
    have hs := (hRuns _ (List.getElem_mem hmi)).2
    rw [hr'] at hs hItem
    rw [hr', ← hbm, lastOf_headKey hs]
    exact hItem.symm

/-- With fuel above the entries left, the merge loop adds the newest entry of each pubkey left,
in increasing pubkey order. -/
theorem AccountsHasher.deDupLoop_eq (self : AccountsHasher)
    (hSorted : ∀ d, (groupBin pubkeyDivision pubkeyBin d).Pairwise (fun a b => a.pubkey ≤ b.pubkey))
    {fuel : Nat} {c : DeDupCursors} (hWf : c.Wf pubkeyDivision pubkeyBin)
    (hFuel : size (c.runs pubkeyDivision pubkeyBin) < fuel) (acc : AccountHashesFile × Nat) :
    self.deDupLoop blake3 pubkeyDivision pubkeyBin fuel c acc =
      ((sortedKeys CalculateHashIntermediate.pubkey (c.runs pubkeyDivision pubkeyBin)).filterMap
          (newest CalculateHashIntermediate.pubkey (c.runs pubkeyDivision pubkeyBin))).foldlM
        (fun acc item => self.addItem blake3 item acc) acc := by
  induction fuel generalizing c acc with
  | zero => exact absurd hFuel (Nat.not_lt_zero _)
  | succ fuel ih =>
      rw [deDupLoop]
      cases hFirst : c.firstItems with
      | nil =>
          -- no group is left, and neither is any pubkey
          have hNil : c.runs pubkeyDivision pubkeyBin = [] := by
            have hMap := hWf.first_items
            rw [hFirst] at hMap
            exact List.map_eq_nil_iff.mp hMap.symm
          simp [hNil, sortedKeys]
      | cons first rest =>
          obtain ⟨item, c₁, c₂, hGet, hSkip, hWf₂, hRound⟩ :=
            deDupRound_spec hWf (hWf.runs_wf hSorted) hFirst
          rw [hFirst] at hGet hSkip hRound
          have hFuel₂ : size (c₂.runs pubkeyDivision pubkeyBin) < fuel := by
            have := hRound.size_lt
            omega
          rw [hRound.filterMap_newest, List.foldlM_cons]
          simp only [hGet, Option.bind_eq_bind, Option.bind_some]
          cases self.addItem blake3 item acc with
          | none => rfl
          | some acc' =>
              simp only [Option.bind_some, hSkip]
              exact ih hWf₂ hFuel₂ acc'

end Cursors

/-! ### The first loop -/

section Initial

variable (pubkeyDivision : List SortedDataByPubkey) (pubkeyBin : Nat)

/-- A group's bin, or nothing when the group has no such bin. -/
def binOf (bins : SortedDataByPubkey) : List CalculateHashIntermediate := (bins[pubkeyBin]?).getD []

/-- The groups the first loop gives a cursor: those whose bin is there and not empty, with their
numbers. -/
def startedGroups : List (SortedDataByPubkey × Nat) :=
  pubkeyDivision.zipIdx.filter fun x => !(binOf pubkeyBin x.1).isEmpty

/-- One round of the first loop, on one group and its number. -/
def initialCursorsStep (acc : DeDupCursors × Nat) : SortedDataByPubkey × Nat → DeDupCursors × Nat
  | (bins, i) =>
      match bins[pubkeyBin]? with
      | some (first :: rest) =>
          ({ acc.1 with firstItems := acc.1.firstItems ++ [first.pubkey],
                        firstItemToPubkeyDivision := acc.1.firstItemToPubkeyDivision ++ [i] },
            acc.2 + (rest.length + 1))
      | _ => acc

theorem initialCursors_eq_foldl :
    initialCursors pubkeyDivision pubkeyBin =
      pubkeyDivision.zipIdx.foldl (initialCursorsStep pubkeyBin)
        (⟨List.replicate pubkeyDivision.length 0, [], []⟩, 0) := rfl

variable {pubkeyDivision pubkeyBin}

/-- A group with an empty bin is passed over; any other gets a cursor at its first entry. -/
theorem initialCursorsStep_eq (acc : DeDupCursors × Nat) (x : SortedDataByPubkey × Nat) :
    initialCursorsStep pubkeyBin acc x =
      if (binOf pubkeyBin x.1).isEmpty then acc
      else ({ acc.1 with
              firstItems := acc.1.firstItems ++ [headPubkey (binOf pubkeyBin x.1)],
              firstItemToPubkeyDivision := acc.1.firstItemToPubkeyDivision ++ [x.2] },
            acc.2 + (binOf pubkeyBin x.1).length) := by
  obtain ⟨bins, i⟩ := x
  simp only [initialCursorsStep]
  split
  · rename_i first rest hBin
    simp [binOf, hBin, headPubkey]
  · -- no bin, or an empty one
    rename_i hBin
    have hEmpty : (binOf pubkeyBin bins).isEmpty = true := by
      unfold binOf
      revert hBin
      cases bins[pubkeyBin]? with
      | none => intro _; rfl
      | some bin =>
          cases bin with
          | nil => intro _; rfl
          | cons first rest => intro hBin; exact absurd rfl (hBin first rest)
    rw [if_pos hEmpty]

/-- The first loop over any groups appends a cursor for each group with a nonempty bin. -/
theorem foldl_initialCursorsStep (xs : List (SortedDataByPubkey × Nat)) (acc : DeDupCursors × Nat) :
    xs.foldl (initialCursorsStep pubkeyBin) acc =
      let kept := xs.filter fun x => !(binOf pubkeyBin x.1).isEmpty
      ({ acc.1 with
          firstItems := acc.1.firstItems ++ kept.map (headPubkey ∘ binOf pubkeyBin ∘ Prod.fst),
          firstItemToPubkeyDivision := acc.1.firstItemToPubkeyDivision ++ kept.map Prod.snd },
        acc.2 + (kept.map (List.length ∘ binOf pubkeyBin ∘ Prod.fst)).sum) := by
  induction xs generalizing acc with
  | nil => simp
  | cons x xs ih =>
      rw [List.foldl_cons, ih, initialCursorsStep_eq]
      by_cases hEmpty : (binOf pubkeyBin x.1).isEmpty
      · simp [hEmpty]
      · simp [hEmpty, Nat.add_assoc]

/-- The cursors the first loop sets up, and its count of entries. -/
theorem initialCursors_eq :
    initialCursors pubkeyDivision pubkeyBin =
      (⟨List.replicate pubkeyDivision.length 0,
        (startedGroups pubkeyDivision pubkeyBin).map (headPubkey ∘ binOf pubkeyBin ∘ Prod.fst),
        (startedGroups pubkeyDivision pubkeyBin).map Prod.snd⟩,
        ((startedGroups pubkeyDivision pubkeyBin).map
          (List.length ∘ binOf pubkeyBin ∘ Prod.fst)).sum) := by
  rw [initialCursors_eq_foldl, foldl_initialCursorsStep]
  simp [startedGroups]

/-- A started group is the group at its number, with a nonempty bin. -/
theorem getElem?_of_mem_startedGroups {x : SortedDataByPubkey × Nat}
    (hx : x ∈ startedGroups pubkeyDivision pubkeyBin) :
    pubkeyDivision[x.2]? = some x.1 ∧ binOf pubkeyBin x.1 ≠ [] := by
  obtain ⟨bins, i⟩ := x
  obtain ⟨hx, hNe⟩ := List.mem_filter.mp hx
  obtain ⟨-, hLt, hEq⟩ := List.mem_zipIdx hx
  refine ⟨?_, by simpa using hNe⟩
  rw [List.getElem?_eq_some_iff]
  exact ⟨by omega, by simpa using hEq.symm⟩

theorem groupBin_of_mem_startedGroups {x : SortedDataByPubkey × Nat}
    (hx : x ∈ startedGroups pubkeyDivision pubkeyBin) :
    groupBin pubkeyDivision pubkeyBin x.2 = binOf pubkeyBin x.1 := by
  simp [groupBin, binOf, (getElem?_of_mem_startedGroups hx).1]

/-- The run of each started group is its whole bin. -/
theorem initialCursors_runs :
    (initialCursors pubkeyDivision pubkeyBin).1.runs pubkeyDivision pubkeyBin =
      (startedGroups pubkeyDivision pubkeyBin).map (binOf pubkeyBin ∘ Prod.fst) := by
  rw [initialCursors_eq]
  simp only [DeDupCursors.runs, List.map_map]
  apply List.map_congr_left
  intro x hx
  have hZero : (List.replicate pubkeyDivision.length 0).getD x.2 0 = 0 := by
    rw [List.getD_eq_getElem?_getD, List.getElem?_replicate]
    split <;> rfl
  simp only [Function.comp_apply, hZero, List.drop_zero, groupBin_of_mem_startedGroups hx]

/-- The started groups' bins are the nonempty bins, in group order. -/
theorem map_binOf_startedGroups :
    (startedGroups pubkeyDivision pubkeyBin).map (binOf pubkeyBin ∘ Prod.fst) =
      (binRuns pubkeyDivision pubkeyBin).filter (fun r => !r.isEmpty) := by
  have hBins : binRuns pubkeyDivision pubkeyBin =
      pubkeyDivision.zipIdx.map (binOf pubkeyBin ∘ Prod.fst) := by
    rw [← List.map_map, List.zipIdx_map_fst]
    rfl
  rw [hBins, List.filter_map]
  rfl

/-- The first loop leaves cursors that keep their invariant. -/
theorem initialCursors_wf : (initialCursors pubkeyDivision pubkeyBin).1.Wf pubkeyDivision pubkeyBin where
  indexes_length := by
    rw [initialCursors_eq]
    exact List.length_replicate
  divisions_lt := by
    have hSub : ((startedGroups pubkeyDivision pubkeyBin).map Prod.snd).Sublist
        (pubkeyDivision.zipIdx.map Prod.snd) := List.filter_sublist.map Prod.snd
    rw [List.zipIdx_map_snd] at hSub
    rw [initialCursors_eq]
    exact (List.pairwise_lt_range' 1 Nat.one_pos).sublist hSub
  bin_some := by
    rw [initialCursors_eq]
    intro d hd
    obtain ⟨x, hx, rfl⟩ := List.mem_map.mp hd
    obtain ⟨hBins, hNe⟩ := getElem?_of_mem_startedGroups hx
    obtain ⟨bin, hBin⟩ : ∃ bin, x.1[pubkeyBin]? = some bin := by
      cases hGet : x.1[pubkeyBin]? with
      | none => exact absurd (by simp [binOf, hGet]) hNe
      | some bin => exact ⟨bin, rfl⟩
    exact ⟨x.1, bin, hBins, hBin⟩
  index_lt := by
    rw [initialCursors_eq]
    intro d hd
    obtain ⟨x, hx, rfl⟩ := List.mem_map.mp hd
    have hZero : (List.replicate pubkeyDivision.length 0).getD x.2 0 = 0 := by
      rw [List.getD_eq_getElem?_getD, List.getElem?_replicate]
      split <;> rfl
    rw [hZero, groupBin_of_mem_startedGroups hx]
    exact List.length_pos_iff.mpr (getElem?_of_mem_startedGroups hx).2
  first_items := by
    rw [initialCursors_runs, List.map_map, initialCursors_eq]

/-- `unreduced_count` is the number of entries of the bin. -/
theorem initialCursors_count :
    (initialCursors pubkeyDivision pubkeyBin).2 = size (binRuns pubkeyDivision pubkeyBin) := by
  rw [← size_filter_ne_nil, ← map_binOf_startedGroups, size, List.map_map, initialCursors_eq]

end Initial

/-! ### One bin -/

section Bin

variable {pubkeyDivision : List SortedDataByPubkey} {pubkeyBin : Nat}

/-- Bins sorted by pubkey in every group give sorted group bins. -/
theorem groupBin_sorted
    (hSorted : ∀ bins ∈ pubkeyDivision, ∀ bin ∈ bins, bin.Pairwise (fun a b => a.pubkey ≤ b.pubkey))
    (d : Nat) : (groupBin pubkeyDivision pubkeyBin d).Pairwise (fun a b => a.pubkey ≤ b.pubkey) := by
  unfold groupBin
  cases hBins : pubkeyDivision[d]? with
  | none => exact List.Pairwise.nil
  | some bins =>
      cases hBin : bins[pubkeyBin]? with
      | none => simp [hBin]
      | some bin =>
          simpa [hBin] using hSorted bins (List.mem_of_getElem? hBins) bin (List.mem_of_getElem? hBin)

/-- `de_dup_accounts_in_parallel` on bins sorted by pubkey: the hashes of the newest entry of
each pubkey in increasing pubkey order, their lamports and the bin's number of entries, or a panic
once the lamports leave `u128`. -/
theorem AccountsHasher.deDupAccountsInParallel_eq (self : AccountsHasher)
    (hSorted : ∀ bins ∈ pubkeyDivision, ∀ bin ∈ bins, bin.Pairwise (fun a b => a.pubkey ≤ b.pubkey)) :
    self.deDupAccountsInParallel blake3 pubkeyDivision pubkeyBin =
      if self.binLamports pubkeyDivision pubkeyBin < 2 ^ 128 then
        some (self.binHashes blake3 pubkeyDivision pubkeyBin, self.binLamports pubkeyDivision pubkeyBin,
          size (binRuns pubkeyDivision pubkeyBin))
      else none := by
  have hFuel : size ((initialCursors pubkeyDivision pubkeyBin).1.runs pubkeyDivision pubkeyBin) <
      (initialCursors pubkeyDivision pubkeyBin).2 + 1 := by
    rw [initialCursors_runs, map_binOf_startedGroups, size_filter_ne_nil, initialCursors_count]
    exact Nat.lt_succ_self _
  -- the merge adds the newest entry of each pubkey of the nonempty bins, which are the bin's
  have hKept : (sortedKeys CalculateHashIntermediate.pubkey
        ((initialCursors pubkeyDivision pubkeyBin).1.runs pubkeyDivision pubkeyBin)).filterMap
        (newest CalculateHashIntermediate.pubkey
          ((initialCursors pubkeyDivision pubkeyBin).1.runs pubkeyDivision pubkeyBin)) =
      keptEntries pubkeyDivision pubkeyBin := by
    rw [initialCursors_runs, map_binOf_startedGroups, sortedKeys_filter_ne_nil]
    simp only [keptEntries, binPubkeys, newestEntry, newest_filter_ne_nil]
    rfl
  have hLoop := self.deDupLoop_eq blake3 (groupBin_sorted hSorted) initialCursors_wf hFuel ([], 0)
  have hCount : (initialCursors pubkeyDivision pubkeyBin).2 = size (binRuns pubkeyDivision pubkeyBin) :=
    initialCursors_count
  rw [hKept, self.foldlM_addItem blake3 _ (Nat.two_pow_pos 128)] at hLoop
  unfold deDupAccountsInParallel
  rcases hInit : initialCursors pubkeyDivision pubkeyBin with ⟨c, unreducedCount⟩
  rw [hInit] at hLoop hCount
  simp only at hLoop hCount ⊢
  rw [hLoop, ← hCount, Nat.zero_add]
  unfold binHashes binLamports
  by_cases hSum : ((keptEntries pubkeyDivision pubkeyBin).map self.itemLamports).sum < 2 ^ 128
  · rw [if_pos hSum, if_pos hSum]
    rfl
  · rw [if_neg hSum, if_neg hSum]
    rfl

/-- Of the entries of one pubkey in one group's bin, the last is kept: with two entries of one
pubkey, the hash of the second is the one written. -/
theorem deDupAccountsInParallel_keeps_last_of_stretch :
    (⟨none, .excluded⟩ : AccountsHasher).deDupAccountsInParallel (fun _ => Hash.default)
        [[[⟨Hash.default, 1, Pubkey.default⟩, ⟨⟨Vector.replicate 32 1⟩, 2, Pubkey.default⟩]]] 0 =
      some ([⟨Vector.replicate 32 1⟩], 2, 2) := by
  rw [AccountsHasher.deDupAccountsInParallel_eq _ _ (by decide)]
  have hKeys : binPubkeys [[[⟨Hash.default, 1, Pubkey.default⟩,
      ⟨⟨Vector.replicate 32 1⟩, 2, Pubkey.default⟩]]] 0 = [Pubkey.default] := by
    simp [binPubkeys, sortedKeys, binRuns]
  simp [AccountsHasher.binLamports, AccountsHasher.binHashes, keptEntries, hKeys, newestEntry,
    binRuns, newest, lastOf, AccountsHasher.itemHash, AccountsHasher.itemLamports,
    AccountsHasher.fillerAccountsEnabled, size]

end Bin

/-! ### Every bin -/

section Bins

variable {sortedDataByPubkey : List SortedDataByPubkey}

/-- One round of `de_dup_accounts`: a bin's hashes appended and its lamports added. -/
def AccountsHasher.deDupAccountsStep (self : AccountsHasher)
    (sortedDataByPubkey : List SortedDataByPubkey) (acc : List AccountHashesFile × Nat) (bin : Nat) :
    Option (List AccountHashesFile × Nat) := do
  let (hashesFile, lamportsBin, _) ← self.deDupAccountsInParallel blake3 sortedDataByPubkey bin
  let lamportsSum ← checkedCastForCapitalization (acc.2 + lamportsBin)
  pure (acc.1 ++ [hashesFile], lamportsSum)

theorem AccountsHasher.deDupAccounts_eq_foldlM (self : AccountsHasher) (maxBin : Nat) :
    self.deDupAccounts blake3 sortedDataByPubkey maxBin =
      (List.range maxBin).foldlM (self.deDupAccountsStep blake3 sortedDataByPubkey) ([], 0) := rfl

/-- A round panics exactly when the running total leaves `u128`, the bin's own total included. -/
theorem AccountsHasher.deDupAccountsStep_eq (self : AccountsHasher)
    (hSorted : ∀ bins ∈ sortedDataByPubkey, ∀ bin ∈ bins, bin.Pairwise (fun a b => a.pubkey ≤ b.pubkey))
    (acc : List AccountHashesFile × Nat) (bin : Nat) :
    self.deDupAccountsStep blake3 sortedDataByPubkey acc bin =
      if acc.2 + self.binLamports sortedDataByPubkey bin < 2 ^ 128 then
        some (acc.1 ++ [self.binHashes blake3 sortedDataByPubkey bin],
          acc.2 + self.binLamports sortedDataByPubkey bin)
      else none := by
  unfold deDupAccountsStep
  rw [self.deDupAccountsInParallel_eq blake3 hSorted]
  by_cases hBin : self.binLamports sortedDataByPubkey bin < 2 ^ 128
  · by_cases hSum : acc.2 + self.binLamports sortedDataByPubkey bin < 2 ^ 128
    · simp [hBin, hSum, checkedCastForCapitalization, -Nat.reducePow]
    · simp [hBin, hSum, checkedCastForCapitalization, -Nat.reducePow]
  · have hSum : ¬ acc.2 + self.binLamports sortedDataByPubkey bin < 2 ^ 128 := by omega
    simp [hBin, hSum, -Nat.reducePow]

/-- The rounds over any bins: their hashes in bin order and the total of their lamports, or a
panic once the running total leaves `u128`, which is exactly when the whole total does. -/
theorem AccountsHasher.foldlM_deDupAccountsStep (self : AccountsHasher)
    (hSorted : ∀ bins ∈ sortedDataByPubkey, ∀ bin ∈ bins, bin.Pairwise (fun a b => a.pubkey ≤ b.pubkey))
    (bins : List Nat) {acc : List AccountHashesFile × Nat} (hAcc : acc.2 < 2 ^ 128) :
    bins.foldlM (self.deDupAccountsStep blake3 sortedDataByPubkey) acc =
      if acc.2 + (bins.map (self.binLamports sortedDataByPubkey)).sum < 2 ^ 128 then
        some (acc.1 ++ bins.map (self.binHashes blake3 sortedDataByPubkey),
          acc.2 + (bins.map (self.binLamports sortedDataByPubkey)).sum)
      else none := by
  induction bins generalizing acc with
  | nil => simp [hAcc, -Nat.reducePow]
  | cons bin bins ih =>
      rw [List.foldlM_cons, self.deDupAccountsStep_eq blake3 hSorted]
      by_cases hBin : acc.2 + self.binLamports sortedDataByPubkey bin < 2 ^ 128
      · rw [if_pos hBin, Option.bind_eq_bind, Option.bind_some, ih hBin]
        simp only [List.map_cons, List.sum_cons, List.append_assoc, List.singleton_append,
          ← Nat.add_assoc]
      · have hTotal : ¬ acc.2 + ((bin :: bins).map (self.binLamports sortedDataByPubkey)).sum <
            2 ^ 128 := by
          simp only [List.map_cons, List.sum_cons]
          omega
        rw [if_neg hBin, if_neg hTotal]
        rfl

/-- `de_dup_accounts` on bins sorted by pubkey: each bin's hashes, and the total of all their
lamports, or a panic once that total leaves `u128`. -/
theorem AccountsHasher.deDupAccounts_eq (self : AccountsHasher)
    (hSorted : ∀ bins ∈ sortedDataByPubkey, ∀ bin ∈ bins, bin.Pairwise (fun a b => a.pubkey ≤ b.pubkey))
    (maxBin : Nat) :
    self.deDupAccounts blake3 sortedDataByPubkey maxBin =
      if ((List.range maxBin).map (self.binLamports sortedDataByPubkey)).sum < 2 ^ 128 then
        some ((List.range maxBin).map (self.binHashes blake3 sortedDataByPubkey),
          ((List.range maxBin).map (self.binLamports sortedDataByPubkey)).sum)
      else none := by
  rw [self.deDupAccounts_eq_foldlM, self.foldlM_deDupAccountsStep blake3 hSorted _ (Nat.two_pow_pos 128)]
  simp only [Nat.zero_add, List.nil_append]

end Bins

end PutValidator
