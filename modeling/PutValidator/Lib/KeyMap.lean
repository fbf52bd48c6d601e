import PutValidator.Lib.SortedMap

/-! A finite map as a list of entries with distinct keys: the model of a `HashMap` whose
iteration order the code never reads. Lookups, insertions that replace, `retain`, and the
number of entries, which counts distinct keys: a map in which a list of distinct keys is
present has at least that many entries (`length_le_len`). -/
namespace Lib

structure KeyMap (κ ν : Type) where
  entries : List (κ × ν)
  nodup : (entries.map Prod.fst).Nodup

namespace KeyMap

variable {κ ν : Type} [DecidableEq κ]

def empty : KeyMap κ ν := ⟨[], .nil⟩

def get? (m : KeyMap κ ν) (k : κ) : Option ν := m.entries.lookup k

/-- `len`: the number of entries. -/
def len (m : KeyMap κ ν) : Nat := m.entries.length

/-- `insert`, which replaces the value of a key that is there. -/
def insert (m : KeyMap κ ν) (k : κ) (v : ν) : KeyMap κ ν where
  entries := (k, v) :: m.entries.filter fun e => e.1 != k
  nodup := by
    refine List.nodup_cons.mpr ⟨fun hMem => ?_, ?_⟩
    · obtain ⟨e, he, hKey⟩ := List.mem_map.mp hMem
      have := (List.mem_filter.mp he).2
      simp [hKey] at this
    · exact (List.filter_sublist.map Prod.fst).nodup m.nodup

/-- `retain`: keep the entries that pass a test. -/
def retain (m : KeyMap κ ν) (p : κ → ν → Bool) : KeyMap κ ν where
  entries := m.entries.filter fun e => p e.1 e.2
  nodup := (List.filter_sublist.map Prod.fst).nodup m.nodup

@[simp] theorem get?_empty (k : κ) : (empty : KeyMap κ ν).get? k = none := rfl

theorem get?_eq_some_iff (m : KeyMap κ ν) {k : κ} {v : ν} : m.get? k = some v ↔ (k, v) ∈ m.entries :=
  SortedMap.lookup_eq_some_iff_mem m.nodup

@[simp] theorem get?_insert (m : KeyMap κ ν) (k k' : κ) (v : ν) :
    (m.insert k v).get? k' = if k' = k then some v else m.get? k' := by
  unfold insert get?
  split_ifs with hKey
  · subst hKey
    simp
  · rw [List.lookup_cons, beq_false_of_ne hKey]
    exact SortedMap.lookup_filter_of_ne hKey _

@[simp] theorem get?_retain (m : KeyMap κ ν) (p : κ → ν → Bool) (k : κ) :
    (m.retain p).get? k = (m.get? k).filter (p k) := by
  rcases hGet : m.get? k with _ | v
  · rw [Option.filter_none, get?, List.lookup_eq_none_iff]
    intro e he
    rw [bne_iff_ne]
    rintro rfl
    have hMem : (e.1, e.2) ∈ m.entries := (List.mem_filter.mp he).1
    rw [← get?_eq_some_iff, hGet] at hMem
    exact absurd hMem (by simp)
  · have hMem : (k, v) ∈ m.entries := (get?_eq_some_iff m).mp hGet
    by_cases hp : p k v = true
    · rw [Option.filter_some, if_pos hp, get?_eq_some_iff]
      exact List.mem_filter.mpr ⟨hMem, hp⟩
    · rw [Option.filter_some, if_neg hp, get?, List.lookup_eq_none_iff]
      intro e he
      rw [bne_iff_ne]
      rintro rfl
      have hIn := List.mem_filter.mp he
      have hEq : m.get? e.1 = some e.2 := (get?_eq_some_iff m).mpr hIn.1
      rw [hGet, Option.some.injEq] at hEq
      exact hp (hEq ▸ hIn.2)

/-- A map holding each of a list of distinct keys has at least as many entries. -/
theorem length_le_len (m : KeyMap κ ν) {keys : List κ} (hNodup : keys.Nodup)
    (hMem : ∀ k ∈ keys, (m.get? k).isSome) : keys.length ≤ m.len := by
  have hSub : keys ⊆ m.entries.map Prod.fst := fun k hk => by
    obtain ⟨v, hv⟩ := Option.isSome_iff_exists.mp (hMem k hk)
    exact List.mem_map.mpr ⟨(k, v), (get?_eq_some_iff m).mp hv, rfl⟩
  have := (hNodup.subperm hSub).length_le
  simpa [len] using this

/-- The keys of a map whose keys all lie below `n` are among the numbers below `n`. -/
theorem keys_subset_range {m : KeyMap Nat ν} {n : Nat} (hKeys : ∀ k, (m.get? k).isSome → k < n) :
    m.entries.map Prod.fst ⊆ List.range n := fun key hKey => by
  obtain ⟨⟨_, v⟩, hMem, rfl⟩ := List.mem_map.mp hKey
  exact List.mem_range.mpr (hKeys _ (by simp [(get?_eq_some_iff m).mpr hMem]))

/-- A map of `n` entries whose keys all lie below `n` holds every key below `n`. -/
theorem get?_isSome_of_len_eq {m : KeyMap Nat ν} {n : Nat} (hLen : m.len = n)
    (hKeys : ∀ k, (m.get? k).isSome → k < n) {k : Nat} (hk : k < n) : (m.get? k).isSome := by
  have hPerm := (m.nodup.subperm (keys_subset_range hKeys)).perm_of_length_le
    (by simp [← hLen, len])
  obtain ⟨⟨_, v⟩, hMem, rfl⟩ := List.mem_map.mp (hPerm.mem_iff.mpr (List.mem_range.mpr hk))
  simp [(get?_eq_some_iff m).mpr hMem]

/-- A map that holds exactly the keys below `n` has `n` entries. -/
theorem len_eq_of_isSome_iff {m : KeyMap Nat ν} {n : Nat} (h : ∀ k, (m.get? k).isSome ↔ k < n) :
    m.len = n := by
  have hLe := (m.nodup.subperm (keys_subset_range fun k => (h k).mp)).length_le
  have hGe := m.length_le_len List.nodup_range fun k hk => (h k).mpr (List.mem_range.mp hk)
  simp only [List.length_map, List.length_range, len] at hLe hGe ⊢
  omega

end KeyMap

end Lib
