import Mathlib

/-! Finite maps kept as their entries in ascending key order, each key once: the shape of an
ordered map such as a `BTreeMap` as a program sees it. A program looks keys up, updates a key
through `entry(key).or_default()` (`alter`), inserts and removes keys, and iterates the entries
in key order, which is the order of the list. -/
namespace Lib

/-- A list of entries whose keys strictly ascend. -/
structure SortedMap (κ ν : Type) [LT κ] where
  entries : List (κ × ν)
  sorted : entries.Pairwise fun a b => a.1 < b.1

namespace SortedMap

variable {κ ν : Type} [LT κ]

def empty : SortedMap κ ν := ⟨[], .nil⟩

def keys (m : SortedMap κ ν) : List κ := m.entries.map Prod.fst

/-- The keys, in order, whose value passes a test: `iter().filter_map(..)` over the map. -/
def keysWhere (m : SortedMap κ ν) (p : ν → Bool) : List κ :=
  m.entries.filterMap fun e => if p e.2 then some e.1 else none

theorem keysWhere_sublist (m : SortedMap κ ν) (p : ν → Bool) : (m.keysWhere p).Sublist m.keys := by
  unfold keysWhere keys
  induction m.entries with
  | nil => simp
  | cons e rest ih =>
      rw [List.filterMap_cons, List.map_cons]
      split_ifs
      · exact ih.cons_cons e.1
      · exact ih.cons e.1

variable [DecidableEq κ]

/-- The value stored at a key. -/
def get? (m : SortedMap κ ν) (k : κ) : Option ν := m.entries.lookup k

/-- `remove_entry`. -/
def erase (m : SortedMap κ ν) (k : κ) : SortedMap κ ν :=
  ⟨m.entries.filter fun e => e.1 != k, m.sorted.filter _⟩

@[simp] theorem get?_empty (k : κ) : (empty : SortedMap κ ν).get? k = none := rfl

omit [LT κ] in
theorem lookup_filter_of_ne {k k' : κ} (hNe : k' ≠ k) :
    ∀ l : List (κ × ν), (l.filter fun e => e.1 != k).lookup k' = l.lookup k'
  | [] => rfl
  | (k'', v) :: rest => by
      rw [List.filter_cons]
      by_cases hKey : k'' = k
      · subst hKey
        simp [List.lookup_cons, beq_false_of_ne hNe, lookup_filter_of_ne hNe rest]
      · simp [List.lookup_cons, hKey, lookup_filter_of_ne hNe rest]

@[simp] theorem get?_erase (m : SortedMap κ ν) (k k' : κ) :
    (m.erase k).get? k' = if k' = k then none else m.get? k' := by
  unfold erase get?
  split_ifs with h
  · subst h
    rw [List.lookup_eq_none_iff]
    intro e he
    have hNe := (List.mem_filter.mp he).2
    rw [bne_iff_ne] at hNe ⊢
    exact Ne.symm hNe
  · exact lookup_filter_of_ne h _

omit [LT κ] in
/-- Among distinct keys, the lookup finds exactly the entries of the list. -/
theorem lookup_eq_some_iff_mem {k : κ} {v : ν} :
    ∀ {l : List (κ × ν)}, (l.map Prod.fst).Nodup → (l.lookup k = some v ↔ (k, v) ∈ l)
  | [], _ => by simp
  | (k', v') :: rest, hNodup => by
      rw [List.map_cons, List.nodup_cons] at hNodup
      by_cases hKey : k = k'
      · subst hKey
        have hAbsent : (k, v) ∉ rest := fun hv => hNodup.1 (List.mem_map.mpr ⟨_, hv, rfl⟩)
        simp [hAbsent, eq_comm]
      · simp [List.lookup_cons, beq_false_of_ne hKey, hKey, lookup_eq_some_iff_mem hNodup.2]

/-- Removing keys one after another removes each of them and leaves the rest. -/
theorem get?_foldl_erase (keys : List κ) (m : SortedMap κ ν) (k : κ) :
    (keys.foldl erase m).get? k = if k ∈ keys then none else m.get? k := by
  induction keys generalizing m with
  | nil => simp
  | cons key rest ih =>
      rw [List.foldl_cons, ih, get?_erase]
      by_cases hRest : k ∈ rest
      · simp [hRest]
      · by_cases hKey : k = key <;> simp [hRest, hKey]

section Order

variable [IsStrictTotalOrder κ (· < ·)]

omit [DecidableEq κ] in
theorem nodup_keys (m : SortedMap κ ν) : m.keys.Nodup := by
  unfold keys
  exact List.Pairwise.map _ (fun a b h hEq => irrefl b.1 (hEq ▸ h)) m.sorted

theorem mem_entries_iff (m : SortedMap κ ν) {k : κ} {v : ν} :
    (k, v) ∈ m.entries ↔ m.get? k = some v :=
  (lookup_eq_some_iff_mem m.nodup_keys).symm

theorem mem_keys_iff (m : SortedMap κ ν) {k : κ} : k ∈ m.keys ↔ (m.get? k).isSome := by
  simp only [keys, List.mem_map, Option.isSome_iff_exists, ← mem_entries_iff]
  constructor
  · rintro ⟨⟨k', v⟩, he, rfl⟩
    exact ⟨v, he⟩
  · rintro ⟨v, he⟩
    exact ⟨(k, v), he, rfl⟩

theorem mem_keysWhere (m : SortedMap κ ν) {p : ν → Bool} {k : κ} :
    k ∈ m.keysWhere p ↔ ∃ v, m.get? k = some v ∧ p v = true := by
  simp only [keysWhere, List.mem_filterMap, Option.ite_none_right_eq_some, Option.some.injEq,
    ← mem_entries_iff]
  constructor
  · rintro ⟨⟨k', v⟩, he, hp, rfl⟩
    exact ⟨v, he, hp⟩
  · rintro ⟨v, he, hp⟩
    exact ⟨(k, v), he, hp, rfl⟩

omit [DecidableEq κ] in
theorem nodup_keysWhere (m : SortedMap κ ν) (p : ν → Bool) : (m.keysWhere p).Nodup :=
  (m.keysWhere_sublist p).nodup m.nodup_keys

/-- A key below the first key of a sorted list is not in it. -/
theorem lookup_eq_none_of_lt {k k' : κ} {v : ν} {rest : List (κ × ν)}
    (hs : ((k', v) :: rest).Pairwise fun a b => a.1 < b.1) (hLt : k < k') :
    ((k', v) :: rest).lookup k = none := by
  rw [List.lookup_eq_none_iff]
  intro e he
  rw [bne_iff_ne]
  rintro rfl
  rcases List.mem_cons.mp he with rfl | he
  · exact irrefl _ hLt
  · exact irrefl _ (IsTrans.trans _ _ _ hLt ((List.pairwise_cons.mp hs).1 e he))

/-- `retain`: keep the entries that pass a test. -/
def filter (m : SortedMap κ ν) (p : κ → ν → Bool) : SortedMap κ ν :=
  ⟨m.entries.filter fun e => p e.1 e.2, m.sorted.filter _⟩

@[simp] theorem get?_filter (m : SortedMap κ ν) (p : κ → ν → Bool) (k : κ) :
    (m.filter p).get? k = (m.get? k).filter (p k) := by
  rcases hGet : m.get? k with _ | v
  · rw [Option.filter_none, get?, List.lookup_eq_none_iff]
    intro e he
    rw [bne_iff_ne]
    rintro rfl
    have hMem : (e.1, e.2) ∈ m.entries := (List.mem_filter.mp he).1
    rw [mem_entries_iff, hGet] at hMem
    exact absurd hMem (by simp)
  · have hMem : (k, v) ∈ m.entries := (mem_entries_iff m).mpr hGet
    have hNodup : ((m.filter p).entries.map Prod.fst).Nodup :=
      (List.Sublist.map _ List.filter_sublist).nodup m.nodup_keys
    by_cases hp : p k v = true
    · rw [Option.filter_some, if_pos hp, get?, lookup_eq_some_iff_mem hNodup]
      exact List.mem_filter.mpr ⟨hMem, hp⟩
    · rw [Option.filter_some, if_neg hp, get?, List.lookup_eq_none_iff]
      intro e he
      rw [bne_iff_ne]
      rintro rfl
      have hIn := (List.mem_filter.mp he)
      have hEq : m.get? e.1 = some e.2 := (mem_entries_iff m).mp hIn.1
      rw [hGet, Option.some.injEq] at hEq
      exact hp (hEq ▸ hIn.2)

end Order

section Alter

variable [DecidableLT κ]

/-- The walk of `alter` down the entries: the key's entry gets `f` of its value, and a key
that is not there is inserted with `f none` before the first larger key. -/
def alterEntries (k : κ) (f : Option ν → ν) : List (κ × ν) → List (κ × ν)
  | [] => [(k, f none)]
  | (k', v) :: rest =>
      if k' = k then (k, f (some v)) :: rest
      else if k < k' then (k, f none) :: (k', v) :: rest
      else (k', v) :: alterEntries k f rest

theorem mem_keys_alterEntries {k x : κ} {f : Option ν → ν} :
    ∀ {l : List (κ × ν)}, x ∈ (alterEntries k f l).map Prod.fst ↔ x = k ∨ x ∈ l.map Prod.fst
  | [] => by simp [alterEntries]
  | (k', v) :: rest => by
      unfold alterEntries
      split_ifs with hEq hLt
      · subst hEq
        simp
      · simp
      · simp only [List.map_cons, List.mem_cons, mem_keys_alterEntries]
        tauto

theorem lookup_alterEntries_of_ne {k k' : κ} {f : Option ν → ν} (hNe : k' ≠ k) :
    ∀ {l : List (κ × ν)}, (alterEntries k f l).lookup k' = l.lookup k'
  | [] => by simp [alterEntries, List.lookup, beq_false_of_ne hNe]
  | (k'', v) :: rest => by
      unfold alterEntries
      split_ifs with hEq hLt
      · subst hEq
        simp [List.lookup, beq_false_of_ne hNe]
      · simp [List.lookup, beq_false_of_ne hNe]
      · simp only [List.lookup]
        split
        · rfl
        · exact lookup_alterEntries_of_ne hNe

variable [IsStrictTotalOrder κ (· < ·)]

theorem sorted_alterEntries {k : κ} {f : Option ν → ν} :
    ∀ {l : List (κ × ν)}, l.Pairwise (fun a b => a.1 < b.1) →
      (alterEntries k f l).Pairwise fun a b => a.1 < b.1
  | [], _ => by simp [alterEntries]
  | (k', v) :: rest, hs => by
      rw [List.pairwise_cons] at hs
      unfold alterEntries
      split_ifs with hEq hLt
      · subst hEq
        exact List.pairwise_cons.mpr ⟨hs.1, hs.2⟩
      · refine List.pairwise_cons.mpr ⟨?_, List.pairwise_cons.mpr hs⟩
        intro e he
        rcases List.mem_cons.mp he with rfl | he
        · exact hLt
        · exact IsTrans.trans _ _ _ hLt (hs.1 e he)
      · -- the key goes after `k'`, which is then below every key of the altered rest
        have hGt : k' < k := by
          rcases trichotomous_of (· < ·) k' k with h | h | h
          · exact h
          · exact absurd h hEq
          · exact absurd h hLt
        refine List.pairwise_cons.mpr ⟨fun e he => ?_, sorted_alterEntries hs.2⟩
        have hKey : e.1 = k ∨ e.1 ∈ rest.map Prod.fst :=
          mem_keys_alterEntries.mp (List.mem_map_of_mem he)
        rcases hKey with hKey | hKey
        · exact hKey ▸ hGt
        · obtain ⟨e', he', hKey'⟩ := List.mem_map.mp hKey
          exact hKey' ▸ hs.1 e' he'

theorem lookup_alterEntries_self {k : κ} {f : Option ν → ν} :
    ∀ {l : List (κ × ν)}, l.Pairwise (fun a b => a.1 < b.1) →
      (alterEntries k f l).lookup k = some (f (l.lookup k))
  | [], _ => by simp [alterEntries, List.lookup]
  | (k', v) :: rest, hs => by
      unfold alterEntries
      split_ifs with hEq hLt
      · subst hEq
        simp [List.lookup]
      · rw [lookup_eq_none_of_lt hs hLt]
        simp [List.lookup]
      · rw [List.lookup, beq_false_of_ne (Ne.symm hEq), List.lookup,
          beq_false_of_ne (Ne.symm hEq)]
        exact lookup_alterEntries_self (List.pairwise_cons.mp hs).2

/-- Altering a key that is there leaves the keys as they are. -/
theorem map_fst_alterEntries_of_mem {k : κ} {f : Option ν → ν} :
    ∀ {l : List (κ × ν)}, l.Pairwise (fun a b => a.1 < b.1) → k ∈ l.map Prod.fst →
      (alterEntries k f l).map Prod.fst = l.map Prod.fst
  | [], _, hk => absurd hk List.not_mem_nil
  | (k', v) :: rest, hs, hk => by
      unfold alterEntries
      split_ifs with hEq hLt
      · subst hEq
        rfl
      · -- every key of the entries is at least `k'`, which is above `k`
        exfalso
        rcases List.mem_cons.mp hk with hk | hk
        · exact hEq hk.symm
        · obtain ⟨e, he, rfl⟩ := List.mem_map.mp hk
          exact asymm hLt ((List.pairwise_cons.mp hs).1 e he)
      · have hRest : k ∈ rest.map Prod.fst :=
          (List.mem_cons.mp hk).resolve_left fun h => hEq h.symm
        simp only [List.map_cons]
        rw [map_fst_alterEntries_of_mem (List.pairwise_cons.mp hs).2 hRest]

/-- `entry(k)` followed by an update of the slot: `f` sees the value at the key, if any. -/
def alter (m : SortedMap κ ν) (k : κ) (f : Option ν → ν) : SortedMap κ ν :=
  ⟨alterEntries k f m.entries, sorted_alterEntries m.sorted⟩

/-- `insert`, which replaces the value of a key that is there. -/
def insert (m : SortedMap κ ν) (k : κ) (v : ν) : SortedMap κ ν := m.alter k fun _ => v

@[simp] theorem get?_alter (m : SortedMap κ ν) (k k' : κ) (f : Option ν → ν) :
    (m.alter k f).get? k' = if k' = k then some (f (m.get? k)) else m.get? k' := by
  split_ifs with hKey
  · subst hKey
    exact lookup_alterEntries_self m.sorted
  · exact lookup_alterEntries_of_ne hKey

@[simp] theorem get?_insert (m : SortedMap κ ν) (k k' : κ) (v : ν) :
    (m.insert k v).get? k' = if k' = k then some v else m.get? k' :=
  get?_alter m k k' _

theorem keys_insert_of_isSome {m : SortedMap κ ν} {k : κ} (h : (m.get? k).isSome) (v : ν) :
    (m.insert k v).keys = m.keys :=
  map_fst_alterEntries_of_mem m.sorted ((m.mem_keys_iff).mpr h)

/-- On sorted entries, `alter` hands `f` the value at the key and nothing else. -/
theorem alterEntries_eq_const {k : κ} {f : Option ν → ν} :
    ∀ {l : List (κ × ν)}, l.Pairwise (fun a b => a.1 < b.1) →
      alterEntries k f l = alterEntries k (fun _ => f (l.lookup k)) l
  | [], _ => by simp [alterEntries, List.lookup]
  | (k', v) :: rest, hs => by
      unfold alterEntries
      split_ifs with hEq hLt
      · subst hEq
        simp [List.lookup]
      · rw [lookup_eq_none_of_lt hs hLt]
      · have hNe : k ≠ k' := fun h => hEq h.symm
        rw [List.lookup, beq_false_of_ne hNe, alterEntries_eq_const (List.pairwise_cons.mp hs).2]

/-- `entry(k)` and an update of the slot is the insert of the updated value. -/
theorem alter_eq_insert (m : SortedMap κ ν) (k : κ) (f : Option ν → ν) :
    m.alter k f = m.insert k (f (m.get? k)) := by
  simp only [alter, insert, get?, SortedMap.mk.injEq]
  exact alterEntries_eq_const m.sorted

/-- Merging a list of `(key, value)` pairs into a map, each through `alter` with `op` on the
stored value (or `d` where there is none), leaves at each key the merge of that key's values
in list order. -/
theorem get?_foldl_alter {β : Type} (op : ν → β → ν) (d : ν) :
    ∀ (l : List (κ × β)) (m : SortedMap κ ν) (k : κ),
      (l.foldl (fun m e => m.alter e.1 fun o => op (o.getD d) e.2) m).get? k =
        if k ∈ l.map Prod.fst then
          some ((l.filter (·.1 == k)).foldl (fun acc e => op acc e.2) ((m.get? k).getD d))
        else m.get? k
  | [], m, k => by simp
  | (k', c) :: rest, m, k => by
      rw [List.foldl_cons, get?_foldl_alter op d rest, get?_alter]
      by_cases hKey : k = k'
      · subst hKey
        have hFilter : ((k, c) :: rest).filter (·.1 == k) = (k, c) :: rest.filter (·.1 == k) := by
          simp
        by_cases hRest : k ∈ rest.map Prod.fst
        · simp [hRest, hFilter]
        · have hNil : rest.filter (·.1 == k) = [] := by
            rw [List.filter_eq_nil_iff]
            intro e he hKey
            exact hRest (List.mem_map.mpr ⟨e, he, beq_iff_eq.mp hKey⟩)
          simp [hRest, hNil]
      · have hFilter : ((k', c) :: rest).filter (·.1 == k) = rest.filter (·.1 == k) := by
          simp [Ne.symm hKey]
        simp only [List.map_cons, List.mem_cons, hKey, false_or, hFilter, if_false]

end Alter

/-! ### The entry at or below a key

An ordered map answers `range(..=k).next_back()`, the entry of the greatest key at or below `k`.
On the sorted entries it is the last of those at or below `k`; `floor?_eq_some_iff` says what it
is in terms of `get?` alone, which the lemmas about a map's updates then use. -/

section Floor

variable {κ ν : Type} [LinearOrder κ]

/-- The last element of a list sorted by a key is the one of greatest key. -/
theorem getLast?_eq_some_iff_of_sorted {α : Type} {f : α → κ} :
    ∀ {l : List α}, l.Pairwise (fun a b => f a < f b) → ∀ {x : α},
      (l.getLast? = some x ↔ x ∈ l ∧ ∀ y ∈ l, f y ≤ f x)
  | [], _, x => by simp
  | a :: rest, hs, x => by
      obtain ⟨hHead, hRest⟩ := List.pairwise_cons.mp hs
      rcases List.eq_nil_or_concat' rest with rfl | ⟨init, last, rfl⟩
      · rw [List.getLast?_singleton, Option.some.injEq, List.mem_singleton]
        constructor
        · rintro rfl
          exact ⟨rfl, fun y hy => by rw [List.mem_singleton.mp hy]⟩
        · rintro ⟨rfl, -⟩
          rfl
      have hNe : init ++ [last] ≠ [] := by simp
      rw [List.getLast?_cons, List.getLast?_concat, Option.getD_some,
        ← List.getLast?_concat (l := init), getLast?_eq_some_iff_of_sorted hRest]
      constructor
      · rintro ⟨hx, hMax⟩
        refine ⟨List.mem_cons_of_mem a hx, fun y hy => ?_⟩
        rcases List.mem_cons.mp hy with rfl | hy
        · exact le_of_lt (hHead x hx)
        · exact hMax y hy
      · rintro ⟨hx, hMax⟩
        refine ⟨?_, fun y hy => hMax y (List.mem_cons_of_mem a hy)⟩
        rcases List.mem_cons.mp hx with rfl | hx
        · -- the head is below every later element, so it is not the greatest
          have hLast := hHead last (by simp)
          exact absurd (hMax last (by simp)) (not_le.mpr hLast)
        · exact hx

/-- The entry of the greatest key at or below `k`. -/
def floor? (m : SortedMap κ ν) (k : κ) : Option (κ × ν) :=
  (m.entries.filter fun e => e.1 ≤ k).getLast?

theorem floor?_eq_some_iff {m : SortedMap κ ν} {k k' : κ} {v : ν} :
    m.floor? k = some (k', v) ↔
      m.get? k' = some v ∧ k' ≤ k ∧ ∀ k'' v'', m.get? k'' = some v'' → k'' ≤ k → k'' ≤ k' := by
  unfold floor?
  rw [getLast?_eq_some_iff_of_sorted (m.sorted.filter _)]
  simp only [List.mem_filter, decide_eq_true_eq, mem_entries_iff, Prod.forall]
  constructor
  · rintro ⟨⟨hMem, hLe⟩, hMax⟩
    exact ⟨hMem, hLe, fun k'' v'' hMem'' hLe'' => hMax k'' v'' ⟨hMem'', hLe''⟩⟩
  · rintro ⟨hMem, hLe, hMax⟩
    exact ⟨⟨hMem, hLe⟩, fun k'' v'' h => hMax k'' v'' h.1 h.2⟩

theorem floor?_eq_none_iff {m : SortedMap κ ν} {k : κ} :
    m.floor? k = none ↔ ∀ k' v, m.get? k' = some v → k < k' := by
  unfold floor?
  simp only [List.getLast?_eq_none_iff, List.filter_eq_nil_iff, decide_eq_true_eq, not_le,
    mem_entries_iff, Prod.forall]

theorem floor?_of_get? {m : SortedMap κ ν} {k : κ} {v : ν} (h : m.get? k = some v) :
    m.floor? k = some (k, v) :=
  floor?_eq_some_iff.mpr ⟨h, le_refl k, fun _ _ _ hLe => hLe⟩

/-- A map with an entry at or below `a` has one at or below every `b ≥ a`. -/
theorem floor?_isSome_of_le {m : SortedMap κ ν} {a b : κ} (h : (m.floor? a).isSome)
    (hab : a ≤ b) : (m.floor? b).isSome := by
  obtain ⟨⟨k, v⟩, hk⟩ := Option.isSome_iff_exists.mp h
  obtain ⟨hGet, hLe, -⟩ := floor?_eq_some_iff.mp hk
  cases hb : m.floor? b with
  | some _ => rfl
  | none => exact absurd (floor?_eq_none_iff.mp hb k v hGet) (not_lt.mpr (hLe.trans hab))

section Insert

variable [DecidableLT κ]

/-- A key above every key of the map is the entry at or below every key from it on. -/
theorem floor?_insert_of_forall_lt {m : SortedMap κ ν} {k : κ} (v : ν)
    (hAbove : ∀ k' v', m.get? k' = some v' → k' < k) (e : κ) :
    (m.insert k v).floor? e = if k ≤ e then some (k, v) else m.floor? e := by
  split_ifs with hk
  · refine floor?_eq_some_iff.mpr ⟨by simp, hk, fun k'' v'' h _ => ?_⟩
    rw [get?_insert] at h
    split_ifs at h with hEq
    · exact le_of_eq hEq
    · exact le_of_lt (hAbove k'' v'' h)
  · -- every entry at or below `e` is an old one
    cases hm : m.floor? e with
    | none =>
        refine floor?_eq_none_iff.mpr fun k' v' h => ?_
        rw [get?_insert] at h
        split_ifs at h with hEq
        · exact hEq ▸ not_le.mp hk
        · exact floor?_eq_none_iff.mp hm k' v' h
    | some entry =>
        obtain ⟨k', v'⟩ := entry
        obtain ⟨hGet, hLe, hMax⟩ := floor?_eq_some_iff.mp hm
        refine floor?_eq_some_iff.mpr ⟨?_, hLe, fun k'' v'' h hLe'' => ?_⟩
        · rw [get?_insert, if_neg (ne_of_lt (hAbove k' v' hGet))]
          exact hGet
        · rw [get?_insert] at h
          split_ifs at h with hEq
          · exact absurd (hEq ▸ hLe'') hk
          · exact hMax k'' v'' h hLe''

end Insert

/-- Replacing the entries below `c` by one at `c` that holds the value found at `c` keeps the
value found at every key from `c` on: the lookups of a lazily filled map are kept when it caches
the current key and drops the older ones. -/
theorem floor?_map_snd_of_cache {m m' : SortedMap κ ν} {c e : κ} {kc : κ} {vc : ν}
    (hc : m.floor? c = some (kc, vc))
    (hm' : ∀ k, m'.get? k = if k < c then none else if k = c then some vc else m.get? k)
    (hce : c ≤ e) : (m'.floor? e).map Prod.snd = (m.floor? e).map Prod.snd := by
  obtain ⟨⟨k', v'⟩, he⟩ := Option.isSome_iff_exists.mp
    (floor?_isSome_of_le (m := m) (by rw [hc]; rfl) hce)
  obtain ⟨hGet', hLe', hMax'⟩ := floor?_eq_some_iff.mp he
  rw [he]
  rcases lt_or_ge k' c with hBelow | hAbove
  · -- the entry found at `e` lies below `c`: it is the one found at `c`, now cached at `c`
    have hAtC : m.floor? c = some (k', v') := floor?_eq_some_iff.mpr
      ⟨hGet', le_of_lt hBelow, fun k'' v'' h hLe'' => hMax' k'' v'' h (hLe''.trans hce)⟩
    rw [hc, Option.some.injEq, Prod.mk.injEq] at hAtC
    obtain ⟨-, rfl⟩ := hAtC
    have hNew : m'.floor? e = some (c, vc) := by
      refine floor?_eq_some_iff.mpr ⟨by rw [hm', if_neg (lt_irrefl c), if_pos rfl], hce,
        fun k'' v'' h hLe'' => ?_⟩
      rw [hm'] at h
      split_ifs at h with hLt hEq
      · exact le_of_eq hEq
      · exact absurd (lt_of_le_of_lt (hMax' k'' v'' h hLe'') hBelow) hLt
    rw [hNew]
    rfl
  · -- the entry found at `e` is at or above `c` and is still there
    have hKept : m'.get? k' = some v' := by
      rw [hm', if_neg (not_lt.mpr hAbove)]
      split_ifs with hEq
      · subst hEq
        have := floor?_of_get? hGet'
        rw [hc, Option.some.injEq, Prod.mk.injEq] at this
        rw [this.2]
      · exact hGet'
    have hNew : m'.floor? e = some (k', v') := by
      refine floor?_eq_some_iff.mpr ⟨hKept, hLe', fun k'' v'' h hLe'' => ?_⟩
      rw [hm'] at h
      split_ifs at h with hLt hEq
      · exact hEq ▸ hAbove
      · exact hMax' k'' v'' h hLe''
    rw [hNew]

end Floor

end SortedMap

end Lib
