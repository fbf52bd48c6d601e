import Mathlib

/-! Runs of entries sorted by key, as a k-way merge consumes them. The runs are ordered from the
oldest to the newest, so the entry that counts for a key is the last one in the last run that
holds the key. A merge step advances some runs past the entries of their head's key; the lemmas
say what such a step keeps: the runs stay sorted, the key it advances past leaves, every other key
stays, and the newest entry of every other key stays the same, provided a run is advanced past a
key other than the smallest only when a later run still holds that key. -/
namespace Lib.SortedRuns

variable {α κ : Type} [LinearOrder κ] (key : α → κ)

/-- The last entry of key `k` in one run. -/
def lastOf (r : List α) (k : κ) : Option α := (r.filter (fun a => key a = k)).getLast?

/-- The newest entry of key `k`: the last one in the last run that holds `k`. -/
def newest : List (List α) → κ → Option α
  | [], _ => none
  | r :: rs, k => (newest rs k).or (lastOf key r k)

/-- Some run holds an entry of key `k`. -/
def Mem (runs : List (List α)) (k : κ) : Prop := ∃ r ∈ runs, ∃ a ∈ r, key a = k

/-- The key of a run's first entry. -/
def headKey (r : List α) : Option κ := r.head?.map key

/-- A run with the entries of its head's key skipped. -/
def dropHeadRun : List α → List α
  | [] => []
  | a :: r => r.dropWhile (fun b => key b = key a)

/-- A run, unless it is empty. -/
def keepNonempty (r : List α) : List (List α) := if r = [] then [] else [r]

/-- Advance the selected runs past their head's key, dropping those that run out; `sel j` says
whether the run at position `j` is selected. -/
def advanceAt : (Nat → Bool) → List (List α) → List (List α)
  | _, [] => []
  | sel, r :: rs =>
      (if sel 0 then keepNonempty (dropHeadRun key r) else [r]) ++
        advanceAt (fun j => sel (j + 1)) rs

/-- Every run is nonempty and sorted by key. -/
def Wf (runs : List (List α)) : Prop :=
  ∀ r ∈ runs, r ≠ [] ∧ r.Pairwise (fun a b => key a ≤ key b)

/-- The number of entries left. -/
def size (runs : List (List α)) : Nat := (runs.map List.length).sum

/-- The distinct keys of the runs, in increasing order. -/
def sortedKeys (runs : List (List α)) : List κ :=
  ((runs.flatten.map key).dedup).mergeSort (fun a b => decide (a ≤ b))

variable {key}

section Run

theorem mem_of_mem_dropHeadRun {r : List α} {b : α} (hb : b ∈ dropHeadRun key r) : b ∈ r := by
  cases r with
  | nil => exact hb
  | cons a r => exact List.mem_cons_of_mem a ((List.dropWhile_suffix _).subset hb)

theorem length_dropHeadRun_le (r : List α) : (dropHeadRun key r).length ≤ r.length := by
  cases r with
  | nil => exact Nat.le_refl 0
  | cons a r => exact Nat.le_succ_of_le (List.dropWhile_suffix _).length_le

theorem length_dropHeadRun_lt {r : List α} (hr : r ≠ []) :
    (dropHeadRun key r).length < r.length := by
  cases r with
  | nil => exact absurd rfl hr
  | cons a r =>
      have hLe : (r.dropWhile (fun b => key b = key a)).length ≤ r.length :=
        (List.dropWhile_suffix _).length_le
      simp only [dropHeadRun, List.length_cons]
      omega

theorem pairwise_dropHeadRun {r : List α} (hs : r.Pairwise (fun a b => key a ≤ key b)) :
    (dropHeadRun key r).Pairwise (fun a b => key a ≤ key b) := by
  cases r with
  | nil => exact List.Pairwise.nil
  | cons a r => exact (List.pairwise_cons.mp hs).2.sublist (List.dropWhile_suffix _).sublist

/-- In a sorted run, the entries past the head's key all have larger keys. -/
theorem key_lt_of_mem_dropHeadRun {a b : α} {r : List α}
    (hs : (a :: r).Pairwise (fun a b => key a ≤ key b)) (hb : b ∈ dropHeadRun key (a :: r)) :
    key a < key b := by
  induction r with
  | nil => simp [dropHeadRun] at hb
  | cons c r ih =>
      have hac : key a ≤ key c := (List.pairwise_cons.mp hs).1 c List.mem_cons_self
      simp only [dropHeadRun, List.dropWhile_cons] at hb
      by_cases hc : key c = key a
      · -- `c` shares the head's key: skipped, and the rest is a sorted run below `a`
        simp only [hc, decide_true] at hb
        have hs' : (a :: r).Pairwise (fun a b => key a ≤ key b) :=
          hs.sublist (List.Sublist.cons_cons a (List.sublist_cons_self c r))
        exact ih hs' hb
      · simp only [hc, decide_false] at hb
        have hLt : key a < key c := lt_of_le_of_ne hac (Ne.symm hc)
        rcases List.mem_cons.mp hb with rfl | hb
        · exact hLt
        · have hcb : key c ≤ key b :=
            (List.pairwise_cons.mp (List.pairwise_cons.mp hs).2).1 b hb
          exact lt_of_lt_of_le hLt hcb

/-- Skipping the head's key keeps the entries of every other key. -/
theorem lastOf_dropHeadRun {r : List α} {k : κ} (hk : headKey key r ≠ some k) :
    lastOf key (dropHeadRun key r) k = lastOf key r k := by
  cases r with
  | nil => rfl
  | cons a r =>
      have hak : key a ≠ k := fun h => hk (by simp [headKey, h])
      have hSkipped : (r.takeWhile (fun b => key b = key a)).filter (fun b => key b = k) = [] := by
        rw [List.filter_eq_nil_iff]
        intro b hb
        have hba : key b = key a := by
          simpa using List.mem_takeWhile_imp (p := fun b => decide (key b = key a)) hb
        simp [hba, hak]
      have hSplit : (a :: r).filter (fun b => key b = k) =
          (dropHeadRun key (a :: r)).filter (fun b => key b = k) := by
        rw [List.filter_cons, if_neg (by simpa using hak)]
        calc r.filter (fun b => key b = k)
            = (r.takeWhile (fun b => key b = key a) ++ r.dropWhile (fun b => key b = key a)).filter
                (fun b => key b = k) := by rw [List.takeWhile_append_dropWhile]
          _ = (dropHeadRun key (a :: r)).filter (fun b => key b = k) := by
            rw [List.filter_append, hSkipped, List.nil_append]
            rfl
      rw [lastOf, lastOf, hSplit]

/-- In a sorted run, the last entry of the head's key ends the head's stretch of equal keys. -/
theorem lastOf_headKey {a : α} {r : List α} (hs : (a :: r).Pairwise (fun a b => key a ≤ key b)) :
    lastOf key (a :: r) (key a) = ((a :: r).takeWhile (fun b => key b = key a)).getLast? := by
  have hRest : (dropHeadRun key (a :: r)).filter (fun b => key b = key a) = [] := by
    rw [List.filter_eq_nil_iff]
    intro b hb
    simpa using (key_lt_of_mem_dropHeadRun hs hb).ne'
  have hStretch : ((a :: r).takeWhile (fun b => key b = key a)).filter (fun b => key b = key a) =
      (a :: r).takeWhile (fun b => key b = key a) :=
    List.filter_eq_self.mpr fun b hb =>
      List.mem_takeWhile_imp (p := fun b => decide (key b = key a)) hb
  have hDrop : (a :: r).dropWhile (fun b => key b = key a) = dropHeadRun key (a :: r) := by
    simp [dropHeadRun]
  have hFilter : (a :: r).filter (fun b => key b = key a) =
      (a :: r).takeWhile (fun b => key b = key a) := by
    calc (a :: r).filter (fun b => key b = key a)
        = ((a :: r).takeWhile (fun b => key b = key a) ++
            (a :: r).dropWhile (fun b => key b = key a)).filter (fun b => key b = key a) := by
          rw [List.takeWhile_append_dropWhile]
      _ = (a :: r).takeWhile (fun b => key b = key a) := by
          rw [List.filter_append, hStretch, hDrop, hRest, List.append_nil]
  rw [lastOf, hFilter]

theorem mem_dropHeadRun_of_ne {a : α} {r : List α} (ha : a ∈ r) (hHead : headKey key r ≠ some (key a)) :
    a ∈ dropHeadRun key r := by
  cases r with
  | nil => exact absurd ha List.not_mem_nil
  | cons c r =>
      have hca : key c ≠ key a := fun h => hHead (by simp [headKey, h])
      rcases List.mem_cons.mp ha with rfl | ha
      · exact absurd rfl hca
      · -- the skipped stretch holds only the head's key
        have hNotSkipped : a ∉ r.takeWhile (fun b => key b = key c) := fun h => by
          have hac : key a = key c := by
            simpa using List.mem_takeWhile_imp (p := fun b => decide (key b = key c)) h
          exact hca hac.symm
        rw [← List.takeWhile_append_dropWhile (p := fun b => key b = key c) (l := r),
          List.mem_append] at ha
        exact ha.resolve_left hNotSkipped

theorem lastOf_isSome {r : List α} {k : κ} (hk : ∃ a ∈ r, key a = k) : (lastOf key r k).isSome := by
  obtain ⟨a, ha, rfl⟩ := hk
  rw [lastOf, List.getLast?_isSome, ne_eq, List.filter_eq_nil_iff]
  simp only [decide_eq_true_eq, not_forall, not_not]
  exact ⟨a, ha, rfl⟩

theorem lastOf_eq_none {r : List α} {k : κ} (hk : ∀ a ∈ r, key a ≠ k) : lastOf key r k = none := by
  rw [lastOf, List.getLast?_eq_none_iff, List.filter_eq_nil_iff]
  simpa using hk

end Run

section Newest

@[simp] theorem newest_nil (k : κ) : newest key [] k = none := rfl

@[simp] theorem newest_cons (r : List α) (rs : List (List α)) (k : κ) :
    newest key (r :: rs) k = (newest key rs k).or (lastOf key r k) := rfl

theorem newest_eq_none {runs : List (List α)} {k : κ} (hk : ¬ Mem key runs k) :
    newest key runs k = none := by
  induction runs with
  | nil => rfl
  | cons r rs ih =>
      have hRest : ¬ Mem key rs k := fun ⟨r', hr', h⟩ => hk ⟨r', List.mem_cons_of_mem r hr', h⟩
      have hHere : ∀ a ∈ r, key a ≠ k := fun a ha h => hk ⟨r, List.mem_cons_self, a, ha, h⟩
      rw [newest_cons, ih hRest, lastOf_eq_none hHere, Option.or_none]

theorem newest_isSome {runs : List (List α)} {k : κ} (hk : Mem key runs k) :
    (newest key runs k).isSome := by
  induction runs with
  | nil => obtain ⟨r, hr, -⟩ := hk; exact absurd hr List.not_mem_nil
  | cons r rs ih =>
      rw [newest_cons, Option.isSome_or]
      obtain ⟨r₀, hr₀, hIn⟩ := hk
      rcases List.mem_cons.mp hr₀ with rfl | hr₀
      · exact Bool.or_eq_true_iff.mpr (.inr (lastOf_isSome hIn))
      · exact Bool.or_eq_true_iff.mpr (.inl (ih ⟨r₀, hr₀, hIn⟩))

theorem newest_append (xs ys : List (List α)) (k : κ) :
    newest key (xs ++ ys) k = (newest key ys k).or (newest key xs k) := by
  induction xs with
  | nil => simp
  | cons r rs ih => simp [ih, Option.or_assoc]

theorem key_of_lastOf_eq_some {r : List α} {k : κ} {a : α} (h : lastOf key r k = some a) :
    key a = k := by
  have hMem := List.mem_of_getLast? h
  simpa using (List.mem_filter.mp hMem).2

/-- The newest entry of a key has that key. -/
theorem key_of_newest_eq_some {runs : List (List α)} {k : κ} {a : α}
    (h : newest key runs k = some a) : key a = k := by
  induction runs with
  | nil => cases h
  | cons r rs ih =>
      rw [newest_cons] at h
      cases hRest : newest key rs k with
      | none =>
          rw [hRest, Option.none_or] at h
          exact key_of_lastOf_eq_some h
      | some b =>
          rw [hRest, Option.some_or] at h
          cases h
          exact ih hRest

/-- Empty runs hold nothing. -/
theorem newest_filter_ne_nil (runs : List (List α)) (k : κ) :
    newest key (runs.filter (fun r => !r.isEmpty)) k = newest key runs k := by
  induction runs with
  | nil => rfl
  | cons r rs ih =>
      cases r with
      | nil => simp [ih, lastOf]
      | cons a r => simp [ih]

omit [LinearOrder κ] in
theorem mem_filter_ne_nil {runs : List (List α)} {k : κ} :
    Mem key (runs.filter (fun r => !r.isEmpty)) k ↔ Mem key runs k := by
  constructor
  · rintro ⟨r, hr, h⟩
    exact ⟨r, (List.mem_filter.mp hr).1, h⟩
  · rintro ⟨r, hr, a, ha, h⟩
    refine ⟨r, List.mem_filter.mpr ⟨hr, ?_⟩, a, ha, h⟩
    cases r with
    | nil => exact absurd ha List.not_mem_nil
    | cons => rfl

end Newest

section Advance

@[simp] theorem advanceAt_nil (sel : Nat → Bool) : advanceAt key sel [] = [] := rfl

theorem advanceAt_cons (sel : Nat → Bool) (r : List α) (rs : List (List α)) :
    advanceAt key sel (r :: rs) =
      (if sel 0 then keepNonempty (dropHeadRun key r) else [r]) ++
        advanceAt key (fun j => sel (j + 1)) rs := rfl

theorem mem_keepNonempty {r r' : List α} (h : r' ∈ keepNonempty r) : r' = r ∧ r ≠ [] := by
  unfold keepNonempty at h
  split at h
  · exact absurd h List.not_mem_nil
  · exact ⟨List.mem_singleton.mp h, by assumption⟩

theorem advanceAt_of_forall_false {sel : Nat → Bool} (hSel : ∀ j, sel j = false)
    (runs : List (List α)) : advanceAt key sel runs = runs := by
  induction runs generalizing sel with
  | nil => rfl
  | cons r rs ih =>
      rw [advanceAt_cons, hSel 0, ih (fun j => hSel (j + 1))]
      rfl

/-- Advancing one position. -/
theorem advanceAt_single {runs : List (List α)} {j : Nat} (hj : j < runs.length) :
    advanceAt key (fun i => i == j) runs =
      runs.take j ++ keepNonempty (dropHeadRun key runs[j]) ++ runs.drop (j + 1) := by
  induction runs generalizing j with
  | nil => exact absurd hj (Nat.not_lt_zero j)
  | cons r rs ih =>
      cases j with
      | zero =>
          rw [advanceAt_cons, advanceAt_of_forall_false (fun i => by simp)]
          simp
      | succ j =>
          have hShift : (fun i => (i + 1 == j + 1)) = (fun i => i == j) := by
            funext i
            simp
          rw [advanceAt_cons, if_neg (by simp), hShift, ih (by simpa using hj)]
          simp

theorem le_length_advanceAt_single {runs : List (List α)} {j : Nat} (hj : j < runs.length) :
    j ≤ (advanceAt key (fun i => i == j) runs).length := by
  rw [advanceAt_single hj]
  simp only [List.length_append, List.length_take]
  omega

/-- Advancing at the later positions first and then at earlier ones is one advance at both:
dropping a run only moves the positions after it. -/
theorem advanceAt_advanceAt {late early : Nat → Bool}
    (hBefore : ∀ i j, early i = true → late j = true → i < j) (runs : List (List α)) :
    advanceAt key early (advanceAt key late runs) =
      advanceAt key (fun j => late j || early j) runs := by
  induction runs generalizing late early with
  | nil => rfl
  | cons r rs ih =>
      have hShift : ∀ i j, early (i + 1) = true → late (j + 1) = true → i < j :=
        fun i j hi hj => Nat.lt_of_succ_lt_succ (hBefore _ _ hi hj)
      by_cases hLate : late 0 = true
      · -- nothing is selected early, since no position lies before the first
        have hNone : ∀ i, early i = false := fun i => by
          by_contra hi
          exact absurd (hBefore i 0 (by simpa using hi) hLate) (Nat.not_lt_zero i)
        rw [advanceAt_of_forall_false hNone]
        simp [advanceAt_cons, hLate, hNone]
      · have hLate' : late 0 = false := by simpa using hLate
        rw [advanceAt_cons, hLate', if_neg (by simp), List.singleton_append, advanceAt_cons,
          advanceAt_cons, ih hShift]
        simp [hLate']

theorem mem_of_mem_advanceAt {sel : Nat → Bool} {runs : List (List α)} {r' : List α}
    (h : r' ∈ advanceAt key sel runs) : ∃ r ∈ runs, (r' = r ∨ r' = dropHeadRun key r) := by
  induction runs generalizing sel with
  | nil => exact absurd h List.not_mem_nil
  | cons r rs ih =>
      rw [advanceAt_cons, List.mem_append] at h
      rcases h with h | h
      · split at h
        · exact ⟨r, List.mem_cons_self, .inr (mem_keepNonempty h).1⟩
        · exact ⟨r, List.mem_cons_self, .inl (List.mem_singleton.mp h)⟩
      · obtain ⟨r₀, hr₀, hEq⟩ := ih h
        exact ⟨r₀, List.mem_cons_of_mem r hr₀, hEq⟩

/-- Advancing keeps the runs nonempty and sorted. -/
theorem wf_advanceAt {runs : List (List α)} (hWf : Wf key runs) (sel : Nat → Bool) :
    Wf key (advanceAt key sel runs) := by
  induction runs generalizing sel with
  | nil => intro r hr; exact absurd hr List.not_mem_nil
  | cons r rs ih =>
      intro r' hr'
      rw [advanceAt_cons, List.mem_append] at hr'
      rcases hr' with hr' | hr'
      · split at hr'
        · obtain ⟨rfl, hNe⟩ := mem_keepNonempty hr'
          exact ⟨hNe, pairwise_dropHeadRun (hWf r List.mem_cons_self).2⟩
        · rw [List.mem_singleton.mp hr']
          exact hWf r List.mem_cons_self
      · exact ih (fun r₀ hr₀ => hWf r₀ (List.mem_cons_of_mem r hr₀)) _ r' hr'

theorem mem_of_mem_advanceAt_key {sel : Nat → Bool} {runs : List (List α)} {k : κ}
    (h : Mem key (advanceAt key sel runs) k) : Mem key runs k := by
  obtain ⟨r', hr', a, ha, hk⟩ := h
  obtain ⟨r, hr, rfl | rfl⟩ := mem_of_mem_advanceAt hr'
  · exact ⟨r', hr, a, ha, hk⟩
  · exact ⟨r, hr, a, mem_of_mem_dropHeadRun ha, hk⟩

theorem size_advanceAt_le (sel : Nat → Bool) (runs : List (List α)) :
    size (advanceAt key sel runs) ≤ size runs := by
  induction runs generalizing sel with
  | nil => exact Nat.le_refl 0
  | cons r rs ih =>
      have hRest := ih (fun j => sel (j + 1))
      have hHead : ((if sel 0 then keepNonempty (dropHeadRun key r) else [r]).map
          List.length).sum ≤ r.length := by
        split
        · unfold keepNonempty
          split
          · exact Nat.zero_le _
          · have hLe : (dropHeadRun key r).length ≤ r.length := length_dropHeadRun_le r
            simpa using hLe
        · simp
      simp only [size, advanceAt_cons, List.map_append, List.sum_append, List.map_cons,
        List.sum_cons] at hRest hHead ⊢
      omega

/-- Advancing a selected nonempty run consumes at least one entry. -/
theorem size_advanceAt_lt {runs : List (List α)} (hWf : Wf key runs) {sel : Nat → Bool} {j : Nat}
    (hj : j < runs.length) (hSel : sel j = true) :
    size (advanceAt key sel runs) < size runs := by
  induction runs generalizing sel j with
  | nil => exact absurd hj (Nat.not_lt_zero j)
  | cons r rs ih =>
      have hWfRest : Wf key rs := fun r₀ hr₀ => hWf r₀ (List.mem_cons_of_mem r hr₀)
      have hLt : (dropHeadRun key r).length < r.length :=
        length_dropHeadRun_lt (hWf r List.mem_cons_self).1
      have hHeadLe : ((if sel 0 then keepNonempty (dropHeadRun key r) else [r]).map
          List.length).sum ≤ r.length := by
        split
        · unfold keepNonempty
          split
          · exact Nat.zero_le _
          · simpa using hLt.le
        · simp
      cases j with
      | zero =>
          -- the head run itself is advanced
          have hHeadLt : ((keepNonempty (dropHeadRun key r)).map List.length).sum < r.length := by
            unfold keepNonempty
            split
            · simpa using List.length_pos_iff.mpr (hWf r List.mem_cons_self).1
            · simpa using hLt
          have hRest : size (advanceAt key (fun j => sel (j + 1)) rs) ≤ size rs :=
            size_advanceAt_le _ rs
          simp only [size, advanceAt_cons, hSel, if_true, List.map_append, List.sum_append,
            List.map_cons, List.sum_cons] at hRest hHeadLt ⊢
          omega
      | succ j =>
          have hRest : size (advanceAt key (fun j => sel (j + 1)) rs) < size rs :=
            ih hWfRest (Nat.lt_of_succ_lt_succ hj) hSel
          simp only [size, advanceAt_cons, List.map_append, List.sum_append, List.map_cons,
            List.sum_cons] at hRest hHeadLe ⊢
          omega

variable {m : κ}

/-- The smallest key leaves once every run that starts with it is advanced. -/
theorem not_mem_advanceAt_min {runs : List (List α)} (hWf : Wf key runs)
    (hMin : ∀ k, Mem key runs k → m ≤ k) {sel : Nat → Bool}
    (hSel : ∀ j (hj : j < runs.length), headKey key runs[j] = some m → sel j = true) :
    ¬ Mem key (advanceAt key sel runs) m := by
  rintro ⟨r', hr', b, hb, hbm⟩
  induction runs generalizing sel with
  | nil => exact absurd hr' List.not_mem_nil
  | cons r rs ih =>
      rw [advanceAt_cons, List.mem_append] at hr'
      rcases hr' with hr' | hr'
      · obtain ⟨a, r₀, rfl⟩ : ∃ a r₀, r = a :: r₀ := List.exists_cons_of_ne_nil (hWf r List.mem_cons_self).1
        have hs := (hWf _ List.mem_cons_self).2
        have ham : m ≤ key a := hMin _ ⟨_, List.mem_cons_self, a, List.mem_cons_self, rfl⟩
        split at hr'
        · -- an advanced run holds only keys above its head's
          obtain ⟨rfl, -⟩ := mem_keepNonempty hr'
          exact absurd (hbm ▸ key_lt_of_mem_dropHeadRun hs hb) (not_lt.mpr ham)
        · -- a run left alone starts above the smallest key, and so lies above it
          rename_i hNotSel
          rw [List.mem_singleton.mp hr'] at hb
          have hHead : key a ≠ m := fun h =>
            hNotSel (hSel 0 (by simp) (by simp [headKey, h]))
          have hab : key a ≤ key b := by
            rcases List.mem_cons.mp hb with rfl | hb
            · exact le_refl _
            · exact (List.pairwise_cons.mp hs).1 b hb
          exact hHead (le_antisymm (hbm ▸ hab) ham)
      · exact ih (fun r₀ hr₀ => hWf r₀ (List.mem_cons_of_mem r hr₀))
          (fun k ⟨r₀, hr₀, h⟩ => hMin k ⟨r₀, List.mem_cons_of_mem r hr₀, h⟩)
          (fun j hj h => hSel (j + 1) (by simpa using hj) (by simpa using h)) hr'

variable (key) in
/-- A selected run is advanced past a key other than the smallest only when a later run still
holds that key. -/
def StaleCovered (sel : Nat → Bool) (runs : List (List α)) (m : κ) : Prop :=
  ∀ j (hj : j < runs.length), sel j = true → ∀ k, headKey key runs[j] = some k → k ≠ m →
    Mem key (runs.drop (j + 1)) k

omit [LinearOrder κ] in
theorem StaleCovered.tail {sel : Nat → Bool} {r : List α} {rs : List (List α)}
    (h : StaleCovered key sel (r :: rs) m) :
    StaleCovered key (fun j => sel (j + 1)) rs m :=
  fun j hj hSel k hk hkm => by simpa using h (j + 1) (by simpa using hj) hSel k (by simpa using hk) hkm

/-- Every key other than the smallest stays. -/
theorem mem_advanceAt {runs : List (List α)} {sel : Nat → Bool}
    (hStale : StaleCovered key sel runs m) {k : κ} (hk : Mem key runs k) (hkm : k ≠ m) :
    Mem key (advanceAt key sel runs) k := by
  induction runs generalizing sel with
  | nil => obtain ⟨r, hr, -⟩ := hk; exact absurd hr List.not_mem_nil
  | cons r rs ih =>
      have hLater : Mem key rs k → Mem key (advanceAt key sel (r :: rs)) k := by
        rintro hRest
        obtain ⟨r', hr', h⟩ := ih hStale.tail hRest
        exact ⟨r', by rw [advanceAt_cons]; exact List.mem_append_right _ hr', h⟩
      obtain ⟨r₀, hr₀, a, ha, rfl⟩ := hk
      rcases List.mem_cons.mp hr₀ with rfl | hr₀
      · by_cases hSel : sel 0 = true
        · cases r₀ with
          | nil => exact absurd ha List.not_mem_nil
          | cons c r₁ =>
              by_cases hHead : key c = key a
              · -- skipped here, but a later run holds the key
                exact hLater (by
                  simpa using hStale 0 (by simp) hSel (key a) (by simp [headKey, hHead]) hkm)
              · -- the key lies past the head's stretch and survives the skip
                have hIn : a ∈ dropHeadRun key (c :: r₁) :=
                  mem_dropHeadRun_of_ne ha (by simpa [headKey] using hHead)
                refine ⟨dropHeadRun key (c :: r₁), ?_, a, hIn, rfl⟩
                rw [advanceAt_cons, if_pos hSel]
                apply List.mem_append_left
                simp [keepNonempty, List.ne_nil_of_mem hIn]
        · exact ⟨r₀, by rw [advanceAt_cons, if_neg hSel]; simp, a, ha, rfl⟩
      · exact hLater ⟨r₀, hr₀, a, ha, rfl⟩

/-- The newest entry of every key other than the smallest stays the same. -/
theorem newest_advanceAt {runs : List (List α)} {sel : Nat → Bool}
    (hStale : StaleCovered key sel runs m) {k : κ} (hkm : k ≠ m) :
    newest key (advanceAt key sel runs) k = newest key runs k := by
  induction runs generalizing sel with
  | nil => rfl
  | cons r rs ih =>
      have hRest := ih hStale.tail
      rw [advanceAt_cons, newest_append, hRest, newest_cons]
      split
      · rename_i hSel
        by_cases hHead : headKey key r = some k
        · -- skipped here, and the newest entry comes from a later run
          have hLater : Mem key rs k := by
            simpa using hStale 0 (by simp) hSel k (by simpa using hHead) hkm
          obtain ⟨x, hx⟩ := Option.isSome_iff_exists.mp (newest_isSome hLater)
          simp [hx]
        · unfold keepNonempty
          split
          · rename_i hEmpty
            rw [newest_nil, Option.or_none, ← lastOf_dropHeadRun hHead, hEmpty]
            simp [lastOf]
          · simp [lastOf_dropHeadRun hHead]
      · simp

/-- The newest entry of the smallest key is the last one in the last run that starts with it. -/
theorem newest_min {runs : List (List α)} (hWf : Wf key runs) (hMin : ∀ k, Mem key runs k → m ≤ k)
    {mi : Nat} (hmi : mi < runs.length) (hHead : headKey key runs[mi] = some m)
    (hLast : ∀ j (hj : j < runs.length), mi < j → headKey key runs[j] ≠ some m) :
    newest key runs m = lastOf key runs[mi] m := by
  -- no run after `mi` holds the smallest key: each starts, and so lies, above it
  have hAfter : ¬ Mem key (runs.drop (mi + 1)) m := by
    rintro ⟨r, hr, b, hb, hbm⟩
    obtain ⟨i, hi, rfl⟩ := List.mem_iff_getElem.mp hr
    rw [List.getElem_drop] at hb
    have hj : mi + 1 + i < runs.length := by simp at hi; omega
    obtain ⟨hNe, hs⟩ := hWf _ (List.getElem_mem hj)
    obtain ⟨c, r₀, hc⟩ := List.exists_cons_of_ne_nil hNe
    have hcm : key c ≠ m := fun h => hLast _ hj (by omega) (by simp [headKey, hc, h])
    have hmc : m ≤ key c := hMin _ ⟨_, List.getElem_mem hj, c, by simp [hc], rfl⟩
    rw [hc] at hb hs
    have hcb : key c ≤ key b := by
      rcases List.mem_cons.mp hb with rfl | hb
      · exact le_refl _
      · exact (List.pairwise_cons.mp hs).1 b hb
    exact hcm (le_antisymm (hbm ▸ hcb) hmc)
  have hHere : (lastOf key runs[mi] m).isSome := by
    obtain ⟨hNe, -⟩ := hWf _ (List.getElem_mem hmi)
    obtain ⟨c, r₀, hc⟩ := List.exists_cons_of_ne_nil hNe
    rw [hc] at hHead ⊢
    exact lastOf_isSome ⟨c, List.mem_cons_self, by simpa [headKey] using hHead⟩
  obtain ⟨x, hx⟩ := Option.isSome_iff_exists.mp hHere
  have hSplit : runs = runs.take mi ++ runs[mi] :: runs.drop (mi + 1) := by
    have hAll := List.take_append_drop mi runs
    rw [List.drop_eq_getElem_cons hmi] at hAll
    exact hAll.symm
  calc newest key runs m = newest key (runs.take mi ++ runs[mi] :: runs.drop (mi + 1)) m :=
        congrArg (newest key · m) hSplit
    _ = lastOf key runs[mi] m := by
        rw [newest_append, newest_cons, newest_eq_none hAfter, Option.none_or, hx, Option.some_or]

variable (key) in
/-- One round of a merge: it takes the smallest key `m` out of `runs`, with its newest entry
`item`, and leaves the sorted runs `runs'` with every other key and its newest entry. -/
structure MergeRound (runs runs' : List (List α)) (m : κ) (item : α) : Prop where
  newest_min : newest key runs m = some item
  mem_min : Mem key runs m
  min_le : ∀ k, Mem key runs k → m ≤ k
  mem_iff : ∀ k, Mem key runs' k ↔ Mem key runs k ∧ k ≠ m
  newest_eq : ∀ k, k ≠ m → newest key runs' k = newest key runs k
  size_lt : size runs' < size runs
  wf : Wf key runs'

/-- Advancing the last run that starts with the smallest key, every other run that starts with
it, and runs whose key a later run still holds, is a round of the merge. -/
theorem advanceAt_mergeRound {runs : List (List α)} (hWf : Wf key runs) {sel : Nat → Bool}
    {mi : Nat} (hmi : mi < runs.length) (hHead : headKey key runs[mi] = some m)
    (hMin : ∀ k, Mem key runs k → m ≤ k)
    (hLast : ∀ j (hj : j < runs.length), mi < j → headKey key runs[j] ≠ some m)
    (hSelMi : sel mi = true)
    (hSel : ∀ j (hj : j < runs.length), headKey key runs[j] = some m → sel j = true)
    (hStale : StaleCovered key sel runs m) {item : α}
    (hItem : lastOf key runs[mi] m = some item) :
    MergeRound key runs (advanceAt key sel runs) m item := by
  have hMem : Mem key runs m := by
    obtain ⟨a, r, hr⟩ := List.exists_cons_of_ne_nil (hWf _ (List.getElem_mem hmi)).1
    rw [hr] at hHead
    exact ⟨runs[mi], List.getElem_mem hmi, a, by simp [hr], by simpa [headKey] using hHead⟩
  refine ⟨(newest_min hWf hMin hmi hHead hLast).trans hItem, hMem, hMin, fun k => ⟨?_, ?_⟩,
    fun k hk => newest_advanceAt hStale hk, size_advanceAt_lt hWf hmi hSelMi,
    wf_advanceAt hWf sel⟩
  · intro hk
    refine ⟨mem_of_mem_advanceAt_key hk, ?_⟩
    rintro rfl
    exact not_mem_advanceAt_min hWf hMin hSel hk
  · rintro ⟨hk, hkm⟩
    exact mem_advanceAt hStale hk hkm

end Advance

section Keys

omit [LinearOrder κ] in
/-- Empty runs hold no entry. -/
theorem size_filter_ne_nil (runs : List (List α)) :
    size (runs.filter (fun r => !r.isEmpty)) = size runs := by
  induction runs with
  | nil => rfl
  | cons r rs ih =>
      cases r with
      | nil => simpa [size] using ih
      | cons a r => simpa [size] using ih

theorem sortedKeys_filter_ne_nil (runs : List (List α)) :
    sortedKeys key (runs.filter (fun r => !r.isEmpty)) = sortedKeys key runs := by
  rw [sortedKeys, sortedKeys, List.flatten_filter_not_isEmpty]

theorem mem_sortedKeys {runs : List (List α)} {k : κ} : k ∈ sortedKeys key runs ↔ Mem key runs k := by
  rw [sortedKeys, (List.mergeSort_perm _ _).mem_iff, List.mem_dedup, List.mem_map]
  constructor
  · rintro ⟨a, ha, rfl⟩
    obtain ⟨r, hr, ha⟩ := List.mem_flatten.mp ha
    exact ⟨r, hr, a, ha, rfl⟩
  · rintro ⟨r, hr, a, ha, rfl⟩
    exact ⟨a, List.mem_flatten.mpr ⟨r, hr, ha⟩, rfl⟩

/-- The keys come in strictly increasing order. -/
theorem pairwise_sortedKeys (runs : List (List α)) :
    (sortedKeys key runs).Pairwise (· < ·) := by
  have hSorted : (sortedKeys key runs).Pairwise (fun a b => decide (a ≤ b) = true) :=
    List.pairwise_mergeSort (fun a b c hab hbc => by simpa using le_trans (by simpa using hab) (by simpa using hbc))
      (fun a b => by simpa using le_total a b) _
  have hNodup : (sortedKeys key runs).Nodup :=
    (List.mergeSort_perm _ _).nodup_iff.mpr (List.nodup_dedup _)
  exact (hSorted.and hNodup).imp fun ⟨hle, hne⟩ => lt_of_le_of_ne (by simpa using hle) hne

/-- A strictly increasing list of exactly the runs' keys is the sorted keys. -/
theorem eq_sortedKeys {runs : List (List α)} {ks : List κ} (hks : ks.Pairwise (· < ·))
    (hMem : ∀ k, k ∈ ks ↔ Mem key runs k) : ks = sortedKeys key runs := by
  have hNodup : ks.Nodup := hks.imp ne_of_lt
  have hNodup' : (sortedKeys key runs).Nodup := (pairwise_sortedKeys runs).imp ne_of_lt
  have hPerm : ks.Perm (sortedKeys key runs) :=
    (List.perm_ext_iff_of_nodup hNodup hNodup').mpr fun k => by rw [hMem, mem_sortedKeys]
  exact hPerm.eq_of_pairwise' (hks.imp le_of_lt) ((pairwise_sortedKeys runs).imp le_of_lt)

namespace MergeRound

variable {runs runs' : List (List α)} {m : κ} {item : α}

/-- The round's key comes first, before the keys of what the round leaves. -/
theorem sortedKeys_eq (h : MergeRound key runs runs' m item) :
    sortedKeys key runs = m :: sortedKeys key runs' := by
  symm
  apply eq_sortedKeys
  · refine List.Pairwise.cons (fun k hk => ?_) (pairwise_sortedKeys runs')
    obtain ⟨hk, hkm⟩ := (h.mem_iff k).mp (mem_sortedKeys.mp hk)
    exact lt_of_le_of_ne (h.min_le k hk) (Ne.symm hkm)
  · intro k
    rw [List.mem_cons, mem_sortedKeys, h.mem_iff]
    constructor
    · rintro (rfl | ⟨hk, -⟩)
      · exact h.mem_min
      · exact hk
    · intro hk
      by_cases hkm : k = m
      · exact .inl hkm
      · exact .inr ⟨hk, hkm⟩

/-- The newest entries in key order: the round's entry, then those of what it leaves. -/
theorem filterMap_newest (h : MergeRound key runs runs' m item) :
    (sortedKeys key runs).filterMap (newest key runs) =
      item :: (sortedKeys key runs').filterMap (newest key runs') := by
  rw [h.sortedKeys_eq, List.filterMap_cons_some h.newest_min]
  congr 1
  apply List.filterMap_congr
  intro k hk
  exact (h.newest_eq k ((h.mem_iff k).mp (mem_sortedKeys.mp hk)).2).symm

end MergeRound

end Keys

end Lib.SortedRuns
