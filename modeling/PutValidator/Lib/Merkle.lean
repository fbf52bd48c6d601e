import Mathlib

/-! Merkle roots of a fixed fanout, computed level by level. A level hashes the items in
consecutive groups of `fanout`, the last group possibly shorter; the root repeats levels until
one item is left, and the root of no items is the hash of no items. The lemmas say how groups
and levels compose over whole groups, so that a computation which hashes several levels of one
group at once, or which reads its items in pieces, can be shown to reach the same root. -/
namespace Lib.Merkle

variable {α β : Type}

section Chunks

/-- The items in consecutive groups of `n`, the last group possibly shorter (all items form one
group when `n = 0`). -/
def chunks (n : Nat) : List α → List (List α)
  | [] => []
  | x :: xs =>
      if _ : n = 0 then [x :: xs]
      else (x :: xs).take n :: chunks n ((x :: xs).drop n)
termination_by xs => xs.length
decreasing_by
  simp only [List.length_drop, List.length_cons]
  omega

variable {n : Nat}

@[simp] theorem chunks_nil : chunks n ([] : List α) = [] := by
  simp [chunks]

theorem chunks_of_ne_nil {xs : List α} (hn : 0 < n) (hxs : xs ≠ []) :
    chunks n xs = xs.take n :: chunks n (xs.drop n) := by
  cases xs with
  | nil => exact absurd rfl hxs
  | cons x xs => simp [chunks, Nat.pos_iff_ne_zero.mp hn]

/-- Items that fit in one group form one group. -/
theorem chunks_of_length_le {xs : List α} (hn : 0 < n) (hxs : xs ≠ []) (hLen : xs.length ≤ n) :
    chunks n xs = [xs] := by
  rw [chunks_of_ne_nil hn hxs, List.take_of_length_le hLen, List.drop_eq_nil_of_le hLen,
    chunks_nil]

theorem flatten_chunks (xs : List α) : (chunks n xs).flatten = xs := by
  fun_induction chunks n xs with
  | case1 => rfl
  | case2 => simp
  | case3 x xs _ ih => simp [ih]

/-- Past the first group, the rounded-up count of groups drops by one. -/
theorem ceil_div_eq_succ (hn : 0 < n) {len : Nat} (hPos : 0 < len) :
    (len + n - 1) / n = (len - n + n - 1) / n + 1 := by
  by_cases hLe : len ≤ n
  · rw [Nat.div_eq_of_lt_le (k := 1) (by omega) (by omega), Nat.div_eq_of_lt (by omega)]
  · have hShift : len + n - 1 = (len - n + n - 1) + n * 1 := by omega
    rw [hShift, Nat.add_mul_div_left _ _ hn]

/-- The number of groups is the number of items divided by the group size, rounded up. -/
theorem length_chunks (hn : 0 < n) (xs : List α) :
    (chunks n xs).length = (xs.length + n - 1) / n := by
  fun_induction chunks n xs with
  | case1 => simpa using (Nat.div_eq_of_lt (show n - 1 < n by omega)).symm
  | case2 => omega
  | case3 x xs _ ih =>
      rw [List.length_cons, ih, List.length_drop]
      exact (ceil_div_eq_succ hn (by simp)).symm

/-- Whole groups at the front stay groups of their own. -/
theorem chunks_append (hn : 0 < n) {a : List α} (b : List α) {k : Nat}
    (hA : a.length = n * k) : chunks n (a ++ b) = chunks n a ++ chunks n b := by
  induction k generalizing a with
  | zero =>
      rw [Nat.mul_zero, List.length_eq_zero_iff] at hA
      subst hA
      simp
  | succ k ih =>
      have hA' : a ≠ [] := by
        rintro rfl
        rw [List.length_nil] at hA
        exact absurd hA (Nat.ne_of_lt (Nat.mul_pos hn (Nat.succ_pos k)))
      have hLe : n ≤ a.length := by
        rw [hA]
        exact Nat.le_mul_of_pos_right n (Nat.succ_pos k)
      rw [chunks_of_ne_nil hn (by simp [hA']), chunks_of_ne_nil hn hA',
        List.take_append_of_le_length hLe, List.drop_append_of_le_length hLe,
        ih (by simp [hA, Nat.mul_succ]), List.cons_append]

theorem chunks_map (g : α → β) (xs : List α) :
    chunks n (xs.map g) = (chunks n xs).map (List.map g) := by
  fun_induction chunks n xs with
  | case1 => simp
  | case2 x xs hn => simp [chunks, hn]
  | case3 x xs hn ih =>
      rw [chunks_of_ne_nil (Nat.pos_of_ne_zero hn) (by simp), ← List.map_take, ← List.map_drop, ih,
        List.map_cons]

/-- Groups of `f` groups of `s` are the groups of `s * f` items, each cut into groups of `s`. -/
theorem chunks_chunks {s f : Nat} (hs : 0 < s) (hf : 0 < f) (xs : List α) :
    chunks f (chunks s xs) = (chunks (s * f) xs).map (chunks s) := by
  have hsf : 0 < s * f := Nat.mul_pos hs hf
  fun_induction chunks (s * f) xs with
  | case1 => simp
  | case2 => omega
  | case3 x xs _ ih =>
      by_cases hShort : (x :: xs).length ≤ s * f
      · -- at most `f` groups of `s`: one group of groups
        have hFew : (chunks s (x :: xs)).length ≤ f := by
          rw [length_chunks hs, Nat.div_le_iff_le_mul_add_pred hs]
          omega
        have hSome : chunks s (x :: xs) ≠ [] := by
          rw [chunks_of_ne_nil hs (by simp)]
          exact List.cons_ne_nil _ _
        rw [chunks_of_length_le hf hSome hFew, List.take_of_length_le hShort,
          List.drop_eq_nil_of_le hShort, chunks_nil, List.map_singleton]
      · -- a whole group of `s * f` items at the front, then the rest
        have hTake : ((x :: xs).take (s * f)).length = s * f :=
          List.length_take_of_le (by omega)
        have hFront : (chunks s ((x :: xs).take (s * f))).length = f * 1 := by
          rw [length_chunks hs, hTake, Nat.mul_one]
          have hEq : s * f + s - 1 = (s - 1) + s * f := by omega
          rw [hEq, Nat.add_mul_div_left _ _ hs, Nat.div_eq_of_lt (by omega), Nat.zero_add]
        have hFrontNe : chunks s ((x :: xs).take (s * f)) ≠ [] := by
          intro hNil
          rw [hNil] at hFront
          simp at hFront
          omega
        have hRest : chunks s (x :: xs) =
            chunks s ((x :: xs).take (s * f)) ++ chunks s ((x :: xs).drop (s * f)) := by
          conv_lhs => rw [← List.take_append_drop (s * f) (x :: xs)]
          exact chunks_append hs _ hTake
        rw [hRest, chunks_append hf _ hFront,
          chunks_of_length_le hf hFrontNe (by omega), ih, List.map_cons,
          List.singleton_append]

/-- The first `k + 1` groups are the first group, then the first `k` groups of the rest. -/
theorem chunks_take_succ_mul (hn : 0 < n) {xs : List α} (hxs : xs ≠ []) (k : Nat) :
    chunks n (xs.take ((k + 1) * n)) = xs.take n :: chunks n ((xs.drop n).take (k * n)) := by
  have hTake : xs.take ((k + 1) * n) ≠ [] := by
    simp only [ne_eq, List.take_eq_nil_iff, hxs, or_false]
    exact Nat.pos_iff_ne_zero.mp (Nat.mul_pos (Nat.succ_pos k) hn)
  rw [chunks_of_ne_nil hn hTake, List.take_take, Nat.min_eq_left (Nat.le_mul_of_pos_left n (Nat.succ_pos k)),
    List.drop_take, Nat.succ_mul, Nat.add_sub_cancel]

/-- The groups as a loop over group numbers reads them: group `i` is the items from `i * n` up to
`i * n + n` or the end. -/
theorem map_range_slices (hn : 0 < n) (g : List α → β) (xs : List α) :
    (List.range ((xs.length + n - 1) / n)).map
        (fun i => g ((xs.take (min (i * n + n) xs.length)).drop (i * n))) =
      (chunks n xs).map g := by
  fun_induction chunks n xs with
  | case1 => simp [Nat.div_eq_of_lt (show n - 1 < n by omega)]
  | case2 => omega
  | case3 x xs _ ih =>
      rw [ceil_div_eq_succ hn (by simp), List.range_succ_eq_map, List.map_cons, List.map_map,
        List.map_cons, ← ih, List.length_drop]
      congr 1
      · rw [Nat.zero_mul, Nat.zero_add, List.drop_zero]
        congr 1
        simp
      · apply List.map_congr_left
        intro i _
        simp only [Function.comp_apply]
        congr 1
        -- group `i + 1` of the items is group `i` of the items after the first group
        have hStart : (i + 1) * n = i * n + n := Nat.succ_mul i n
        rw [List.drop_take, List.drop_take, List.drop_drop, hStart, Nat.add_comm n (i * n)]
        congr 1
        omega

end Chunks

/-- A fanout of at least two, so that every level of two or more items is shorter. -/
structure Fanout where
  size : Nat
  two_le : 2 ≤ size

variable (f : Fanout) (node : List α → α)

/-- One level: the hash of each group of `fanout` items. -/
def level (xs : List α) : List α := (chunks f.size xs).map node

theorem length_level (xs : List α) :
    (level f node xs).length = (xs.length + f.size - 1) / f.size := by
  rw [level, List.length_map, length_chunks (by have := f.two_le; omega)]

theorem level_shorter {xs : List α} (hxs : xs ≠ []) (hOne : (level f node xs).length ≠ 1) :
    (level f node xs).length < xs.length := by
  have hTwo := f.two_le
  rw [length_level] at hOne ⊢
  have hPos : 0 < xs.length := List.length_pos_iff.mpr hxs
  by_cases hSmall : xs.length ≤ f.size
  · exact absurd (Nat.div_eq_of_lt_le (by omega) (by omega)) hOne
  · rw [Nat.div_lt_iff_lt_mul (by omega)]
    have hDouble : xs.length * 2 ≤ xs.length * f.size := Nat.mul_le_mul_left _ hTwo
    omega

/-- The root: the hash of no items when there are none, else the one item that repeated levels
leave. -/
def root (xs : List α) : α :=
  if hxs : xs = [] then node []
  else if hOne : (level f node xs).length = 1 then (level f node xs)[0]
  else root (level f node xs)
termination_by xs.length
decreasing_by exact level_shorter f node hxs hOne

@[simp] theorem root_nil : root f node ([] : List α) = node [] := by
  rw [root]
  simp

theorem root_of_ne_nil {xs : List α} (hxs : xs ≠ []) :
    root f node xs = if hOne : (level f node xs).length = 1 then (level f node xs)[0]
      else root f node (level f node xs) := by
  rw [root, dif_neg hxs]

/-- A level of two or more items leaves the root where it was. -/
theorem root_level {xs : List α} (hxs : xs ≠ []) (hOne : (level f node xs).length ≠ 1) :
    root f node (level f node xs) = root f node xs := by
  rw [root_of_ne_nil f node hxs, dif_neg hOne]

/-- A level of at least `fanout ^ (k + 1)` items has at least `fanout ^ k`. -/
theorem pow_le_length_level {xs : List α} {k : Nat} (hLen : f.size ^ (k + 1) ≤ xs.length) :
    f.size ^ k ≤ (level f node xs).length := by
  have hPos : 0 < f.size := by have := f.two_le; omega
  rw [length_level, Nat.le_div_iff_mul_le hPos]
  rw [Nat.pow_succ] at hLen
  omega

/-- Two levels hash the groups of `fanout ^ 2` items, each by the hash of its own level. -/
theorem level_level (xs : List α) :
    level f node (level f node xs) =
      (chunks (f.size * f.size) xs).map (fun c => node (level f node c)) := by
  have hPos : 0 < f.size := by have := f.two_le; omega
  simp only [level]
  rw [chunks_map, chunks_chunks hPos hPos, List.map_map, List.map_map]
  rfl

/-- Three levels hash the groups of `fanout ^ 3` items, each by the hash of its own two
levels. -/
theorem level_level_level (xs : List α) :
    level f node (level f node (level f node xs)) =
      (chunks (f.size * f.size * f.size) xs).map
        (fun c => node (level f node (level f node c))) := by
  have hPos : 0 < f.size := by have := f.two_le; omega
  calc level f node (level f node (level f node xs))
      = ((chunks f.size ((chunks (f.size * f.size) xs).map
          (fun c => node (level f node c)))).map node) := by
        rw [level_level f node xs]
        rfl
    _ = (((chunks (f.size * f.size * f.size) xs).map (chunks (f.size * f.size))).map
          (List.map (fun c => node (level f node c)))).map node := by
        rw [chunks_map, chunks_chunks (Nat.mul_pos hPos hPos) hPos]
    _ = _ := by
        simp only [List.map_map]
        apply List.map_congr_left
        intro c _
        rw [level_level f node c]
        rfl

end Lib.Merkle
