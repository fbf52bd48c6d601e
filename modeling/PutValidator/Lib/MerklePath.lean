import Mathlib

/-! Binary Merkle trees built level by level, the last node of an odd level paired with itself,
and the path of siblings from a leaf to the root. Climbing a leaf's path, joining at each level
on the side its index gives, reaches the root from every leaf (`foldl_climb_path`) in
`⌈log₂ n⌉` steps (`length_path`), and a climb of `k` steps ends at index `i / 2 ^ k`
(`foldl_climb_fst`). -/
namespace Lib.MerklePath

variable {α : Type} (join : α → α → α)

/-- The level above: the nodes joined in pairs, the last one of an odd level with itself. -/
def parents : List α → List α
  | a :: b :: rest => join a b :: parents rest
  | [a] => [join a a]
  | [] => []

theorem length_parents : ∀ l : List α, (parents join l).length = (l.length + 1) / 2
  | _ :: _ :: rest => by
      simp only [parents, List.length_cons, length_parents rest]
      omega
  | [_] => by simp [parents]
  | [] => by simp [parents]

/-- Parent `j` joins children `2 j` and `2 j + 1`, the last child of an odd level with itself. -/
theorem getD_parents (d : α) : ∀ (l : List α) (j : Nat), 2 * j < l.length →
    (parents join l).getD j d =
      join (l.getD (2 * j) d) (l.getD (min (2 * j + 1) (l.length - 1)) d)
  | [], _, h => absurd h (by simp)
  | [_], j, h => by
      obtain rfl : j = 0 := by simp at h; omega
      rfl
  | _ :: _ :: rest, 0, _ => by simp [parents]
  | a :: b :: rest, j + 1, h => by
      have hRest : 2 * j < rest.length := by simp at h; omega
      have hMin : min (2 * (j + 1) + 1) ((a :: b :: rest).length - 1) =
          min (2 * j + 1) (rest.length - 1) + 2 := by simp; omega
      rw [hMin, show 2 * (j + 1) = 2 * j + 2 by omega]
      simp only [parents, List.getD_cons_succ]
      exact getD_parents d rest j hRest

/-- The levels from the leaves up to the one node of the root. -/
def levels (l : List α) : List (List α) :=
  if 1 < l.length then l :: levels (parents join l) else [l]
termination_by l.length
decreasing_by rw [length_parents]; omega

theorem levels_of_one_lt {l : List α} (h : 1 < l.length) :
    levels join l = l :: levels join (parents join l) := by
  rw [levels, if_pos h]

theorem levels_of_le_one {l : List α} (h : l.length ≤ 1) : levels join l = [l] := by
  rw [levels, if_neg (by omega)]

variable (d : α)

/-- The root: the node of the top level, `d` for no leaves. -/
def root (l : List α) : α :=
  if 1 < l.length then root (parents join l) else l.headD d
termination_by l.length
decreasing_by rw [length_parents]; omega

theorem root_of_one_lt {l : List α} (h : 1 < l.length) :
    root join d l = root join d (parents join l) := by
  rw [root, if_pos h]

/-- The levels laid out one after the other end with the root. -/
theorem getLast?_flatten_levels : ∀ (l : List α), l ≠ [] →
    (levels join l).flatten.getLast? = some (root join d l)
  | l, hl => by
      by_cases hLen : 1 < l.length
      · have hParents : parents join l ≠ [] := by
          rw [← List.length_pos_iff, length_parents]
          omega
        rw [levels_of_one_lt join hLen, List.flatten_cons, List.getLast?_append,
          getLast?_flatten_levels (parents join l) hParents, root_of_one_lt join d hLen]
        rfl
      · obtain ⟨x, rfl⟩ : ∃ x, l = [x] := by
          match l, hl, hLen with
          | [x], _, _ => exact ⟨x, rfl⟩
          | _ :: _ :: _, _, hLen => simp at hLen
        rw [levels_of_le_one join (by simp)]
        simp [root]
termination_by l => l.length
decreasing_by rw [length_parents]; omega

/-- The sibling of node `i`: the other node of its pair, itself at the end of an odd level. -/
def sibling (l : List α) (i : Nat) : α := l.getD (min (i ^^^ 1) (l.length - 1)) d

/-- The siblings on the way from leaf `i` up to the root. -/
def path (l : List α) (i : Nat) : List α :=
  if 1 < l.length then sibling d l i :: path (parents join l) (i / 2) else []
termination_by l.length
decreasing_by rw [length_parents]; omega

/-- One step up: the parent of the node at index `i` and its sibling, on the side the parity of
`i` gives, and the parent's index. -/
def climb (step : Nat × α) (other : α) : Nat × α :=
  (step.1 / 2, if step.1 % 2 = 0 then join step.2 other else join other step.2)

/-- A node and its sibling climb to their parent. -/
theorem climb_sibling {l : List α} {i : Nat} (hi : i < l.length) :
    climb join (i, l.getD i d) (sibling d l i) = (i / 2, (parents join l).getD (i / 2) d) := by
  rw [getD_parents join d l (i / 2) (by omega)]
  unfold climb sibling
  rcases Nat.even_or_odd i with hEven | hOdd
  · have hMod : i % 2 = 0 := Nat.even_iff.mp hEven
    rw [Nat.xor_one_of_even hEven, if_pos hMod, show 2 * (i / 2) = i by omega]
  · have hMod : i % 2 = 1 := Nat.odd_iff.mp hOdd
    rw [Nat.xor_one_of_odd hOdd, if_neg (by omega), show 2 * (i / 2) = i - 1 by omega,
      show i - 1 + 1 = i by omega, Nat.min_eq_left (show i - 1 ≤ l.length - 1 by omega),
      Nat.min_eq_left (show i ≤ l.length - 1 by omega)]

/-- Climbing the path of a leaf reaches the root, at index 0. -/
theorem foldl_climb_path : ∀ (l : List α) (i : Nat), i < l.length →
    (path join d l i).foldl (climb join) (i, l.getD i d) = (0, root join d l)
  | l, i, hi => by
      by_cases hLen : 1 < l.length
      · rw [path, if_pos hLen, List.foldl_cons, climb_sibling join d hi, root_of_one_lt join d hLen]
        exact foldl_climb_path (parents join l) (i / 2) (by rw [length_parents]; omega)
      · obtain rfl : i = 0 := by omega
        rw [path, if_neg hLen, root, if_neg hLen]
        cases l with
        | nil => simp at hi
        | cons x rest => rfl
termination_by l => l.length
decreasing_by rw [length_parents]; omega

/-- A path has one sibling for each halving down to one node: `⌈log₂ n⌉` of them. -/
theorem length_path : ∀ (l : List α) (i : Nat), (path join d l i).length = Nat.clog 2 l.length
  | l, i => by
      by_cases hLen : 1 < l.length
      · have hHalf : (l.length + 2 - 1) / 2 = (l.length + 1) / 2 := by omega
        rw [path, if_pos hLen, List.length_cons, length_path (parents join l) (i / 2),
          length_parents, Nat.clog_of_one_lt (by decide) hLen, hHalf]
      · rw [path, if_neg hLen, Nat.clog_of_right_le_one (by omega)]
        rfl
termination_by l => l.length
decreasing_by rw [length_parents]; omega

/-- After `k` steps the index has been halved `k` times. -/
theorem foldl_climb_fst (others : List α) :
    ∀ step : Nat × α, (others.foldl (climb join) step).1 = step.1 / 2 ^ others.length := by
  induction others with
  | nil => simp
  | cons other others ih =>
      intro step
      rw [List.foldl_cons, ih, List.length_cons, Nat.pow_succ', ← Nat.div_div_eq_div_mul]
      rfl

end Lib.MerklePath
