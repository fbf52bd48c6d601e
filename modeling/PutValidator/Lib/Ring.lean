import Mathlib

/-! Rings of cells: a key `k` is held in cell `k % m`, so that the cells stand for a window of
`m` consecutive keys, which never share a cell. A cell array is a function from cells to values,
written one cell at a time with `Function.update`; the loops that clear or set the cells of a run
of keys are `foldl`s of such writes. -/
namespace Lib.Ring

/-- Two keys of a window `[lo, lo + m)` in the same cell are equal. -/
theorem eq_of_mod_eq {m lo a b : Nat} (ha : lo ≤ a) (ha' : a < lo + m) (hb : lo ≤ b)
    (hb' : b < lo + m) (h : a % m = b % m) : a = b :=
  Nat.ModEq.eq_of_abs_lt h (by rw [abs_lt]; omega)

section Writes

variable {α β γ : Type*} [DecidableEq β] (g : α → β) (v : γ)

/-- Writing `v` at the cells of the keys of a list: a cell that holds `v` keeps it. -/
theorem foldl_update_of_eq {cells : β → γ} {i : β} (h : cells i = v) (l : List α) :
    (l.foldl (fun c k => Function.update c (g k) v) cells) i = v := by
  induction l generalizing cells with
  | nil => exact h
  | cons k l ih =>
      refine ih ?_
      show Function.update cells (g k) v i = v
      by_cases hi : i = g k
      · rw [hi, Function.update_self]
      · rw [Function.update_of_ne hi, h]

/-- The cell of a key of the list ends with `v`. -/
theorem foldl_update_of_mem {l : List α} {s : α} (hs : s ∈ l) (cells : β → γ) :
    (l.foldl (fun c k => Function.update c (g k) v) cells) (g s) = v := by
  induction l generalizing cells with
  | nil => cases hs
  | cons k l ih =>
      rcases List.mem_cons.mp hs with rfl | hMem
      · exact foldl_update_of_eq g v (Function.update_self _ _ _) l
      · exact ih hMem _

/-- A cell no key of the list maps to is left as it was. -/
theorem foldl_update_of_forall_ne {l : List α} {i : β} (hl : ∀ k ∈ l, g k ≠ i)
    (cells : β → γ) : (l.foldl (fun c k => Function.update c (g k) v) cells) i = cells i := by
  induction l generalizing cells with
  | nil => rfl
  | cons k l ih =>
      rw [List.foldl_cons, ih fun k' hk' => hl k' (List.mem_cons_of_mem k hk')]
      exact Function.update_of_ne (hl k List.mem_cons_self).symm _ _

end Writes

/-- A ring kept as an array with the index of its newest cell: writing the cell after it,
`i + 1`, moves the oldest-first reading on by one, the oldest entry out and the new one in as the
newest. -/
theorem rotate_set_succ {α : Type*} {l : List α} {i : Nat} (hi : i < l.length) (x : α) :
    (l.set i x).rotate (i + 1) = (l.rotate i).tail ++ [x] := by
  rw [List.rotate_eq_drop_append_take (by simp; omega), List.rotate_eq_drop_append_take (by omega)]
  have hDrop : l.drop i = l[i] :: l.drop (i + 1) := List.drop_eq_getElem_cons hi
  rw [hDrop, List.cons_append, List.tail_cons]
  simp [List.drop_set, List.take_set, List.take_add_one, hi,
    List.set_eq_of_length_le (List.length_take_le i l)]

end Lib.Ring
