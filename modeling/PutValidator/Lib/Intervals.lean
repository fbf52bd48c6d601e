import Mathlib

/-! Intervals laid end to end: the intervals of lengths `len 0, len 1, …` placed one after the
other from `0`, where each one starts, and which one holds a point. The index of the interval
that holds a point grows with the point and, when no interval is empty, by at most one from a
point to the next. -/
namespace Lib.Intervals

variable (len : Nat → Nat)

/-- Where interval `e` starts. -/
def start : Nat → Nat
  | 0 => 0
  | e + 1 => start e + len e

/-- Interval `e` holds `x`. -/
def Holds (e x : Nat) : Prop := start len e ≤ x ∧ x < start len (e + 1)

variable {len}

@[simp] theorem start_zero : start len 0 = 0 := rfl

theorem start_succ (e : Nat) : start len (e + 1) = start len e + len e := rfl

theorem start_mono : Monotone (start len) :=
  monotone_nat_of_le_succ fun _ => Nat.le_add_right _ _

/-- A point of interval `e` is `start e` plus an offset below `len e`. -/
theorem Holds.sub_lt {e x : Nat} (h : Holds len e x) : x - start len e < len e := by
  have := h.1
  have := h.2
  rw [start_succ] at this
  omega

/-- The index of the interval holding a point grows with the point. -/
theorem Holds.index_le {e e' x y : Nat} (hx : Holds len e x) (hy : Holds len e' y) (hxy : x ≤ y) :
    e ≤ e' := by
  by_contra hLt
  have : start len (e' + 1) ≤ start len e := start_mono (show e' + 1 ≤ e by omega)
  have := hx.1
  have := hy.2
  omega

/-- Each point is held by one interval. -/
theorem Holds.unique {e e' x : Nat} (h : Holds len e x) (h' : Holds len e' x) : e = e' :=
  Nat.le_antisymm (h.index_le h' le_rfl) (h'.index_le h le_rfl)

/-- From a point to the next, the index grows by at most one when no interval is empty. -/
theorem Holds.index_succ_le (hPos : ∀ e, 0 < len e) {e e' x : Nat} (hx : Holds len e x)
    (hy : Holds len e' (x + 1)) : e' ≤ e + 1 := by
  by_contra hLt
  -- interval `e + 1` is not empty, so `e' ≥ e + 2` starts past `x + 1`
  have hStart : start len (e + 2) ≤ start len e' := start_mono (show e + 2 ≤ e' by omega)
  have hNext : start len (e + 2) = start len (e + 1) + len (e + 1) := start_succ _
  have := hPos (e + 1)
  have := hx.2
  have := hy.1
  omega

end Lib.Intervals
