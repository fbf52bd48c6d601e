import Mathlib

/-! Forests given by parent pointers on natural-number labels, where every parent carries a
smaller label than its child (a block tree indexed by slot). The strict ancestors of a node
are computed by following parents; being an ancestor is a strict order, and being an
ancestor or the node itself its reflexive closure. -/
namespace Lib

structure Forest where
  parent : Nat → Option Nat
  parent_lt : ∀ {n p : Nat}, parent n = some p → p < n

namespace Forest

variable (T : Forest)

/-- The forest of a parent map, keeping only the entries that point to a smaller label. -/
def ofParent (parent : Nat → Option Nat) : Forest where
  parent n := (parent n).filter (· < n)
  parent_lt {n p} h := by simpa using (Option.filter_eq_some_iff.mp h).2

/-- The strict ancestors of `n`, nearest first. -/
def ancestors (n : Nat) : List Nat :=
  match h : T.parent n with
  | none => []
  | some p =>
      have : p < n := T.parent_lt h
      p :: ancestors p
termination_by n

/-- `a` is `n` or one of its ancestors: `n` lies in the subtree of `a`. -/
def IsAncestorOrSelf (a n : Nat) : Prop := a = n ∨ a ∈ T.ancestors n

instance (a n : Nat) : Decidable (T.IsAncestorOrSelf a n) :=
  inferInstanceAs (Decidable (a = n ∨ a ∈ T.ancestors n))

variable {T}

theorem ancestors_of_parent_none {n : Nat} (h : T.parent n = none) : T.ancestors n = [] := by
  rw [ancestors]
  split <;> simp_all

theorem ancestors_of_parent_some {n p : Nat} (h : T.parent n = some p) :
    T.ancestors n = p :: T.ancestors p := by
  rw [ancestors]
  split <;> simp_all

theorem mem_ancestors_iff {a n : Nat} :
    a ∈ T.ancestors n ↔ ∃ p, T.parent n = some p ∧ T.IsAncestorOrSelf a p := by
  cases h : T.parent n with
  | none => simp [ancestors_of_parent_none h]
  | some p => simp [ancestors_of_parent_some h, IsAncestorOrSelf]

theorem lt_of_mem_ancestors {a n : Nat} (h : a ∈ T.ancestors n) : a < n := by
  induction n using Nat.strongRecOn with
  | ind n ih =>
      obtain ⟨p, hp, rfl | hMem⟩ := mem_ancestors_iff.mp h
      · exact T.parent_lt hp
      · exact Nat.lt_trans (ih p (T.parent_lt hp) hMem) (T.parent_lt hp)

theorem not_mem_ancestors_self (n : Nat) : n ∉ T.ancestors n :=
  fun h => Nat.lt_irrefl n (lt_of_mem_ancestors h)

theorem mem_ancestors_trans {a b c : Nat} (hab : a ∈ T.ancestors b) (hbc : b ∈ T.ancestors c) :
    a ∈ T.ancestors c := by
  induction c using Nat.strongRecOn with
  | ind c ih =>
      obtain ⟨p, hp, rfl | hMem⟩ := mem_ancestors_iff.mp hbc
      · exact mem_ancestors_iff.mpr ⟨b, hp, Or.inr hab⟩
      · exact mem_ancestors_iff.mpr ⟨p, hp, Or.inr (ih p (T.parent_lt hp) hMem)⟩

namespace IsAncestorOrSelf

theorem refl (n : Nat) : T.IsAncestorOrSelf n n := Or.inl rfl

theorem of_mem {a n : Nat} (h : a ∈ T.ancestors n) : T.IsAncestorOrSelf a n := Or.inr h

theorem le {a n : Nat} (h : T.IsAncestorOrSelf a n) : a ≤ n := by
  rcases h with rfl | h
  · exact Nat.le_refl a
  · exact Nat.le_of_lt (lt_of_mem_ancestors h)

theorem mem_ancestors {a b c : Nat} (hab : T.IsAncestorOrSelf a b) (hbc : b ∈ T.ancestors c) :
    a ∈ T.ancestors c := by
  rcases hab with rfl | hab
  · exact hbc
  · exact mem_ancestors_trans hab hbc

theorem trans {a b c : Nat} (hab : T.IsAncestorOrSelf a b) (hbc : T.IsAncestorOrSelf b c) :
    T.IsAncestorOrSelf a c := by
  rcases hbc with rfl | hbc
  · exact hab
  · exact of_mem (hab.mem_ancestors hbc)

theorem mem_ancestors_of_mem {a b c : Nat} (hab : a ∈ T.ancestors b)
    (hbc : T.IsAncestorOrSelf b c) : a ∈ T.ancestors c := by
  rcases hbc with rfl | hbc
  · exact hab
  · exact mem_ancestors_trans hab hbc

/-- Off the node itself, being an ancestor or the node means being a strict ancestor. -/
theorem mem_ancestors_of_ne {a n : Nat} (h : T.IsAncestorOrSelf a n) (hne : a ≠ n) :
    a ∈ T.ancestors n :=
  h.resolve_left hne

end IsAncestorOrSelf

end Forest

end Lib
