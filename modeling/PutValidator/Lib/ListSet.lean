import Mathlib

/-! A hash set modelled by the list of its elements without duplicates. `insert` and `remove`
say, as `HashSet::insert` and `HashSet::remove` do, whether they changed the set; the order of
the list stands for the iteration order of the set, which the code does not fix. -/
namespace Lib.ListSet

variable {α : Type} [DecidableEq α]

/-- `HashSet::insert`: add `a` when it is absent, and say whether it was added. -/
def insert (s : List α) (a : α) : List α × Bool :=
  if a ∈ s then (s, false) else (s ++ [a], true)

/-- `HashSet::remove`: take `a` out when it is present, and say whether it was there. -/
def remove (s : List α) (a : α) : List α × Bool :=
  if a ∈ s then (s.erase a, true) else (s, false)

@[simp] theorem insert_snd (s : List α) (a : α) : (insert s a).2 = !decide (a ∈ s) := by
  unfold insert
  split <;> simp_all

theorem insert_eq_of_mem {s : List α} {a : α} (h : a ∈ s) : insert s a = (s, false) := by
  simp [insert, h]

theorem insert_eq_of_not_mem {s : List α} {a : α} (h : a ∉ s) :
    insert s a = (s ++ [a], true) := by
  simp [insert, h]

@[simp] theorem mem_insert_fst {s : List α} {a b : α} : b ∈ (insert s a).1 ↔ b ∈ s ∨ b = a := by
  unfold insert
  split
  · constructor
    · exact Or.inl
    · rintro (hb | rfl) <;> assumption
  · simp

theorem nodup_insert_fst {s : List α} (h : s.Nodup) (a : α) : (insert s a).1.Nodup := by
  unfold insert
  split
  · exact h
  · exact List.nodup_append.mpr ⟨h, List.nodup_singleton a,
      fun x hx y hy => by rintro rfl; simp_all⟩

theorem length_insert_fst (s : List α) (a : α) :
    (insert s a).1.length = s.length + if a ∈ s then 0 else 1 := by
  unfold insert
  split <;> simp_all

@[simp] theorem remove_snd (s : List α) (a : α) : (remove s a).2 = decide (a ∈ s) := by
  unfold remove
  split <;> simp_all

theorem mem_remove_fst {s : List α} (h : s.Nodup) {a b : α} :
    b ∈ (remove s a).1 ↔ b ∈ s ∧ b ≠ a := by
  unfold remove
  split
  · exact h.mem_erase_iff.trans and_comm
  · constructor
    · intro hb
      exact ⟨hb, by rintro rfl; contradiction⟩
    · exact And.left

theorem nodup_remove_fst {s : List α} (h : s.Nodup) (a : α) : (remove s a).1.Nodup := by
  unfold remove
  split
  · exact h.erase a
  · exact h

theorem length_remove_fst (s : List α) (a : α) :
    (remove s a).1.length = s.length - if a ∈ s then 1 else 0 := by
  unfold remove
  split
  · simp_all [List.length_erase_of_mem]
  · simp_all

/-- Inserting the elements of a list one by one gives the set of both. -/
theorem mem_foldl_insert_fst {x : α} :
    ∀ (l s : List α), x ∈ l.foldl (fun s a => (insert s a).1) s ↔ x ∈ s ∨ x ∈ l
  | [], s => by simp
  | a :: l, s => by
      rw [List.foldl_cons, mem_foldl_insert_fst l, mem_insert_fst, List.mem_cons]
      tauto

end Lib.ListSet
