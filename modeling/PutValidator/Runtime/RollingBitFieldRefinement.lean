import PutValidator.Runtime.RollingBitFieldSet

/-! `RollingBitField` refines a set of keys. A run is a list of `insert` and `remove` calls from
`RollingBitField::new`; the set it builds is the one a `HashSet` would hold. Along every run
whose inserts are all `SafeInsert`s, the invariant `Represents` holds after each call, and with
it every query answers for the set (`Agrees`). The insert the bit field gets wrong, and the
slot 0 that `get_prior` skips, are shown at the end. -/
namespace PutValidator.Runtime

open Lib.Word

namespace RollingBitField

/-- A call of a run. -/
inductive Op
  | insert (key : Nat)
  | remove (key : Nat)
deriving DecidableEq, Repr

namespace Op

def key : Op → Nat
  | .insert key | .remove key => key

/-- The bit field after the call; `none` is a failed `assert!`. -/
def apply (f : RollingBitField) : Op → Option RollingBitField
  | .insert key => f.insert key
  | .remove key => some (f.remove key).2

/-- The set after the call. -/
def applySet (S : Finset Nat) : Op → Finset Nat
  | .insert key => Insert.insert key S
  | .remove key => S.erase key

/-- A call the bit field gets right. -/
def Safe (f : RollingBitField) : Op → Prop
  | .insert key => f.SafeInsert key
  | .remove _ => True

instance (f : RollingBitField) : (op : Op) → Decidable (op.Safe f)
  | .insert key => inferInstanceAs (Decidable (f.SafeInsert key))
  | .remove _ => inferInstanceAs (Decidable True)

end Op

def run (f : RollingBitField) (ops : List Op) : Option RollingBitField := ops.foldlM Op.apply f

/-- Every call of the run is `Safe` in the state it is made in. -/
def safeRun (f : RollingBitField) : List Op → Bool
  | [] => true
  | op :: ops =>
      decide (op.Safe f) &&
        match op.apply f with
        | some f' => safeRun f' ops
        | none => true

theorem safeRun_take {f : RollingBitField} {ops : List Op} (h : safeRun f ops = true)
    (n : Nat) : safeRun f (ops.take n) = true := by
  induction ops generalizing f n with
  | nil =>
      rw [List.take_nil]
      exact h
  | cons op ops ih =>
      cases n with
      | zero => rfl
      | succ n =>
          rw [List.take_succ_cons]
          simp only [safeRun, Bool.and_eq_true] at h ⊢
          refine ⟨h.1, ?_⟩
          cases hApply : op.apply f with
          | none => rfl
          | some f' =>
              rw [hApply] at h
              exact ih h.2 n

/-- A key of the run's set is a key of the start set or of one of its calls. -/
theorem mem_foldl_applySet {S : Finset Nat} {ops : List Op} {x : Nat}
    (hx : x ∈ ops.foldl Op.applySet S) : x ∈ S ∨ ∃ op ∈ ops, op.key = x := by
  induction ops generalizing S with
  | nil => exact Or.inl hx
  | cons op ops ih =>
      rcases ih hx with hS | ⟨op', hOp', hKey⟩
      · cases op with
        | insert key =>
            rcases Finset.mem_insert.mp hS with rfl | hS
            · exact Or.inr ⟨_, List.mem_cons_self, rfl⟩
            · exact Or.inl hS
        | remove key => exact Or.inl (Finset.mem_of_mem_erase hS)
      · exact Or.inr ⟨op', List.mem_cons_of_mem op hOp', hKey⟩

/-- `RollingBitField::new` stands for the empty set. -/
theorem Represents.new {w : Nat} {f : RollingBitField} (h : new w = some f) : Represents f ∅ := by
  unfold RollingBitField.new at h
  split at h
  · rename_i hw
    cases h
    exact
      { width_pos := hw.1
        bits_length := List.length_replicate
        excess_nodup := List.nodup_nil
        excess_lt := nofun
        min_le := Nat.le_refl 0
        window_le := Nat.zero_le _
        bit_in_window := fun a ha => by
          rw [List.getD_eq_getElem?_getD, List.getElem?_replicate] at ha
          split at ha <;> simp at ha
        min_set := fun h0 => absurd h0 (Nat.lt_irrefl 0)
        mem_iff := fun k => by simp [InBits]
        count_eq := rfl
        count_bits := by simp [List.count_replicate] }
  · cases h

/-- One safe call keeps the invariant for the set the call leaves. -/
theorem Represents.apply {f : RollingBitField} {S : Finset Nat} (h : Represents f S) {op : Op}
    (hSafe : op.Safe f) : ∃ f', op.apply f = some f' ∧ Represents f' (op.applySet S) := by
  cases op with
  | insert key => exact h.insert hSafe
  | remove key => exact ⟨_, rfl, (h.remove key).2⟩

/-- A run of safe calls keeps the invariant for the set the run builds. -/
theorem Represents.run {f : RollingBitField} {S : Finset Nat} (h : Represents f S)
    {ops : List Op} (hSafe : safeRun f ops = true) :
    ∃ f', run f ops = some f' ∧ Represents f' (ops.foldl Op.applySet S) := by
  induction ops generalizing f S with
  | nil => exact ⟨f, rfl, h⟩
  | cons op ops ih =>
      simp only [safeRun, Bool.and_eq_true, decide_eq_true_eq] at hSafe
      obtain ⟨f₁, hApply, h₁⟩ := h.apply hSafe.1
      rw [hApply] at hSafe
      obtain ⟨f', hRun, h'⟩ := ih h₁ hSafe.2
      refine ⟨f', ?_, h'⟩
      rw [RollingBitField.run, List.foldlM_cons, hApply, Option.bind_eq_bind, Option.bind_some]
      exact hRun

/-- What the bit field answers for the set `S` it stands for. -/
structure Agrees (f : RollingBitField) (S : Finset Nat) : Prop where
  represents : Represents f S
  contains_eq : ∀ k, f.contains k = decide (k ∈ S)
  remove_fst : ∀ k, (f.remove k).1 = decide (k ∈ S)
  len_eq : f.len = S.card
  min?_eq : f.min? = least S
  getAll_nodup : f.getAll.Nodup
  mem_getAll : ∀ x, x ∈ f.getAll ↔ x ∈ S
  getAllLessThan_nodup : ∀ m, (f.getAllLessThan m).Nodup
  mem_getAllLessThan : ∀ m x, x ∈ f.getAllLessThan m ↔ x ∈ S ∧ x < m
  getPrior_eq : ∀ m, f.getPrior m = greatest (S.filter fun x => x = m - 1 ∨ 1 ≤ x ∧ x < m - 1)

theorem Represents.agrees {f : RollingBitField} {S : Finset Nat} (h : Represents f S)
    (hMax : ∀ x ∈ S, x ≤ maxValue 64) : Agrees f S where
  represents := h
  contains_eq := h.contains_eq
  remove_fst k := (h.remove k).1
  len_eq := h.len_eq
  min?_eq := h.min?_eq hMax
  getAll_nodup := h.getAll_nodup
  mem_getAll := h.mem_getAll
  getAllLessThan_nodup := h.getAllLessThan_nodup
  mem_getAllLessThan := h.mem_getAllLessThan
  getPrior_eq := h.getPrior_eq hMax

/-- After every call of a run of safe calls from `new`, on keys below `u64::MAX`, the bit field
agrees with the set the calls build. -/
theorem rollingBitField_refines_set {w : Nat} {f₀ : RollingBitField} (hNew : new w = some f₀)
    {ops : List Op} (hKeys : ∀ op ∈ ops, op.key < maxValue 64) (hSafe : safeRun f₀ ops = true)
    (n : Nat) :
    ∃ f, run f₀ (ops.take n) = some f ∧ Agrees f ((ops.take n).foldl Op.applySet ∅) := by
  obtain ⟨f, hRun, hRep⟩ := (Represents.new hNew).run (safeRun_take hSafe n)
  refine ⟨f, hRun, hRep.agrees fun x hx => ?_⟩
  rcases mem_foldl_applySet hx with hx | ⟨op, hOp, rfl⟩
  · cases hx
  · exact Nat.le_of_lt (hKeys op (List.mem_of_mem_take hOp))

/-- The run of width 4 inserting 5 and 10, which evicts 5 to `excess`, removing 10 and
inserting 12. -/
theorem rollingBitField_refines_set_evicting :
    ∃ f, run ⟨4, 0, 0, List.replicate 4 false, 0, []⟩
        ([.insert 5, .insert 10, .remove 10, .insert 12].take 4) = some f ∧
      Agrees f (([.insert 5, .insert 10, .remove 10, .insert 12] : List Op).take 4 |>.foldl
        Op.applySet ∅) :=
  rollingBitField_refines_set (w := 4) (by decide) (by decide) (by decide +kernel) 4

/-- The two ways the bit field departs from the set, at width 4. Inserting 5 and 3, which goes
to `excess`, and removing 5 leaves every key in `excess`; inserting 2 then resets the window to
2, and `contains(3)` is false. After inserting 0 alone, `get_prior(2)` is `None`. -/
theorem rollingBitField_departs_from_set :
    (∃ f, ((new 4).bind fun f₀ => run f₀ [.insert 5, .insert 3, .remove 5, .insert 2]) = some f ∧
      3 ∈ [Op.insert 5, .insert 3, .remove 5, .insert 2].foldl Op.applySet ∅ ∧
      f.contains 3 = false) ∧
    (∃ f, ((new 4).bind fun f₀ => run f₀ [.insert 0]) = some f ∧
      0 ∈ [Op.insert 0].foldl Op.applySet ∅ ∧ f.getPrior 2 = none) :=
  ⟨⟨_, rfl, by decide, by decide⟩, ⟨_, rfl, by decide, by decide⟩⟩

end RollingBitField

end PutValidator.Runtime
