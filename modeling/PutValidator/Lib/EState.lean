import Mathlib

/-! Methods that take `&mut self` and return a `Result`, as computations in `EStateM`: a method
that returns early with an error keeps what it wrote before. `AllOrNothing R s r` says that the
run `r` from `s` either failed and left `s` as it was, or returned in a state that `R` relates
to `s`. The rules below prove it one step of a method's body at a time, and
`runEach_reflTransGen` carries it over a sequence of calls. -/
namespace Lib.EState

variable {ε σ α β : Type}

/-- `if cond { return Err(err); }`. -/
def failIf (cond : Prop) [Decidable cond] (err : ε) : EStateM ε σ Unit :=
  if cond then throw err else pure ()

/-- The state a run ends in, whether it returned or failed. -/
def state : EStateM.Result ε σ α → σ
  | .ok _ s => s
  | .error _ s => s

/-- The run `r` from `s` failed and left `s` as it was, or returned in a state that `R` relates
to `s`. -/
def AllOrNothing (R : σ → σ → Prop) (s : σ) : EStateM.Result ε σ α → Prop
  | .ok _ s' => R s s'
  | .error _ s' => s' = s

section Rules

variable {R : σ → σ → Prop} {s : σ}

theorem allOrNothing_pure (a : α) (h : R s s) :
    AllOrNothing R s ((pure a : EStateM ε σ α).run s) :=
  h

theorem allOrNothing_throw (e : ε) : AllOrNothing R s ((throw e : EStateM ε σ α).run s) :=
  rfl

theorem allOrNothing_modify {f : σ → σ} (h : R s (f s)) :
    AllOrNothing R s ((modify f : EStateM ε σ PUnit).run s) :=
  h

/-- Two writes in a row, the last step of a method. -/
theorem allOrNothing_modify_modify {f g : σ → σ} (h : R s (g (f s))) :
    AllOrNothing R s ((modify f >>= fun _ => modify g : EStateM ε σ PUnit).run s) :=
  h

theorem allOrNothing_get_bind {f : σ → EStateM ε σ α} (h : AllOrNothing R s ((f s).run s)) :
    AllOrNothing R s ((get >>= f).run s) :=
  h

/-- A check in front of the rest either fails before anything is written, or lets the rest run
knowing that its condition is false. -/
theorem allOrNothing_failIf_bind {cond : Prop} [Decidable cond] {err : ε}
    {f : Unit → EStateM ε σ α} (h : ¬cond → AllOrNothing R s ((f ()).run s)) :
    AllOrNothing R s ((failIf cond err >>= f).run s) := by
  unfold failIf
  split
  · exact allOrNothing_throw (α := α) err
  · exact h ‹_›

/-- The `?` on a `Result` computed from the state. -/
theorem allOrNothing_liftExcept_bind {x : Except ε α} {f : α → EStateM ε σ β}
    (h : ∀ a, x = .ok a → AllOrNothing R s ((f a).run s)) :
    AllOrNothing R s ((liftExcept x >>= f).run s) := by
  cases x with
  | error e => exact allOrNothing_throw (α := β) e
  | ok a => exact h a rfl

theorem AllOrNothing.state_eq_or {r : EStateM.Result ε σ α} (h : AllOrNothing R s r) :
    state r = s ∨ R s (state r) := by
  cases r with
  | ok a s' => exact .inr h
  | error e s' => exact .inl h

end Rules

/-! ### Inversion of a run that returned

A method that returned ran every step of its body to the end; these rules read the steps back
from the result, so that a method's spec lemma follows its body. -/

section Inversion

variable {s s' : σ}

theorem run_bind_eq_ok {x : EStateM ε σ α} {f : α → EStateM ε σ β} {b : β} :
    (x >>= f).run s = .ok b s' ↔ ∃ a s₁, x.run s = .ok a s₁ ∧ (f a).run s₁ = .ok b s' := by
  rw [EStateM.run_bind]
  cases x.run s with
  | ok a s₁ =>
      exact ⟨fun hf => ⟨a, s₁, rfl, hf⟩, fun ⟨_, _, hx, hf⟩ => by cases hx; exact hf⟩
  | error e s₁ => simp

@[simp] theorem run_failIf_eq_ok {cond : Prop} [Decidable cond] {err : ε} {u : Unit} :
    (failIf cond err : EStateM ε σ Unit).run s = .ok u s' ↔ ¬cond ∧ s' = s := by
  unfold failIf
  split <;> simp_all [eq_comm]

@[simp] theorem run_throw_ne_ok {e : ε} {a : α} :
    ¬(throw e : EStateM ε σ α).run s = .ok a s' :=
  fun h => by cases h

@[simp] theorem run_liftExcept_eq_ok {x : Except ε α} {a : α} :
    (liftExcept x : EStateM ε σ α).run s = .ok a s' ↔ x = .ok a ∧ s' = s := by
  cases x with
  | error e => simp [liftExcept]
  | ok b => simp [liftExcept, eq_comm]

end Inversion

/-! ### Running a method step by step

A method's run from a given state, one statement at a time: what `get`, `modify`, a check and
the `?` on a computed `Result` do to the rest of the body. -/

section Steps

variable {s : σ}

@[simp] theorem run_get_bind {f : σ → EStateM ε σ α} : (get >>= f).run s = (f s).run s :=
  rfl

/-- A step that returned hands its value and state to the rest. -/
theorem run_bind_of_ok {x : EStateM ε σ α} {f : α → EStateM ε σ β} {a : α} {s₁ : σ}
    (h : x.run s = .ok a s₁) : (x >>= f).run s = (f a).run s₁ := by
  rw [EStateM.run_bind, h]

/-- A step that failed ends the run with its error and state. -/
theorem run_bind_of_error {x : EStateM ε σ α} {f : α → EStateM ε σ β} {e : ε} {s₁ : σ}
    (h : x.run s = .error e s₁) : (x >>= f).run s = .error e s₁ := by
  rw [EStateM.run_bind, h]

@[simp] theorem run_modify_bind {g : σ → σ} {f : PUnit → EStateM ε σ α} :
    (modify g >>= f).run s = (f ⟨⟩).run (g s) :=
  rfl

@[simp] theorem run_modify {g : σ → σ} : (modify g : EStateM ε σ PUnit).run s = .ok ⟨⟩ (g s) :=
  rfl

@[simp] theorem run_liftExcept_ok_bind {a : α} {f : α → EStateM ε σ β} :
    (liftExcept (Except.ok a : Except ε α) >>= f).run s = (f a).run s :=
  rfl

@[simp] theorem run_liftExcept_error_bind {e : ε} {f : α → EStateM ε σ β} :
    (liftExcept (Except.error e : Except ε α) >>= f).run s = .error e s :=
  rfl

theorem run_failIf_bind {cond : Prop} [Decidable cond] {err : ε} {f : Unit → EStateM ε σ α} :
    (failIf cond err >>= f).run s = if cond then .error err s else (f ()).run s := by
  unfold failIf
  split <;> rfl

theorem run_failIf {cond : Prop} [Decidable cond] {err : ε} :
    (failIf cond err : EStateM ε σ Unit).run s = if cond then .error err s else .ok () s := by
  unfold failIf
  split <;> rfl

end Steps

/-- Calls run one after the other from `s`, each from the state the last one left, whatever it
returned. -/
def runEach : List (EStateM ε σ α) → σ → σ
  | [], s => s
  | x :: xs, s => runEach xs (state (x.run s))

@[simp] theorem runEach_nil (s : σ) : runEach ([] : List (EStateM ε σ α)) s = s := rfl

@[simp] theorem runEach_cons (x : EStateM ε σ α) (xs : List (EStateM ε σ α)) (s : σ) :
    runEach (x :: xs) s = runEach xs (state (x.run s)) := rfl

/-- Invariant rule: a property every call keeps, whatever it returns, holds after every
sequence of calls. -/
theorem runEach_invariant {Inv : σ → Prop} {xs : List (EStateM ε σ α)}
    (hStep : ∀ x ∈ xs, ∀ s, Inv s → Inv (state (x.run s))) {s : σ} (hs : Inv s) :
    Inv (runEach xs s) := by
  induction xs generalizing s with
  | nil => exact hs
  | cons x xs ih =>
      exact ih (fun y hy => hStep y (List.mem_cons_of_mem _ hy))
        (hStep x List.mem_cons_self s hs)

/-- If every call of a sequence is all-or-nothing for `R` from every state of `Inv`, and `R`
keeps `Inv`, the sequence makes a chain of `R` steps and ends in `Inv`. -/
theorem runEach_reflTransGen {R : σ → σ → Prop} {Inv : σ → Prop} {xs : List (EStateM ε σ α)}
    (hInv : ∀ s s', Inv s → R s s' → Inv s')
    (hStep : ∀ x ∈ xs, ∀ s, Inv s → AllOrNothing R s (x.run s)) {s : σ} (hs : Inv s) :
    Relation.ReflTransGen R s (runEach xs s) ∧ Inv (runEach xs s) := by
  induction xs generalizing s with
  | nil => exact ⟨.refl, hs⟩
  | cons x xs ih =>
      have hRest : ∀ y ∈ xs, ∀ s, Inv s → AllOrNothing R s (y.run s) :=
        fun y hy => hStep y (List.mem_cons_of_mem _ hy)
      rcases (hStep x List.mem_cons_self s hs).state_eq_or with hSame | hR
      · rw [runEach, hSame]
        exact ih hRest hs
      · obtain ⟨hChain, hEnd⟩ := ih hRest (hInv _ _ hs hR)
        exact ⟨.head hR hChain, hEnd⟩

end Lib.EState
