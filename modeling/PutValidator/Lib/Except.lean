import Mathlib

/-! Early returns in `Except`. A Rust function that checks a condition and returns
`Err(e)` on it is `failIf cond e` followed by the rest of the body; a body written as a
chain of such steps is taken apart by `bind_eq_ok`, one check at a time. -/
namespace Lib.Except

variable {ε α β : Type}

/-- `if cond { return Err(err); }`. -/
def failIf (cond : Prop) [Decidable cond] (err : ε) : Except ε Unit :=
  if cond then .error err else .ok ()

@[simp] theorem failIf_eq_ok {cond : Prop} [Decidable cond] {err : ε} {u : Unit} :
    failIf cond err = .ok u ↔ ¬cond := by
  unfold failIf
  split <;> simp_all

theorem failIf_bind {cond : Prop} [Decidable cond] {err : ε} {f : Unit → Except ε α} :
    failIf cond err >>= f = if cond then .error err else f () := by
  unfold failIf
  split <;> rfl

theorem failIf_of_not {cond : Prop} [Decidable cond] (err : ε) (h : ¬cond) :
    failIf cond err = .ok () := by
  simp [failIf, h]

theorem failIf_of_cond {cond : Prop} [Decidable cond] (err : ε) (h : cond) :
    failIf cond err = .error err := by
  simp [failIf, h]

@[simp] theorem bind_eq_ok {x : Except ε α} {f : α → Except ε β} {b : β} :
    x >>= f = .ok b ↔ ∃ a, x = .ok a ∧ f a = .ok b := by
  cases x with
  | error e => simp [bind, Except.bind]
  | ok a => simp [bind, Except.bind]

theorem bind_eq_error {x : Except ε α} {f : α → Except ε β} {e : ε} :
    x >>= f = .error e ↔ x = .error e ∨ ∃ a, x = .ok a ∧ f a = .error e := by
  cases x with
  | error e' => simp [bind, Except.bind]
  | ok a => simp [bind, Except.bind]

@[simp] theorem bind_ok (a : α) (f : α → Except ε β) :
    (Except.ok a : Except ε α) >>= f = f a := rfl

@[simp] theorem bind_error (e : ε) (f : α → Except ε β) :
    (Except.error e : Except ε α) >>= f = .error e := rfl

@[simp] theorem pure_eq_ok {a b : α} : (pure a : Except ε α) = .ok b ↔ a = b := by
  simp [pure, Except.pure]

@[simp] theorem map_eq_ok {x : Except ε α} {f : α → β} {b : β} :
    x.map f = .ok b ↔ ∃ a, x = .ok a ∧ f a = b := by
  cases x <;> simp [Except.map]

@[simp] theorem mapError_eq_ok {ε' : Type} {x : Except ε α} {f : ε → ε'} {a : α} :
    x.mapError f = .ok a ↔ x = .ok a := by
  cases x <;> simp [Except.mapError]

@[simp] theorem mapError_ok {ε' : Type} (a : α) (f : ε → ε') :
    (Except.ok a : Except ε α).mapError f = .ok a := rfl

/-- A `for` loop of checks succeeds exactly when every iteration does. -/
@[simp] theorem forM_eq_ok {l : List α} {f : α → Except ε Unit} {u : Unit} :
    l.forM f = .ok u ↔ ∀ a ∈ l, f a = .ok () := by
  induction l with
  | nil => simp [pure, Except.pure]
  | cons a rest ih =>
      rw [List.forM, bind_eq_ok]
      constructor
      · rintro ⟨⟨⟩, hHead, hRest⟩
        exact List.forall_mem_cons.mpr ⟨hHead, ih.mp hRest⟩
      · intro h
        exact ⟨(), h a List.mem_cons_self, ih.mpr fun b hb => h b (List.mem_cons_of_mem _ hb)⟩

/-- A loop of checks that all fail with `err` fails with `err`. -/
theorem forM_failIf_eq_error {l : List α} {p : α → Prop} [DecidablePred p] {err e : ε}
    (h : l.forM (fun a => failIf (p a) err) = .error e) : e = err := by
  induction l with
  | nil => simp [pure, Except.pure] at h
  | cons a rest ih =>
      rw [List.forM] at h
      by_cases hp : p a
      · simp only [failIf_of_cond err hp, bind_error, Except.error.injEq] at h
        exact h.symm
      · simp only [failIf_of_not err hp, bind_ok] at h
        exact ih h

/-- `Option::ok_or`. -/
def okOr (o : Option α) (err : ε) : Except ε α :=
  match o with
  | some a => .ok a
  | none => .error err

@[simp] theorem okOr_eq_ok {o : Option α} {err : ε} {a : α} : okOr o err = .ok a ↔ o = some a := by
  cases o <;> simp [okOr]

@[simp] theorem okOr_some (a : α) (err : ε) : okOr (some a) err = .ok a := rfl

@[simp] theorem okOr_none (err : ε) : okOr (none : Option α) err = .error err := rfl

/-- Loop invariant rule for a fallible left fold: a property of the elements already
processed and of the accumulator, kept by every successful step, holds of the whole list
and the result. -/
theorem foldlM_invariant {f : β → α → Except ε β} (P : List α → β → Prop)
    (hStep : ∀ pre a b b', P pre b → f b a = .ok b' → P (pre ++ [a]) b')
    {pre l : List α} {init b : β} (hInit : P pre init) (h : l.foldlM f init = .ok b) :
    P (pre ++ l) b := by
  induction l generalizing pre init with
  | nil =>
      simp only [List.foldlM_nil, pure_eq_ok] at h
      subst h
      simpa using hInit
  | cons a rest ih =>
      rw [List.foldlM_cons, bind_eq_ok] at h
      obtain ⟨mid, hMid, hRest⟩ := h
      simpa using ih (hStep pre a init mid hInit hMid) hRest

/-- A fallible left fold succeeds, and ends in the invariant, when each step on an element of
the list succeeds from every accumulator the invariant admits and keeps it. -/
theorem foldlM_ok_of_invariant {f : β → α → Except ε β} (P : List α → β → Prop) {l : List α}
    (hStep : ∀ pre a b, a ∈ l → P pre b → ∃ b', f b a = .ok b' ∧ P (pre ++ [a]) b') :
    ∀ {pre : List α} {init : β}, P pre init → ∃ b, l.foldlM f init = .ok b ∧ P (pre ++ l) b := by
  induction l with
  | nil => exact fun hInit => ⟨_, rfl, by simpa using hInit⟩
  | cons a rest ih =>
      intro pre init hInit
      obtain ⟨mid, hMid, hP⟩ := hStep pre a init List.mem_cons_self hInit
      obtain ⟨b, hb, hPb⟩ := ih (fun pre a b ha => hStep pre a b (List.mem_cons_of_mem _ ha)) hP
      refine ⟨b, ?_, by simpa using hPb⟩
      rw [List.foldlM_cons, hMid, bind_ok]
      exact hb

/-- A fallible left fold whose every step succeeds on the elements of the list succeeds. -/
theorem foldlM_isOk {f : β → α → Except ε β} {l : List α}
    (hStep : ∀ b, ∀ a ∈ l, ∃ b', f b a = .ok b') (init : β) : ∃ b, l.foldlM f init = .ok b :=
  (@foldlM_ok_of_invariant _ _ _ f (fun _ _ => True) l
    (fun _ a b ha _ => (hStep b a ha).imp fun _ h => ⟨h, trivial⟩) [] init trivial).imp
    fun _ h => h.1

/-- A fallible map succeeds exactly when it succeeds on each element, position by
position. -/
theorem mapM_eq_ok {l : List α} {f : α → Except ε β} {r : List β} :
    l.mapM f = .ok r ↔ List.Forall₂ (fun a b => f a = .ok b) l r := by
  induction l generalizing r with
  | nil =>
      cases r <;> simp [pure, Except.pure]
  | cons a rest ih =>
      cases r with
      | nil => simp [List.mapM_cons, pure, Except.pure]
      | cons b bs => simp [List.mapM_cons, ih, pure, Except.pure]

/-- A computation that has a result returns it: the form in which a run on fixed inputs is
named without writing its result out. -/
theorem eq_ok_toOption_getD {x : Except ε α} (h : x.toOption.isSome = true) (d : α) :
    x = .ok (x.toOption.getD d) := by
  cases x with
  | error e => simp [Except.toOption] at h
  | ok a => rfl

end Lib.Except
