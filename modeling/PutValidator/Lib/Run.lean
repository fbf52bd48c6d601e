import Mathlib

/-! Runs of a fallible step function. A component that handles a list of requests one after
another and stops at the first error is modelled by `runAll`; the invariant and
monotonicity rules below are the inductions that every run lemma of the development
reuses. -/
namespace Lib.Run

variable {σ α ε : Type*}

/-- Apply `step` to each request in order, stopping at the first error. -/
def runAll (step : σ → α → Except ε σ) : σ → List α → Except ε σ
  | s, [] => .ok s
  | s, a :: rest =>
      match step s a with
      | .ok s' => runAll step s' rest
      | .error e => .error e

variable {step : σ → α → Except ε σ}

@[simp] theorem runAll_nil (s : σ) : runAll step s [] = .ok s := rfl

theorem runAll_cons (s : σ) (a : α) (rest : List α) :
    runAll step s (a :: rest) =
      match step s a with
      | .ok s' => runAll step s' rest
      | .error e => .error e := rfl

/-- A run that succeeds starts with a step that succeeds. -/
theorem runAll_cons_ok {s s' : σ} {a : α} {rest : List α}
    (h : runAll step s (a :: rest) = .ok s') :
    ∃ mid, step s a = .ok mid ∧ runAll step mid rest = .ok s' := by
  rw [runAll_cons] at h
  cases hs : step s a with
  | ok mid => exact ⟨mid, rfl, by simpa [hs] using h⟩
  | error e => simp [hs] at h

/-- A successful run over a concatenation passes through a state between the two parts. -/
theorem runAll_append_ok {s s' : σ} {first second : List α}
    (h : runAll step s (first ++ second) = .ok s') :
    ∃ mid, runAll step s first = .ok mid ∧ runAll step mid second = .ok s' := by
  induction first generalizing s with
  | nil => exact ⟨s, rfl, by simpa using h⟩
  | cons a rest ih =>
      obtain ⟨next, hNext, hRest⟩ := runAll_cons_ok h
      obtain ⟨mid, hFirst, hSecond⟩ := ih hRest
      exact ⟨mid, by simp [runAll_cons, hNext, hFirst], hSecond⟩

/-- Invariant rule: a property kept by every successful step holds after every
successful run. -/
theorem runAll_invariant {P : σ → Prop}
    (hStep : ∀ s a s', P s → step s a = .ok s' → P s') :
    ∀ {s s' : σ} {reqs : List α}, P s → runAll step s reqs = .ok s' → P s' := by
  intro s s' reqs hP hRun
  induction reqs generalizing s with
  | nil =>
      cases hRun
      exact hP
  | cons a rest ih =>
      obtain ⟨mid, hMid, hRest⟩ := runAll_cons_ok hRun
      exact ih (hStep s a mid hP hMid) hRest

/-- Monotonicity rule: when every successful step from a state satisfying the invariant
`P` is related by the preorder `R`, so is every successful run. -/
theorem runAll_rel {P : σ → Prop} {R : σ → σ → Prop} (hRefl : ∀ s, R s s)
    (hTrans : ∀ a b c, R a b → R b c → R a c)
    (hInv : ∀ s a s', P s → step s a = .ok s' → P s')
    (hStep : ∀ s a s', P s → step s a = .ok s' → R s s') :
    ∀ {s s' : σ} {reqs : List α}, P s → runAll step s reqs = .ok s' → R s s' := by
  intro s s' reqs hP hRun
  induction reqs generalizing s with
  | nil =>
      cases hRun
      exact hRefl _
  | cons a rest ih =>
      obtain ⟨mid, hMid, hRest⟩ := runAll_cons_ok hRun
      exact hTrans _ _ _ (hStep s a mid hP hMid) (ih (hInv s a mid hP hMid) hRest)

/-- Induction along the steps of a run numbered by `ℕ`: a property that holds at `x` and is kept
by every step from `x` before `n` holds at every point from `x` to `n`. -/
theorem le_induction_run {P : ℕ → Prop} {n x : ℕ} (hx : P x)
    (hStep : ∀ j, x ≤ j → j < n → P j → P (j + 1)) : ∀ y, x ≤ y → y ≤ n → P y := by
  intro y hxy hyn
  induction y with
  | zero =>
      obtain rfl : x = 0 := Nat.le_zero.mp hxy
      exact hx
  | succ y ih =>
      rcases Nat.lt_or_eq_of_le hxy with hLt | rfl
      · have hxy' : x ≤ y := Nat.lt_succ_iff.mp hLt
        exact hStep y hxy' hyn (ih hxy' (Nat.le_of_succ_le hyn))
      · exact hx

/-- Along steps numbered by `ℕ`, a property that holds at `x` and fails at a later `y` fails
right after some step between them: the step where a run first leaves the property. -/
theorem exists_change {P : ℕ → Prop} {x y : ℕ} (hxy : x ≤ y) (hx : P x) (hy : ¬P y) :
    ∃ t, x ≤ t ∧ t < y ∧ P t ∧ ¬P (t + 1) := by
  induction y with
  | zero =>
      obtain rfl : x = 0 := Nat.le_zero.mp hxy
      exact absurd hx hy
  | succ y ih =>
      have hxy' : x ≤ y := by
        rcases Nat.lt_or_eq_of_le hxy with hLt | rfl
        · exact Nat.lt_succ_iff.mp hLt
        · exact absurd hx hy
      by_cases hP : P y
      · exact ⟨y, hxy', Nat.lt_succ_self y, hP, hy⟩
      · obtain ⟨t, hxt, hty, hPt, hNext⟩ := ih hxy' hP
        exact ⟨t, hxt, Nat.lt_succ_of_lt hty, hPt, hNext⟩

/-- A value fixed by a slot number that never goes back, equal exactly within a slot, does not
return once left: if it is the same at `r` and at `q`, it is the same at every step between. -/
theorem eq_between_of_slot {β : Type*} {f : ℕ → β} {slot : ℕ → ℕ} {n r t q : ℕ}
    (hSlot : ∀ x y, x ≤ y → y < n → slot x ≤ slot y)
    (hf : ∀ x y, x < n → y < n → (f x = f y ↔ slot x = slot y))
    (hrt : r ≤ t) (htq : t ≤ q) (hq : q < n) (h : f r = f q) : f t = f q := by
  have ht : t < n := Nat.lt_of_le_of_lt htq hq
  have hrq : slot r = slot q := (hf r q (Nat.lt_of_le_of_lt hrt ht) hq).mp h
  have hLow : slot r ≤ slot t := hSlot r t hrt ht
  have hHigh : slot t ≤ slot q := hSlot t q htq hq
  exact (hf t q ht hq).mpr (by omega)

/-- Invariant rule for requests stamped with a clock that never goes back: a property of the
state at a clock value, kept by every step taken at a later or equal clock value and moved
forward with the clock, holds after the run at every clock value that bounds the start and every
request's stamp; and every step is related to its result by the preorder `R`. -/
theorem runAll_clock_invariant {P : ℕ → σ → Prop} {R : σ → σ → Prop} (clock : α → ℕ)
    (hRefl : ∀ s, R s s) (hTrans : ∀ a b c, R a b → R b c → R a c)
    (hMono : ∀ t u s, t ≤ u → P t s → P u s)
    (hStep : ∀ t s a s', P t s → t ≤ clock a → step s a = .ok s' → P (clock a) s' ∧ R s s') :
    ∀ {t : ℕ} {s s' : σ} {reqs : List α}, P t s → (∀ a ∈ reqs, t ≤ clock a) →
      reqs.Pairwise (fun a b => clock a ≤ clock b) → runAll step s reqs = .ok s' →
      R s s' ∧ ∀ u, t ≤ u → (∀ a ∈ reqs, clock a ≤ u) → P u s' := by
  intro t s s' reqs hP hAfter hSorted hRun
  induction reqs generalizing t s with
  | nil =>
      obtain rfl : s = s' := Except.ok.inj hRun
      exact ⟨hRefl s, fun u htu _ => hMono t u s htu hP⟩
  | cons a rest ih =>
      obtain ⟨mid, hMid, hRest⟩ := runAll_cons_ok hRun
      have hNow : t ≤ clock a := hAfter a (List.mem_cons_self)
      obtain ⟨hPMid, hRMid⟩ := hStep t s a mid hP hNow hMid
      -- the rest of the run starts at the clock of the first request
      obtain ⟨hRRest, hPRest⟩ := ih hPMid (fun b hb => List.rel_of_pairwise_cons hSorted hb) hSorted.of_cons hRest
      refine ⟨hTrans _ _ _ hRMid hRRest, fun u _ hBound => ?_⟩
      exact hPRest u (hBound a List.mem_cons_self) fun b hb => hBound b (List.mem_cons_of_mem a hb)

/-- Invariant rule for runs whose requests all satisfy `Q`: a property kept by every successful
step on such a request holds after every successful run. -/
theorem runAll_invariant_on {P : σ → Prop} {Q : α → Prop}
    (hStep : ∀ s a s', Q a → P s → step s a = .ok s' → P s') :
    ∀ {s s' : σ} {reqs : List α}, (∀ a ∈ reqs, Q a) → P s → runAll step s reqs = .ok s' → P s' := by
  intro s s' reqs hQ hP hRun
  induction reqs generalizing s with
  | nil =>
      obtain rfl : s = s' := Except.ok.inj hRun
      exact hP
  | cons a rest ih =>
      obtain ⟨mid, hMid, hRest⟩ := runAll_cons_ok hRun
      exact ih (fun b hb => hQ b (List.mem_cons_of_mem a hb))
        (hStep s a mid (hQ a List.mem_cons_self) hP hMid) hRest

end Lib.Run
