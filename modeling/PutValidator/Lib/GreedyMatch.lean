import Mathlib

/-! Greedy matching of one list against another, as a two-index walk does it: the elements
of `xs` that `skip` does not pass over are looked for in `ys`, in order, each search consuming
`ys` up to and including the element found. The walk consumes all of `xs` exactly when the
kept elements form a sublist of `ys`, save that `xs` must not go on with skipped elements once
the last element of `ys` has been used; the last element it consumes from `ys` is then the last
kept element. -/
namespace Lib.GreedyMatch

open List

variable {α : Type} (skip : α → Bool)

/-- The elements the walk looks for. -/
def kept (xs : List α) : List α := xs.filter fun x => !skip x

/-- What is left of `xs` and of `ys` when the walk stops. -/
def walk [DecidableEq α] : List α → List α → List α × List α
  | [], ys => ([], ys)
  | x :: xs, [] => (x :: xs, [])
  | x :: xs, y :: ys =>
      if skip x then walk xs (y :: ys)
      else if x ≠ y then walk (x :: xs) ys
      else walk xs ys
termination_by xs ys => xs.length + ys.length

variable {skip}

@[simp] theorem kept_nil : kept skip [] = [] := rfl

theorem kept_cons_of_skip {x : α} (xs : List α) (h : skip x = true) :
    kept skip (x :: xs) = kept skip xs := by
  simp [kept, h]

theorem kept_cons_of_not_skip {x : α} (xs : List α) (h : skip x = false) :
    kept skip (x :: xs) = x :: kept skip xs := by
  simp [kept, h]

theorem kept_eq_nil_iff {xs : List α} : kept skip xs = [] ↔ ∀ x ∈ xs, skip x = true := by
  simp [kept, List.filter_eq_nil_iff]

/-- A last element that is not skipped is the last kept one. -/
theorem getLast?_kept_of_not_skip {xs : List α} {x : α} (hLast : xs.getLast? = some x)
    (h : skip x = false) : (kept skip xs).getLast? = some x := by
  rw [List.getLast?_eq_some_iff] at hLast
  obtain ⟨pre, rfl⟩ := hLast
  simp [kept, List.filter_append, h]

variable [DecidableEq α]

/-- Over skipped elements only, the walk consumes nothing as long as `ys` is not empty. -/
theorem walk_of_forall_skip {xs : List α} (h : ∀ x ∈ xs, skip x = true) (y : α) (ys : List α) :
    walk skip xs (y :: ys) = ([], y :: ys) := by
  induction xs with
  | nil => rw [walk]
  | cons x xs ih =>
      rw [walk, if_pos (h x List.mem_cons_self)]
      exact ih fun x' hx' => h x' (List.mem_cons_of_mem _ hx')

/-- A walk that consumed all of `xs` used a prefix of `ys` in which the kept elements form a
sublist ending where it ends; when it used all of `ys`, the last element of `xs` was kept. -/
theorem walk_eq_nil_left {xs ys rest : List α} (h : walk skip xs ys = ([], rest)) :
    ∃ used, ys = used ++ rest ∧ kept skip xs <+ used ∧
      (kept skip xs).getLast? = used.getLast? ∧
      (rest = [] → ∀ x ∈ xs.getLast?, skip x = false) := by
  fun_induction walk skip xs ys generalizing rest with
  | case1 ys =>
      cases h
      exact ⟨[], rfl, List.Sublist.refl _, rfl, by simp⟩
  | case2 x xs => cases h
  | case3 x xs y ys hSkip ih =>
      obtain ⟨used, hys, hSub, hLast, hTrail⟩ := ih h
      refine ⟨used, hys, ?_, ?_, fun hRest => ?_⟩
      · rwa [kept_cons_of_skip _ hSkip]
      · rwa [kept_cons_of_skip _ hSkip]
      -- a walk over skipped elements alone would have left `y :: ys`
      cases xs with
      | nil => rw [walk] at h; cases h; cases hRest
      | cons x' xs' => simpa using hTrail hRest
  | case4 x xs y ys hSkip hNe ih =>
      obtain ⟨used, hys, hSub, hLast, hTrail⟩ := ih h
      rw [Bool.not_eq_true] at hSkip
      have hUsed : used ≠ [] := by
        rintro rfl
        rw [kept_cons_of_not_skip _ hSkip] at hSub
        exact List.cons_ne_nil _ _ (List.eq_nil_of_sublist_nil hSub)
      refine ⟨y :: used, by rw [hys, List.cons_append], hSub.cons y, ?_, hTrail⟩
      obtain ⟨u, us, rfl⟩ := List.exists_cons_of_ne_nil hUsed
      rw [hLast, List.getLast?_cons_cons]
  | case5 x xs y ys hSkip hEq ih =>
      obtain ⟨used, hys, hSub, hLast, hTrail⟩ := ih h
      rw [Bool.not_eq_true] at hSkip
      rw [not_not] at hEq
      subst hEq
      refine ⟨x :: used, by rw [hys, List.cons_append], ?_, ?_, fun hRest => ?_⟩
      · rw [kept_cons_of_not_skip _ hSkip]
        exact hSub.cons_cons x
      · rw [kept_cons_of_not_skip _ hSkip, List.getLast?_cons, List.getLast?_cons, hLast]
      · cases xs with
        | nil => simpa using hSkip
        | cons x' xs' => simpa using hTrail hRest

/-- The walk consumes all of `xs` when the kept elements, not all skipped, form a sublist of
`ys` and `xs` ends with its last kept element if that is the last element of `ys`. -/
theorem walk_eq_nil_left_of_sublist {xs ys : List α} (hKept : kept skip xs ≠ [])
    (hSub : kept skip xs <+ ys)
    (hTrail : (kept skip xs).getLast? = ys.getLast? → xs.getLast? = (kept skip xs).getLast?) :
    ∃ rest, walk skip xs ys = ([], rest) := by
  fun_induction walk skip xs ys with
  | case1 ys => exact absurd kept_nil hKept
  | case2 x xs => exact absurd (List.eq_nil_of_sublist_nil hSub) hKept
  | case3 x xs y ys hSkip ih =>
      rw [kept_cons_of_skip _ hSkip] at hKept hSub hTrail
      have hxs : xs ≠ [] := by
        rintro rfl
        exact hKept kept_nil
      obtain ⟨x', xs', rfl⟩ := List.exists_cons_of_ne_nil hxs
      rw [List.getLast?_cons_cons] at hTrail
      exact ih hKept hSub hTrail
  | case4 x xs y ys hSkip hNe ih =>
      rw [Bool.not_eq_true] at hSkip
      rw [kept_cons_of_not_skip _ hSkip] at hKept hSub hTrail ih
      have hSub' := hSub.of_cons_of_ne hNe
      -- `x` is still ahead, so `ys` does not end here
      have hys : ys ≠ [] := List.ne_nil_of_mem (hSub'.subset List.mem_cons_self)
      rw [List.getLast?_cons_of_ne_nil hys] at hTrail
      exact ih (List.cons_ne_nil _ _) hSub' hTrail
  | case5 x xs y ys hSkip hEq ih =>
      rw [Bool.not_eq_true] at hSkip
      rw [not_not] at hEq
      subst hEq
      rw [kept_cons_of_not_skip _ hSkip] at hTrail
      rw [kept_cons_of_not_skip _ hSkip, List.cons_sublist_cons] at hSub
      by_cases hRest : kept skip xs = []
      · -- only skipped elements are left, and `ys` has not run out under them
        rcases eq_or_ne xs [] with rfl | hxs
        · exact ⟨ys, by rw [walk]⟩
        have hAll := kept_eq_nil_iff.mp hRest
        rcases eq_or_ne ys [] with rfl | hys
        · rw [hRest, List.getLast?_cons_of_ne_nil hxs] at hTrail
          obtain ⟨pre, hPre⟩ := List.getLast?_eq_some_iff.mp (hTrail rfl)
          have := hAll x (by rw [hPre]; exact List.mem_append_right _ List.mem_cons_self)
          rw [hSkip] at this
          cases this
        · obtain ⟨y', ys', rfl⟩ := List.exists_cons_of_ne_nil hys
          exact ⟨_, walk_of_forall_skip hAll y' ys'⟩
      · have hxs : xs ≠ [] := by
          rintro rfl
          exact hRest kept_nil
        have hys : ys ≠ [] := fun h => hRest (List.eq_nil_of_sublist_nil (h ▸ hSub))
        rw [List.getLast?_cons_of_ne_nil hRest, List.getLast?_cons_of_ne_nil hys,
          List.getLast?_cons_of_ne_nil hxs] at hTrail
        exact ih hRest hSub hTrail

/-- A walk that consumed all of `xs` consumed nothing of `ys` exactly when it kept nothing. -/
theorem walk_eq_nil_left_length_iff {xs ys rest : List α} (h : walk skip xs ys = ([], rest)) :
    rest.length = ys.length ↔ kept skip xs = [] := by
  obtain ⟨used, hys, -, hLast, -⟩ := walk_eq_nil_left h
  have hLen := congrArg List.length hys
  rw [List.length_append] at hLen
  rw [← List.getLast?_eq_none_iff, hLast, List.getLast?_eq_none_iff, ← List.length_eq_zero_iff]
  omega

/-- The walk leaves at most all of `xs`. -/
theorem length_walk_fst_le (xs ys : List α) : (walk skip xs ys).1.length ≤ xs.length := by
  fun_induction walk skip xs ys with
  | case1 ys => exact Nat.zero_le _
  | case2 x xs => exact Nat.le_refl _
  | case3 x xs y ys hSkip ih => exact Nat.le_trans ih (Nat.le_succ _)
  | case4 x xs y ys hSkip hNe ih => exact ih
  | case5 x xs y ys hSkip hEq ih => exact Nat.le_trans ih (Nat.le_succ _)

/-- Over a duplicate-free `ys`, the condition of `walk_eq_nil_left_of_sublist` is also
necessary: the walk consumes all of `xs` exactly when the kept elements form a sublist of `ys`
and `xs` does not go on past a last kept element that is the last of `ys`. -/
theorem walk_eq_nil_left_iff {xs ys : List α} (hNodup : ys.Nodup) (hKept : kept skip xs ≠ []) :
    (∃ rest, walk skip xs ys = ([], rest)) ↔
      kept skip xs <+ ys ∧
        ((kept skip xs).getLast? = ys.getLast? → xs.getLast? = (kept skip xs).getLast?) := by
  constructor
  · rintro ⟨rest, h⟩
    obtain ⟨used, hys, hSub, hLast, hTrail⟩ := walk_eq_nil_left h
    refine ⟨hSub.trans (hys ▸ List.sublist_append_left used rest), fun hEnd => ?_⟩
    obtain ⟨a, ha⟩ := Option.ne_none_iff_exists'.mp (mt List.getLast?_eq_none_iff.mp hKept)
    rcases eq_or_ne rest [] with rfl | hRest
    · -- all of `ys` used: the last element of `xs` was kept, so it is the last kept one
      have hxs : xs ≠ [] := by
        rintro rfl
        exact hKept kept_nil
      obtain ⟨z, hz⟩ := Option.ne_none_iff_exists'.mp (mt List.getLast?_eq_none_iff.mp hxs)
      rw [hz, getLast?_kept_of_not_skip hz (hTrail rfl z hz)]
    · -- the last kept element would sit both in the used part and in the rest of `ys`
      exfalso
      rw [hys, List.nodup_append] at hNodup
      rw [ha, hys, List.getLast?_append_of_ne_nil _ hRest] at hEnd
      rw [ha] at hLast
      exact hNodup.2.2 a (List.mem_of_getLast? hLast.symm) a (List.mem_of_getLast? hEnd.symm) rfl
  · rintro ⟨hSub, hTrail⟩
    exact walk_eq_nil_left_of_sublist hKept hSub hTrail

end Lib.GreedyMatch
