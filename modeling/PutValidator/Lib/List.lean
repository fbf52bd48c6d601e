import Mathlib

/-! Facts about lists that the loops of the runtime need: position-by-position relations, as
`mapM_eq_ok` gives them, and the first position of a key among distinct keys. -/
namespace Lib.List

variable {α β : Type}

/-- Two position-by-position relations compose. -/
theorem forall₂_comp {γ : Type} {R : α → β → Prop} {S : β → γ → Prop} {T : α → γ → Prop}
    (hComp : ∀ a b c, R a b → S b c → T a c) :
    ∀ {l₁ : List α} {l₂ : List β} {l₃ : List γ},
      List.Forall₂ R l₁ l₂ → List.Forall₂ S l₂ l₃ → List.Forall₂ T l₁ l₃
  | _, _, _, .nil, .nil => .nil
  | _, _, _, .cons hab hRest, .cons hbc hRest' =>
      .cons (hComp _ _ _ hab hbc) (forall₂_comp hComp hRest hRest')

/-- An element on the right of a position-by-position relation has a partner on the left. -/
theorem forall₂_exists_of_mem_right {R : α → β → Prop} :
    ∀ {l₁ : List α} {l₂ : List β}, List.Forall₂ R l₁ l₂ → ∀ {b : β}, b ∈ l₂ → ∃ a ∈ l₁, R a b
  | _, _, .nil, _, hb => absurd hb List.not_mem_nil
  | _, _, .cons hab hRest, _, hb => by
      rcases List.mem_cons.mp hb with rfl | hb
      · exact ⟨_, List.mem_cons_self, hab⟩
      · obtain ⟨a, ha, hR⟩ := forall₂_exists_of_mem_right hRest hb
        exact ⟨a, List.mem_cons_of_mem _ ha, hR⟩

/-- An element on the left of a position-by-position relation has a partner on the right. -/
theorem forall₂_exists_of_mem_left {R : α → β → Prop} :
    ∀ {l₁ : List α} {l₂ : List β}, List.Forall₂ R l₁ l₂ → ∀ {a : α}, a ∈ l₁ → ∃ b ∈ l₂, R a b
  | _, _, .nil, _, ha => absurd ha List.not_mem_nil
  | _, _, .cons hab hRest, _, ha => by
      rcases List.mem_cons.mp ha with rfl | ha
      · exact ⟨_, List.mem_cons_self, hab⟩
      · obtain ⟨b, hb, hR⟩ := forall₂_exists_of_mem_left hRest ha
        exact ⟨b, List.mem_cons_of_mem _ hb, hR⟩

/-- In a list that starts with distinct elements, the first position of the `i`-th of them is
`i`. -/
theorem findIdx?_beq_of_nodup_prefix [BEq α] [LawfulBEq α] {l keys : List α}
    (hPrefix : l <+: keys) (hNodup : l.Nodup) {i : Nat} (hi : i < l.length) :
    keys.findIdx? (· == l[i]) = some i := by
  obtain ⟨rest, rfl⟩ := hPrefix
  rw [List.findIdx?_eq_some_iff_getElem]
  refine ⟨by simp only [List.length_append]; omega, ?_, ?_⟩
  · rw [List.getElem_append_left hi, beq_self_eq_true]
  intro j hj
  rw [List.getElem_append_left (Nat.lt_trans hj hi), beq_iff_eq]
  intro hEq
  exact absurd ((List.Nodup.getElem_inj_iff hNodup).mp hEq) (Nat.ne_of_lt hj)

/-- A map in `Option` succeeds exactly when it succeeds on each element, position by
position. -/
theorem mapM_eq_some {f : α → Option β} {l : List α} {r : List β} :
    l.mapM f = some r ↔ List.Forall₂ (fun a b => f a = some b) l r := by
  induction l generalizing r with
  | nil => cases r <;> simp
  | cons a rest ih =>
      cases r with
      | nil =>
          rw [List.forall₂_nil_right_iff]
          simp only [List.mapM_cons, Option.bind_eq_bind]
          cases f a <;> cases rest.mapM f <;> simp
      | cons b bs =>
          rw [List.forall₂_cons, ← ih]
          simp only [List.mapM_cons, Option.bind_eq_bind]
          cases f a <;> cases rest.mapM f <;> simp

/-- A map in `Option` that succeeds on each element with a known value succeeds with their
list. -/
theorem mapM_eq_some_of_forall {f : α → Option β} {g : α → β} :
    ∀ {l : List α}, (∀ a ∈ l, f a = some (g a)) → l.mapM f = some (l.map g)
  | [], _ => rfl
  | a :: l, h => by
      have hRest := mapM_eq_some_of_forall fun b hb => h b (List.mem_cons_of_mem a hb)
      simp [List.mapM_cons, h a List.mem_cons_self, hRest]

/-- A map in `Option` that succeeds on each element succeeds. -/
theorem exists_mapM_eq_some {f : α → Option β} :
    ∀ {l : List α}, (∀ a ∈ l, (f a).isSome) → ∃ r, l.mapM f = some r
  | [], _ => ⟨[], rfl⟩
  | a :: l, h => by
      obtain ⟨b, hb⟩ := Option.isSome_iff_exists.mp (h a List.mem_cons_self)
      obtain ⟨r, hr⟩ := exists_mapM_eq_some fun c hc => h c (List.mem_cons_of_mem a hc)
      exact ⟨b :: r, by simp [List.mapM_cons, hb, hr]⟩

/-- Reading every position of a list in order gives the list back. -/
theorem mapM_range_getElem? (l : List α) : (List.range l.length).mapM (l[·]?) = some l := by
  refine mapM_eq_some.mpr (List.forall₂_iff_get.mpr ⟨List.length_range, fun i h₁ h₂ => ?_⟩)
  simp

/-- In a list of distinct elements cut in two, an element lies in the first part exactly when
its position is below the first part's length. -/
theorem getElem_mem_left_iff_of_nodup {l l₁ l₂ : List α} (hl : l = l₁ ++ l₂) (hNodup : l.Nodup)
    {i : Nat} (hi : i < l.length) : l[i] ∈ l₁ ↔ i < l₁.length := by
  subst hl
  constructor
  · intro hMem
    by_contra hLe
    rw [List.getElem_append_right (Nat.le_of_not_lt hLe)] at hMem
    exact List.disjoint_of_nodup_append hNodup hMem (List.getElem_mem _)
  · intro hLt
    rw [List.getElem_append_left hLt]
    exact List.getElem_mem _

/-- Distinct elements stay distinct when the middle two of four parts swap. -/
theorem nodup_append_swap {a b c d : List α} (h : (a ++ b ++ (c ++ d)).Nodup) :
    (a ++ c ++ (b ++ d)).Nodup := by
  have hPerm : (a ++ c ++ (b ++ d)).Perm (a ++ b ++ (c ++ d)) := by
    simp only [List.append_assoc]
    exact (List.perm_append_left_iff a).mpr (List.perm_append_comm_assoc c b d)
  exact hPerm.nodup_iff.mpr h

/-- Lists related position by position through two maps map to the same list. -/
theorem map_eq_map_of_forall₂ {γ : Type} {f : α → γ} {g : β → γ} :
    ∀ {l₁ : List α} {l₂ : List β}, List.Forall₂ (fun a b => g b = f a) l₁ l₂ →
      l₂.map g = l₁.map f
  | _, _, .nil => rfl
  | _, _, .cons hab hRest => by
      simp only [List.map_cons, hab, map_eq_map_of_forall₂ hRest]

/-- Distinct elements of `l`, together with other distinct elements of `l` that none of the first
equals, number at most the distinct elements of `l`: the count behind a check that asks for as
many distinct entries as there are stored ones. -/
theorem length_add_length_le_length_dedup [DecidableEq α] {s out l : List α} (hs : s.Nodup)
    (hOut : out.Nodup) (hDisjoint : ∀ x ∈ s, x ∉ out) (hsSub : ∀ x ∈ s, x ∈ l)
    (hOutSub : ∀ x ∈ out, x ∈ l) : s.length + out.length ≤ l.dedup.length := by
  have hNodup : (s ++ out).Nodup :=
    List.nodup_append.mpr ⟨hs, hOut, fun a ha b hb hab => hDisjoint a ha (hab ▸ hb)⟩
  have hSub : s ++ out ⊆ l.dedup := by
    intro x hx
    rw [List.mem_dedup]
    rcases List.mem_append.mp hx with hx | hx
    exacts [hsSub x hx, hOutSub x hx]
  simpa using (hNodup.subperm hSub).length_le

/-- Every element of the left list of a position-by-position relation is related to some element. -/
theorem exists_of_forall₂_of_mem {R : α → β → Prop} :
    ∀ {l₁ : List α} {l₂ : List β}, List.Forall₂ R l₁ l₂ → ∀ a ∈ l₁, ∃ b, R a b
  | _, _, .nil => by simp
  | _, _, .cons hab hRest => by
      intro a ha
      rcases List.mem_cons.mp ha with rfl | ha
      exacts [⟨_, hab⟩, exists_of_forall₂_of_mem hRest a ha]

/-! ### Writing over a stretch of a list -/

/-- `src` written over `dst` from `offset` on, as `copy_from_slice` into the sub-slice
`offset..offset + src.len()` does. -/
def overwrite (offset : Nat) (src dst : List α) : List α :=
  dst.take offset ++ src ++ dst.drop (offset + src.length)

section Overwrite

variable {offset : Nat} {src dst : List α}

theorem length_overwrite (h : offset + src.length ≤ dst.length) :
    (overwrite offset src dst).length = dst.length := by
  simp only [overwrite, List.length_append, List.length_take, List.length_drop]
  omega

theorem getElem?_overwrite_of_lt (hOffset : offset ≤ dst.length) {i : Nat} (hi : i < offset) :
    (overwrite offset src dst)[i]? = dst[i]? := by
  rw [overwrite, List.append_assoc, List.getElem?_append_left (by simp; omega),
    List.getElem?_take_of_lt hi]

theorem getElem?_overwrite_of_le (hOffset : offset ≤ dst.length) {i : Nat}
    (hi : offset + src.length ≤ i) : (overwrite offset src dst)[i]? = dst[i]? := by
  rw [overwrite, List.getElem?_append_right (by simp; omega), List.getElem?_drop]
  congr 1
  simp only [List.length_append, List.length_take]
  omega

theorem getElem?_overwrite_of_mem (hOffset : offset ≤ dst.length) {i : Nat} (hi : offset ≤ i)
    (hi' : i < offset + src.length) : (overwrite offset src dst)[i]? = src[i - offset]? := by
  have hTake : (dst.take offset).length = offset := by simp; omega
  rw [overwrite, List.append_assoc, List.getElem?_append_right (by omega), hTake,
    List.getElem?_append_left (by omega)]

theorem take_overwrite (hOffset : offset ≤ dst.length) {n : Nat} (hn : n ≤ offset) :
    (overwrite offset src dst).take n = dst.take n := by
  refine List.ext_getElem? fun i => ?_
  rw [List.getElem?_take, List.getElem?_take]
  split
  · exact getElem?_overwrite_of_lt hOffset (by omega)
  · rfl

theorem drop_overwrite (hOffset : offset ≤ dst.length) {n : Nat} (hn : offset + src.length ≤ n) :
    (overwrite offset src dst).drop n = dst.drop n := by
  refine List.ext_getElem? fun i => ?_
  rw [List.getElem?_drop, List.getElem?_drop]
  exact getElem?_overwrite_of_le hOffset (by omega)

end Overwrite

/-- Updating a map at each key of a list, as a loop over `entry(key)` does: each key is updated
as many times as it occurs in the list. -/
theorem foldl_update_apply [DecidableEq α] (f : β → β) (l : List α) (m : α → β) (k : α) :
    l.foldl (fun m a => Function.update m a (f (m a))) m k = f^[l.count k] (m k) := by
  induction l generalizing m with
  | nil => rfl
  | cons a l ih =>
      rw [List.foldl_cons, ih]
      by_cases hk : k = a
      · subst hk
        rw [Function.update_self, List.count_cons_self, Function.iterate_succ_apply]
      · rw [Function.update_of_ne hk, List.count_cons_of_ne (Ne.symm hk)]

/-- The largest element does not depend on the order of the list. -/
theorem max?_reverse [Max α] [LE α] [Std.IsLinearOrder α] [Std.LawfulOrderMax α] (l : List α) :
    l.reverse.max? = l.max? := by
  cases h : l.max? with
  | none =>
      rw [List.max?_eq_none_iff] at h ⊢
      rw [h, List.reverse_nil]
  | some a =>
      rw [List.max?_eq_some_iff] at h ⊢
      simpa only [List.mem_reverse] using h

/-- Writing one position of a list, read back at any position. -/
theorem getD_set (l : List α) (i j : Nat) (a d : α) :
    (l.set i a).getD j d = if i = j ∧ i < l.length then a else l.getD j d := by
  rw [List.getD_eq_getElem?_getD, List.getElem?_set, List.getD_eq_getElem?_getD]
  by_cases hij : i = j
  · subst hij
    by_cases hi : i < l.length <;> simp [hi]
  · simp [hij]

/-- A position read as `true` holds `true`. -/
theorem mem_of_getD_eq_true {l : List Bool} {i : Nat} (h : l.getD i false = true) : true ∈ l := by
  rw [List.getD_eq_getElem?_getD] at h
  cases hi : l[i]? with
  | none => rw [hi] at h; cases h
  | some b =>
      rw [hi] at h
      cases h
      exact List.mem_of_getElem? hi

/-- Some position reads `true` in a list holding `true`. -/
theorem exists_getD_eq_true {l : List Bool} (h : true ∈ l) : ∃ i, l.getD i false = true := by
  obtain ⟨i, hi, hTrue⟩ := List.getElem_of_mem h
  exact ⟨i, by rw [List.getD_eq_getElem?_getD, List.getElem?_eq_getElem hi, hTrue]; rfl⟩

/-- Writing one position of a list of booleans moves its count of `true` by at most one. -/
theorem count_true_set (l : List Bool) {i : Nat} (hi : i < l.length) (b : Bool) :
    (l.set i b).count true =
      l.count true - (if l.getD i false then 1 else 0) + (if b then 1 else 0) := by
  rw [List.count_set hi, List.getD_eq_getElem?_getD, List.getElem?_eq_getElem hi]
  cases l[i] <;> cases b <;> rfl

/-- The prefix of an increasing range below a bound is a shorter range. -/
theorem takeWhile_range'_lt (s n m : Nat) :
    (List.range' s n).takeWhile (fun k => decide (k < m)) = List.range' s (min n (m - s)) := by
  induction n generalizing s with
  | zero => simp
  | succ n ih =>
      rw [List.range'_succ, List.takeWhile_cons]
      by_cases hs : s < m
      · rw [if_pos (decide_eq_true hs), ih]
        have hLen : min (n + 1) (m - s) = min n (m - (s + 1)) + 1 := by omega
        rw [hLen, List.range'_succ]
      · rw [if_neg (by simpa using hs)]
        have hLen : min (n + 1) (m - s) = 0 := by omega
        rw [hLen, List.range'_zero]

/-- A running minimum from `a` stays at or below `a`, at or below every element, and is `a`
or an element. -/
theorem foldl_min_le_init (l : List Nat) (a : Nat) : l.foldl Nat.min a ≤ a := by
  induction l generalizing a with
  | nil => exact Nat.le_refl a
  | cons x l ih => exact Nat.le_trans (ih (Nat.min a x)) (Nat.min_le_left a x)

theorem foldl_min_le_of_mem {l : List Nat} {x : Nat} (hx : x ∈ l) (a : Nat) :
    l.foldl Nat.min a ≤ x := by
  induction l generalizing a with
  | nil => cases hx
  | cons y l ih =>
      rcases List.mem_cons.mp hx with rfl | hx
      · exact Nat.le_trans (foldl_min_le_init l _) (Nat.min_le_right a x)
      · exact ih hx _

theorem foldl_min_eq_or_mem (l : List Nat) (a : Nat) :
    l.foldl Nat.min a = a ∨ l.foldl Nat.min a ∈ l := by
  induction l generalizing a with
  | nil => exact Or.inl rfl
  | cons x l ih =>
      rw [List.foldl_cons]
      rcases ih (Nat.min a x) with h | h
      · rw [h]
        rcases Nat.le_total a x with hax | hxa
        · have hMin : Nat.min a x = a := Nat.min_eq_left hax
          exact Or.inl hMin
        · have hMin : Nat.min a x = x := Nat.min_eq_right hxa
          rw [hMin]
          exact Or.inr List.mem_cons_self
      · exact Or.inr (List.mem_cons_of_mem x h)

/-- What `rdropWhile` keeps ends with the last element that fails the test. -/
theorem getLast?_rdropWhile (p : α → Bool) (l : List α) :
    (l.rdropWhile p).getLast? = (l.filter fun x => !p x).getLast? := by
  rw [List.rdropWhile, List.getLast?_reverse, ← List.find?_not_eq_head?_dropWhile,
    ← List.head?_reverse, ← List.filter_reverse, List.head?_filter]

/-- Pushing each element's image onto a list appends the images in order. -/
theorem foldl_push_eq_append_map {f : α → β} :
    ∀ (l : List α) (acc : List β), l.foldl (fun acc x => acc ++ [f x]) acc = acc ++ l.map f
  | [], acc => by simp
  | x :: l, acc => by
      rw [List.foldl_cons, foldl_push_eq_append_map l, List.map_cons, List.append_assoc,
        List.singleton_append]

/-- Weighting each element of a duplicate-free list and keeping the pairs of one key, the
weights add up to the weight of each list that holds the key. -/
theorem sum_snd_filter_flatMap [DecidableEq α] {γ : Type} (S : γ → List α) (w : γ → Nat)
    (k : α) : ∀ l : List γ, (∀ a ∈ l, (S a).Nodup) →
      (((l.flatMap fun a => (S a).map (·, w a)).filter (·.1 == k)).map Prod.snd).sum =
        ((l.filter fun a => k ∈ S a).map w).sum
  | [], _ => rfl
  | a :: l, hNodup => by
      have hRest := sum_snd_filter_flatMap S w k l fun b hb => hNodup b (List.mem_cons_of_mem a hb)
      -- among the pairs of `a`, the key occurs once if it is in `S a` and never otherwise
      have hHead : ((((S a).map (·, w a)).filter (·.1 == k)).map Prod.snd).sum =
          if k ∈ S a then w a else 0 := by
        rw [List.filter_map, List.map_map]
        have hFilter : (S a).filter ((·.1 == k) ∘ (·, w a)) = (S a).filter (· == k) := rfl
        rw [hFilter, List.filter_beq]
        by_cases hk : k ∈ S a
        · simp [List.count_eq_one_of_mem (hNodup a List.mem_cons_self) hk, hk]
        · simp [List.count_eq_zero_of_not_mem hk, hk]
      rw [List.flatMap_cons, List.filter_append, List.map_append, List.sum_append, hHead, hRest,
        List.filter_cons]
      by_cases hk : k ∈ S a <;> simp [hk]

/-- In an ascending list, what `dropWhile (· ≤ s)` leaves lies above `s`. -/
theorem lt_of_mem_dropWhile_le {s : Nat} :
    ∀ {l : List Nat}, l.Pairwise (· < ·) → ∀ {a : Nat}, a ∈ l.dropWhile (· ≤ s) → s < a
  | [], _, _, ha => by simp at ha
  | b :: l, hl, a, ha => by
      by_cases hb : b ≤ s
      · rw [List.dropWhile_cons_of_pos (by simpa using hb)] at ha
        exact lt_of_mem_dropWhile_le (List.pairwise_cons.mp hl).2 ha
      · rw [List.dropWhile_cons_of_neg (by simpa using hb)] at ha
        rcases List.mem_cons.mp ha with rfl | ha
        · omega
        · have hba := (List.pairwise_cons.mp hl).1 a ha
          omega

theorem drop_length_takeWhile (p : α → Bool) :
    ∀ (l : List α), l.drop (l.takeWhile p).length = l.dropWhile p
  | [] => rfl
  | a :: l => by
      rw [List.takeWhile_cons, List.dropWhile_cons]
      split
      · simp [drop_length_takeWhile p l]
      · simp

/-- An element above `s` survives `dropWhile (· ≤ s)`. -/
theorem mem_dropWhile_of_lt {s x : Nat} {l : List Nat} (hx : x ∈ l) (hLt : s < x) :
    x ∈ l.dropWhile (· ≤ s) := by
  rw [← List.takeWhile_append_dropWhile (p := (· ≤ s)) (l := l)] at hx
  rcases List.mem_append.mp hx with hx | hx
  · have hLe := List.mem_takeWhile_imp hx
    simp only [decide_eq_true_eq] at hLe
    omega
  · exact hx

/-- A `filterMap` over an ascending list, cut at `s`: up to `s` it agrees with `g`, above `s`
with `h`. -/
theorem filterMap_eq_takeWhile_append_dropWhile {f g h : Nat → Option β} {l : List Nat}
    (hl : l.Pairwise (· < ·)) (s : Nat) (hg : ∀ a ≤ s, f a = g a) (hh : ∀ a, s < a → f a = h a) :
    l.filterMap f = (l.takeWhile (· ≤ s)).filterMap g ++ (l.dropWhile (· ≤ s)).filterMap h := by
  conv_lhs => rw [← List.takeWhile_append_dropWhile (p := (· ≤ s)) (l := l)]
  rw [List.filterMap_append]
  congr 1
  · apply List.filterMap_congr
    intro a ha
    have hLe := List.mem_takeWhile_imp ha
    simp only [decide_eq_true_eq] at hLe
    exact hg a hLe
  · apply List.filterMap_congr
    intro a ha
    exact hh a (lt_of_mem_dropWhile_le hl ha)

/-- Lists with the same members have the same maximum. -/
theorem max?_eq_of_mem_iff {l₁ l₂ : List Nat} (h : ∀ x, x ∈ l₁ ↔ x ∈ l₂) : l₁.max? = l₂.max? := by
  rcases h₁ : l₁.max? with _ | m
  · have hNil : l₂ = [] := List.eq_nil_iff_forall_not_mem.mpr fun x hx =>
      (List.eq_nil_iff_forall_not_mem.mp (List.max?_eq_none_iff.mp h₁)) x ((h x).mpr hx)
    rw [hNil, List.max?_nil]
  · obtain ⟨hm, hLe⟩ := List.max?_eq_some_iff.mp h₁
    exact (List.max?_eq_some_iff.mpr ⟨(h m).mp hm, fun b hb => hLe b ((h b).mpr hb)⟩).symm

/-- Changing the last element commutes with dropping the first. -/
theorem modifyLast_tail_concat (f : α → α) : ∀ (l : List α) (x : α),
    (l ++ [x]).tail.modifyLast f = (l ++ [f x]).tail
  | [], _ => rfl
  | _ :: l, x => by simp [List.modifyLast_concat]

/-- A chain stays one with an element appended that its last element is related to. -/
theorem isChain_append_singleton {R : α → α → Prop} {l : List α} {b : α} (h : l.IsChain R)
    (hb : ∀ a ∈ l.getLast?, R a b) : (l ++ [b]).IsChain R :=
  h.append (List.isChain_singleton b) fun a ha _ hc => by
    rw [List.head?_singleton, Option.mem_def, Option.some.injEq] at hc
    exact hc ▸ hb a ha

end Lib.List
