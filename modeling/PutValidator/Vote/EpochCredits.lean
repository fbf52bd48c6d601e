import PutValidator.Lib.List
import PutValidator.Stake.Credits

/-! The credit history of a vote account under a run of `increment_credits` calls
(`sdk/program/src/vote/state/mod.rs`).

Starting from an empty history, calls whose epochs never go back and whose credits sum below
`2^128` build a history of at most `MAX_EPOCH_CREDITS_HISTORY` entries `(epoch, credits, prev)`
with strictly increasing epochs. Each entry starts where the one before it ended, every entry but
the newest earned something (an epoch that earned nothing is moved to the next epoch, not kept),
the newest holds every credit earned, and each entry holds exactly the credits of its epoch's
calls (`incrementCredits_history`). `CreditHistory` is that invariant, less the bound on the
length. -/
namespace PutValidator.Vote

open Lib.Word

namespace VoteState

/-- A run of `increment_credits` calls, each an `(epoch, credits)` pair, oldest first. -/
def incrementCreditsRun (s : VoteState) (calls : List (Nat × Nat)) : VoteState :=
  calls.foldl (fun s call => s.incrementCredits call.1 call.2) s

theorem incrementCreditsRun_concat (s : VoteState) (calls : List (Nat × Nat)) (call : Nat × Nat) :
    s.incrementCreditsRun (calls ++ [call]) =
      (s.incrementCreditsRun calls).incrementCredits call.1 call.2 := by
  simp [incrementCreditsRun]

end VoteState

/-- The credits of the calls made in `epoch`. -/
def earnedIn (calls : List (Nat × Nat)) (epoch : Nat) : Nat :=
  ((calls.filter fun call => call.1 = epoch).map Prod.snd).sum

theorem earnedIn_concat (calls : List (Nat × Nat)) (call : Nat × Nat) (epoch : Nat) :
    earnedIn (calls ++ [call]) epoch = earnedIn calls epoch + if call.1 = epoch then call.2 else 0 := by
  unfold earnedIn
  split_ifs <;> simp [*]

theorem earnedIn_eq_zero {calls : List (Nat × Nat)} {epoch : Nat}
    (h : ∀ call ∈ calls, call.1 ≠ epoch) : earnedIn calls epoch = 0 := by
  unfold earnedIn
  rw [List.filter_eq_nil_iff.mpr (fun call hc => by simpa using h call hc)]
  rfl

/-- What a credit history built by `increment_credits` says of the calls that built it. -/
structure CreditHistory (calls : List (Nat × Nat)) (history : List (Nat × Nat × Nat)) : Prop where
  epochs_lt : history.Pairwise fun a b => a.1 < b.1
  prev_le : ∀ x ∈ history, x.2.2 ≤ x.2.1
  chain : history.IsChain fun a b => b.2.2 = a.2.1
  earned_pos : ∀ x ∈ history.dropLast, x.2.2 < x.2.1
  earned_eq : ∀ x ∈ history, x.2.1 - x.2.2 = earnedIn calls x.1
  nil : history = [] → calls = []
  /-- The newest entry holds every credit, and it is the epoch of the latest call. -/
  last : ∀ x ∈ history.getLast?, x.2.1 = (calls.map Prod.snd).sum ∧ x.1 ∈ calls.map Prod.fst ∧
    ∀ call ∈ calls, call.1 ≤ x.1

namespace CreditHistory

variable {calls : List (Nat × Nat)}

theorem nil_nil : CreditHistory [] [] :=
  ⟨.nil, nofun, .nil, nofun, nofun, fun _ => rfl, nofun⟩

/-- Dropping the oldest entry of a history of two or more keeps the newest. -/
theorem tail {history : List (Nat × Nat × Nat)} (h : CreditHistory calls history)
    (hLen : 2 ≤ history.length) : CreditHistory calls history.tail where
  epochs_lt := h.epochs_lt.sublist (List.tail_sublist _)
  prev_le x hx := h.prev_le x (List.mem_of_mem_tail hx)
  chain := h.chain.tail
  earned_pos x hx := by
    rw [← List.tail_dropLast] at hx
    exact h.earned_pos x (List.mem_of_mem_tail hx)
  earned_eq x hx := h.earned_eq x (List.mem_of_mem_tail hx)
  nil hNil := by
    have := congrArg List.length hNil
    simp at this
    omega
  last x hx := by
    rw [List.getLast?_tail, if_neg (by omega)] at hx
    exact h.last x hx

/-- The pieces of a history split at its newest entry. -/
theorem of_concat {init : List (Nat × Nat × Nat)} {e c p : Nat}
    (h : CreditHistory calls (init ++ [(e, c, p)])) :
    (∀ a ∈ init, a.1 < e) ∧ (∀ a ∈ init.getLast?, p = a.2.1) ∧ p ≤ c ∧
      c = (calls.map Prod.snd).sum ∧ e ∈ calls.map Prod.fst ∧ ∀ call ∈ calls, call.1 ≤ e := by
  have hLast := h.last (e, c, p) (by simp)
  refine ⟨fun a ha => ?_, fun a ha => ?_, h.prev_le (e, c, p) (by simp), hLast⟩
  · exact (List.pairwise_append.mp h.epochs_lt).2.2 a ha (e, c, p) (by simp)
  · exact (List.isChain_append.mp h.chain).2.2 a ha (e, c, p) rfl

/-- A call in the epoch of the newest entry adds its credits to it. -/
theorem concat_same_epoch {init : List (Nat × Nat × Nat)} {epoch lc lp credits : Nat}
    (h : CreditHistory calls (init ++ [(epoch, lc, lp)])) :
    CreditHistory (calls ++ [(epoch, credits)]) (init ++ [(epoch, lc + credits, lp)]) := by
  obtain ⟨hBefore, hLink, hPrev, hTotal, hMem, hCalls⟩ := h.of_concat
  have hInit : ∀ a ∈ init, a ∈ init ++ [(epoch, lc, lp)] := fun a ha => List.mem_append_left _ ha
  refine ⟨?_, fun x hx => ?_, ?_, ?_, fun x hx => ?_, by simp, fun x hx => ?_⟩
  · exact List.pairwise_append.mpr ⟨(List.pairwise_append.mp h.epochs_lt).1, by simp,
      fun a ha b hb => by rw [List.mem_singleton.mp hb]; exact hBefore a ha⟩
  · rcases List.mem_append.mp hx with hx | hx
    · exact h.prev_le x (hInit x hx)
    · rw [List.mem_singleton.mp hx]
      simp only
      omega
  · exact List.isChain_append.mpr ⟨(List.isChain_append.mp h.chain).1, List.isChain_singleton _,
      fun a ha b hb => by cases hb; exact hLink a ha⟩
  · simpa using h.earned_pos
  · rw [earnedIn_concat]
    rcases List.mem_append.mp hx with hx | hx
    · rw [if_neg (ne_of_gt (hBefore x hx)), h.earned_eq x (hInit x hx)]
      rfl
    · rw [List.mem_singleton.mp hx, if_pos rfl]
      have hEq := h.earned_eq (epoch, lc, lp) (by simp)
      simp only at hEq ⊢
      omega
  · simp only [List.getLast?_concat, Option.mem_def, Option.some.injEq] at hx
    subst hx
    refine ⟨by simp [hTotal], by simp, fun call hc => ?_⟩
    rcases List.mem_append.mp hc with hc | hc
    · exact hCalls call hc
    · rw [List.mem_singleton.mp hc]

/-- A call in a later epoch, after an epoch that earned credits, opens an entry for its epoch
starting where the newest ended. -/
theorem concat_new_epoch {init : List (Nat × Nat × Nat)} {le lc lp epoch credits : Nat}
    (h : CreditHistory calls (init ++ [(le, lc, lp)])) (hEarned : lc ≠ lp) (hLt : le < epoch) :
    CreditHistory (calls ++ [(epoch, credits)])
      ((init ++ [(le, lc, lp)]) ++ [(epoch, lc + credits, lc)]) := by
  obtain ⟨hBefore, hLink, hPrev, hTotal, hMem, hCalls⟩ := h.of_concat
  have hNone : earnedIn calls epoch = 0 :=
    earnedIn_eq_zero fun call hc => ne_of_lt (lt_of_le_of_lt (hCalls call hc) hLt)
  have hOld : ∀ x ∈ init ++ [(le, lc, lp)], x.1 < epoch := fun x hx => by
    rcases List.mem_append.mp hx with hx | hx
    · exact lt_trans (hBefore x hx) hLt
    · rw [List.mem_singleton.mp hx]
      exact hLt
  refine ⟨?_, fun x hx => ?_, ?_, ?_, fun x hx => ?_, by simp, fun x hx => ?_⟩
  · exact List.pairwise_append.mpr ⟨h.epochs_lt, by simp,
      fun a ha b hb => by rw [List.mem_singleton.mp hb]; exact hOld a ha⟩
  · rcases List.mem_append.mp hx with hx | hx
    · exact h.prev_le x hx
    · rw [List.mem_singleton.mp hx]
      simp only
      omega
  · exact List.isChain_append.mpr ⟨h.chain, List.isChain_singleton _,
      fun a ha b hb => by simp at ha hb; subst ha hb; rfl⟩
  · rw [List.dropLast_concat]
    intro x hx
    rcases List.mem_append.mp hx with hx | hx
    · exact h.earned_pos x (by simpa using hx)
    · rw [List.mem_singleton.mp hx]
      exact lt_of_le_of_ne hPrev (Ne.symm hEarned)
  · rw [earnedIn_concat]
    rcases List.mem_append.mp hx with hx | hx
    · rw [if_neg (ne_of_gt (hOld x hx)), h.earned_eq x hx]
      rfl
    · rw [List.mem_singleton.mp hx, if_pos rfl, hNone]
      simp
  · simp only [List.getLast?_concat, Option.mem_def, Option.some.injEq] at hx
    subst hx
    refine ⟨by simp [hTotal], by simp, fun call hc => ?_⟩
    rcases List.mem_append.mp hc with hc | hc
    · exact le_of_lt (lt_of_le_of_lt (hCalls call hc) hLt)
    · rw [List.mem_singleton.mp hc]

/-- A call in a later epoch, after an epoch that earned nothing, moves that entry to its
epoch. -/
theorem concat_moved_epoch {init : List (Nat × Nat × Nat)} {le lc lp epoch credits : Nat}
    (h : CreditHistory calls (init ++ [(le, lc, lp)])) (hEmpty : lc = lp) (hLt : le < epoch) :
    CreditHistory (calls ++ [(epoch, credits)]) (init ++ [(epoch, lc + credits, lp)]) := by
  obtain ⟨hBefore, hLink, hPrev, hTotal, hMem, hCalls⟩ := h.of_concat
  have hNone : earnedIn calls epoch = 0 :=
    earnedIn_eq_zero fun call hc => ne_of_lt (lt_of_le_of_lt (hCalls call hc) hLt)
  have hInit : ∀ a ∈ init, a ∈ init ++ [(le, lc, lp)] := fun a ha => List.mem_append_left _ ha
  refine ⟨?_, fun x hx => ?_, ?_, ?_, fun x hx => ?_, by simp, fun x hx => ?_⟩
  · exact List.pairwise_append.mpr ⟨(List.pairwise_append.mp h.epochs_lt).1, by simp,
      fun a ha b hb => by rw [List.mem_singleton.mp hb]; exact lt_trans (hBefore a ha) hLt⟩
  · rcases List.mem_append.mp hx with hx | hx
    · exact h.prev_le x (hInit x hx)
    · rw [List.mem_singleton.mp hx]
      simp only
      omega
  · exact List.isChain_append.mpr ⟨(List.isChain_append.mp h.chain).1, List.isChain_singleton _,
      fun a ha b hb => by cases hb; exact hLink a ha⟩
  · simpa using h.earned_pos
  · rw [earnedIn_concat]
    rcases List.mem_append.mp hx with hx | hx
    · rw [if_neg (ne_of_gt (lt_trans (hBefore x hx) hLt)), h.earned_eq x (hInit x hx)]
      rfl
    · rw [List.mem_singleton.mp hx, if_pos rfl, hNone]
      simp only
      omega
  · simp only [List.getLast?_concat, Option.mem_def, Option.some.injEq] at hx
    subst hx
    refine ⟨by simp [hTotal], by simp, fun call hc => ?_⟩
    rcases List.mem_append.mp hc with hc | hc
    · exact le_of_lt (lt_of_le_of_lt (hCalls call hc) hLt)
    · rw [List.mem_singleton.mp hc]

/-- Dropping the oldest entry when there is one too many keeps the history. -/
theorem trim {history : List (Nat × Nat × Nat)} {x : Nat × Nat × Nat} {n : Nat}
    (h : CreditHistory calls (history ++ [x])) (hn : n = history.length + 1)
    (hLen : history.length ≤ maxEpochCreditsHistory) :
    CreditHistory calls (if maxEpochCreditsHistory < n then (history ++ [x]).tail
      else history ++ [x]) ∧
      (if maxEpochCreditsHistory < n then (history ++ [x]).tail
        else history ++ [x]).length ≤ maxEpochCreditsHistory := by
  subst hn
  split_ifs with hFull
  · exact ⟨h.tail (by simp [maxEpochCreditsHistory] at hFull ⊢; omega), by simp; omega⟩
  · exact ⟨h, by simp; omega⟩

/-- `VoteState::credits` is every credit of the calls. -/
theorem credits_eq {s : VoteState} (h : CreditHistory calls s.epochCredits) :
    s.credits = (calls.map Prod.snd).sum := by
  unfold VoteState.credits
  rcases hLast : s.epochCredits.getLast? with _ | ⟨e, c, p⟩
  · rw [h.nil (List.getLast?_eq_none_iff.mp hLast)]
    rfl
  · exact (h.last (e, c, p) hLast).1

end CreditHistory

/-- One `increment_credits` call, in an epoch no earlier than any call before it and with the
credits staying within `u128`, keeps the history and its bound. -/
theorem creditHistory_incrementCredits {s : VoteState} {calls : List (Nat × Nat)}
    (h : CreditHistory calls s.epochCredits) (hLen : s.epochCredits.length ≤ maxEpochCreditsHistory)
    {epoch credits : Nat} (hEpoch : ∀ call ∈ calls, call.1 ≤ epoch)
    (hSum : (calls.map Prod.snd).sum + credits ≤ maxValue 128) :
    CreditHistory (calls ++ [(epoch, credits)]) (s.incrementCredits epoch credits).epochCredits ∧
      (s.incrementCredits epoch credits).epochCredits.length ≤ maxEpochCreditsHistory := by
  rcases List.eq_nil_or_concat' s.epochCredits with hNil | ⟨init, ⟨le, lc, lp⟩, hSplit⟩
  · -- the first call opens the history
    obtain rfl := h.nil hNil
    have hBound : 0 + credits ≤ maxValue 128 := by simpa using hSum
    have hSat : saturatingAdd 128 0 credits = credits :=
      (saturatingAdd_of_le hBound).trans (Nat.zero_add credits)
    have hHistory : (s.incrementCredits epoch credits).epochCredits = [(epoch, credits, 0)] := by
      simp only [VoteState.incrementCredits, hNil, List.getLast?_nil]
      rw [← List.nil_append [(epoch, 0, 0)], List.modifyLast_concat, hSat]
      rfl
    rw [hHistory]
    exact ⟨⟨by simp, by simp, by simp, by simp, by simp [earnedIn], by simp, by simp⟩,
      by simp [maxEpochCreditsHistory]⟩
  rw [hSplit] at h hLen
  obtain ⟨-, -, -, hTotal, hMem, -⟩ := h.of_concat
  have hSat : saturatingAdd 128 lc credits = lc + credits := saturatingAdd_of_le (hTotal ▸ hSum)
  have hLe : le ≤ epoch := by
    obtain ⟨call, hc, hFst⟩ := List.mem_map.mp hMem
    exact hFst ▸ hEpoch call hc
  have hInitLen : init.length + 1 ≤ maxEpochCreditsHistory := by simpa using hLen
  simp only [VoteState.incrementCredits, hSplit, List.getLast?_concat]
  by_cases hEq : epoch = le
  · -- the same epoch: the newest entry takes the credits
    subst hEq
    rw [if_pos rfl, List.modifyLast_concat]
    simp only [hSat]
    exact ⟨h.concat_same_epoch, by simpa using hLen⟩
  have hLt : le < epoch := lt_of_le_of_ne hLe (Ne.symm hEq)
  rw [if_neg hEq, apply_ite (List.modifyLast _)]
  by_cases hEarned : lc ≠ lp
  · -- the newest entry earned credits: a new entry opens after it
    rw [if_pos hEarned, Lib.List.modifyLast_tail_concat, List.modifyLast_concat]
    simp only [hSat]
    exact (h.concat_new_epoch hEarned hLt).trim (by simp) (by simpa using hInitLen)
  · -- the newest entry earned nothing: it moves to the new epoch
    rw [if_neg hEarned, List.dropLast_concat, Lib.List.modifyLast_tail_concat,
      List.modifyLast_concat]
    simp only [hSat]
    exact (h.concat_moved_epoch (not_not.mp hEarned) hLt).trim (by simp) (by omega)

/-- A whole run from an empty history, with epochs that never go back and credits that sum
within `u128`. -/
theorem creditHistory_incrementCreditsRun {s : VoteState} (hEmpty : s.epochCredits = []) :
    ∀ {calls : List (Nat × Nat)}, calls.Pairwise (fun a b => a.1 ≤ b.1) →
      (calls.map Prod.snd).sum ≤ maxValue 128 →
      CreditHistory calls (s.incrementCreditsRun calls).epochCredits ∧
        (s.incrementCreditsRun calls).epochCredits.length ≤ maxEpochCreditsHistory := by
  intro calls
  induction calls using List.reverseRecOn with
  | nil =>
      intro _ _
      simp only [VoteState.incrementCreditsRun, List.foldl_nil, hEmpty]
      exact ⟨CreditHistory.nil_nil, Nat.zero_le _⟩
  | append_singleton calls call ih =>
      intro hPairwise hSum
      obtain ⟨hPrefix, -, hLast⟩ := List.pairwise_append.mp hPairwise
      have hSumPrefix : (calls.map Prod.snd).sum + call.2 ≤ maxValue 128 := by simpa using hSum
      obtain ⟨hHistory, hLen⟩ := ih hPrefix (by omega)
      rw [VoteState.incrementCreditsRun_concat]
      exact creditHistory_incrementCredits hHistory hLen
        (fun c hc => hLast c hc call (List.mem_singleton_self call)) hSumPrefix

/-- After every call of a run of `increment_credits` from an empty history, with epochs that
never go back and credits that sum below `2^128`, the history has at most
`MAX_EPOCH_CREDITS_HISTORY` entries with strictly increasing epochs, each entry starts where the
one before it ended and none but the newest is empty, `credits()` is the sum of all credits, and
each entry holds the credits of its epoch's calls. -/
theorem incrementCredits_history (s : VoteState) (hEmpty : s.epochCredits = [])
    (calls : List (Nat × Nat)) (hEpochs : calls.IsChain fun a b => a.1 ≤ b.1)
    (hSum : (calls.map Prod.snd).sum < 2 ^ 128) (n : Nat) :
    let history := (s.incrementCreditsRun (calls.take n)).epochCredits
    history.length ≤ maxEpochCreditsHistory ∧ history.Pairwise (fun a b => a.1 < b.1) ∧
      (∀ x ∈ history, x.2.2 ≤ x.2.1) ∧ history.IsChain (fun a b => b.2.2 = a.2.1) ∧
      (∀ x ∈ history.dropLast, x.2.2 < x.2.1) ∧
      (s.incrementCreditsRun (calls.take n)).credits = ((calls.take n).map Prod.snd).sum ∧
      ∀ x ∈ history, x.2.1 - x.2.2 = earnedIn (calls.take n) x.1 := by
  have hPairwise : calls.Pairwise fun a b => a.1 ≤ b.1 :=
    List.isChain_iff_pairwise.mp (hEpochs.imp fun _ _ h => h)
  have hTake : ((calls.take n).map Prod.snd).sum ≤ maxValue 128 := by
    have hSplit := List.sum_take_add_sum_drop (calls.map Prod.snd) n
    rw [← List.map_take] at hSplit
    unfold maxValue
    omega
  obtain ⟨h, hLen⟩ := creditHistory_incrementCreditsRun hEmpty
    (hPairwise.sublist (List.take_sublist n calls)) hTake
  exact ⟨hLen, h.epochs_lt, h.prev_le, h.chain, h.earned_pos, h.credits_eq, h.earned_eq⟩

/-- Three calls: epoch 1 earns nothing and is moved to epoch 2. -/
theorem incrementCredits_history_moves_empty_epoch :
    (VoteState.default.incrementCreditsRun [(0, 1), (1, 0), (2, 5)]).epochCredits =
      [(0, 1, 0), (2, 6, 1)] ∧
    let history := (VoteState.default.incrementCreditsRun ([(0, 1), (1, 0), (2, 5)].take 3)).epochCredits
    history.length ≤ maxEpochCreditsHistory ∧ history.Pairwise (fun a b => a.1 < b.1) ∧
      (∀ x ∈ history, x.2.2 ≤ x.2.1) ∧ history.IsChain (fun a b => b.2.2 = a.2.1) ∧
      (∀ x ∈ history.dropLast, x.2.2 < x.2.1) ∧
      (VoteState.default.incrementCreditsRun ([(0, 1), (1, 0), (2, 5)].take 3)).credits =
        (([(0, 1), (1, 0), (2, 5)].take 3).map Prod.snd).sum ∧
      ∀ x ∈ history, x.2.1 - x.2.2 = earnedIn ([(0, 1), (1, 0), (2, 5)].take 3) x.1 :=
  ⟨by decide, incrementCredits_history _ rfl _ (by decide) (by decide) 3⟩

end PutValidator.Vote
