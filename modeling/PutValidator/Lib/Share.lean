import Mathlib

/-! Shares of an amount in proportion to weights, each rounded down. The shares of weights that
sum to the total add up to at most the amount, and fall short of it by less than the number of
weights: each share loses less than one to the rounding. A distribution that rounds every share
down and hands the shortfall out one unit at a time therefore needs at most one extra unit per
weight. -/
namespace Lib.Share

/-- The share of `amount` that the weight `w` takes of `total`, rounded down. -/
def share (total amount w : Nat) : Nat := w * amount / total

/-- What the rounding of each share drops. -/
def remainder (total amount w : Nat) : Nat := w * amount % total

variable {total amount : Nat}

/-- The shares and what their rounding drops make up the weights' part of the amount. -/
theorem total_mul_sum_share_add_sum_remainder (ws : List Nat) :
    total * (ws.map (share total amount)).sum + (ws.map (remainder total amount)).sum =
      ws.sum * amount := by
  induction ws with
  | nil => simp
  | cons w ws ih =>
      have hSplit : total * share total amount w + remainder total amount w = w * amount :=
        Nat.div_add_mod (w * amount) total
      simp only [List.map_cons, List.sum_cons, Nat.mul_add, Nat.add_mul]
      omega

theorem remainder_lt (hPos : 0 < total) (w : Nat) : remainder total amount w < total :=
  Nat.mod_lt _ hPos

/-- Each rounding drops less than the total, so all of them less than the total once per
weight. -/
theorem sum_remainder_lt (hPos : 0 < total) {ws : List Nat} (hNonempty : ws ≠ []) :
    (ws.map (remainder total amount)).sum < ws.length * total := by
  induction ws with
  | nil => exact absurd rfl hNonempty
  | cons w ws ih =>
      have hHead : remainder total amount w < total := remainder_lt hPos w
      simp only [List.map_cons, List.sum_cons, List.length_cons, Nat.succ_mul]
      by_cases hRest : ws = []
      · subst hRest
        simp only [List.map_nil, List.sum_nil, List.length_nil, Nat.zero_mul, Nat.zero_add]
        omega
      · have hTail := ih hRest
        omega

/-- The shares of weights that make up the total add up to at most the amount. -/
theorem sum_share_le {ws : List Nat} (hSum : ws.sum = total) :
    (ws.map (share total amount)).sum ≤ amount := by
  rcases Nat.eq_zero_or_pos total with hZero | hPos
  · -- every share of a zero total is zero
    have hShares : ∀ s ∈ ws.map (share total amount), s = 0 := by
      intro s hs
      obtain ⟨w, -, rfl⟩ := List.mem_map.mp hs
      simp [share, hZero]
    rw [List.sum_eq_zero hShares]
    exact Nat.zero_le _
  · have hParts : total * (ws.map (share total amount)).sum +
        (ws.map (remainder total amount)).sum = ws.sum * amount :=
      total_mul_sum_share_add_sum_remainder ws
    rw [hSum] at hParts
    have hLe : total * (ws.map (share total amount)).sum ≤ total * amount := by
      omega
    exact Nat.le_of_mul_le_mul_left hLe hPos

/-- The shares fall short of the amount by less than the number of weights. -/
theorem lt_sum_share_add_length {ws : List Nat} (hSum : ws.sum = total) (hPos : 0 < total) :
    amount < (ws.map (share total amount)).sum + ws.length := by
  have hNonempty : ws ≠ [] := by
    rintro rfl
    simp at hSum
    omega
  have hParts : total * (ws.map (share total amount)).sum +
      (ws.map (remainder total amount)).sum = ws.sum * amount :=
    total_mul_sum_share_add_sum_remainder ws
  have hDropped : (ws.map (remainder total amount)).sum < ws.length * total :=
    sum_remainder_lt hPos hNonempty
  rw [hSum] at hParts
  have hLt : total * amount < total * ((ws.map (share total amount)).sum + ws.length) := by
    rw [Nat.mul_add, Nat.mul_comm total ws.length]
    omega
  exact Nat.lt_of_mul_lt_mul_left hLt

end Lib.Share
