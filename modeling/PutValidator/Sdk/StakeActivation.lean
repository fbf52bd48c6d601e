import PutValidator.Lib.Binary64
import PutValidator.Lib.Word

/-! Stake warmup and cooldown (`sdk/program/src/stake/state.rs`, `stake_history.rs`).
`Delegation::stake_activating_and_deactivating` walks the stake history from the activation
epoch: each epoch the delegation takes a share of the cluster's newly effective stake, at least
1, until it is fully effective, the target or the deactivation epoch is reached, or the history
has no entry. From the deactivation epoch a second loop gives the stake back the same way.

The share is the `f64` product `((stake / cluster) * (cluster_effective * rate)) as u128`, which
`f64Share` computes in binary64; the loops are written for any function `share` in its place, so
that what is proved holds whatever the floating-point arithmetic yields. A stake history is read
only through `get`, and is that function here. Amounts are `u128`: the warmup sum
`current_effective_stake += newly_effective_stake` wraps modulo `2^128` as in a release build,
and `saturating_sub` stops at 0. -/
namespace PutValidator

open Lib.Word Lib.Binary64

structure StakeHistoryEntry where
  effective : Nat
  activating : Nat
  deactivating : Nat
deriving DecidableEq, Repr

/-- `StakeActivationStatus` is `StakeHistoryEntry`. -/
abbrev StakeActivationStatus := StakeHistoryEntry

namespace StakeHistoryEntry

def withEffective (effective : Nat) : StakeHistoryEntry := ⟨effective, 0, 0⟩

def withEffectiveAndActivating (effective activating : Nat) : StakeHistoryEntry :=
  ⟨effective, activating, 0⟩

def withDeactivating (deactivating : Nat) : StakeHistoryEntry := ⟨deactivating, 0, deactivating⟩

end StakeHistoryEntry

/-- The fields of `Delegation` that its methods read. -/
structure Delegation where
  stake : Nat
  activationEpoch : Nat
  deactivationEpoch : Nat
deriving DecidableEq, Repr

/-- `DEFAULT_WARMUP_COOLDOWN_RATE` and `NEW_WARMUP_COOLDOWN_RATE`: the binary64 values of `0.25`
and `0.09`. -/
def defaultWarmupCooldownRate : F64 := .finite 1 (-2)

def newWarmupCooldownRate : F64 := .finite 3242591731706757 (-55)

def warmupCooldownRate (currentEpoch : Nat) (newRateActivationEpoch : Option Nat) : F64 :=
  if currentEpoch < newRateActivationEpoch.getD (maxValue 64) then defaultWarmupCooldownRate
  else newWarmupCooldownRate

/-- The share of the source: of the cluster's `clusterStake` activating or deactivating stake,
`stake` is entitled to its part of `cluster_effective * rate`. -/
def f64Share (newRateActivationEpoch : Option Nat)
    (stake clusterStake clusterEffective currentEpoch : Nat) : Nat :=
  let weight := F64.ofNat stake / F64.ofNat clusterStake
  let newlyClusterStake :=
    F64.ofNat clusterEffective * warmupCooldownRate currentEpoch newRateActivationEpoch
  (weight * newlyClusterStake).toNatSat 128

namespace Delegation

variable (share : Nat → Nat → Nat → Nat → Nat)

def isBootstrap (d : Delegation) : Bool := d.activationEpoch == maxValue 64

/-- The warmup loop of `stake_and_activating`, from `prevEpoch`, where the cluster's stake was
`prevClusterStake`, with `currentEffectiveStake` effective. -/
def warmupLoop (d : Delegation) (targetEpoch : Nat) (history : Nat → Option StakeHistoryEntry)
    (prevEpoch : Nat) (prevClusterStake : StakeHistoryEntry) (currentEffectiveStake : Nat) : Nat :=
  let currentEpoch := prevEpoch + 1
  if prevClusterStake.activating = 0 then currentEffectiveStake
  else
    let remainingActivatingStake := d.stake - currentEffectiveStake
    let newlyEffectiveStake :=
      max (share remainingActivatingStake prevClusterStake.activating prevClusterStake.effective
        currentEpoch) 1
    let currentEffectiveStake := (currentEffectiveStake + newlyEffectiveStake) % 2 ^ 128
    if currentEffectiveStake ≥ d.stake then d.stake
    else if currentEpoch ≥ targetEpoch ∨ currentEpoch ≥ d.deactivationEpoch then
      currentEffectiveStake
    else
      match history currentEpoch with
      | some currentClusterStake =>
          warmupLoop d targetEpoch history currentEpoch currentClusterStake currentEffectiveStake
      | none => currentEffectiveStake
termination_by targetEpoch - prevEpoch

/-- `stake_and_activating`: the effective and the activating stake at `targetEpoch`. -/
def stakeAndActivating (d : Delegation) (targetEpoch : Nat)
    (history : Option (Nat → Option StakeHistoryEntry)) : Nat × Nat :=
  let delegatedStake := d.stake
  if d.isBootstrap then (delegatedStake, 0)
  else if d.activationEpoch = d.deactivationEpoch then (0, 0)
  else if targetEpoch = d.activationEpoch then (0, delegatedStake)
  else if targetEpoch < d.activationEpoch then (0, 0)
  else
    match history with
    | some history =>
        match history d.activationEpoch with
        | some clusterStakeAtActivationEpoch =>
            let currentEffectiveStake :=
              warmupLoop share d targetEpoch history d.activationEpoch
                clusterStakeAtActivationEpoch 0
            (currentEffectiveStake, delegatedStake - currentEffectiveStake)
        | none => (delegatedStake, 0)
    | none => (delegatedStake, 0)

/-- The cooldown loop of `stake_activating_and_deactivating`, from `prevEpoch`, where the
cluster's stake was `prevClusterStake`, with `currentEffectiveStake` still effective. -/
def cooldownLoop (targetEpoch : Nat) (history : Nat → Option StakeHistoryEntry)
    (prevEpoch : Nat) (prevClusterStake : StakeHistoryEntry) (currentEffectiveStake : Nat) : Nat :=
  let currentEpoch := prevEpoch + 1
  if prevClusterStake.deactivating = 0 then currentEffectiveStake
  else
    let newlyNotEffectiveStake :=
      max (share currentEffectiveStake prevClusterStake.deactivating prevClusterStake.effective
        currentEpoch) 1
    let currentEffectiveStake := currentEffectiveStake - newlyNotEffectiveStake
    if currentEffectiveStake = 0 then 0
    else if currentEpoch ≥ targetEpoch then currentEffectiveStake
    else
      match history currentEpoch with
      | some currentClusterStake =>
          cooldownLoop targetEpoch history currentEpoch currentClusterStake currentEffectiveStake
      | none => currentEffectiveStake
termination_by targetEpoch - prevEpoch

def stakeActivatingAndDeactivating (d : Delegation) (targetEpoch : Nat)
    (history : Option (Nat → Option StakeHistoryEntry)) : StakeActivationStatus :=
  let (effectiveStake, activatingStake) := d.stakeAndActivating share targetEpoch history
  if targetEpoch < d.deactivationEpoch then
    if activatingStake = 0 then .withEffective effectiveStake
    else .withEffectiveAndActivating effectiveStake activatingStake
  else if targetEpoch = d.deactivationEpoch then
    -- can only deactivate what's activated
    .withDeactivating effectiveStake
  else
    match history with
    | some history =>
        match history d.deactivationEpoch with
        | some clusterStakeAtDeactivationEpoch =>
            .withDeactivating
              (cooldownLoop share targetEpoch history d.deactivationEpoch
                clusterStakeAtDeactivationEpoch effectiveStake)
        | none => ⟨0, 0, 0⟩
    | none => ⟨0, 0, 0⟩

end Delegation

/-- `Delegation::stake`: the effective stake at `epoch`, with the source's `f64` share. -/
def Delegation.stakeAtEpoch (d : Delegation) (epoch : Nat)
    (history : Option (Nat → Option StakeHistoryEntry)) (newRateActivationEpoch : Option Nat) :
    Nat :=
  (d.stakeActivatingAndDeactivating (f64Share newRateActivationEpoch) epoch history).effective

/-! ### The warmup and cooldown loops -/

namespace Delegation

variable (share : Nat → Nat → Nat → Nat → Nat)

/-- No warmup step over `history` wraps: at each epoch the loop can start a step from, from the
activation epoch to the one before deactivation, an effective stake below the delegation's plus
one more share of that epoch's entry stays below `2^128`. -/
def WarmupNoWrap (d : Delegation) (history : Nat → Option StakeHistoryEntry) : Prop :=
  ∀ epoch entry, d.activationEpoch ≤ epoch → epoch < d.deactivationEpoch →
    history epoch = some entry → ∀ c < d.stake,
      c + max (share (d.stake - c) entry.activating entry.effective (epoch + 1)) 1 < 2 ^ 128

variable {share} {d : Delegation}

/-- Without a wrap a step of the warmup loop adds at least 1. -/
theorem WarmupNoWrap.lt_step {history : Nat → Option StakeHistoryEntry}
    (hNo : d.WarmupNoWrap share history) {epoch : Nat} {entry : StakeHistoryEntry}
    (hFrom : d.activationEpoch ≤ epoch) (hBefore : epoch < d.deactivationEpoch)
    (hEntry : history epoch = some entry) {c : Nat} (hc : c < d.stake) :
    c < (c + max (share (d.stake - c) entry.activating entry.effective (epoch + 1)) 1) % 2 ^ 128 := by
  have hLt := hNo epoch entry hFrom hBefore hEntry c hc
  rw [Nat.mod_eq_of_lt hLt]
  have := le_max_right (share (d.stake - c) entry.activating entry.effective (epoch + 1)) 1
  omega

section Loops

variable {targetEpoch : Nat} {history : Nat → Option StakeHistoryEntry}

/-- The warmup loop ends at or below the delegated stake. -/
theorem warmupLoop_le {prevEpoch : Nat} {prevClusterStake : StakeHistoryEntry} {c : Nat}
    (hc : c ≤ d.stake) :
    d.warmupLoop share targetEpoch history prevEpoch prevClusterStake c ≤ d.stake := by
  fun_induction d.warmupLoop share targetEpoch history prevEpoch prevClusterStake c with
  | case1 => exact hc
  | case2 => exact Nat.le_refl _
  | case3 _ _ _ _ _ _ _ _ hClamp => exact Nat.le_of_not_le hClamp
  | case4 _ _ _ _ _ _ _ _ hClamp _ _ _ ih => exact ih (Nat.le_of_not_le hClamp)
  | case5 _ _ _ _ _ _ _ _ hClamp => exact Nat.le_of_not_le hClamp

/-- Without a wrap the warmup loop never lowers the effective stake. The loop starts each step
from an epoch before deactivation whose entry it read. -/
theorem le_warmupLoop (hNo : d.WarmupNoWrap share history) {prevEpoch : Nat}
    {prevClusterStake : StakeHistoryEntry} {c : Nat} (hc : c < d.stake)
    (hFrom : d.activationEpoch ≤ prevEpoch) (hBefore : prevEpoch < d.deactivationEpoch)
    (hPrev : history prevEpoch = some prevClusterStake) :
    c ≤ d.warmupLoop share targetEpoch history prevEpoch prevClusterStake c := by
  fun_induction d.warmupLoop share targetEpoch history prevEpoch prevClusterStake c with
  | case1 => exact Nat.le_refl _
  | case2 => exact Nat.le_of_lt hc
  | case3 => exact Nat.le_of_lt (hNo.lt_step hFrom hBefore hPrev hc)
  | case4 p prev c _ _ _ _ _ hClamp hStop _ hGet ih =>
      have hStop' : ¬(p + 1 ≥ targetEpoch ∨ p + 1 ≥ d.deactivationEpoch) := hStop
      exact Nat.le_trans (Nat.le_of_lt (hNo.lt_step hFrom hBefore hPrev hc))
        (ih (Nat.lt_of_not_le hClamp) (Nat.le_succ_of_le hFrom) (by omega) hGet)
  | case5 => exact Nat.le_of_lt (hNo.lt_step hFrom hBefore hPrev hc)

/-- Without a wrap a later target ends the warmup at least as high: it walks the same epochs
and may walk on. -/
theorem warmupLoop_mono (hNo : d.WarmupNoWrap share history) {t₁ t₂ : Nat} (ht : t₁ ≤ t₂)
    {prevEpoch : Nat} {prevClusterStake : StakeHistoryEntry} {c : Nat} (hc : c < d.stake)
    (hFrom : d.activationEpoch ≤ prevEpoch) (hBefore : prevEpoch < d.deactivationEpoch)
    (hPrev : history prevEpoch = some prevClusterStake) :
    d.warmupLoop share t₁ history prevEpoch prevClusterStake c ≤
      d.warmupLoop share t₂ history prevEpoch prevClusterStake c := by
  fun_induction d.warmupLoop share t₁ history prevEpoch prevClusterStake c with
  | case1 p prev c hAct =>
      conv_rhs => rw [warmupLoop]
      simp only [if_pos hAct, Nat.le_refl]
  | case2 p prev c ce hAct rem newly c' hClamp =>
      conv_rhs => rw [warmupLoop]
      simp only [if_neg hAct]
      rw [if_pos hClamp]
  | case3 p prev c ce hAct rem newly c' hClamp hStop =>
      conv_rhs => rw [warmupLoop]
      simp only [if_neg hAct]
      rw [if_neg hClamp]
      -- the later target may walk on from here, and the loop never lowers what it has
      split
      · exact Nat.le_refl _
      · next hStop₂ =>
        split
        · next e hGet =>
          exact le_warmupLoop hNo (Nat.lt_of_not_le hClamp) (Nat.le_succ_of_le hFrom)
            (by omega) hGet
        · exact Nat.le_refl _
  | case4 p prev c ce hAct rem newly c' hClamp hStop e hGet ih =>
      conv_rhs => rw [warmupLoop]
      simp only [if_neg hAct]
      rw [if_neg hClamp]
      have hStop₂ : ¬(p + 1 ≥ t₂ ∨ p + 1 ≥ d.deactivationEpoch) := by
        change ¬(p + 1 ≥ t₁ ∨ p + 1 ≥ d.deactivationEpoch) at hStop
        omega
      rw [if_neg hStop₂, hGet]
      exact ih (Nat.lt_of_not_le hClamp) (Nat.le_succ_of_le hFrom) (by omega) hGet
  | case5 p prev c ce hAct rem newly c' hClamp hStop hGet =>
      conv_rhs => rw [warmupLoop]
      simp only [if_neg hAct]
      rw [if_neg hClamp]
      split
      · exact Nat.le_refl _
      · rw [hGet]

/-- The warmup stops at the deactivation epoch: every target from there on gives the same. -/
theorem warmupLoop_eq_of_deactivationEpoch_le {t₁ t₂ : Nat} (h₁ : d.deactivationEpoch ≤ t₁)
    (h₂ : d.deactivationEpoch ≤ t₂) {prevEpoch : Nat} {prevClusterStake : StakeHistoryEntry}
    {c : Nat} :
    d.warmupLoop share t₁ history prevEpoch prevClusterStake c =
      d.warmupLoop share t₂ history prevEpoch prevClusterStake c := by
  fun_induction d.warmupLoop share t₁ history prevEpoch prevClusterStake c with
  | case1 p prev c hAct =>
      conv_rhs => rw [warmupLoop]
      rw [if_pos hAct]
  | case2 p prev c ce hAct rem newly c' hClamp =>
      conv_rhs => rw [warmupLoop]
      simp only [if_neg hAct]
      rw [if_pos hClamp]
  | case3 p prev c ce hAct rem newly c' hClamp hStop =>
      conv_rhs => rw [warmupLoop]
      simp only [if_neg hAct]
      rw [if_neg hClamp]
      have hStop₂ : p + 1 ≥ t₂ ∨ p + 1 ≥ d.deactivationEpoch := by
        change p + 1 ≥ t₁ ∨ p + 1 ≥ d.deactivationEpoch at hStop
        omega
      rw [if_pos hStop₂]
  | case4 p prev c ce hAct rem newly c' hClamp hStop e hGet ih =>
      conv_rhs => rw [warmupLoop]
      simp only [if_neg hAct]
      rw [if_neg hClamp]
      have hStop₂ : ¬(p + 1 ≥ t₂ ∨ p + 1 ≥ d.deactivationEpoch) := by
        change ¬(p + 1 ≥ t₁ ∨ p + 1 ≥ d.deactivationEpoch) at hStop
        omega
      rw [if_neg hStop₂, hGet]
      exact ih
  | case5 p prev c ce hAct rem newly c' hClamp hStop hGet =>
      conv_rhs => rw [warmupLoop]
      simp only [if_neg hAct]
      rw [if_neg hClamp]
      split
      · rfl
      · rw [hGet]

/-- The cooldown loop never raises the effective stake. -/
theorem cooldownLoop_le {prevEpoch : Nat} {prevClusterStake : StakeHistoryEntry} {c : Nat} :
    cooldownLoop share targetEpoch history prevEpoch prevClusterStake c ≤ c := by
  fun_induction cooldownLoop share targetEpoch history prevEpoch prevClusterStake c with
  | case1 => exact Nat.le_refl _
  | case2 => exact Nat.zero_le _
  | case3 => exact Nat.sub_le _ _
  | case4 _ _ _ _ _ _ _ _ _ _ _ ih => exact Nat.le_trans ih (Nat.sub_le _ _)
  | case5 => exact Nat.sub_le _ _

/-- A later target ends the cooldown at most as high. -/
theorem cooldownLoop_anti {t₁ t₂ : Nat} (ht : t₁ ≤ t₂) {prevEpoch : Nat}
    {prevClusterStake : StakeHistoryEntry} {c : Nat} :
    cooldownLoop share t₂ history prevEpoch prevClusterStake c ≤
      cooldownLoop share t₁ history prevEpoch prevClusterStake c := by
  fun_induction cooldownLoop share t₁ history prevEpoch prevClusterStake c with
  | case1 p prev c hDeact => exact cooldownLoop_le
  | case2 p prev c ce hDeact newly c' hZero =>
      conv_lhs => rw [cooldownLoop]
      simp only [if_neg hDeact]
      rw [if_pos hZero]
  | case3 p prev c ce hDeact newly c' hZero hStop =>
      conv_lhs => rw [cooldownLoop]
      simp only [if_neg hDeact]
      rw [if_neg hZero]
      split
      · exact Nat.le_refl _
      · split
        · exact cooldownLoop_le
        · exact Nat.le_refl _
  | case4 p prev c ce hDeact newly c' hZero hStop e hGet ih =>
      conv_lhs => rw [cooldownLoop]
      simp only [if_neg hDeact]
      rw [if_neg hZero]
      have hStop₂ : ¬p + 1 ≥ t₂ := by
        change ¬p + 1 ≥ t₁ at hStop
        omega
      rw [if_neg hStop₂, hGet]
      exact ih
  | case5 p prev c ce hDeact newly c' hZero hStop hGet =>
      conv_lhs => rw [cooldownLoop]
      simp only [if_neg hDeact]
      rw [if_neg hZero]
      split
      · exact Nat.le_refl _
      · rw [hGet]

end Loops

/-! ### The status over the epochs -/

section Status

variable {history : Option (Nat → Option StakeHistoryEntry)}

/-- The effective stake of `stake_and_activating` is at most the delegated stake. -/
theorem stakeAndActivating_fst_le (targetEpoch : Nat) :
    (d.stakeAndActivating share targetEpoch history).1 ≤ d.stake := by
  unfold stakeAndActivating
  split_ifs
  · exact Nat.le_refl _
  · exact Nat.zero_le _
  · exact Nat.zero_le _
  · exact Nat.zero_le _
  · split
    · split
      · exact warmupLoop_le (Nat.zero_le _)
      · exact Nat.le_refl _
    · exact Nat.le_refl _

/-- From the activation epoch on, the effective and the activating stake add up to the
delegated stake. -/
theorem stakeAndActivating_add
    (hOrd : d.activationEpoch < d.deactivationEpoch ∨ d.isBootstrap = true) {targetEpoch : Nat}
    (he : d.activationEpoch ≤ targetEpoch) :
    (d.stakeAndActivating share targetEpoch history).1 +
      (d.stakeAndActivating share targetEpoch history).2 = d.stake := by
  unfold stakeAndActivating
  split_ifs with hBoot hEq hAct hLt
  · exact Nat.add_zero _
  · have := hOrd.resolve_right hBoot
    omega
  · exact Nat.zero_add _
  · omega
  · split
    · split
      · exact Nat.add_sub_cancel' (warmupLoop_le (Nat.zero_le _))
      · exact Nat.add_zero _
    · exact Nat.add_zero _

/-- Without a wrap the effective stake grows from the activation epoch to the deactivation
epoch. -/
theorem stakeAndActivating_fst_mono (hNo : ∀ h, history = some h → d.WarmupNoWrap share h)
    {e₁ e₂ : Nat} (h₁ : d.activationEpoch ≤ e₁) (h₁₂ : e₁ ≤ e₂) (h₂ : e₂ < d.deactivationEpoch) :
    (d.stakeAndActivating share e₁ history).1 ≤ (d.stakeAndActivating share e₂ history).1 := by
  by_cases hBoot : d.isBootstrap = true
  · simp only [stakeAndActivating, hBoot, if_true, Nat.le_refl]
  by_cases hEq : d.activationEpoch = d.deactivationEpoch
  · simp only [stakeAndActivating, hBoot, hEq, Bool.false_eq_true, if_false, if_true,
      Nat.le_refl]
  rcases Nat.eq_or_lt_of_le h₁ with rfl | hLt₁
  · simp only [stakeAndActivating, hBoot, hEq, Bool.false_eq_true, if_false, if_true]
    exact Nat.zero_le _
  -- past the activation epoch both targets run the warmup loop from the same start
  have hLt₂ : d.activationEpoch < e₂ := Nat.lt_of_lt_of_le hLt₁ h₁₂
  simp only [stakeAndActivating, hBoot, hEq, Bool.false_eq_true, if_false,
    Nat.ne_of_gt hLt₁, Nat.ne_of_gt hLt₂, Nat.not_lt_of_gt hLt₁, Nat.not_lt_of_gt hLt₂]
  cases history with
  | none => exact Nat.le_refl _
  | some h =>
      dsimp only
      cases hc₀ : h d.activationEpoch with
      | none => exact Nat.le_refl _
      | some c₀ =>
          dsimp only
          rcases Nat.eq_zero_or_pos d.stake with h0 | hPos
          · -- nothing is delegated: both loops end at 0
            have h₁ : d.warmupLoop share e₁ h d.activationEpoch c₀ 0 ≤ d.stake :=
              warmupLoop_le (Nat.zero_le _)
            omega
          · exact warmupLoop_mono (hNo h rfl) h₁₂ hPos (Nat.le_refl _) (by omega) hc₀

/-- From the deactivation epoch on, `stake_and_activating` is what it is at that epoch: the
warmup stops there. -/
theorem stakeAndActivating_eq_of_deactivationEpoch_le
    (hOrd : d.activationEpoch < d.deactivationEpoch ∨ d.isBootstrap = true) {targetEpoch : Nat}
    (he : d.deactivationEpoch ≤ targetEpoch) :
    d.stakeAndActivating share targetEpoch history =
      d.stakeAndActivating share d.deactivationEpoch history := by
  by_cases hBoot : d.isBootstrap = true
  · simp only [stakeAndActivating, hBoot, if_true]
  have hLt := hOrd.resolve_right hBoot
  have hLt' : d.activationEpoch < targetEpoch := Nat.lt_of_lt_of_le hLt he
  simp only [stakeAndActivating, hBoot, Bool.false_eq_true, if_false, Nat.ne_of_lt hLt,
    Nat.ne_of_gt hLt, Nat.ne_of_gt hLt', Nat.not_lt_of_gt hLt, Nat.not_lt_of_gt hLt']
  cases history with
  | none => rfl
  | some h =>
      dsimp only
      cases h d.activationEpoch with
      | none => rfl
      | some c₀ =>
          dsimp only
          rw [warmupLoop_eq_of_deactivationEpoch_le he (Nat.le_refl _)]

/-- Before the deactivation epoch the status is the one of `stake_and_activating`. -/
theorem stakeActivatingAndDeactivating_of_lt {targetEpoch : Nat}
    (he : targetEpoch < d.deactivationEpoch) :
    (d.stakeActivatingAndDeactivating share targetEpoch history).effective =
        (d.stakeAndActivating share targetEpoch history).1 ∧
      (d.stakeActivatingAndDeactivating share targetEpoch history).activating =
        (d.stakeAndActivating share targetEpoch history).2 := by
  rcases hA : d.stakeAndActivating share targetEpoch history with ⟨a, b⟩
  simp only [stakeActivatingAndDeactivating, hA, if_pos he]
  split
  · simp_all [StakeHistoryEntry.withEffective]
  · exact ⟨rfl, rfl⟩

/-- At the deactivation epoch the whole effective stake starts deactivating. -/
theorem stakeActivatingAndDeactivating_deactivationEpoch :
    d.stakeActivatingAndDeactivating share d.deactivationEpoch history =
      .withDeactivating (d.stakeAndActivating share d.deactivationEpoch history).1 := by
  rcases hA : d.stakeAndActivating share d.deactivationEpoch history with ⟨a, b⟩
  simp only [stakeActivatingAndDeactivating, hA, Nat.lt_irrefl, if_false, if_true]

/-- From the deactivation epoch on, the effective stake is the deactivating one. -/
theorem stakeActivatingAndDeactivating_effective_eq {targetEpoch : Nat}
    (he : d.deactivationEpoch ≤ targetEpoch) :
    (d.stakeActivatingAndDeactivating share targetEpoch history).effective =
      (d.stakeActivatingAndDeactivating share targetEpoch history).deactivating := by
  rcases hA : d.stakeAndActivating share targetEpoch history with ⟨a, b⟩
  simp only [stakeActivatingAndDeactivating, hA, if_neg (Nat.not_lt_of_le he)]
  split
  · rfl
  · split
    · split <;> rfl
    · rfl

/-- Past the deactivation epoch the cooldown loop runs from the effective stake of
`stake_and_activating`. -/
theorem stakeActivatingAndDeactivating_of_deactivationEpoch_lt {targetEpoch : Nat}
    (he : d.deactivationEpoch < targetEpoch) {h : Nat → Option StakeHistoryEntry}
    {c : StakeHistoryEntry} (hc : h d.deactivationEpoch = some c) :
    d.stakeActivatingAndDeactivating share targetEpoch (some h) =
      .withDeactivating (cooldownLoop share targetEpoch h d.deactivationEpoch c
        (d.stakeAndActivating share targetEpoch (some h)).1) := by
  rcases hA : d.stakeAndActivating share targetEpoch (some h) with ⟨a, b⟩
  simp only [stakeActivatingAndDeactivating, hA, Nat.not_lt_of_gt he, Nat.ne_of_gt he, if_false,
    hc]

/-- Past the deactivation epoch, with no history entry for it, nothing is left. -/
theorem stakeActivatingAndDeactivating_of_deactivationEpoch_lt_of_none {targetEpoch : Nat}
    (he : d.deactivationEpoch < targetEpoch)
    (hNone : ∀ h, history = some h → h d.deactivationEpoch = none) :
    d.stakeActivatingAndDeactivating share targetEpoch history = ⟨0, 0, 0⟩ := by
  rcases hA : d.stakeAndActivating share targetEpoch history with ⟨a, b⟩
  simp only [stakeActivatingAndDeactivating, hA, Nat.not_lt_of_gt he, Nat.ne_of_gt he, if_false]
  cases history with
  | none => rfl
  | some h =>
      dsimp only
      rw [hNone h rfl]

/-- From the deactivation epoch on, the deactivating stake only falls. -/
theorem stakeActivatingAndDeactivating_deactivating_anti
    (hOrd : d.activationEpoch < d.deactivationEpoch ∨ d.isBootstrap = true) {e₁ e₂ : Nat}
    (h₁ : d.deactivationEpoch ≤ e₁) (h₁₂ : e₁ ≤ e₂) :
    (d.stakeActivatingAndDeactivating share e₂ history).deactivating ≤
      (d.stakeActivatingAndDeactivating share e₁ history).deactivating := by
  rcases Nat.eq_or_lt_of_le h₁₂ with rfl | hLt₁₂
  · exact Nat.le_refl _
  have hLt₂ : d.deactivationEpoch < e₂ := Nat.lt_of_le_of_lt h₁ hLt₁₂
  -- without an entry for the deactivation epoch nothing is left at `e₂`
  by_cases hNone : ∀ h, history = some h → h d.deactivationEpoch = none
  · rw [stakeActivatingAndDeactivating_of_deactivationEpoch_lt_of_none hLt₂ hNone]
    exact Nat.zero_le _
  obtain ⟨h, rfl, hc⟩ : ∃ h, history = some h ∧ ∃ c, h d.deactivationEpoch = some c := by
    push Not at hNone
    obtain ⟨h, hh, hc⟩ := hNone
    exact ⟨h, hh, Option.ne_none_iff_exists'.mp hc⟩
  obtain ⟨c, hc⟩ := hc
  -- both targets run the cooldown loop from the amount reached at the deactivation epoch
  have hA₂ : d.stakeAndActivating share e₂ (some h) =
      d.stakeAndActivating share d.deactivationEpoch (some h) :=
    stakeAndActivating_eq_of_deactivationEpoch_le hOrd (Nat.le_of_lt hLt₂)
  rw [stakeActivatingAndDeactivating_of_deactivationEpoch_lt hLt₂ hc, hA₂]
  rcases Nat.eq_or_lt_of_le h₁ with rfl | hLt₁
  · rw [stakeActivatingAndDeactivating_deactivationEpoch]
    exact cooldownLoop_le
  · have hA₁ : d.stakeAndActivating share e₁ (some h) =
        d.stakeAndActivating share d.deactivationEpoch (some h) :=
      stakeAndActivating_eq_of_deactivationEpoch_le hOrd h₁
    rw [stakeActivatingAndDeactivating_of_deactivationEpoch_lt hLt₁ hc, hA₁]
    exact cooldownLoop_anti h₁₂

end Status

/-- Warmup and cooldown, whatever each epoch's share is: the effective stake never passes the
delegated one; from the activation to the deactivation epoch it and the activating stake make up
the delegation, and, if no warmup step over the history wraps, it grows; from the deactivation
epoch on it is the deactivating stake, and the two fall together from the amount the warmup
reached. -/
theorem stakeActivatingAndDeactivating_bounded_monotone
    (share : Nat → Nat → Nat → Nat → Nat) {d : Delegation}
    (hOrd : d.activationEpoch < d.deactivationEpoch ∨ d.isBootstrap = true)
    (history : Option (Nat → Option StakeHistoryEntry)) :
    (∀ e, (d.stakeActivatingAndDeactivating share e history).effective ≤ d.stake) ∧
    (∀ e, d.activationEpoch ≤ e → e < d.deactivationEpoch →
      (d.stakeActivatingAndDeactivating share e history).effective +
        (d.stakeActivatingAndDeactivating share e history).activating = d.stake) ∧
    ((∀ h, history = some h → d.WarmupNoWrap share h) → ∀ e₁ e₂, d.activationEpoch ≤ e₁ →
      e₁ ≤ e₂ → e₂ < d.deactivationEpoch →
      (d.stakeActivatingAndDeactivating share e₁ history).effective ≤
        (d.stakeActivatingAndDeactivating share e₂ history).effective) ∧
    (∀ e, d.deactivationEpoch ≤ e →
      (d.stakeActivatingAndDeactivating share e history).effective =
        (d.stakeActivatingAndDeactivating share e history).deactivating) ∧
    (∀ e₁ e₂, d.deactivationEpoch ≤ e₁ → e₁ ≤ e₂ →
      (d.stakeActivatingAndDeactivating share e₂ history).effective ≤
          (d.stakeActivatingAndDeactivating share e₁ history).effective ∧
        (d.stakeActivatingAndDeactivating share e₂ history).deactivating ≤
          (d.stakeActivatingAndDeactivating share e₁ history).deactivating) ∧
    (∀ e, d.deactivationEpoch ≤ e →
      (d.stakeActivatingAndDeactivating share d.deactivationEpoch history).deactivating =
        (d.stakeAndActivating share e history).1) := by
  have hAnti : ∀ {e₁ e₂ : Nat}, d.deactivationEpoch ≤ e₁ → e₁ ≤ e₂ →
      (d.stakeActivatingAndDeactivating share e₂ history).deactivating ≤
        (d.stakeActivatingAndDeactivating share e₁ history).deactivating :=
    fun h₁ h₁₂ => stakeActivatingAndDeactivating_deactivating_anti hOrd h₁ h₁₂
  have hEff : ∀ {e : Nat}, d.deactivationEpoch ≤ e →
      (d.stakeActivatingAndDeactivating share e history).effective =
        (d.stakeActivatingAndDeactivating share e history).deactivating :=
    fun he => stakeActivatingAndDeactivating_effective_eq he
  refine ⟨fun e => ?_, fun e he he' => ?_, fun hNo e₁ e₂ h₁ h₁₂ h₂ => ?_, fun e he => hEff he,
    fun e₁ e₂ h₁ h₁₂ => ?_, fun e he => ?_⟩
  · rcases Nat.lt_or_ge e d.deactivationEpoch with hLt | hGe
    · rw [(stakeActivatingAndDeactivating_of_lt hLt).1]
      exact stakeAndActivating_fst_le e
    · -- past the deactivation epoch: at most what deactivates at it, the warmup's amount
      calc (d.stakeActivatingAndDeactivating share e history).effective
          = (d.stakeActivatingAndDeactivating share e history).deactivating := hEff hGe
        _ ≤ (d.stakeActivatingAndDeactivating share d.deactivationEpoch history).deactivating :=
            hAnti (Nat.le_refl _) hGe
        _ = (d.stakeAndActivating share d.deactivationEpoch history).1 := by
            rw [stakeActivatingAndDeactivating_deactivationEpoch]; rfl
        _ ≤ d.stake := stakeAndActivating_fst_le _
  · obtain ⟨hE, hA⟩ : (d.stakeActivatingAndDeactivating share e history).effective =
          (d.stakeAndActivating share e history).1 ∧
        (d.stakeActivatingAndDeactivating share e history).activating =
          (d.stakeAndActivating share e history).2 :=
      stakeActivatingAndDeactivating_of_lt he'
    rw [hE, hA]
    exact stakeAndActivating_add hOrd he
  · rw [(stakeActivatingAndDeactivating_of_lt (Nat.lt_of_le_of_lt h₁₂ h₂)).1,
      (stakeActivatingAndDeactivating_of_lt h₂).1]
    exact stakeAndActivating_fst_mono hNo h₁ h₁₂ h₂
  · rw [hEff h₁, hEff (Nat.le_trans h₁ h₁₂)]
    exact ⟨hAnti h₁ h₁₂, hAnti h₁ h₁₂⟩
  · rw [stakeActivatingAndDeactivating_deactivationEpoch,
      stakeAndActivating_eq_of_deactivationEpoch_le hOrd he]
    rfl

/-- Ten lamports activated at epoch 0 and deactivated at 5, with the source's share of a cluster
of ten activating lamports and four effective ones: one lamport warms up each epoch. -/
theorem stakeActivatingAndDeactivating_bounded_monotone_f64_share :
    ((⟨10, 0, 5⟩ : Delegation).activationEpoch < (⟨10, 0, 5⟩ : Delegation).deactivationEpoch ∨
      (⟨10, 0, 5⟩ : Delegation).isBootstrap = true) ∧
    (∀ h, some (fun _ => some ⟨4, 10, 0⟩) = some h →
      (⟨10, 0, 5⟩ : Delegation).WarmupNoWrap (f64Share none) h) ∧
    ((⟨10, 0, 5⟩ : Delegation).stakeActivatingAndDeactivating (f64Share none) 2
        (some fun _ => some ⟨4, 10, 0⟩)).effective = 2 ∧
    ((⟨10, 0, 5⟩ : Delegation).stakeActivatingAndDeactivating (f64Share none) 2
        (some fun _ => some ⟨4, 10, 0⟩)).effective ≤
      ((⟨10, 0, 5⟩ : Delegation).stakeActivatingAndDeactivating (f64Share none) 4
        (some fun _ => some ⟨4, 10, 0⟩)).effective := by
  have hOrd : (⟨10, 0, 5⟩ : Delegation).activationEpoch <
      (⟨10, 0, 5⟩ : Delegation).deactivationEpoch ∨
      (⟨10, 0, 5⟩ : Delegation).isBootstrap = true := Or.inl (by decide)
  -- before epoch `u64::MAX` the rate is 0.25, and every share of the entry is 1 or 0
  have hNo : ∀ h, some (fun _ => some ⟨4, 10, 0⟩) = some h →
      (⟨10, 0, 5⟩ : Delegation).WarmupNoWrap (f64Share none) h := by
    rintro h ⟨⟩ epoch entry - hBefore ⟨⟩ c hc
    change epoch < 5 at hBefore
    change c < 10 at hc
    have hRate : warmupCooldownRate (epoch + 1) none = defaultWarmupCooldownRate :=
      if_pos (by simp only [Option.getD_none, maxValue]; omega)
    simp only [f64Share, hRate]
    interval_cases c <;> decide
  exact ⟨hOrd, hNo, by decide +kernel,
    (stakeActivatingAndDeactivating_bounded_monotone _ hOrd _).2.2.1 hNo 2 4
      (by decide) (by decide) (by decide)⟩

/-- A warmup step that wraps, with the source's share: a cluster entry of one activating lamport
and `2^127` effective ones gives the remaining nine lamports a share past `u128::MAX`, which the
cast saturates, and the effective stake falls from 1 at epoch 1 to 0 at epoch 2, long before the
deactivation epoch. -/
theorem stakeActivatingAndDeactivating_warmup_wraps :
    let d : Delegation := ⟨10, 0, maxValue 64⟩
    let history : Option (Nat → Option StakeHistoryEntry) := some fun e =>
      if e = 0 then some ⟨4, 10, 0⟩ else if e = 1 then some ⟨2 ^ 127, 1, 0⟩ else none
    2 < d.deactivationEpoch ∧
      (d.stakeActivatingAndDeactivating (f64Share none) 1 history).effective = 1 ∧
      (d.stakeActivatingAndDeactivating (f64Share none) 2 history).effective = 0 := by
  decide +kernel

end Delegation

end PutValidator
