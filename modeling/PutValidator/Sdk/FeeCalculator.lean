import Mathlib
import PutValidator.Lib.Word

/-! The fee-rate governor (`sdk/program/src/fee_calculator.rs`). Each slot `new_derived` moves
the fee per signature toward the fee the cluster should charge at the observed signature count,
by five percent of the target, within a band from half the target to ten times it; `burn` splits
collected fees.

With a positive target `T`, a positive target signature count and `10 T 2^32 < 2^127` (so that
no product wraps), every derived governor has its fee in the band; a step from a fee below `2^127`
moves it one step toward the desired fee, clamped to the band (`newDerived_lamportsPerSignature`);
and under a constant signature count the fee comes within one step of the desired fee after as
many steps as the distance takes, and stays there (`dist_iterate_newDerived_le`). A fee of `2^127`
or more is read as a negative `i128`, and the first step from it is not one step toward the
desired fee (`newDerived_from_negative_fee`). -/
namespace PutValidator

open Lib.Word

/-- `FeeRateGovernor`: `u128` fields as `Nat`s, `burn_percent` a `u8`. -/
structure FeeRateGovernor where
  lamportsPerSignature : Nat
  targetLamportsPerSignature : Nat
  targetSignaturesPerSlot : Nat
  minLamportsPerSignature : Nat
  maxLamportsPerSignature : Nat
  burnPercent : Nat
deriving DecidableEq, Repr

namespace FeeRateGovernor

/-- `new_derived`. The arithmetic is that of a release build: `x as i128` of a `u128` is
`asSigned 128 x`, an `i128` sum or difference wraps into the signed range (`Int.bmod`), `as u128`
reads an `i128` modulo `2^128`, and the `u128` products wrap. -/
def newDerived (base : FeeRateGovernor) (latestSignaturesPerSlot : Nat) : FeeRateGovernor :=
  if 0 < base.targetSignaturesPerSlot then
    let minLamportsPerSignature := max 1 (base.targetLamportsPerSignature / 2)
    let maxLamportsPerSignature := wrappingMul 128 base.targetLamportsPerSignature 10
    let desiredLamportsPerSignature := min maxLamportsPerSignature (max minLamportsPerSignature
      (wrappingMul 128 base.targetLamportsPerSignature (min latestSignaturesPerSlot (2 ^ 32 - 1)) /
        base.targetSignaturesPerSlot))
    let gap : Int := Int.bmod
      (asSigned 128 desiredLamportsPerSignature - asSigned 128 base.lamportsPerSignature) (2 ^ 128)
    let lamportsPerSignature :=
      if gap = 0 then desiredLamportsPerSignature
      else
        let gapAdjust : Int := (max 1 (base.targetLamportsPerSignature / 20) : Nat) * gap.sign
        min maxLamportsPerSignature (max minLamportsPerSignature
          ((Int.bmod (asSigned 128 base.lamportsPerSignature + gapAdjust) (2 ^ 128)) % 2 ^ 128).toNat)
    { base with lamportsPerSignature, minLamportsPerSignature, maxLamportsPerSignature }
  else
    { base with
      lamportsPerSignature := base.targetLamportsPerSignature
      minLamportsPerSignature := base.targetLamportsPerSignature
      maxLamportsPerSignature := base.targetLamportsPerSignature }

/-- `burn`: the unburned and the burned part of the fees. -/
def burn (g : FeeRateGovernor) (fees : Nat) : Nat × Nat :=
  let burned := wrappingMul 128 fees g.burnPercent / 100
  (wrappingSub 128 fees burned, burned)

/-- The governors of successive slots, one `new_derived` per observed signature count. -/
def governorAfter (g : FeeRateGovernor) (counts : List Nat) : FeeRateGovernor :=
  counts.foldl newDerived g

@[simp] theorem targetLamportsPerSignature_newDerived (g : FeeRateGovernor) (c : Nat) :
    (g.newDerived c).targetLamportsPerSignature = g.targetLamportsPerSignature := by
  unfold newDerived
  split_ifs <;> rfl

@[simp] theorem targetSignaturesPerSlot_newDerived (g : FeeRateGovernor) (c : Nat) :
    (g.newDerived c).targetSignaturesPerSlot = g.targetSignaturesPerSlot := by
  unfold newDerived
  split_ifs <;> rfl

end FeeRateGovernor

/-! ### What the governor is for -/

/-- The lower end of the band: half the target, and at least one. -/
def bandMin (target : Nat) : Nat := max 1 (target / 2)

/-- The upper end of the band: ten times the target. -/
def bandMax (target : Nat) : Nat := target * 10

def clampToBand (target x : Nat) : Nat := min (bandMax target) (max (bandMin target) x)

/-- The fee the cluster should charge at `signatures` per slot, in the band. -/
def desiredFee (target targetSignatures signatures : Nat) : Nat :=
  clampToBand target (target * min signatures (2 ^ 32 - 1) / targetSignatures)

/-- One step of the fee: five percent of the target, and at least one. -/
def feeStep (target : Nat) : Nat := max 1 (target / 20)

/-- The fee after one step from `fee` toward `desired`: the desired fee when already there, or one
step closer, clamped to the band. -/
def towardDesired (target desired fee : Nat) : Nat :=
  if fee = desired then desired
  else if fee < desired then clampToBand target (fee + feeStep target)
  else clampToBand target (fee - feeStep target)

section Band

variable {target : Nat}

theorem bandMin_le_bandMax (hT : 0 < target) : bandMin target ≤ bandMax target := by
  unfold bandMin bandMax
  omega

theorem feeStep_le_bandMin : feeStep target ≤ bandMin target := by
  unfold feeStep bandMin
  omega

theorem clampToBand_mem (hT : 0 < target) (x : Nat) :
    bandMin target ≤ clampToBand target x ∧ clampToBand target x ≤ bandMax target := by
  have := bandMin_le_bandMax hT
  unfold clampToBand
  omega

theorem desiredFee_mem (hT : 0 < target) (targetSignatures signatures : Nat) :
    bandMin target ≤ desiredFee target targetSignatures signatures ∧
      desiredFee target targetSignatures signatures ≤ bandMax target :=
  clampToBand_mem hT _

/-- One step from any fee brings it no further than one step from the desired fee, or one step
closer: a step that passes the desired fee lands within a step of it, and the clamp only brings
it nearer, since the desired fee is in the band. -/
theorem dist_towardDesired_le (hT : 0 < target) {desired : Nat}
    (hDesired : bandMin target ≤ desired ∧ desired ≤ bandMax target) (fee : Nat) :
    Nat.dist (towardDesired target desired fee) desired ≤
      max (feeStep target) (Nat.dist fee desired - feeStep target) := by
  have hBand := bandMin_le_bandMax hT
  have hStep : feeStep target ≤ bandMin target := feeStep_le_bandMin
  unfold towardDesired clampToBand
  simp only [Nat.dist]
  split_ifs <;> omega

end Band

/-! ### `new_derived` against the spec -/

namespace FeeRateGovernor

section Derived

variable {g : FeeRateGovernor}

/-- `u128` products that stay below `2^128` do not wrap. -/
theorem wrappingMul_of_lt {a b : Nat} (h : a * b < 2 ^ 128) : wrappingMul 128 a b = a * b :=
  Nat.mod_eq_of_lt h

/-- The desired fee and the band `new_derived` computes, when no product wraps. -/
theorem newDerived_eq (hS : 0 < g.targetSignaturesPerSlot)
    (hFits : 10 * g.targetLamportsPerSignature * 2 ^ 32 < 2 ^ 127) (c : Nat) :
    let desired := desiredFee g.targetLamportsPerSignature g.targetSignaturesPerSlot c
    let gap : Int := Int.bmod (asSigned 128 desired - asSigned 128 g.lamportsPerSignature) (2 ^ 128)
    (g.newDerived c).lamportsPerSignature =
      if gap = 0 then desired
      else clampToBand g.targetLamportsPerSignature
        ((Int.bmod (asSigned 128 g.lamportsPerSignature +
          ((feeStep g.targetLamportsPerSignature : Nat) : Int) * gap.sign) (2 ^ 128)) % 2 ^ 128).toNat := by
  have hTen : wrappingMul 128 g.targetLamportsPerSignature 10 = bandMax g.targetLamportsPerSignature :=
    wrappingMul_of_lt (by omega)
  have hProduct : wrappingMul 128 g.targetLamportsPerSignature
      (min c (2 ^ 32 - 1)) = g.targetLamportsPerSignature * min c (2 ^ 32 - 1) := by
    apply wrappingMul_of_lt
    have : g.targetLamportsPerSignature * min c (2 ^ 32 - 1) ≤ g.targetLamportsPerSignature * 2 ^ 32 :=
      Nat.mul_le_mul_left _ (by omega)
    omega
  simp only [newDerived, if_pos hS, hTen, hProduct]
  rfl

/-- The band holds after every step. -/
theorem newDerived_mem_band (hT : 0 < g.targetLamportsPerSignature)
    (hS : 0 < g.targetSignaturesPerSlot) (hFits : 10 * g.targetLamportsPerSignature * 2 ^ 32 < 2 ^ 127)
    (c : Nat) :
    bandMin g.targetLamportsPerSignature ≤ (g.newDerived c).lamportsPerSignature ∧
      (g.newDerived c).lamportsPerSignature ≤ bandMax g.targetLamportsPerSignature := by
  rw [newDerived_eq hS hFits c]
  split_ifs
  · exact desiredFee_mem hT _ _
  · exact clampToBand_mem hT _

/-- From a fee below `2^127`, which reads as itself in `i128`, `new_derived` takes one step
toward the desired fee. -/
theorem newDerived_lamportsPerSignature (hT : 0 < g.targetLamportsPerSignature)
    (hS : 0 < g.targetSignaturesPerSlot) (hFits : 10 * g.targetLamportsPerSignature * 2 ^ 32 < 2 ^ 127)
    (hFee : g.lamportsPerSignature < 2 ^ 127) (c : Nat) :
    (g.newDerived c).lamportsPerSignature =
      towardDesired g.targetLamportsPerSignature
        (desiredFee g.targetLamportsPerSignature g.targetSignaturesPerSlot c) g.lamportsPerSignature := by
  rw [newDerived_eq hS hFits c]
  generalize hD : desiredFee g.targetLamportsPerSignature g.targetSignaturesPerSlot c = desired
  have hDesired : desired ≤ bandMax g.targetLamportsPerSignature := by
    rw [← hD]
    exact (clampToBand_mem hT _).2
  have hMin : bandMin g.targetLamportsPerSignature ≤ desired := by
    rw [← hD]
    exact (clampToBand_mem hT _).1
  have hStep : feeStep g.targetLamportsPerSignature ≤ bandMin g.targetLamportsPerSignature :=
    feeStep_le_bandMin
  have hStepLe : feeStep g.targetLamportsPerSignature ≤ g.targetLamportsPerSignature + 1 := by
    unfold feeStep
    omega
  unfold bandMax at hDesired
  -- both fees read as themselves, and so does their gap
  have hSignedD : asSigned 128 desired = desired := by
    unfold asSigned
    rw [if_pos (by norm_num; omega)]
  have hSignedFee : asSigned 128 g.lamportsPerSignature = g.lamportsPerSignature := by
    unfold asSigned
    rw [if_pos (by norm_num; omega)]
  have hGap : Int.bmod ((desired : Int) - g.lamportsPerSignature) (2 ^ 128) =
      (desired : Int) - g.lamportsPerSignature := by
    apply Int.bmod_eq_of_le <;> push_cast <;> omega
  rw [hSignedD, hSignedFee, hGap]
  unfold towardDesired
  rcases lt_trichotomy g.lamportsPerSignature desired with hLt | hEq | hGt
  · rw [if_neg (by omega), if_neg (by omega), if_pos hLt, Int.sign_eq_one_of_pos (by omega),
      Int.bmod_eq_of_le (by push_cast; omega) (by push_cast; omega)]
    congr 1
    omega
  · rw [if_pos (by omega), if_pos hEq]
  · rw [if_neg (by omega), if_neg (by omega), if_neg (by omega),
      Int.sign_eq_neg_one_of_neg (by omega),
      Int.bmod_eq_of_le (by push_cast; omega) (by push_cast; omega)]
    congr 1
    omega

@[simp] theorem targetLamportsPerSignature_iterate (c : Nat) :
    ∀ n, ((·.newDerived c)^[n] g).targetLamportsPerSignature = g.targetLamportsPerSignature
  | 0 => rfl
  | n + 1 => by
      rw [Function.iterate_succ_apply', targetLamportsPerSignature_newDerived,
        targetLamportsPerSignature_iterate c n]

@[simp] theorem targetSignaturesPerSlot_iterate (c : Nat) :
    ∀ n, ((·.newDerived c)^[n] g).targetSignaturesPerSlot = g.targetSignaturesPerSlot
  | 0 => rfl
  | n + 1 => by
      rw [Function.iterate_succ_apply', targetSignaturesPerSlot_newDerived,
        targetSignaturesPerSlot_iterate c n]

/-- From a fee below `2^127`, `n` steps under one signature count leave the fee within one step
of the desired fee, or `n` steps closer to it. -/
theorem dist_iterate_newDerived_le_of_lt (hT : 0 < g.targetLamportsPerSignature)
    (hS : 0 < g.targetSignaturesPerSlot) (hFits : 10 * g.targetLamportsPerSignature * 2 ^ 32 < 2 ^ 127)
    (hFee : g.lamportsPerSignature < 2 ^ 127) (c : Nat) :
    ∀ n, Nat.dist ((·.newDerived c)^[n] g).lamportsPerSignature
        (desiredFee g.targetLamportsPerSignature g.targetSignaturesPerSlot c) ≤
      max (feeStep g.targetLamportsPerSignature)
        (Nat.dist g.lamportsPerSignature (desiredFee g.targetLamportsPerSignature
          g.targetSignaturesPerSlot c) - n * feeStep g.targetLamportsPerSignature)
  | 0 => by simp only [Function.iterate_zero, id_eq, Nat.zero_mul, Nat.sub_zero]; omega
  | n + 1 => by
      -- the fee stays below `2^127` along the way: after a step it is in the band
      have hBelow : ((·.newDerived c)^[n] g).lamportsPerSignature < 2 ^ 127 := by
        cases n with
        | zero => exact hFee
        | succ n =>
            rw [Function.iterate_succ_apply']
            have hBand := newDerived_mem_band (g := (·.newDerived c)^[n] g) (by simpa using hT)
              (by simpa using hS) (by simpa using hFits) c
            simp only [targetLamportsPerSignature_iterate, bandMax] at hBand
            omega
      have hStep := dist_towardDesired_le hT
        (desiredFee_mem hT g.targetSignaturesPerSlot c) ((·.newDerived c)^[n] g).lamportsPerSignature
      have hRule := newDerived_lamportsPerSignature (g := (·.newDerived c)^[n] g) (by simpa using hT)
        (by simpa using hS) (by simpa using hFits) hBelow c
      simp only [targetLamportsPerSignature_iterate, targetSignaturesPerSlot_iterate] at hRule
      have ih := dist_iterate_newDerived_le_of_lt hT hS hFits hFee c n
      rw [Function.iterate_succ_apply', hRule]
      rw [Nat.succ_mul]
      omega

/-- Under one signature count, after as many steps as the distance to the desired fee takes,
the fee is within one step of it, and stays there. From a fee of `2^127` or more the first step
lands in the band, far nearer than the distance it started from. -/
theorem dist_iterate_newDerived_le (hT : 0 < g.targetLamportsPerSignature)
    (hS : 0 < g.targetSignaturesPerSlot) (hFits : 10 * g.targetLamportsPerSignature * 2 ^ 32 < 2 ^ 127)
    (c n : Nat)
    (hn : (Nat.dist g.lamportsPerSignature (desiredFee g.targetLamportsPerSignature
      g.targetSignaturesPerSlot c) + feeStep g.targetLamportsPerSignature - 1) /
        feeStep g.targetLamportsPerSignature ≤ n) :
    Nat.dist ((·.newDerived c)^[n] g).lamportsPerSignature
      (desiredFee g.targetLamportsPerSignature g.targetSignaturesPerSlot c) ≤
        feeStep g.targetLamportsPerSignature := by
  have hStepPos : 0 < feeStep g.targetLamportsPerSignature := by unfold feeStep; omega
  have hStepLe : feeStep g.targetLamportsPerSignature ≤ g.targetLamportsPerSignature + 1 := by
    unfold feeStep
    omega
  have hDesired := desiredFee_mem hT g.targetSignaturesPerSlot c
  -- `n` steps cover the distance
  have hCover : Nat.dist g.lamportsPerSignature
      (desiredFee g.targetLamportsPerSignature g.targetSignaturesPerSlot c) ≤
        n * feeStep g.targetLamportsPerSignature := by
    have := (Nat.div_lt_iff_lt_mul hStepPos).mp (Nat.lt_succ_of_le hn)
    rw [Nat.succ_mul] at this
    omega
  by_cases hFee : g.lamportsPerSignature < 2 ^ 127
  · have := dist_iterate_newDerived_le_of_lt hT hS hFits hFee c n
    omega
  · -- the first step lands in the band, and the remaining steps cover the band
    unfold bandMax at hDesired
    have hFar : 2 ^ 127 - g.targetLamportsPerSignature * 10 ≤
        n * feeStep g.targetLamportsPerSignature := by
      simp only [Nat.dist] at hCover
      omega
    obtain ⟨m, rfl⟩ : ∃ m, n = m + 1 := ⟨n - 1, by
      have : 0 < n * feeStep g.targetLamportsPerSignature := by omega
      rcases n with _ | n
      · simp at this
      · rfl⟩
    have hBand := newDerived_mem_band hT hS hFits c
    rw [Function.iterate_succ_apply]
    have hRest := dist_iterate_newDerived_le_of_lt (g := g.newDerived c) (by simpa using hT)
      (by simpa using hS) (by simpa using hFits)
      (by unfold bandMax at hBand; omega) c m
    simp only [targetLamportsPerSignature_newDerived, targetSignaturesPerSlot_newDerived] at hRest
    unfold bandMax bandMin at hBand
    rw [Nat.succ_mul] at hFar
    simp only [Nat.dist] at hRest ⊢
    omega

end Derived

/-! ### Runs of the governor -/

@[simp] theorem targetLamportsPerSignature_governorAfter (g : FeeRateGovernor) :
    ∀ counts, (g.governorAfter counts).targetLamportsPerSignature = g.targetLamportsPerSignature := by
  intro counts
  induction counts generalizing g with
  | nil => rfl
  | cons c counts ih =>
      simp only [governorAfter, List.foldl_cons] at ih ⊢
      rw [ih, targetLamportsPerSignature_newDerived]

@[simp] theorem targetSignaturesPerSlot_governorAfter (g : FeeRateGovernor) :
    ∀ counts, (g.governorAfter counts).targetSignaturesPerSlot = g.targetSignaturesPerSlot := by
  intro counts
  induction counts generalizing g with
  | nil => rfl
  | cons c counts ih =>
      simp only [governorAfter, List.foldl_cons] at ih ⊢
      rw [ih, targetSignaturesPerSlot_newDerived]

theorem governorAfter_concat (g : FeeRateGovernor) (counts : List Nat) (c : Nat) :
    g.governorAfter (counts ++ [c]) = (g.governorAfter counts).newDerived c := by
  simp [governorAfter]

/-- Every governor derived from `g` has its fee in the band. -/
theorem governorAfter_mem_band {g : FeeRateGovernor} (hT : 0 < g.targetLamportsPerSignature)
    (hS : 0 < g.targetSignaturesPerSlot) (hFits : 10 * g.targetLamportsPerSignature * 2 ^ 32 < 2 ^ 127)
    {counts : List Nat} (hCounts : counts ≠ []) :
    bandMin g.targetLamportsPerSignature ≤ (g.governorAfter counts).lamportsPerSignature ∧
      (g.governorAfter counts).lamportsPerSignature ≤ bandMax g.targetLamportsPerSignature := by
  obtain ⟨init, c, rfl⟩ := (List.eq_nil_or_concat' counts).resolve_left hCounts
  rw [governorAfter_concat]
  have := newDerived_mem_band (g := g.governorAfter init) (by simpa using hT) (by simpa using hS)
    (by simpa using hFits) c
  simpa using this

/-- `burn` splits the fees into the unburned and the burned part, when the product fits. -/
theorem burn_eq (g : FeeRateGovernor) {fees : Nat} (hFees : fees < 2 ^ 128)
    (hPercent : g.burnPercent ≤ 100) (hFits : fees * g.burnPercent < 2 ^ 128) :
    g.burn fees = (fees - fees * g.burnPercent / 100, fees * g.burnPercent / 100) ∧
      fees * g.burnPercent / 100 ≤ fees := by
  have hBurned : fees * g.burnPercent / 100 ≤ fees :=
    Nat.div_le_of_le_mul (Nat.mul_comm 100 fees ▸ Nat.mul_le_mul_left fees hPercent)
  refine ⟨?_, hBurned⟩
  simp only [burn, wrappingMul_of_lt hFits, wrappingSub_of_le hBurned hFees]

end FeeRateGovernor

/-- The fee-rate governor from a governor with a positive target `T`, a positive target signature
count and `10 T 2^32 < 2^127`: every derived fee is in the band from `max 1 (T / 2)` to `10 T`; a
step from a derived governor, or from the first one when its fee is below `2^127`, moves the fee
one step of `max 1 (T / 20)` toward the desired fee, clamped to the band; under a constant count
the fee is within one step of the desired fee from as many steps as the distance takes; and
`burn` splits the fees. -/
theorem feeRateGovernor_spec (g0 : FeeRateGovernor) (hT : 0 < g0.targetLamportsPerSignature)
    (hS : 0 < g0.targetSignaturesPerSlot)
    (hFits : 10 * g0.targetLamportsPerSignature * 2 ^ 32 < 2 ^ 127) :
    (∀ counts : List Nat, counts ≠ [] →
      bandMin g0.targetLamportsPerSignature ≤ (g0.governorAfter counts).lamportsPerSignature ∧
        (g0.governorAfter counts).lamportsPerSignature ≤ bandMax g0.targetLamportsPerSignature) ∧
    (∀ (counts : List Nat) (c : Nat), (counts ≠ [] ∨ g0.lamportsPerSignature < 2 ^ 127) →
      ((g0.governorAfter counts).newDerived c).lamportsPerSignature =
        towardDesired g0.targetLamportsPerSignature
          (desiredFee g0.targetLamportsPerSignature g0.targetSignaturesPerSlot c)
          (g0.governorAfter counts).lamportsPerSignature) ∧
    (∀ (counts : List Nat) (c n : Nat),
      (Nat.dist (g0.governorAfter counts).lamportsPerSignature
          (desiredFee g0.targetLamportsPerSignature g0.targetSignaturesPerSlot c) +
        feeStep g0.targetLamportsPerSignature - 1) / feeStep g0.targetLamportsPerSignature ≤ n →
      Nat.dist ((·.newDerived c)^[n] (g0.governorAfter counts)).lamportsPerSignature
          (desiredFee g0.targetLamportsPerSignature g0.targetSignaturesPerSlot c) ≤
        feeStep g0.targetLamportsPerSignature) ∧
    (∀ fees, fees < 2 ^ 128 → g0.burnPercent ≤ 100 → fees * g0.burnPercent < 2 ^ 128 →
      g0.burn fees = (fees - fees * g0.burnPercent / 100, fees * g0.burnPercent / 100) ∧
        fees * g0.burnPercent / 100 ≤ fees) := by
  refine ⟨fun counts hCounts => FeeRateGovernor.governorAfter_mem_band hT hS hFits hCounts,
    fun counts c hStart => ?_, fun counts c n hn => ?_, fun fees hFees hPercent hBurn =>
      FeeRateGovernor.burn_eq g0 hFees hPercent hBurn⟩
  · -- a derived fee is in the band, far below `2^127`
    have hFee : (g0.governorAfter counts).lamportsPerSignature < 2 ^ 127 := by
      rcases hStart with hCounts | hFee
      · have := FeeRateGovernor.governorAfter_mem_band hT hS hFits hCounts
        unfold bandMax at this
        omega
      · cases counts with
        | nil => exact hFee
        | cons c' rest =>
            have := FeeRateGovernor.governorAfter_mem_band hT hS hFits (List.cons_ne_nil c' rest)
            unfold bandMax at this
            omega
    have := FeeRateGovernor.newDerived_lamportsPerSignature (g := g0.governorAfter counts)
      (by simpa using hT) (by simpa using hS) (by simpa using hFits) hFee c
    simpa using this
  · have := FeeRateGovernor.dist_iterate_newDerived_le (g := g0.governorAfter counts)
      (by simpa using hT) (by simpa using hS) (by simpa using hFits) c n (by simpa using hn)
    simpa using this

/-- The default target of 10,000 lamports at 20,000 signatures per slot, from a zero fee. -/
theorem feeRateGovernor_spec_default_target :
    (FeeRateGovernor.governorAfter ⟨0, 10000, 20000, 0, 0, 50⟩ [0]).lamportsPerSignature = 5000 ∧
    let g0 : FeeRateGovernor := ⟨0, 10000, 20000, 0, 0, 50⟩
    (∀ counts : List Nat, counts ≠ [] →
      bandMin g0.targetLamportsPerSignature ≤ (g0.governorAfter counts).lamportsPerSignature ∧
        (g0.governorAfter counts).lamportsPerSignature ≤ bandMax g0.targetLamportsPerSignature) ∧
    (∀ (counts : List Nat) (c : Nat), (counts ≠ [] ∨ g0.lamportsPerSignature < 2 ^ 127) →
      ((g0.governorAfter counts).newDerived c).lamportsPerSignature =
        towardDesired g0.targetLamportsPerSignature
          (desiredFee g0.targetLamportsPerSignature g0.targetSignaturesPerSlot c)
          (g0.governorAfter counts).lamportsPerSignature) ∧
    (∀ (counts : List Nat) (c n : Nat),
      (Nat.dist (g0.governorAfter counts).lamportsPerSignature
          (desiredFee g0.targetLamportsPerSignature g0.targetSignaturesPerSlot c) +
        feeStep g0.targetLamportsPerSignature - 1) / feeStep g0.targetLamportsPerSignature ≤ n →
      Nat.dist ((·.newDerived c)^[n] (g0.governorAfter counts)).lamportsPerSignature
          (desiredFee g0.targetLamportsPerSignature g0.targetSignaturesPerSlot c) ≤
        feeStep g0.targetLamportsPerSignature) ∧
    (∀ fees, fees < 2 ^ 128 → g0.burnPercent ≤ 100 → fees * g0.burnPercent < 2 ^ 128 →
      g0.burn fees = (fees - fees * g0.burnPercent / 100, fees * g0.burnPercent / 100) ∧
        fees * g0.burnPercent / 100 ≤ fees) :=
  ⟨by decide, feeRateGovernor_spec _ (by decide) (by decide) (by decide)⟩

/-- A first fee of `2^128 - 1` reads as `-1` in `i128`: the gap to the desired fee of 10 looks
positive, the fee steps up from `-1` to `0`, and the clamp lifts it to 10, where one step toward
the desired fee from `2^128 - 1` would give the top of the band, 200. -/
theorem newDerived_from_negative_fee :
    (FeeRateGovernor.newDerived ⟨2 ^ 128 - 1, 20, 1, 0, 0, 50⟩ 0).lamportsPerSignature = 10 ∧
      towardDesired 20 (desiredFee 20 1 0) (2 ^ 128 - 1) = 200 := by
  decide

end PutValidator
