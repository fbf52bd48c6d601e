import Mathlib

/-! Binary64 arithmetic on non-negative operands, as IEEE 754 rounds it: each result is the value
nearest to the exact one, ties to even, with a 53-bit significand; a division by zero gives
infinity, or NaN for `0 / 0`. The exponent range is not bounded, so no result overflows or is
subnormal; for operands below `2 ^ 128` and products of a few of them no binary64 result is
either. The definitions compute, so that a cast such as `(x * y) as u128` can be evaluated. -/
namespace Lib.Binary64

/-- A non-negative binary64 value: `m * 2 ^ e`, infinity, or NaN. -/
inductive F64
  | finite (m : Nat) (e : Int)
  | inf
  | nan
deriving DecidableEq, Repr

namespace F64

/-- The quotient and remainder of `a * 2 ^ s` by `b`, for a scale `s` of either sign; the
remainder is taken against `b * 2 ^ (-s)` when `s` is negative. -/
def scaledDivMod (a b : Nat) (s : Int) : Nat × Nat :=
  (a * 2 ^ s.toNat / (b * 2 ^ (-s).toNat), a * 2 ^ s.toNat % (b * 2 ^ (-s).toNat))

/-- The binary64 value nearest to `a / b * 2 ^ e`, ties to even. -/
def ofScaled (a b : Nat) (e : Int) : F64 :=
  if b = 0 then if a = 0 then nan else inf
  else if a = 0 then finite 0 0
  else
    -- `a / b` lies in `(2 ^ (L - 1), 2 ^ (L + 1))`: this scale leaves a quotient of 52 or 53
    -- bits, and one more step of scale makes it 53
    let s₀ : Int := 52 - ((a.log2 : Int) - b.log2)
    let s := if (scaledDivMod a b s₀).1 < 2 ^ 52 then s₀ + 1 else s₀
    let q := (scaledDivMod a b s).1
    let twiceRem := 2 * (scaledDivMod a b s).2
    let den := b * 2 ^ (-s).toNat
    finite (if den < twiceRem ∨ (twiceRem = den ∧ q % 2 = 1) then q + 1 else q) (e - s)

/-- `n as f64`. -/
def ofNat (n : Nat) : F64 := ofScaled n 1 0

def mul : F64 → F64 → F64
  | finite m₁ e₁, finite m₂ e₂ => ofScaled (m₁ * m₂) 1 (e₁ + e₂)
  | nan, _ | _, nan => nan
  | inf, finite 0 _ | finite 0 _, inf => nan
  | _, _ => inf

def div : F64 → F64 → F64
  | finite m₁ e₁, finite m₂ e₂ => ofScaled m₁ m₂ (e₁ - e₂)
  | nan, _ | _, nan | inf, inf => nan
  | inf, finite _ _ => inf
  | finite _ _, inf => finite 0 0

instance : Mul F64 := ⟨mul⟩

instance : Div F64 := ⟨div⟩

/-- Rust's `as uN` of an `f64`: toward zero, saturating at `uN::MAX`, NaN to 0. -/
def toNatSat (bits : Nat) : F64 → Nat
  | finite m e => min (if 0 ≤ e then m * 2 ^ e.toNat else m / 2 ^ (-e).toNat) (2 ^ bits - 1)
  | inf => 2 ^ bits - 1
  | nan => 0

end F64

end Lib.Binary64
