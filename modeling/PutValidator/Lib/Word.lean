import Mathlib

/-! Unsigned machine words kept as natural numbers. A value of an `N`-bit Rust integer is a
`Nat` below `2 ^ N`; the saturating and checked operations of the Rust integer types are
defined here once, with the width as a parameter. -/
namespace Lib.Word

/-- `uN::MAX` for an `N`-bit unsigned integer. -/
def maxValue (bits : Nat) : Nat := 2 ^ bits - 1

/-- `uN::saturating_add`: the sum, clamped at `uN::MAX`. -/
def saturatingAdd (bits a b : Nat) : Nat := min (a + b) (maxValue bits)

/-- `uN::checked_add`: the sum when it fits in `N` bits. -/
def checkedAdd (bits a b : Nat) : Option Nat :=
  if a + b ≤ maxValue bits then some (a + b) else none

/-- `uN::checked_mul`: the product when it fits in `N` bits. -/
def checkedMul (bits a b : Nat) : Option Nat :=
  if a * b ≤ maxValue bits then some (a * b) else none

/-- `uN::checked_sub`: the difference when it does not go below zero. -/
def checkedSub (a b : Nat) : Option Nat :=
  if b ≤ a then some (a - b) else none

/-- `uN::checked_div`: the quotient when the divisor is not zero. -/
def checkedDiv (a b : Nat) : Option Nat :=
  if b = 0 then none else some (a / b)

/-- `uN::try_from` of a wider word: the value when it fits in `N` bits. -/
def tryFrom (bits a : Nat) : Option Nat :=
  if a ≤ maxValue bits then some a else none

/-- `uN::saturating_mul`: the product, clamped at `uN::MAX`. -/
def saturatingMul (bits a b : Nat) : Nat := min (a * b) (maxValue bits)

/-- `uN::saturating_pow`: the power, clamped at `uN::MAX`. -/
def saturatingPow (bits base exp : Nat) : Nat := min (base ^ exp) (maxValue bits)

/-- `uN::trailing_zeros`: the index of the lowest set bit, `N` for zero. -/
def trailingZeros (bits n : Nat) : Nat := ((List.range bits).find? n.testBit).getD bits

/-- `uN::next_power_of_two`: the least power of two at or above `n`. Above `2 ^ (N - 1)` it
wraps to `0`, as it does in release builds. -/
def nextPowerOfTwo (bits n : Nat) : Nat :=
  (if n ≤ 1 then 1 else 2 ^ (Nat.log2 (n - 1) + 1)) % 2 ^ bits

/-- `uN::is_power_of_two`: a single bit set. -/
def isPowerOfTwo (n : Nat) : Bool := n == 2 ^ Nat.log2 n

/-- `wrapping_sub`, and the subtraction of an atomic `fetch_sub`: modulo `2^bits`. -/
def wrappingSub (bits a b : Nat) : Nat := (a + (2 ^ bits - b % 2 ^ bits)) % 2 ^ bits

/-- Adding back what was subtracted gives the start, modulo `2^bits`. -/
theorem wrappingSub_add_mod (bits a b : Nat) :
    (wrappingSub bits a b + b) % 2 ^ bits = a % 2 ^ bits := by
  have hPos : 0 < 2 ^ bits := Nat.two_pow_pos bits
  have hLt : b % 2 ^ bits < 2 ^ bits := Nat.mod_lt b hPos
  have hSplit : b % 2 ^ bits + 2 ^ bits * (b / 2 ^ bits) = b := Nat.mod_add_div b (2 ^ bits)
  have hSum : a + (2 ^ bits - b % 2 ^ bits) + b = a + 2 ^ bits * (1 + b / 2 ^ bits) := by
    rw [Nat.mul_add, Nat.mul_one]
    omega
  rw [wrappingSub, Nat.mod_add_mod, hSum, Nat.add_mul_mod_self_left]

/-- Below `2^bits`, subtracting at most the start does not wrap. -/
theorem wrappingSub_of_le {bits a b : Nat} (hb : b ≤ a) (ha : a < 2 ^ bits) :
    wrappingSub bits a b = a - b := by
  have hbLt : b < 2 ^ bits := Nat.lt_of_le_of_lt hb ha
  rw [wrappingSub, Nat.mod_eq_of_lt hbLt]
  have hEq : a + (2 ^ bits - b) = (a - b) + 2 ^ bits := by omega
  rw [hEq, Nat.add_mod_right, Nat.mod_eq_of_lt (by omega)]

/-- `+` on `uN` in a release build, which wraps. -/
def wrappingAdd (bits a b : Nat) : Nat := (a + b) % 2 ^ bits

/-- `*` on `uN` in a release build, which wraps. -/
def wrappingMul (bits a b : Nat) : Nat := (a * b) % 2 ^ bits

theorem wrappingAdd_lt (bits a b : Nat) : wrappingAdd bits a b < 2 ^ bits :=
  Nat.mod_lt _ (Nat.two_pow_pos bits)

/-- A running wrapping sum from a value in range is the sum of all its terms, wrapped once. -/
theorem foldl_wrappingAdd {α : Type} (f : α → Nat) :
    ∀ (l : List α) {a : Nat}, a < 2 ^ bits →
      l.foldl (fun acc x => wrappingAdd bits acc (f x)) a = wrappingAdd bits a (l.map f).sum
  | [], a, ha => by simp [wrappingAdd, Nat.mod_eq_of_lt ha]
  | x :: l, a, _ => by
      rw [List.foldl_cons, foldl_wrappingAdd f l (wrappingAdd_lt bits a (f x)), List.map_cons,
        List.sum_cons, wrappingAdd, wrappingAdd, wrappingAdd, Nat.mod_add_mod, Nat.add_assoc]

theorem wrappingAdd_wrappingMul (a b c : Nat) :
    wrappingAdd bits a (wrappingMul bits b c) = wrappingAdd bits a (b * c) := by
  rw [wrappingAdd, wrappingMul, Nat.add_mod_mod, wrappingAdd]

/-- Rust's `as uN` cast of an `f64`: rounds toward zero, saturates at `0` and `uN::MAX`, and
maps NaN to `0`. -/
def floatAs (bits : Nat) (x : Float) : Nat :=
  if x.isNaN || x < 1 then 0
  else if Float.ofNat (2 ^ bits) ≤ x then maxValue bits
  else
    -- the floor is `m * 2 ^ e` with `1/2 ≤ m < 1` and `1 ≤ e ≤ bits`; `m * 2 ^ 53` is whole
    let (m, e) := x.floor.frExp
    let mantissa := (m.scaleB 53).toUInt64.toNat
    if 53 ≤ e then mantissa * 2 ^ (e - 53).toNat else mantissa / 2 ^ (53 - e).toNat

/-- `iN::MIN` and `iN::MAX` for an `N`-bit signed integer. -/
def minSigned (bits : Nat) : Int := -2 ^ (bits - 1)

def maxSigned (bits : Nat) : Int := 2 ^ (bits - 1) - 1

/-- `iN::saturating_add`: the sum, clamped to the range of `iN`. -/
def saturatingAddSigned (bits : Nat) (a b : Int) : Int :=
  max (minSigned bits) (min (a + b) (maxSigned bits))

/-- `iN::saturating_sub`: the difference, clamped to the range of `iN`. -/
def saturatingSubSigned (bits : Nat) (a b : Int) : Int :=
  max (minSigned bits) (min (a - b) (maxSigned bits))

/-- `uN as iN`: the same bits read in two's complement. -/
def asSigned (bits n : Nat) : Int := if n < 2 ^ (bits - 1) then n else (n : Int) - 2 ^ bits

theorem saturatingAdd_le_maxValue (bits a b : Nat) : saturatingAdd bits a b ≤ maxValue bits :=
  min_le_right _ _

theorem saturatingAdd_of_le {bits a b : Nat} (h : a + b ≤ maxValue bits) :
    saturatingAdd bits a b = a + b :=
  min_eq_left h

/-- A saturated sum is at least the left operand as long as that operand is a word. -/
theorem le_saturatingAdd {bits a : Nat} (b : Nat) (h : a ≤ maxValue bits) :
    a ≤ saturatingAdd bits a b := by
  unfold saturatingAdd
  omega

/-- Saturating addition is monotone in the right operand. -/
theorem saturatingAdd_mono_right {bits a b c : Nat} (h : b ≤ c) :
    saturatingAdd bits a b ≤ saturatingAdd bits a c := by
  unfold saturatingAdd
  omega

/-- A value strictly below a saturated sum is below the plain sum. -/
theorem lt_add_of_lt_saturatingAdd {bits a b c : Nat} (h : c < saturatingAdd bits a b) :
    c < a + b := by
  unfold saturatingAdd at h
  omega

/-- A value strictly above a saturated sum that is still a word is above the plain sum. -/
theorem add_lt_of_saturatingAdd_lt {bits a b c : Nat} (h : saturatingAdd bits a b < c)
    (hc : c ≤ maxValue bits) : a + b < c := by
  unfold saturatingAdd at h
  omega

@[simp] theorem checkedAdd_eq_some {bits a b c : Nat} :
    checkedAdd bits a b = some c ↔ a + b ≤ maxValue bits ∧ a + b = c := by
  unfold checkedAdd
  split <;> simp_all

/-- A saturated sum below a bound under `uN::MAX` is the plain sum. -/
theorem add_le_of_saturatingAdd_le {bits a b c : Nat} (h : saturatingAdd bits a b ≤ c)
    (hc : c < maxValue bits) : a + b ≤ c := by
  unfold saturatingAdd at h
  omega

/-- Saturating sums can be taken in one go: a counter bumped one saturating step at a time ends
at the saturated total. -/
theorem saturatingAdd_saturatingAdd (bits a b c : Nat) :
    saturatingAdd bits (saturatingAdd bits a b) c = saturatingAdd bits a (b + c) := by
  unfold saturatingAdd
  omega

@[simp] theorem checkedMul_eq_some {bits a b c : Nat} :
    checkedMul bits a b = some c ↔ a * b ≤ maxValue bits ∧ a * b = c := by
  unfold checkedMul
  split <;> simp_all

@[simp] theorem checkedSub_eq_some {a b c : Nat} :
    checkedSub a b = some c ↔ b ≤ a ∧ a - b = c := by
  unfold checkedSub
  split <;> simp_all

@[simp] theorem checkedDiv_eq_some {a b c : Nat} :
    checkedDiv a b = some c ↔ b ≠ 0 ∧ a / b = c := by
  unfold checkedDiv
  split <;> simp_all

@[simp] theorem tryFrom_eq_some {bits a c : Nat} :
    tryFrom bits a = some c ↔ a ≤ maxValue bits ∧ a = c := by
  unfold tryFrom
  split <;> simp_all

/-- `uN::try_from(a).unwrap_or(uN::MAX)`: the value, clamped at `uN::MAX`. -/
theorem getD_tryFrom_maxValue (bits a : Nat) :
    (tryFrom bits a).getD (maxValue bits) = min a (maxValue bits) := by
  unfold tryFrom
  split <;> simp <;> omega

theorem isPowerOfTwo_iff {n : Nat} : isPowerOfTwo n = true ↔ ∃ k, n = 2 ^ k := by
  unfold isPowerOfTwo
  constructor
  · intro h
    exact ⟨Nat.log2 n, by simpa using h⟩
  · rintro ⟨k, rfl⟩
    simp [Nat.log2_two_pow]

/-! The two's complement reading of a word: `asSigned` and `i % 2 ^ bits` are inverse between
the words and the range of `iN`. -/

section Signed

variable {bits : Nat}

theorem two_pow_eq_two_mul (hBits : 0 < bits) : (2 : Int) ^ bits = 2 * 2 ^ (bits - 1) := by
  obtain ⟨k, rfl⟩ : ∃ k, bits = k + 1 := ⟨bits - 1, by omega⟩
  rw [Nat.add_sub_cancel, Int.pow_succ, Int.mul_comm]

theorem toNat_emod_two_pow_lt (i : Int) : (i % 2 ^ bits).toNat < 2 ^ bits := by
  have hPos : (0 : Int) < 2 ^ bits := Int.pow_pos (by decide)
  have hCast : ((2 ^ bits : Nat) : Int) = 2 ^ bits := by simp
  have := Int.emod_nonneg i (Int.ne_of_gt hPos)
  have := Int.emod_lt_of_pos i hPos
  omega

/-- Reading back the word of a value of `iN` gives the value. -/
theorem asSigned_toNat_emod (hBits : 0 < bits) {i : Int} (hLow : minSigned bits ≤ i)
    (hHigh : i ≤ maxSigned bits) : asSigned bits (i % 2 ^ bits).toNat = i := by
  have hM := two_pow_eq_two_mul hBits
  have hCast : ((2 ^ (bits - 1) : Nat) : Int) = 2 ^ (bits - 1) := by simp
  unfold minSigned at hLow
  unfold maxSigned at hHigh
  -- a value of `iN` is its own word when it is not negative, and `2 ^ bits` above it otherwise
  by_cases hi : 0 ≤ i
  · have hMod : i % 2 ^ bits = i := Int.emod_eq_of_lt hi (by omega)
    have hSmall : i.toNat < 2 ^ (bits - 1) := by omega
    simp only [asSigned, hMod, if_pos hSmall]
    omega
  · have hMod : i % 2 ^ bits = i + 2 ^ bits := by
      rw [Int.emod_eq_add_self_emod]
      exact Int.emod_eq_of_lt (by omega) (by omega)
    have hLarge : ¬(i + 2 ^ bits).toNat < 2 ^ (bits - 1) := by omega
    simp only [asSigned, hMod, if_neg hLarge]
    omega

/-- The word of the value a word reads as is the word. -/
theorem toNat_emod_asSigned {v : Nat} (hv : v < 2 ^ bits) :
    (asSigned bits v % 2 ^ bits).toNat = v := by
  have hvInt : (v : Int) < 2 ^ bits := by exact_mod_cast hv
  unfold asSigned
  split
  · rw [Int.emod_eq_of_lt (by omega) hvInt]
    rfl
  · rw [Int.sub_emod_right, Int.emod_eq_of_lt (by omega) hvInt]
    rfl

theorem asSigned_mem (hBits : 0 < bits) {v : Nat} (hv : v < 2 ^ bits) :
    minSigned bits ≤ asSigned bits v ∧ asSigned bits v ≤ maxSigned bits := by
  have hM := two_pow_eq_two_mul hBits
  have hvInt : (v : Int) < 2 ^ bits := by exact_mod_cast hv
  unfold asSigned minSigned maxSigned
  split
  · rename_i h
    have : (v : Int) < 2 ^ (bits - 1) := by exact_mod_cast h
    omega
  · rename_i h
    have : ¬(v : Int) < 2 ^ (bits - 1) := by exact_mod_cast h
    omega

end Signed

/-! Powers of two: the products and powers that stay below `uN::MAX`, and the bit counts of a
power of two. -/

section PowersOfTwo

variable {bits k : Nat}

theorem saturatingMul_of_le {a b : Nat} (h : a * b ≤ maxValue bits) :
    saturatingMul bits a b = a * b :=
  min_eq_left h

theorem two_pow_le_maxValue (h : k < bits) : 2 ^ k ≤ maxValue bits := by
  have := Nat.pow_lt_pow_right (show 1 < 2 by decide) h
  unfold maxValue
  omega

theorem saturatingPow_two_of_lt (h : k < bits) : saturatingPow bits 2 k = 2 ^ k :=
  min_eq_left (two_pow_le_maxValue h)

theorem trailingZeros_two_pow (h : k < bits) : trailingZeros bits (2 ^ k) = k := by
  have hFind : (List.range bits).find? (2 ^ k).testBit = some k := by
    rw [List.find?_range_eq_some]
    refine ⟨by simp, List.mem_range.mpr h, fun j hj => ?_⟩
    simp [Nat.ne_of_gt hj]
  rw [trailingZeros, hFind, Option.getD_some]

/-- The next power of two of a number in `(2 ^ k / 2, 2 ^ k]` is `2 ^ k`. -/
theorem nextPowerOfTwo_eq {n : Nat} (hLe : n ≤ 2 ^ k) (hLt : 2 ^ k < 2 * n) (h : k < bits) :
    nextPowerOfTwo bits n = 2 ^ k := by
  have hBits : 2 ^ k < 2 ^ bits := Nat.pow_lt_pow_right (show 1 < 2 by decide) h
  unfold nextPowerOfTwo
  cases k with
  | zero =>
      have hOne : n ≤ 1 := by simpa using hLe
      rw [if_pos hOne]
      exact Nat.mod_eq_of_lt hBits
  | succ k =>
      -- `n - 1` lies in `[2 ^ k, 2 ^ (k + 1))`, so its `log2` is `k`
      have hPow : 2 ^ (k + 1) = 2 * 2 ^ k := Nat.pow_succ'
      have hLog : Nat.log2 (n - 1) = k := by
        rw [Nat.log2_eq_iff (by omega)]
        omega
      rw [if_neg (by omega), hLog]
      exact Nat.mod_eq_of_lt hBits

end PowersOfTwo

end Lib.Word
