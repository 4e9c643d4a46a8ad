import Lox.Number.Shortest
import Mathlib.Data.Rat.Cast.Order
import Mathlib.Algebra.Order.Field.Power
import Mathlib.Tactic.Linarith
import Mathlib.Tactic.Positivity
import Mathlib.Tactic.Ring

/-!
The numbers that read back as one double. They fill a range around its value, up to the midpoints
to the doubles next to it; a midpoint itself belongs to the one with the even coefficient. So no
number is in two of these ranges, and any decimal in the range of a double tells which double it
is. The shortest decimal is in it, whatever is done about ties.
-/

namespace Lox.Number

def Binary.value (magnitude : Binary) : ℚ := magnitude.coefficient * 2 ^ magnitude.exponent

def Decimal.value (number : Decimal) : ℚ := number.digits * 10 ^ number.exponent

/-- Half the gap to the next double below, in quarters of the last binary place. -/
def Binary.below (magnitude : Binary) : Nat := if magnitude.narrowBelow then 1 else 2

/-- The number reads back as this double: in quarters of the last binary place it is not farther
away than the midpoints, and nearer than these if the coefficient is odd. -/
def Binary.Covers (magnitude : Binary) (number : ℚ) : Prop :=
  ∃ quarters : ℚ, number = quarters * 2 ^ (magnitude.exponent - 2) ∧
    (4 * magnitude.coefficient - magnitude.below ≤ quarters ∧
      quarters ≤ 4 * magnitude.coefficient + 2) ∧
    (magnitude.coefficient % 2 = 1 →
      4 * magnitude.coefficient - magnitude.below < quarters ∧
        quarters < 4 * magnitude.coefficient + 2)

/-- A magnitude as it is taken from the bits of a double. Only the smallest exponent goes with
coefficients that have fewer than fifty-three bits. -/
structure Binary.Canonical (magnitude : Binary) : Prop where
  small : magnitude.coefficient < 2 ^ 53
  lowest : -1074 ≤ magnitude.exponent
  leading : 2 ^ 52 ≤ magnitude.coefficient ∨ magnitude.exponent = -1074
  narrow : magnitude.narrowBelow = true ↔
    magnitude.coefficient = 2 ^ 52 ∧ -1074 < magnitude.exponent

theorem two_pow_52 : Nat.pow 2 52 = 4503599627370496 := by decide

theorem two_pow_11 : Nat.pow 2 11 = 2048 := by decide

theorem canonical_of_bits (bits : UInt64) : (Binary.ofBits bits).Canonical := by
  have fraction : bits.toNat % 4503599627370496 < 4503599627370496 := Nat.mod_lt _ (by decide)
  rw [Binary.ofBits, two_pow_52, two_pow_11]
  split_ifs with subnormal
  · exact ⟨by dsimp only; omega, le_refl _, .inr rfl, by simp⟩
  · refine ⟨by dsimp only; omega, by dsimp only; omega, .inl (by dsimp only; omega), ?_⟩
    simp only [Bool.and_eq_true, decide_eq_true_eq]
    omega

section Ranges

variable {magnitude other : Binary} {number : ℚ}

theorem Binary.below_bounds (magnitude : Binary) : 1 ≤ magnitude.below ∧ magnitude.below ≤ 2 := by
  unfold below
  split_ifs <;> decide

/-- A double covers its own value. -/
theorem Binary.covers_value (magnitude : Binary) : magnitude.Covers magnitude.value := by
  obtain ⟨positive, -⟩ := magnitude.below_bounds
  have positive : (1 : ℚ) ≤ magnitude.below := by exact_mod_cast positive
  have strict : 4 * (magnitude.coefficient : ℚ) - magnitude.below < 4 * magnitude.coefficient ∧
      4 * (magnitude.coefficient : ℚ) < 4 * magnitude.coefficient + 2 :=
    ⟨by linarith, by linarith⟩
  refine ⟨4 * magnitude.coefficient, ?_, ⟨strict.1.le, strict.2.le⟩, fun _ => strict⟩
  rw [value, zpow_sub₀ (by norm_num)]
  ring

/-- With one exponent, coefficients apart by one share a midpoint at most, and one of them is
odd. -/
theorem Binary.not_covered_beside (same : magnitude.exponent = other.exponent)
    (less : magnitude.coefficient < other.coefficient) (covers : magnitude.Covers number) :
    ¬other.Covers number := by
  rintro ⟨quarters, isNumber, ⟨low, -⟩, odd⟩
  obtain ⟨alsoQuarters, alsoNumber, ⟨-, high⟩, alsoOdd⟩ := covers
  have unit : (0 : ℚ) < 2 ^ (other.exponent - 2) := by positivity
  have equal : alsoQuarters = quarters := by
    rw [isNumber, same] at alsoNumber
    exact (mul_right_cancel₀ unit.ne' alsoNumber).symm
  subst equal
  have gap : (other.below : ℚ) ≤ 2 := by exact_mod_cast other.below_bounds.2
  have next : (magnitude.coefficient : ℚ) + 1 ≤ other.coefficient := by exact_mod_cast less
  rcases Nat.mod_two_eq_zero_or_one magnitude.coefficient with even | isOdd
  · rcases Nat.mod_two_eq_zero_or_one other.coefficient with alsoEven | isOdd
    · have farther : (magnitude.coefficient : ℚ) + 2 ≤ other.coefficient := by
        exact_mod_cast (by omega : magnitude.coefficient + 2 ≤ other.coefficient)
      linarith
    · linarith [(odd isOdd).1]
  · linarith [(alsoOdd isOdd).2]

/-- A double with a greater exponent begins at the midpoint to the largest coefficient of a smaller
one, which is odd. -/
theorem Binary.not_covered_above (canonical : magnitude.Canonical) (alsoCanonical : other.Canonical)
    (less : magnitude.exponent < other.exponent) (covers : magnitude.Covers number) :
    ¬other.Covers number := by
  rintro ⟨quarters, isNumber, ⟨low, -⟩, -⟩
  obtain ⟨alsoQuarters, alsoNumber, ⟨-, high⟩, odd⟩ := covers
  have lowest := canonical.lowest
  have leading : 2 ^ 52 ≤ other.coefficient := alsoCanonical.leading.resolve_right (by omega)
  obtain ⟨steps, apart⟩ : ∃ steps : ℕ, other.exponent = magnitude.exponent + (steps + 1 : ℕ) :=
    ⟨(other.exponent - magnitude.exponent - 1).toNat, by omega⟩
  have scaled : alsoQuarters = quarters * 2 ^ (steps + 1) := by
    have unit : (0 : ℚ) < 2 ^ (magnitude.exponent - 2) := by positivity
    have split : other.exponent - 2 = (magnitude.exponent - 2) + (steps + 1 : ℕ) := by omega
    rw [isNumber, split, zpow_add₀ (by norm_num), zpow_natCast] at alsoNumber
    refine mul_right_cancel₀ unit.ne' ?_
    rw [← alsoNumber]
    ring
  -- The range of the greater one, in quarters of the smaller one's last place, is from here on.
  have begins : (2 : ℚ) ^ 55 - 2 ≤ 2 * quarters := by
    by_cases first : other.coefficient = 2 ^ 52
    · have narrow : other.narrowBelow = true := alsoCanonical.narrow.mpr ⟨first, by omega⟩
      have below : other.below = 1 := by rw [Binary.below, if_pos narrow]
      rw [below, first] at low
      push_cast at low
      linarith
    · have further : (2 : ℚ) ^ 52 + 1 ≤ other.coefficient := by
        exact_mod_cast (by omega : 2 ^ 52 + 1 ≤ other.coefficient)
      have gap : (other.below : ℚ) ≤ 2 := by exact_mod_cast other.below_bounds.2
      linarith
  have twice : (2 : ℚ) ≤ 2 ^ (steps + 1) := by
    rw [pow_succ]
    linarith [one_le_pow₀ (one_le_two : (1 : ℚ) ≤ 2) (n := steps)]
  have reached : 2 * quarters ≤ alsoQuarters := by
    rw [scaled, mul_comm]
    exact mul_le_mul_of_nonneg_left twice (by linarith)
  by_cases last : magnitude.coefficient = 2 ^ 53 - 1
  · have strict := (odd (by omega)).2
    rw [last] at strict
    push_cast at strict
    linarith
  · have small := canonical.small
    have smaller : (magnitude.coefficient : ℚ) + 2 ≤ 2 ^ 53 := by
      exact_mod_cast (by omega : magnitude.coefficient + 2 ≤ 2 ^ 53)
    linarith

theorem Binary.Canonical.eq_of_fields (canonical : magnitude.Canonical)
    (alsoCanonical : other.Canonical) (coefficient : magnitude.coefficient = other.coefficient)
    (exponent : magnitude.exponent = other.exponent) : magnitude = other := by
  have narrow : magnitude.narrowBelow = other.narrowBelow := by
    rw [Bool.eq_iff_iff, canonical.narrow, alsoCanonical.narrow, coefficient, exponent]
  cases magnitude
  cases other
  congr

/-- No number reads back as two doubles. -/
theorem Binary.Covers.unique (canonical : magnitude.Canonical) (alsoCanonical : other.Canonical)
    (covers : magnitude.Covers number) (alsoCovers : other.Covers number) : magnitude = other := by
  rcases lt_trichotomy magnitude.exponent other.exponent with less | same | greater
  · exact absurd alsoCovers (Binary.not_covered_above canonical alsoCanonical less covers)
  · rcases lt_trichotomy magnitude.coefficient other.coefficient with less | equal | greater
    · exact absurd alsoCovers (Binary.not_covered_beside same less covers)
    · exact canonical.eq_of_fields alsoCanonical equal same
    · exact absurd covers (Binary.not_covered_beside same.symm greater alsoCovers)
  · exact absurd covers (Binary.not_covered_above alsoCanonical canonical greater alsoCovers)

end Ranges

section Intervals

variable {magnitude : Binary}

/-- The interval counts quarters of the last binary place in units that are powers of ten. -/
theorem Binary.interval_scale (magnitude : Binary) : ∃ scale : Nat, 0 < scale ∧
    (scale : ℚ) * 10 ^ magnitude.interval.unit = 2 ^ (magnitude.exponent - 2) ∧
    magnitude.interval.low = (4 * magnitude.coefficient - magnitude.below) * scale ∧
    magnitude.interval.value = 4 * magnitude.coefficient * scale ∧
    magnitude.interval.high = (4 * magnitude.coefficient + 2) * scale := by
  by_cases negative : magnitude.exponent - 2 < 0
  · refine ⟨Nat.pow 5 (-(magnitude.exponent - 2)).toNat, Nat.pow_pos (by decide), ?_, ?_⟩
    · obtain ⟨places, isPlaces⟩ : ∃ places : ℕ, magnitude.exponent - 2 = -places :=
        ⟨(-(magnitude.exponent - 2)).toNat, by omega⟩
      have unit : magnitude.interval.unit = -places := by
        rw [interval, ← isPlaces]
        exact min_eq_left (le_of_lt negative)
      rw [unit, isPlaces, neg_neg, Int.toNat_natCast, Nat.pow_eq, Nat.cast_pow, zpow_neg, zpow_neg,
        zpow_natCast, zpow_natCast, show (10 : ℚ) = 5 * 2 by norm_num, mul_pow, mul_inv,
        Nat.cast_ofNat, ← mul_assoc, mul_inv_cancel₀ (by positivity), one_mul]
    · simp [interval, below, negative]
  · refine ⟨Nat.pow 2 (magnitude.exponent - 2).toNat, Nat.pow_pos (by decide), ?_, ?_⟩
    · obtain ⟨places, isPlaces⟩ : ∃ places : ℕ, magnitude.exponent - 2 = places :=
        ⟨(magnitude.exponent - 2).toNat, by omega⟩
      have unit : magnitude.interval.unit = 0 := by
        rw [interval]
        exact min_eq_right (not_lt.mp negative)
      rw [unit, isPlaces, Int.toNat_natCast, Nat.pow_eq, Nat.cast_pow, zpow_zero, mul_one,
        zpow_natCast, Nat.cast_ofNat]
    · simp [interval, below, negative]

variable {tie : Tie}

theorem Binary.contained_iff {candidate : Nat} : magnitude.interval.contains candidate = true ↔
    (magnitude.interval.low ≤ candidate ∧ candidate ≤ magnitude.interval.high) ∧
      (magnitude.coefficient % 2 = 1 →
        magnitude.interval.low < candidate ∧ candidate < magnitude.interval.high) := by
  have isClosed : magnitude.interval.closed = decide (magnitude.coefficient % 2 = 0) := rfl
  rw [Interval.contains, isClosed]
  split_ifs with even <;>
    simp only [decide_eq_true_eq] at even <;>
    simp only [Bool.and_eq_true, decide_eq_true_eq] <;> omega

/-- What an interval contains reads back. -/
theorem Binary.covers_of_contained (positive : 0 < magnitude.coefficient) {candidate : Nat}
    (contained : magnitude.interval.contains candidate = true) :
    magnitude.Covers (candidate * 10 ^ magnitude.interval.unit) := by
  obtain ⟨scale, isPositive, isUnit, low, -, high⟩ := magnitude.interval_scale
  have unit : (0 : ℚ) < scale := by exact_mod_cast isPositive
  have fits : magnitude.below ≤ 4 * magnitude.coefficient := by
    have bounded := magnitude.below_bounds
    omega
  have isLow : (magnitude.interval.low : ℚ) =
      (4 * magnitude.coefficient - magnitude.below) * scale := by
    rw [low]
    push_cast [fits]
    ring
  have isHigh : (magnitude.interval.high : ℚ) = (4 * magnitude.coefficient + 2) * scale := by
    rw [high]
    push_cast
    ring
  obtain ⟨⟨above, below⟩, strict⟩ := contained_iff.mp contained
  refine ⟨candidate / scale, ?_, ?_, fun odd => ?_⟩
  · rw [← isUnit, ← mul_assoc, div_mul_cancel₀ _ unit.ne']
  · rw [le_div_iff₀ unit, div_le_iff₀ unit, ← isLow, ← isHigh]
    exact ⟨by exact_mod_cast above, by exact_mod_cast below⟩
  · rw [lt_div_iff₀ unit, div_lt_iff₀ unit, ← isLow, ← isHigh]
    exact_mod_cast strict odd

theorem Interval.on_grid_contained {interval : Interval} {grid multiple : Nat}
    (found : interval.onGrid? tie grid = some multiple) :
    interval.contains (multiple * grid) = true := by
  unfold onGrid? at found
  dsimp only at found
  have next : (interval.value / grid + 1) * grid = interval.value / grid * grid + grid :=
    Nat.succ_mul ..
  split at found <;> grind

theorem Binary.value_contained (positive : 0 < magnitude.coefficient) :
    magnitude.interval.contains magnitude.interval.value = true := by
  obtain ⟨scale, isPositive, -, low, value, high⟩ := magnitude.interval_scale
  have gap := magnitude.below_bounds
  have above : magnitude.interval.low < magnitude.interval.value := by
    rw [low, value]
    exact Nat.mul_lt_mul_of_pos_right (by omega) isPositive
  have beneath : magnitude.interval.value < magnitude.interval.high := by
    rw [value, high]
    exact Nat.mul_lt_mul_of_pos_right (by omega) isPositive
  exact contained_iff.mpr ⟨⟨above.le, beneath.le⟩, fun _ => ⟨above, beneath⟩⟩

/-- The search stops at a grid with a point in the interval, or goes on with a finer one. -/
theorem Interval.shortest_from_succ (interval : Interval) (tie : Tie) (places : Nat) :
    interval.shortestFrom tie (places + 1) =
      match interval.onGrid? tie (10 ^ (places + 1)) with
      | some digits => ⟨digits, interval.unit + (places + 1 : Nat)⟩
      | none => interval.shortestFrom tie places := rfl

/-- The search ends at a number in the interval. -/
theorem Interval.shortest_contained {interval : Interval} (tie : Tie)
    (atValue : interval.contains interval.value = true) (places : Nat) :
    ∃ candidate : Nat, interval.contains candidate = true ∧
      (interval.shortestFrom tie places).value = candidate * 10 ^ interval.unit := by
  induction places with
  | zero => exact ⟨interval.value, atValue, rfl⟩
  | succ places induction =>
      rw [shortest_from_succ]
      cases found : interval.onGrid? tie (10 ^ (places + 1)) with
      | none => exact induction
      | some multiple =>
          refine ⟨multiple * 10 ^ (places + 1), on_grid_contained found, ?_⟩
          rw [Decimal.value, zpow_add₀ (by norm_num), zpow_natCast]
          push_cast
          ring

/-- The shortest decimal reads back. -/
theorem Binary.shortest_covered (magnitude : Binary) (tie : Tie) :
    magnitude.Covers (magnitude.shortest tie).value := by
  rw [shortest]
  split_ifs with zero
  · have nothing : (⟨0, 0⟩ : Decimal).value = magnitude.value := by
      simp [Decimal.value, Binary.value, zero]
    rw [nothing]
    exact magnitude.covers_value
  · have positive := Nat.pos_of_ne_zero zero
    obtain ⟨candidate, contained, same⟩ := Interval.shortest_contained tie
      (value_contained positive) (magnitude.interval.value.log2 / 3 + 1)
    rw [same]
    exact covers_of_contained positive contained

end Intervals

end Lox.Number
