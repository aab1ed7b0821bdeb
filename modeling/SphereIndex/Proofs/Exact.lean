import Mathlib.Analysis.Real.Sqrt
import Mathlib.Analysis.SpecialFunctions.Log.Base
import SphereIndex.Vector

/-!
# Exact arithmetic

The reading of every formula in exact arithmetic: the scalars are the real numbers with their own
operations.  Where an operation of the class and the operation of the reals are the same, a formula
at the reals is by definition the one written with the operations of the reals.
-/

namespace SphereIndex

/-- **Exact arithmetic**: every operation returns its exact value. -/
noncomputable instance : Scalar ℝ where
  -- Zero and one are those of the reals by definition, like all larger literals.
  ofNat
    | 0 => 0
    | 1 => 1
    | n + 2 => ((n + 2 : ℕ) : ℝ)
  ofDecimal m e := m / 10 ^ e
  add x y := x + y
  sub x y := x - y
  mul x y := x * y
  div x y := x / y
  neg x := -x
  abs x := |x|
  sqrt := Real.sqrt
  log2 := Real.logb 2
  floor x := ⌊x⌋
  round x := if 0 ≤ x then ⌊x + 1 / 2⌋ else -⌊1 / 2 - x⌋
  lt x y := x < y
  le x y := x ≤ y
  eq x y := decide (x = y)
  isNegative x := decide (x < 0)
  isFinite _ := true
  toNat x := ⌊x⌋₊
  decidableLt x y := inferInstanceAs (Decidable (x < y))
  decidableLe x y := inferInstanceAs (Decidable (x ≤ y))

namespace Scalar

theorem ofNat_real (n : ℕ) : (Scalar.ofNat n : ℝ) = n := by
  match n with
  | 0 => exact Nat.cast_zero.symm
  | 1 => exact Nat.cast_one.symm
  | n + 2 => rfl

theorem eq_real (x y : ℝ) : (Scalar.eq x y = true) ↔ x = y := decide_eq_true_iff

theorem max_real (x y : ℝ) : Scalar.max x y = Max.max x y := by
  change (if x < y then y else if decide (x = x) = true then x else y) = _
  rw [decide_eq_true rfl, if_pos rfl]
  split
  · rename_i h
    exact (max_eq_right h.le).symm
  · rename_i h
    exact (max_eq_left (not_lt.1 h)).symm

theorem min_real (x y : ℝ) : Scalar.min x y = Min.min x y := by
  change (if y < x then y else if decide (x = x) = true then x else y) = _
  rw [decide_eq_true rfl, if_pos rfl]
  split
  · rename_i h
    exact (min_eq_right h.le).symm
  · rename_i h
    exact (min_eq_left (not_lt.1 h)).symm

theorem epsilon_real : (Scalar.epsilon : ℝ) = 1 / 2 ^ 52 := by
  change 1 / (Scalar.ofNat (twoPow 52) : ℝ) = _
  rw [ofNat_real]
  norm_num [twoPow]

theorem epsilon_pos : 0 < (Scalar.epsilon : ℝ) := by
  rw [epsilon_real]
  norm_num

theorem epsilon_nonneg : 0 ≤ (Scalar.epsilon : ℝ) := epsilon_pos.le

end Scalar

end SphereIndex
