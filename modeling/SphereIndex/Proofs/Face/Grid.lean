import Mathlib.Tactic.Linarith
import Mathlib.Tactic.NormNum
import SphereIndex.Face.Grid
import SphereIndex.Proofs.Exact

/-!
# The lines of the grid

In exact arithmetic the map from `s` to the coordinate of a face is strictly increasing and
`Grid.ofFace` is its inverse.  The sides of the leaf cells are therefore an ascending sequence of
lines, and the leaf cell of a coordinate is the one between whose lines it lies.
-/

namespace SphereIndex.Grid

/-! ## 1. The coordinate of `s` -/

theorem toFace_of_ge {s : ℝ} (h : 1 / 2 ≤ s) : toFace s = 1 / 3 * (4 * s * s - 1) := if_pos h

theorem toFace_of_lt {s : ℝ} (h : s < 1 / 2) : toFace s = 1 / 3 * (1 - 4 * (1 - s) * (1 - s)) :=
  if_neg (not_le.2 h)

theorem toFace_strictMono : StrictMono (toFace : ℝ → ℝ) := by
  intro s t hst
  rcases lt_or_ge s (1 / 2) with hs | hs
  · rw [toFace_of_lt hs]
    rcases lt_or_ge t (1 / 2) with ht | ht
    · rw [toFace_of_lt ht]
      nlinarith
    · rw [toFace_of_ge ht]
      nlinarith
  · rw [toFace_of_ge hs, toFace_of_ge (hs.trans hst.le)]
    nlinarith

theorem ofFace_of_nonneg {u : ℝ} (h : 0 ≤ u) : ofFace u = 1 / 2 * Real.sqrt (1 + 3 * u) := if_pos h

theorem ofFace_of_neg {u : ℝ} (h : u < 0) : ofFace u = 1 - 1 / 2 * Real.sqrt (1 - 3 * u) :=
  if_neg (not_le.2 h)

theorem toFace_ofFace (u : ℝ) : toFace (ofFace u) = u := by
  rcases lt_or_ge u 0 with h | h
  · -- The root is above 1, so `ofFace` stays in the same half.
    have hroot : 1 < Real.sqrt (1 - 3 * u) := by
      rw [Real.lt_sqrt zero_le_one]
      linarith
    have hsq := Real.mul_self_sqrt (show 0 ≤ 1 - 3 * u by linarith)
    rw [ofFace_of_neg h, toFace_of_lt (by linarith)]
    linear_combination -1 / 3 * hsq
  · have hroot : 1 ≤ Real.sqrt (1 + 3 * u) := by
      rw [Real.le_sqrt' zero_lt_one]
      linarith
    have hsq := Real.mul_self_sqrt (show 0 ≤ 1 + 3 * u by linarith)
    rw [ofFace_of_nonneg h, toFace_of_ge (by linarith)]
    linear_combination 1 / 3 * hsq

theorem le_ofFace_iff (s u : ℝ) : s ≤ ofFace u ↔ toFace s ≤ u := by
  rw [← toFace_strictMono.le_iff_le, toFace_ofFace]

/-! ## 2. Lines -/

/-- **The coordinate of the lower side of leaf cell `n`**, or of the upper side of the last one. -/
noncomputable def line (n : ℕ) : ℝ := toFace (side n)

theorem side_eq (n : ℕ) : (side n : ℝ) = n / 2 ^ 30 := by
  change (Scalar.ofNat n : ℝ) / Scalar.ofNat faceSize = _
  rw [Scalar.ofNat_real, Scalar.ofNat_real]
  norm_num [faceSize, maxLevel, twoPow]

theorem line_strictMono : StrictMono line := by
  intro m n hmn
  apply toFace_strictMono
  rw [side_eq, side_eq]
  have : (m : ℝ) < n := Nat.cast_lt.2 hmn
  linarith

theorem line_zero : line 0 = -1 := by
  rw [line, side_eq, toFace_of_lt (by norm_num)]
  norm_num

theorem line_middle : line (2 ^ 29) = 0 := by
  rw [line, side_eq, toFace_of_ge (by norm_num)]
  norm_num

theorem line_last : line (2 ^ 30) = 1 := by
  rw [line, side_eq, toFace_of_ge (by norm_num)]
  norm_num

/-! ## 3. Leaf cells -/

theorem floor_round (x : ℝ) :
    Scalar.toNat (Scalar.round x : ℝ) = ⌊x + 1 / 2⌋₊ := by
  change ⌊(if 0 ≤ x then (⌊x + 1 / 2⌋ : ℝ) else -(⌊1 / 2 - x⌋ : ℝ))⌋₊ = _
  split
  · rw [← Int.floor_toNat, Int.floor_intCast, Int.floor_toNat]
  · -- Below zero both sides are 0.
    rename_i hx
    have hx := not_le.1 hx
    have hfloor : 0 ≤ ⌊1 / 2 - x⌋ := Int.floor_nonneg.2 (by linarith)
    have hneg : -(⌊1 / 2 - x⌋ : ℝ) ≤ 0 := neg_nonpos.2 (Int.cast_nonneg hfloor)
    rw [Nat.floor_of_nonpos hneg, Nat.floor_eq_zero.2 (by linarith)]

theorem leaf_eq (s : ℝ) : leaf s = min ⌊2 ^ 30 * s⌋₊ (2 ^ 30 - 1) := by
  change min (Scalar.toNat (Scalar.round ((Scalar.ofNat faceSize : ℝ) * s - 1 / 2))) _ = _
  rw [floor_round, Scalar.ofNat_real, sub_add_cancel]
  congr 3
  norm_num [faceSize, maxLevel, twoPow]

/-- **A leaf cell and the lines below its coordinates.** -/
theorem le_leafAt_iff {n : ℕ} (h0 : 0 < n) (hn : n < 2 ^ 30) (u : ℝ) :
    n ≤ leafAt u ↔ line n ≤ u := by
  rw [leafAt, leaf_eq, le_min_iff, and_iff_left (by omega), Nat.le_floor_iff' (by omega), line,
    ← le_ofFace_iff, side_eq, div_le_iff₀ (by norm_num), mul_comm]

theorem leafAt_lt (u : ℝ) : leafAt u < 2 ^ 30 := leaf_lt _

theorem leafAt_le_iff {n : ℕ} {u : ℝ} (hn : n + 1 < 2 ^ 30) : leafAt u ≤ n ↔ u < line (n + 1) := by
  rw [← not_lt, ← Nat.succ_le_iff, ← not_le, ← le_leafAt_iff n.succ_pos hn u]

/-- This holds beyond the face too, where the leaf cell is the first or the last one. -/
theorem leafAt_le {n : ℕ} {u : ℝ} (h : u < line (n + 1)) : leafAt u ≤ n := by
  rcases Nat.lt_or_ge (n + 1) (2 ^ 30) with hn | hn
  · exact (leafAt_le_iff hn).2 h
  · have := leafAt_lt u
    omega

theorem le_leafAt {n : ℕ} {u : ℝ} (hn : n < 2 ^ 30) (h : line n ≤ u) : n ≤ leafAt u := by
  rcases Nat.eq_zero_or_pos n with rfl | hpos
  · exact Nat.zero_le _
  · exact (le_leafAt_iff hpos hn u).2 h

theorem leafAt_mono : Monotone (leafAt : ℝ → ℕ) := by
  intro u w huw
  rcases Nat.eq_zero_or_pos (leafAt u) with h | h
  · rw [h]
    exact Nat.zero_le _
  · rw [le_leafAt_iff h (leafAt_lt u)]
    exact ((le_leafAt_iff h (leafAt_lt u) u).1 le_rfl).trans huw

theorem line_leafAt_le {u : ℝ} (h : -1 ≤ u) : line (leafAt u) ≤ u := by
  rcases Nat.eq_zero_or_pos (leafAt u) with h0 | h0
  · rwa [h0, line_zero]
  · exact (le_leafAt_iff h0 (leafAt_lt u) u).1 le_rfl

theorem lt_line_leafAt {u : ℝ} (h : u < 1) : u < line (leafAt u + 1) := by
  rcases Nat.lt_or_ge (leafAt u + 1) (2 ^ 30) with hn | hn
  · by_contra hge
    exact absurd ((le_leafAt_iff (Nat.succ_pos _) hn u).2 (not_lt.1 hge)) (Nat.not_succ_le_self _)
  · have heq : leafAt u + 1 = 2 ^ 30 := by
      have := leafAt_lt u
      omega
    rwa [heq, line_last]

theorem leafAt_one : leafAt (1 : ℝ) + 1 = 2 ^ 30 := by
  have hle : line (2 ^ 30 - 1) ≤ 1 := by
    rw [← line_last]
    exact line_strictMono.monotone (Nat.sub_le _ _)
  have := (le_leafAt_iff (by norm_num) (by norm_num) 1).2 hle
  have := leafAt_lt 1
  omega

end SphereIndex.Grid
