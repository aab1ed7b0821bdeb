import SphereIndex.Proofs.Face.Grid

/-!
# Counting in leaf cells

The leaf cell of `s` is found by rounding, with a half going away from zero.  In exact arithmetic
this is the same as counting the whole leaf cells below `s`, because half a leaf cell is taken off
first and what is rounded the wrong way, namely zero and the whole numbers below it, is clamped.
-/

namespace SphereIndex.Grid

theorem clamp_real (x : ℝ) {lo hi : ℝ} (h : lo ≤ hi) : Scalar.clamp x lo hi = max lo (min x hi) := by
  change (if x < lo then lo else if hi < x then hi else x) = _
  split_ifs with hlo hhi
  · rw [max_eq_left ((min_le_left _ _).trans hlo.le)]
  · rw [min_eq_right hhi.le, max_eq_right h]
  · rw [min_eq_left (not_lt.1 hhi), max_eq_right (not_lt.1 hlo)]

/-- **Rounding what is half a step below is rounding down**, as far as the result is positive. -/
theorem round_sub_half (x : ℝ) :
    Scalar.round (x - 1 / 2) = (⌊x⌋ : ℝ) ∨ Scalar.round (x - 1 / 2) ≤ 0 ∧ ⌊x⌋ ≤ 0 := by
  change (if 0 ≤ x - 1 / 2 then (⌊x - 1 / 2 + 1 / 2⌋ : ℝ) else -⌊1 / 2 - (x - 1 / 2)⌋) = _ ∨
    (if 0 ≤ x - 1 / 2 then (⌊x - 1 / 2 + 1 / 2⌋ : ℝ) else -⌊1 / 2 - (x - 1 / 2)⌋) ≤ 0 ∧ _
  split_ifs with hx
  · rw [sub_add_cancel]
    exact .inl rfl
  · have hneg := not_le.1 hx
    have hfloor : 0 ≤ ⌊1 / 2 - (x - 1 / 2)⌋ := Int.floor_nonneg.2 (by linarith)
    refine .inr ⟨neg_nonpos.2 (Int.cast_nonneg hfloor), ?_⟩
    have hlt : ⌊x⌋ < 1 := Int.floor_lt.2 (by
      rw [Int.cast_one]
      linarith)
    omega

theorem clamp_round_sub_half (x : ℝ) {n : ℝ} (hn : 0 ≤ n) :
    Scalar.clamp (Scalar.round (x - 1 / 2)) 0 n = max 0 (min (⌊x⌋ : ℝ) n) := by
  rw [clamp_real _ hn]
  rcases round_sub_half x with heq | ⟨hround, hfloor⟩
  · rw [heq]
  · rw [max_eq_left ((min_le_left _ _).trans hround),
      max_eq_left ((min_le_left _ _).trans (Int.cast_nonpos.2 hfloor))]

theorem leaf_eq_clamped_floor (s : ℝ) : (leaf s : ℤ) = max 0 (min ⌊2 ^ 30 * s⌋ (2 ^ 30 - 1)) := by
  rw [leaf_eq, ← Int.floor_toNat]
  omega

theorem leaf_eq_clamped_round (s : ℝ) :
    (leaf s : ℝ) = Scalar.clamp (Scalar.round (2 ^ 30 * s - 1 / 2)) 0 (2 ^ 30 - 1) := by
  have hcast : (leaf s : ℝ) = ((leaf s : ℤ) : ℝ) := (Int.cast_natCast _).symm
  rw [clamp_round_sub_half _ (by norm_num), hcast, leaf_eq_clamped_floor]
  push_cast
  norm_num

theorem leaf_mono : Monotone (leaf : ℝ → ℕ) := by
  intro s t hst
  rw [leaf_eq, leaf_eq]
  exact min_le_min_right _ (Nat.floor_mono (mul_le_mul_of_nonneg_left hst (by norm_num)))

theorem leaf_side {i : ℕ} (hi : i < 2 ^ 30) : leaf (side i : ℝ) = i := by
  rw [leaf_eq, side_eq, mul_div_cancel₀ _ (by norm_num), Nat.floor_natCast]
  omega

theorem leafAt_eq_iff {i : ℕ} {u : ℝ} (hi : i < 2 ^ 30) (hlo : -1 ≤ u) (hhi : u < 1) :
    leafAt u = i ↔ line i ≤ u ∧ u < line (i + 1) := by
  constructor
  · rintro rfl
    exact ⟨line_leafAt_le hlo, lt_line_leafAt hhi⟩
  · rintro ⟨hle, hlt⟩
    exact le_antisymm (leafAt_le hlt) (le_leafAt hi hle)

/-- **The leaf cell of `s` is the clamped number of whole leaf cells below it**, although half a leaf
cell less is rounded with a half going away from zero.  So the leaf cell of a lower side is the cell
itself, the cells ascend with `s`, and a coordinate of the face has a leaf cell if and only if it
lies between the sides of the cell, the upper one not included. -/
theorem leaf_counts_whole_cells :
    (∀ s : ℝ, (leaf s : ℝ) = Scalar.clamp (Scalar.round (2 ^ 30 * s - 1 / 2)) 0 (2 ^ 30 - 1) ∧
      (leaf s : ℤ) = max 0 (min ⌊2 ^ 30 * s⌋ (2 ^ 30 - 1))) ∧
    Monotone (leaf : ℝ → ℕ) ∧
    ∀ i : ℕ, i < 2 ^ 30 → leaf (side i : ℝ) = i ∧
      ∀ u : ℝ, -1 ≤ u → u < 1 →
        (leafAt u = i ↔ toFace (i / 2 ^ 30 : ℝ) ≤ u ∧ u < toFace ((i + 1) / 2 ^ 30 : ℝ)) := by
  refine ⟨fun s => ⟨leaf_eq_clamped_round s, leaf_eq_clamped_floor s⟩, leaf_mono, fun i hi =>
    ⟨leaf_side hi, fun u hlo hhi => ?_⟩⟩
  rw [leafAt_eq_iff hi hlo hhi, line, line, side_eq, side_eq, Nat.cast_succ]

/-- The middle of the face lies on the lower side of a leaf cell. -/
theorem leaf_counts_whole_cells_at_middle :
    (2 ^ 29 < 2 ^ 30 ∧ (-1 : ℝ) ≤ 0 ∧ (0 : ℝ) < 1) ∧ leafAt (0 : ℝ) = 2 ^ 29 := by
  obtain ⟨-, -, hleaf⟩ := leaf_counts_whole_cells
  have hlt : 2 ^ 29 < 2 ^ 30 := by decide
  refine ⟨⟨hlt, neg_one_lt_zero.le, one_pos⟩, ?_⟩
  refine ((hleaf _ hlt).2 0 neg_one_lt_zero.le one_pos).2 ⟨?_, ?_⟩
  · rw [toFace_of_ge (by norm_num)]
    norm_num
  · rw [toFace_of_ge (by norm_num)]
    norm_num

end SphereIndex.Grid
