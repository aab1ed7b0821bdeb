import SphereIndex.Proofs.Cell.Place
import SphereIndex.Proofs.Face.ExactGrid

/-!
# Rectangles of padded cells

The rectangle that a padded cell carries along is the square of its id, grown by the padding.  It is
made from the id once, and from then on a side is taken over or moved to the center at each step.
-/

namespace SphereIndex

theorem CellId.bound_along_sides {α : Type} [Scalar α] {c : CellId} (h : c.IsValid) (axis : Axis) :
    (c.bound.along axis : Interval α) = ⟨Grid.toFace (Grid.side (c.corner axis)),
      Grid.toFace (Grid.side (c.corner axis + sizeAt c.level))⟩ := by
  obtain ⟨k, m, hm⟩ := h.exists_numbered
  obtain ⟨hi, hj⟩ := hm.coords_along
  rw [← hm.sizeAt_level] at hi hj
  unfold corner
  cases axis with
  | u =>
    rw [← hi]
    rfl
  | v =>
    rw [← hj]
    rfl

namespace PaddedCell

variable {α : Type} {c : PaddedCell α} {id : CellId} {padding : α}

theorem Placed.corner_add_le (h : c.Placed) (axis : Axis) :
    c.corner axis + CellId.sizeAt c.level ≤ 2 ^ 30 := by
  obtain ⟨k, m, hm⟩ := h.isValid.exists_numbered
  rw [h.corner_eq, h.level_eq]
  exact hm.corner_add_le axis

theorem Placed.sizeAt_dvd_corner (h : c.Placed) (axis : Axis) :
    CellId.sizeAt c.level ∣ c.corner axis := by
  rw [h.corner_eq, h.level_eq]
  exact Nat.dvd_mul_left _ _

variable [Scalar α]

/-- A rectangle that is not empty before or after it is grown. -/
theorem expanded_along_of_not_lt {r : Rect α} {margin : α}
    (h : ∀ axis, ¬(r.along axis).hi < (r.along axis).lo)
    (hgrown : ∀ axis, ¬(r.along axis).hi + margin < (r.along axis).lo - margin) (axis : Axis) :
    (r.expanded margin).along axis = ⟨(r.along axis).lo - margin, (r.along axis).hi + margin⟩ := by
  have hexp (axis : Axis) : (r.along axis).expanded margin =
      ⟨(r.along axis).lo - margin, (r.along axis).hi + margin⟩ := if_neg (h axis)
  have hx : r.x.expanded margin = ⟨r.x.lo - margin, r.x.hi + margin⟩ := hexp .u
  have hy : r.y.expanded margin = ⟨r.y.lo - margin, r.y.hi + margin⟩ := hexp .v
  have hempty : ¬Rect.IsEmpty ⟨⟨r.x.lo - margin, r.x.hi + margin⟩,
      ⟨r.y.lo - margin, r.y.hi + margin⟩⟩ := not_or.2 ⟨hgrown .u, hgrown .v⟩
  unfold Rect.expanded Rect.orEmpty
  rw [hx, hy, if_neg hempty]
  cases axis <;> rfl

/-- The rectangle is the square of the id with the padding around it, as numbers. -/
structure Grown (c : PaddedCell α) : Prop extends c.Placed where
  padding_nonneg : 0 ≤ c.padding
  lo_same : ∀ axis, Scalar.Same (c.bound.along axis).lo
    (Grid.toFace (Grid.side (c.corner axis)) - c.padding)
  hi_same : ∀ axis, Scalar.Same (c.bound.along axis).hi
    (Grid.toFace (Grid.side (c.corner axis + CellId.sizeAt c.level)) + c.padding)

theorem Placed.center_along_side (ha : Grid.IsExact α) (h : c.Placed) (hl : c.level < maxLevel)
    (axis : Axis) : c.center.along axis =
      Grid.toFace (Grid.side (c.corner axis + CellId.sizeAt (c.level + 1))) := by
  have hcenter : c.center.along axis = centerAt c.level (c.corner axis) := by cases axis <;> rfl
  have hle := h.corner_add_le axis
  rw [CellId.sizeAt_of_lt hl] at hle
  rw [hcenter, centerAt, CellId.sizeAt_of_lt hl, ← Nat.mul_add, ha.halfSide_two_mul (by omega)]

/-- **The center of a face is 0** on both axes. -/
theorem Placed.center_of_face (ha : Grid.IsExact α) (h : c.Placed) (hface : c.level = 0)
    (axis : Axis) : c.center.along axis = 0 := by
  rw [h.center_along_side ha (hface ▸ Nat.zero_lt_succ 29), h.corner_eq,
    CellId.corner_of_level_zero (h.level_eq.symm.trans hface), hface, Nat.zero_add]
  exact (congrArg Grid.toFace ha.side_middle).trans ha.toFace_half

/-- **Where a cell is split is its center**, whether it is computed or not. -/
theorem Placed.splitPoint_eq (ha : Grid.IsExact α) (h : c.Placed) : c.splitPoint = c.center := by
  unfold splitPoint
  split
  · rename_i hface
    exact congrArg₂ Vec2.mk (h.center_of_face ha hface .u).symm (h.center_of_face ha hface .v).symm
  · rfl

/-- The middle is the center with the padding around it, as numbers. -/
theorem Placed.middle_same (ha : Grid.IsExact α) (h : c.Placed) (h0 : 0 ≤ c.padding) (axis : Axis) :
    Scalar.Same (c.middle.along axis).lo (c.center.along axis - c.padding) ∧
    Scalar.Same (c.middle.along axis).hi (c.center.along axis + c.padding) := by
  unfold middle
  split
  · rename_i hface
    rw [h.center_of_face ha hface]
    cases axis with
    | u => exact ⟨ha.same_zero_sub _ h0, ha.same_zero_add _ h0⟩
    | v => exact ⟨ha.same_zero_sub _ h0, ha.same_zero_add _ h0⟩
  · cases axis with
    | u => exact ⟨.inl rfl, .inl rfl⟩
    | v => exact ⟨.inl rfl, .inl rfl⟩

theorem ofId_bound_along (ha : Grid.IsExact α) (h : id.IsValid) (hf : ¬id.IsFace)
    (h0 : 0 ≤ padding) (axis : Axis) : (ofId id padding).bound.along axis =
      ⟨Grid.toFace (Grid.side (id.corner axis)) - padding,
        Grid.toFace (Grid.side (id.corner axis + CellId.sizeAt id.level)) + padding⟩ := by
  obtain ⟨k, m, hm⟩ := h.exists_numbered
  have hsides (axis : Axis) := CellId.bound_along_sides (α := α) h axis
  have hempty (axis : Axis) : ¬(id.bound.along axis : Interval α).hi < (id.bound.along axis).lo := by
    rw [hsides]
    exact ha.not_side_lt_side _ _ (Nat.le_add_right _ _) (hm.corner_add_le axis)
  unfold ofId
  rw [if_neg hf]
  refine (expanded_along_of_not_lt hempty ?_ axis).trans ?_
  · exact fun axis => ha.not_add_lt_sub _ _ _ h0 (hempty axis)
  · rw [hsides]

theorem ofId_bound_along_of_isFace (hf : id.IsFace) (padding : α) (axis : Axis) :
    (ofId id padding).bound.along axis = ⟨-(1 + padding), 1 + padding⟩ := by
  unfold ofId
  rw [if_pos hf]
  cases axis <;> rfl

theorem grown_ofId (ha : Grid.IsExact α) (h : id.IsValid) (h0 : 0 ≤ padding) :
    (ofId id padding).Grown := by
  have hplaced := placed_ofId h padding
  have hpadding : 0 ≤ (ofId id padding).padding := by rwa [padding_ofId]
  by_cases hf : id.IsFace
  · have hzero := (isFace_iff h).1 hf
    refine ⟨hplaced, hpadding, fun axis => ?_, fun axis => ?_⟩
    · rw [ofId_bound_along_of_isFace hf, corner_ofId h, CellId.corner_of_level_zero hzero,
        padding_ofId, ha.side_zero, ha.toFace_zero]
      exact ha.same_neg_one_sub _ h0
    · rw [ofId_bound_along_of_isFace hf, corner_ofId h, CellId.corner_of_level_zero hzero,
        padding_ofId, level_ofId h, hzero, Nat.zero_add]
      exact .inl (congrArg (· + padding)
        ((congrArg Grid.toFace ha.side_last).trans ha.toFace_one)).symm
  · refine ⟨hplaced, hpadding, fun axis => .inl ?_, fun axis => .inl ?_⟩
    · rw [ofId_bound_along ha h hf h0, corner_ofId h, padding_ofId]
    · rw [ofId_bound_along ha h hf h0, corner_ofId h, padding_ofId, level_ofId h]

/-- One step: one side comes from the rectangle, the other from the middle. -/
theorem Grown.child (ha : Grid.IsExact α) (h : c.Grown) (hl : c.level < maxLevel) (q : Quadrant) :
    (c.child q).Grown := by
  have hmiddle := h.toPlaced.middle_same ha h.padding_nonneg
  have hsize := CellId.sizeAt_of_lt hl
  refine ⟨h.toPlaced.child hl q, h.padding_nonneg, fun axis => ?_, fun axis => ?_⟩
  · rw [child_bound_along, corner_child]
    cases q.along axis with
    | false =>
      rw [Bool.toNat_false, Nat.zero_mul, Nat.add_zero]
      exact h.lo_same axis
    | true =>
      rw [Bool.toNat_true, Nat.one_mul, ← h.toPlaced.center_along_side ha hl]
      exact (hmiddle axis).1
  · rw [child_bound_along, corner_child, level_child]
    cases q.along axis with
    | false =>
      rw [Bool.toNat_false, Nat.zero_mul, Nat.add_zero, ← h.toPlaced.center_along_side ha hl]
      exact (hmiddle axis).2
    | true =>
      rw [Bool.toNat_true, Nat.one_mul, Nat.add_assoc, ← Nat.two_mul, ← hsize]
      exact h.hi_same axis

end PaddedCell

end SphereIndex
