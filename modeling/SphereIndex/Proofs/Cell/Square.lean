import SphereIndex.Proofs.Cell.Grown

/-!
# Squares of cells

In exact arithmetic the square of a cell lies between lines of the grid, cells below it have
squares inside it, and the four children share out its points at the center.  The rectangle that a
padded cell carries along is always the square of its id, grown by the padding.
-/

namespace SphereIndex

theorem Rect.contains_iff_along {r : Rect ℝ} {p : Vec2 ℝ} :
    r.Contains p ↔ ∀ axis, (r.along axis).Contains (p.along axis) := by
  constructor
  · rintro ⟨hx, hy⟩ axis
    cases axis with
    | u => exact hx
    | v => exact hy
  · intro h
    exact ⟨h .u, h .v⟩

/-! ## 1. The square of an id -/

namespace CellId

variable {a b c : CellId} {p : Vec2 ℝ}

theorem bound_along (h : c.IsValid) (axis : Axis) : (c.bound.along axis : Interval ℝ) =
    ⟨Grid.line (c.corner axis), Grid.line (c.corner axis + sizeAt c.level)⟩ :=
  bound_along_sides h axis

theorem sizeAt_pos (level : Nat) : 0 < sizeAt level := twoPow_pos _

theorem lo_lt_hi (h : c.IsValid) (axis : Axis) : (c.bound.along axis : Interval ℝ).lo <
    (c.bound.along axis).hi := by
  rw [bound_along h]
  exact Grid.line_strictMono (Nat.lt_add_of_pos_right (sizeAt_pos _))

theorem hi_le_one (h : c.IsValid) (axis : Axis) : (c.bound.along axis).hi ≤ (1 : ℝ) := by
  obtain ⟨k, m, hm⟩ := h.exists_numbered
  rw [bound_along h, ← Grid.line_last]
  exact Grid.line_strictMono.monotone (hm.corner_add_le axis)

theorem lo_le_lo (ha : a.IsValid) (hb : b.IsValid) (h : a.Contains b) (axis : Axis) :
    (a.bound.along axis : Interval ℝ).lo ≤ (b.bound.along axis).lo := by
  obtain ⟨k, m, hm⟩ := ha.exists_numbered
  obtain ⟨l, n, hn⟩ := hb.exists_numbered
  rw [bound_along ha, bound_along hb]
  exact Grid.line_strictMono.monotone (hm.corner_of_contains hn h axis).1

theorem hi_le_hi (ha : a.IsValid) (hb : b.IsValid) (h : a.Contains b) (axis : Axis) :
    (b.bound.along axis : Interval ℝ).hi ≤ (a.bound.along axis).hi := by
  obtain ⟨k, m, hm⟩ := ha.exists_numbered
  obtain ⟨l, n, hn⟩ := hb.exists_numbered
  rw [bound_along ha, bound_along hb]
  exact Grid.line_strictMono.monotone (hm.corner_of_contains hn h axis).2

/-- **The points of the square of a cell without its upper sides**, unless these are sides of the
face.  Every point of a face is owned by one cell of each level. -/
def Owns (c : CellId) (p : Vec2 ℝ) : Prop :=
  ∀ axis, (c.bound.along axis).lo ≤ p.along axis ∧
    (p.along axis < (c.bound.along axis).hi ∨ p.along axis = 1 ∧ (c.bound.along axis).hi = (1 : ℝ))

theorem Owns.of_contains (ha : a.IsValid) (hb : b.IsValid) (h : a.Contains b) (hp : b.Owns p) :
    a.Owns p := by
  intro axis
  obtain ⟨hlo, hhi⟩ := hp axis
  have hle := hi_le_hi ha hb h axis
  refine ⟨(lo_le_lo ha hb h axis).trans hlo, ?_⟩
  rcases hhi with hhi | ⟨h1, h2⟩
  · exact .inl (hhi.trans_le hle)
  · rw [h2] at hle
    exact .inr ⟨h1, le_antisymm (hi_le_one ha axis) hle⟩

end CellId

/-! ## 2. The rectangle of a padded cell -/

namespace PaddedCell

/-- The square of the id, grown by the padding. -/
structure Exact (c : PaddedCell ℝ) : Prop extends c.Placed where
  padding_nonneg : 0 ≤ c.padding
  bound_along : ∀ axis, c.bound.along axis =
    ⟨(c.id.bound.along axis).lo - c.padding, (c.id.bound.along axis).hi + c.padding⟩

theorem Exact.grown {c : PaddedCell ℝ} (h : c.Exact) : c.Grown := by
  have hsides (axis : Axis) : c.bound.along axis = ⟨Grid.line (c.corner axis) - c.padding,
      Grid.line (c.corner axis + CellId.sizeAt c.level) + c.padding⟩ := by
    rw [h.bound_along, CellId.bound_along h.isValid, h.corner_eq, h.level_eq]
  refine ⟨h.toPlaced, h.padding_nonneg, fun axis => .inl ?_, fun axis => .inl ?_⟩
  · rw [hsides]
    rfl
  · rw [hsides]
    rfl

theorem Grown.exact {c : PaddedCell ℝ} (h : c.Grown) : c.Exact := by
  refine ⟨h.toPlaced, h.padding_nonneg, fun axis => ?_⟩
  rw [CellId.bound_along h.isValid, ← h.corner_eq, ← h.level_eq]
  exact congrArg₂ Interval.mk (Scalar.same_real.1 (h.lo_same axis))
    (Scalar.same_real.1 (h.hi_same axis))

theorem exact_ofId {id : CellId} (h : id.IsValid) {padding : ℝ} (h0 : 0 ≤ padding) :
    (ofId id padding).Exact := (grown_ofId Grid.isExact_real h h0).exact

theorem Exact.child {c : PaddedCell ℝ} (h : c.Exact) (hl : c.level < maxLevel) (q : Quadrant) :
    (c.child q).Exact := (h.grown.child Grid.isExact_real hl q).exact

/-- The coordinate of the center along an axis. -/
theorem Placed.center_along {c : PaddedCell ℝ} (h : c.Placed) (hl : c.level < maxLevel)
    (axis : Axis) : c.center.along axis =
      Grid.line (c.id.corner axis + CellId.sizeAt (c.level + 1)) := by
  rw [h.center_along_side Grid.isExact_real hl, h.corner_eq]
  rfl

theorem expanded_along {r : Rect ℝ} {margin : ℝ} (h0 : 0 ≤ margin)
    (h : ∀ axis, (r.along axis).lo ≤ (r.along axis).hi) (axis : Axis) :
    (r.expanded margin).along axis = ⟨(r.along axis).lo - margin, (r.along axis).hi + margin⟩ := by
  apply expanded_along_of_not_lt
  · exact fun axis => not_lt.2 (h axis)
  · intro axis
    have hle := h axis
    change ¬(r.along axis).hi + margin < (r.along axis).lo - margin
    rw [not_lt]
    linarith

/-- All that a padded cell carries follows from its id and padding. -/
theorem Exact.eq_of_id {c d : PaddedCell ℝ} (hc : c.Exact) (hd : d.Exact)
    (hid : c.id = d.id) (hpadding : c.padding = d.padding) : c = d :=
  calc
    c = ⟨c.id, c.padding, ⟨c.bound.along .u, c.bound.along .v⟩, c.corner .u, c.corner .v,
      c.orientation, c.level⟩ := rfl
    _ = ⟨d.id, d.padding, ⟨d.bound.along .u, d.bound.along .v⟩, d.corner .u, d.corner .v,
      d.orientation, d.level⟩ := by
        simp only [hc.bound_along, hc.corner_eq, hc.orientation_eq, hc.level_eq, hd.bound_along,
          hd.corner_eq, hd.orientation_eq, hd.level_eq, hid, hpadding]
    _ = d := rfl

theorem Exact.eq_ofId {c : PaddedCell ℝ} (hc : c.Exact) {id : CellId} (hid : id = c.id) :
    c = ofId id c.padding := by
  subst hid
  exact hc.eq_of_id (exact_ofId hc.isValid hc.padding_nonneg) (id_ofId _ _).symm
    (padding_ofId _ _).symm

theorem ofFace_bound_along (f : Face) (padding : ℝ) (axis : Axis) :
    (ofFace f padding).bound.along axis = ⟨-(1 + padding), 1 + padding⟩ := by
  cases f <;> cases axis <;> rfl

/-- **The children share out the square at the center.** -/
theorem Placed.id_child_bound_along {c : PaddedCell ℝ} (h : c.Placed) (hl : c.level < maxLevel)
    (q : Quadrant) (axis : Axis) : ((c.child q).id.bound.along axis : Interval ℝ) =
      (c.id.bound.along axis).set (innerEnd (q.along axis)) (c.center.along axis) := by
  have hchild := h.child hl q
  have hcorner : (c.child q).id.corner axis =
      c.id.corner axis + (q.along axis).toNat * CellId.sizeAt (c.level + 1) := by
    rw [← hchild.corner_eq, ← h.corner_eq, corner_child]
  rw [CellId.bound_along hchild.isValid, CellId.bound_along h.isValid, h.center_along hl, hcorner,
    ← hchild.level_eq, ← h.level_eq, level_child,
    CellId.sizeAt_of_lt hl]
  cases q.along axis with
  | false =>
    rw [Bool.toNat_false, Nat.zero_mul, Nat.add_zero]
    rfl
  | true =>
    rw [Bool.toNat_true, Nat.one_mul, Nat.add_assoc, ← Nat.two_mul]
    rfl

/-- **The padded cells that can be made**: from a valid id with a padding that is not negative, and
as a child of another one above the leaf cells. -/
inductive Made : PaddedCell ℝ → Prop where
  | ofId {id : CellId} (h : id.IsValid) {padding : ℝ} (h0 : 0 ≤ padding) : Made (ofId id padding)
  | child {c : PaddedCell ℝ} (h : Made c) (hl : c.level < maxLevel) (q : Quadrant) :
    Made (c.child q)

theorem Made.exact {c : PaddedCell ℝ} (h : c.Made) : c.Exact := by
  induction h with
  | ofId h h0 => exact exact_ofId h h0
  | child _ hl q ih => exact ih.child hl q

end PaddedCell

end SphereIndex
