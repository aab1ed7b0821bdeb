import SphereIndex.Proofs.Cell.Coordinates
import SphereIndex.Proofs.Cell.Grown
import SphereIndex.Proofs.Face.ExactDouble

/-!
# Descents

A padded cell reached from a valid id by choosing quadrants is the one made from the id that it has
reached: both have the corner, the orientation and the level of the id, and the rectangle that was
carried along is its square with the padding around it.
-/

namespace SphereIndex.PaddedCell

variable {α : Type} [Scalar α] {c : PaddedCell α} {id : CellId} {padding : α}

/-! ## 1. Whole descents -/

def descend (c : PaddedCell α) (path : List Quadrant) : PaddedCell α := path.foldl child c

theorem level_descend (c : PaddedCell α) (path : List Quadrant) :
    (c.descend path).level = c.level + path.length := by
  induction path generalizing c with
  | nil => rfl
  | cons q path ih =>
    refine (ih (c.child q)).trans ?_
    rw [level_child, List.length_cons]
    omega

theorem padding_descend (c : PaddedCell α) (path : List Quadrant) :
    (c.descend path).padding = c.padding := by
  induction path generalizing c with
  | nil => rfl
  | cons q path ih => exact ih (c.child q)

theorem Placed.descend (h : c.Placed) {path : List Quadrant}
    (hpath : c.level + path.length ≤ maxLevel) : (c.descend path).Placed := by
  induction path generalizing c with
  | nil => exact h
  | cons q path ih =>
    rw [List.length_cons] at hpath
    apply ih (h.child (by omega) q)
    rw [level_child]
    omega

theorem Grown.descend (ha : Grid.IsExact α) (h : c.Grown) {path : List Quadrant}
    (hpath : c.level + path.length ≤ maxLevel) : (c.descend path).Grown := by
  induction path generalizing c with
  | nil => exact h
  | cons q path ih =>
    rw [List.length_cons] at hpath
    apply ih (h.child ha (by omega) q)
    rw [level_child]
    omega

/-- **Two padded cells that cannot be told apart**, where the two zeros are one number. -/
structure Agrees (c d : PaddedCell α) : Prop where
  id_eq : c.id = d.id
  level_eq : c.level = d.level
  padding_eq : c.padding = d.padding
  i_eq : c.i = d.i
  j_eq : c.j = d.j
  orientation_eq : c.orientation = d.orientation
  bound_same : ∀ axis, Scalar.Same (c.bound.along axis).lo (d.bound.along axis).lo ∧
    Scalar.Same (c.bound.along axis).hi (d.bound.along axis).hi
  middle_same : ∀ axis, Scalar.Same (c.middle.along axis).lo (d.middle.along axis).lo ∧
    Scalar.Same (c.middle.along axis).hi (d.middle.along axis).hi
  center_eq : c.center = d.center

theorem Agrees.refl (c : PaddedCell α) : c.Agrees c :=
  ⟨rfl, rfl, rfl, rfl, rfl, rfl, fun _ => ⟨.inl rfl, .inl rfl⟩, fun _ => ⟨.inl rfl, .inl rfl⟩, rfl⟩

/-- Below the faces, a cell with the rectangle of its id is the one made from the id. -/
theorem Grown.agrees_ofId (ha : Grid.IsExact α) (h : c.Grown) (hl : c.level ≠ 0) :
    c.Agrees (ofId c.id c.padding) := by
  have hlevel : c.level = (ofId c.id c.padding).level := by
    rw [h.level_eq, level_ofId h.isValid]
  have hcorner (axis : Axis) : c.corner axis = (ofId c.id c.padding).corner axis := by
    rw [h.corner_eq, corner_ofId h.isValid]
  have hi : c.i = (ofId c.id c.padding).i := hcorner .u
  have hj : c.j = (ofId c.id c.padding).j := hcorner .v
  have hcenter : c.center = (ofId c.id c.padding).center := by
    rw [center, center, hlevel, hi, hj]
  have hmiddle : c.middle = (ofId c.id c.padding).middle := by
    rw [middle, middle, if_neg hl, if_neg (hlevel ▸ hl), hcenter, padding_ofId]
  have hface : ¬c.id.IsFace := by
    rw [isFace_iff h.isValid, ← h.level_eq]
    exact hl
  refine ⟨(id_ofId _ _).symm, hlevel, (padding_ofId _ _).symm, hi, hj, ?_, fun axis => ?_,
    fun axis => ?_, hcenter⟩
  · rw [h.orientation_eq, (placed_ofId h.isValid c.padding).orientation_eq, id_ofId]
  · rw [ofId_bound_along ha h.isValid hface h.padding_nonneg, ← h.corner_eq, ← h.level_eq]
    exact ⟨h.lo_same axis, h.hi_same axis⟩
  · rw [hmiddle]
    exact ⟨.inl rfl, .inl rfl⟩

/-! ## 2. Halves -/

/-- The column or row of a leaf cell lies in one half of a cell. -/
theorem div_two_pow_eq_iff {x s k : Nat} (b : Bool) : x / 2 ^ k = 2 * s + b.toNat ↔
    x / 2 ^ (k + 1) = s ∧ (s * 2 ^ (k + 1) + 2 ^ k ≤ x ↔ b = true) := by
  have hhalf : s * 2 ^ (k + 1) + 2 ^ k ≤ x ↔ 2 * s + 1 ≤ x / 2 ^ k := by
    rw [Nat.le_div_iff_mul_le (Nat.two_pow_pos k), Nat.pow_succ,
      show (2 * s + 1) * 2 ^ k = s * (2 ^ k * 2) + 2 ^ k by ring]
  rw [hhalf, Nat.pow_succ, ← Nat.div_div_eq_div_mul]
  cases b with
  | false =>
    rw [Bool.toNat_false]
    simp only [Bool.false_eq_true, iff_false]
    omega
  | true =>
    rw [Bool.toNat_true]
    simp only [iff_true]
    omega

/-- **A child holds the leaf cells of the half of the cell that was chosen along each axis.** -/
theorem Placed.child_contains_iff (h : c.Placed) (hl : c.level < maxLevel) (q : Quadrant)
    {b : CellId} (hb : b.IsValid) (hleaf : b.IsLeaf) : (c.child q).id.Contains b ↔
      c.id.Contains b ∧ (c.i + CellId.sizeAt (c.level + 1) ≤ b.coords.i ↔ q.i = true) ∧
      (c.j + CellId.sizeAt (c.level + 1) ≤ b.coords.j ↔ q.j = true) := by
  have hlevel := h.level_eq
  obtain ⟨k, m, hm⟩ := h.isValid.exists_numbered_of_level (hlevel ▸ hl)
  obtain ⟨n, hn⟩ := hb.numbered_leaf hleaf
  obtain ⟨hi, hj⟩ := hn.coords_leaf
  have hchild := hm.child (c.orientation.digit q)
  have hspot (axis : Axis) : (c.id.child (c.orientation.digit q)).spot.along axis =
      2 * c.id.spot.along axis + (q.along axis).toNat := by
    rw [hm.spot_child, Spot.down_along, ← h.orientation_eq, Orientation.quadrant_digit]
  have hsize : CellId.sizeAt (c.level + 1) = 2 ^ k := by
    have hk := hm.height_le
    rw [hlevel, hm.level_eq, CellId.sizeAt_eq]
    congr 1
    omega
  have hcorner (axis : Axis) : c.corner axis = c.id.spot.along axis * 2 ^ (k + 1) := by
    rw [h.corner_eq, CellId.corner, hm.sizeAt_level]
  have hci : c.i = c.id.spot.along .u * 2 ^ (k + 1) := hcorner .u
  have hcj : c.j = c.id.spot.along .v * 2 ^ (k + 1) := hcorner .v
  rw [id_child, hchild.contains_iff_spot hn, hm.contains_iff_spot hn, hm.faceNumber_child, hsize,
    hci, hcj, hi, hj]
  constructor
  · rintro ⟨-, hface, hplace⟩
    have hhalf (axis : Axis) := (div_two_pow_eq_iff _).1 ((hplace axis).trans (hspot axis))
    exact ⟨⟨Nat.zero_le _, hface, fun axis => (hhalf axis).1⟩, (hhalf .u).2, (hhalf .v).2⟩
  · rintro ⟨⟨-, hface, hplace⟩, hu, hv⟩
    refine ⟨Nat.zero_le _, hface, fun axis => (hspot axis).symm ▸ ?_⟩
    cases axis with
    | u => exact (div_two_pow_eq_iff _).2 ⟨hplace .u, hu⟩
    | v => exact (div_two_pow_eq_iff _).2 ⟨hplace .v, hv⟩

/-- **A descent agrees with its end**: the padded cell that a path of quadrants leads to is the one
made from the id reached.  It stands at an aligned place of the grid, and each further step goes to
the half that was chosen along each axis. -/
theorem descend_agrees_ofId (ha : Grid.IsExact α) (hid : id.IsValid) (h0 : 0 ≤ padding)
    (path : List Quadrant) (hpath : id.level + path.length ≤ maxLevel) :
    let c := (ofId id padding).descend path
    c.id.IsValid ∧ c.level = id.level + path.length ∧ c.Agrees (ofId c.id padding) ∧
    (∀ axis, CellId.sizeAt c.level ∣ c.corner axis ∧
      c.corner axis + CellId.sizeAt c.level ≤ 2 ^ 30) ∧
    (c.level < maxLevel → ∀ (q : Quadrant) (b : CellId), b.IsValid → b.IsLeaf →
      ((c.child q).id.Contains b ↔ c.id.Contains b ∧
        (c.i + CellId.sizeAt (c.level + 1) ≤ b.coords.i ↔ q.i = true) ∧
        (c.j + CellId.sizeAt (c.level + 1) ≤ b.coords.j ↔ q.j = true))) := by
  intro c
  have hstart := grown_ofId ha hid h0
  have hlevel := level_ofId hid padding
  have hgrown : c.Grown := hstart.descend ha (hlevel.symm ▸ hpath)
  have hpadding : c.padding = padding := (padding_descend _ path).trans (padding_ofId _ _)
  refine ⟨hgrown.isValid, hlevel ▸ level_descend _ path, ?_, fun axis => ?_, fun hl q b hb hleaf => ?_⟩
  · cases path with
    | nil =>
      change (ofId id padding).Agrees (ofId (ofId id padding).id padding)
      rw [id_ofId]
      exact Agrees.refl _
    | cons q path =>
      have hne : c.level ≠ 0 := by
        rw [level_descend, List.length_cons]
        omega
      have hagrees := hgrown.agrees_ofId ha hne
      rwa [hpadding] at hagrees
  · exact ⟨hgrown.toPlaced.sizeAt_dvd_corner axis, hgrown.toPlaced.corner_add_le axis⟩
  · exact hgrown.toPlaced.child_contains_iff hl q hb hleaf

/-- Two steps down from a face, in double precision. -/
theorem descend_agrees_ofId_from_face :
    (CellId.ofFace .yPos).IsValid ∧ (0 : Float) ≤ 1 / 8 ∧
    ((ofId (CellId.ofFace .yPos) (1 / 8 : Float)).descend
      [⟨true, false⟩, ⟨false, true⟩]).level = 2 ∧
    ((ofId (CellId.ofFace .yPos) (1 / 8 : Float)).descend [⟨true, false⟩, ⟨false, true⟩]).Agrees
      (ofId ((ofId (CellId.ofFace .yPos) (1 / 8 : Float)).descend
        [⟨true, false⟩, ⟨false, true⟩]).id (1 / 8)) := by
  have hvalid : (CellId.ofFace .yPos).IsValid := by decide
  have hpadding : (0 : Float) ≤ 1 / 8 := by decide +kernel
  obtain ⟨-, hlevel, hagrees, -⟩ := descend_agrees_ofId Grid.isExact_float hvalid hpadding
    [⟨true, false⟩, ⟨false, true⟩] (by decide)
  exact ⟨hvalid, hpadding, hlevel, hagrees⟩

end SphereIndex.PaddedCell
