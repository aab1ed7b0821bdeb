import SphereIndex.Proofs.Cell.Path
import SphereIndex.Proofs.Cell.Tree

/-!
# The place of a cell on its face

Every step of a path doubles the column and the row, so the leaf cells below a cell fill a square
whose side is a power of two.  `CellId.spot` is the place that the path alone leads to.  What a cell
computes from all 30 digits of its word, and what a padded cell carries along from its parent, both
agree with it.
-/

namespace SphereIndex

/-! ## 1. Following a path -/

def Quadrant.along (q : Quadrant) : Axis → Bool
  | .u => q.i
  | .v => q.j

namespace Spot

def along (s : Spot) : Axis → Nat
  | .u => s.i
  | .v => s.j

theorem down_along (s : Spot) (d : Digit) (axis : Axis) :
    (s.down d).along axis = 2 * s.along axis + ((s.orientation.quadrant d).along axis).toNat := by
  cases axis <;> rfl

theorem start_along (o : Orientation) (axis : Axis) : (start o).along axis = 0 := by
  cases axis <;> rfl

theorem follow_along_div (s : Spot) (path : List Digit) (axis : Axis) :
    (s.follow path).along axis / 2 ^ path.length = s.along axis := by
  induction path generalizing s with
  | nil => exact Nat.div_one _
  | cons d path ih =>
    have hbit := Bool.toNat_le ((s.orientation.quadrant d).along axis)
    rw [follow_cons, List.length_cons, Nat.pow_succ, ← Nat.div_div_eq_div_mul, ih, down_along]
    omega

theorem start_follow_lt (o : Orientation) (path : List Digit) (axis : Axis) :
    ((start o).follow path).along axis < 2 ^ path.length := by
  have h := follow_along_div (start o) path axis
  rw [start_along] at h
  exact (Nat.div_eq_zero_iff_lt (Nat.two_pow_pos _)).1 h

theorem follow_pathTo (s : Spot) (i j n : Nat) :
    (s.follow (pathTo s.orientation i j n)).i = s.i * 2 ^ n + i % 2 ^ n ∧
      (s.follow (pathTo s.orientation i j n)).j = s.j * 2 ^ n + j % 2 ^ n := by
  induction n generalizing s with
  | zero => simp [pathTo, Nat.mod_one]
  | succ n ih =>
    -- The digit chosen for a quadrant leads to that quadrant, and so to the leading bits.
    have hd := s.orientation.quadrant_digit ⟨i.testBit n, j.testBit n⟩
    obtain ⟨hi, hj⟩ := ih (s.down (s.orientation.digit ⟨i.testBit n, j.testBit n⟩))
    rw [pathTo, follow_cons]
    constructor
    · refine hi.trans ?_
      rw [Spot.down, hd, Nat.mod_pow_succ, Nat.toNat_testBit i, Nat.pow_succ]
      ring
    · refine hj.trans ?_
      rw [Spot.down, hd, Nat.mod_pow_succ, Nat.toNat_testBit j, Nat.pow_succ]
      ring

end Spot

/-! ## 2. Spots of ids -/

namespace CellId

/-- **The place that the path to the cell leads to**, in cells of its level. -/
def spot (c : CellId) : Spot := (Spot.start (Orientation.ofFace c.faceNumber)).follow c.path

/-- The column or row of the first leaf cell below the cell. -/
def corner (c : CellId) (axis : Axis) : Nat := c.spot.along axis * sizeAt c.level

theorem sizeAt_eq (level : Nat) : sizeAt level = 2 ^ (30 - level) := rfl

theorem sizeAt_of_lt {level : Nat} (h : level < maxLevel) :
    sizeAt level = 2 * sizeAt (level + 1) := by
  change level < 30 at h
  rw [sizeAt_eq, sizeAt_eq, ← Nat.pow_succ']
  congr 1
  omega

theorem spot_of_level_zero {c : CellId} (h : c.level = 0) :
    c.spot = Spot.start (Orientation.ofFace c.faceNumber) := by
  rw [spot, path, h]
  rfl

theorem corner_of_level_zero {c : CellId} (h : c.level = 0) (axis : Axis) : c.corner axis = 0 := by
  rw [corner, spot_of_level_zero h, Spot.start_along, Nat.zero_mul]

namespace Numbered

variable {a b c : CellId} {k l m n : Nat}

theorem sizeAt_level (h : c.Numbered k m) : sizeAt c.level = 2 ^ k := by
  have hk := h.height_le
  rw [h.level_eq, sizeAt_eq, Nat.sub_sub_self hk]

theorem length_path (h : c.Numbered k m) : c.path.length = 30 - k := by
  rw [h.path_eq, length_lastDigits]

theorem spot_child (h : c.Numbered (k + 1) m) (d : Digit) : (c.child d).spot = c.spot.down d := by
  rw [spot, spot, h.path_child, h.faceNumber_child, Spot.follow_append]
  rfl

theorem spot_of_contains (ha : a.Numbered k m) (hb : b.Numbered l n) (h : a.Contains b)
    (axis : Axis) : b.spot.along axis / 2 ^ (k - l) = a.spot.along axis := by
  obtain ⟨hface, hpath⟩ := ha.path_of_contains hb h
  rw [spot, hpath, ← hface, Spot.follow_append]
  have hdiv := Spot.follow_along_div a.spot (lastDigits n (k - l)) axis
  rwa [length_lastDigits] at hdiv

theorem corner_of_contains (ha : a.Numbered k m) (hb : b.Numbered l n) (h : a.Contains b)
    (axis : Axis) : a.corner axis ≤ b.corner axis ∧
      b.corner axis + sizeAt b.level ≤ a.corner axis + sizeAt a.level := by
  have hlk := ((ha.contains_iff hb).1 h).1
  have hspot := spot_of_contains ha hb h axis
  have hpos := Nat.two_pow_pos (k - l)
  have hle : a.spot.along axis * 2 ^ (k - l) ≤ b.spot.along axis := by
    rw [← hspot]
    exact Nat.div_mul_le_self _ _
  have hlt : b.spot.along axis + 1 ≤ (a.spot.along axis + 1) * 2 ^ (k - l) := by
    rw [← hspot]
    exact Nat.lt_mul_of_div_lt (Nat.lt_succ_self _) hpos
  have hpow : 2 ^ k = 2 ^ (k - l) * 2 ^ l := by rw [← Nat.pow_add, Nat.sub_add_cancel hlk]
  rw [corner, corner, ha.sizeAt_level, hb.sizeAt_level, hpow]
  constructor
  · calc
      _ = a.spot.along axis * 2 ^ (k - l) * 2 ^ l := by ring
      _ ≤ _ := Nat.mul_le_mul_right _ hle
  · calc
      _ = (b.spot.along axis + 1) * 2 ^ l := by ring
      _ ≤ (a.spot.along axis + 1) * 2 ^ (k - l) * 2 ^ l := Nat.mul_le_mul_right _ hlt
      _ = _ := by ring

theorem spot_lt (h : c.Numbered k m) (axis : Axis) : c.spot.along axis < 2 ^ (30 - k) := by
  rw [← h.length_path]
  exact Spot.start_follow_lt _ _ _

theorem corner_add_le (h : c.Numbered k m) (axis : Axis) :
    c.corner axis + sizeAt c.level ≤ 2 ^ 30 := by
  have hk := h.height_le
  rw [corner, h.sizeAt_level]
  calc
    _ = (c.spot.along axis + 1) * 2 ^ k := by ring
    _ ≤ 2 ^ (30 - k) * 2 ^ k := Nat.mul_le_mul_right _ (h.spot_lt axis)
    _ = 2 ^ 30 := by rw [← Nat.pow_add, Nat.sub_add_cancel hk]

theorem corner_leaf (h : c.Numbered 0 m) (axis : Axis) : c.corner axis = c.spot.along axis := by
  rw [corner, h.sizeAt_level, Nat.pow_zero, Nat.mul_one]

/-! The digits below the path are a two, which leaves the orientation as it is, and zeros, which swap
its axes. -/

theorem follow_zeros (s : Spot) (n : Nat) :
    (s.follow (lastDigits 0 n)).orientation =
      ⟨s.orientation.swapped ^^ n % 2 == 1, s.orientation.inverted⟩ := by
  induction n with
  | zero =>
    rcases s with ⟨⟨_ | _, _⟩, _, _⟩ <;> rfl
  | succ n ih =>
    have hparity : ((n + 1) % 2 == 1) = !(n % 2 == 1) := by
      rcases Nat.mod_two_eq_zero_or_one n with h | h <;> simp [h, Nat.add_mod]
    rw [lastDigits, Nat.zero_div, Spot.follow_append, hparity, Bool.xor_not, ← Bool.not_xor]
    change Orientation.child _ 0 = _
    rw [Orientation.child, ih]
    simp

theorem coords_along (h : c.Numbered k m) : c.coords.i / 2 ^ k = c.spot.along .u ∧
    c.coords.j / 2 ^ k = c.spot.along .v := by
  have hi := Spot.follow_along_div c.spot (lastDigits (4 ^ k / 2) k) .u
  have hj := Spot.follow_along_div c.spot (lastDigits (4 ^ k / 2) k) .v
  rw [length_lastDigits, spot, ← Spot.follow_append, ← h.digits_maxLevel] at hi hj
  exact ⟨hi, hj⟩

theorem digits_below (k : Nat) : lastDigits (4 ^ (k + 1) / 2) (k + 1) = 2 :: lastDigits 0 k := by
  have hdiv : 4 ^ (k + 1) / 2 = 2 * 4 ^ k + 0 := by omega
  have hlead : (2 * 4 ^ k + 0) / 4 ^ k = 2 := by
    rw [Nat.add_zero, Nat.mul_div_cancel _ (four_pow_pos k)]
  rw [hdiv, Nat.add_comm k 1, lastDigits_add, hlead, lastDigits_mul_pow_add]
  rfl

/-- Which markers stand for an odd number of zeros below. -/
theorem marker_mask : ∀ k < 31, decide (UInt64.ofNat (4 ^ k) &&& 0x1111111111111110 ≠ 0) =
    (k != 0 && (k + 1) % 2 == 1) := by
  decide +kernel

theorem coords_orientation (h : c.Numbered k m) : c.coords.orientation = c.spot.orientation := by
  have hk := h.height_le
  have hmarker : c.marker = UInt64.ofNat (4 ^ k) := by
    apply UInt64.toNat_inj.1
    rw [h.marker_toNat, UInt64.toNat_ofNat_of_lt']
    have := Nat.pow_le_pow_right (show 0 < 4 by decide) hk
    exact Nat.lt_of_le_of_lt this (by decide)
  -- The mask tests whether the number of zeros is odd, and undoes the swap if it is.
  have hmask := marker_mask k (by omega)
  rw [← hmarker] at hmask
  have hfollow : ((Spot.start (Orientation.ofFace c.faceNumber)).follow (c.digits maxLevel)) =
      c.spot.follow (lastDigits (4 ^ k / 2) k) := by
    rw [h.digits_maxLevel, Spot.follow_append]
    rfl
  unfold coords
  simp only [hfollow, hmask]
  cases k with
  | zero =>
    change Orientation.mk (c.spot.orientation.swapped ^^ false) _ = _
    rw [Bool.xor_false]
    rfl
  | succ k =>
    rw [digits_below, Spot.follow_cons, follow_zeros]
    change Orientation.mk ((c.spot.orientation.swapped ^^ k % 2 == 1) ^^
      (true && (k + 1 + 1) % 2 == 1)) c.spot.orientation.inverted = _
    rw [Nat.add_assoc, Nat.add_mod_right, Bool.true_and, Bool.xor_assoc, Bool.xor_self,
      Bool.xor_false]

end Numbered

end CellId

/-! ## 3. Padded cells -/

namespace PaddedCell

variable {α : Type} [Scalar α]

/-- The lowest column or row of the cell. -/
def corner (c : PaddedCell α) : Axis → Nat
  | .u => c.i
  | .v => c.j

theorem corner_child (c : PaddedCell α) (q : Quadrant) (axis : Axis) : (c.child q).corner axis =
    c.corner axis + (q.along axis).toNat * CellId.sizeAt (c.level + 1) := by
  cases axis <;> rfl

/-- The rectangle of a child, along one axis. -/
theorem child_bound_along (c : PaddedCell α) (q : Quadrant) (axis : Axis) :
    (c.child q).bound.along axis = (c.bound.along axis).set (innerEnd (q.along axis))
      ((c.middle.along axis).get (innerEnd (q.along axis))) := by
  cases axis <;> rfl

/-- **What is carried along is what the id says**: corner, orientation and level. -/
structure Placed (c : PaddedCell α) : Prop extends c.OnTree where
  corner_eq : ∀ axis, c.corner axis = c.id.corner axis
  orientation_eq : c.orientation = c.id.spot.orientation

theorem placed_ofId {id : CellId} (h : id.IsValid) (padding : α) : (ofId id padding).Placed := by
  obtain ⟨k, m, hm⟩ := h.exists_numbered
  refine ⟨onTree_ofId h padding, ?_, ?_⟩
  · rw [id_ofId]
    unfold ofId
    split
    · -- The id of a face stands for column and row 0; any other is followed digit by digit.
      rename_i hf
      intro axis
      rw [CellId.corner_of_level_zero ((isFace_iff h).1 hf)]
      cases axis <;> rfl
    · obtain ⟨hi, hj⟩ := hm.coords_along
      rw [← hm.sizeAt_level] at hi hj
      intro axis
      cases axis with
      | u => exact congrArg (· * _) hi
      | v => exact congrArg (· * _) hj
  · rw [id_ofId]
    unfold ofId
    split
    · rename_i hf
      rw [CellId.spot_of_level_zero ((isFace_iff h).1 hf)]
      rfl
    · exact hm.coords_orientation

theorem level_ofId {id : CellId} (h : id.IsValid) (padding : α) :
    (ofId id padding).level = id.level := by
  rw [(placed_ofId h padding).level_eq, id_ofId]

theorem corner_ofId {id : CellId} (h : id.IsValid) (padding : α) (axis : Axis) :
    (ofId id padding).corner axis = id.corner axis := by
  rw [(placed_ofId h padding).corner_eq, id_ofId]

theorem Placed.child {c : PaddedCell α} (h : c.Placed) (hl : c.level < maxLevel) (q : Quadrant) :
    (c.child q).Placed := by
  have hlevel := h.level_eq
  rw [hlevel] at hl
  obtain ⟨k, m, hm⟩ := h.isValid.exists_numbered_of_level hl
  have hk := hm.height_le
  have hspot := hm.spot_child (c.orientation.digit q)
  have hsize : CellId.sizeAt c.id.level = 2 * CellId.sizeAt (c.level + 1) := by
    rw [hlevel, CellId.sizeAt_of_lt hl]
  have hchild := (h.toOnTree.child (hlevel ▸ hl) q).level_eq
  rw [level_child] at hchild
  refine ⟨h.toOnTree.child (hlevel ▸ hl) q, fun axis => ?_, ?_⟩
  · have hq : (c.orientation.quadrant (c.orientation.digit q)).along axis = q.along axis := by
      rw [Orientation.quadrant_digit]
    rw [corner_child, h.corner_eq, CellId.corner, CellId.corner, ← hchild, id_child, hspot,
      Spot.down_along, ← h.orientation_eq, hq, hsize]
    ring
  · rw [id_child, hspot, Spot.down, ← h.orientation_eq]
    rfl

end PaddedCell

end SphereIndex
