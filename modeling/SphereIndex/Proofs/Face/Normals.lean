import SphereIndex.Proofs.Face.Cone

/-!
# Normals of the lines of a face

The normal of a line of constant u is the same vector in the frames of all faces, and so is the
normal of a line of constant v, except that on the last face it points the other way.  The product
of a normal with a point of the face is therefore the distance of the point from the line, and its
sign tells on which side the point lies.
-/

namespace SphereIndex.Face

theorem toFrame_uNormal (f : Face) (u : ℝ) : f.toFrame (f.uNormal u) = ⟨-1, 0, u⟩ := by
  cases f <;> ext <;> simp [toFrame, height_eq, toward, uNormal]

theorem toFrame_vNormal (f : Face) (v : ℝ) :
    f.toFrame (f.vNormal v) = if f = zNeg then ⟨0, -1, v⟩ else ⟨0, 1, -v⟩ := by
  cases f <;> ext <;> simp [toFrame, height_eq, toward, vNormal]

theorem dot_uNormal (f : Face) (u : ℝ) (p : Vec2 ℝ) : (f.uNormal u).dot (f.lift p) = u - p.x := by
  rw [← f.dot_toFrame, toFrame_uNormal, toFrame_lift, Vec3.dot_eq]
  ring

theorem dot_vNormal (f : Face) (v : ℝ) (p : Vec2 ℝ) :
    (f.vNormal v).dot (f.lift p) = if f = zNeg then v - p.y else p.y - v := by
  rw [← f.dot_toFrame, toFrame_vNormal, toFrame_lift]
  split <;> rw [Vec3.dot_eq] <;> ring

/-- **A normal vanishes exactly on its line and tells the sides of the line apart.**  For a line of
constant u it does so in the same way on all faces: the product with a point is how far the point
lies below the line.  For a line of constant v the product is how far the point lies above it, but on
the last face how far it lies below. -/
theorem normals_tell_sides (f : Face) (u v : ℝ) (p : Vec2 ℝ) :
    ((f.uNormal u).dot (f.lift p) = u - p.x ∧
      (f.vNormal v).dot (f.lift p) = if f = zNeg then v - p.y else p.y - v) ∧
    ((f.uNormal u).dot (f.lift p) = 0 ↔ p.x = u) ∧
    ((f.vNormal v).dot (f.lift p) = 0 ↔ p.y = v) := by
  refine ⟨⟨f.dot_uNormal u p, f.dot_vNormal v p⟩, ?_, ?_⟩
  · rw [dot_uNormal, sub_eq_zero, eq_comm]
  · rw [dot_vNormal]
    split
    · rw [sub_eq_zero, eq_comm]
    · rw [sub_eq_zero]

/-- On the last face the normal of the line v = 1/4 points away from the points above the line. -/
theorem vNormal_points_back_on_zNeg :
    (zNeg.vNormal (1 / 4 : ℝ)).dot (zNeg.lift ⟨0, 1⟩) = -(1 - 1 / 4) ∧
    ¬∀ (f : Face) (v : ℝ) (p : Vec2 ℝ), (f.vNormal v).dot (f.lift p) = p.y - v := by
  have hback : (zNeg.vNormal (1 / 4 : ℝ)).dot (zNeg.lift ⟨0, 1⟩) = -(1 - 1 / 4) := by
    rw [dot_vNormal, if_pos rfl]
    norm_num
  refine ⟨hback, fun h => ?_⟩
  have hclaimed := (h zNeg (1 / 4) ⟨0, 1⟩).symm.trans hback
  norm_num at hclaimed

end SphereIndex.Face
