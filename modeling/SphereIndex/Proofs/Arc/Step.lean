import SphereIndex.Arc.FaceSegments
import SphereIndex.Proofs.Face.Frame

/-!
# Steps from face to face

A step of a walk leaves a face at a point with a coordinate that is 1 or -1 by construction, and enters
the face across one of the sides at that point.  A walk to the face where it begins makes no step.
-/

namespace SphereIndex.Arc

open Scalar (ExactSigns)

variable {α : Type} [Scalar α]

theorem faceSegments_of_face {a b : Vec3 α} {f : Face} (ha : Face.ofPoint a = f)
    (hb : Face.ofPoint b = f) : faceSegments? a b = some [⟨f, f.project a, f.project b⟩] := by
  unfold faceSegments?
  dsimp only
  rw [ha, hb, if_pos rfl]

theorem isSide_exitPoint (n : Vec3 α) (axis : Axis) :
    Face.IsSide ((Line.exitPoint n axis).along axis) := by
  cases axis with
  | u =>
    change Face.IsSide (if 0 < n.y then (1 : α) else -1)
    split
    · exact .inl rfl
    · exact .inr rfl
  | v =>
    change Face.IsSide (if n.x < 0 then (1 : α) else -1)
    split
    · exact .inl rfl
    · exact .inr rfl

/-- **The next face lies across a side of the exit**: that through which the line leaves or, at a
corner, the other one if it leads to the last face. -/
theorem exists_nextFace [ExactSigns α] {e : Vec2 α} {axis : Axis} (h : Face.IsSide (e.along axis))
    (f last : Face) (m : Vec3 α) : ∃ side, Face.IsSide (e.along side) ∧
      nextFace f e axis m last = f.across side (e.along side) ∧
      (side = axis ∨ nextFace f e axis m last = last) := by
  unfold nextFace
  dsimp only
  split
  · rename_i hcorner
    exact ⟨axis.other, ExactSigns.eq_of_abs_beq_one hcorner.1, hcorner.2.1.symm, .inr rfl⟩
  · exact ⟨axis, h, rfl, .inl rfl⟩

end SphereIndex.Arc
