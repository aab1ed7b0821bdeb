import SphereIndex.Face.Projection
import SphereIndex.Proofs.Signs

/-!
# The frames of neighbouring faces

A point of the cube is described by every face over which it lies at height 1.  To go from one
description to another only signs are turned, so whatever the arithmetic rounds, a point on a side of
a face has exactly the same place on the face across it.
-/

namespace SphereIndex.Face

open Scalar (ExactSigns)

/-! ## 1. Neighbours -/

theorem mem_all (f : Face) : f ∈ all := by cases f <;> decide

theorem exists_neighbour {f g : Face} (h : g ≠ f) (h' : g ≠ f.opposite) :
    ∃ axis positive, g = f.neighbour axis positive := by
  have hall : g = f ∨ g = f.opposite ∨ g = f.neighbour .u true ∨ g = f.neighbour .u false ∨
      g = f.neighbour .v true ∨ g = f.neighbour .v false := by
    cases f <;> cases g <;> decide
  rcases hall with heq | heq | heq | heq | heq | heq
  · exact absurd heq h
  · exact absurd heq h'
  · exact ⟨_, _, heq⟩
  · exact ⟨_, _, heq⟩
  · exact ⟨_, _, heq⟩
  · exact ⟨_, _, heq⟩

variable {α : Type} [Scalar α]

/-! ## 2. Points at height 1 -/

/-- **The place on a face** of a point at height 1 over it. -/
def place (f : Face) (p : Vec3 α) : Vec2 α := ⟨(f.toFrame p).x, (f.toFrame p).y⟩

theorem place_along (f : Face) (p : Vec3 α) (axis : Axis) :
    (f.place p).along axis = (f.toward axis).height p := by
  cases axis <;> rfl

/-- Whether a coordinate is that of a side of a face. -/
def IsSide (x : α) : Prop := x = 1 ∨ x = -1

/-- The face across the side of `f` at the coordinate `x` along an axis. -/
def across (f : Face) (axis : Axis) (x : α) : Face := f.neighbour axis (decide (0 < x))

theorem across_ne (f : Face) (axis : Axis) (x : α) :
    f.across axis x ≠ f ∧ f.across axis x ≠ f.opposite := f.neighbour_ne _ _

section signs
variable [ExactSigns α] {f g : Face} {p : Vec3 α} {e : Vec2 α} {axis : Axis}

theorem height_opposite_eq_neg (f : Face) (p : Vec3 α) : f.opposite.height p = -f.height p := by
  cases f with
  | xPos | yPos | zPos => rfl
  | xNeg | yNeg | zNeg => exact (ExactSigns.neg_neg _).symm

/-- **A point of a face is found in its frame as it was.** -/
theorem toFrame_lift_eq (f : Face) (p : Vec2 α) : f.toFrame (f.lift p) = ⟨p.x, p.y, 1⟩ := by
  cases f <;> simp only [toFrame, toward, height, lift, ExactSigns.neg_neg]

theorem height_lift_eq_one (f : Face) (p : Vec2 α) : f.height (f.lift p) = 1 :=
  congrArg Vec3.z (toFrame_lift_eq f p)

theorem place_lift (f : Face) (p : Vec2 α) : f.place (f.lift p) = p := by
  rw [place, toFrame_lift_eq]

theorem lift_place (h : f.height p = 1) : f.lift (f.place p) = p := by
  obtain ⟨x, y, z⟩ := p
  cases f <;> simp only [height] at h <;>
    simp only [lift, place, toFrame, toward, height, ExactSigns.neg_neg, ← h]

/-! ## 3. Points on a side -/

theorem across_one (f : Face) (axis : Axis) : f.across axis (1 : α) = f.toward axis := by
  rw [across, decide_eq_true ExactSigns.zero_lt_one, neighbour, if_pos rfl]

theorem across_neg_one (f : Face) (axis : Axis) :
    f.across axis (-1 : α) = (f.toward axis).opposite := by
  rw [across, decide_eq_false ExactSigns.not_zero_lt_neg_one, neighbour, if_neg Bool.false_ne_true]

/-- **A point on a side of a face lies at height 1 over the face across.** -/
theorem height_across (f : Face) (h : IsSide (e.along axis)) :
    (f.across axis (e.along axis)).height (f.lift e) = 1 := by
  have hheight : (f.toward axis).height (f.lift e) = e.along axis := by rw [← place_along, place_lift]
  rcases h with hone | hone
  · rw [hone, across_one, hheight, hone]
  · rw [hone, across_neg_one, height_opposite_eq_neg, hheight, hone, ExactSigns.neg_neg]

/-- **Across a side there is a side that leads back**: the point is on it as exactly. -/
theorem exists_side_back (hf : f.height p = 1) (hg : g ≠ f ∧ g ≠ f.opposite) :
    ∃ axis, IsSide ((g.place p).along axis) ∧ g.across axis ((g.place p).along axis) = f := by
  have hopp : f ≠ g.opposite := fun h => hg.2 (by rw [h, opposite_opposite])
  obtain ⟨axis, positive, rfl⟩ := exists_neighbour hg.1.symm hopp
  have hplace := g.place_along p axis
  refine ⟨axis, ?_⟩
  cases positive with
  | true =>
    have hone : (g.toward axis).height p = 1 := hf
    rw [hplace, hone, across_one]
    exact ⟨.inl rfl, rfl⟩
  | false =>
    have hone : (g.toward axis).height p = -1 := by
      rw [← ExactSigns.neg_neg ((g.toward axis).height p), ← height_opposite_eq_neg]
      exact congrArg _ hf
    rw [hplace, hone, across_neg_one]
    exact ⟨.inr rfl, rfl⟩

end signs

end SphereIndex.Face
