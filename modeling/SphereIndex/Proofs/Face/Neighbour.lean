import SphereIndex.Proofs.Face.Cone

/-!
# Neighbours of a face

The side of a face at `±1` of an axis is shared with its neighbour there, which is as high above
the side as the face itself.  Inside the square of a face no other face is as high.
-/

namespace SphereIndex

open Planar

namespace Face

variable {f g : Face} {p : Vec3 ℝ} {e : Vec2 ℝ} {axis : Axis}

theorem isSide_real {x : ℝ} : IsSide x ↔ |x| = 1 := (abs_eq zero_le_one).symm

/-- The face across the side on which a point lies. -/
theorem height_neighbour (f : Face) (p : Vec3 ℝ) {x : ℝ} (hx : |x| = 1) :
    (f.neighbour axis (decide (0 < x))).height p = x * (f.toward axis).height p := by
  unfold neighbour
  rcases (abs_eq zero_le_one).1 hx with rfl | rfl
  · rw [decide_eq_true one_pos, if_pos rfl, one_mul]
  · rw [decide_eq_false (by norm_num), if_neg Bool.false_ne_true, height_opposite, neg_one_mul]

theorem height_lift (f : Face) (e : Vec2 ℝ) : f.height (f.lift e) = 1 := f.height_lift_eq_one e

/-- Another face over which a point of a face lies is the face across some side. -/
theorem exists_side (hg : g.height (f.lift e) = 1) (hne : g ≠ f) :
    ∃ axis, |e.along axis| = 1 ∧ g = f.neighbour axis (decide (0 < e.along axis)) := by
  have hopp : f ≠ g.opposite := by
    rintro rfl
    have hheight := height_lift g.opposite e
    rw [height_opposite, hg] at hheight
    norm_num at hheight
  obtain ⟨axis, hside, hacross⟩ := exists_side_back hg ⟨hne.symm, hopp⟩
  rw [place_lift] at hside hacross
  exact ⟨axis, isSide_real.1 hside, hacross.symm⟩

/-- **The face of a point inside the square of a face** is that face. -/
theorem ofPoint_lift (f : Face) (hx : |e.x| < 1) (hy : |e.y| < 1) : ofPoint (f.lift e) = f := by
  have hcone := f.cone_lift hx.le hy.le
  have hzero : f.lift e ≠ .zero := fun h => by
    have hpos := (cone_iff.1 hcone).1
    rw [h, height_zero] at hpos
    exact lt_irrefl _ hpos
  by_contra hne
  -- The two faces would be reached equally far, so that the point would be on a side.
  have hheight := hcone.height_eq_height (cone_ofPoint hzero)
  rw [height_lift] at hheight
  obtain ⟨axis, hside, -⟩ := exists_side hheight.symm hne
  cases axis with
  | u => exact absurd hside hx.ne
  | v => exact absurd hside hy.ne

/-- **The frames of the faces fit together.**  A point of a face is found in the frame of the face
exactly as it was, however the arithmetic rounds.  The direction of a point inside the square of a
face leads back to the face and the point.  And a point on a side lies at height 1 over the face
across, on a side there that leads back. -/
theorem frames_fit_together :
    (∀ (α : Type) [Scalar α] [Scalar.ExactSigns α] (f : Face) (p : Vec2 α),
      f.toFrame (f.lift p) = ⟨p.x, p.y, 1⟩) ∧
    (∀ (f : Face) (p : Vec2 ℝ) (t : ℝ), |p.x| < 1 → |p.y| < 1 → 0 < t →
      let x := (f.lift p).scale t
      ofPoint x = f ∧ (ofPoint x).project x = p) ∧
    ∀ (α : Type) [Scalar α] [Scalar.ExactSigns α] (f : Face) (axis : Axis) (p : Vec2 α),
      p.along axis = 1 ∨ p.along axis = -1 →
      let g := f.neighbour axis (decide (0 < p.along axis))
      let q := g.toFrame (f.lift p)
      q.z = 1 ∧ ∃ axis', let x := (Vec2.mk q.x q.y).along axis'
        (x = 1 ∨ x = -1) ∧ g.neighbour axis' (decide (0 < x)) = f := by
  refine ⟨fun α _ _ f p => f.toFrame_lift_eq p, fun f p t hx hy ht => ?_,
    fun α _ _ f axis p hside => ?_⟩
  · have hface : ofPoint ((f.lift p).scale t) = f := by rw [ofPoint_scale _ ht, f.ofPoint_lift hx hy]
    exact ⟨hface, by rw [hface, f.project_scale _ ht, project_lift]⟩
  · exact ⟨f.height_across hside, exists_side_back (f.height_lift_eq_one p) (f.across_ne axis _)⟩

/-- A point inside a face, and the middle of one of its sides. -/
theorem frames_fit_together_on_yNeg :
    yNeg.toFrame (yNeg.lift ⟨1 / 3, -1 / 2⟩) = (⟨1 / 3, -1 / 2, 1⟩ : Vec3 ℝ) ∧
    ofPoint (⟨1, -2, -2 / 3⟩ : Vec3 ℝ) = yNeg ∧
    yNeg.project (⟨1, -2, -2 / 3⟩ : Vec3 ℝ) = ⟨1 / 3, 1 / 2⟩ ∧
    (xPos.toFrame (yNeg.lift ⟨0, 1⟩ : Vec3 ℝ)).z = 1 := by
  obtain ⟨hframe, hinside, hside⟩ := frames_fit_together
  have hscale : ((yNeg.lift ⟨1 / 3, 1 / 2⟩).scale 2 : Vec3 ℝ) = ⟨1, -2, -2 / 3⟩ := by
    change (⟨1 / 2, -1, -(1 / 3)⟩ : Vec3 ℝ).scale 2 = _
    ext <;> simp only [Vec3.scale_x, Vec3.scale_y, Vec3.scale_z] <;> norm_num
  obtain ⟨hface, hproject⟩ := hinside yNeg ⟨1 / 3, 1 / 2⟩ 2
    (abs_lt.2 ⟨by norm_num, by norm_num⟩) (abs_lt.2 ⟨by norm_num, by norm_num⟩) two_pos
  rw [hscale] at hface hproject
  rw [hface] at hproject
  have hacross : yNeg.neighbour .v (decide (0 < (1 : ℝ))) = xPos := yNeg.across_one .v
  obtain ⟨hheight, -⟩ := hside ℝ yNeg .v ⟨0, 1⟩ (.inl rfl)
  exact ⟨hframe ℝ yNeg _, hface, hproject, hacross ▸ hheight⟩

end Face

end SphereIndex
