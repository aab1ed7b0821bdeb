import SphereIndex.Proofs.Arc.Turn
import SphereIndex.Proofs.Face.Frame
import SphereIndex.Proofs.Planar.Segment

/-!
# The directions that meet a face

A direction meets the square of a face if the face is the one that it reaches furthest towards.  In
the frame of the face these directions form a cone over a square, and the same holds for a square of
any other size.  Projection takes arcs to segments.
-/

namespace SphereIndex

open Planar

/-! ## 1. Cones over squares -/

namespace Vec3

/-- The direction meets the square `[-s, s]` at height 1. -/
structure Over (s : ℝ) (p : Vec3 ℝ) : Prop where
  pos : 0 < p.z
  x_le : |p.x| ≤ s * p.z
  y_le : |p.y| ≤ s * p.z

/-- The point at height 1 in the direction of `p`. -/
noncomputable def shadow (p : Vec3 ℝ) : Vec2 ℝ := ⟨p.x / p.z, p.y / p.z⟩

variable {p q : Vec3 ℝ} {s α β k : ℝ}

theorem Over.combine (hp : Over s p) (hq : Over s q) (hα : 0 ≤ α) (hβ : 0 ≤ β) (hpos : 0 < α + β) :
    Over s (p.scale α + q.scale β) := by
  have habs (x y : ℝ) (hx : |x| ≤ s * p.z) (hy : |y| ≤ s * q.z) :
      |x * α + y * β| ≤ s * (p.z * α + q.z * β) := by
    have hx := mul_le_mul_of_nonneg_right hx hα
    have hy := mul_le_mul_of_nonneg_right hy hβ
    have habs := abs_add_le (x * α) (y * β)
    rw [abs_mul, abs_mul, abs_of_nonneg hα, abs_of_nonneg hβ] at habs
    linarith
  exact ⟨combine_pos hp.pos hq.pos hα hβ hpos, habs p.x q.x hp.x_le hq.x_le,
    habs p.y q.y hp.y_le hq.y_le⟩

theorem Over.scale (hp : Over s p) (hk : 0 < k) : Over s (p.scale k) := by
  have habs (x : ℝ) (hx : |x| ≤ s * p.z) : |x * k| ≤ s * (p.z * k) := by
    rw [abs_mul, abs_of_pos hk, ← mul_assoc]
    exact mul_le_mul_of_nonneg_right hx hk.le
  exact ⟨mul_pos hp.pos hk, habs p.x hp.x_le, habs p.y hp.y_le⟩

theorem Over.mono {t : ℝ} (hp : Over s p) (hst : s ≤ t) : Over t p := by
  have hle := mul_le_mul_of_nonneg_right hst hp.pos.le
  exact ⟨hp.pos, hp.x_le.trans hle, hp.y_le.trans hle⟩

theorem Over.shadow_le (hp : Over s p) : |p.shadow.x| ≤ s ∧ |p.shadow.y| ≤ s := by
  have habs (x : ℝ) (hx : |x| ≤ s * p.z) : |x / p.z| ≤ s := by
    rw [abs_div, abs_of_pos hp.pos, div_le_iff₀ hp.pos]
    exact hx
  exact ⟨habs p.x hp.x_le, habs p.y hp.y_le⟩

theorem over_of_shadow (hz : 0 < p.z) (hx : |p.shadow.x| ≤ s) (hy : |p.shadow.y| ≤ s) : Over s p := by
  have habs (x : ℝ) (hx : |x / p.z| ≤ s) : |x| ≤ s * p.z := by
    rwa [abs_div, abs_of_pos hz, div_le_iff₀ hz] at hx
  exact ⟨hz, habs p.x hx, habs p.y hy⟩

theorem shadow_scale (hk : k ≠ 0) (p : Vec3 ℝ) : (p.scale k).shadow = p.shadow := by
  unfold shadow
  simp only [scale_x, scale_y, scale_z]
  rw [mul_div_mul_right _ _ hk, mul_div_mul_right _ _ hk]

/-- **Projection takes arcs to segments.** -/
theorem onSegment_shadow (hp : 0 < p.z) (hq : 0 < q.z) (hα : 0 ≤ α) (hβ : 0 ≤ β)
    (hpos : 0 < α + β) : OnSegment p.shadow q.shadow (p.scale α + q.scale β).shadow := by
  have hpα := mul_nonneg hp.le hα
  have hqβ := mul_nonneg hq.le hβ
  have hz := combine_pos hp hq hα hβ hpos
  -- The weight of `q` at height 1 is its share of the height.
  refine ⟨q.z * β / (p.z * α + q.z * β), div_nonneg hqβ hz.le, ?_, ?_⟩
  · rw [div_le_one hz]
    linarith
  · have hx (x y : ℝ) : (x * α + y * β) / (p.z * α + q.z * β) =
        linear (x / p.z) (y / q.z) (q.z * β / (p.z * α + q.z * β)) := by
      have hx := div_mul_cancel₀ x hp.ne'
      have hy := div_mul_cancel₀ y hq.ne'
      have ht := div_mul_cancel₀ (q.z * β) hz.ne'
      rw [div_eq_iff hz.ne', linear]
      linear_combination (-α) * hx - β * hy - (y / q.z - x / p.z) * ht
    exact (Vec2.mk.injEq ..).mpr ⟨hx p.x q.x, hx p.y q.y⟩

theorem largestCoordinate_eq (p : Vec3 ℝ) : p.largestCoordinate =
    if |p.y| < |p.x| then (if |p.z| < |p.x| then .x else .z)
    else if |p.z| < |p.y| then .y
    else .z := rfl

end Vec3

/-! ## 2. Frames -/

namespace Face

theorem height_eq (f : Face) (p : Vec3 ℝ) : f.height p =
    match f with
    | xPos => p.x
    | yPos => p.y
    | zPos => p.z
    | xNeg => -p.x
    | yNeg => -p.y
    | zNeg => -p.z := by
  cases f <;> rfl

theorem height_zero (f : Face) : f.height (.zero : Vec3 ℝ) = 0 := by
  rw [height_eq]
  cases f with
  | xPos | yPos | zPos => rfl
  | xNeg | yNeg | zNeg => exact neg_zero

theorem height_combine (f : Face) (p q : Vec3 ℝ) (s t : ℝ) :
    f.height (p.scale s + q.scale t) = f.height p * s + f.height q * t := by
  simp only [height_eq]
  cases f <;> simp only [Vec3.add_x, Vec3.add_y, Vec3.add_z, Vec3.scale_x, Vec3.scale_y,
    Vec3.scale_z] <;> ring

theorem height_scale (f : Face) (p : Vec3 ℝ) (k : ℝ) :
    f.height (p.scale k) = f.height p * k := by
  simp only [height_eq]
  cases f <;> simp only [Vec3.scale_x, Vec3.scale_y, Vec3.scale_z] <;> ring

theorem height_opposite (f : Face) (p : Vec3 ℝ) : f.opposite.height p = -f.height p :=
  f.height_opposite_eq_neg p

theorem toFrame_combine (f : Face) (p q : Vec3 ℝ) (s t : ℝ) :
    f.toFrame (p.scale s + q.scale t) = (f.toFrame p).scale s + (f.toFrame q).scale t := by
  ext <;> exact height_combine _ p q s t

theorem toFrame_scale (f : Face) (p : Vec3 ℝ) (k : ℝ) :
    f.toFrame (p.scale k) = (f.toFrame p).scale k := by
  ext <;> exact height_scale _ p k

/-- A frame is orthonormal and right-handed. -/
theorem dot_toFrame (f : Face) (p q : Vec3 ℝ) : (f.toFrame p).dot (f.toFrame q) = p.dot q := by
  simp only [Vec3.dot_eq, toFrame, height_eq]
  cases f <;> simp only [toward] <;> ring

theorem turn_toFrame (f : Face) (n p q : Vec3 ℝ) :
    Vec3.turn (f.toFrame n) (f.toFrame p) (f.toFrame q) = Vec3.turn n p q := by
  simp only [Vec3.turn_eq, toFrame, height_eq]
  cases f <;> simp only [toward] <;> ring

theorem toFrame_ne_zero (f : Face) {p : Vec3 ℝ} (h : p ≠ .zero) : f.toFrame p ≠ .zero := by
  intro h0
  have hpos := Vec3.lengthSquared_pos h
  have hdot := dot_toFrame f p p
  rw [h0] at hdot
  have hzero : (Vec3.zero : Vec3 ℝ).dot .zero = 0 := by
    rw [Vec3.dot_eq]
    simp
  exact absurd (hdot.symm.trans hzero) hpos.ne'

theorem toFrame_injective (f : Face) {p q : Vec3 ℝ} (h : f.toFrame p = f.toFrame q) : p = q := by
  have hu : (f.toward .u).height p = (f.toward .u).height q := congrArg Vec3.x h
  have hv : (f.toward .v).height p = (f.toward .v).height q := congrArg Vec3.y h
  have hw : f.height p = f.height q := congrArg Vec3.z h
  simp only [height_eq] at hu hv hw
  cases f <;> simp only [toward, neg_inj] at hu hv hw <;> ext <;> assumption

theorem toFrame_lift (f : Face) (p : Vec2 ℝ) : f.toFrame (f.lift p) = ⟨p.x, p.y, 1⟩ :=
  f.toFrame_lift_eq p

/-- A vector on the side of the face is one in its frame. -/
theorem exists_toFrame_eq (f : Face) {q : Vec3 ℝ} (h : 0 < q.z) : ∃ x, f.toFrame x = q := by
  refine ⟨(f.lift q.shadow).scale q.z, ?_⟩
  rw [toFrame_scale, toFrame_lift]
  ext
  · exact div_mul_cancel₀ _ h.ne'
  · exact div_mul_cancel₀ _ h.ne'
  · exact one_mul _

/-! ## 3. Cones of faces -/

/-- **The direction meets the square of the face.** -/
def Cone (f : Face) (p : Vec3 ℝ) : Prop := (f.toFrame p).Over 1

/-- The face is the one that the direction reaches furthest towards, or one of several. -/
theorem cone_iff {f : Face} {p : Vec3 ℝ} :
    f.Cone p ↔ 0 < f.height p ∧ ∀ g : Face, g.height p ≤ f.height p := by
  constructor
  · rintro ⟨hpos, hx, hy⟩
    rw [one_mul, abs_le] at hx hy
    refine ⟨hpos, fun g => ?_⟩
    simp only [height_eq, toFrame] at hpos hx hy ⊢
    cases f <;> cases g <;> simp only [toward] at hpos hx hy ⊢ <;> linarith
  · -- The bounds are those by the faces across the four sides.
    rintro ⟨hpos, hle⟩
    have hx := hle (f.toward .u)
    have hx' := hle (f.toward .u).opposite
    have hy := hle (f.toward .v)
    have hy' := hle (f.toward .v).opposite
    rw [height_opposite] at hx' hy'
    refine ⟨hpos, ?_, ?_⟩
    · rw [one_mul, abs_le]
      exact ⟨neg_le.1 hx', hx⟩
    · rw [one_mul, abs_le]
      exact ⟨neg_le.1 hy', hy⟩

theorem project_eq (f : Face) (p : Vec3 ℝ) : f.project p = (f.toFrame p).shadow := rfl

theorem project_lift (f : Face) (p : Vec2 ℝ) : f.project (f.lift p) = p := by
  rw [project_eq, toFrame_lift]
  exact (Vec2.mk.injEq ..).mpr ⟨div_one _, div_one _⟩

/-- The point of the cube in a direction on the side of the face. -/
theorem lift_project {f : Face} {p : Vec3 ℝ} (h : 0 < f.height p) :
    f.lift (f.project p) = p.scale (f.height p)⁻¹ := by
  apply f.toFrame_injective
  rw [toFrame_lift, toFrame_scale]
  ext
  · exact div_eq_mul_inv _ _
  · exact div_eq_mul_inv _ _
  · exact (mul_inv_cancel₀ h.ne').symm

theorem project_scale (f : Face) (p : Vec3 ℝ) {k : ℝ} (hk : 0 < k) :
    f.project (p.scale k) = f.project p := by
  rw [project_eq, project_eq, toFrame_scale, Vec3.shadow_scale hk.ne']

theorem cone_lift (f : Face) {p : Vec2 ℝ} (hx : |p.x| ≤ 1) (hy : |p.y| ≤ 1) : f.Cone (f.lift p) := by
  rw [Cone, toFrame_lift]
  refine ⟨one_pos, ?_, ?_⟩
  · rwa [one_mul]
  · rwa [one_mul]

variable {f g : Face} {p q : Vec3 ℝ}

theorem Cone.project_le (h : f.Cone p) (axis : Axis) : |(f.project p).along axis| ≤ 1 := by
  obtain ⟨hu, hv⟩ := Vec3.Over.shadow_le h
  cases axis with
  | u => exact hu
  | v => exact hv

theorem Cone.scale (h : f.Cone p) {k : ℝ} (hk : 0 < k) : f.Cone (p.scale k) := by
  rw [Cone, toFrame_scale]
  exact Vec3.Over.scale h hk

/-- Between two directions over a face there are only directions over the face, and they meet it on
the segment between the two. -/
theorem Cone.between {x : Vec3 ℝ} (hp : f.Cone p) (hq : f.Cone q) (hx : Vec3.Between p q x) :
    f.Cone x ∧ OnSegment (f.project p) (f.project q) (f.project x) := by
  obtain ⟨s, t, hs, ht, hst, rfl⟩ := hx
  simp only [Cone, project_eq, toFrame_combine]
  exact ⟨Vec3.Over.combine hp hq hs ht hst, Vec3.onSegment_shadow hp.pos hq.pos hs ht hst⟩

/-- Two faces over which a direction lies are reached equally far. -/
theorem Cone.height_eq_height (hf : f.Cone p) (hg : g.Cone p) : f.height p = g.height p :=
  le_antisymm ((cone_iff.1 hg).2 f) ((cone_iff.1 hf).2 g)

/-- **A direction ahead of `p` and behind `q` lies between the two**, if both lie on one side. -/
theorem exists_between {n x : Vec3 ℝ} (hp : 0 < f.height p) (hq : 0 < f.height q)
    (hnp : n.dot p = 0) (hnq : n.dot q = 0) (hnx : n.dot x = 0) (hpq : 0 ≤ Vec3.turn n p q)
    (hpx : 0 ≤ Vec3.turn n p x) (hxq : 0 < Vec3.turn n x q) :
    ∃ s t, 0 < s ∧ 0 ≤ t ∧ x = p.scale s + q.scale t := by
  have hcomb := Vec3.scale_turn hnp hnq hnx
  have hl : 0 < Vec3.turn n p q := by
    rcases hpq.lt_or_eq with hl | hzero
    · exact hl
    · -- Otherwise `x` would lie at height 0, between two directions that do not.
      have hheight := congrArg f.height hcomb
      rw [← hzero, height_scale, height_combine, mul_zero] at hheight
      have := mul_pos hp hxq
      have := mul_nonneg hq.le hpx
      linarith
  refine ⟨_, _, div_pos hxq hl, div_nonneg hpx hl.le, ?_⟩
  apply Vec3.scale_cancel hl.ne'
  rw [hcomb]
  have hcoord (y z : ℝ) : y * Vec3.turn n x q + z * Vec3.turn n p x =
      (y * (Vec3.turn n x q / Vec3.turn n p q) + z * (Vec3.turn n p x / Vec3.turn n p q)) *
        Vec3.turn n p q := by
    rw [mul_div_assoc', mul_div_assoc', ← add_div, div_mul_cancel₀ _ hl.ne']
  ext
  · exact hcoord p.x q.x
  · exact hcoord p.y q.y
  · exact hcoord p.z q.z

/-! ## 4. The face of a point -/

/-- Of several faces that a direction lies over, the one with the largest rank is chosen. -/
def rank : Face → Nat
  | xPos | xNeg => 0
  | yPos | yNeg => 1
  | zPos | zNeg => 2

theorem rank_opposite (f : Face) : f.opposite.rank = f.rank := by cases f <;> rfl

theorem eq_or_eq_opposite (h : f.rank = g.rank) : g = f ∨ g = f.opposite := by
  revert h
  cases f <;> cases g <;> decide

/-- The face or the one opposite, whichever the direction reaches towards. -/
noncomputable def facing (f : Face) (p : Vec3 ℝ) : Face := if f.height p < 0 then f.opposite else f

theorem height_facing (f : Face) (p : Vec3 ℝ) : (f.facing p).height p = |f.height p| := by
  unfold facing
  split
  · rename_i h
    rw [height_opposite, abs_of_neg h]
  · rename_i h
    rw [abs_of_nonneg (not_lt.1 h)]

theorem rank_facing (f : Face) (p : Vec3 ℝ) : (f.facing p).rank = f.rank := by
  unfold facing
  split
  · exact rank_opposite f
  · rfl

/-- The face in the direction of a coordinate. -/
def ofCoordinate : Coordinate → Face
  | .x => xPos
  | .y => yPos
  | .z => zPos

theorem ofPoint_eq_facing (p : Vec3 ℝ) : ofPoint p = (ofCoordinate p.largestCoordinate).facing p := by
  unfold ofPoint
  cases p.largestCoordinate <;> rfl

theorem ofPoint_eq (p : Vec3 ℝ) : ofPoint p =
    if |p.y| < |p.x| then (if |p.z| < |p.x| then xPos.facing p else zPos.facing p)
    else if |p.z| < |p.y| then yPos.facing p
    else zPos.facing p := by
  rw [ofPoint_eq_facing, Vec3.largestCoordinate_eq]
  split_ifs <;> rfl

/-- The face of a point is that of its direction. -/
theorem ofPoint_scale (p : Vec3 ℝ) {k : ℝ} (hk : 0 < k) : ofPoint (p.scale k) = ofPoint p := by
  have habs (x : ℝ) : |x * k| = |x| * k := by rw [abs_mul, abs_of_pos hk]
  have hfacing (f : Face) : f.facing (p.scale k) = f.facing p := by
    have hneg : f.height p * k < 0 ↔ f.height p < 0 :=
      ⟨fun h => neg_of_mul_neg_left h hk.le, fun h => mul_neg_of_neg_of_pos h hk⟩
    rw [facing, height_scale, if_congr hneg rfl rfl]
    rfl
  rw [ofPoint_eq, ofPoint_eq]
  simp only [Vec3.scale_x, Vec3.scale_y, Vec3.scale_z, habs, mul_lt_mul_iff_left₀ hk, hfacing]

/-- No face is reached further than that of the point, and none of a larger rank as far. -/
theorem ofPoint_spec (f : Face) (p : Vec3 ℝ) : |f.height p| ≤ (ofPoint p).height p ∧
    ((ofPoint p).rank < f.rank → |f.height p| < (ofPoint p).height p) := by
  have habs : |f.height p| = match f with
    | xPos | xNeg => |p.x|
    | yPos | yNeg => |p.y|
    | zPos | zNeg => |p.z| := by
    rw [height_eq]
    cases f <;> simp only [abs_neg]
  have hx : xPos.height p = p.x := rfl
  have hy : yPos.height p = p.y := rfl
  have hz : zPos.height p = p.z := rfl
  -- The comparisons are strict in favour of a lower rank, so a tie goes to the larger one.
  rw [ofPoint_eq, habs]
  split_ifs with hyx hzx hzy
  · rw [height_facing, rank_facing, hx]
    cases f <;> simp only [rank] <;> exact ⟨by linarith, fun h => by linarith⟩
  · rw [height_facing, rank_facing, hz]
    cases f <;> simp only [rank] <;> exact ⟨by linarith, fun h => by linarith⟩
  · rw [height_facing, rank_facing, hy]
    cases f <;> simp only [rank] <;> exact ⟨by linarith, fun h => by linarith⟩
  · rw [height_facing, rank_facing, hz]
    cases f <;> simp only [rank] <;> exact ⟨by linarith, fun h => by linarith⟩

theorem cone_ofPoint (h : p ≠ .zero) : (ofPoint p).Cone p := by
  have hle (g : Face) : g.height p ≤ (ofPoint p).height p :=
    (le_abs_self _).trans (ofPoint_spec g p).1
  refine cone_iff.2 ⟨?_, hle⟩
  by_contra hpos
  -- A direction that reaches towards no face is zero.
  have hzero (g : Face) : g.height p = 0 :=
    abs_nonpos_iff.1 ((ofPoint_spec g p).1.trans (not_lt.1 hpos))
  exact h (Vec3.ext_real (hzero xPos) (hzero yPos) (hzero zPos))

theorem abs_project_le (p : Vec3 ℝ) (axis : Axis) :
    |((ofPoint p).project p).along axis| ≤ 1 := by
  by_cases h : p = .zero
  · -- The zero vector has the coordinates 0 / 0, which is 0.
    have hproject (f : Face) : (f.project (.zero : Vec3 ℝ)).along axis = 0 := by
      rw [project_eq]
      cases axis with
      | u => exact (congrArg _ (height_zero f)).trans (div_zero _)
      | v => exact (congrArg _ (height_zero f)).trans (div_zero _)
    rw [h, hproject, abs_zero]
    exact zero_le_one
  · exact (cone_ofPoint h).project_le axis

theorem Cone.rank_le (h : f.Cone p) : f.rank ≤ (ofPoint p).rank := by
  by_contra hlt
  have hspec := (ofPoint_spec f p).2 (not_le.1 hlt)
  have hle := (cone_iff.1 h).2 (ofPoint p)
  exact absurd ((le_abs_self _).trans_lt hspec) (not_lt.2 hle)

theorem Cone.eq_ofPoint (h : f.Cone p) (hrank : f.rank = (ofPoint p).rank) : ofPoint p = f := by
  rcases eq_or_eq_opposite hrank with heq | heq
  · exact heq
  · have hpos := (cone_iff.1 h).1
    have hspec := (ofPoint_spec f p).1
    rw [heq, height_opposite, abs_of_pos hpos] at hspec
    linarith

/-- If two points both lie over the faces of both, the faces are the same. -/
theorem ofPoint_eq_ofPoint (hp : (ofPoint q).Cone p) (hq : (ofPoint p).Cone q) :
    ofPoint p = ofPoint q :=
  hp.eq_ofPoint (le_antisymm hp.rank_le hq.rank_le)

end Face

end SphereIndex
