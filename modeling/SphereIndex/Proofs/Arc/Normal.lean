import Mathlib.Tactic.NormNum
import SphereIndex.Arc.Normal
import SphereIndex.Proofs.Face.Cone

/-!
# The normal of an arc

The computed normal of two directions that are not opposite is a normal of the arc between them,
also when the cross product vanishes.
-/

namespace SphereIndex

namespace Vec3

/-- **The ends of an arc**: two directions that are not opposite. -/
structure IsArc (a b : Vec3 ℝ) : Prop where
  left : a ≠ zero
  right : b ≠ zero
  apart : ∀ k, 0 < k → b ≠ a.scale (-k)

variable {a b n v : Vec3 ℝ}

theorem beq_zero_iff : (v == zero) = true ↔ v = zero := by
  have hbeq : (v == zero) = (decide (v.x = 0) && (decide (v.y = 0) && decide (v.z = 0))) := rfl
  rw [hbeq, Bool.and_eq_true, Bool.and_eq_true, decide_eq_true_iff, decide_eq_true_iff,
    decide_eq_true_iff]
  constructor
  · rintro ⟨hx, hy, hz⟩
    exact ext_real hx hy hz
  · rintro rfl
    exact ⟨rfl, rfl, rfl⟩

theorem normalize_eq (h : v ≠ zero) : ∃ k, 0 < k ∧ v.normalize = v.scale k :=
  ⟨1 / Real.sqrt v.lengthSquared, one_div_pos.2 (Real.sqrt_pos.2 (lengthSquared_pos h)), rfl⟩

theorem smaller_multiple_ne {s t k : ℝ} (h : |s| ≤ |t|) (ht : t ≠ 0) (h0 : 0 ≤ k) (h1 : k < 1) :
    s * k - t ≠ 0 := by
  intro heq
  have habs : |s| * k = |t| := by
    rw [← abs_of_nonneg h0, ← abs_mul, sub_eq_zero.1 heq]
  have hpos := abs_pos.2 ht
  have hle := mul_le_mul_of_nonneg_right h h0
  have hlt := mul_lt_of_lt_one_right hpos h1
  linarith

theorem largestCoordinate_spec (p : Vec3 ℝ) :
    match p.largestCoordinate with
    | .x => |p.z| < |p.x|
    | .y => |p.x| ≤ |p.y| ∧ |p.z| < |p.y|
    | .z => |p.x| ≤ |p.z| ∧ |p.y| ≤ |p.z| := by
  rw [largestCoordinate_eq]
  split_ifs with hyx hzx hzy
  · exact hzx
  · exact ⟨not_lt.1 hzx, hyx.le.trans (not_lt.1 hzx)⟩
  · exact ⟨not_lt.1 hyx, hzy⟩
  · exact ⟨(not_lt.1 hyx).trans (not_lt.1 hzy), not_lt.1 hzy⟩

/-- The direction that a vector is crossed with for one orthogonal to it. -/
noncomputable def sideways (a : Vec3 ℝ) : Vec3 ℝ :=
  match a.largestCoordinate with
  | .x => ⟨((12 : ℕ) : ℝ) / 10 ^ 3, ((53 : ℕ) : ℝ) / 10 ^ 4, 1⟩
  | .y => ⟨1, ((53 : ℕ) : ℝ) / 10 ^ 4, ((457 : ℕ) : ℝ) / 10 ^ 5⟩
  | .z => ⟨((12 : ℕ) : ℝ) / 10 ^ 3, 1, ((457 : ℕ) : ℝ) / 10 ^ 5⟩

theorem orthogonal_eq (a : Vec3 ℝ) : a.orthogonal = (a.cross a.sideways).normalize := rfl

theorem cross_sideways_ne_zero (h : a ≠ zero) : a.cross a.sideways ≠ zero := by
  intro hzero
  -- The component of the cross product that has the largest coordinate times 1 is not zero.
  have hspec := largestCoordinate_spec a
  unfold sideways at hzero
  cases hl : a.largestCoordinate with
  | x =>
    rw [hl] at hspec hzero
    have hx : a.x ≠ 0 := abs_pos.1 ((abs_nonneg _).trans_lt hspec)
    have hcomp : a.z * (((12 : ℕ) : ℝ) / 10 ^ 3) - 1 * a.x = 0 := congrArg Vec3.y hzero
    rw [one_mul] at hcomp
    exact smaller_multiple_ne hspec.le hx (by norm_num) (by norm_num) hcomp
  | y =>
    rw [hl] at hspec hzero
    have hy : a.y ≠ 0 := abs_pos.1 ((abs_nonneg _).trans_lt hspec.2)
    have hcomp : a.x * (((53 : ℕ) : ℝ) / 10 ^ 4) - 1 * a.y = 0 := congrArg Vec3.z hzero
    rw [one_mul] at hcomp
    exact smaller_multiple_ne hspec.1 hy (by norm_num) (by norm_num) hcomp
  | z =>
    rw [hl] at hspec hzero
    have hz : a.z ≠ 0 := by
      intro hz
      rw [hz, abs_zero] at hspec
      exact h (ext_real (abs_nonpos_iff.1 hspec.1) (abs_nonpos_iff.1 hspec.2) hz)
    have hcomp : a.y * (((457 : ℕ) : ℝ) / 10 ^ 5) - 1 * a.z = 0 := congrArg Vec3.x hzero
    rw [one_mul] at hcomp
    exact smaller_multiple_ne hspec.2 hz (by norm_num) (by norm_num) hcomp

theorem IsArc.eq_scale (h : IsArc a b) (hcross : a.cross b = zero) : ∃ k, 0 < k ∧ b = a.scale k := by
  have ha := lengthSquared_pos h.left
  have hx : a.y * b.z - b.y * a.z = 0 := congrArg Vec3.x hcross
  have hy : a.z * b.x - b.z * a.x = 0 := congrArg Vec3.y hcross
  have hz : a.x * b.y - b.x * a.y = 0 := congrArg Vec3.z hcross
  have hb : b = a.scale (a.dot b / a.lengthSquared) := by
    ext
    · rw [scale_x, mul_div_assoc', eq_div_iff ha.ne', lengthSquared_eq, dot_eq]
      linear_combination a.z * hy - a.y * hz
    · rw [scale_y, mul_div_assoc', eq_div_iff ha.ne', lengthSquared_eq, dot_eq]
      linear_combination a.x * hz - a.z * hx
    · rw [scale_z, mul_div_assoc', eq_div_iff ha.ne', lengthSquared_eq, dot_eq]
      linear_combination a.y * hx - a.x * hy
  -- A negative factor would make the ends opposite, and zero would make `b` zero.
  refine ⟨_, ?_, hb⟩
  rcases lt_trichotomy (a.dot b / a.lengthSquared) 0 with hneg | h0 | hpos
  · exact absurd (by rw [neg_neg]; exact hb) (h.apart _ (neg_pos.2 hneg))
  · rw [h0] at hb
    exact absurd (by rw [hb]; ext <;> exact mul_zero _) h.right
  · exact hpos

theorem isNormal_cross (h : a.cross b ≠ zero) : IsNormal (a.cross b) a b := by
  have hpos : 0 < turn (a.cross b) a b := lengthSquared_pos h
  refine ⟨h, dot_cross_left a b, dot_cross_right a b, hpos.le, fun h0 => ?_⟩
  exact absurd h0 hpos.ne'

theorem isNormal_parallel {k : ℝ} (hn : n ≠ zero) (ha : n.dot a = 0) (hk : 0 < k) :
    IsNormal n a (a.scale k) := by
  have hturn : turn n a (a.scale k) = 0 := by rw [turn_scale_right, turn_self, zero_mul]
  refine ⟨hn, ha, ?_, hturn.symm.le, fun _ => ⟨k, hk, rfl⟩⟩
  rw [dot_scale_right, ha, zero_mul]

theorem cross_twice (a b : Vec3 ℝ) : (b + a).cross (b - a) = (a.cross b).scale 2 := by
  ext <;> simp only [cross_x, cross_y, cross_z, add_x, add_y, add_z, sub_x, sub_y, sub_z, scale_x,
    scale_y, scale_z] <;> ring

/-- If the ends have the same direction, the line is any one through it. -/
theorem lineNormal_of_cross_eq_zero (h : a.cross b = zero) : a.lineNormal b = a.orthogonal := by
  refine if_pos (beq_zero_iff.2 ?_)
  rw [cross_twice, h, zero_scale]

/-- **The computed normal** is one. -/
theorem IsArc.isNormal (h : IsArc a b) : IsNormal (a.lineNormal b) a b := by
  by_cases hcross : a.cross b = zero
  · -- The ends have the same direction, and any vector orthogonal to it will do.
    have hn := lineNormal_of_cross_eq_zero hcross
    obtain ⟨k, hk, rfl⟩ := h.eq_scale hcross
    have hne := cross_sideways_ne_zero h.left
    obtain ⟨l, hl, hnorm⟩ := normalize_eq hne
    rw [hn, orthogonal_eq, hnorm]
    apply isNormal_parallel (scale_ne_zero hne hl.ne') _ hk
    rw [dot_scale_left, dot_cross_left, zero_mul]
  · have hn : a.lineNormal b = (a.cross b).scale 2 := by
      refine (if_neg fun h0 => ?_).trans (cross_twice a b)
      rw [beq_zero_iff, cross_twice] at h0
      exact scale_ne_zero hcross two_ne_zero h0
    rw [hn]
    exact (isNormal_cross hcross).scale two_pos

end Vec3

end SphereIndex
