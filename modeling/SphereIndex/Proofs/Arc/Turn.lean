import Mathlib.Tactic.FieldSimp
import Mathlib.Tactic.Linarith
import Mathlib.Tactic.LinearCombination
import SphereIndex.Proofs.Exact

/-!
# Turning in a plane

For vectors in the plane with normal `n`, the number `turn n p q` is positive if `q` lies less than
half a turn ahead of `p`, and negative if it lies behind.  Everything about the order of points on an
arc is said with it, and follows from one identity: of three vectors in a plane, each is a
combination of the other two whose coefficients are turns.
-/

namespace SphereIndex

namespace Vec3

/-! ## 1. Components -/

variable (a b : Vec3 ℝ) (k : ℝ)

@[ext] theorem ext_real {a b : Vec3 ℝ} (hx : a.x = b.x) (hy : a.y = b.y) (hz : a.z = b.z) :
    a = b := by
  cases a
  cases b
  congr

@[simp] theorem add_x : (a + b).x = a.x + b.x := rfl
@[simp] theorem add_y : (a + b).y = a.y + b.y := rfl
@[simp] theorem add_z : (a + b).z = a.z + b.z := rfl
@[simp] theorem sub_x : (a - b).x = a.x - b.x := rfl
@[simp] theorem sub_y : (a - b).y = a.y - b.y := rfl
@[simp] theorem sub_z : (a - b).z = a.z - b.z := rfl
@[simp] theorem neg_x : (-a).x = -a.x := rfl
@[simp] theorem neg_y : (-a).y = -a.y := rfl
@[simp] theorem neg_z : (-a).z = -a.z := rfl
@[simp] theorem scale_x : (a.scale k).x = a.x * k := rfl
@[simp] theorem scale_y : (a.scale k).y = a.y * k := rfl
@[simp] theorem scale_z : (a.scale k).z = a.z * k := rfl
@[simp] theorem zero_x : (zero : Vec3 ℝ).x = 0 := rfl
@[simp] theorem zero_y : (zero : Vec3 ℝ).y = 0 := rfl
@[simp] theorem zero_z : (zero : Vec3 ℝ).z = 0 := rfl
@[simp] theorem cross_x : (a.cross b).x = a.y * b.z - b.y * a.z := rfl
@[simp] theorem cross_y : (a.cross b).y = a.z * b.x - b.z * a.x := rfl
@[simp] theorem cross_z : (a.cross b).z = a.x * b.y - b.x * a.y := rfl

theorem dot_eq : a.dot b = a.x * b.x + a.y * b.y + a.z * b.z := rfl

theorem lengthSquared_eq : a.lengthSquared = a.x * a.x + a.y * a.y + a.z * a.z := rfl

theorem lengthSquared_pos {a : Vec3 ℝ} (h : a ≠ zero) : 0 < a.lengthSquared := by
  rw [lengthSquared_eq]
  by_contra hle
  apply h
  ext
  · show a.x = 0
    nlinarith
  · show a.y = 0
    nlinarith
  · show a.z = 0
    nlinarith

theorem dot_cross_left (a b : Vec3 ℝ) : (a.cross b).dot a = 0 := by
  simp only [dot_eq, cross_x, cross_y, cross_z]
  ring

theorem dot_cross_right (a b : Vec3 ℝ) : (a.cross b).dot b = 0 := by
  simp only [dot_eq, cross_x, cross_y, cross_z]
  ring

theorem cross_self (a : Vec3 ℝ) : a.cross a = zero := by
  ext
  · exact sub_self _
  · exact sub_self _
  · exact sub_self _

theorem dot_scale_left (n v : Vec3 ℝ) (k : ℝ) : (n.scale k).dot v = n.dot v * k := by
  simp only [dot_eq, scale_x, scale_y, scale_z]
  ring

theorem dot_scale_right (n v : Vec3 ℝ) (k : ℝ) : n.dot (v.scale k) = n.dot v * k := by
  simp only [dot_eq, scale_x, scale_y, scale_z]
  ring

theorem dot_neg_left (n v : Vec3 ℝ) : (-n).dot v = -n.dot v := by
  simp only [dot_eq, neg_x, neg_y, neg_z]
  ring

theorem scale_inv {k : ℝ} (hk : k ≠ 0) (v : Vec3 ℝ) : (v.scale k).scale k⁻¹ = v := by
  ext <;> exact mul_inv_cancel_right₀ hk _

theorem scale_cancel {v w : Vec3 ℝ} {k : ℝ} (hk : k ≠ 0) (h : v.scale k = w.scale k) : v = w := by
  rw [← scale_inv hk v, h, scale_inv hk]

theorem scale_scale (v : Vec3 ℝ) (k l : ℝ) : (v.scale k).scale l = v.scale (k * l) := by
  ext <;> exact mul_assoc _ _ _

theorem zero_scale (k : ℝ) : (zero : Vec3 ℝ).scale k = zero := by
  ext <;> exact zero_mul k

theorem scale_ne_zero {v : Vec3 ℝ} (h : v ≠ zero) {k : ℝ} (hk : k ≠ 0) : v.scale k ≠ zero := by
  intro h0
  apply h
  apply scale_cancel hk
  rw [h0, zero_scale]

theorem neg_ne_zero {v : Vec3 ℝ} (h : v ≠ zero) : -v ≠ zero := by
  intro h0
  apply h
  ext
  · exact neg_eq_zero.1 (congrArg Vec3.x h0)
  · exact neg_eq_zero.1 (congrArg Vec3.y h0)
  · exact neg_eq_zero.1 (congrArg Vec3.z h0)

/-! ## 2. Turns -/

/-- **How far `q` lies ahead of `p`** when the plane is seen against its normal `n`. -/
noncomputable def turn (n p q : Vec3 ℝ) : ℝ := n.dot (p.cross q)

theorem turn_eq (n p q : Vec3 ℝ) : turn n p q = n.x * (p.y * q.z - q.y * p.z) +
    n.y * (p.z * q.x - q.z * p.x) + n.z * (p.x * q.y - q.x * p.y) := rfl

theorem turn_swap (n p q : Vec3 ℝ) : turn n q p = -turn n p q := by
  rw [turn_eq, turn_eq]
  ring

theorem turn_neg (n p q : Vec3 ℝ) : turn (-n) p q = turn n q p := by
  rw [turn_eq, turn_eq]
  simp only [neg_x, neg_y, neg_z]
  ring

theorem turn_self (n p : Vec3 ℝ) : turn n p p = 0 := by
  rw [turn_eq]
  ring

variable {n p q r : Vec3 ℝ}

/-- **Three vectors of a plane**: each is a combination of the others. -/
theorem scale_turn (hp : n.dot p = 0) (hq : n.dot q = 0) (hr : n.dot r = 0) :
    r.scale (turn n p q) = p.scale (turn n r q) + q.scale (turn n p r) := by
  rw [dot_eq] at hp hq hr
  ext
  · simp only [scale_x, add_x, turn_eq]
    linear_combination (q.y * r.z - q.z * r.y) * hp + (r.y * p.z - r.z * p.y) * hq +
      (p.y * q.z - p.z * q.y) * hr
  · simp only [scale_y, add_y, turn_eq]
    linear_combination (q.z * r.x - q.x * r.z) * hp + (r.z * p.x - r.x * p.z) * hq +
      (p.z * q.x - p.x * q.z) * hr
  · simp only [scale_z, add_z, turn_eq]
    linear_combination (q.x * r.y - q.y * r.x) * hp + (r.x * p.y - r.y * p.x) * hq +
      (p.x * q.y - p.y * q.x) * hr

theorem cross_scale (hp : n.dot p = 0) (hq : n.dot q = 0) :
    (p.cross q).scale n.lengthSquared = n.scale (turn n p q) := by
  rw [dot_eq] at hp hq
  rw [lengthSquared_eq, turn_eq]
  ext
  · simp only [scale_x, cross_x]
    linear_combination (q.z * n.y - q.y * n.z) * hp + (p.y * n.z - p.z * n.y) * hq
  · simp only [scale_y, cross_y]
    linear_combination (q.x * n.z - q.z * n.x) * hp + (p.z * n.x - p.x * n.z) * hq
  · simp only [scale_z, cross_z]
    linear_combination (q.y * n.x - q.x * n.y) * hp + (p.x * n.y - p.y * n.x) * hq

theorem cross_eq_zero (hn : n ≠ zero) (hp : n.dot p = 0) (hq : n.dot q = 0) (h : turn n p q = 0) :
    p.cross q = zero := by
  apply scale_cancel (lengthSquared_pos hn).ne'
  rw [cross_scale hp hq, h, zero_scale]
  ext <;> exact mul_zero _

/-- A direction neither ahead of `p` nor behind it is a multiple of `p`. -/
theorem eq_scale_of_turn (hn : n ≠ zero) (hp : n.dot p = 0) (hq : n.dot q = 0)
    (h : turn n p q = 0) (hz : p.z ≠ 0) : q = p.scale (q.z / p.z) := by
  have hcross := cross_eq_zero hn hp hq h
  have hx : p.y * q.z - q.y * p.z = 0 := congrArg Vec3.x hcross
  have hy : p.z * q.x - q.z * p.x = 0 := congrArg Vec3.y hcross
  ext
  · rw [scale_x, mul_div_assoc', eq_div_iff hz]
    linear_combination hy
  · rw [scale_y, mul_div_assoc', eq_div_iff hz]
    linear_combination -hx
  · exact (mul_div_cancel₀ q.z hz).symm

theorem turn_combine_left (n p q r : Vec3 ℝ) (s t : ℝ) :
    turn n (p.scale s + q.scale t) r = turn n p r * s + turn n q r * t := by
  simp only [turn_eq, add_x, add_y, add_z, scale_x, scale_y, scale_z]
  ring

theorem turn_combine_right (n p q r : Vec3 ℝ) (s t : ℝ) :
    turn n r (p.scale s + q.scale t) = turn n r p * s + turn n r q * t := by
  simp only [turn_eq, add_x, add_y, add_z, scale_x, scale_y, scale_z]
  ring

theorem turn_scale_right (n p q : Vec3 ℝ) (k : ℝ) : turn n p (q.scale k) = turn n p q * k := by
  simp only [turn_eq, scale_x, scale_y, scale_z]
  ring

theorem turn_scale_scale (n p : Vec3 ℝ) (k l : ℝ) : turn n (p.scale k) (p.scale l) = 0 := by
  rw [turn_scale_right, turn_swap, turn_scale_right, turn_self, zero_mul, neg_zero, zero_mul]

theorem turn_scale_normal (n p q : Vec3 ℝ) (k : ℝ) : turn (n.scale k) p q = turn n p q * k := by
  simp only [turn_eq, scale_x, scale_y, scale_z]
  ring

theorem dot_combine (n p q : Vec3 ℝ) (s t : ℝ) :
    n.dot (p.scale s + q.scale t) = n.dot p * s + n.dot q * t := by
  simp only [dot_eq, add_x, add_y, add_z, scale_x, scale_y, scale_z]
  ring

/-! ## 3. Arcs -/

/-- The directions from `p` to `q`: sums of non-negative multiples of the two, at any length. -/
def Between (p q x : Vec3 ℝ) : Prop :=
  ∃ s t, 0 ≤ s ∧ 0 ≤ t ∧ 0 < s + t ∧ x = p.scale s + q.scale t

theorem between_left (p q : Vec3 ℝ) : Between p q p :=
  ⟨1, 0, zero_le_one, le_rfl, by rw [add_zero]; exact one_pos, by ext <;> simp⟩

theorem Between.symm {x : Vec3 ℝ} (h : Between p q x) : Between q p x := by
  obtain ⟨s, t, hs, ht, hst, rfl⟩ := h
  refine ⟨t, s, ht, hs, by linarith, ?_⟩
  ext <;> simp only [add_x, add_y, add_z] <;> ring

theorem Between.scale {x : Vec3 ℝ} {k : ℝ} (h : Between p q x) (hk : 0 < k) :
    Between p q (x.scale k) := by
  obtain ⟨s, t, hs, ht, hst, rfl⟩ := h
  refine ⟨s * k, t * k, mul_nonneg hs hk.le, mul_nonneg ht hk.le, ?_, ?_⟩
  · rw [← add_mul]
    exact mul_pos hst hk
  · ext <;> simp only [add_x, add_y, add_z, scale_x, scale_y, scale_z] <;> ring

theorem Between.scale_left {x : Vec3 ℝ} {k : ℝ} (h : Between p q x) (hk : 0 < k) :
    Between (p.scale k) q x := by
  obtain ⟨s, t, hs, ht, hst, rfl⟩ := h
  have hsk := div_mul_cancel₀ s hk.ne'
  refine ⟨s / k, t, div_nonneg hs hk.le, ht, ?_, ?_⟩
  · rcases hs.lt_or_eq with hs | rfl
    · exact add_pos_of_pos_of_nonneg (div_pos hs hk) ht
    · rwa [zero_div]
  · have hcoord (y z : ℝ) : y * s + z * t = y * k * (s / k) + z * t := by
      linear_combination (-y) * hsk
    ext
    · exact hcoord p.x q.x
    · exact hcoord p.y q.y
    · exact hcoord p.z q.z

theorem combine_pos {α β x y : ℝ} (hx : 0 < x) (hy : 0 < y) (hα : 0 ≤ α) (hβ : 0 ≤ β)
    (hpos : 0 < α + β) : 0 < x * α + y * β := by
  rcases hα.lt_or_eq with h | h
  · have := mul_pos hx h
    have := mul_nonneg hy.le hβ
    linarith
  · have := mul_pos hy (show 0 < β by linarith)
    have := mul_nonneg hx.le hα
    linarith

/-- **A direction ahead of `p` and behind `q` lies between the two**, if `q` lies ahead of `p`. -/
theorem between_of_turn {x : Vec3 ℝ} (hp : n.dot p = 0) (hq : n.dot q = 0) (hx : n.dot x = 0)
    (hpos : 0 < turn n p q) (hpx : 0 ≤ turn n p x) (hxq : 0 ≤ turn n x q) (hne : x ≠ zero) :
    Between p q x := by
  have hcomb := scale_turn hp hq hx
  -- Were both turns zero, `x` would be.
  have hsum : 0 < turn n x q + turn n p x := by
    refine lt_of_le_of_ne (add_nonneg hxq hpx) fun hzero => hne ?_
    apply scale_cancel hpos.ne'
    rw [hcomb, show turn n x q = 0 by linarith, show turn n p x = 0 by linarith, zero_scale]
    ext <;> simp
  have hbetween : Between p q (x.scale (turn n p q)) := ⟨_, _, hxq, hpx, hsum, hcomb⟩
  have hscale := hbetween.scale (inv_pos.2 hpos)
  rwa [scale_inv hpos.ne'] at hscale

/-- **A normal of the arc from `p` to `q`**: seen against it, `q` lies ahead of `p`, unless both have
the same direction. -/
structure IsNormal (n p q : Vec3 ℝ) : Prop where
  ne_zero : n ≠ zero
  left : n.dot p = 0
  right : n.dot q = 0
  turn_nonneg : 0 ≤ turn n p q
  parallel : turn n p q = 0 → ∃ k, 0 < k ∧ q = p.scale k

namespace IsNormal

variable {x : Vec3 ℝ} {k : ℝ}

theorem reverse (h : IsNormal n p q) : IsNormal (-n) q p := by
  refine ⟨neg_ne_zero h.ne_zero, ?_, ?_, ?_, ?_⟩
  · rw [dot_neg_left, h.right, neg_zero]
  · rw [dot_neg_left, h.left, neg_zero]
  · rw [turn_neg]
    exact h.turn_nonneg
  · rw [turn_neg]
    intro h0
    obtain ⟨k, hk, rfl⟩ := h.parallel h0
    exact ⟨k⁻¹, inv_pos.2 hk, (scale_inv hk.ne' p).symm⟩

theorem scale (h : IsNormal n p q) (hk : 0 < k) : IsNormal (n.scale k) p q := by
  refine ⟨scale_ne_zero h.ne_zero hk.ne', ?_, ?_, ?_, ?_⟩
  · rw [dot_scale_left, h.left, zero_mul]
  · rw [dot_scale_left, h.right, zero_mul]
  · rw [turn_scale_normal]
    exact mul_nonneg h.turn_nonneg hk.le
  · rw [turn_scale_normal]
    intro h0
    exact h.parallel ((mul_eq_zero.1 h0).resolve_right hk.ne')

theorem dot_between (h : IsNormal n p q) (hx : Between p q x) : n.dot x = 0 := by
  obtain ⟨s, t, -, -, -, rfl⟩ := hx
  rw [dot_combine, h.left, h.right, zero_mul, zero_mul, add_zero]

theorem turn_between (h : IsNormal n p q) (hx : Between p q x) :
    0 ≤ turn n p x ∧ 0 ≤ turn n x q := by
  obtain ⟨s, t, hs, ht, -, rfl⟩ := hx
  rw [turn_combine_right, turn_combine_left, turn_self, turn_self, zero_mul, zero_mul, zero_add,
    add_zero]
  exact ⟨mul_nonneg h.turn_nonneg ht, mul_nonneg h.turn_nonneg hs⟩

/-- A normal of an arc is one of each part of it from its start. -/
theorem start (h : IsNormal n p q) (hx : Between p q x) : IsNormal n p x := by
  refine ⟨h.ne_zero, h.left, h.dot_between hx, (h.turn_between hx).1, fun hzero => ?_⟩
  obtain ⟨s, t, hs, ht, hst, rfl⟩ := hx
  rw [turn_combine_right, turn_self, zero_mul, zero_add, mul_eq_zero] at hzero
  rcases hzero with hpar | rfl
  · obtain ⟨k, hk, rfl⟩ := h.parallel hpar
    refine ⟨s + k * t, ?_, ?_⟩
    · have hpos := combine_pos one_pos hk hs ht hst
      rwa [one_mul] at hpos
    · ext <;> simp only [add_x, add_y, add_z, scale_x, scale_y, scale_z] <;> ring
  · rw [add_zero] at hst
    refine ⟨s, hst, ?_⟩
    ext <;> simp only [add_x, add_y, add_z, scale_x, scale_y, scale_z, mul_zero, add_zero]

/-- A direction ahead of the start and behind the end lies on the arc.  If the ends have the same
direction, it has to be on the same side. -/
theorem between (h : IsNormal n p q) (hx : n.dot x = 0) (hpx : 0 ≤ turn n p x)
    (hxq : 0 ≤ turn n x q) (hxz : 0 < x.z) (hside : turn n p q = 0 → 0 < p.z) : Between p q x := by
  rcases h.turn_nonneg.lt_or_eq with hpos | hzero
  · refine between_of_turn h.left h.right hx hpos hpx hxq fun hzero => ?_
    rw [hzero] at hxz
    exact lt_irrefl _ hxz
  · obtain ⟨k, hk, rfl⟩ := h.parallel hzero.symm
    rw [turn_scale_right, turn_swap] at hxq
    have hpx0 : turn n p x = 0 :=
      le_antisymm (neg_nonneg.1 (nonneg_of_mul_nonneg_left hxq hk)) hpx
    have hpz := hside hzero.symm
    refine ⟨x.z / p.z, 0, (div_pos hxz hpz).le, le_rfl, ?_, ?_⟩
    · rw [add_zero]
      exact div_pos hxz hpz
    · have heq := eq_scale_of_turn h.ne_zero h.left hx hpx0 hpz.ne'
      ext
      · exact (congrArg Vec3.x heq).trans (by simp)
      · exact (congrArg Vec3.y heq).trans (by simp)
      · exact (congrArg Vec3.z heq).trans (by simp)

end IsNormal

end Vec3

end SphereIndex
