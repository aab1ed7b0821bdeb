import Mathlib.Tactic.NormNum
import SphereIndex.Proofs.Arc.Chord

/-!
# The part of a line in a square

A directed line runs in the square from the exit of the line in the opposite direction to its own
exit, and nowhere else.
-/

namespace SphereIndex.Line

open Planar

/-! ## 1. Points of a line -/

/-- The line with a normal, in the plane of a face. -/
def OnLine (n : Vec3 ℝ) (p : Vec2 ℝ) : Prop := n.x * p.x + n.y * p.y + n.z = 0

/-- The square of a face, with its sides. -/
def InSquare (p : Vec2 ℝ) : Prop := |p.x| ≤ 1 ∧ |p.y| ≤ 1

/-- The point reached from `p` in the direction of the line. -/
def ahead (n : Vec3 ℝ) (p : Vec2 ℝ) (t : ℝ) : Vec2 ℝ :=
  ⟨p.x + t * (direction n).x, p.y + t * (direction n).y⟩

/-- The component of the normal by which the exit through a side across an axis is divided. -/
def divisor (n : Vec3 ℝ) : Axis → ℝ
  | .u => n.y
  | .v => n.x

variable {n : Vec3 ℝ} {p q e : Vec2 ℝ} {axis : Axis} {t : ℝ}

theorem onLine_neg_iff : OnLine (-n) p ↔ OnLine n p := by
  unfold OnLine
  rw [Vec3.neg_x, Vec3.neg_y, Vec3.neg_z]
  constructor <;> intro h <;> linarith

theorem ahead_along (n : Vec3 ℝ) (p : Vec2 ℝ) (t : ℝ) (axis : Axis) :
    (ahead n p t).along axis = p.along axis + t * (direction n).along axis := by
  cases axis <;> rfl

theorem ahead_neg (n : Vec3 ℝ) (p : Vec2 ℝ) (t : ℝ) : ahead (-n) p (-t) = ahead n p t := by
  unfold ahead direction
  rw [Vec3.neg_x, Vec3.neg_y, neg_mul_neg, neg_mul_neg]

theorem ahead_ahead (n : Vec3 ℝ) (p : Vec2 ℝ) (s t : ℝ) :
    ahead n (ahead n p s) t = ahead n p (s + t) := by
  unfold ahead
  rw [add_assoc, ← add_mul, add_assoc, ← add_mul]

/-- From one point of a line every other one is reached along the line. -/
theorem exists_ahead (hn : n.x ≠ 0 ∨ n.y ≠ 0) (hp : OnLine n p) (hq : OnLine n q) :
    ∃ t, q = ahead n p t := by
  have hpos : 0 < n.x * n.x + n.y * n.y := by
    rcases hn with hx | hy
    · exact add_pos_of_pos_of_nonneg (mul_self_pos.2 hx) (mul_self_nonneg _)
    · exact add_pos_of_nonneg_of_pos (mul_self_nonneg _) (mul_self_pos.2 hy)
  unfold OnLine at hp hq
  refine ⟨((q.x - p.x) * n.y - (q.y - p.y) * n.x) / (n.x * n.x + n.y * n.y), ?_⟩
  refine (Vec2.mk.injEq ..).mpr ⟨?_, ?_⟩
  · rw [direction, ← sub_eq_iff_eq_add', div_mul_eq_mul_div, eq_div_iff hpos.ne']
    linear_combination n.x * (hq - hp)
  · rw [direction, ← sub_eq_iff_eq_add', div_mul_eq_mul_div, eq_div_iff hpos.ne']
    linear_combination n.y * (hq - hp)

theorem inSquare_pointAt (hp : InSquare p) (hq : InSquare q) (h0 : 0 ≤ t) (h1 : t ≤ 1) :
    InSquare (pointAt p q t) := by
  have hlinear (x y : ℝ) (hx : |x| ≤ 1) (hy : |y| ≤ 1) : |linear x y t| ≤ 1 := by
    rw [abs_le] at hx hy ⊢
    unfold linear
    constructor <;> nlinarith
  exact ⟨hlinear _ _ hp.1 hq.1, hlinear _ _ hp.2 hq.2⟩

theorem onLine_pointAt (hp : OnLine n p) (hq : OnLine n q) : OnLine n (pointAt p q t) := by
  unfold OnLine at hp hq ⊢
  simp only [pointAt, linear]
  linear_combination (1 - t) * hp + t * hq

theorem meets_of_onLine (hn : n ≠ .zero) (hline : OnLine n p) (hp : InSquare p) : MeetsSquare n := by
  have hdot : n.dot ⟨p.x, p.y, 1⟩ = 0 := by
    rw [Vec3.dot_eq, mul_one]
    exact hline
  have hover : Vec3.Over 1 ⟨p.x, p.y, 1⟩ := ⟨one_pos, by simpa using hp.1, by simpa using hp.2⟩
  have hmeets := (meetsSquare_of_over hn hdot hover one_pos).1
  rwa [Arc.scaledNormal_one] at hmeets

/-- **The exit of a line that meets the square** is a point of it there. -/
theorem isExit_of_meets (hn : n ≠ .zero) (h : MeetsSquare n) : IsExit n (exitAxis n) (exit n) := by
  have hscaled : MeetsSquare (Arc.scaledNormal n 1) := by rwa [Arc.scaledNormal_one]
  exact isExit h (ne_zero_of_meets hscaled hn)

/-! ## 2. The exit -/

namespace IsExit

theorem inSquare (h : IsExit n axis e) : InSquare e := h.abs_le

theorem divisor_ne_zero (h : IsExit n axis e) : divisor n axis ≠ 0 := by
  have hforward := right_ne_zero_of_mul h.forward.ne'
  cases axis with
  | u => exact hforward
  | v => exact neg_ne_zero.1 hforward

theorem ne_zero (h : IsExit n axis e) : n.x ≠ 0 ∨ n.y ≠ 0 := by
  have hdivisor := h.divisor_ne_zero
  cases axis with
  | u => exact .inr hdivisor
  | v => exact .inl hdivisor

/-- **Beyond the exit** the line is outside the square. -/
theorem not_inSquare_ahead (h : IsExit n axis e) (ht : 0 < t) : ¬InSquare (ahead n e t) := by
  intro hin
  have hin : |(ahead n e t).along axis| ≤ 1 := by
    cases axis with
    | u => exact hin.1
    | v => exact hin.2
  -- Outwards from the side, the coordinate is larger than 1.
  have houtward : e.along axis * (ahead n e t).along axis =
      1 + t * (e.along axis * (direction n).along axis) := by
    rw [ahead_along]
    linear_combination h.along_mul_self
  have hle := le_abs_self (e.along axis * (ahead n e t).along axis)
  rw [abs_mul, h.abs_along, one_mul, houtward] at hle
  have := mul_pos ht h.forward
  linarith

theorem nonpos_of_ahead (h : IsExit n axis e) (hin : InSquare (ahead n e t)) : t ≤ 0 := by
  by_contra ht
  exact h.not_inSquare_ahead (not_le.1 ht) hin

/-- **Between the exits in both directions** lies exactly the part of the line in the square. -/
theorem onSegment_iff {axis' : Axis} {e' : Vec2 ℝ} (h : IsExit n axis e)
    (h' : IsExit (-n) axis' e') : OnLine n p ∧ InSquare p ↔ OnSegment e' e p := by
  have hline' : OnLine n e' := onLine_neg_iff.1 h'.onLine
  have hnonneg {s : ℝ} (hin : InSquare (ahead n e' s)) : 0 ≤ s := by
    rw [← ahead_neg] at hin
    exact neg_nonpos.1 (h'.nonpos_of_ahead hin)
  constructor
  · rintro ⟨hline, hin⟩
    obtain ⟨l, rfl⟩ := exists_ahead h.ne_zero hline' h.onLine
    obtain ⟨s, rfl⟩ := exists_ahead h.ne_zero hline' hline
    have hs := hnonneg hin
    have hsl : s ≤ l := by
      rw [← add_sub_cancel l s, ← ahead_ahead] at hin
      exact sub_nonpos.1 (h.nonpos_of_ahead hin)
    rcases hs.eq_or_lt with rfl | hpos
    · exact ⟨0, le_rfl, zero_le_one, by simp [pointAt, ahead]⟩
    · have hl := hpos.trans_le hsl
      refine ⟨s / l, div_nonneg hs hl.le, (div_le_one hl).2 hsl, ?_⟩
      have hcoord (x d : ℝ) : x + s * d = linear x (x + l * d) (s / l) := by
        rw [linear, add_sub_cancel_left, ← mul_assoc, div_mul_cancel₀ _ hl.ne']
      exact (Vec2.mk.injEq ..).mpr ⟨hcoord _ _, hcoord _ _⟩
  · rintro ⟨x, h0, h1, rfl⟩
    exact ⟨onLine_pointAt hline' h.onLine, inSquare_pointAt h'.inSquare h.inSquare h0 h1⟩

end IsExit

/-- **The exit is where the directed line leaves the square.**  A line is found to meet the square if
and only if it has a point there.  Then its exit is computed without dividing by zero, and is a point
of the line on a side of the square across the chosen axis, from which the line goes on outside the
square; and the part of the line in the square is what lies between its exit and that of the line in
the opposite direction. -/
theorem exit_leaves_square {n : Vec3 ℝ} (hn : n ≠ .zero) :
    (MeetsSquare n ↔ ∃ p, OnLine n p ∧ InSquare p) ∧
    (MeetsSquare n →
      let axis := exitAxis n
      let e := exitPoint n axis
      divisor n axis ≠ 0 ∧ (OnLine n e ∧ InSquare e ∧ |e.along axis| = 1) ∧
      (∀ t, 0 < t → ¬InSquare (ahead n e t)) ∧
      ∀ p, OnLine n p ∧ InSquare p ↔ OnSegment (exitPoint (-n) (exitAxis (-n))) e p) := by
  refine ⟨⟨fun h => ?_, ?_⟩, fun h => ?_⟩
  · have hexit := isExit_of_meets hn h
    exact ⟨_, hexit.onLine, hexit.inSquare⟩
  · rintro ⟨p, hline, hin⟩
    exact meets_of_onLine hn hline hin
  · have hexit := isExit_of_meets hn h
    have hback := isExit_of_meets (Vec3.neg_ne_zero hn) (meetsSquare_neg h)
    exact ⟨hexit.divisor_ne_zero, ⟨hexit.onLine, hexit.inSquare, hexit.abs_along⟩,
      fun t ht => hexit.not_inSquare_ahead ht, fun p => hexit.onSegment_iff hback⟩

/-- A line that touches the square in a corner leaves it there. -/
theorem exit_leaves_square_at_corner :
    (⟨1, 1, -2⟩ : Vec3 ℝ) ≠ .zero ∧ MeetsSquare (⟨1, 1, -2⟩ : Vec3 ℝ) ∧
    exit (⟨1, 1, -2⟩ : Vec3 ℝ) = ⟨1, 1⟩ := by
  have hne : (⟨1, 1, -2⟩ : Vec3 ℝ) ≠ .zero := fun h => one_ne_zero (congrArg Vec3.x h)
  obtain ⟨hiff, hexit⟩ := exit_leaves_square hne
  have hmeets : MeetsSquare (⟨1, 1, -2⟩ : Vec3 ℝ) :=
    hiff.2 ⟨⟨1, 1⟩, by norm_num [OnLine], by norm_num [InSquare]⟩
  have hcorner (e : Vec2 ℝ) (hline : OnLine ⟨1, 1, -2⟩ e) (hin : InSquare e) : e = ⟨1, 1⟩ := by
    have hx := (abs_le.1 hin.1).2
    have hy := (abs_le.1 hin.2).2
    have hsum : 1 * e.x + 1 * e.y + -2 = 0 := hline
    exact (Vec2.mk.injEq ..).mpr ⟨by linarith, by linarith⟩
  obtain ⟨-, ⟨hline, hin, -⟩, -⟩ := hexit hmeets
  exact ⟨hne, hmeets, hcorner _ hline hin⟩

end SphereIndex.Line
