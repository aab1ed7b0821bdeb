import Mathlib.Tactic.NormNum
import SphereIndex.Arc.FaceClip
import SphereIndex.Proofs.Face.Cone

/-!
# Lines in exact arithmetic

The exit of a line from a square is the last of its points there.
-/

namespace SphereIndex

open Planar

/-! ## 1. The exit of a line -/

namespace Line

def direction (n : Vec3 ℝ) : Vec2 ℝ := ⟨n.y, -n.x⟩

/-- **The last point of the line in the square**: it lies on the line and on a side across `axis`
towards which the line runs. -/
structure IsExit (n : Vec3 ℝ) (axis : Axis) (e : Vec2 ℝ) : Prop where
  onLine : n.x * e.x + n.y * e.y + n.z = 0
  abs_along : |e.along axis| = 1
  abs_across : |e.along axis.other| ≤ 1
  forward : 0 < e.along axis * (direction n).along axis

variable {n : Vec3 ℝ}

theorem IsExit.abs_le {axis : Axis} {e : Vec2 ℝ} (h : IsExit n axis e) : |e.x| ≤ 1 ∧ |e.y| ≤ 1 := by
  cases axis with
  | u => exact ⟨h.abs_along.le, h.abs_across⟩
  | v => exact ⟨h.abs_across, h.abs_along.le⟩

theorem IsExit.along_mul_self {axis : Axis} {e : Vec2 ℝ} (h : IsExit n axis e) :
    e.along axis * e.along axis = 1 := by
  rw [← abs_mul_abs_self, h.abs_along, one_mul]

theorem meetsSquare_iff : MeetsSquare n ↔ |n.z| ≤ |n.x| + |n.y| := by
  change |n.z| - |n.x| ≤ |n.y| ∧ |n.z| - |n.y| ≤ |n.x| ↔ _
  constructor
  · rintro ⟨h, -⟩
    linarith
  · intro h
    constructor <;> linarith

theorem meetsSquare_neg (h : MeetsSquare n) : MeetsSquare (-n) := by
  rw [meetsSquare_iff, Vec3.neg_x, Vec3.neg_y, Vec3.neg_z, abs_neg, abs_neg, abs_neg]
  exact meetsSquare_iff.1 h

theorem crossesOpposite_iff : CrossesOpposite n ↔ |n.z| ≤ abs (|n.x| - |n.y|) := by
  have hdef : CrossesOpposite n ↔
      if (!decide (abs (|n.x| - |n.y|) = |n.z|)) = true then |n.z| ≤ abs (|n.x| - |n.y|)
      else if |n.y| ≤ |n.x| then |n.y| ≤ |n.x| - |n.z| else |n.x| ≤ |n.y| - |n.z| := Iff.rfl
  rw [hdef]
  split_ifs with hne hle
  · rfl
  · have heq : abs (|n.x| - |n.y|) = |n.z| := by simpa using hne
    rw [abs_of_nonneg (sub_nonneg.2 hle)] at heq ⊢
    constructor <;> intro _ <;> linarith
  · have heq : abs (|n.x| - |n.y|) = |n.z| := by simpa using hne
    rw [abs_of_neg (sub_neg.2 (not_le.1 hle))] at heq ⊢
    constructor <;> intro _ <;> linarith

theorem isExit_u (hy : n.y ≠ 0) (h : |(if 0 < n.y then 1 else -1) * n.x + n.z| ≤ |n.y|) :
    IsExit n .u (exitPoint n .u) := by
  have hdef : exitPoint n .u = ⟨if 0 < n.y then 1 else -1,
      (-(if 0 < n.y then 1 else -1) * n.x - n.z) / n.y⟩ := rfl
  have hdiv := div_mul_cancel₀ (-(if 0 < n.y then (1 : ℝ) else -1) * n.x - n.z) hy
  rw [hdef]
  refine ⟨?_, ?_, ?_, ?_⟩
  · linear_combination hdiv
  · show |if 0 < n.y then (1 : ℝ) else -1| = 1
    split_ifs <;> simp
  · show |(-(if 0 < n.y then (1 : ℝ) else -1) * n.x - n.z) / n.y| ≤ 1
    rw [abs_div, div_le_one (abs_pos.2 hy), ← abs_neg]
    refine le_of_eq_of_le (congrArg _ ?_) h
    ring
  · show 0 < (if 0 < n.y then (1 : ℝ) else -1) * n.y
    split_ifs with hpos
    · rwa [one_mul]
    · have := lt_of_le_of_ne (not_lt.1 hpos) hy
      linarith

theorem isExit_v (hx : n.x ≠ 0) (h : |(if n.x < 0 then 1 else -1) * n.y + n.z| ≤ |n.x|) :
    IsExit n .v (exitPoint n .v) := by
  have hdef : exitPoint n .v = ⟨(-(if n.x < 0 then 1 else -1) * n.y - n.z) / n.x,
      if n.x < 0 then 1 else -1⟩ := rfl
  have hdiv := div_mul_cancel₀ (-(if n.x < 0 then (1 : ℝ) else -1) * n.y - n.z) hx
  rw [hdef]
  refine ⟨?_, ?_, ?_, ?_⟩
  · linear_combination hdiv
  · show |if n.x < 0 then (1 : ℝ) else -1| = 1
    split_ifs <;> simp
  · show |(-(if n.x < 0 then (1 : ℝ) else -1) * n.y - n.z) / n.x| ≤ 1
    rw [abs_div, div_le_one (abs_pos.2 hx), ← abs_neg]
    refine le_of_eq_of_le (congrArg _ ?_) h
    ring
  · show 0 < (if n.x < 0 then (1 : ℝ) else -1) * -n.x
    split_ifs with hneg
    · linarith
    · have := lt_of_le_of_ne (not_lt.1 hneg) hx.symm
      linarith

theorem abs_sign_mul (c : Prop) [Decidable c] (x : ℝ) : |(if c then 1 else -1) * x| = |x| := by
  split_ifs
  · rw [one_mul]
  · rw [neg_one_mul, abs_neg]

theorem abs_add_le_of_opposite {s t r : ℝ} (h : s * t ≤ 0) (h1 : |s| - |t| ≤ r)
    (h2 : |t| - |s| ≤ r) : |s + t| ≤ r := by
  have hst : s * t = -(|s| * |t|) := by rw [← abs_mul, abs_of_nonpos h, neg_neg]
  have hsq : (s + t) ^ 2 = (|s| - |t|) ^ 2 := by
    linear_combination 2 * hst - sq_abs s - sq_abs t
  rw [(sq_eq_sq_iff_abs_eq_abs _ _).1 hsq, abs_le]
  constructor <;> linarith

/-- Whether the number of negative factors is odd tells the sign of a product. -/
theorem sign_product (x y : ℝ) :
    if (decide (x < 0) ^^ decide (y < 0)) = true then x * y ≤ 0 else 0 ≤ x * y := by
  rcases lt_or_ge x 0 with hx | hx
  · rcases lt_or_ge y 0 with hy | hy
    · simp only [hx, hy, decide_true, Bool.xor_self, Bool.false_eq_true, if_false]
      exact (mul_pos_of_neg_of_neg hx hy).le
    · simp only [hx, hy.not_gt, decide_true, decide_false, Bool.xor_false, if_true]
      exact mul_nonpos_of_nonpos_of_nonneg hx.le hy
  · rcases lt_or_ge y 0 with hy | hy
    · simp only [hx.not_gt, hy, decide_true, decide_false, Bool.false_xor, if_true]
      exact mul_nonpos_of_nonneg_of_nonpos hx hy.le
    · simp only [hx.not_gt, hy.not_gt, decide_false, Bool.xor_self, Bool.false_eq_true, if_false]
      exact mul_nonneg hx hy

theorem sign_product₃ (x y z : ℝ) :
    if (decide (x < 0) ^^ decide (y < 0) ^^ decide (z < 0)) = true then x * y * z ≤ 0
    else 0 ≤ x * y * z := by
  have hxy := sign_product x y
  cases hodd : decide (x < 0) ^^ decide (y < 0) with
  | true =>
    rw [hodd, if_pos rfl] at hxy
    rcases lt_or_ge z 0 with hz | hz
    · simp only [hz, decide_true, Bool.xor_self, Bool.false_eq_true, if_false]
      exact mul_nonneg_of_nonpos_of_nonpos hxy hz.le
    · simp only [hz.not_gt, decide_false, Bool.xor_false, if_true]
      exact mul_nonpos_of_nonpos_of_nonneg hxy hz
  | false =>
    rw [hodd, if_neg Bool.false_ne_true] at hxy
    rcases lt_or_ge z 0 with hz | hz
    · simp only [hz, decide_true, Bool.false_xor, if_true]
      exact mul_nonpos_of_nonneg_of_nonpos hxy hz.le
    · simp only [hz.not_gt, decide_false, Bool.xor_self, Bool.false_eq_true, if_false]
      exact mul_nonneg hxy hz

/-- **The computed exit** is the last point of the line in the square. -/
theorem isExit (h : MeetsSquare n) (hne : n.x ≠ 0 ∨ n.y ≠ 0) : IsExit n (exitAxis n) (exit n) := by
  have hmeets := meetsSquare_iff.1 h
  have haxis : exitAxis n = if CrossesOpposite n then (if |n.y| ≤ |n.x| then .v else .u)
      else if (decide (n.x < 0) ^^ decide (n.y < 0) ^^ decide (n.z < 0)) = true then .u
      else .v := rfl
  unfold exit
  rw [haxis]
  split_ifs with hopp hle hodd
  · -- Through two opposite sides, the larger component of the normal leaves room on the axis.
    rw [crossesOpposite_iff, abs_of_nonneg (sub_nonneg.2 hle)] at hopp
    refine isExit_v (fun hx => ?_) ?_
    · rw [hx, abs_zero, abs_nonpos_iff] at hle
      exact hne.elim (fun hne => hne hx) (fun hne => hne hle)
    · have habs := abs_add_le ((if n.x < 0 then 1 else -1) * n.y) n.z
      rw [abs_sign_mul] at habs
      linarith
  · have hlt := not_le.1 hle
    rw [crossesOpposite_iff, abs_of_neg (sub_neg.2 hlt)] at hopp
    refine isExit_u (abs_pos.1 ((abs_nonneg _).trans_lt hlt)) ?_
    have habs := abs_add_le ((if 0 < n.y then 1 else -1) * n.x) n.z
    rw [abs_sign_mul] at habs
    linarith
  · -- The line cuts off a corner, and the signs tell which one.
    rw [crossesOpposite_iff, not_le, abs_lt] at hopp
    have hsign := sign_product₃ n.x n.y n.z
    rw [hodd, if_pos rfl] at hsign
    have hy : n.y ≠ 0 := by
      intro hy
      rw [hy, abs_zero] at hopp hmeets
      linarith
    refine isExit_u hy (abs_add_le_of_opposite ?_ ?_ ?_)
    · split_ifs with hpos
      · nlinarith
      · have hneg := lt_of_le_of_ne (not_lt.1 hpos) hy
        nlinarith
    · rw [abs_sign_mul]
      linarith
    · rw [abs_sign_mul]
      linarith
  · -- The other two corners.
    rw [crossesOpposite_iff, not_le, abs_lt] at hopp
    have hsign := sign_product₃ n.x n.y n.z
    rw [if_neg hodd] at hsign
    have hx : n.x ≠ 0 := by
      intro hx
      rw [hx, abs_zero] at hopp hmeets
      linarith
    refine isExit_v hx (abs_add_le_of_opposite ?_ ?_ ?_)
    · split_ifs with hneg
      · nlinarith
      · have hpos := lt_of_le_of_ne (not_lt.1 hneg) hx.symm
        nlinarith
    · rw [abs_sign_mul]
      linarith
    · rw [abs_sign_mul]
      linarith

/-! ## 2. The far end of a line over a square -/

/-- The point at height 1 where the line leaves the square of half side `s`. -/
noncomputable def farEnd (n : Vec3 ℝ) (s : ℝ) : Vec3 ℝ :=
  let e := exit (Arc.scaledNormal n s)
  ⟨s * e.x, s * e.y, 1⟩

variable {p : Vec3 ℝ} {s : ℝ}

theorem meetsSquare_of_over (hn : n ≠ .zero) (hp : n.dot p = 0) (hover : p.Over s) (hs : 0 < s) :
    MeetsSquare (Arc.scaledNormal n s) ∧ (n.x ≠ 0 ∨ n.y ≠ 0) := by
  rw [Vec3.dot_eq] at hp
  have hz := hover.pos
  constructor
  · rw [meetsSquare_iff]
    show |n.z| ≤ |s * n.x| + |s * n.y|
    have hline : n.z * p.z = -(n.x * p.x + n.y * p.y) := by linear_combination hp
    -- At the point the two other terms make up for `n.z`, and each is at most `s` times its part.
    have hle : |n.z| * p.z ≤ (|s * n.x| + |s * n.y|) * p.z := by
      rw [← abs_of_pos hz, ← abs_mul, hline, abs_neg, abs_of_pos hz, abs_mul, abs_mul,
        abs_of_pos hs]
      have hx := mul_le_mul_of_nonneg_left hover.x_le (abs_nonneg n.x)
      have hy := mul_le_mul_of_nonneg_left hover.y_le (abs_nonneg n.y)
      have habs := abs_add_le (n.x * p.x) (n.y * p.y)
      rw [abs_mul, abs_mul] at habs
      linarith
    exact le_of_mul_le_mul_right hle hz
  · by_contra hxy
    rw [not_or, not_not, not_not] at hxy
    rw [hxy.1, hxy.2, zero_mul, zero_mul, zero_add, zero_add] at hp
    exact hn (Vec3.ext_real hxy.1 hxy.2 ((mul_eq_zero.1 hp).resolve_right hz.ne'))

theorem ne_zero_of_meets (h : MeetsSquare (Arc.scaledNormal n s)) (hn : n ≠ .zero) :
    n.x ≠ 0 ∨ n.y ≠ 0 := by
  by_contra hxy
  rw [not_or, not_not, not_not] at hxy
  have hz : |n.z| ≤ |s * n.x| + |s * n.y| := meetsSquare_iff.1 h
  rw [hxy.1, hxy.2, mul_zero, abs_zero, add_zero] at hz
  exact hn (Vec3.ext_real hxy.1 hxy.2 (abs_nonpos_iff.1 hz))

theorem isExit_scaled (h : MeetsSquare (Arc.scaledNormal n s)) (hne : n.x ≠ 0 ∨ n.y ≠ 0)
    (hs : 0 < s) : IsExit (Arc.scaledNormal n s) (exitAxis (Arc.scaledNormal n s))
      (exit (Arc.scaledNormal n s)) :=
  isExit h (hne.imp (mul_ne_zero hs.ne') (mul_ne_zero hs.ne'))

theorem dot_farEnd (h : MeetsSquare (Arc.scaledNormal n s)) (hne : n.x ≠ 0 ∨ n.y ≠ 0)
    (hs : 0 < s) : n.dot (farEnd n s) = 0 := by
  have hline := (isExit_scaled h hne hs).onLine
  rw [Vec3.dot_eq]
  show n.x * (s * (exit (Arc.scaledNormal n s)).x) + n.y * (s * (exit (Arc.scaledNormal n s)).y) +
    n.z * 1 = 0
  change s * n.x * _ + s * n.y * _ + n.z = 0 at hline
  linear_combination hline

theorem over_farEnd (h : MeetsSquare (Arc.scaledNormal n s)) (hne : n.x ≠ 0 ∨ n.y ≠ 0)
    (hs : 0 < s) : (farEnd n s).Over s := by
  obtain ⟨hx, hy⟩ := (isExit_scaled h hne hs).abs_le
  have habs (x : ℝ) (hx : |x| ≤ 1) : |s * x| ≤ s * 1 := by
    rw [abs_mul, abs_of_pos hs]
    exact mul_le_mul_of_nonneg_left hx hs.le
  exact ⟨one_pos, habs _ hx, habs _ hy⟩

/-- **No point of the line over the square lies ahead of the far end.** -/
theorem turn_farEnd_nonneg (h : MeetsSquare (Arc.scaledNormal n s)) (hne : n.x ≠ 0 ∨ n.y ≠ 0)
    (hs : 0 < s) (hp : n.dot p = 0) (hover : p.Over s) : 0 ≤ Vec3.turn n p (farEnd n s) := by
  have hexit := isExit_scaled h hne hs
  have hcross := Vec3.cross_scale hp (dot_farEnd h hne hs)
  have hn := Vec3.lengthSquared_pos (a := n) fun hzero => by
    rw [hzero] at hne
    exact hne.elim (· rfl) (· rfl)
  unfold farEnd at hcross ⊢
  generalize exit (Arc.scaledNormal n s) = e at hexit hcross ⊢
  -- No point of the square lies beyond a side.
  have hside (x y : ℝ) (hy : |y| = 1) (hx : |x| ≤ s * p.z) : 0 ≤ s * p.z - x * y := by
    have hle := le_abs_self (x * y)
    rw [abs_mul, hy, mul_one] at hle
    linarith
  cases haxis : exitAxis (Arc.scaledNormal n s) with
  | u =>
    rw [haxis] at hexit
    have hforward : 0 < e.x * (s * n.y) := hexit.forward
    have hone : |e.x| = 1 := hexit.abs_along
    have hsq : e.x * e.x = 1 := hexit.along_mul_self
    have hcomp : (p.z * (s * e.x) - 1 * p.x) * n.lengthSquared =
      n.y * Vec3.turn n p ⟨s * e.x, s * e.y, 1⟩ := congrArg Vec3.y hcross
    have hnonneg := mul_nonneg (mul_nonneg (hside p.x e.x hone hover.x_le) hn.le) hs.le
    refine (mul_nonneg_iff_of_pos_left hforward).1 ?_
    linear_combination hnonneg + s * e.x * hcomp - s * s * p.z * n.lengthSquared * hsq
  | v =>
    rw [haxis] at hexit
    have hforward : 0 < e.y * -(s * n.x) := hexit.forward
    have hone : |e.y| = 1 := hexit.abs_along
    have hsq : e.y * e.y = 1 := hexit.along_mul_self
    have hcomp : (p.y * 1 - s * e.y * p.z) * n.lengthSquared =
      n.x * Vec3.turn n p ⟨s * e.x, s * e.y, 1⟩ := congrArg Vec3.x hcross
    have hnonneg := mul_nonneg (mul_nonneg (hside p.y e.y hone hover.y_le) hn.le) hs.le
    refine (mul_nonneg_iff_of_pos_left hforward).1 ?_
    linear_combination hnonneg - s * e.y * hcomp - s * s * p.z * n.lengthSquared * hsq

end Line

end SphereIndex
