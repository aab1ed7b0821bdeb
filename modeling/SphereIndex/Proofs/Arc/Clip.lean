import SphereIndex.Proofs.Arc.Line
import SphereIndex.Proofs.Arc.Normal

/-!
# The part of an edge on a face

Each end of an edge is clipped on its own: it stays where it is if it lies over the padded square,
and otherwise it is moved to where the line leaves the square.  If any point of the arc lies over the
square, this finds the first and the last of them.
-/

namespace SphereIndex

open Planar

namespace Arc

variable {a b n x q e : Vec3 ℝ} {s k padding : ℝ} {f : Face}

/-! ## 1. The last direction over a square -/

/-- **The last direction of an arc over a square**, where `n` is a normal of the arc from `a` to
`b`. -/
structure IsLast (n a b : Vec3 ℝ) (s : ℝ) (q : Vec3 ℝ) : Prop where
  onPlane : n.dot q = 0
  isOver : q.Over s
  ahead : 0 ≤ Vec3.turn n a q
  behind : 0 ≤ Vec3.turn n q b
  last : ∀ x, Vec3.Between a b x → x.Over s → 0 ≤ Vec3.turn n x q

/-- Over the square, a direction ahead of `p` and behind `q` projects between the two. -/
theorem onSegment_of_turn {p : Vec3 ℝ} (hn : n ≠ .zero) (hp : n.dot p = 0) (hx : n.dot x = 0)
    (hq : n.dot q = 0) (hpz : 0 < p.z) (hxz : 0 < x.z) (hqz : 0 < q.z)
    (hpx : 0 ≤ Vec3.turn n p x) (hxq : 0 ≤ Vec3.turn n x q) :
    OnSegment p.shadow q.shadow x.shadow := by
  have hcomb := Vec3.scale_turn hp hq hx
  have hz : x.z * Vec3.turn n p q = p.z * Vec3.turn n x q + q.z * Vec3.turn n p x :=
    congrArg Vec3.z hcomb
  rcases (add_nonneg hxq hpx).lt_or_eq with hpos | hzero
  · -- Compared by heights, the turn from `p` to `q` is positive.
    have hl : 0 < Vec3.turn n p q := by
      refine pos_of_mul_pos_right ?_ hxz.le
      rw [hz]
      rcases hxq.lt_or_eq with h | h
      · exact add_pos_of_pos_of_nonneg (mul_pos hpz h) (mul_nonneg hqz.le hpx)
      · rw [← h, zero_add] at hpos
        exact add_pos_of_nonneg_of_pos (mul_nonneg hpz.le hxq) (mul_pos hqz hpos)
    have hseg := Vec3.onSegment_shadow hpz hqz hxq hpx hpos
    rwa [← hcomb, Vec3.shadow_scale hl.ne'] at hseg
  · -- All three have the same direction.
    have hpx0 : Vec3.turn n p x = 0 := by linarith
    rw [Vec3.eq_scale_of_turn hn hp hx hpx0 hpz.ne', Vec3.shadow_scale (div_pos hxz hpz).ne']
    exact ⟨0, le_rfl, zero_le_one, by simp [pointAt]⟩

theorem isLast_end (hn : Vec3.IsNormal n a b) (hb : b.Over s) : IsLast n a b s b :=
  ⟨hn.right, hb, hn.turn_nonneg, (Vec3.turn_self n b).symm.le, fun _ hx _ => (hn.turn_between hx).2⟩

/-! ## 2. One end -/

theorem safeCoordinate_le_one : (safeCoordinate : ℝ) ≤ 1 := by
  have hdef : (safeCoordinate : ℝ) = 1 - 9 * Real.sqrt Scalar.half * Scalar.epsilon := rfl
  have hsqrt := Real.sqrt_nonneg (Scalar.half : ℝ)
  rw [hdef]
  have := mul_nonneg (mul_nonneg (show (0 : ℝ) ≤ 9 by norm_num) hsqrt) Scalar.epsilon_nonneg
  linarith

/-- An end that lies well inside the plain square lies over every larger one. -/
theorem over_of_safe (hz : 0 < b.z)
    (hsafe : Scalar.max |b.shadow.x| |b.shadow.y| ≤ safeCoordinate) (hs1 : 1 ≤ s) : b.Over s := by
  have hle : Max.max |b.shadow.x| |b.shadow.y| ≤ s := by
    rw [← Scalar.max_real]
    exact hsafe.trans (safeCoordinate_le_one.trans hs1)
  exact Vec3.over_of_shadow hz ((le_max_left _ _).trans hle) ((le_max_right _ _).trans hle)

/-- 2 if the direction `e` lies before the arc, and otherwise 1 if it lies beyond. -/
noncomputable def outside (a b aTangent bTangent e : Vec3 ℝ) : ℕ :=
  if (e - a).dot aTangent < 0 then 2 else if (e - b).dot bTangent < 0 then 1 else 0

theorem outside_eq {aTangent bTangent : Vec3 ℝ} (hk : 0 < k)
    (ha : (e - a).dot aTangent = Vec3.turn n a e * k)
    (hb : (e - b).dot bTangent = Vec3.turn n e b * k) :
    outside a b aTangent bTangent e =
      if Vec3.turn n a e < 0 then 2 else if Vec3.turn n e b < 0 then 1 else 0 := by
  have hsign (x : ℝ) : x * k < 0 ↔ x < 0 := by
    rw [← not_le, ← not_le, mul_nonneg_iff_of_pos_right hk]
  rw [outside, ha, hb, if_congr (hsign _) rfl (if_congr (hsign _) rfl rfl)]

theorem clipEnd_def (a b n aTangent bTangent : Vec3 ℝ) (s : ℝ) :
    clipEnd a b (scaledNormal n s) aTangent bTangent s =
      if 0 < b.z ∧ Scalar.max |b.shadow.x| |b.shadow.y| ≤ safeCoordinate then (b.shadow, 0)
      else if outside a b aTangent bTangent (Line.farEnd n s) = 0 then
        ((Line.farEnd n s).shadow, 0)
      else if b.z ≤ 0 then ((Line.farEnd n s).shadow, 3)
      else (b.shadow, outside a b aTangent bTangent (Line.farEnd n s)) := by
  have hshadow : (Line.farEnd n s).shadow =
      ⟨s * (Line.exit (scaledNormal n s)).x, s * (Line.exit (scaledNormal n s)).y⟩ :=
    (Vec2.mk.injEq ..).mpr ⟨div_one _, div_one _⟩
  rw [hshadow]
  rfl

section clipEnd
variable (hn : Vec3.IsNormal n a b) (hx : Vec3.Between a b x) (hover : x.Over s) (hs : 0 < s)
include hn hx hover hs

theorem meets_of_over : Line.MeetsSquare (scaledNormal n s) ∧ (n.x ≠ 0 ∨ n.y ≠ 0) :=
  Line.meetsSquare_of_over hn.ne_zero (hn.dot_between hx) hover hs

theorem turn_far_nonneg : 0 ≤ Vec3.turn n x (Line.farEnd n s) := by
  obtain ⟨hmeets, hne⟩ := meets_of_over hn hx hover hs
  exact Line.turn_farEnd_nonneg hmeets hne hs (hn.dot_between hx) hover

/-- If the exit lies before the start of the arc, the start lies on the other side of the face. -/
theorem start_nonpos_of_exit_before (hbefore : Vec3.turn n a (Line.farEnd n s) < 0) : a.z ≤ 0 := by
  obtain ⟨hmeets, hne⟩ := meets_of_over hn hx hover hs
  have hfar := turn_far_nonneg hn hx hover hs
  -- The heights of the three vectors in the identity, of which that of the far end is 1.
  have hcomb := Vec3.scale_turn hn.left (Line.dot_farEnd hmeets hne hs) (hn.dot_between hx)
  have hz : x.z * Vec3.turn n a (Line.farEnd n s) =
    a.z * Vec3.turn n x (Line.farEnd n s) + 1 * Vec3.turn n a x := congrArg Vec3.z hcomb
  by_contra hpos
  have := mul_neg_of_pos_of_neg hover.pos hbefore
  have := mul_nonneg (not_le.1 hpos).le hfar
  have := (hn.turn_between hx).1
  linarith

/-- If the exit does not lie on the arc, the end does lie over the square, not behind the exit. -/
theorem over_end (hoff : Vec3.turn n a (Line.farEnd n s) < 0 ∨
    Vec3.turn n (Line.farEnd n s) b < 0) : b.Over s ∧ 0 < Vec3.turn n b (Line.farEnd n s) := by
  obtain ⟨hmeets, hne⟩ := meets_of_over hn hx hover hs
  have hdot := Line.dot_farEnd hmeets hne hs
  have hfar := turn_far_nonneg hn hx hover hs
  have hahead : 0 < Vec3.turn n b (Line.farEnd n s) := by
    rcases hoff with hbefore | hbeyond
    · have ha := start_nonpos_of_exit_before hn hx hover hs hbefore
      have hz : b.z * Vec3.turn n a (Line.farEnd n s) =
        a.z * Vec3.turn n b (Line.farEnd n s) + 1 * Vec3.turn n a b :=
        congrArg Vec3.z (Vec3.scale_turn hn.left hdot hn.right)
      -- Since the arc reaches the face, its end lies on that side, unlike its start.
      have hb : 0 < b.z := by
        obtain ⟨α, β, hα, hβ, -, rfl⟩ := hx
        have hsum : 0 < a.z * α + b.z * β := hover.pos
        have := mul_nonpos_of_nonpos_of_nonneg ha hα
        exact pos_of_mul_pos_left (by linarith) hβ
      have hab : 0 < Vec3.turn n a b := by
        refine lt_of_le_of_ne hn.turn_nonneg fun hzero => ?_
        obtain ⟨k, hk, rfl⟩ := hn.parallel hzero.symm
        exact absurd hb (not_lt.2 (mul_nonpos_of_nonpos_of_nonneg ha hk.le))
      by_contra hneg
      have := mul_nonneg_of_nonpos_of_nonpos ha (not_lt.1 hneg)
      have := mul_neg_of_pos_of_neg hb hbefore
      linarith
    · rw [Vec3.turn_swap]
      linarith
  obtain ⟨α, β, hα, hβ, rfl⟩ := Face.exists_between (f := .zPos) hover.pos
    (Line.over_farEnd hmeets hne hs).pos (hn.dot_between hx) hdot hn.right hfar
    (hn.turn_between hx).2 hahead
  exact ⟨hover.combine (Line.over_farEnd hmeets hne hs) hα.le hβ
    (add_pos_of_pos_of_nonneg hα hβ), hahead⟩

/-- **Clipping one end** finds the last direction over the square.  A score above 0 means that this is
the end of the arc itself, and a score of 2 that the start is on the other side of the face. -/
theorem clipEnd_isLast (hs1 : 1 ≤ s) (hk : 0 < k) {aTangent bTangent : Vec3 ℝ}
    (ha : ∀ e, (e - a).dot aTangent = Vec3.turn n a e * k)
    (hb : ∀ e, (e - b).dot bTangent = Vec3.turn n e b * k) :
    ∃ q score, clipEnd a b (scaledNormal n s) aTangent bTangent s = (q.shadow, score) ∧
      IsLast n a b s q ∧ score ≤ 2 ∧ (score = 2 → a.z ≤ 0) ∧ (score ≠ 0 → 0 < b.z) := by
  obtain ⟨hmeets, hne⟩ := meets_of_over hn hx hover hs
  have houtside := outside_eq hk (ha (Line.farEnd n s)) (hb (Line.farEnd n s))
  have hoff (hne : outside a b aTangent bTangent (Line.farEnd n s) ≠ 0) :
      Vec3.turn n a (Line.farEnd n s) < 0 ∨ Vec3.turn n (Line.farEnd n s) b < 0 := by
    by_contra hon
    rw [not_or] at hon
    rw [houtside, if_neg hon.1, if_neg hon.2] at hne
    exact hne rfl
  rw [clipEnd_def]
  split_ifs with hsafe hzero hneg
  · -- The end is kept because it lies well inside.
    refine ⟨b, 0, rfl, isLast_end hn (over_of_safe hsafe.1 hsafe.2 hs1), Nat.zero_le _, ?_,
      fun _ => hsafe.1⟩
    exact fun h => absurd h (by decide)
  · -- The exit lies on the arc.
    refine ⟨Line.farEnd n s, 0, rfl, ?_, Nat.zero_le _, ?_, fun h => absurd rfl h⟩
    · have hon : ¬Vec3.turn n a (Line.farEnd n s) < 0 ∧ ¬Vec3.turn n (Line.farEnd n s) b < 0 := by
        rw [houtside] at hzero
        split_ifs at hzero with hbefore hbeyond
        exact ⟨hbefore, hbeyond⟩
      exact ⟨Line.dot_farEnd hmeets hne hs, Line.over_farEnd hmeets hne hs, not_lt.1 hon.1,
        not_lt.1 hon.2, fun x hx hover => turn_far_nonneg hn hx hover hs⟩
    · exact fun h => absurd h (by decide)
  · -- No score of 3: the arc reaches the square, so its end lies on the side of the face.
    exact absurd (over_end hn hx hover hs (hoff hzero)).1.pos (not_lt.2 hneg)
  · -- The exit lies beyond an end of the arc, and the end `b` is kept instead.
    refine ⟨b, _, rfl,
      isLast_end hn (over_end hn hx hover hs (hoff hzero)).1, ?_, fun htwo => ?_,
      fun _ => not_le.1 hneg⟩
    · rw [houtside]
      split_ifs <;> decide
    · rw [houtside] at htwo
      split_ifs at htwo with hbefore
      · exact start_nonpos_of_exit_before hn hx hover hs hbefore
      · exact absurd htwo (by decide)

end clipEnd

/-! ## 3. Both ends -/

theorem unitNormal_eq (hn : n ≠ .zero) : ∃ k, 0 < k ∧ unitNormal n = n.scale k := by
  unfold unitNormal
  split
  · have hpos : (0 : ℝ) < Scalar.ofNat (twoPow 563) := by
      rw [Scalar.ofNat_real]
      exact Nat.cast_pos.2 (twoPow_pos 563)
    obtain ⟨k, hk, heq⟩ := Vec3.normalize_eq (Vec3.scale_ne_zero hn hpos.ne')
    refine ⟨Scalar.ofNat (twoPow 563) * k, mul_pos hpos hk, ?_⟩
    rw [heq]
    ext <;> exact mul_assoc _ _ _
  · exact Vec3.normalize_eq hn

theorem scaledNormal_neg (n : Vec3 ℝ) (s : ℝ) : -scaledNormal n s = scaledNormal (-n) s := by
  ext
  · exact neg_mul_eq_mul_neg s n.x
  · exact neg_mul_eq_mul_neg s n.y
  · rfl

theorem isNormal_toFrame (h : Vec3.IsNormal n a b) (f : Face) :
    Vec3.IsNormal (f.toFrame n) (f.toFrame a) (f.toFrame b) := by
  refine ⟨f.toFrame_ne_zero h.ne_zero, (f.dot_toFrame n a).trans h.left,
    (f.dot_toFrame n b).trans h.right, ?_, ?_⟩
  · rw [f.turn_toFrame]
    exact h.turn_nonneg
  · rw [f.turn_toFrame]
    intro hzero
    obtain ⟨k, hk, rfl⟩ := h.parallel hzero
    exact ⟨k, hk, f.toFrame_scale a k⟩

theorem between_toFrame (h : Vec3.Between a b x) (f : Face) :
    Vec3.Between (f.toFrame a) (f.toFrame b) (f.toFrame x) := by
  obtain ⟨α, β, hα, hβ, hpos, rfl⟩ := h
  exact ⟨α, β, hα, hβ, hpos, f.toFrame_combine a b α β⟩

theorem between_of_toFrame (h : Vec3.Between (f.toFrame a) (f.toFrame b) (f.toFrame x)) :
    Vec3.Between a b x := by
  obtain ⟨α, β, hα, hβ, hpos, hx⟩ := h
  rw [← f.toFrame_combine] at hx
  exact ⟨α, β, hα, hβ, hpos, f.toFrame_injective hx⟩

theorem dot_tangent (n a : Vec3 ℝ) (k : ℝ) (e : Vec3 ℝ) :
    (e - a).dot ((n.scale k).cross a) = Vec3.turn n a e * k := by
  simp only [Vec3.dot_eq, Vec3.turn_eq, Vec3.cross_x, Vec3.cross_y, Vec3.cross_z, Vec3.sub_x,
    Vec3.sub_y, Vec3.sub_z, Vec3.scale_x, Vec3.scale_y, Vec3.scale_z]
  ring

theorem dot_tangent_last (n b : Vec3 ℝ) (k : ℝ) (e : Vec3 ℝ) :
    (e - b).dot (b.cross (n.scale k)) = Vec3.turn n e b * k := by
  simp only [Vec3.dot_eq, Vec3.turn_eq, Vec3.cross_x, Vec3.cross_y, Vec3.cross_z, Vec3.sub_x,
    Vec3.sub_y, Vec3.sub_z, Vec3.scale_x, Vec3.scale_y, Vec3.scale_z]
  ring

/-- **An edge is clipped to its part over the padded square**, from the first to the last direction
of the arc there. -/
theorem clipToFace?_eq (h : Vec3.IsArc a b) (hpad : 0 ≤ padding) (hx : Vec3.Between a b x)
    (hover : (f.toFrame x).Over (1 + padding)) :
    ∃ p q, clipToFace? f padding a b = some (p.shadow, q.shadow) ∧
      IsLast (-f.toFrame (a.lineNormal b)) (f.toFrame b) (f.toFrame a) (1 + padding) p ∧
      IsLast (f.toFrame (a.lineNormal b)) (f.toFrame a) (f.toFrame b) (1 + padding) q := by
  have hs : 1 ≤ 1 + padding := le_add_of_nonneg_right hpad
  have hs0 : 0 < 1 + padding := one_pos.trans_le hs
  have hn := isNormal_toFrame h.isNormal f
  have hbetween := between_toFrame hx f
  unfold clipToFace?
  by_cases hboth : Face.ofPoint a = f ∧ Face.ofPoint b = f
  · rw [if_pos hboth]
    have ha := Face.cone_ofPoint h.left
    have hb := Face.cone_ofPoint h.right
    rw [hboth.1] at ha
    rw [hboth.2] at hb
    exact ⟨_, _, rfl, isLast_end hn.reverse (Vec3.Over.mono ha hs),
      isLast_end hn (Vec3.Over.mono hb hs)⟩
  · rw [if_neg hboth]
    dsimp only
    obtain ⟨k, hk, hunit⟩ := unitNormal_eq hn.ne_zero
    rw [if_pos (meets_of_over hn hbetween hover hs0).1, hunit, scaledNormal_neg]
    have hfirst := dot_tangent (f.toFrame (a.lineNormal b)) (f.toFrame a) k
    have hlast := dot_tangent_last (f.toFrame (a.lineNormal b)) (f.toFrame b) k
    -- The first end is the last one of the arc from `b` to `a`, whose normal is the opposite one.
    obtain ⟨q, t, hqt, hq, ht2, hta, htb⟩ := clipEnd_isLast hn hbetween hover hs0 hs hk hfirst hlast
    simp only [← Vec3.turn_neg (f.toFrame (a.lineNormal b))] at hfirst hlast
    obtain ⟨p, s, hps, hp, hs2, hsb, hsa⟩ :=
      clipEnd_isLast hn.reverse hbetween.symm hover hs0 hs hk hlast hfirst
    refine ⟨p, q, ?_, hp, hq⟩
    rw [hqt, hps]
    -- A score of 2 for one end means that it is not on the side of the face, and then the other is.
    have hsum : s + t < 3 := by
      by_contra hlarge
      by_cases htwo : s = 2
      · exact absurd (hsb htwo) (not_le.2 (htb (by omega)))
      · exact absurd (hta (by omega)) (not_le.2 (hsa (by omega)))
    exact if_pos hsum

/-- **The clipped edge** ends in the padded square and passes through every point of the arc on the
face. -/
theorem exists_clipToFace? (h : Vec3.IsArc a b) (hpad : 0 ≤ padding) (hx : Vec3.Between a b x)
    (hcone : f.Cone x) : ∃ p q, clipToFace? f padding a b = some (p, q) ∧
      (|p.x| ≤ 1 + padding ∧ |p.y| ≤ 1 + padding) ∧ (|q.x| ≤ 1 + padding ∧ |q.y| ≤ 1 + padding) ∧
      OnSegment p q (f.project x) := by
  have hover := Vec3.Over.mono hcone (le_add_of_nonneg_right hpad)
  obtain ⟨p, q, hclip, hp, hq⟩ := clipToFace?_eq h hpad hx hover
  have hn := isNormal_toFrame h.isNormal f
  have hbetween := between_toFrame hx f
  refine ⟨_, _, hclip, hp.isOver.shadow_le, hq.isOver.shadow_le, ?_⟩
  have hpx := hp.last _ hbetween.symm hover
  have hdot : (f.toFrame (a.lineNormal b)).dot p = 0 := by
    have hzero := hp.onPlane
    rwa [Vec3.dot_neg_left, neg_eq_zero] at hzero
  rw [Vec3.turn_neg] at hpx
  exact onSegment_of_turn hn.ne_zero hdot (hn.dot_between hbetween) hq.onPlane hp.isOver.pos hover.pos
    hq.isOver.pos hpx (hq.last _ hbetween hover)

end Arc

end SphereIndex
