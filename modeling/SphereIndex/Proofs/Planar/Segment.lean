import SphereIndex.Proofs.Planar.Part

/-!
# Clipping and splitting a segment

The bound that is carried along with a segment AB stays the bounding box of a part of AB when it is
clipped to a rectangle or split at a value of one coordinate.
-/

namespace SphereIndex.Planar

/-! ## 1. Points of the plane -/

/-- The point of the line AB at parameter `t`. -/
def pointAt (a b : Vec2 ℝ) (t : ℝ) : Vec2 ℝ := ⟨linear a.x b.x t, linear a.y b.y t⟩

/-- The bounding box of the part of AB between two parameters. -/
noncomputable def partBound (a b : Vec2 ℝ) (s t : ℝ) : Rect ℝ :=
  ⟨span a.x b.x s t, span a.y b.y s t⟩

/-- **The points of the segment AB.** -/
def OnSegment (a b p : Vec2 ℝ) : Prop := ∃ t, 0 ≤ t ∧ t ≤ 1 ∧ p = pointAt a b t

theorem ofPair_eq_partBound (a b : Vec2 ℝ) : Rect.ofPair a b = partBound a b 0 1 := by
  unfold partBound span Rect.ofPair
  simp only [linear_zero, linear_one]

theorem pairedEnd_lo_eq_diagonal (a b : Vec2 ℝ) : pairedEnd a.x b.x a.y b.y .lo = diagonal a b := by
  change _ = if decide (b.x < a.x) = decide (b.y < a.y) then End.lo else .hi
  unfold pairedEnd firstEnd
  by_cases hx : b.x < a.x <;> by_cases hy : b.y < a.y <;> simp [hx, hy, End.other]

theorem pairedEnd_swap (p q p' q' : ℝ) : pairedEnd p q p' q' .lo = pairedEnd p' q' p q .lo := by
  unfold pairedEnd
  cases firstEnd p q <;> cases firstEnd p' q' <;> rfl

/-- **Clipping the box of a part of AB by a rectangle** gives the box of the part of it in the
rectangle, and nothing if no point of the part lies there. -/
theorem clipBound?_cut (a b : Vec2 ℝ) (clip : Rect ℝ) {s t : ℝ} (hst : s ≤ t) :
    ∃ r, Cut (fun x => clip.Contains (pointAt a b x)) s t r ∧
      clipBound? a b clip (partBound a b s t) = r.map fun (s', t') => partBound a b s' t' := by
  obtain ⟨r, hr, h⟩ :=
    clipAxis?_cut a.x b.x a.y b.y hst clip.x
  unfold clipBound? clipBoundBy?
  simp only [partBound, ← pairedEnd_lo_eq_diagonal, h]
  cases r with
  | none => exact ⟨none, hr.and_nowhere, rfl⟩
  | some r =>
    obtain ⟨s', t'⟩ := r
    have hst' : s' ≤ t' := by
      obtain _ | ⟨-, hst', -, -⟩ := hr
      exact hst'
    -- The second clip starts from the part that the first one left.
    obtain ⟨r', hr', h'⟩ :=
      clipAxis?_cut a.y b.y a.x b.x hst' clip.y
    refine ⟨r', hr.and hr', ?_⟩
    rw [pairedEnd_swap a.x]
    simp only [Option.map_some, Option.bind_eq_bind, Option.bind_some, h']
    cases r' <;> rfl

/-! ## 2. Splitting -/

/-- A value inside those of a part cuts it in two.  In the values of the other coordinate, the two
parts meet at its value there. -/
theorem span_split (p q p' q' : ℝ) {s t x : ℝ} (hst : s ≤ t) (hlo : (span p q s t).lo < x)
    (hhi : x ≤ (span p q s t).hi) :
    ∃ s₁ t₁ s₂ t₂, Cut (fun y => linear p q y ≤ x) s t (some (s₁, t₁)) ∧
      Cut (fun y => x ≤ linear p q y) s t (some (s₂, t₂)) ∧
      ∃ y, (span p' q' s t).clamp (interpolate x p q p' q') = y ∧
        (span p q s t).set .hi x = span p q s₁ t₁ ∧
        (span p' q' s t).set (pairedEnd p q p' q' .lo).other y = span p' q' s₁ t₁ ∧
        (span p q s t).set .lo x = span p q s₂ t₂ ∧
        (span p' q' s t).set (pairedEnd p q p' q' .lo) y = span p' q' s₂ t₂ := by
  rcases lt_trichotomy p q with hpq | rfl | hpq
  · -- The part below comes first.  Clamping changes nothing, since the crossing lies on the part.
    have hval := linear_crossing hpq.ne x
    rw [span_of_le hpq.le hst] at hlo hhi
    have hs := (le_crossing_iff hpq s x).2 hlo.le
    have ht := (crossing_le_iff hpq t x).2 hhi
    have hfirst : firstEnd p q = .lo := if_neg hpq.not_gt
    have hacross := span_contains (p := p') (q := q') hs ht
    rw [interpolate_eq hpq.ne, Interval.clamp, Scalar.min_real, Scalar.max_real,
      min_eq_right hacross.2, max_eq_right hacross.1, pairedEnd, if_pos hfirst.symm]
    refine ⟨s, crossing p q x, crossing p q x, t, .between le_rfl hs ht fun y h1 h2 => ?_,
      .between hs ht le_rfl fun y h1 h2 => ?_, _, rfl, ?_, set_firstEnd_other hs ht, ?_,
      set_firstEnd hs ht⟩
    · rw [le_crossing_iff hpq, and_iff_right h1]
    · rw [crossing_le_iff hpq, and_iff_left h2]
    · rw [← set_firstEnd_other hs ht, hfirst, hval]
      rfl
    · rw [← set_firstEnd hs ht, hfirst, hval]
  · -- No value lies strictly inside those of a constant function.
    rw [span_of_le le_rfl hst] at hlo hhi
    simp only [linear, sub_self, mul_zero] at hlo hhi
    exact absurd hhi (not_le.2 hlo)
  · -- The part above comes first.
    have hval := linear_crossing hpq.ne' x
    rw [span_of_ge hpq.le hst] at hlo hhi
    have hs := (le_crossing_iff_of_lt hpq s x).2 hhi
    have ht := (crossing_le_iff_of_lt hpq t x).2 hlo.le
    have hfirst : firstEnd p q = .hi := if_pos hpq
    have hacross := span_contains (p := p') (q := q') hs ht
    rw [interpolate_eq hpq.ne', Interval.clamp, Scalar.min_real, Scalar.max_real,
      min_eq_right hacross.2, max_eq_right hacross.1, pairedEnd,
      if_neg (by rw [hfirst]; decide), End.other_other]
    refine ⟨crossing p q x, t, s, crossing p q x, .between hs ht le_rfl fun y h1 h2 => ?_,
      .between le_rfl hs ht fun y h1 h2 => ?_, _, rfl, ?_, set_firstEnd hs ht, ?_,
      set_firstEnd_other hs ht⟩
    · rw [crossing_le_iff_of_lt hpq, and_iff_left h2]
    · rw [le_crossing_iff_of_lt hpq, and_iff_right h1]
    · rw [← set_firstEnd hs ht, hfirst, hval]
    · rw [← set_firstEnd_other hs ht, hfirst, hval]
      rfl

theorem linear_along (a b : Vec2 ℝ) (axis : Axis) (t : ℝ) :
    linear (a.along axis) (b.along axis) t = (pointAt a b t).along axis := by
  cases axis <;> rfl

theorem partBound_along (a b : Vec2 ℝ) (s t : ℝ) (axis : Axis) :
    (partBound a b s t).along axis = span (a.along axis) (b.along axis) s t := by
  cases axis <;> rfl

theorem diagonal_eq_pairedEnd (a b : Vec2 ℝ) (axis : Axis) :
    diagonal a b = pairedEnd (a.along axis) (b.along axis) (a.along axis.other)
      (b.along axis.other) .lo := by
  cases axis with
  | u => exact (pairedEnd_lo_eq_diagonal a b).symm
  | v => exact (pairedEnd_lo_eq_diagonal a b).symm.trans (pairedEnd_swap _ _ _ _)

theorem set_eq_partBound {a b : Vec2 ℝ} {r : Rect ℝ} {axis : Axis} {e e' : End} {x y s t : ℝ}
    (h : (r.along axis).set e x = span (a.along axis) (b.along axis) s t)
    (h' : (r.along axis.other).set e' y = span (a.along axis.other) (b.along axis.other) s t) :
    (r.set axis e x).set axis.other e' y = partBound a b s t := by
  cases axis with
  | u => exact (Rect.mk.injEq ..).mpr ⟨h, h'⟩
  | v => exact (Rect.mk.injEq ..).mpr ⟨h', h⟩

/-- **Splitting the box of a part of AB** at a coordinate inside it gives the boxes of the parts on
either side. -/
theorem splitBy_cut (a b : Vec2 ℝ) {s t : ℝ} (hst : s ≤ t) (axis : Axis) {x : ℝ}
    (hlo : ((partBound a b s t).along axis).lo < x)
    (hhi : x ≤ ((partBound a b s t).along axis).hi) :
    ∃ s₁ t₁ s₂ t₂, Cut (fun y => (pointAt a b y).along axis ≤ x) s t (some (s₁, t₁)) ∧
      Cut (fun y => x ≤ (pointAt a b y).along axis) s t (some (s₂, t₂)) ∧
      splitBy interpolate a b (partBound a b s t) axis x =
        (partBound a b s₁ t₁, partBound a b s₂ t₂) := by
  rw [partBound_along] at hlo hhi
  obtain ⟨s₁, t₁, s₂, t₂, hlower, hupper, y, hy, h1, h2, h3, h4⟩ :=
    span_split (a.along axis) (b.along axis) (a.along axis.other) (b.along axis.other) hst hlo hhi
  simp only [linear_along] at hlower hupper
  refine ⟨s₁, t₁, s₂, t₂, hlower, hupper, ?_⟩
  rw [← partBound_along] at h1 h2 h3 h4 hy
  unfold splitBy
  rw [diagonal_eq_pairedEnd a b axis]
  simp only [hy]
  rw [set_eq_partBound h1 h2, set_eq_partBound h3 h4]

end SphereIndex.Planar
