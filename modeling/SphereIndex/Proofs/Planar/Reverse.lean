import SphereIndex.Proofs.Planar.Segment

/-!
# Reversed segments

The segment BA has the points of AB in the other order, so a part of one is a part of the other.
Splitting is written for one direction: the slope decides which ends of a bound go together, and the
crossing is interpolated from the closer end.  But the parts are determined by the points on either side
of the line, and so both directions give the same bounds.
-/

namespace SphereIndex

theorem Interval.ofPair_comm (x y : ℝ) : ofPair x y = ofPair y x := by
  change (if x ≤ y then (⟨x, y⟩ : Interval ℝ) else ⟨y, x⟩) = if y ≤ x then ⟨y, x⟩ else ⟨x, y⟩
  rcases lt_trichotomy x y with h | rfl | h
  · rw [if_pos h.le, if_neg (not_le.2 h)]
  · rfl
  · rw [if_neg (not_le.2 h), if_pos h.le]

theorem Rect.ofPair_comm (a b : Vec2 ℝ) : ofPair a b = ofPair b a :=
  congrArg₂ Rect.mk (Interval.ofPair_comm _ _) (Interval.ofPair_comm _ _)

namespace Planar

variable {P : ℝ → Prop} {s s₁ s₂ t t₁ t₂ : ℝ} {a b : Vec2 ℝ} {bound : Rect ℝ}

/-! ## 1. Parameters -/

theorem linear_reverse (p q t : ℝ) : linear q p (1 - t) = linear p q t := by
  unfold linear
  ring

theorem span_reverse (p q s t : ℝ) : span q p (1 - t) (1 - s) = span p q s t := by
  rw [span, linear_reverse, linear_reverse, Interval.ofPair_comm]
  rfl

theorem pointAt_reverse (a b : Vec2 ℝ) (t : ℝ) : pointAt b a (1 - t) = pointAt a b t := by
  rw [pointAt, linear_reverse, linear_reverse]
  rfl

theorem partBound_reverse (a b : Vec2 ℝ) (s t : ℝ) :
    partBound b a (1 - t) (1 - s) = partBound a b s t := by
  rw [partBound, span_reverse, span_reverse]
  rfl

namespace Cut

/-- What is cut out, counted from the other end. -/
theorem reverse (h : Cut P s t (some (s₁, t₁))) :
    Cut (fun x => P (1 - x)) (1 - t) (1 - s) (some (1 - t₁, 1 - s₁)) := by
  obtain _ | ⟨hs, hst, ht, hiff⟩ := h
  refine between (by linarith) (by linarith) (by linarith) fun x h1 h2 => ?_
  rw [hiff (1 - x) (by linarith) (by linarith), and_comm]
  exact and_congr ⟨fun h => by linarith, fun h => by linarith⟩
    ⟨fun h => by linarith, fun h => by linarith⟩

/-- Of two parts that a condition cuts out, each lies within the other. -/
theorem within (h₁ : Cut P s t (some (s₁, t₁))) (h₂ : Cut P s t (some (s₂, t₂))) :
    s₂ ≤ s₁ ∧ t₁ ≤ t₂ := by
  obtain _ | ⟨hs, hst, ht, hiff₁⟩ := h₁
  obtain _ | ⟨-, -, -, hiff₂⟩ := h₂
  have hfirst := (hiff₁ s₁ hs (hst.trans ht)).2 ⟨le_rfl, hst⟩
  have hlast := (hiff₁ t₁ (hs.trans hst) ht).2 ⟨hst, le_rfl⟩
  exact ⟨((hiff₂ s₁ hs (hst.trans ht)).1 hfirst).1, ((hiff₂ t₁ (hs.trans hst) ht).1 hlast).2⟩

/-- **A condition cuts out one part only.** -/
theorem unique (h₁ : Cut P s t (some (s₁, t₁))) (h₂ : Cut P s t (some (s₂, t₂))) :
    s₁ = s₂ ∧ t₁ = t₂ := by
  obtain ⟨hs₁, ht₁⟩ := h₁.within h₂
  obtain ⟨hs₂, ht₂⟩ := h₂.within h₁
  exact ⟨le_antisymm hs₂ hs₁, le_antisymm ht₁ ht₂⟩

end Cut

/-! ## 2. Parts -/

/-- **The bound is that of a part of AB.** -/
def IsPart (a b : Vec2 ℝ) (bound : Rect ℝ) : Prop := ∃ s t, s ≤ t ∧ bound = partBound a b s t

theorem isPart_ofPair (a b : Vec2 ℝ) : IsPart a b (Rect.ofPair a b) :=
  ⟨0, 1, zero_le_one, ofPair_eq_partBound a b⟩

theorem IsPart.reverse (h : IsPart a b bound) : IsPart b a bound := by
  obtain ⟨s, t, hst, rfl⟩ := h
  exact ⟨1 - t, 1 - s, sub_le_sub_left hst 1, (partBound_reverse a b s t).symm⟩

/-- **Splitting gives the same bounds in both directions.** -/
theorem splitBy_reverse (h : IsPart a b bound) (axis : Axis) {x : ℝ}
    (hlo : (bound.along axis).lo < x) (hhi : x ≤ (bound.along axis).hi) :
    splitBy interpolate b a bound axis x = splitBy interpolate a b bound axis x := by
  obtain ⟨s, t, hst, rfl⟩ := h
  obtain ⟨s₁, t₁, s₂, t₂, hlower, hupper, heq⟩ := splitBy_cut a b hst axis hlo hhi
  rw [heq]
  rw [← partBound_reverse a b] at hlo hhi ⊢
  obtain ⟨s₃, t₃, s₄, t₄, hlower', hupper', heq'⟩ :=
    splitBy_cut b a (sub_le_sub_left hst 1) axis hlo hhi
  -- Both directions cut out the points on one side of the line, and then those on the other.
  simp only [← pointAt_reverse b a] at hlower' hupper'
  obtain ⟨rfl, rfl⟩ := hlower'.unique hlower.reverse
  obtain ⟨rfl, rfl⟩ := hupper'.unique hupper.reverse
  rw [heq', partBound_reverse, partBound_reverse]

end Planar

end SphereIndex
