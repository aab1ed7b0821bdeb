import SphereIndex.Planar.Segment
import SphereIndex.Proofs.Ordered

/-!
# Bounds under rounding

Wherever the crossing of a segment and a line is computed to lie, it is clamped to the bound before
it becomes an end of the bounds of the two parts.  So these are parts of the bound, and not empty.
-/

namespace SphereIndex

open Scalar

variable {α : Type}

theorem Axis.eq_or_eq_other (a b : Axis) : a = b ∨ a = b.other := by
  cases a <;> cases b <;> decide

@[simp] theorem Rect.along_set_set (r : Rect α) (axis : Axis) (e e' : End) (x y : α) :
    ((r.set axis e x).set axis.other e' y).along axis = (r.along axis).set e x := by
  cases axis <;> rfl

variable [Scalar α]

/-! ## 1. Intervals -/

namespace Interval

/-- Whether an interval is a non-empty part of another one. -/
structure Narrows (b a : Interval α) : Prop where
  lo_le : a.lo ≤ b.lo
  le : b.lo ≤ b.hi
  le_hi : b.hi ≤ a.hi

variable {a b c : Interval α} {x : α}

theorem Narrows.includes (h : b.Narrows a) : a.Includes b := .inr ⟨h.lo_le, h.le_hi⟩

variable [Ordered α]

theorem Narrows.refl (h : a.lo ≤ a.hi) : a.Narrows a :=
  ⟨(Ordered.isNumber_of_le h).1, h, (Ordered.isNumber_of_le h).2⟩

theorem Narrows.self (h : b.Narrows a) : b.Narrows b := .refl h.le

theorem Narrows.trans (h : c.Narrows b) (h' : b.Narrows a) : c.Narrows a :=
  ⟨Ordered.le_trans h'.lo_le h.lo_le, h.le, Ordered.le_trans h.le_hi h'.le_hi⟩

theorem Narrows.not_isEmpty (h : b.Narrows a) : ¬b.IsEmpty := fun hlt => (Ordered.lt_iff.1 hlt).2 h.le

/-- What meets a part meets the whole. -/
theorem Narrows.meets_of_meets (h : b.Narrows a) (hc : c.Meets b) : c.Meets a := by
  unfold Meets at hc ⊢
  by_cases hb : c.lo ≤ b.lo
  · rw [if_pos hb] at hc
    split
    · exact ⟨Ordered.le_trans h.lo_le hc.1,
        Ordered.le_trans (Ordered.le_trans h.lo_le h.le) h.le_hi⟩
    · exact ⟨Ordered.le_trans (Ordered.le_trans hb h.le) h.le_hi, Ordered.le_trans hb hc.1⟩
  · rw [if_neg hb] at hc
    have ha : ¬c.lo ≤ a.lo := fun hle => hb (Ordered.le_trans hle h.lo_le)
    rw [if_neg ha]
    exact ⟨Ordered.le_trans hc.1 h.le_hi, hc.2⟩

theorem Narrows.set (e : End) (hx : a.Contains x) : (a.set e x).Narrows a := by
  have hlo := Ordered.isNumber_of_le hx.1
  have hhi := Ordered.isNumber_of_le hx.2
  cases e with
  | lo => exact ⟨hx.1, hx.2, hhi.2⟩
  | hi => exact ⟨hlo.1, hx.1, hx.2⟩

/-- **A clamped value lies in the interval**, also if it was not a number. -/
theorem contains_clamp (h : a.lo ≤ a.hi) (x : α) : a.Contains (a.clamp x) := by
  obtain ⟨hlo, hhi⟩ := Ordered.isNumber_of_le h
  exact ⟨Ordered.le_max_left hlo, Ordered.max_le h (Ordered.min_le_left hhi)⟩

theorem ofPair_inOrder {x y : α} (hx : IsNumber x) (hy : IsNumber y) :
    (ofPair x y).lo ≤ (ofPair x y).hi := by
  unfold ofPair
  split
  · assumption
  · rename_i h
    exact (Ordered.le_total hx hy).resolve_left h

/-- Values of a pair are different if a value lies strictly above one end of their interval. -/
theorem beq_eq_false_of_lt_le {x y z : α} (hlo : (ofPair x y).lo < z) (hhi : z ≤ (ofPair x y).hi) :
    (x == y) = false := by
  rw [← Bool.not_eq_true, Ordered.beq_iff]
  rintro ⟨hxy, hyx⟩
  -- Were they equal, the low end would be as high as the high end.
  have hle : (ofPair x y).hi ≤ (ofPair x y).lo := by
    rw [ofPair, if_pos hxy]
    exact hyx
  exact (Ordered.lt_iff.1 hlo).2 (Ordered.le_trans hhi hle)

end Interval

/-! ## 2. Rectangles -/

namespace Rect

/-- Whether a rectangle is a non-empty part of another one. -/
def Narrows (s r : Rect α) : Prop := ∀ axis, (s.along axis).Narrows (r.along axis)

variable {r s t : Rect α} {axis : Axis} {e e' : End} {x y : α}

theorem Narrows.includes (h : s.Narrows r) : r.Includes s := ⟨(h .u).includes, (h .v).includes⟩

theorem ofPair_along (p q : Vec2 α) (axis : Axis) :
    (ofPair p q).along axis = .ofPair (p.along axis) (q.along axis) := by
  cases axis <;> rfl

variable [Ordered α]

theorem Narrows.self (h : s.Narrows r) : s.Narrows s := fun axis => (h axis).self

theorem Narrows.trans (h : t.Narrows s) (h' : s.Narrows r) : t.Narrows r :=
  fun axis => (h axis).trans (h' axis)

theorem Narrows.not_isEmpty (h : s.Narrows r) : ¬s.IsEmpty := by
  rintro (hx | hy)
  · exact (h .u).not_isEmpty hx
  · exact (h .v).not_isEmpty hy

theorem Narrows.meets_of_meets (h : s.Narrows r) (ht : t.Meets s) : t.Meets r :=
  ⟨(h .u).meets_of_meets ht.1, (h .v).meets_of_meets ht.2⟩

theorem Narrows.set_set (hx : (r.along axis).Contains x) (hy : (r.along axis.other).Contains y) :
    ((r.set axis e x).set axis.other e' y).Narrows r := by
  intro axis'
  rcases axis'.eq_or_eq_other axis with rfl | rfl
  · rw [along_set_set]
    exact .set e hx
  · rw [along_set_self, along_set_other]
    exact .set e' hy

theorem ofPair_narrows {p q : Vec2 α} (hp : ∀ axis, IsNumber (p.along axis))
    (hq : ∀ axis, IsNumber (q.along axis)) : (ofPair p q).Narrows (ofPair p q) := by
  intro axis
  rw [ofPair_along]
  exact .refl (Interval.ofPair_inOrder (hp axis) (hq axis))

end Rect

/-! ## 3. Splitting -/

namespace Planar

variable (rule : Interpolation α) (a b : Vec2 α) {bound : Rect α} {axis : Axis} {x : α}

theorem splitBy_along (bound : Rect α) (axis : Axis) (x : α) :
    (splitBy rule a b bound axis x).1.along axis = (bound.along axis).set .hi x ∧
      (splitBy rule a b bound axis x).2.along axis = (bound.along axis).set .lo x :=
  ⟨Rect.along_set_set _ _ _ _ _ _, Rect.along_set_set _ _ _ _ _ _⟩

variable [Ordered α]

/-- **Where a bound is split** across the axis is a value of the bound, whatever the rule gives. -/
theorem exists_splitBy_eq (axis : Axis) (x : α) (h : bound.Narrows bound) :
    ∃ y, (bound.along axis.other).Contains y ∧ splitBy rule a b bound axis x =
      ((bound.set axis .hi x).set axis.other (diagonal a b).other y,
        (bound.set axis .lo x).set axis.other (diagonal a b) y) :=
  ⟨_, Interval.contains_clamp (h axis.other).le _, rfl⟩

theorem splitBy_narrows (h : bound.Narrows bound) (hx : (bound.along axis).Contains x) :
    (splitBy rule a b bound axis x).1.Narrows bound ∧
      (splitBy rule a b bound axis x).2.Narrows bound := by
  obtain ⟨y, hy, heq⟩ := exists_splitBy_eq rule a b axis x h
  rw [heq]
  exact ⟨.set_set hx hy, .set_set hx hy⟩

end Planar

end SphereIndex
