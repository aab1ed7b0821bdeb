import SphereIndex.Proofs.DoubleSign
import SphereIndex.Proofs.Planar.Clip

/-!
# Rectangles as sets of points

What the operations on intervals and rectangles mean for their points, wherever numbers are ordered.
An interval is known from its values, however it stands for none.  A rectangle is not known from its
points: if it is empty along one axis, it has no points, but inclusion and union still see the
interval along the other axis.  The two statements on them say exactly when that shows.
-/

namespace SphereIndex

open Scalar

variable {α : Type} [Scalar α]

/-! ## 1. The values of intervals -/

namespace Interval

variable [Ordered α] {a b c : Interval α} {x : α}

theorem Contains.not_isEmpty (h : a.Contains x) : ¬a.IsEmpty :=
  fun hlt => (Ordered.lt_iff.1 hlt).2 (Ordered.le_trans h.1 h.2)

theorem IsNumber.contains_lo (ha : a.IsNumber) (h : ¬a.IsEmpty) : a.Contains a.lo :=
  ⟨ha .lo, (Ordered.not_lt (ha .hi) (ha .lo)).1 h⟩

theorem IsNumber.contains_hi (ha : a.IsNumber) (h : ¬a.IsEmpty) : a.Contains a.hi :=
  ⟨(Ordered.not_lt (ha .hi) (ha .lo)).1 h, ha .hi⟩

theorem IsNumber.inter (ha : a.IsNumber) : (a.inter b).IsNumber := by
  intro e
  cases e with
  | lo => exact (Ordered.isNumber_of_le (Ordered.le_max_left (ha .lo))).2
  | hi => exact (Ordered.isNumber_of_le (Ordered.min_le_left (ha .hi))).1

theorem contains_inter_iff (ha : a.IsNumber) (hb : b.IsNumber) :
    (a.inter b).Contains x ↔ a.Contains x ∧ b.Contains x := by
  constructor
  · rintro ⟨hlo, hhi⟩
    exact ⟨⟨Ordered.le_trans (Ordered.le_max_left (ha .lo)) hlo,
        Ordered.le_trans hhi (Ordered.min_le_left (ha .hi))⟩,
      Ordered.le_trans (Ordered.le_max_right (ha .lo) (hb .lo)) hlo,
      Ordered.le_trans hhi (Ordered.min_le_right (ha .hi) (hb .hi))⟩
  · rintro ⟨⟨hlo, hhi⟩, hlo', hhi'⟩
    exact ⟨Ordered.max_le hlo hlo', Ordered.le_min hhi hhi'⟩

theorem meets_iff_exists (ha : a.IsNumber) (hb : b.IsNumber) :
    a.Meets b ↔ ∃ x, a.Contains x ∧ b.Contains x := by
  unfold Meets
  by_cases hle : a.lo ≤ b.lo
  · rw [if_pos hle]
    constructor
    · rintro ⟨ha', hb'⟩
      exact ⟨b.lo, ⟨hle, ha'⟩, hb .lo, hb'⟩
    · rintro ⟨x, hax, hbx⟩
      exact ⟨Ordered.le_trans hbx.1 hax.2, Ordered.le_trans hbx.1 hbx.2⟩
  · rw [if_neg hle]
    constructor
    · rintro ⟨hb', ha'⟩
      have hlt := (Ordered.not_le (ha .lo) (hb .lo)).1 hle
      exact ⟨a.lo, ⟨ha .lo, ha'⟩, Ordered.le_of_lt hlt, hb'⟩
    · rintro ⟨x, hax, hbx⟩
      exact ⟨Ordered.le_trans hax.1 hbx.2, Ordered.le_trans hax.1 hax.2⟩

theorem includes_iff_forall (hb : b.IsNumber) :
    a.Includes b ↔ ∀ x, b.Contains x → a.Contains x := by
  constructor
  · rintro (hempty | ⟨hlo, hhi⟩) x hx
    · exact absurd hempty hx.not_isEmpty
    · exact ⟨Ordered.le_trans hlo hx.1, Ordered.le_trans hx.2 hhi⟩
  · intro h
    by_cases hempty : b.IsEmpty
    · exact .inl hempty
    · exact .inr ⟨(h _ (hb.contains_lo hempty)).1, (h _ (hb.contains_hi hempty)).2⟩

theorem Includes.trans (hb : b.IsNumber) (hc : c.IsNumber) (h : a.Includes b) (h' : b.Includes c) :
    a.Includes c := by
  rw [includes_iff_forall hc] at h' ⊢
  exact fun x hx => (includes_iff_forall hb).1 h x (h' x hx)

theorem union_includes (ha : a.IsNumber) (hb : b.IsNumber) :
    (a.union b).Includes a ∧ (a.union b).Includes b := by
  unfold union
  split
  · rename_i hempty
    exact ⟨.inl hempty, .inr ⟨hb .lo, hb .hi⟩⟩
  · split
    · rename_i hempty
      exact ⟨.inr ⟨ha .lo, ha .hi⟩, .inl hempty⟩
    · exact ⟨.inr ⟨Ordered.min_le_left (ha .lo), Ordered.le_max_left (ha .hi)⟩,
        .inr ⟨Ordered.min_le_right (ha .lo) (hb .lo), Ordered.le_max_right (ha .hi) (hb .hi)⟩⟩

/-- **The union is the smallest interval** that includes both. -/
theorem includes_union (ha : c.Includes a) (hb : c.Includes b) : c.Includes (a.union b) := by
  unfold union
  split
  · exact hb
  · rename_i ha'
    split
    · exact ha
    · rename_i hb'
      obtain ⟨hlo, hhi⟩ := ha.resolve_left ha'
      obtain ⟨hlo', hhi'⟩ := hb.resolve_left hb'
      exact .inr ⟨Ordered.le_min hlo hlo', Ordered.max_le hhi hhi'⟩

theorem IsNumber.union (ha : a.IsNumber) (hb : b.IsNumber) : (a.union b).IsNumber := by
  unfold Interval.union
  split
  · exact hb
  · split
    · exact ha
    · intro e
      cases e with
      | lo => exact (Ordered.isNumber_of_le (Ordered.min_le_left (ha .lo))).1
      | hi => exact (Ordered.isNumber_of_le (Ordered.le_max_left (ha .hi))).2

end Interval

/-! ## 2. The points of rectangles -/

namespace Rect

/-- Whether all points of a rectangle are points of another one. -/
def Within (s r : Rect α) : Prop := ∀ p, s.Contains p → r.Contains p

variable {r s t : Rect α} {p : Vec2 α}

theorem Includes.refl (hr : r.IsNumber) : r.Includes r :=
  ⟨.inr ⟨hr .u .lo, hr .u .hi⟩, .inr ⟨hr .v .lo, hr .v .hi⟩⟩

section empty
variable [ExactSigns α]

theorem isEmpty_empty : (empty : Rect α).IsEmpty := .inl ExactSigns.zero_lt_one

theorem isEmpty_orEmpty_iff : r.orEmpty.IsEmpty ↔ r.IsEmpty := by
  unfold orEmpty
  split
  · rename_i hempty
    exact iff_of_true isEmpty_empty hempty
  · rfl

end empty

variable [Ordered α]

theorem Contains.not_isEmpty (h : r.Contains p) : ¬r.IsEmpty := by
  rintro (hx | hy)
  · exact h.1.not_isEmpty hx
  · exact h.2.not_isEmpty hy

theorem within_of_isEmpty (h : s.IsEmpty) : s.Within r := fun _ hp => absurd h hp.not_isEmpty

theorem IsNumber.contains_lo (hr : r.IsNumber) (h : ¬r.IsEmpty) : r.Contains r.lo :=
  ⟨(hr .u).contains_lo fun hx => h (.inl hx), (hr .v).contains_lo fun hy => h (.inr hy)⟩

theorem Includes.within (hs : s.IsNumber) (h : r.Includes s) : s.Within r := fun _ hp =>
  ⟨(Interval.includes_iff_forall (hs .u)).1 h.1 _ hp.1,
    (Interval.includes_iff_forall (hs .v)).1 h.2 _ hp.2⟩

/-- A rectangle that has points is included wherever its points are. -/
theorem Within.includes (hs : s.IsNumber) (hne : ¬s.IsEmpty) (h : s.Within r) : r.Includes s := by
  obtain ⟨hx, hy⟩ := hs.contains_lo hne
  constructor
  · exact (Interval.includes_iff_forall (hs .u)).2 fun x hx' => (h ⟨x, s.lo.y⟩ ⟨hx', hy⟩).1
  · exact (Interval.includes_iff_forall (hs .v)).2 fun y hy' => (h ⟨s.lo.x, y⟩ ⟨hx, hy'⟩).2

/-- **Inclusion and points.** -/
theorem includes_iff_within (hs : s.IsNumber) :
    r.Includes s ↔ s.Within r ∧
      ∀ axis, (s.along axis).IsEmpty → (r.along axis.other).Includes (s.along axis.other) := by
  constructor
  · refine fun h => ⟨h.within hs, fun axis _ => ?_⟩
    cases axis with
    | u => exact h.2
    | v => exact h.1
  · rintro ⟨hwithin, hother⟩
    by_cases hempty : s.IsEmpty
    · rcases hempty with hx | hy
      · exact ⟨.inl hx, hother .u hx⟩
      · exact ⟨hother .v hy, .inl hy⟩
    · exact hwithin.includes hs hempty

theorem meets_iff_exists (hr : r.IsNumber) (hs : s.IsNumber) :
    r.Meets s ↔ ∃ p, r.Contains p ∧ s.Contains p := by
  constructor
  · rintro ⟨hx, hy⟩
    obtain ⟨x, hrx, hsx⟩ := (Interval.meets_iff_exists (hr .u) (hs .u)).1 hx
    obtain ⟨y, hry, hsy⟩ := (Interval.meets_iff_exists (hr .v) (hs .v)).1 hy
    exact ⟨⟨x, y⟩, ⟨hrx, hry⟩, hsx, hsy⟩
  · rintro ⟨p, hrp, hsp⟩
    exact ⟨(Interval.meets_iff_exists (hr .u) (hs .u)).2 ⟨_, hrp.1, hsp.1⟩,
      (Interval.meets_iff_exists (hr .v) (hs .v)).2 ⟨_, hrp.2, hsp.2⟩⟩

/-! ## 3. Intersection and union -/

section inter
variable [ExactSigns α]

theorem contains_orEmpty_iff : r.orEmpty.Contains p ↔ r.Contains p := by
  unfold orEmpty
  split
  · rename_i hempty
    exact iff_of_false (fun h => h.not_isEmpty isEmpty_empty) (fun h => h.not_isEmpty hempty)
  · rfl

theorem contains_inter_iff (hr : r.IsNumber) (hs : s.IsNumber) :
    (r.inter s).Contains p ↔ r.Contains p ∧ s.Contains p := by
  refine contains_orEmpty_iff.trans ?_
  refine (and_congr (Interval.contains_inter_iff (hr .u) (hs .u))
    (Interval.contains_inter_iff (hr .v) (hs .v))).trans ?_
  exact and_and_and_comm

theorem not_isEmpty_inter_iff (hr : r.IsNumber) (hs : s.IsNumber) :
    ¬(r.inter s).IsEmpty ↔ ∃ p, r.Contains p ∧ s.Contains p := by
  have hnumber : IsNumber ⟨r.x.inter s.x, r.y.inter s.y⟩ := by
    intro axis
    cases axis with
    | u => exact (hr .u).inter
    | v => exact (hr .v).inter
  constructor
  · intro hne
    have hpoint := hnumber.contains_lo (mt isEmpty_orEmpty_iff.2 hne)
    exact ⟨_, (contains_inter_iff hr hs).1 (contains_orEmpty_iff.2 hpoint)⟩
  · rintro ⟨p, hp⟩
    exact ((contains_inter_iff hr hs).2 hp).not_isEmpty

end inter

theorem IsNumber.union (hr : r.IsNumber) (hs : s.IsNumber) : (r.union s).IsNumber := by
  intro axis
  cases axis with
  | u => exact (hr .u).union (hs .u)
  | v => exact (hr .v).union (hs .v)

theorem union_includes (hr : r.IsNumber) (hs : s.IsNumber) :
    (r.union s).Includes r ∧ (r.union s).Includes s := by
  obtain ⟨hrx, hsx⟩ := Interval.union_includes (hr .u) (hs .u)
  obtain ⟨hry, hsy⟩ := Interval.union_includes (hr .v) (hs .v)
  exact ⟨⟨hrx, hry⟩, hsx, hsy⟩

theorem includes_union (hr : t.Includes r) (hs : t.Includes s) : t.Includes (r.union s) :=
  ⟨Interval.includes_union hr.1 hs.1, Interval.includes_union hr.2 hs.2⟩

theorem Includes.trans (hs : s.IsNumber) (ht : t.IsNumber) (h : r.Includes s) (h' : s.Includes t) :
    r.Includes t :=
  ⟨h.1.trans (hs .u) (ht .u) h'.1, h.2.trans (hs .v) (ht .v) h'.2⟩

/-- **When the union is the smallest rectangle with the points of both**: if it is empty too, or if
neither of the two is empty along one axis and sticks out along the other. -/
theorem union_least_iff (hr : r.IsNumber) (hs : s.IsNumber) :
    (∀ t : Rect α, r.Within t → s.Within t → (r.union s).Within t) ↔
      (r.union s).IsEmpty ∨ (r.IsEmpty → s.Includes r) ∧ (s.IsEmpty → r.Includes s) := by
  have hunion := hr.union hs
  obtain ⟨hur, hus⟩ := union_includes hr hs
  constructor
  · intro hleast
    by_cases hempty : (r.union s).IsEmpty
    · exact .inl hempty
    · -- The union is as small as the other of the two.
      refine .inr ⟨fun hr' => ?_, fun hs' => ?_⟩
      · have hwithin := hleast s (within_of_isEmpty hr') fun _ hp => hp
        exact (hwithin.includes hunion hempty).trans hunion hr hur
      · have hwithin := hleast r (fun _ hp => hp) (within_of_isEmpty hs')
        exact (hwithin.includes hunion hempty).trans hunion hs hus
  · rintro (hempty | ⟨hr', hs'⟩) t hrt hst
    · exact within_of_isEmpty hempty
    · by_cases hrempty : r.IsEmpty
      · have hincludes := includes_union (hr' hrempty) (.refl hs)
        exact fun p hp => hst p (hincludes.within hunion p hp)
      · by_cases hsempty : s.IsEmpty
        · have hincludes := includes_union (.refl hr) (hs' hsempty)
          exact fun p hp => hrt p (hincludes.within hunion p hp)
        · exact (includes_union (hrt.includes hr hrempty) (hst.includes hs hsempty)).within hunion

/-- **Rectangles mean their sets of points**, as far as they are not empty along one axis only.  Two
rectangles meet if and only if they have a common point, and if and only if their intersection is
not empty, and the intersection has exactly the common points.  One includes another if and only if
it has all of its points, except that of a rectangle that is empty along one axis it asks to include
the interval along the other axis too.  The union has the points of both, and is the smallest
rectangle that has them if it is empty or if each of the two that is empty is included in the other;
otherwise there is a smaller one. -/
theorem operations_on_points [ExactSigns α] (hr : r.IsNumber) (hs : s.IsNumber) :
    (r.Meets s ↔ ∃ p, r.Contains p ∧ s.Contains p) ∧
    (r.Meets s ↔ ¬(r.inter s).IsEmpty) ∧
    (∀ p, (r.inter s).Contains p ↔ r.Contains p ∧ s.Contains p) ∧
    (r.Includes s ↔ s.Within r ∧
      ∀ axis, (s.along axis).IsEmpty → (r.along axis.other).Includes (s.along axis.other)) ∧
    (r.Within (r.union s) ∧ s.Within (r.union s)) ∧
    ((∀ t : Rect α, r.Within t → s.Within t → (r.union s).Within t) ↔
      (r.union s).IsEmpty ∨ (r.IsEmpty → s.Includes r) ∧ (s.IsEmpty → r.Includes s)) := by
  have hmeets := meets_iff_exists hr hs
  obtain ⟨hur, hus⟩ := union_includes hr hs
  exact ⟨hmeets, hmeets.trans (not_isEmpty_inter_iff hr hs).symm,
    fun _ => contains_inter_iff hr hs, includes_iff_within hs, ⟨hur.within hr, hus.within hs⟩,
    union_least_iff hr hs⟩

def unitSquare : Rect Float := ⟨⟨0, 1⟩, ⟨0, 1⟩⟩

/-- A rectangle with no points, because it is empty along the first axis. -/
def emptyColumn : Rect Float := ⟨⟨1, 0⟩, ⟨0, 10⟩⟩

/-- A rectangle without points that still widens the union with the unit square. -/
theorem operations_on_emptyColumn :
    (unitSquare.IsNumber ∧ emptyColumn.IsNumber) ∧ (unitSquare.inter emptyColumn).IsEmpty ∧
    ¬∀ t : Rect Float, unitSquare.Within t → emptyColumn.Within t →
      (unitSquare.union emptyColumn).Within t := by
  have hsquare : unitSquare.IsNumber := by
    intro axis e
    cases axis <;> cases e <;> decide +kernel
  have hcolumn : emptyColumn.IsNumber := by
    intro axis e
    cases axis <;> cases e <;> decide +kernel
  obtain ⟨-, hinter, -, -, -, hleast⟩ := operations_on_points hsquare hcolumn
  refine ⟨⟨hsquare, hcolumn⟩, ?_, ?_⟩
  · by_contra hne
    exact absurd (hinter.2 hne) (by decide +kernel)
  · rw [hleast]
    decide +kernel

/-- A rectangle without points is not included in the unit square, and the union of the two is
larger than the square. -/
theorem emptyColumn_sticks_out :
    (emptyColumn.Within unitSquare ∧ ¬unitSquare.Includes emptyColumn) ∧
    ¬(unitSquare.union emptyColumn).Within unitSquare := by
  refine ⟨⟨within_of_isEmpty (by decide +kernel), by decide +kernel⟩, fun h => ?_⟩
  have hpoint : unitSquare.Contains ⟨0, 10⟩ := h _ (by decide +kernel)
  exact absurd hpoint (by decide +kernel)

end Rect

end SphereIndex
