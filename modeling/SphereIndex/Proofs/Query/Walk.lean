import SphereIndex.Proofs.Cell.Square
import SphereIndex.Proofs.Index.Lookup
import SphereIndex.Proofs.Planar.Segment
import SphereIndex.Proofs.Query.Quadrants
import SphereIndex.Proofs.Query.Search

/-!
# The walk finds the cells on a segment

In exact arithmetic the bound that the walk carries along is the box of the part of AB in the cell,
so a comparison of that box with the center decides on which side of the center the part lies.
Completeness follows a point that a stored cell owns: of the four quadrants it lies in one, and that
one gets a part with the point on it.  Tightness says that every part lies in the closed square of
its cell.
-/

namespace SphereIndex

open Planar

/-! ## 1. The two halves along an axis -/

/-- Whether a value lies in a half of the line cut at `x`, the cut included. -/
def OnSide (upper : Bool) (x y : ℝ) : Prop := if upper then x ≤ y else y ≤ x

namespace Walk

/-- The halves along an axis that a part of AB lies in, and the bounds of the parts there. -/
noncomputable def halves (a b : Vec2 ℝ) (axis : Axis) (x : ℝ) (bound : Rect ℝ) :
    List (Bool × Rect ℝ) :=
  if (bound.along axis).hi < x then [(false, bound)]
  else if x ≤ (bound.along axis).lo then [(true, bound)]
  else
    let (lower, upper) := splitBy interpolate a b bound axis x
    [(false, lower), (true, upper)]

variable {a b center : Vec2 ℝ} {s t : ℝ}

theorem halves_of_hi_lt {axis : Axis} {x : ℝ} {bound : Rect ℝ} (h : (bound.along axis).hi < x) :
    halves a b axis x bound = [(false, bound)] := if_pos h

theorem halves_of_le_lo {axis : Axis} {x : ℝ} {bound : Rect ℝ} (h : ¬(bound.along axis).hi < x)
    (h' : x ≤ (bound.along axis).lo) : halves a b axis x bound = [(true, bound)] :=
  (if_neg h).trans (if_pos h')

theorem halves_of_lo_lt {axis : Axis} {x : ℝ} {bound : Rect ℝ} (h : ¬(bound.along axis).hi < x)
    (h' : ¬x ≤ (bound.along axis).lo) : halves a b axis x bound =
      [(false, (splitBy interpolate a b bound axis x).1),
        (true, (splitBy interpolate a b bound axis x).2)] :=
  (if_neg h).trans (if_neg h')

theorem partBound_contains (a b : Vec2 ℝ) (axis : Axis) {y : ℝ} (hs : s ≤ y) (ht : y ≤ t) :
    ((partBound a b s t).along axis).lo ≤ (pointAt a b y).along axis ∧
      (pointAt a b y).along axis ≤ ((partBound a b s t).along axis).hi := by
  rw [partBound_along, ← linear_along]
  exact span_contains hs ht

/-- Each half is given the box of a part that lies in it. -/
theorem part_of_mem_halves {axis : Axis} {x : ℝ} (hst : s ≤ t) {upper : Bool} {r : Rect ℝ}
    (h : (upper, r) ∈ halves a b axis x (partBound a b s t)) :
    ∃ s' t', s ≤ s' ∧ s' ≤ t' ∧ t' ≤ t ∧ r = partBound a b s' t' ∧
      ∀ y, s' ≤ y → y ≤ t' → OnSide upper x ((pointAt a b y).along axis) := by
  by_cases hhi : ((partBound a b s t).along axis).hi < x
  · rw [halves_of_hi_lt hhi] at h
    obtain ⟨rfl, rfl⟩ := Prod.mk.inj (List.mem_singleton.1 h)
    refine ⟨s, t, le_rfl, hst, le_rfl, rfl, fun y hs ht => ?_⟩
    exact (partBound_contains a b axis hs ht).2.trans (le_of_lt hhi)
  · by_cases hlo : x ≤ ((partBound a b s t).along axis).lo
    · rw [halves_of_le_lo hhi hlo] at h
      obtain ⟨rfl, rfl⟩ := Prod.mk.inj (List.mem_singleton.1 h)
      refine ⟨s, t, le_rfl, hst, le_rfl, rfl, fun y hs ht => ?_⟩
      exact le_trans hlo (partBound_contains a b axis hs ht).1
    · obtain ⟨s₁, t₁, s₂, t₂, hlower, hupper, heq⟩ :=
        splitBy_cut a b hst axis (not_le.1 hlo) (not_lt.1 hhi)
      rw [halves_of_lo_lt hhi hlo, heq] at h
      cases hlower with
      | between hs₁ hst₁ ht₁ hlower =>
        cases hupper with
        | between hs₂ hst₂ ht₂ hupper =>
          rcases List.mem_cons.1 h with h | h
          · obtain ⟨rfl, rfl⟩ := Prod.mk.inj h
            refine ⟨s₁, t₁, hs₁, hst₁, ht₁, rfl, fun y hs ht => ?_⟩
            exact (hlower y (hs₁.trans hs) (ht.trans ht₁)).2 ⟨hs, ht⟩
          · obtain ⟨rfl, rfl⟩ := Prod.mk.inj (List.mem_singleton.1 h)
            refine ⟨s₂, t₂, hs₂, hst₂, ht₂, rfl, fun y hs ht => ?_⟩
            exact (hupper y (hs₂.trans hs) (ht.trans ht₂)).2 ⟨hs, ht⟩

theorem exists_mem_halves (axis : Axis) (x : ℝ) {y : ℝ} (hs : s ≤ y) (ht : y ≤ t) :
    ∃ s' t', (decide (x ≤ (pointAt a b y).along axis), partBound a b s' t') ∈
      halves a b axis x (partBound a b s t) ∧ s' ≤ y ∧ y ≤ t' := by
  obtain ⟨hy1, hy2⟩ := partBound_contains a b axis hs ht
  by_cases hhi : ((partBound a b s t).along axis).hi < x
  · rw [halves_of_hi_lt hhi, decide_eq_false (not_le.2 (hy2.trans_lt hhi))]
    exact ⟨s, t, List.mem_singleton_self _, hs, ht⟩
  · by_cases hlo : x ≤ ((partBound a b s t).along axis).lo
    · rw [halves_of_le_lo hhi hlo, decide_eq_true (le_trans hlo hy1)]
      exact ⟨s, t, List.mem_singleton_self _, hs, ht⟩
    · obtain ⟨s₁, t₁, s₂, t₂, hlower, hupper, heq⟩ :=
        splitBy_cut a b (hs.trans ht) axis (not_le.1 hlo) (not_lt.1 hhi)
      rw [halves_of_lo_lt hhi hlo, heq]
      by_cases hx : x ≤ (pointAt a b y).along axis
      · cases hupper with
        | between _ _ _ hupper =>
          rw [decide_eq_true hx]
          exact ⟨s₂, t₂, List.mem_cons_of_mem _ (List.mem_singleton_self _), (hupper y hs ht).1 hx⟩
      · cases hlower with
        | between _ _ _ hlower =>
          rw [decide_eq_false hx]
          exact ⟨s₁, t₁, List.mem_cons_self, (hlower y hs ht).1 (not_le.1 hx).le⟩

/-! ## 2. The quadrants of a cell -/

theorem column_eq (a b : Vec2 ℝ) (v : ℝ) (i : Bool) (bound : Rect ℝ) :
    column interpolate a b v i bound = (halves a b .v v bound).map fun h => (⟨i, h.1⟩, h.2) := by
  unfold column
  split
  · rename_i hhi
    rw [halves_of_hi_lt hhi]
    rfl
  · rename_i hhi
    split
    · rename_i hlo
      rw [halves_of_le_lo hhi hlo]
      rfl
    · rename_i hlo
      rw [halves_of_lo_lt hhi hlo]
      rfl

/-- Splitting along u first and then along v gives the same, although the walk compares the bound in
v before it splits. -/
theorem quadrants_eq (a b center : Vec2 ℝ) (hst : s ≤ t) :
    quadrants interpolate a b center (partBound a b s t) =
      (halves a b .u center.x (partBound a b s t)).flatMap fun h =>
        column interpolate a b center.y h.1 h.2 := by
  unfold quadrants
  split
  · rename_i hhi
    rw [halves_of_hi_lt hhi, List.flatMap_singleton]
  · rename_i hhi
    split
    · rename_i hlo
      rw [halves_of_le_lo hhi hlo, List.flatMap_singleton]
    · rename_i hlo
      obtain ⟨s₁, t₁, s₂, t₂, hlower, hupper, heq⟩ :=
        splitBy_cut a b hst .u (not_le.1 hlo) (not_lt.1 hhi)
      rw [halves_of_lo_lt hhi hlo, heq, List.flatMap_cons, List.flatMap_singleton]
      cases hlower with
      | between hs₁ hst₁ ht₁ _ =>
        cases hupper with
        | between hs₂ hst₂ ht₂ _ =>
          have hleft := span_subset (p := a.y) (q := b.y) hs₁ hst₁ ht₁
          have hright := span_subset (p := a.y) (q := b.y) hs₂ hst₂ ht₂
          -- A comparison that decides for the whole bound decides for both halves of it.
          dsimp only
          split
          · rename_i h
            rw [column_of_hi_lt false (hleft.2.trans_lt h),
              column_of_hi_lt true (hright.2.trans_lt h)]
            rfl
          · split
            · rename_i h
              have hle₁ := le_trans h hleft.1
              have hle₂ := le_trans h hright.1
              rw [column_of_le_lo false _ hle₁, column_of_le_lo true _ hle₂]
              · rfl
              · exact not_lt.2 (hle₂.trans (span_le hst₂))
              · exact not_lt.2 (hle₁.trans (span_le hst₁))
            · rfl

/-- The quadrant of a cell that a point lies in: a point on a cut is in the upper half. -/
noncomputable def quadrantAt (center p : Vec2 ℝ) : Quadrant :=
  ⟨decide (center.x ≤ p.x), decide (center.y ≤ p.y)⟩

/-- **Each quadrant is given the box of a part that lies in it.** -/
theorem part_of_mem_quadrants (hst : s ≤ t) {q : Quadrant} {r : Rect ℝ}
    (h : (q, r) ∈ quadrants interpolate a b center (partBound a b s t)) :
    ∃ s' t', s ≤ s' ∧ s' ≤ t' ∧ t' ≤ t ∧ r = partBound a b s' t' ∧
      ∀ y, s' ≤ y → y ≤ t' → ∀ axis,
        OnSide (q.along axis) (center.along axis) ((pointAt a b y).along axis) := by
  rw [quadrants_eq a b center hst, List.mem_flatMap] at h
  obtain ⟨⟨i, half⟩, hi, h⟩ := h
  obtain ⟨s', t', hs, hst', ht, rfl, hside⟩ := part_of_mem_halves hst hi
  rw [column_eq, List.mem_map] at h
  obtain ⟨⟨j, r'⟩, hj, heq⟩ := h
  obtain ⟨rfl, rfl⟩ := Prod.mk.inj heq
  obtain ⟨s'', t'', hs', hst'', ht', rfl, hside'⟩ := part_of_mem_halves hst' hj
  refine ⟨s'', t'', hs.trans hs', hst'', ht'.trans ht, rfl, fun y h1 h2 axis => ?_⟩
  cases axis with
  | u => exact hside y (hs'.trans h1) (h2.trans ht')
  | v => exact hside' y h1 h2

/-- **Every point of the part lies on the part in its quadrant.** -/
theorem exists_mem_quadrants (a b center : Vec2 ℝ) {y : ℝ} (hs : s ≤ y) (ht : y ≤ t) :
    ∃ s' t', (quadrantAt center (pointAt a b y), partBound a b s' t') ∈
      quadrants interpolate a b center (partBound a b s t) ∧ s' ≤ y ∧ y ≤ t' := by
  obtain ⟨s', t', hi, hs', ht'⟩ := exists_mem_halves (a := a) (b := b) .u center.x hs ht
  obtain ⟨s'', t'', hj, hs'', ht''⟩ := exists_mem_halves (a := a) (b := b) .v center.y hs' ht'
  refine ⟨s'', t'', ?_, hs'', ht''⟩
  rw [quadrants_eq a b center (hs.trans ht), List.mem_flatMap]
  refine ⟨_, hi, ?_⟩
  rw [column_eq, List.mem_map]
  exact ⟨_, hj, rfl⟩

/-! ## 3. Children and quadrants -/

theorem center_lt_hi {c : PaddedCell ℝ} (h : c.Placed) (hl : c.level < maxLevel) (axis : Axis) :
    c.center.along axis < (c.id.bound.along axis).hi := by
  have hlt := CellId.lo_lt_hi (h.child hl ⟨true, true⟩).isValid axis
  have hq : (Quadrant.mk true true).along axis = true := by cases axis <;> rfl
  rw [h.id_child_bound_along hl, hq] at hlt
  exact hlt

theorem quadrantAt_of_owns {c : PaddedCell ℝ} (h : c.Placed) (hl : c.level < maxLevel)
    {q : Quadrant} {p : Vec2 ℝ} (hp : (c.child q).id.Owns p) : quadrantAt c.center p = q := by
  have hside (axis : Axis) : decide (c.center.along axis ≤ p.along axis) = q.along axis := by
    have hcenter := center_lt_hi h hl axis
    have hone := CellId.hi_le_one h.isValid axis
    have howns := hp axis
    rw [h.id_child_bound_along hl] at howns
    cases hq : q.along axis with
    | true =>
      rw [hq] at howns
      exact decide_eq_true howns.1
    | false =>
      rw [hq] at howns
      rcases howns.2 with hlt | ⟨-, hlast⟩
      · exact decide_eq_false (not_le.2 hlt)
      · -- The center is no side of the face.
        change c.center.along axis = 1 at hlast
        linarith
  rcases q with ⟨i, j⟩
  exact congrArg₂ Quadrant.mk (hside .u) (hside .v)

theorem child_bound_contains {c : PaddedCell ℝ} (h : c.Placed) (hl : c.level < maxLevel)
    {q : Quadrant} {p : Vec2 ℝ} (hp : c.id.bound.Contains p)
    (hside : ∀ axis, OnSide (q.along axis) (c.center.along axis) (p.along axis)) :
    (c.child q).id.bound.Contains p := by
  rw [Rect.contains_iff_along] at hp ⊢
  intro axis
  have hin := hp axis
  have hon := hside axis
  rw [h.id_child_bound_along hl]
  cases hq : q.along axis with
  | true =>
    rw [hq] at hon
    exact ⟨hon, hin.2⟩
  | false =>
    rw [hq] at hon
    exact ⟨hin.1, hon⟩

/-! ## 4. The walk -/

theorem mem_of_mem_visitBy {α : Type} [Scalar α] {rule : Interpolation α}
    {cells : Array StoredCell} {a b : Vec2 α} {c : PaddedCell α} {bound : Rect α} {x : StoredCell}
    (hx : x ∈ visitBy rule cells a b c bound) : x ∈ cells := by
  fun_induction visitBy rule cells a b c bound with
  | case1 => cases hx
  | case2 => cases hx
  | case3 c bound s hs =>
    obtain rfl := List.mem_singleton.1 hx
    exact Array.mem_of_getElem? hs
  | case4 c bound s _ _ _ hl ih =>
    obtain ⟨⟨q, r⟩, -, hx⟩ := List.mem_flatMap.1 hx
    exact ih q r hx
  | case5 => cases hx

theorem stored_of_mem_visitBy {α : Type} [Scalar α] {rule : Interpolation α}
    {cells : Array StoredCell} (hcells : StoredInOrder cells.toList) {a b : Vec2 α}
    {c : PaddedCell α} (hc : c.OnTree) {bound : Rect α} {x : StoredCell}
    (hx : x ∈ visitBy rule cells a b c bound) : x ∈ cells ∧ c.id.Contains x.id := by
  have hmem := mem_of_mem_visitBy hx
  have hvalid := hcells.isValid x (Array.mem_toList_iff.2 hmem)
  refine ⟨hmem, ?_⟩
  fun_induction visitBy rule cells a b c bound with
  | case1 => cases hx
  | case2 => cases hx
  | case3 c bound s _ _ heq =>
    obtain rfl := List.mem_singleton.1 hx
    rw [heq]
    exact hc.isValid.contains_self
  | case4 c bound s _ _ _ hl ih =>
    obtain ⟨⟨q, r⟩, -, hx⟩ := List.mem_flatMap.1 hx
    have hchild := hc.child hl q
    have hbelow := ih q r hchild hx
    rw [hc.level_eq] at hl
    exact hc.isValid.contains_trans hchild.isValid hvalid (hc.isValid.contains_child hl _) hbelow
  | case5 => cases hx

theorem visitBy_eq_nil {α : Type} [Scalar α] {rule : Interpolation α} {cells : Array StoredCell}
    (hcells : StoredInOrder cells.toList) {a b : Vec2 α} {c : PaddedCell α} (hc : c.OnTree)
    {bound : Rect α} (hno : ∀ s ∈ cells, ¬c.id.Contains s.id) :
    visitBy rule cells a b c bound = [] := by
  apply List.eq_nil_iff_forall_not_mem.2
  intro s hs
  obtain ⟨hmem, hbelow⟩ := stored_of_mem_visitBy hcells hc hs
  exact hno s hmem hbelow

theorem mem_visitBy_of_owns {cells : Array StoredCell} (hcells : StoredInOrder cells.toList)
    {a b : Vec2 ℝ} {c : PaddedCell ℝ} (hc : c.Placed) {bound : Rect ℝ} {s t y : ℝ}
    (hbound : bound = partBound a b s t) (hs : s ≤ y) (ht : y ≤ t) {x : StoredCell}
    (hx : x ∈ cells) (hcx : c.id.Contains x.id) (howns : x.id.Owns (pointAt a b y)) :
    x ∈ visitBy interpolate cells a b c bound := by
  have hvalid := hcells.isValid x (Array.mem_toList_iff.2 hx)
  fun_induction visitBy interpolate cells a b c bound generalizing s t with
  | case1 c bound hnone =>
    -- The search below the cell finds something, because `x` is there.
    refine absurd hcx (hcells.not_contains_of_first (fun z hz => ?_) x hx)
    rw [hnone] at hz
    cases hz
  | case2 c bound z hz hlt =>
    refine absurd hcx (hcells.not_contains_of_first (fun z' hz' => ?_) x hx)
    obtain rfl := Option.some.inj (hz.symm.trans hz')
    exact UInt64.not_le.2 hlt
  | case3 c bound z hz _ heq =>
    have hzc : z.id.Contains x.id := heq ▸ hcx
    have hz := Array.mem_of_getElem? hz
    exact List.mem_singleton.2
      (hcells.eq_of_contains hx hz hvalid hvalid.contains_self hzc)
  | case4 c bound z hz _ hne hl ih =>
    obtain ⟨z', hmem, hz', hcz, -⟩ := hcells.exists_lowerBound hx hcx
    obtain rfl := Option.some.inj (hz.symm.trans hz')
    -- Were the cell itself stored, nothing else below it would be, and `z` would be the cell.
    have hxc : x.id ≠ c.id := by
      intro heq
      have hzvalid := hcells.isValid z (Array.mem_toList_iff.2 hmem)
      rw [← heq] at hcz hne
      exact hne (hcells.eq_of_contains hmem hx hzvalid hzvalid.contains_self hcz ▸ rfl)
    obtain ⟨-, d, hd⟩ := hc.isValid.exists_child_contains hvalid hcx hxc
    -- The digit names a quadrant, and it is the one that the point lies in.
    have hid : (c.child (c.orientation.quadrant d)).id = c.id.child d := by
      rw [PaddedCell.id_child, Orientation.digit_quadrant]
    have hchild := hc.child hl (c.orientation.quadrant d)
    have hcontains : (c.child (c.orientation.quadrant d)).id.Contains x.id := hid ▸ hd
    have hq := quadrantAt_of_owns hc hl (howns.of_contains hchild.isValid hvalid hcontains)
    obtain ⟨s', t', hpart, hs', ht'⟩ := exists_mem_quadrants a b c.center hs ht
    rw [hq] at hpart
    subst hbound
    exact List.mem_flatMap.2 ⟨_, hpart, ih _ _ hchild rfl hs' ht' hcontains⟩
  | case5 c bound z hz _ hne hl =>
    obtain ⟨z', hmem, hz', hcz, -⟩ := hcells.exists_lowerBound hx hcx
    obtain rfl := Option.some.inj (hz.symm.trans hz')
    rw [hc.level_eq] at hl
    have hzvalid := hcells.isValid z (Array.mem_toList_iff.2 hmem)
    exact absurd (hc.isValid.eq_of_contains_leaf hl hzvalid hcz) hne

/-- **What holds of the points of a part goes down with it.**  If a property of a cell and a point
passes on to the quadrant that the point lies in, then every visited cell has it with some point of
AB. -/
theorem exists_of_mem_visitBy {P : CellId → Vec2 ℝ → Prop}
    (hchild : ∀ {c : PaddedCell ℝ} {q : Quadrant} {p : Vec2 ℝ}, c.Placed → c.level < maxLevel →
      P c.id p → (∀ axis, OnSide (q.along axis) (c.center.along axis) (p.along axis)) →
      P (c.child q).id p)
    {cells : Array StoredCell} {a b : Vec2 ℝ} {c : PaddedCell ℝ} (hc : c.Placed) {bound : Rect ℝ}
    {s t : ℝ} (hbound : bound = partBound a b s t) (hst : s ≤ t)
    (hin : ∀ y, s ≤ y → y ≤ t → P c.id (pointAt a b y)) {x : StoredCell}
    (hx : x ∈ visitBy interpolate cells a b c bound) :
    ∃ y, s ≤ y ∧ y ≤ t ∧ P x.id (pointAt a b y) := by
  fun_induction visitBy interpolate cells a b c bound generalizing s t with
  | case1 => cases hx
  | case2 => cases hx
  | case3 c bound z _ _ heq =>
    obtain rfl := List.mem_singleton.1 hx
    exact ⟨s, le_rfl, hst, heq ▸ hin s le_rfl hst⟩
  | case4 c bound z _ _ _ hl ih =>
    obtain ⟨⟨q, r⟩, hpart, hx⟩ := List.mem_flatMap.1 hx
    rw [hbound] at hpart
    obtain ⟨s', t', hs, hst', ht, rfl, hside⟩ := part_of_mem_quadrants hst hpart
    -- The part that the quadrant is given lies on its side of the center.
    obtain ⟨y, hs', ht', hy⟩ := ih q _ (hc.child hl q) rfl hst' (fun y h1 h2 =>
      hchild hc hl (hin y (hs.trans h1) (h2.trans ht)) (hside y h1 h2)) hx
    exact ⟨y, hs.trans hs', ht'.trans ht, hy⟩
  | case5 => cases hx

/-- The closed square of every visited cell has a point of AB, if the part lies in the square that
the walk starts from. -/
theorem exists_point_of_mem_visitBy {cells : Array StoredCell} {a b : Vec2 ℝ} {c : PaddedCell ℝ}
    (hc : c.Placed) {bound : Rect ℝ} {s t : ℝ} (hbound : bound = partBound a b s t) (hst : s ≤ t)
    (hin : ∀ y, s ≤ y → y ≤ t → c.id.bound.Contains (pointAt a b y)) {x : StoredCell}
    (hx : x ∈ visitBy interpolate cells a b c bound) :
    ∃ y, s ≤ y ∧ y ≤ t ∧ x.id.bound.Contains (pointAt a b y) :=
  exists_of_mem_visitBy (P := fun id p => id.bound.Contains p)
    (fun hc hl => child_bound_contains hc hl) hc hbound hst hin hx

theorem contains_pointAt_of_includes {r : Rect ℝ} {a b : Vec2 ℝ} {y : ℝ}
    (h : r.Includes (Rect.ofPair a b)) (h0 : 0 ≤ y) (h1 : y ≤ 1) : r.Contains (pointAt a b y) := by
  rw [ofPair_eq_partBound] at h
  have hx := partBound_contains a b .u h0 h1
  have hy := partBound_contains a b .v h0 h1
  obtain ⟨hxe | hxi, hye | hyi⟩ := h
  · exact absurd (hx.1.trans hx.2) (not_le.2 hxe)
  · exact absurd (hx.1.trans hx.2) (not_le.2 hxe)
  · exact absurd (hy.1.trans hy.2) (not_le.2 hye)
  · exact ⟨⟨le_trans hxi.1 hx.1, le_trans hx.2 hxi.2⟩, ⟨le_trans hyi.1 hy.1, le_trans hy.2 hyi.2⟩⟩

/-- **The walk finds the stored cells on a segment.**  From any position of the cursor it visits
below a padded cell only stored cells, every one that owns a point of AB, and, if the square of the
padded cell includes AB, only those with a point of AB in their closed squares. -/
theorem visit_finds_segment {cells : Array StoredCell} (hcells : StoredInOrder cells.toList)
    {root : PaddedCell ℝ} (hroot : root.Made) (a b : Vec2 ℝ) :
    (∀ s : Search, s.cursor.cells = cells →
      (search interpolate a b root (Rect.ofPair a b) s).found =
        s.found ++ visit cells a b root (Rect.ofPair a b)) ∧
    (∀ c ∈ visit cells a b root (Rect.ofPair a b), c ∈ cells ∧ root.id.Contains c.id) ∧
    (∀ c ∈ cells, root.id.Contains c.id → (∃ p, OnSegment a b p ∧ c.id.Owns p) →
      c ∈ visit cells a b root (Rect.ofPair a b)) ∧
    (root.id.bound.Includes (Rect.ofPair a b) →
      ∀ c ∈ visit cells a b root (Rect.ofPair a b), ∃ p, OnSegment a b p ∧ c.id.bound.Contains p) := by
  have hexact := hroot.exact
  refine ⟨fun s hs => ?_, fun c hc => ?_, fun c hc hbelow ⟨p, ⟨y, h0, h1, hp⟩, howns⟩ => ?_,
    fun hin c hc => ?_⟩
  · exact (search_finds interpolate a b root (Rect.ofPair a b) hs).found_eq
  · exact stored_of_mem_visitBy hcells hexact.toOnTree hc
  · subst hp
    exact mem_visitBy_of_owns hcells hexact.toPlaced (ofPair_eq_partBound a b) h0 h1 hc hbelow howns
  · obtain ⟨y, h0, h1, hy⟩ := exists_point_of_mem_visitBy hexact.toPlaced (ofPair_eq_partBound a b)
      zero_le_one (fun y h0 h1 => contains_pointAt_of_includes hin h0 h1) hc
    exact ⟨_, ⟨y, h0, h1, rfl⟩, hy⟩

/-- A stored cell in the lower left or the upper right quarter of a face. -/
def quarter (upper : Bool) : StoredCell :=
  ⟨(CellId.ofFace .xPos).child ((Orientation.ofFace 0).digit ⟨upper, upper⟩), ⟨[⟨0, [0]⟩]⟩⟩

def quarters : Array StoredCell := #[quarter false, quarter true]

theorem quarters_inOrder : StoredInOrder quarters.toList := by
  refine ⟨fun c hc => ?_, by decide +kernel⟩
  have hall : ∀ c ∈ quarters.toList, c.id.IsValid := by decide +kernel
  exact hall c hc

theorem quarter_bound (upper : Bool) (axis : Axis) :
    ((quarter upper).id.bound.along axis : Interval ℝ) = if upper then ⟨0, 1⟩ else ⟨-1, 0⟩ := by
  have hvalid : (quarter upper).id.IsValid :=
    (CellId.IsValid.ofFace .xPos).child (by decide +kernel) _
  have hsize : CellId.sizeAt (quarter upper).id.level = 2 ^ 29 := by
    cases upper <;> decide +kernel
  have hcorner : (quarter upper).id.corner axis = if upper then 2 ^ 29 else 0 := by
    cases upper <;> cases axis <;> decide +kernel
  rw [CellId.bound_along hvalid, hcorner, hsize]
  cases upper with
  | false =>
    rw [if_neg Bool.false_ne_true, if_neg Bool.false_ne_true, Nat.zero_add, Grid.line_zero,
      Grid.line_middle]
  | true =>
    rw [if_pos rfl, if_pos rfl, ← Nat.two_mul, ← Nat.pow_succ', Grid.line_middle, Grid.line_last]

/-- A segment that ends exactly in the center of a face reaches both quarters there. -/
theorem visit_finds_quarters_at_center :
    StoredInOrder quarters.toList ∧ (PaddedCell.ofFace .xPos (0 : ℝ)).Made ∧
    ∀ c ∈ quarters, c ∈ (search interpolate ⟨-1 / 2, -1 / 2⟩ ⟨0, 0⟩
      (PaddedCell.ofFace .xPos (0 : ℝ)) (Rect.ofPair ⟨-1 / 2, -1 / 2⟩ ⟨0, 0⟩)
      ⟨.start quarters, []⟩).found := by
  have hroot : (PaddedCell.ofFace .xPos (0 : ℝ)).Made := .ofId (.ofFace .xPos) le_rfl
  refine ⟨quarters_inOrder, hroot, ?_⟩
  obtain ⟨hsearch, -, hfinds, -⟩ :=
    visit_finds_segment quarters_inOrder hroot ⟨-1 / 2, -1 / 2⟩ ⟨0, 0⟩
  intro c hc
  rw [hsearch _ rfl]
  refine hfinds c hc ?_ ?_
  · rw [PaddedCell.ofFace, PaddedCell.id_ofId]
    have hall : ∀ c ∈ quarters.toList, (CellId.ofFace .xPos).Contains c.id := by decide +kernel
    exact hall c (Array.mem_toList_iff.2 hc)
  · have hc : c = quarter false ∨ c = quarter true := by simpa [quarters] using hc
    rcases hc with rfl | rfl
    · refine ⟨⟨-1 / 2, -1 / 2⟩, ⟨0, le_rfl, zero_le_one, by simp [pointAt]⟩, fun axis => ?_⟩
      rw [quarter_bound, if_neg Bool.false_ne_true]
      cases axis <;> norm_num [Vec2.along]
    · refine ⟨⟨0, 0⟩, ⟨1, zero_le_one, le_rfl, by simp [pointAt]⟩, fun axis => ?_⟩
      rw [quarter_bound, if_pos rfl]
      cases axis <;> norm_num [Vec2.along]

end Walk

end SphereIndex
