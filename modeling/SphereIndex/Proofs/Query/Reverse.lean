import SphereIndex.Proofs.Planar.Reverse
import SphereIndex.Proofs.Query.History
import SphereIndex.Proofs.Query.Root

/-!
# Reversed query edges

A walk carries along the bound of a part of the segment, and all that it decides is decided by that
bound.  Splitting gives the same bounds for a segment and for its reverse, so the walks of both visit
the same cells in the same order.
-/

namespace SphereIndex

open Planar

/-! ## 1. The walk -/

namespace Walk

variable {a b center : Vec2 ℝ} {bound : Rect ℝ}

theorem isPart_of_mem_halves {axis : Axis} {x : ℝ} (h : IsPart a b bound) {upper : Bool} {r : Rect ℝ}
    (hr : (upper, r) ∈ halves a b axis x bound) : IsPart a b r := by
  obtain ⟨s, t, hst, rfl⟩ := h
  obtain ⟨s', t', -, hst', -, rfl, -⟩ := part_of_mem_halves hst hr
  exact ⟨s', t', hst', rfl⟩

theorem isPart_of_mem_quadrants (h : IsPart a b bound) {q : Quadrant} {r : Rect ℝ}
    (hr : (q, r) ∈ quadrants interpolate a b center bound) : IsPart a b r := by
  obtain ⟨s, t, hst, rfl⟩ := h
  obtain ⟨s', t', -, hst', -, rfl, -⟩ := part_of_mem_quadrants hst hr
  exact ⟨s', t', hst', rfl⟩

theorem halves_reverse (h : IsPart a b bound) (axis : Axis) (x : ℝ) :
    halves b a axis x bound = halves a b axis x bound := by
  by_cases hhi : (bound.along axis).hi < x
  · rw [halves_of_hi_lt hhi, halves_of_hi_lt hhi]
  · by_cases hlo : x ≤ (bound.along axis).lo
    · rw [halves_of_le_lo hhi hlo, halves_of_le_lo hhi hlo]
    · rw [halves_of_lo_lt hhi hlo, halves_of_lo_lt hhi hlo,
        splitBy_reverse h axis (not_le.1 hlo) (not_lt.1 hhi)]

theorem quadrants_eq_halves (h : IsPart a b bound) (center : Vec2 ℝ) :
    quadrants interpolate a b center bound =
      (halves a b .u center.x bound).flatMap fun l =>
        (halves a b .v center.y l.2).map fun m => (⟨l.1, m.1⟩, m.2) := by
  obtain ⟨s, t, hst, rfl⟩ := h
  rw [quadrants_eq a b center hst]
  exact List.flatMap_congr fun l _ => column_eq a b center.y l.1 l.2

/-- **The quadrants of a part, and the bounds there, are those of the reversed part.** -/
theorem quadrants_reverse (h : IsPart a b bound) (center : Vec2 ℝ) :
    quadrants interpolate b a center bound = quadrants interpolate a b center bound := by
  rw [quadrants_eq_halves h, quadrants_eq_halves h.reverse, halves_reverse h]
  refine List.flatMap_congr fun l hl => ?_
  rw [halves_reverse (isPart_of_mem_halves h hl)]

/-- **The walk along a segment and that along its reverse** find the same cells in the same order. -/
theorem visit_reverse (cells : Array StoredCell) (h : IsPart a b bound) (c : PaddedCell ℝ) :
    visit cells b a c bound = visit cells a b c bound := by
  unfold visit
  -- Only the quadrants depend on the direction, and what is handed down is a part again.
  fun_induction visitBy interpolate cells a b c bound with
  | case1 c bound hs => rw [visitBy, hs]
  | case2 c bound s hs hbeyond =>
    rw [visitBy, hs]
    exact if_pos hbeyond
  | case3 c bound s hs hbeyond hid =>
    rw [visitBy, hs]
    dsimp only
    rw [if_neg hbeyond, if_pos hid]
  | case4 c bound s hs hbeyond hid hl ih =>
    rw [visitBy, hs]
    dsimp only
    rw [if_neg hbeyond, if_neg hid, dif_pos hl, quadrants_reverse h]
    exact List.flatMap_congr fun x hx => ih x.1 x.2 (isPart_of_mem_quadrants h hx)
  | case5 c bound s hs hbeyond hid hl =>
    rw [visitBy, hs]
    dsimp only
    rw [if_neg hbeyond, if_neg hid, dif_neg hl]

end Walk

/-! ## 2. The edge -/

namespace EdgeQuery

variable {q r : EdgeQuery ℝ} {a b : Vec3 ℝ}

theorem segmentCells_reverse (cells : Array StoredCell) (f : Face) (a b : Vec2 ℝ) :
    segmentCells cells ⟨f, b, a⟩ = segmentCells cells ⟨f, a, b⟩ := by
  have hroot : rootOf ⟨f, b, a⟩ = rootOf ⟨f, a, b⟩ := by
    unfold rootOf
    rw [Rect.ofPair_comm]
  unfold segmentCells
  rw [hroot]
  obtain ⟨relation, c⟩ := (Cursor.start cells).locate (rootOf ⟨f, a, b⟩)
  cases relation with
  | indexed => rfl
  | subdivided =>
    unfold cellsFrom
    dsimp only
    rw [hroot, Rect.ofPair_comm, Walk.visit_reverse c.cells (isPart_ofPair a b)]
  | disjoint => rfl

/-- **The search for a reversed edge on one face** gives the same. -/
theorem sameSearch_reverse (hindex : r.index = q.index) (hoptions : r.options = q.options)
    (hface : Face.ofPoint a = Face.ofPoint b) : SameSearch r b a q a b := by
  refine ⟨hindex, hoptions, ?_⟩
  rw [report?_of_face r rfl hface, report?_of_face q hface rfl, segmentCells_reverse, hindex]

/-- **Reversing a query edge on one face changes nothing.**  The search ends, the cells are the same in
the same order, and so are the candidates, whatever the queries were asked before and whatever the
lists and maps held. -/
theorem answers_of_reversed_edge (hindex : r.index = q.index) (hoptions : r.options = q.options)
    (hface : Face.ofPoint a = Face.ofPoint b) :
    (q.cells? a b ≠ none ∧ (r.cells? b a).map (·.1) = (q.cells? a b).map (·.1)) ∧
    (∀ shape edges edges', q.candidates? a b shape edges' ≠ none ∧
      (r.candidates? b a shape edges).map (·.1) = (q.candidates? a b shape edges').map (·.1)) ∧
    ∀ map map', q.candidatesByShape? a b map' ≠ none ∧
      (r.candidatesByShape? b a map).map (·.1) = (q.candidatesByShape? a b map').map (·.1) := by
  have hsame := sameSearch_reverse hindex hoptions hface
  have hends : q.cells? a b ≠ none := by
    rw [Ne, cells?_eq_none_iff, report?_of_face q hface rfl]
    exact Option.some_ne_none _
  exact ⟨⟨hends, hsame.cells?⟩,
    fun shape edges edges' => ⟨candidates?_ne_none hends shape edges', hsame.candidates? shape _ _⟩,
    fun map map' => ⟨candidatesByShape?_ne_none hends map', hsame.candidatesByShape? map map'⟩⟩

/-- An edge along a line of constant v is looked up, and then its reverse in the same query. -/
theorem answers_of_reversed_parallel :
    Face.ofPoint (⟨1, -1 / 2, 1 / 4⟩ : Vec3 ℝ) = .xPos ∧
    Face.ofPoint (⟨1, 1 / 2, 1 / 4⟩ : Vec3 ℝ) = .xPos ∧
    ∃ cells r, quartersQuery.cells? ⟨1, -1 / 2, 1 / 4⟩ ⟨1, 1 / 2, 1 / 4⟩ = some (cells, r) ∧
      (r.cells? ⟨1, 1 / 2, 1 / 4⟩ ⟨1, -1 / 2, 1 / 4⟩).map (·.1) = some cells := by
  have ha : Face.ofPoint (⟨1, -1 / 2, 1 / 4⟩ : Vec3 ℝ) = .xPos :=
    Face.xPos.ofPoint_lift (e := ⟨-1 / 2, 1 / 4⟩) (abs_lt.2 (by norm_num)) (abs_lt.2 (by norm_num))
  have hb : Face.ofPoint (⟨1, 1 / 2, 1 / 4⟩ : Vec3 ℝ) = .xPos :=
    Face.xPos.ofPoint_lift (e := ⟨1 / 2, 1 / 4⟩) (abs_lt.2 (by norm_num)) (abs_lt.2 (by norm_num))
  obtain ⟨⟨hends, -⟩, -⟩ := answers_of_reversed_edge (q := quartersQuery) rfl rfl (ha.trans hb.symm)
  obtain ⟨⟨cells, r⟩, hcells⟩ := Option.ne_none_iff_exists'.1 hends
  have hkept := renewed_cells? hcells
  have hindex : r.index = quartersQuery.index := congrArg (fun q => q.index) hkept
  have hoptions : r.options = quartersQuery.options := congrArg (fun q => q.options) hkept
  obtain ⟨⟨-, hsame⟩, -⟩ := answers_of_reversed_edge hindex hoptions (ha.trans hb.symm)
  refine ⟨ha, hb, cells, r, hcells, ?_⟩
  rw [hsame, hcells, Option.map_some]

end EdgeQuery

end SphereIndex
