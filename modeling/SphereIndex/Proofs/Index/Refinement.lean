import SphereIndex.Proofs.Index.Division
import SphereIndex.Proofs.Index.Reachable

/-!
# A smaller limit refines an index

A cell that is divided under a limit is divided under every smaller one.  So a path after which the
division stops passes a node at which it stops under a larger limit, and there the cell lists all the
edges that are left further down.
-/

namespace SphereIndex

variable {α : Type} [Scalar α] {limit limit' : Nat}

namespace Subdivision

theorem Divides.mono {α : Type} {level : Nat} {edges : List (CellEdge α)} (hle : limit ≤ limit')
    (h : Divides limit' level edges) : Divides limit level edges :=
  ⟨h.1, Nat.lt_of_le_of_lt hle h.2⟩

/-- **Under a larger limit the division stops on the way.** -/
theorem StopsAfter.exists_shorter {c : PaddedCell α} {edges : List (CellEdge α)} {path : List Digit}
    (h : StopsAfter limit c edges path) (hle : limit ≤ limit') :
    ∃ p q, path = p ++ q ∧ StopsAfter limit' c edges p := by
  induction path generalizing c edges with
  | nil =>
    obtain ⟨hstops, hne⟩ := stopsAfter_nil.1 h
    exact ⟨[], [], rfl, stopsAfter_nil.2 ⟨fun hd => hstops (hd.mono hle), hne⟩⟩
  | cons d path ih =>
    by_cases hd : Divides limit' c.level edges
    · obtain ⟨p, q, rfl, hp⟩ := ih (stopsAfter_cons.1 h).2
      exact ⟨d :: p, q, rfl, stopsAfter_cons.2 ⟨hd, hp⟩⟩
    · exact ⟨[], d :: path, rfl, stopsAfter_nil.2 ⟨hd, ne_nil_of_clipAlong h.ne_nil⟩⟩

/-- Going on along a path leaves no other edges. -/
theorem labels_clipAlong_append_subset (c : PaddedCell α) (edges : List (CellEdge α))
    (p q : List Digit) :
    labels (clipAlong c edges (p ++ q)) ⊆ labels (clipAlong c edges p) := by
  obtain ⟨c', hsplit⟩ := clipAlong_append c edges p q
  rw [hsplit]
  exact (labels_sublist (clipAlong_sublist c' _ q)).subset

end Subdivision

namespace ShapeIndex

open Subdivision

/-- The cell contains the other one and lists, for every shape, at least the same edges. -/
structure Covers (t s : StoredCell) : Prop where
  contains : t.id.Contains s.id
  edges_subset : ∀ shape, s.content.edgesOf shape ⊆ t.content.edgesOf shape

theorem cellsOf_refines {o : IndexOptions α} (hle : o.maxEdgesPerCell ≤ limit)
    {shapes : Array (Shape α)} {s : StoredCell} (hs : s ∈ cellsOf o shapes) :
    ∃ t ∈ cellsOf { o with maxEdgesPerCell := limit } shapes, Covers t s := by
  obtain ⟨f, path, hstop, rfl⟩ := mem_cellsOf_iff.1 hs
  have hlength := hstop.length_le (PaddedCell.level_ofFace f o.cellPadding)
  obtain ⟨p, q, rfl, hp⟩ := hstop.exists_shorter hle
  -- The options differ in the limit only, so the edges are clipped alike.
  have ht : storedAt (.ofFace f o.cellPadding) (cellEdges o shapes f) p ∈
      cellsOf { o with maxEdgesPerCell := limit } shapes := mem_cellsOf_iff.2 ⟨f, p, hp, rfl⟩
  refine ⟨_, ht, ?_, fun shape e he => ?_⟩
  · rw [id_storedAt, id_storedAt]
    exact CellId.ofPath_contains_append f hlength
  · rw [Content.mem_edgesOf_iff (cellsOf_content hs).grouped] at he
    rw [Content.mem_edgesOf_iff (cellsOf_content ht).grouped]
    change _ ∈ Content.ungroup (Content.group (labels _)) at he
    change _ ∈ Content.ungroup (Content.group (labels _))
    rw [Content.ungroup_group] at he ⊢
    exact labels_clipAlong_append_subset _ _ p q he

end ShapeIndex

theorem IndexOptions.validate_limit {o : IndexOptions α} (ho : o.validate = .ok o)
    (hle : o.maxEdgesPerCell ≤ limit) :
    { o with maxEdgesPerCell := limit }.validate = .ok { o with maxEdgesPerCell := limit } := by
  have hpos : o.maxEdgesPerCell ≠ 0 := by
    intro hzero
    rw [validate, if_pos hzero] at ho
    cases ho
  have hlimit : limit ≠ 0 := by omega
  rw [validate, if_neg hpos] at ho
  rw [validate, if_neg hlimit]
  split at ho
  · cases ho
  · rename_i hpadding
    split at ho
    · cases ho
    · rename_i hratio
      exact (if_neg hpadding).trans (if_neg hratio)

namespace ShapeIndex

open Subdivision

/-- **A smaller limit refines the index.**  With options that make sense both indexes are built, and
every cell of the one with the smaller limit lies in a cell of the other one that lists, for every
shape, all the edges that it lists. -/
theorem build_refines {o : IndexOptions α} (ho : o.validate = .ok o)
    (hle : o.maxEdgesPerCell ≤ limit) (shapes : List (Shape α)) :
    ∃ x y, build shapes o = .ok x ∧ build shapes { o with maxEdgesPerCell := limit } = .ok y ∧
      ∀ c ∈ x.cells, ∃ d ∈ y.cells, d.id.Contains c.id ∧
        ∀ shape, c.content.edgesOf shape ⊆ d.content.edgesOf shape := by
  have hlimit := IndexOptions.validate_limit ho hle
  refine ⟨_, _, build_eq ho shapes, build_eq hlimit shapes, fun c hc => ?_⟩
  obtain ⟨d, hd, hcovers⟩ := cellsOf_refines hle (List.mem_toArray.1 hc)
  exact ⟨d, List.mem_toArray.2 hd, hcovers.contains, hcovers.edges_subset⟩

/-- A shape of one edge that begins and ends at the same point. -/
def pointShape (p : Vec3 Float) : Shape Float := ⟨#[⟨p, p⟩]⟩

/-- Points in opposite quadrants of a face. -/
def oppositePoints : List (Shape Float) :=
  [pointShape ⟨0.64, 0.48, 0.6⟩, pointShape ⟨0.64, -0.48, -0.6⟩]

/-- The default options with a limit of one edge. -/
def singleEdges : IndexOptions Float := { IndexOptions.default with maxEdgesPerCell := 1 }

/-- The face of both points is divided at a limit of one edge, but not at a limit of two. -/
theorem oppositePoints_stop :
    StopsAfter 1 (.ofFace .xPos singleEdges.cellPadding)
      (cellEdges singleEdges oppositePoints.toArray .xPos) [2] ∧
    StopsAfter 2 (.ofFace .xPos singleEdges.cellPadding)
      (cellEdges singleEdges oppositePoints.toArray .xPos) [] := by
  have hchild : (clipAlong (.ofFace .xPos singleEdges.cellPadding)
      (cellEdges singleEdges oppositePoints.toArray .xPos) [2]).length = 1 := by decide +kernel
  have hface : (cellEdges singleEdges oppositePoints.toArray .xPos).length = 2 := by decide +kernel
  refine ⟨stopsAfter_cons.2 ⟨by decide +kernel, stopsAfter_nil.2 ⟨by decide +kernel, ?_⟩⟩,
    stopsAfter_nil.2 ⟨by decide +kernel, ?_⟩⟩
  · exact List.ne_nil_of_length_pos (Nat.lt_of_lt_of_eq Nat.zero_lt_one hchild.symm)
  · exact List.ne_nil_of_length_pos (Nat.lt_of_lt_of_eq Nat.two_pos hface.symm)

/-- A quadrant with one of the points lies in the whole face that is stored at the larger limit. -/
theorem build_points_refines :
    singleEdges.validate = .ok singleEdges ∧ singleEdges.maxEdgesPerCell ≤ 2 ∧
    ∃ x y, build oppositePoints singleEdges = .ok x ∧
      build oppositePoints { singleEdges with maxEdgesPerCell := 2 } = .ok y ∧
      (∃ c ∈ x.cells, c.id = .ofPath .xPos [2]) ∧ (∃ d ∈ y.cells, d.id = .ofFace .xPos) ∧
      ∀ c ∈ x.cells, ∃ d ∈ y.cells, d.id.Contains c.id ∧
        ∀ shape, c.content.edgesOf shape ⊆ d.content.edgesOf shape := by
  have ho : singleEdges.validate = .ok singleEdges := by
    unfold IndexOptions.validate
    rw [if_neg (by decide), if_neg (by decide +kernel), if_neg (by decide +kernel)]
  have hle : singleEdges.maxEdgesPerCell ≤ 2 := by decide
  obtain ⟨x, y, hx, hy, hrefines⟩ := build_refines ho hle oppositePoints
  obtain rfl := Except.ok.inj (hx.symm.trans (build_eq ho oppositePoints))
  obtain rfl := Except.ok.inj (hy.symm.trans
    (build_eq (IndexOptions.validate_limit ho hle) oppositePoints))
  obtain ⟨hone, htwo⟩ := oppositePoints_stop
  have hquadrant : _ ∈ cellsOf singleEdges oppositePoints.toArray :=
    mem_cellsOf_iff.2 ⟨.xPos, [2], hone, rfl⟩
  have hface : _ ∈ cellsOf { singleEdges with maxEdgesPerCell := 2 } oppositePoints.toArray :=
    mem_cellsOf_iff.2 ⟨.xPos, [], htwo, rfl⟩
  exact ⟨ho, hle, _, _, hx, hy, ⟨_, List.mem_toArray.2 hquadrant, id_storedAt _ _ _ _⟩,
    ⟨_, List.mem_toArray.2 hface, id_storedAt _ _ _ _⟩, hrefines⟩

end ShapeIndex

end SphereIndex
