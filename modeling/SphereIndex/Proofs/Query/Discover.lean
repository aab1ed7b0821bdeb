import SphereIndex.Proofs.Arc.Segments
import SphereIndex.Proofs.Cell.Shrink
import SphereIndex.Proofs.Query.Walk

/-!
# The cells on an edge

The stored cell over a point of a segment contains the leaf cell of the point, and so does the root
that is shrunk to the segment.  One of the two therefore contains the other: the search finds the
stored cell itself, or the walk from the root visits it.
-/

namespace SphereIndex

open Planar

namespace EdgeQuery

variable {cells : Array StoredCell} {s : StoredCell} {segment : FaceSegment ℝ} {x : Vec3 ℝ}

/-! ## 1. What is found is stored

This holds for every arithmetic, and so whatever root and bounds it leads to. -/

section stored
variable {α : Type} [Scalar α] {q : EdgeQuery α}

theorem mem_of_mem_segmentCells {segment : FaceSegment α} (h : s ∈ segmentCells cells segment) :
    s ∈ cells := by
  have hcells := Cursor.cells_locate (Cursor.start cells) (rootOf segment)
  unfold segmentCells at h
  generalize (Cursor.start cells).locate (rootOf segment) = found at h hcells
  obtain ⟨r, c⟩ := found
  change c.cells = cells at hcells
  rw [← hcells]
  cases r with
  | indexed => exact Array.mem_of_getElem? (Option.mem_toList.1 h)
  | subdivided => exact Walk.mem_of_mem_visitBy h
  | disjoint => cases h

/-- **Every cell that a query finds is a cell of the index.** -/
theorem mem_of_report? {a b : Vec3 α} {n : Nat} {found : List StoredCell}
    (h : q.report? a b = some (n, found)) (hs : s ∈ found) : s ∈ q.index.cells := by
  rw [report?_eq] at h
  obtain ⟨segments, -, hfound⟩ := Option.map_eq_some_iff.1 h
  obtain ⟨-, rfl⟩ := Prod.mk.inj hfound
  obtain ⟨segment, -, hs⟩ := List.mem_flatMap.1 hs
  exact mem_of_mem_segmentCells hs

end stored

/-! ## 2. Every stored cell over the segment is found -/

/-- The root of a segment contains the leaf cells of all points in its bound. -/
theorem rootOf_contains_leafOf {p : Vec2 ℝ} (hp : (Rect.ofPair segment.a segment.b).Contains p) :
    (rootOf segment).IsValid ∧ (rootOf segment).Contains (CellId.leafOf segment.face p) := by
  refine PaddedCell.shrinkToFit_contains (PaddedCell.placed_ofId (.ofFace segment.face) (0 : ℝ))
    (PaddedCell.padding_ofFace _ _).ge hp ?_
  rw [PaddedCell.id_ofFace]
  exact (CellId.isValid_leafOf _ _).contains_of_faceNumber (CellId.faceNumber_leafOf _ _)

theorem rootOf_contains (hx : segment.Through x) : (rootOf segment).IsValid ∧
    (rootOf segment).Contains (CellId.leafOf segment.face (segment.face.project x)) := by
  obtain ⟨-, y, h0, h1, hy⟩ := hx
  refine rootOf_contains_leafOf ?_
  rw [Rect.contains_iff_along, ofPair_eq_partBound, hy]
  intro axis
  exact Walk.partBound_contains segment.a segment.b axis h0 h1

/-- **A stored cell over a point of the segment is found.** -/
theorem mem_segmentCells (h : StoredInOrder cells.toList) (hs : s ∈ cells)
    (hx : segment.Through x)
    (hleaf : s.id.Contains (CellId.leafOf segment.face (segment.face.project x))) :
    s ∈ segmentCells cells segment := by
  obtain ⟨hroot, hrootLeaf⟩ := rootOf_contains hx
  obtain ⟨hcone, y, h0, h1, hy⟩ := hx
  have hvalid := h.isValid s (Array.mem_toList_iff.2 hs)
  have hleafValid := CellId.isValid_leafOf segment.face (segment.face.project x)
  have hlocated := Cursor.locate_located (c := .start cells) h hroot
  have hcells := Cursor.cells_locate (Cursor.start cells) (rootOf segment)
  unfold segmentCells
  generalize (Cursor.start cells).locate (rootOf segment) = found at hlocated hcells
  obtain ⟨r, c⟩ := found
  change c.cells = cells at hcells
  -- If the root lies below `s`, the search stops there.
  have hindexed (hsr : s.id.Contains (rootOf segment)) : s ∈ cellsFrom segment (r, c) := by
    obtain ⟨rfl, hcurrent⟩ := hlocated.of_contains h hroot hs hsr
    change s ∈ c.current?.toList
    rw [hcurrent]
    exact List.mem_singleton_self s
  rcases hvalid.nested_of_contains hroot hleafValid hleaf hrootLeaf with hsr | hrs
  · exact hindexed hsr
  · by_cases hne : s.id = rootOf segment
    · exact hindexed (hne ▸ hvalid.contains_self)
    · -- Otherwise the walk from the root visits `s`, which owns the point.
      obtain rfl := hlocated.of_below h hroot hs hrs hne
      have howns := CellId.Owns.of_contains hvalid hleafValid hleaf
        (CellId.leafOf_owns _ hcone.project_le)
      rw [hy] at howns
      change s ∈ Walk.visitBy interpolate c.cells segment.a segment.b
        (.ofId (rootOf segment) 0) (Rect.ofPair segment.a segment.b)
      rw [hcells]
      refine Walk.mem_visitBy_of_owns h (PaddedCell.placed_ofId hroot 0)
        (ofPair_eq_partBound segment.a segment.b) h0 h1 hs ?_ howns
      rwa [PaddedCell.id_ofId]

end EdgeQuery

end SphereIndex
