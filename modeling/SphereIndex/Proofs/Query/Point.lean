import SphereIndex.Proofs.Query.Ends
import SphereIndex.Proofs.Query.Root

/-!
# An edge that is a point

The search for an edge from a point to itself is a lookup of the point.  The point on its face is
owned by its leaf cell.  So the walk follows the cells over that leaf: it ends at the stored one
among them, or arrives at the leaf and finds nothing there.
-/

namespace SphereIndex

/-! ## 1. The walk to a leaf cell -/

namespace Walk

variable {cells : Array StoredCell} {a b p : Vec2 ℝ} {f : Face} {r : CellRelation}
  {o : Option StoredCell}

/-- **The walk with a bound that is a point** finds what a search for the leaf cell there finds. -/
theorem visit_point (hcells : StoredInOrder cells.toList) (hp : ∀ axis, |p.along axis| ≤ 1)
    (hl : Cursor.Located cells (.leafOf f p) r o) :
    (r = .indexed ∧ ∃ s, o = some s ∧ visit cells a b (.ofFace f 0) (.point p) = [s]) ∨
    (r ≠ .indexed ∧ visit cells a b (.ofFace f 0) (.point p) = []) := by
  have hleaf := CellId.isValid_leafOf f p
  have howns := CellId.leafOf_owns f hp
  have hexact : (PaddedCell.ofFace f (0 : ℝ)).Exact := PaddedCell.exact_ofId (.ofFace f) le_rfl
  have hface : (CellId.ofFace f).Contains (.leafOf f p) :=
    hleaf.contains_of_faceNumber (CellId.faceNumber_leafOf f p)
  have hid := PaddedCell.id_ofFace f (0 : ℝ)
  cases hl with
  | @indexed s hs hsl =>
    have hvalid := hcells.isValid s (Array.mem_toList_iff.2 hs)
    have hbelow := hvalid.face_contains hleaf hsl hface
    have hsowns := howns.of_contains hvalid hleaf hsl
    exact .inl ⟨rfl, s, rfl, visitBy_of_owns hcells hexact hs (hid ▸ hbelow) hsowns hsowns⟩
  | @subdivided s hs hls hne _ =>
    -- Below a leaf cell there is only the cell itself.
    have hvalid := hcells.isValid s (Array.mem_toList_iff.2 hs)
    have hlevel : ¬(CellId.leafOf f p).level < maxLevel :=
      Nat.not_lt.2 (CellId.level_leafOf f p).ge
    exact absurd (hleaf.eq_of_contains_leaf hlevel hvalid hls) hne
  | disjoint _ above below =>
    -- The walk arrives at the leaf cell, and there is nothing below it.
    have harrive : visit cells a b (.ofFace f 0) (.point p) =
        visit cells a b (.ofId (.leafOf f p) _) (.point p) :=
      Eq.trans (visitBy_eq_ofId hcells hexact hleaf (hid ▸ hface) howns howns
        fun s hs hsl => absurd hsl (above s hs)) rfl
    refine .inr ⟨CellRelation.noConfusion, harrive.trans ?_⟩
    refine visitBy_eq_nil hcells (PaddedCell.onTree_ofId hleaf _) ?_
    rwa [PaddedCell.id_ofId]

end Walk

/-! ## 2. The cells of a point -/

namespace EdgeQuery

variable {q : EdgeQuery ℝ}

/-- **The search for an edge that is a point is a lookup of the point.**  It ends, and finds nothing if
the point lies in no stored cell, and otherwise the one cell on which the lookup leaves the cursor. -/
theorem cells_of_point (h : StoredInOrder q.index.cells.toList) (p : Vec3 ℝ) (pos : Nat) :
    (((Cursor.mk q.index.cells pos).locatePoint p).1 = false →
      (q.cells? p p).map (·.1) = some []) ∧
    (((Cursor.mk q.index.cells pos).locatePoint p).1 = true →
      ∃ s, ((Cursor.mk q.index.cells pos).locatePoint p).2.current? = some s ∧
        (q.cells? p p).map (·.1) = some [s]) := by
  have hon (axis : Axis) := Face.abs_project_le p axis
  have hlocated : Cursor.Located q.index.cells (.ofPoint p)
      ((Cursor.mk q.index.cells pos).locate (.ofPoint p)).1
      ((Cursor.mk q.index.cells pos).locate (.ofPoint p)).2.current? :=
    Cursor.locate_located (c := ⟨q.index.cells, pos⟩) h (CellId.isValid_leafOf _ _)
  rw [Cursor.locatePoint_eq (c := ⟨q.index.cells, pos⟩) h, cells?_fst, report?_of_face q rfl rfl,
    segmentCells_eq_visit h fun axis => ⟨hon axis, hon axis⟩, Rect.ofPair_self]
  rcases Walk.visit_point h hon hlocated with ⟨hr, s, hs, hfound⟩ | ⟨hr, hfound⟩
  · rw [hr, hs]
    exact ⟨fun hfalse => Bool.noConfusion hfalse, fun _ => ⟨s, rfl, congrArg some hfound⟩⟩
  · exact ⟨fun _ => congrArg some hfound, fun htrue => absurd (of_decide_eq_true htrue) hr⟩

/-- The center of a face is a corner of both quarters that are stored there: the lookup and the
search agree on the upper one. -/
theorem cells_of_center : StoredInOrder quartersQuery.index.cells.toList ∧
    ((Cursor.mk quartersQuery.index.cells 2).locatePoint (⟨1, 0, 0⟩ : Vec3 ℝ)).1 = true ∧
    ((Cursor.mk quartersQuery.index.cells 2).locatePoint (⟨1, 0, 0⟩ : Vec3 ℝ)).2.current? =
      some (Walk.quarter true) ∧
    (quartersQuery.cells? ⟨1, 0, 0⟩ ⟨1, 0, 0⟩).map (·.1) = some [Walk.quarter true] := by
  have hindex : StoredInOrder quartersQuery.index.cells.toList := Walk.quarters_inOrder
  have hface : Face.ofPoint (⟨1, 0, 0⟩ : Vec3 ℝ) = .xPos :=
    Face.xPos.ofPoint_lift (e := ⟨0, 0⟩) (abs_zero.trans_lt one_pos) (abs_zero.trans_lt one_pos)
  have hon (axis : Axis) := Face.abs_project_le (⟨1, 0, 0⟩ : Vec3 ℝ) axis
  have howns : (Walk.quarter true).id.Owns (Face.project .xPos (⟨1, 0, 0⟩ : Vec3 ℝ)) := by
    intro axis
    have hzero : (Face.project .xPos (⟨1, 0, 0⟩ : Vec3 ℝ)).along axis = 0 := by
      cases axis <;> exact zero_div 1
    rw [Walk.quarter_bound, if_pos rfl, hzero]
    exact ⟨le_rfl, .inl one_pos⟩
  have hfound : (quartersQuery.cells? ⟨1, 0, 0⟩ ⟨1, 0, 0⟩).map (·.1) =
      some [Walk.quarter true] := by
    rw [cells?_fst, report?_of_face quartersQuery rfl rfl,
      segmentCells_eq_visit hindex fun axis => ⟨hon axis, hon axis⟩, Rect.ofPair_self, hface]
    refine congrArg some (Walk.visitBy_of_owns hindex
      (PaddedCell.exact_ofId (.ofFace .xPos) le_rfl) ?_ ?_ howns howns)
    · exact Array.mem_of_getElem? (i := 1) rfl
    · rw [PaddedCell.id_ofFace]
      decide +kernel
  obtain ⟨hnone, hsome⟩ := cells_of_point hindex ⟨1, 0, 0⟩ 2
  rw [hfound] at hnone hsome
  have hlocated := Bool.of_not_eq_false fun hfalse =>
    List.cons_ne_nil _ _ (Option.some.inj (hnone hfalse))
  obtain ⟨s, hs, heq⟩ := hsome hlocated
  refine ⟨hindex, hlocated, ?_, hfound⟩
  rw [hs, (List.cons.inj (Option.some.inj heq)).1]

end EdgeQuery

end SphereIndex
