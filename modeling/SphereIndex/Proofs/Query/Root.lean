import Mathlib.Tactic.NormNum
import SphereIndex.Proofs.Query.Discover

/-!
# The cell at which the search starts

A segment that stays in one quadrant of a cell is not split there.  So a walk from the face passes
through the cells around the root one after another and arrives at the root with the whole segment:
to start at the root, or at the stored cell over it, finds the same cells in the same order.
-/

namespace SphereIndex

/-! ## 1. One cell -/

namespace Walk

variable {rule : Interpolation ℝ} {cells : Array StoredCell} {a b center : Vec2 ℝ}
  {bound : Rect ℝ} {c : PaddedCell ℝ} {s : StoredCell} {r : CellId}

theorem column_of_same_side {v : ℝ} {j : Bool} (i : Bool) (hlo : decide (v ≤ bound.y.lo) = j)
    (hhi : decide (v ≤ bound.y.hi) = j) : column rule a b v i bound = [(⟨i, j⟩, bound)] := by
  cases j with
  | false => exact column_of_hi_lt i (not_le.1 (of_decide_eq_false hhi))
  | true =>
    exact column_of_le_lo i (not_lt.2 (of_decide_eq_true hhi)) (of_decide_eq_true hlo)

/-- **A bound with both corners in one quadrant is not split.** -/
theorem quadrants_of_same_quadrant {q : Quadrant} (hlo : quadrantAt center bound.lo = q)
    (hhi : quadrantAt center bound.hi = q) : quadrants rule a b center bound = [(q, bound)] := by
  obtain ⟨i, j⟩ := q
  have hxlo : decide (center.x ≤ bound.x.lo) = i := (Quadrant.mk.inj hlo).1
  have hxhi : decide (center.x ≤ bound.x.hi) = i := (Quadrant.mk.inj hhi).1
  have hcolumn : column rule a b center.y i bound = [(⟨i, j⟩, bound)] :=
    column_of_same_side i (Quadrant.mk.inj hlo).2 (Quadrant.mk.inj hhi).2
  unfold quadrants
  cases i with
  | false => rw [if_pos (not_le.1 (of_decide_eq_false hxhi)), hcolumn]
  | true =>
    rw [if_neg (not_lt.2 (of_decide_eq_true hxhi)), if_pos (of_decide_eq_true hxlo), hcolumn]

theorem visitBy_of_stored (hcells : StoredInOrder cells.toList) (hs : s ∈ cells)
    (hid : s.id = c.id) : visitBy rule cells a b c bound = [s] := by
  have hvalid := hcells.isValid s (Array.mem_toList_iff.2 hs)
  obtain ⟨z, hz, hget, hcz, -⟩ := hcells.exists_lowerBound (c := c.id) hs
    (hid ▸ hvalid.contains_self)
  have hzvalid := hcells.isValid z (Array.mem_toList_iff.2 hz)
  obtain rfl := hcells.eq_of_contains hs hz hzvalid (hid ▸ hcz) hzvalid.contains_self
  rw [visitBy, hget]
  dsimp only
  have hnot : ¬c.id.rangeMax < s.id := UInt64.not_lt.2 hcz.2
  rw [if_neg hnot, if_pos hid]

/-- **One step down**: a bound in one quadrant goes to the child there as it is. -/
theorem visitBy_eq_child (hcells : StoredInOrder cells.toList) (hc : c.OnTree)
    (hl : c.level < maxLevel) {q : Quadrant} (hlo : quadrantAt c.center bound.lo = q)
    (hhi : quadrantAt c.center bound.hi = q) (hno : ∀ s ∈ cells, s.id ≠ c.id) :
    visitBy rule cells a b c bound = visitBy rule cells a b (c.child q) bound := by
  have hchild := hc.child hl q
  -- If the search finds nothing below the cell, nothing lies below the child.
  have hnil (h : ∀ s ∈ cells, ¬c.id.Contains s.id) :
      [] = visitBy rule cells a b (c.child q) bound := by
    refine (visitBy_eq_nil hcells hchild fun s hs hbelow => h s hs ?_).symm
    have hvalid := hcells.isValid s (Array.mem_toList_iff.2 hs)
    exact hc.isValid.contains_trans hchild.isValid hvalid
      (hc.isValid.contains_child (hc.level_eq ▸ hl) _) hbelow
  rw [visitBy]
  split
  · rename_i hnone
    refine hnil (hcells.not_contains_of_first fun z hz => ?_)
    rw [hnone] at hz
    cases hz
  · rename_i z hz
    split
    · rename_i hbeyond
      refine hnil (hcells.not_contains_of_first fun z' hz' => ?_)
      obtain rfl := Option.some.inj (hz.symm.trans hz')
      exact UInt64.not_le.2 hbeyond
    · rw [if_neg (hno z (Array.mem_of_getElem? hz)), quadrants_of_same_quadrant hlo hhi,
        List.flatMap_singleton]

/-- **The walk arrives at a cell with the whole bound**, if the cell owns both corners and no other
stored cell lies over it. -/
theorem visitBy_eq_ofId (hcells : StoredInOrder cells.toList) (hc : c.Exact) (hr : r.IsValid)
    (hcr : c.id.Contains r) (hlo : r.Owns bound.lo) (hhi : r.Owns bound.hi)
    (hno : ∀ s ∈ cells, s.id.Contains r → s.id = r) :
    visitBy rule cells a b c bound = visitBy rule cells a b (.ofId r c.padding) bound := by
  induction hn : maxLevel - c.level generalizing c with
  | zero =>
    -- Below a leaf cell there is only the cell itself.
    have hl : ¬c.id.level < maxLevel := by
      rw [← hc.level_eq]
      omega
    have hid := hc.isValid.eq_of_contains_leaf hl hr hcr
    exact congrArg (visitBy rule cells a b · bound) (hc.eq_ofId hid)
  | succ n ih =>
    by_cases hid : r = c.id
    · exact congrArg (visitBy rule cells a b · bound) (hc.eq_ofId hid)
    · have hl : c.level < maxLevel := by omega
      obtain ⟨-, d, hd⟩ := hc.isValid.exists_child_contains hr hcr hid
      have hchild := hc.child hl (c.orientation.quadrant d)
      have hcontains : (c.child (c.orientation.quadrant d)).id.Contains r := by
        rwa [PaddedCell.id_child, Orientation.digit_quadrant]
      have hside {p : Vec2 ℝ} (hp : r.Owns p) :
          quadrantAt c.center p = c.orientation.quadrant d :=
        quadrantAt_of_owns hc.toPlaced hl (hp.of_contains hchild.isValid hr hcontains)
      have hnone : ∀ s ∈ cells, s.id ≠ c.id := by
        intro s hs heq
        exact hid ((hno s hs (heq ▸ hcr)).symm.trans heq)
      rw [visitBy_eq_child hcells hc.toOnTree hl (hside hlo) (hside hhi) hnone]
      refine ih hchild hcontains ?_
      rw [PaddedCell.level_child]
      omega

/-- **A stored cell over the whole bound is all that is found.** -/
theorem visitBy_of_owns (hcells : StoredInOrder cells.toList) (hc : c.Exact) (hs : s ∈ cells)
    (hcs : c.id.Contains s.id) (hlo : s.id.Owns bound.lo) (hhi : s.id.Owns bound.hi) :
    visitBy rule cells a b c bound = [s] := by
  have hvalid := hcells.isValid s (Array.mem_toList_iff.2 hs)
  have hno : ∀ z ∈ cells, z.id.Contains s.id → z.id = s.id := fun z hz hzs =>
    congrArg _ (hcells.eq_of_contains hz hs hvalid hzs hvalid.contains_self)
  rw [visitBy_eq_ofId hcells hc hvalid hcs hlo hhi hno]
  exact visitBy_of_stored hcells hs (PaddedCell.id_ofId _ _).symm

end Walk

/-! ## 2. The root of a segment -/

theorem Interval.ofPair_within {x y : ℝ} (hx : |x| ≤ 1) (hy : |y| ≤ 1) :
    (ofPair x y).lo ≤ (ofPair x y).hi ∧ |(ofPair x y).lo| ≤ 1 ∧ |(ofPair x y).hi| ≤ 1 := by
  unfold ofPair
  split
  · rename_i h
    exact ⟨h, hx, hy⟩
  · rename_i h
    exact ⟨(not_le.1 h).le, hy, hx⟩

theorem Rect.meets_of_along {r s : Rect ℝ} (h : ∀ axis, (r.along axis).Meets (s.along axis)) :
    r.Meets s := ⟨h .u, h .v⟩

/-- Both ends lie on the square of the face. -/
def FaceSegment.OnFace (s : FaceSegment ℝ) : Prop :=
  ∀ axis, |s.a.along axis| ≤ 1 ∧ |s.b.along axis| ≤ 1

namespace FaceSegment

variable {s : FaceSegment ℝ}

theorem OnFace.bound_within (h : s.OnFace) (axis : Axis) :
    ((Rect.ofPair s.a s.b).along axis).lo ≤ ((Rect.ofPair s.a s.b).along axis).hi ∧
    |((Rect.ofPair s.a s.b).along axis).lo| ≤ 1 ∧ |((Rect.ofPair s.a s.b).along axis).hi| ≤ 1 := by
  have hwithin := Interval.ofPair_within (h axis).1 (h axis).2
  cases axis <;> exact hwithin

end FaceSegment

namespace EdgeQuery

variable {cells : Array StoredCell} {segment : FaceSegment ℝ} {q : EdgeQuery ℝ}

/-- The root of a segment is a cell of the face, with the corners of its bound. -/
theorem rootOf_owns (h : segment.OnFace) : (rootOf segment).IsValid ∧
    (CellId.ofFace segment.face).Contains (rootOf segment) ∧
    (rootOf segment).Owns (Rect.ofPair segment.a segment.b).lo ∧
    (rootOf segment).Owns (Rect.ofPair segment.a segment.b).hi := by
  have hface {p : Vec2 ℝ} : (CellId.ofFace segment.face).Contains (CellId.leafOf segment.face p) :=
    (CellId.isValid_leafOf _ _).contains_of_faceNumber (CellId.faceNumber_leafOf _ _)
  have howns {p : Vec2 ℝ} (hin : (Rect.ofPair segment.a segment.b).Contains p)
      (hp : ∀ axis, |p.along axis| ≤ 1) : (rootOf segment).Owns p := by
    obtain ⟨hroot, hleaf⟩ := rootOf_contains_leafOf hin
    exact (CellId.leafOf_owns segment.face hp).of_contains hroot (CellId.isValid_leafOf _ _) hleaf
  have hlo : (Rect.ofPair segment.a segment.b).Contains (Rect.ofPair segment.a segment.b).lo :=
    ⟨⟨le_rfl, (h.bound_within .u).1⟩, ⟨le_rfl, (h.bound_within .v).1⟩⟩
  have hhi : (Rect.ofPair segment.a segment.b).Contains (Rect.ofPair segment.a segment.b).hi :=
    ⟨⟨(h.bound_within .u).1, le_rfl⟩, ⟨(h.bound_within .v).1, le_rfl⟩⟩
  obtain ⟨hroot, hleaf⟩ := rootOf_contains_leafOf hlo
  refine ⟨hroot, hroot.face_contains (CellId.isValid_leafOf _ _) hleaf hface, howns hlo ?_,
    howns hhi ?_⟩
  · intro axis
    cases axis with
    | u => exact (h.bound_within .u).2.1
    | v => exact (h.bound_within .v).2.1
  · intro axis
    cases axis with
    | u => exact (h.bound_within .u).2.2
    | v => exact (h.bound_within .v).2.2

/-- **The search finds what the walk from the face finds**, however the root lies. -/
theorem segmentCells_eq_visit (h : StoredInOrder cells.toList) (hs : segment.OnFace) :
    segmentCells cells segment = Walk.visit cells segment.a segment.b (.ofFace segment.face 0)
      (Rect.ofPair segment.a segment.b) := by
  obtain ⟨hroot, hface, hlo, hhi⟩ := rootOf_owns hs
  have hexact : (PaddedCell.ofFace segment.face (0 : ℝ)).Exact :=
    PaddedCell.exact_ofId (.ofFace _) le_rfl
  have hid := PaddedCell.id_ofFace segment.face (0 : ℝ)
  have hlocated := Cursor.locate_located (c := .start cells) h hroot
  have hcells := Cursor.cells_locate (Cursor.start cells) (rootOf segment)
  unfold segmentCells
  generalize (Cursor.start cells).locate (rootOf segment) = found at hlocated hcells
  obtain ⟨r, c⟩ := found
  change c.cells = cells at hcells
  change Cursor.Located cells (rootOf segment) r c.current? at hlocated
  -- Unless a stored cell lies over the root, the walk from the face arrives there.
  have harrive (hr : r ≠ .indexed) : Walk.visit cells segment.a segment.b
      (.ofFace segment.face 0) (Rect.ofPair segment.a segment.b) = Walk.visit cells segment.a
        segment.b (.ofId (rootOf segment) 0) (Rect.ofPair segment.a segment.b) := by
    refine (Walk.visitBy_eq_ofId h hexact hroot (hid ▸ hface) hlo hhi fun s hs hsr => ?_).trans ?_
    · exact absurd (hlocated.of_contains h hroot hs hsr).1 hr
    · rw [PaddedCell.padding_ofFace]
      rfl
  generalize hcurrent : c.current? = o at hlocated
  cases hlocated with
  | @indexed s hs hsr =>
    have hvalid := h.isValid s (Array.mem_toList_iff.2 hs)
    have hbelow := hvalid.face_contains hroot hsr hface
    change c.current?.toList = _
    rw [hcurrent]
    exact (Walk.visitBy_of_owns h hexact hs (hid ▸ hbelow) (hlo.of_contains hvalid hroot hsr)
      (hhi.of_contains hvalid hroot hsr)).symm
  | subdivided =>
    rw [harrive CellRelation.noConfusion, ← hcells]
    rfl
  | disjoint _ _ below =>
    rw [harrive CellRelation.noConfusion]
    refine (Walk.visitBy_eq_nil h (PaddedCell.onTree_ofId hroot 0) ?_).symm
    rwa [PaddedCell.id_ofId]

/-! ## 3. Edges on one face -/

theorem meets_bound (h : segment.OnFace) :
    (PaddedCell.ofFace segment.face (0 : ℝ)).bound.Meets (Rect.ofPair segment.a segment.b) := by
  refine Rect.meets_of_along fun axis => ?_
  obtain ⟨hle, hlo, -⟩ := h.bound_within axis
  obtain ⟨hmin, hmax⟩ := abs_le.1 hlo
  rw [PaddedCell.ofFace_bound_along, add_zero]
  exact (if_pos hmin).mpr ⟨hmax, hle⟩

theorem report?_of_face {α : Type} [Scalar α] (q : EdgeQuery α) {a b : Vec3 α} {f : Face}
    (ha : Face.ofPoint a = f) (hb : Face.ofPoint b = f) :
    q.report? a b = some (1, segmentCells q.index.cells ⟨f, f.project a, f.project b⟩) := by
  rw [report?_eq, Arc.faceSegments_of_face ha hb]
  exact congrArg (fun cells => some (1, cells)) (List.append_nil _)

/-- **Where the search starts makes no difference.**  From any position of the cursor, and whatever
was found before, it finds for a segment on a face the cells that a walk from the face finds, in the
same order.  So for an edge with both ends on one face the query returns the cells that are found from
that face as root. -/
theorem cells_independent_of_root (h : StoredInOrder q.index.cells.toList) :
    (∀ (segment : FaceSegment ℝ) (s : Walk.Search), segment.OnFace → s.cursor.cells = q.index.cells →
      (searchSegment s segment).found =
        (Walk.search Planar.interpolate segment.a segment.b (.ofFace segment.face 0)
          (Rect.ofPair segment.a segment.b) s).found) ∧
    ∀ (a b : Vec3 ℝ) (f : Face) (list : List StoredCell), Face.ofPoint a = f → Face.ofPoint b = f →
      (q.cells? a b).map (·.1) = some (q.fillCellsInRoot a b (.ofFace f 0) list).1.result := by
  refine ⟨fun segment s hon hs => ?_, fun a b f list ha hb => ?_⟩
  · rw [(searchSegment_finds hs segment).found_eq, (Walk.search_finds _ _ _ _ _ hs).found_eq,
      segmentCells_eq_visit h hon, Walk.visit]
  · have hclip : Arc.clipToFace? f (0 : ℝ) a b = some (f.project a, f.project b) :=
      if_pos ⟨ha, hb⟩
    have hface : (PaddedCell.ofFace f (0 : ℝ)).id.face? = some f := by
      rw [PaddedCell.id_ofFace]
      cases f <;> rfl
    have hon : (FaceSegment.mk f (f.project a) (f.project b)).OnFace := fun axis =>
      ⟨ha ▸ Face.abs_project_le a axis, hb ▸ Face.abs_project_le b axis⟩
    have hbelow : cellsBelow a b q.index.cells (.ofFace f 0) = Walk.visit q.index.cells
        (f.project a) (f.project b) (.ofFace f 0) (Rect.ofPair (f.project a) (f.project b)) := by
      rw [cellsBelow_of_clip a b hface hclip]
      exact if_pos (meets_bound hon)
    rw [cells?_fst, report?_of_face q ha hb, segmentCells_eq_visit h hon, fillCellsInRoot_fst, hbelow]
    rfl

noncomputable def quartersQuery : EdgeQuery ℝ :=
  ofIndex ⟨.default, #[], Walk.quarters, 0, ⟨0, 0, 2, 1⟩⟩ .default

/-- The root of a segment within the upper right quarter lies below the stored cell. -/
theorem cells_of_upper_quarter : StoredInOrder quartersQuery.index.cells.toList ∧
    (FaceSegment.mk .xPos (⟨1 / 4, 1 / 4⟩ : Vec2 ℝ) ⟨1 / 2, 1 / 2⟩).OnFace ∧
    (searchSegment quartersQuery.begin (.mk .xPos (⟨1 / 4, 1 / 4⟩ : Vec2 ℝ) ⟨1 / 2, 1 / 2⟩)).found =
      [Walk.quarter true] ∧
    Face.ofPoint (⟨1, 1 / 4, 1 / 4⟩ : Vec3 ℝ) = .xPos ∧
    Face.ofPoint (⟨1, 1 / 2, 1 / 2⟩ : Vec3 ℝ) = .xPos ∧
    (quartersQuery.cells? ⟨1, 1 / 4, 1 / 4⟩ ⟨1, 1 / 2, 1 / 2⟩).map (·.1) =
      some (quartersQuery.fillCellsInRoot ⟨1, 1 / 4, 1 / 4⟩ ⟨1, 1 / 2, 1 / 2⟩ (.ofFace .xPos 0)
        [Walk.quarter false]).1.result := by
  have hindex : StoredInOrder quartersQuery.index.cells.toList := Walk.quarters_inOrder
  have hon : (FaceSegment.mk .xPos (⟨1 / 4, 1 / 4⟩ : Vec2 ℝ) ⟨1 / 2, 1 / 2⟩).OnFace := by
    intro axis
    cases axis <;> norm_num [Vec2.along]
  have hface {x : ℝ} (hx : |x| < 1) : Face.ofPoint (⟨1, x, x⟩ : Vec3 ℝ) = .xPos :=
    Face.xPos.ofPoint_lift (e := ⟨x, x⟩) hx hx
  have ha := hface (x := 1 / 4) (abs_lt.2 (by norm_num))
  have hb := hface (x := 1 / 2) (abs_lt.2 (by norm_num))
  obtain ⟨hsegment, hedge⟩ := cells_independent_of_root hindex
  refine ⟨hindex, hon, (hsegment _ _ hon rfl).trans ?_, ha, hb, hedge _ _ _ _ ha hb⟩
  have hbound : Rect.ofPair (⟨1 / 4, 1 / 4⟩ : Vec2 ℝ) ⟨1 / 2, 1 / 2⟩ =
      ⟨⟨1 / 4, 1 / 2⟩, ⟨1 / 4, 1 / 2⟩⟩ := by
    have hle : (1 / 4 : ℝ) ≤ 1 / 2 := by norm_num
    exact congrArg₂ Rect.mk (if_pos hle) (if_pos hle)
  have howns {x : ℝ} (h0 : 0 ≤ x) (h1 : x < 1) : (Walk.quarter true).id.Owns ⟨x, x⟩ := by
    intro axis
    rw [Walk.quarter_bound, if_pos rfl]
    cases axis with
    | u => exact ⟨h0, .inl h1⟩
    | v => exact ⟨h0, .inl h1⟩
  rw [(Walk.search_finds _ _ _ _ _ rfl).found_eq, hbound]
  refine Walk.visitBy_of_owns hindex (PaddedCell.exact_ofId (.ofFace .xPos) le_rfl) ?_ ?_ ?_ ?_
  · exact Array.mem_of_getElem? (i := 1) rfl
  · rw [PaddedCell.id_ofFace]
    decide +kernel
  · exact howns (by norm_num) (by norm_num)
  · exact howns (by norm_num) (by norm_num)

end EdgeQuery

end SphereIndex
