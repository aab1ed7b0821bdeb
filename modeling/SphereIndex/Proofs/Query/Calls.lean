import SphereIndex.Proofs.Cell.Ancestors
import SphereIndex.Proofs.Query.Discover

/-!
# The calls of a walk

The walk calls itself for the quadrants of a cell as long as a stored cell lies strictly below the
cell.  Below a leaf cell there is none, so that the recursion ends there without a look at the level,
and what is found below different children of a cell is different.  All this rests on the stored ids
alone: the bounds, the centers and the rule for crossings may be anything.
-/

namespace SphereIndex

namespace Walk

variable {α : Type}

/-! ## 1. Calls -/

/-- Whether the walk goes on below a cell: the first stored cell that is not before it lies neither
beyond it nor is the cell itself. -/
def GoesOn (cells : Array StoredCell) (c : PaddedCell α) : Prop :=
  ∃ s, cells[Cursor.lowerBound cells c.id.rangeMin]? = some s ∧ ¬c.id.rangeMax < s.id ∧ s.id ≠ c.id

section calls
variable [Scalar α] (rule : Interpolation α) (cells : Array StoredCell) (a b : Vec2 α)

/-- **The calls of a walk**: their depths below the first one, their cells and their bounds. -/
inductive Visits (root : PaddedCell α) (bound : Rect α) : Nat → PaddedCell α → Rect α → Prop where
  | root : Visits root bound 0 root bound
  | child {n : Nat} {c : PaddedCell α} {r r' : Rect α} {q : Quadrant} (h : Visits root bound n c r)
      (hgo : GoesOn cells c) (hq : (q, r') ∈ quadrants rule a b c.center r) :
      Visits root bound (n + 1) (c.child q) r'

/-- What one call returns, given what the calls below it return. -/
def call? (c : PaddedCell α) (bound : Rect α)
    (below : PaddedCell α → Rect α → Option (List StoredCell)) : Option (List StoredCell) :=
  match cells[Cursor.lowerBound cells c.id.rangeMin]? with
  | none => some []
  | some s =>
    if c.id.rangeMax < s.id then some []
    else if s.id = c.id then some [s]
    else
      let found := (quadrants rule a b c.center bound).mapM fun (q, r) => below (c.child q) r
      found.map List.flatten

/-- **The walk that does not look at levels**, given up when it gets deeper than allowed. -/
def visitWithin? : Nat → PaddedCell α → Rect α → Option (List StoredCell)
  | 0, c, bound => call? rule cells a b c bound fun _ _ => none
  | depth + 1, c, bound => call? rule cells a b c bound (visitWithin? depth)

end calls

variable {cells : Array StoredCell} {c root : PaddedCell α}

/-! ## 2. Depth -/

/-- The walk goes on only if a stored cell lies strictly below the cell. -/
theorem GoesOn.exists_below (h : GoesOn cells c) (hcells : StoredInOrder cells.toList) :
    ∃ s ∈ cells, c.id.Contains s.id ∧ s.id ≠ c.id := by
  obtain ⟨s, hs, hle, hne⟩ := h
  exact ⟨s, Array.mem_of_getElem? hs, ⟨hcells.le_of_lowerBound hs, UInt64.not_lt.1 hle⟩, hne⟩

/-- **The walk does not go on below a leaf cell**, because a valid id in the range of a leaf cell is
that leaf cell. -/
theorem GoesOn.level_lt (h : GoesOn cells c) (hcells : StoredInOrder cells.toList) (hc : c.OnTree) :
    c.level < maxLevel := by
  obtain ⟨s, hs, hbelow, hne⟩ := h.exists_below hcells
  by_contra hl
  rw [hc.level_eq] at hl
  have hvalid := hcells.isValid s (Array.mem_toList_iff.2 hs)
  exact hne (hc.isValid.eq_of_contains_leaf hl hvalid hbelow)

/-- Above the quarters of a face the walk goes on only at the face. -/
theorem level_of_goesOn_quarters (hc : c.OnTree) (h : GoesOn quarters c) : c.level = 0 := by
  obtain ⟨s, hs, hbelow, hne⟩ := h.exists_below quarters_inOrder
  have hvalid := quarters_inOrder.isValid s (Array.mem_toList_iff.2 hs)
  have hlevel : ∀ s ∈ quarters.toList, s.id.level = 1 := by decide +kernel
  have hs := hlevel s (Array.mem_toList_iff.2 hs)
  obtain ⟨hle, hparent⟩ := (hc.isValid.contains_iff_parentAt hvalid).1 hbelow
  obtain ⟨-, hself⟩ := (hvalid.contains_iff_parentAt hvalid).1 hvalid.contains_self
  rw [hc.level_eq]
  by_contra h0
  have heq : c.id.level = s.id.level := by omega
  rw [heq, hself] at hparent
  exact hne hparent

variable [Scalar α] {rule : Interpolation α} {a b : Vec2 α} {r bound : Rect α} {n : Nat}

theorem Visits.onTree (h : Visits rule cells a b root bound n c r)
    (hcells : StoredInOrder cells.toList) (hroot : root.OnTree) :
    c.OnTree ∧ c.level = root.level + n := by
  induction h with
  | root => exact ⟨hroot, rfl⟩
  | child _ hgo _ ih =>
    obtain ⟨hc, hlevel⟩ := ih
    refine ⟨hc.child (hgo.level_lt hcells hc) _, ?_⟩
    rw [PaddedCell.level_child, hlevel, Nat.add_assoc]

theorem mapM_eq_some {β γ : Type} {f : β → Option γ} {g : β → γ} {xs : List β}
    (h : ∀ x ∈ xs, f x = some (g x)) : xs.mapM f = some (xs.map g) := by
  induction xs with
  | nil => rfl
  | cons x xs ih =>
    rw [List.mapM_cons, h x List.mem_cons_self, ih fun y hy => h y (List.mem_cons_of_mem _ hy)]
    rfl

/-- One call returns what the walk finds, if the calls below it do. -/
theorem call?_eq {below : PaddedCell α → Rect α → Option (List StoredCell)}
    (h : GoesOn cells c → c.level < maxLevel ∧
      ∀ q r, below (c.child q) r = some (visitBy rule cells a b (c.child q) r)) :
    call? rule cells a b c bound below = some (visitBy rule cells a b c bound) := by
  unfold call? visitBy
  cases hs : cells[Cursor.lowerBound cells c.id.rangeMin]? with
  | none => rfl
  | some s =>
    dsimp only
    by_cases hbeyond : c.id.rangeMax < s.id
    · rw [if_pos hbeyond, if_pos hbeyond]
    · rw [if_neg hbeyond, if_neg hbeyond]
      by_cases hid : s.id = c.id
      · rw [if_pos hid, if_pos hid]
      · obtain ⟨hl, hbelow⟩ := h ⟨s, hs, hbeyond, hid⟩
        rw [if_neg hid, if_neg hid, dif_pos hl, mapM_eq_some fun x _ => hbelow x.1 x.2]
        rfl

/-- **The walk ends within the levels below its root.** -/
theorem visitWithin?_eq (hcells : StoredInOrder cells.toList) (hc : c.OnTree) {depth : Nat}
    (hdepth : maxLevel ≤ c.level + depth) :
    visitWithin? rule cells a b depth c bound = some (visitBy rule cells a b c bound) := by
  induction depth generalizing c bound with
  | zero =>
    apply call?_eq
    -- No level is left, so that the cell is a leaf cell.
    intro hgo
    have hl := hgo.level_lt hcells hc
    omega
  | succ depth ih =>
    apply call?_eq
    intro hgo
    have hl := hgo.level_lt hcells hc
    refine ⟨hl, fun q r => ih (hc.child hl q) ?_⟩
    rw [PaddedCell.level_child]
    omega

/-! ## 3. Repetition -/

/-- **The cells that are found do not overlap.** -/
theorem visitBy_apart (hcells : StoredInOrder cells.toList) (hc : c.OnTree) :
    (visitBy rule cells a b c bound).Pairwise fun x y => x.id.Apart y.id := by
  fun_induction visitBy rule cells a b c bound with
  | case1 => exact .nil
  | case2 => exact .nil
  | case3 => exact List.pairwise_singleton _ _
  | case4 c bound s _ _ _ hl ih =>
    rw [List.pairwise_flatMap]
    refine ⟨fun x _ => ih x.1 x.2 (hc.child hl x.1), ?_⟩
    have hquadrants := quadrants_nodup rule a b c.center bound
    rw [List.Nodup, List.pairwise_map] at hquadrants
    refine hquadrants.imp fun {p q} hpq x hx y hy => ?_
    -- What is found below a child lies in it, and the children are apart.
    obtain ⟨hxmem, hpx⟩ := stored_of_mem_visitBy hcells (hc.child hl p.1) hx
    obtain ⟨hymem, hqy⟩ := stored_of_mem_visitBy hcells (hc.child hl q.1) hy
    exact hc.apart_of_children hl hpq (hcells.isValid x (Array.mem_toList_iff.2 hxmem))
      (hcells.isValid y (Array.mem_toList_iff.2 hymem)) hpx hqy
  | case5 => exact .nil

theorem visitBy_nodup (hcells : StoredInOrder cells.toList) (hc : c.OnTree) :
    ((visitBy rule cells a b c bound).map (·.id)).Nodup := by
  rw [List.Nodup, List.pairwise_map]
  refine (visitBy_apart hcells hc).imp_of_mem fun {x y} hx hy hxy heq => ?_
  have hxvalid := hcells.isValid x (Array.mem_toList_iff.2 (mem_of_mem_visitBy hx))
  have hyvalid := hcells.isValid y (Array.mem_toList_iff.2 (mem_of_mem_visitBy hy))
  rcases hxy with h | h
  · exact absurd (heq ▸ hxvalid.lt_of_precedes hyvalid h) (UInt64.lt_irrefl _)
  · exact absurd (heq ▸ hyvalid.lt_of_precedes hxvalid h) (UInt64.lt_irrefl _)

/-- **Nothing is found strictly inside a stored cell.** -/
theorem visitBy_of_inside (hcells : StoredInOrder cells.toList) (hc : c.OnTree) {s : StoredCell}
    (hs : s ∈ cells) (hsc : s.id.Contains c.id) (hne : s.id ≠ c.id) :
    visitBy rule cells a b c bound = [] := by
  apply visitBy_eq_nil hcells hc
  intro x hx hcx
  have hsvalid := hcells.isValid s (Array.mem_toList_iff.2 hs)
  have hxvalid := hcells.isValid x (Array.mem_toList_iff.2 hx)
  -- A stored cell below `c` lies in `s`, so that it is `s`.
  have hsx := hsvalid.contains_trans hc.isValid hxvalid hsc hcx
  obtain rfl := hcells.eq_of_contains hs hx hxvalid hsx hxvalid.contains_self
  exact hne (hsvalid.contains_antisymm hc.isValid hsc hcx)

end Walk

/-! ## 4. Queries -/

namespace EdgeQuery

variable {α : Type} [Scalar α] {cells : Array StoredCell}

theorem isValid_rootOf (segment : FaceSegment α) : (rootOf segment).IsValid :=
  PaddedCell.isValid_shrinkToFit (PaddedCell.placed_ofId (.ofFace segment.face) 0) _

theorem segmentCells_nodup (h : StoredInOrder cells.toList) (segment : FaceSegment α) :
    ((segmentCells cells segment).map (·.id)).Nodup := by
  have hcells := Cursor.cells_locate (Cursor.start cells) (rootOf segment)
  unfold segmentCells
  generalize (Cursor.start cells).locate (rootOf segment) = found at hcells
  obtain ⟨r, c⟩ := found
  change c.cells = cells at hcells
  cases r with
  | indexed =>
    change (c.current?.toList.map (·.id)).Nodup
    cases c.current? with
    | none => exact List.nodup_nil
    | some s => exact List.nodup_singleton _
  | subdivided =>
    apply Walk.visitBy_nodup (hcells ▸ h)
    exact PaddedCell.onTree_ofId (isValid_rootOf segment) 0
  | disjoint => exact List.nodup_nil

/-- **A cell is listed at most once for each segment.** -/
theorem count_segmentsCells_le (h : StoredInOrder cells.toList) (segments : List (FaceSegment α))
    (id : CellId) : ((segmentsCells cells segments).map (·.id)).count id ≤ segments.length := by
  induction segments with
  | nil => exact Nat.le_refl 0
  | cons first rest ih =>
    have hfirst := List.nodup_iff_count_le_one.1 (segmentCells_nodup h first) id
    change ((segmentCells cells first ++ segmentsCells cells rest).map (·.id)).count id ≤
      rest.length + 1
    rw [List.map_append, List.count_append]
    omega

end EdgeQuery

namespace Walk

variable {α : Type} [Scalar α] {cells : Array StoredCell} {root : PaddedCell α}

/-- **The walk ends, and finds no cell twice.**  Whatever the arithmetic, the rule for crossings and
the bound are, the walk gets as deep below its root as there are levels at most, and never goes on
below a leaf cell.  It finds stored cells below its root, each of them once, and none if the root
lies strictly inside a stored cell, from any position of the cursor.  So a query lists a cell once for
each face segment at most. -/
theorem visit_ends_without_repeats (hcells : StoredInOrder cells.toList) (hroot : root.OnTree)
    (rule : Interpolation α) (a b : Vec2 α) (bound : Rect α) :
    visitWithin? rule cells a b (maxLevel - root.level) root bound =
      some (visitBy rule cells a b root bound) ∧
    (∀ n c r, Visits rule cells a b root bound n c r →
      n ≤ maxLevel - root.level ∧ (GoesOn cells c → c.level < maxLevel)) ∧
    (∀ s ∈ visitBy rule cells a b root bound, s ∈ cells ∧ root.id.Contains s.id) ∧
    ((visitBy rule cells a b root bound).map (·.id)).Nodup ∧
    (∀ s ∈ cells, s.id.Contains root.id → s.id ≠ root.id →
      visitBy rule cells a b root bound = []) ∧
    (∀ s : Search, s.cursor.cells = cells →
      (search rule a b root bound s).found = s.found ++ visitBy rule cells a b root bound) ∧
    ∀ (q : EdgeQuery α) (p p' : Vec3 α) (segments : List (FaceSegment α)) (id : CellId),
      q.index.cells = cells → Arc.faceSegments? p p' = some segments → ∃ found,
        (q.cells? p p').map (·.1) = some found ∧
        (found.map (·.id)).count id ≤ segments.length := by
  refine ⟨visitWithin?_eq hcells hroot (by omega), fun n c r h => ?_,
    fun s hs => stored_of_mem_visitBy hcells hroot hs, visitBy_nodup hcells hroot,
    fun s hs hsc hne => visitBy_of_inside hcells hroot hs hsc hne,
    fun s hs => (search_finds rule a b root bound hs).found_eq, fun q p p' segments id hq h => ?_⟩
  · obtain ⟨hc, hlevel⟩ := h.onTree hcells hroot
    have hle := hc.isValid.level_le
    rw [← hc.level_eq] at hle
    exact ⟨by omega, fun hgo => hgo.level_lt hcells hc⟩
  · refine ⟨EdgeQuery.segmentsCells cells segments, ?_,
      EdgeQuery.count_segmentsCells_le hcells segments id⟩
    rw [EdgeQuery.cells?_fst, EdgeQuery.report?_eq, h, hq]
    rfl

/-- The walk from a face in double precision, with a rule that never gives a number. -/
theorem visit_quarters_ends : StoredInOrder quarters.toList ∧
    (PaddedCell.ofFace .xPos (0 : Float)).OnTree ∧
    visitWithin? (fun _ _ _ _ _ => 0 / 0) quarters ⟨-0.5, -0.5⟩ ⟨0.5, 0.5⟩ 30
      (PaddedCell.ofFace .xPos (0 : Float)) (Rect.ofPair ⟨-0.5, -0.5⟩ ⟨0.5, 0.5⟩) =
      some (visitBy (fun _ _ _ _ _ => 0 / 0) quarters ⟨-0.5, -0.5⟩ ⟨0.5, 0.5⟩
        (PaddedCell.ofFace .xPos (0 : Float)) (Rect.ofPair ⟨-0.5, -0.5⟩ ⟨0.5, 0.5⟩)) := by
  have hroot := PaddedCell.onTree_ofFace .xPos (0 : Float)
  exact ⟨quarters_inOrder, hroot, (visit_ends_without_repeats quarters_inOrder hroot
    (fun _ _ _ _ _ => 0 / 0) ⟨-0.5, -0.5⟩ ⟨0.5, 0.5⟩ (Rect.ofPair ⟨-0.5, -0.5⟩ ⟨0.5, 0.5⟩)).1⟩

end Walk

end SphereIndex
