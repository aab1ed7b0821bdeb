import SphereIndex.Proofs.Index.Locate
import SphereIndex.Query.Basic

/-!
# What a search finds

A search carries a cursor and a list along, but it looks only where it has moved the cursor itself,
and adds to the end of the list.  What it finds therefore depends on the stored cells alone.  A call
of a query empties what is passed in before it fills it, or makes it anew, so that what it holds
afterwards is what the search found.
-/

namespace SphereIndex

theorem Cursor.locate_congr {c d : Cursor} (h : c.cells = d.cells) (target : CellId) :
    c.locate target = d.locate target := by
  -- Only the position differs, and it is overwritten first.
  unfold locate seek
  rw [h]

variable {α : Type} [Scalar α]

/-! ## 1. The walk -/

namespace Walk

/-- **The stored cells at or below `c` on a part of AB**, given its bound. -/
def visitBy (rule : Interpolation α) (cells : Array StoredCell) (a b : Vec2 α) (c : PaddedCell α)
    (bound : Rect α) : List StoredCell :=
  match cells[Cursor.lowerBound cells c.id.rangeMin]? with
  | none => []
  | some s =>
    if c.id.rangeMax < s.id then []
    else if s.id = c.id then [s]
    else if _h : c.level < maxLevel then
      (quadrants rule a b c.center bound).flatMap fun (q, r) => visitBy rule cells a b (c.child q) r
    else []
termination_by maxLevel - c.level
decreasing_by
  simp only [PaddedCell.level_child]
  omega

def visit (cells : Array StoredCell) (a b : Vec2 α) (c : PaddedCell α) (bound : Rect α) :
    List StoredCell :=
  visitBy Planar.interpolate cells a b c bound

/-- **The search `t` goes on from `s`** and finds the given cells. -/
structure Search.Finds (s t : Search) (found : List StoredCell) : Prop where
  cells_eq : t.cursor.cells = s.cursor.cells
  found_eq : t.found = s.found ++ found

namespace Search.Finds

variable {s t u : Search} {xs ys : List StoredCell}

/-- Moving the cursor finds nothing. -/
theorem move (s : Search) {c : Cursor} (h : c.cells = s.cursor.cells) : s.Finds ⟨c, s.found⟩ [] :=
  ⟨h, (List.append_nil _).symm⟩

theorem trans (hs : s.Finds t xs) (ht : t.Finds u ys) : s.Finds u (xs ++ ys) :=
  ⟨ht.cells_eq.trans hs.cells_eq, by rw [ht.found_eq, hs.found_eq, List.append_assoc]⟩

theorem foldl {β : Type} {cells : Array StoredCell} {step : Search → β → Search}
    {listed : β → List StoredCell}
    (hstep : ∀ (s : Search) (x : β), s.cursor.cells = cells → s.Finds (step s x) (listed x))
    (xs : List β) (hs : s.cursor.cells = cells) :
    s.Finds (xs.foldl step s) (xs.flatMap listed) := by
  induction xs generalizing s with
  | nil => exact move s rfl
  | cons x xs ih =>
    have hfirst := hstep s x hs
    exact hfirst.trans (ih (hfirst.cells_eq.trans hs))

end Search.Finds

/-- **The walk finds its cells from any position of the cursor**, whatever was found before. -/
theorem search_finds (rule : Interpolation α) (a b : Vec2 α) (c : PaddedCell α) (bound : Rect α)
    {cells : Array StoredCell} {s : Search} (hs : s.cursor.cells = cells) :
    s.Finds (search rule a b c bound s) (visitBy rule cells a b c bound) := by
  have hcurrent {s : Search} (hs : s.cursor.cells = cells) (id : CellId) :
      (s.cursor.seek id).current? = cells[Cursor.lowerBound cells id]? := by
    rw [← hs]
    rfl
  have hmove (s : Search) (id : CellId) : s.Finds ⟨s.cursor.seek id, s.found⟩ [] := .move s rfl
  fun_induction visitBy rule cells a b c bound generalizing s with
  | case1 c bound hx =>
    rw [search, hcurrent hs, hx]
    exact hmove s _
  | case2 c bound x hx hbeyond =>
    rw [search, hcurrent hs, hx]
    dsimp only
    rw [if_pos hbeyond]
    exact hmove s _
  | case3 c bound x hx hbeyond hid =>
    rw [search, hcurrent hs, hx]
    dsimp only
    rw [if_neg hbeyond, if_pos hid]
    exact ⟨rfl, rfl⟩
  | case4 c bound x hx hbeyond hid hl ih =>
    rw [search, hcurrent hs, hx]
    dsimp only
    rw [if_neg hbeyond, if_neg hid, dif_pos hl]
    -- In each quadrant the walk goes on from where it was left in the one before.
    exact (hmove s _).trans (.foldl (fun s x hs => ih x.1 x.2 hs) _ hs)
  | case5 c bound x hx hbeyond hid hl =>
    rw [search, hcurrent hs, hx]
    dsimp only
    rw [if_neg hbeyond, if_neg hid, dif_neg hl]
    exact hmove s _

/-- What a walk finds that begins with an empty list. -/
theorem found_search (rule : Interpolation α) (a b : Vec2 α) (root : PaddedCell α) (bound : Rect α)
    (c : Cursor) :
    (search rule a b root bound ⟨c, []⟩).found = visitBy rule c.cells a b root bound :=
  (search_finds rule a b root bound rfl).found_eq

end Walk

/-! ## 2. Segments -/

namespace EdgeQuery

/-- The stored cells on a segment, given how its root lies among all. -/
def cellsFrom (segment : FaceSegment α) : CellRelation × Cursor → List StoredCell
  | (.indexed, c) => c.current?.toList
  | (.subdivided, c) =>
    Walk.visit c.cells segment.a segment.b (PaddedCell.ofId (rootOf segment) 0)
      (Rect.ofPair segment.a segment.b)
  | (.disjoint, _) => []

/-- **The stored cells on a segment.** -/
def segmentCells (cells : Array StoredCell) (segment : FaceSegment α) : List StoredCell :=
  cellsFrom segment ((Cursor.start cells).locate (rootOf segment))

def segmentsCells (cells : Array StoredCell) (segments : List (FaceSegment α)) : List StoredCell :=
  segments.flatMap (segmentCells cells)

theorem searchSegment_finds {cells : Array StoredCell} {s : Walk.Search}
    (hs : s.cursor.cells = cells) (segment : FaceSegment α) :
    s.Finds (searchSegment s segment) (segmentCells cells segment) := by
  have hlocate : s.cursor.locate (rootOf segment) =
      (Cursor.start cells).locate (rootOf segment) := Cursor.locate_congr hs _
  have hcells := Cursor.cells_locate (Cursor.start cells) (rootOf segment)
  unfold searchSegment segmentCells
  dsimp only
  rw [hlocate]
  generalize (Cursor.start cells).locate (rootOf segment) = found at hcells
  obtain ⟨r, c⟩ := found
  change c.cells = cells at hcells
  have hc : c.cells = s.cursor.cells := hcells.trans hs.symm
  cases r with
  | indexed => exact ⟨hc, rfl⟩
  | subdivided => exact (Walk.Search.Finds.move s hc).trans (Walk.search_finds _ _ _ _ _ rfl)
  | disjoint => exact .move s hc

/-! ## 3. Calls -/

variable (q : EdgeQuery α) (a b : Vec3 α)

/-- What the search for an edge reports: how many segments the edge has, and the cells on them. -/
def report? : Option (Nat × List StoredCell) :=
  (q.discover? a b).map fun (segments, q) => (segments, q.found)

/-- **The search for an edge finds the cells on its segments**, if there is an end to them. -/
theorem report?_eq : q.report? a b =
    (Arc.faceSegments? a b).map fun segments =>
      (segments.length, segmentsCells q.index.cells segments) := by
  unfold report? discover?
  rw [Option.map_map]
  refine congrArg (Option.map · _) (funext fun segments => ?_)
  have hfinds : q.begin.Finds (segments.foldl searchSegment q.begin)
      (segmentsCells q.index.cells segments) :=
    .foldl (fun s segment hs => searchSegment_finds hs segment) segments rfl
  exact congrArg (Prod.mk _) hfinds.found_eq

theorem report?_eq_none : q.report? a b = none ↔ Arc.faceSegments? a b = none := by
  rw [report?_eq, Option.map_eq_none_iff]

theorem cells?_fst : (q.cells? a b).map (·.1) = (q.report? a b).map (·.2) := by
  unfold cells? report?
  rw [Option.map_map, Option.map_map]
  rfl

/-- **The stored cells at or below a root on an edge.** -/
def cellsBelow (cells : Array StoredCell) (root : PaddedCell α) : List StoredCell :=
  match root.id.face?.bind fun f => Arc.clipToFace? f 0 a b with
  | none => []
  | some (p, p') =>
    let bound := Rect.ofPair p p'
    if root.bound.Meets bound then Walk.visit cells p p' root bound else []

theorem cellsBelow_of_clip {cells : Array StoredCell} {root : PaddedCell α} {f : Face}
    {p p' : Vec2 α} (hface : root.id.face? = some f)
    (hclip : Arc.clipToFace? f 0 a b = some (p, p')) : cellsBelow a b cells root =
      if root.bound.Meets (Rect.ofPair p p') then
        Walk.visit cells p p' root (Rect.ofPair p p')
      else [] := by
  unfold cellsBelow
  rw [hface, Option.bind_some, hclip]

/-- **The list that is passed in is replaced** by the cells that are found. -/
theorem fillCellsInRoot_fst (root : PaddedCell α) (list : List StoredCell) :
    (q.fillCellsInRoot a b root list).1 = .ofList (cellsBelow a b q.index.cells root) := by
  have hsearch (p p' : Vec2 α) (bound : Rect α) :
      (Walk.search Planar.interpolate p p' root bound q.begin).found =
        Walk.visit q.index.cells p p' root bound := Walk.found_search _ p p' root bound q.cursor
  unfold fillCellsInRoot cellsBelow
  dsimp only
  cases root.id.face?.bind fun f => Arc.clipToFace? f 0 a b with
  | none => rfl
  | some segment =>
    dsimp only
    split
    · rw [hsearch]
      rfl
    · rfl

/-! ## 4. Calls for edges -/

variable {q a b} {shape : ShapeId} {s : Shape α} {edges : List Nat}

/-- The edges of a shape in the cells that were found on some number of segments, in ascending
order. -/
def gathered (segments : Nat) (found : List StoredCell) (shape : ShapeId) : List Nat :=
  let edges := found.flatMap fun c => c.content.edgesOf shape
  if 1 < found.length || 1 < segments then ascending edges else edges

/-- The entries of all shapes in the cells that were found on some number of segments. -/
def gatheredMap (segments : Nat) (found : List StoredCell) : EdgeMap :=
  if 1 < found.length || 1 < segments then (listed [] found).sorted else listed [] found

theorem candidates?_of_unknown (hs : q.index.shape? shape = none) :
    q.candidates? a b shape edges = some (⟨false, []⟩, q) := by
  unfold candidates?
  rw [hs]
  rfl

theorem candidates?_of_few (hs : q.index.shape? shape = some s)
    (hfew : s.edges.size ≤ q.options.maxBruteForceEdges) (a b : Vec3 α) (edges : List Nat) :
    q.candidates? a b shape edges = some (.ofList (List.range s.edges.size), q) := by
  unfold candidates?
  rw [hs]
  exact if_pos hfew

theorem candidates?_of_many (hs : q.index.shape? shape = some s)
    (hmany : q.options.maxBruteForceEdges < s.edges.size) (a b : Vec3 α) (edges : List Nat) :
    (q.candidates? a b shape edges).map (·.1) =
      (q.report? a b).map fun (segments, found) => .ofList (gathered segments found shape) := by
  unfold candidates? report?
  rw [hs]
  dsimp only
  rw [if_neg (Nat.not_le.2 hmany), Option.map_map, Option.map_map]
  rfl

/-- **Whatever the map held before**, the one entry is all that is left. -/
theorem candidatesByShape?_of_one (hone : q.index.numShapes = 1) (map : EdgeMap)
    (edges : List Nat) : q.candidatesByShape? a b map =
      (q.candidates? a b 0 edges).map fun (x, q) => (⟨x.any, [(0, x.result)]⟩, q) := by
  have hinsert (edges : List Nat) :
      EdgeMap.insert (if map.length = 1 ∧ (map.find? 0).isSome then map else []) 0 edges =
        [(0, edges)] := by
    split
    · rename_i hreuse
      obtain ⟨hlength, hfind⟩ := hreuse
      obtain ⟨⟨s, old⟩, rfl⟩ := List.length_eq_one_iff.1 hlength
      obtain rfl : s = 0 := by
        by_contra hne
        simp [EdgeMap.find?, hne] at hfind
      rfl
    · rfl
  unfold candidatesByShape?
  rw [if_pos hone]
  refine congrArg (Option.map · _) (funext fun x => ?_)
  exact congrArg (fun map => (Outcome.mk x.1.any map, x.2)) (hinsert x.1.result)

theorem candidatesByShape?_of_many (hmany : q.index.numShapes ≠ 1) (map : EdgeMap) :
    (q.candidatesByShape? a b map).map (·.1) =
      (q.report? a b).map fun (segments, found) => .ofList (gatheredMap segments found) := by
  unfold candidatesByShape? report?
  rw [if_neg hmany, Option.map_map, Option.map_map]
  rfl

end EdgeQuery

end SphereIndex
