import SphereIndex.Proofs.Cell.FacePath
import SphereIndex.Proofs.Index.Builder

/-!
# Where subdivision stops

The cells of a face are the nodes of a tree, and the path to a node says how its edges were clipped.
A cell is stored if its node has edges and is not divided while all nodes before it on the path are.
Everything that is known about the size of stored cells follows from that.
-/

namespace SphereIndex

variable {α : Type} [Scalar α]

theorem PaddedCell.level_ofFace (f : Face) (padding : α) : (ofFace f padding).level = 0 := by
  rw [(onTree_ofFace f padding).level_eq, id_ofFace, (CellId.Numbered.ofFace f).level_eq]

namespace Subdivision

/-! ## 1. Along a path -/

/-- The edges that are left in the last cell of a path, clipped to one cell after another. -/
def clipAlong (c : PaddedCell α) (edges : List (CellEdge α)) : List Digit → List (CellEdge α)
  | [] => edges
  | d :: path =>
    let child := c.child (c.orientation.quadrant d)
    clipAlong child (clipTo child.bound edges) path

/-- What is stored if the division stops after a path. -/
def storedAt (c : PaddedCell α) (edges : List (CellEdge α)) (path : List Digit) : StoredCell :=
  ⟨path.foldl CellId.child c.id, contentOf (clipAlong c edges path)⟩

/-- **The division stops after a path**: all cells before are divided, and the cell there is not,
but has some edges. -/
structure StopsAfter (limit : Nat) (c : PaddedCell α) (edges : List (CellEdge α))
    (path : List Digit) : Prop where
  divides : ∀ n < path.length, Divides limit (c.level + n) (clipAlong c edges (path.take n))
  stops : ¬Divides limit (c.level + path.length) (clipAlong c edges path)
  ne_nil : clipAlong c edges path ≠ []

variable {limit : Nat} {c : PaddedCell α} {edges : List (CellEdge α)} {path : List Digit}

theorem clipAlong_sublist (c : PaddedCell α) (edges : List (CellEdge α)) (path : List Digit) :
    ((clipAlong c edges path).map (·.edge)).Sublist (edges.map (·.edge)) := by
  induction path generalizing c edges with
  | nil => exact .refl _
  | cons d path ih => exact (ih _ _).trans (edges_clipTo_sublist _ _)

theorem clipAlong_append (c : PaddedCell α) (edges : List (CellEdge α)) (p q : List Digit) :
    ∃ c', clipAlong c edges (p ++ q) = clipAlong c' (clipAlong c edges p) q := by
  induction p generalizing c edges with
  | nil => exact ⟨c, rfl⟩
  | cons d p ih => exact ih _ _

theorem ne_nil_of_clipAlong (h : clipAlong c edges path ≠ []) : edges ≠ [] := by
  rintro rfl
  exact h (List.map_eq_nil_iff.1 (List.sublist_nil.1 (clipAlong_sublist c [] path)))

theorem storedAt_cons (c : PaddedCell α) (edges : List (CellEdge α)) (d : Digit)
    (path : List Digit) : storedAt c edges (d :: path) =
      storedAt (c.child (c.orientation.quadrant d))
        (clipTo (c.child (c.orientation.quadrant d)).bound edges) path := by
  unfold storedAt
  rw [List.foldl_cons, PaddedCell.id_child, Orientation.digit_quadrant]
  rfl

theorem stopsAfter_nil : StopsAfter limit c edges [] ↔
    ¬Divides limit c.level edges ∧ edges ≠ [] :=
  ⟨fun h => ⟨h.stops, h.ne_nil⟩, fun h => ⟨fun n hn => absurd hn (Nat.not_lt_zero n), h.1, h.2⟩⟩

theorem stopsAfter_cons {d : Digit} : StopsAfter limit c edges (d :: path) ↔
    Divides limit c.level edges ∧ StopsAfter limit (c.child (c.orientation.quadrant d))
      (clipTo (c.child (c.orientation.quadrant d)).bound edges) path := by
  have hlevel (n : Nat) : (c.child (c.orientation.quadrant d)).level + n = c.level + (n + 1) := by
    rw [PaddedCell.level_child, Nat.add_assoc, Nat.add_comm 1]
  constructor
  · rintro ⟨hdivides, hstops, hne⟩
    refine ⟨hdivides 0 (Nat.succ_pos _), fun n hn => ?_, ?_, hne⟩
    · rw [hlevel]
      exact hdivides (n + 1) (Nat.succ_lt_succ hn)
    · rwa [hlevel]
  · rintro ⟨hroot, hdivides, hstops, hne⟩
    refine ⟨fun n hn => ?_, ?_, hne⟩
    · cases n with
      | zero => exact hroot
      | succ n =>
        have hchild := hdivides n (Nat.lt_of_succ_lt_succ hn)
        rwa [hlevel] at hchild
    · rwa [hlevel] at hstops

/-- **The cells below a cell are those after which the division stops.** -/
theorem mem_cellsBelow_iff {s : StoredCell} : s ∈ cellsBelow limit c edges ↔
    ∃ path, StopsAfter limit c edges path ∧ s = storedAt c edges path := by
  fun_induction cellsBelow limit c edges with
  | case1 c edges he =>
    constructor
    · exact fun hs => absurd hs List.not_mem_nil
    · rintro ⟨path, hpath, -⟩
      exact absurd (List.isEmpty_iff.1 he) (ne_nil_of_clipAlong hpath.ne_nil)
  | case2 c edges he hd ih =>
    rw [List.mem_flatMap]
    constructor
    · rintro ⟨q, -, hs⟩
      obtain ⟨path, hpath, rfl⟩ := (ih q).1 hs
      refine ⟨c.orientation.digit q :: path, stopsAfter_cons.2 ⟨hd, ?_⟩, ?_⟩
      · rwa [Orientation.quadrant_digit]
      · rw [storedAt_cons, Orientation.quadrant_digit]
    · rintro ⟨_ | ⟨d, path⟩, hpath, rfl⟩
      · exact absurd hd (stopsAfter_nil.1 hpath).1
      · exact ⟨c.orientation.quadrant d, Quadrant.mem_all _,
          (ih _).2 ⟨path, (stopsAfter_cons.1 hpath).2, storedAt_cons c edges d path⟩⟩
  | case3 c edges he hd =>
    rw [List.mem_singleton]
    constructor
    · rintro rfl
      exact ⟨[], stopsAfter_nil.2 ⟨hd, fun h => he (List.isEmpty_iff.2 h)⟩, rfl⟩
    · rintro ⟨_ | ⟨d, path⟩, hpath, rfl⟩
      · rfl
      · exact absurd (stopsAfter_cons.1 hpath).1 hd

theorem StopsAfter.length_le (h : StopsAfter limit c edges path) (hc : c.level = 0) :
    path.length ≤ maxLevel := by
  rcases Nat.eq_zero_or_pos path.length with hzero | hpos
  · exact hzero ▸ Nat.zero_le _
  · have hlast := (h.divides (path.length - 1) (by omega)).1
    omega

/-- Some edge is short down to the level at which the division stops. -/
theorem StopsAfter.exists_le_maxLevel (h : StopsAfter limit c edges path) (hc : c.level = 0) :
    ∃ e ∈ edges, path.length ≤ e.edge.maxLevel := by
  have hfrom {e : CellEdge α} {p : List Digit} (he : e ∈ clipAlong c edges p) :
      ∃ e' ∈ edges, e'.edge = e.edge :=
    List.mem_map.1 ((clipAlong_sublist c edges p).subset (List.mem_map_of_mem he))
  rcases Nat.eq_zero_or_pos path.length with hzero | hpos
  · obtain ⟨e, he⟩ := List.exists_mem_of_ne_nil _ h.ne_nil
    obtain ⟨e', he', -⟩ := hfrom he
    exact ⟨e', he', hzero ▸ Nat.zero_le _⟩
  · -- The cell before was divided because of an edge that is short for it.
    have hshort := (h.divides (path.length - 1) (by omega)).2
    obtain ⟨e, he, hlt⟩ := List.countP_pos_iff.1 (Nat.zero_lt_of_lt hshort)
    obtain ⟨e', he', heq⟩ := hfrom he
    have hlt := of_decide_eq_true hlt
    rw [hc, ← heq] at hlt
    exact ⟨e', he', by omega⟩

theorem id_storedAt (f : Face) (padding : α) (edges : List (CellEdge α)) (path : List Digit) :
    (storedAt (.ofFace f padding) edges path).id = .ofPath f path :=
  congrArg (path.foldl CellId.child) (PaddedCell.id_ofFace f padding)

end Subdivision

namespace ShapeIndex

open Subdivision

/-! ## 2. The cells of an index -/

/-- The edges from which the subdivision of a face starts. -/
def cellEdges (o : IndexOptions α) (shapes : Array (Shape α)) (f : Face) : List (CellEdge α) :=
  (faceEdges o shapes f).map fun e => ⟨e, Rect.ofPair e.a e.b⟩

/-- The edges that are left in a cell, clipped to one cell after another from the face down. -/
def edgesAt (o : IndexOptions α) (shapes : Array (Shape α)) (a : CellId) : List (CellEdge α) :=
  clipAlong (PaddedCell.ofFace (.numbered a.faceNumber) o.cellPadding)
    (cellEdges o shapes (.numbered a.faceNumber)) a.path

variable {o : IndexOptions α} {shapes : Array (Shape α)} {c : StoredCell}

theorem mem_cellsOf_iff : c ∈ cellsOf o shapes ↔
    ∃ f path, StopsAfter o.maxEdgesPerCell (.ofFace f o.cellPadding) (cellEdges o shapes f) path ∧
      c = storedAt (.ofFace f o.cellPadding) (cellEdges o shapes f) path := by
  rw [mem_cellsOf, mem_foundCells]
  exact exists_congr fun f => mem_cellsBelow_iff

theorem edgesAt_ofPath (f : Face) {path : List Digit} (h : path.length ≤ maxLevel) :
    edgesAt o shapes (.ofPath f path) =
      clipAlong (.ofFace f o.cellPadding) (cellEdges o shapes f) path := by
  rw [edgesAt, CellId.faceNumber_ofPath f h, CellId.path_ofPath f h, Face.numbered_number]

theorem mem_faceEdges_of_mem_edgesAt {a : CellId} {e : CellEdge α} (he : e ∈ edgesAt o shapes a) :
    e.edge ∈ faceEdges o shapes (.numbered a.faceNumber) := by
  have hsub := (clipAlong_sublist _ _ _).subset (List.mem_map_of_mem he)
  rwa [cellEdges, List.map_map, show (fun e : CellEdge α => e.edge) ∘ _ = id from rfl,
    List.map_id] at hsub

/-- **A stored cell**: it lists the edges that are left in it, it is not divided while all cells over
it are, and some edge is short down to its level. -/
structure Stopped (o : IndexOptions α) (shapes : Array (Shape α)) (c : StoredCell) : Prop where
  content_eq : c.content = contentOf (edgesAt o shapes c.id)
  stops : ¬Divides o.maxEdgesPerCell c.id.level (edgesAt o shapes c.id)
  divides : ∀ a : CellId, a.IsValid → a.Contains c.id → a ≠ c.id →
    Divides o.maxEdgesPerCell a.level (edgesAt o shapes a)
  exists_short : ∃ f, ∃ e ∈ faceEdges o shapes f, c.id.level ≤ e.maxLevel

theorem stopped_of_mem (hc : c ∈ cellsOf o shapes) : Stopped o shapes c := by
  obtain ⟨f, path, hstop, rfl⟩ := mem_cellsOf_iff.1 hc
  have hzero := PaddedCell.level_ofFace f o.cellPadding
  have hlength := hstop.length_le hzero
  have hid := id_storedAt f o.cellPadding (cellEdges o shapes f) path
  obtain ⟨e, he, hshort⟩ := hstop.exists_le_maxLevel hzero
  obtain ⟨e, hface, rfl⟩ := List.mem_map.1 he
  obtain ⟨hdivides, hstops, -⟩ := hstop
  rw [hzero, Nat.zero_add] at hstops
  refine ⟨?_, ?_, fun a ha hac hne => ?_, f, e, hface, ?_⟩
  · rw [hid, edgesAt_ofPath f hlength]
    rfl
  · rwa [hid, CellId.level_ofPath f hlength, edgesAt_ofPath f hlength]
  · rw [hid] at hac hne
    obtain ⟨n, hn, rfl⟩ := ha.exists_take_of_contains hlength hac hne
    have htake : (path.take n).length = n := List.length_take_of_le hn.le
    have hle : (path.take n).length ≤ maxLevel := htake.le.trans (hn.le.trans hlength)
    have hnode := hdivides n hn
    rw [hzero, Nat.zero_add] at hnode
    rwa [CellId.level_ofPath f hle, edgesAt_ofPath f hle, htake]
  · rwa [hid, CellId.level_ofPath f hlength]

/-! ## 3. The edges of an index -/

/-- The edge with a number among the edges of a shape. -/
def edge? {α : Type} (x : ShapeIndex α) (label : ShapeId × Nat) : Option (Edge α) :=
  (x.shape? label.1).bind (·.edges[label.2]?)

/-- The edges that a stored cell lists. -/
def listed {α : Type} (x : ShapeIndex α) (c : StoredCell) : List (Edge α) :=
  (Content.ungroup c.content.clipped).filterMap x.edge?

/-- The level down to which an edge is short. -/
def edgeLevel (x : ShapeIndex α) (e : Edge α) : Nat :=
  edgeMaxLevel e.v0 e.v1 x.options.longEdgeRatio

variable {x : ShapeIndex α}

theorem map_edgeLevel_labels {edges : List (CellEdge α)} (h : ∀ e ∈ edges, ∃ g,
    x.edge? (e.edge.shape, e.edge.edge) = some g ∧ e.edge.maxLevel = x.edgeLevel g) :
    ((labels edges).filterMap x.edge?).map x.edgeLevel = edges.map (·.edge.maxLevel) := by
  induction edges with
  | nil => rfl
  | cons e rest ih =>
    obtain ⟨g, hg, hlevel⟩ := h e List.mem_cons_self
    have hrest := ih fun e he => h e (List.mem_cons_of_mem _ he)
    change (((e.edge.shape, e.edge.edge) :: labels rest).filterMap x.edge?).map x.edgeLevel = _
    rw [List.filterMap_cons_some hg, List.map_cons, List.map_cons, hrest, hlevel]

theorem Stopped.ungroup_eq (hc : Stopped o shapes c) :
    Content.ungroup c.content.clipped = labels (edgesAt o shapes c.id) := by
  rw [hc.content_eq]
  exact Content.ungroup_group _

/-- **The edges that a stored cell lists** are short down to the levels that the subdivision used. -/
theorem map_edgeLevel_listed (hc : Stopped x.options x.shapes c) :
    (x.listed c).map x.edgeLevel =
      (edgesAt x.options x.shapes c.id).map (·.edge.maxLevel) := by
  rw [listed, hc.ungroup_eq]
  refine map_edgeLevel_labels fun e he => ?_
  obtain ⟨s, g, hs, hg, hlevel⟩ := exists_edge_of_mem_faceEdges (mem_faceEdges_of_mem_edgesAt he)
  refine ⟨g, ?_, hlevel⟩
  change x.shapes[e.edge.shape]?.bind _ = _
  rw [hs]
  exact hg

/-- **Subdivision stops where it should.**  Rebuilding goes face by face.  A stored cell lists at most
as many short edges as the limit allows, while in every cell over it more than that were left by the
clips on the way to it; so no stored cell is deeper than the level down to which some edge is short.
The summary counts the stored cells, the shapes and their edges, and tells the deepest level. -/
theorem rebuild_divides_as_needed (x : ShapeIndex α) :
    x.rebuildByFace = x.rebuild ∧
    (∀ c ∈ x.rebuild.cells,
      (x.listed c).length = c.content.numEdges ∧
      (c.id.level < maxLevel →
        (x.listed c).countP (fun e => c.id.level < x.edgeLevel e) ≤ x.options.maxEdgesPerCell) ∧
      (∀ a : CellId, a.IsValid → a.Contains c.id → a ≠ c.id →
        x.options.maxEdgesPerCell < numShort a.level (edgesAt x.options x.shapes a)) ∧
      ∃ s ∈ x.shapes, ∃ e ∈ s.edges, c.id.level ≤ x.edgeLevel e) ∧
    x.rebuild.info.cellCount = x.rebuild.cells.size ∧
    (∀ c ∈ x.rebuild.cells, c.id.level ≤ x.rebuild.info.maxLevel) ∧
    (x.rebuild.info.maxLevel = 0 ∨
      ∃ c ∈ x.rebuild.cells, c.id.level = x.rebuild.info.maxLevel) ∧
    x.rebuild.info.shapeCount = x.numShapes ∧
    x.rebuild.info.edgeCount = (x.shapes.toList.map fun s => s.edges.size).sum := by
  refine ⟨rebuildByFace_eq x, fun c hc => ?_, rfl, fun c hc => ?_, ?_, rfl, ?_⟩
  · have hstored := stopped_of_mem (List.mem_toArray.1 hc)
    have hlevels := map_edgeLevel_listed hstored
    refine ⟨?_, fun hl => ?_, fun a ha hac hne => (hstored.divides a ha hac hne).2, ?_⟩
    · rw [← List.length_map x.edgeLevel, hlevels, Content.numEdges_eq_length, hstored.ungroup_eq,
        labels, List.length_map, List.length_map]
    · have hcount : (x.listed c).countP (fun e => c.id.level < x.edgeLevel e) =
          numShort c.id.level (edgesAt x.options x.shapes c.id) := by
        have hmap := congrArg (List.countP fun l => decide (c.id.level < l)) hlevels
        rwa [List.countP_map, List.countP_map] at hmap
      rw [hcount]
      exact Nat.not_lt.1 fun hmore => hstored.stops ⟨hl, hmore⟩
    · obtain ⟨f, e, he, hle⟩ := hstored.exists_short
      obtain ⟨s, g, hs, hg, hlevel⟩ := exists_edge_of_mem_faceEdges he
      exact ⟨s, Array.mem_of_getElem? hs, g, Array.mem_of_getElem? hg, hle.trans hlevel.le⟩
  · exact le_deepest (List.mem_toArray.1 hc)
  · rcases deepest_attained (cellsOf x.options x.shapes) with hzero | ⟨c, hc, hlevel⟩
    · exact .inl hzero
    · exact .inr ⟨c, List.mem_toArray.2 hc, hlevel⟩
  · rw [List.sum_eq_foldl, List.foldl_map, Array.foldl_toList]
    rfl

end ShapeIndex

end SphereIndex
