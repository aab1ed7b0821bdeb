import SphereIndex.Index.Basic
import SphereIndex.Proofs.Cell.Tree
import SphereIndex.Proofs.Index.Grouping

/-!
# The invariant of an index

What every query relies on, whatever values the clipping of edges returns: the stored cells are
valid and come in the order of the curve without overlapping, and each of them lists some edges,
grouped by ascending shape.
-/

namespace SphereIndex

/-- The cells of a list are valid, and each lies wholly before the next on the curve. -/
structure StoredInOrder (cells : List StoredCell) : Prop where
  isValid : ∀ c ∈ cells, c.id.IsValid
  precedes : cells.Pairwise fun a b => a.id.Precedes b.id

/-- **What the content of every stored cell keeps.** -/
structure Content.Proper {α : Type} (c : Content) (shapes : Array (Shape α)) : Prop where
  ne_nil : c.clipped ≠ []
  grouped : Grouped c.clipped
  edge_lt : ∀ g ∈ c.clipped, ∃ s, shapes[g.shape]? = some s ∧ ∀ e ∈ g.edges, e < s.edges.size

/-- **The invariant of a rebuilt index.** -/
structure ShapeIndex.Proper {α : Type} (x : ShapeIndex α) : Prop where
  inOrder : StoredInOrder x.cells.toList
  contents : ∀ c ∈ x.cells, c.content.Proper x.shapes

/-- One of the cells comes before the other. -/
def CellId.Apart (a b : CellId) : Prop := a.Precedes b ∨ b.Precedes a

theorem CellId.Apart.symm {a b : CellId} (h : a.Apart b) : b.Apart a := Or.symm h

variable {α : Type} [Scalar α]

/-- What lies below one child of a cell does not overlap with what lies below another. -/
theorem PaddedCell.OnTree.apart_of_children {c : PaddedCell α} (hc : c.OnTree)
    (hl : c.level < maxLevel) {q r : Quadrant} (hqr : q ≠ r) {x y : CellId} (hx : x.IsValid)
    (hy : y.IsValid) (hqx : (c.child q).id.Contains x) (hry : (c.child r).id.Contains y) :
    x.Apart y := by
  have hq := hc.child hl q
  have hr := hc.child hl r
  rw [hc.level_eq] at hl
  -- Different quadrants have different digits, and the children come in the order of these.
  have hdigit : (c.orientation.digit q).val ≠ (c.orientation.digit r).val :=
    fun h => hqr (c.orientation.digit_injective (Fin.ext h))
  rcases Nat.lt_or_gt_of_ne hdigit with hlt | hlt
  · exact .inl (hq.isValid.precedes_of_contains hr.isValid hx hy
      (hc.isValid.child_precedes_child hl hlt) hqx hry)
  · exact .inr (hr.isValid.precedes_of_contains hq.isValid hy hx
      (hc.isValid.child_precedes_child hl hlt) hry hqx)

/-! ## 1. Subdivision -/

namespace Subdivision

def labels (edges : List (CellEdge α)) : List (ShapeId × Nat) :=
  edges.map fun e => (e.edge.shape, e.edge.edge)

/-- Clipping drops edges, and keeps the order of the others. -/
theorem edges_clipTo_sublist (r : Rect α) (edges : List (CellEdge α)) :
    ((clipTo r edges).map (·.edge)).Sublist (edges.map (·.edge)) := by
  unfold clipTo
  induction edges with
  | nil => exact .slnil
  | cons e rest ih =>
    rw [List.filterMap_cons]
    cases Planar.clipBound? e.edge.a e.edge.b r e.bound with
    | none => exact ih.cons _
    | some bound => exact ih.cons_cons _

theorem labels_sublist {α : Type} {es fs : List (CellEdge α)}
    (h : (es.map (·.edge)).Sublist (fs.map (·.edge))) : (labels es).Sublist (labels fs) := by
  have hlabels := h.map fun e => (e.shape, e.edge)
  rw [List.map_map, List.map_map] at hlabels
  exact hlabels

theorem labels_clipTo_sublist (r : Rect α) (edges : List (CellEdge α)) :
    (labels (clipTo r edges)).Sublist (labels edges) := labels_sublist (edges_clipTo_sublist r edges)

theorem cellsBelow_contains (limit : Nat) {c : PaddedCell α} (hc : c.OnTree)
    (edges : List (CellEdge α)) {s : StoredCell} (hs : s ∈ cellsBelow limit c edges) :
    s.id.IsValid ∧ c.id.Contains s.id := by
  fun_induction cellsBelow limit c edges with
  | case1 c edges he => exact absurd hs List.not_mem_nil
  | case2 c edges he hd ih =>
    obtain ⟨q, -, hs⟩ := List.mem_flatMap.1 hs
    have hq := hc.child hd.1 q
    have hl : c.id.level < maxLevel := hc.level_eq ▸ hd.1
    obtain ⟨hvalid, hsub⟩ := ih q hq hs
    exact ⟨hvalid, hc.isValid.contains_trans hq.isValid hvalid
      (hc.isValid.contains_child hl _) hsub⟩
  | case3 c edges he hd =>
    rw [List.mem_singleton.1 hs]
    exact ⟨hc.isValid, hc.isValid.contains_self⟩

/-- The cells found below a cell do not overlap. -/
theorem cellsBelow_apart (limit : Nat) {c : PaddedCell α} (hc : c.OnTree)
    (edges : List (CellEdge α)) :
    (cellsBelow limit c edges).Pairwise fun a b => a.id.Apart b.id := by
  fun_induction cellsBelow limit c edges with
  | case1 c edges he => exact .nil
  | case2 c edges he hd ih =>
    rw [List.pairwise_flatMap]
    refine ⟨fun q _ => ih q (hc.child hd.1 q), ?_⟩
    have hne : Quadrant.all.Pairwise (· ≠ ·) := by decide
    refine hne.imp fun {q r} hqr x hx y hy => ?_
    obtain ⟨hxv, hqx⟩ := cellsBelow_contains limit (hc.child hd.1 q) _ hx
    obtain ⟨hyv, hry⟩ := cellsBelow_contains limit (hc.child hd.1 r) _ hy
    exact hc.apart_of_children hd.1 hqr hxv hyv hqx hry
  | case3 c edges he hd => exact List.pairwise_singleton _ _

/-- What is stored in a cell are some of the edges that the subdivision started from, in the same
order. -/
theorem cellsBelow_content (limit : Nat) (c : PaddedCell α) (edges : List (CellEdge α))
    {s : StoredCell} (hs : s ∈ cellsBelow limit c edges) :
    ∃ sub, sub ≠ [] ∧ sub.Sublist (labels edges) ∧ s.content = .ofEdges sub := by
  fun_induction cellsBelow limit c edges with
  | case1 c edges he => exact absurd hs List.not_mem_nil
  | case2 c edges he hd ih =>
    obtain ⟨q, -, hs⟩ := List.mem_flatMap.1 hs
    obtain ⟨sub, hne, hsub, hcontent⟩ := ih q hs
    exact ⟨sub, hne, hsub.trans (labels_clipTo_sublist _ _), hcontent⟩
  | case3 c edges he hd =>
    rw [List.mem_singleton.1 hs]
    refine ⟨labels edges, ?_, List.Sublist.refl _, rfl⟩
    rw [labels, Ne, List.map_eq_nil_iff, ← List.isEmpty_iff]
    exact he

end Subdivision

/-! ## 2. The edges of a face -/

namespace ShapeIndex

theorem pairwise_zipIdx {β : Type} (xs : List β) :
    xs.zipIdx.Pairwise fun a b => a.2 < b.2 := by
  rw [← List.pairwise_map, List.zipIdx_map_snd]
  exact List.pairwise_lt_range'

theorem exists_edge_of_mem_clipShape {o : IndexOptions α} {f : Face} {id : ShapeId} {s : Shape α}
    {e : FaceEdge α} (he : e ∈ clipShape o f id s) : e.shape = id ∧
      ∃ g, s.edges[e.edge]? = some g ∧ e.maxLevel = edgeMaxLevel g.v0 g.v1 o.longEdgeRatio := by
  obtain ⟨⟨g, i⟩, hi, he⟩ := List.mem_filterMap.1 he
  obtain ⟨p, -, rfl⟩ := Option.map_eq_some_iff.1 he
  rw [List.mem_zipIdx_iff_getElem?, Array.getElem?_toList] at hi
  exact ⟨rfl, g, hi, rfl⟩

theorem mem_clipShape {o : IndexOptions α} {f : Face} {id : ShapeId} {s : Shape α}
    {e : FaceEdge α} (he : e ∈ clipShape o f id s) :
    e.shape = id ∧ e.edge < s.edges.size := by
  obtain ⟨hshape, g, hg, -⟩ := exists_edge_of_mem_clipShape he
  exact ⟨hshape, (Array.getElem?_eq_some_iff.1 hg).1⟩

theorem clipShape_ascend (o : IndexOptions α) (f : Face) (id : ShapeId) (s : Shape α) :
    (clipShape o f id s).Pairwise fun a b => a.edge < b.edge := by
  unfold clipShape
  rw [List.pairwise_filterMap]
  refine (pairwise_zipIdx s.edges.toList).imp fun hab a ha b hb => ?_
  obtain ⟨p, -, rfl⟩ := Option.map_eq_some_iff.1 ha
  obtain ⟨q, -, rfl⟩ := Option.map_eq_some_iff.1 hb
  exact hab

/-- **An edge of a face is that of a shape**, and it is short down to the level of that edge. -/
theorem exists_edge_of_mem_faceEdges {o : IndexOptions α} {shapes : Array (Shape α)} {f : Face}
    {e : FaceEdge α} (he : e ∈ faceEdges o shapes f) : ∃ s g, shapes[e.shape]? = some s ∧
      s.edges[e.edge]? = some g ∧ e.maxLevel = edgeMaxLevel g.v0 g.v1 o.longEdgeRatio := by
  obtain ⟨⟨s, id⟩, hid, he⟩ := List.mem_flatMap.1 he
  obtain ⟨hshape, g, hg, hlevel⟩ := exists_edge_of_mem_clipShape he
  rw [List.mem_zipIdx_iff_getElem?, Array.getElem?_toList] at hid
  exact ⟨s, g, hshape ▸ hid, hg, hlevel⟩

theorem mem_faceEdges {o : IndexOptions α} {shapes : Array (Shape α)} {f : Face}
    {e : FaceEdge α} (he : e ∈ faceEdges o shapes f) :
    ∃ s, shapes[e.shape]? = some s ∧ e.edge < s.edges.size := by
  obtain ⟨s, g, hs, hg, -⟩ := exists_edge_of_mem_faceEdges he
  exact ⟨s, hs, (Array.getElem?_eq_some_iff.1 hg).1⟩

theorem faceEdges_ascend (o : IndexOptions α) (shapes : Array (Shape α)) (f : Face) :
    (faceEdges o shapes f).Pairwise fun a b => EdgeBefore (a.shape, a.edge) (b.shape, b.edge) := by
  unfold faceEdges
  rw [List.pairwise_flatMap]
  constructor
  · rintro ⟨s, id⟩ -
    refine (clipShape_ascend o f id s).imp_of_mem fun ha hb hab => ?_
    exact .inr ⟨(mem_clipShape ha).1.trans (mem_clipShape hb).1.symm, hab⟩
  · refine (pairwise_zipIdx shapes.toList).imp fun hab a ha b hb => .inl ?_
    change a.shape < b.shape
    rw [(mem_clipShape ha).1, (mem_clipShape hb).1]
    exact hab

/-! ## 3. The cells of an index -/

theorem mem_foundCells {o : IndexOptions α} {shapes : Array (Shape α)} {s : StoredCell} :
    s ∈ foundCells o shapes ↔ ∃ f, s ∈ Subdivision.ofFace o f (faceEdges o shapes f) := by
  unfold foundCells
  rw [List.mem_flatMap]
  refine ⟨fun ⟨f, _, h⟩ => ⟨f, h⟩, fun ⟨f, h⟩ => ⟨f, ?_, h⟩⟩
  cases f <;> decide

theorem ofFace_contains {o : IndexOptions α} {f : Face} {edges : List (FaceEdge α)}
    {s : StoredCell} (hs : s ∈ Subdivision.ofFace o f edges) :
    s.id.IsValid ∧ (CellId.ofFace f).Contains s.id := by
  have h := Subdivision.cellsBelow_contains _ (PaddedCell.onTree_ofFace f o.cellPadding) _ hs
  rwa [PaddedCell.ofFace, PaddedCell.id_ofId] at h

theorem foundCells_apart (o : IndexOptions α) (shapes : Array (Shape α)) :
    (foundCells o shapes).Pairwise fun a b => a.id.Apart b.id := by
  unfold foundCells
  rw [List.pairwise_flatMap]
  constructor
  · intro f _
    exact Subdivision.cellsBelow_apart _ (PaddedCell.onTree_ofFace f _) _
  · have hnumber : Face.all.Pairwise fun f g => f.number < g.number := by decide
    refine hnumber.imp fun {f g} hfg x hx y hy => .inl ?_
    obtain ⟨hxv, hfx⟩ := ofFace_contains hx
    obtain ⟨hyv, hgy⟩ := ofFace_contains hy
    refine CellId.IsValid.precedes_of_contains (.ofFace f) (.ofFace g) hxv hyv ?_ hfx hgy
    rw [(CellId.Numbered.ofFace f).precedes_iff (.ofFace g)]
    exact Nat.mul_le_mul_right _ hfg

theorem mem_cellsOf {o : IndexOptions α} {shapes : Array (Shape α)} {s : StoredCell} :
    s ∈ cellsOf o shapes ↔ s ∈ foundCells o shapes := (List.mergeSort_perm _ _).mem_iff

theorem cellsOf_inOrder (o : IndexOptions α) (shapes : Array (Shape α)) :
    StoredInOrder (cellsOf o shapes) := by
  have hvalid : ∀ s ∈ cellsOf o shapes, s.id.IsValid := by
    intro s hs
    obtain ⟨f, hs⟩ := mem_foundCells.1 (mem_cellsOf.1 hs)
    exact (ofFace_contains hs).1
  have hapart : (cellsOf o shapes).Pairwise fun a b => a.id.Apart b.id :=
    (foundCells_apart o shapes).perm (List.mergeSort_perm _ _).symm CellId.Apart.symm
  have trans (a b c : StoredCell) : decide (a.id ≤ b.id) = true → decide (b.id ≤ c.id) = true →
      decide (a.id ≤ c.id) = true := by
    rw [decide_eq_true_iff, decide_eq_true_iff, decide_eq_true_iff]
    exact UInt64.le_trans
  have total (a b : StoredCell) : (decide (a.id ≤ b.id) || decide (b.id ≤ a.id)) = true := by
    rw [Bool.or_eq_true, decide_eq_true_iff, decide_eq_true_iff]
    exact UInt64.le_total _ _
  have hsorted : (cellsOf o shapes).Pairwise fun a b => a.id ≤ b.id :=
    (List.pairwise_mergeSort trans total _).imp of_decide_eq_true
  -- Of two cells that do not overlap, the one with the smaller id comes first.
  refine ⟨hvalid, (hsorted.and hapart).imp_of_mem fun {a b} ha hb ⟨hle, hab⟩ => ?_⟩
  rcases hab with hab | hba
  · exact hab
  · have hlt := (hvalid b hb).lt_of_precedes (hvalid a ha) hba
    exact absurd hle (UInt64.not_le.2 hlt)

theorem cellsOf_content {o : IndexOptions α} {shapes : Array (Shape α)} {c : StoredCell}
    (hc : c ∈ cellsOf o shapes) : c.content.Proper shapes := by
  obtain ⟨f, hs⟩ := mem_foundCells.1 (mem_cellsOf.1 hc)
  obtain ⟨sub, hne, hsub, hcontent⟩ := Subdivision.cellsBelow_content _ _ _ hs
  have hlabels : Subdivision.labels ((faceEdges o shapes f).map fun e =>
      (⟨e, Rect.ofPair e.a e.b⟩ : CellEdge α)) =
      (faceEdges o shapes f).map fun e => (e.shape, e.edge) := List.map_map
  rw [hlabels] at hsub
  have hascend : sub.Pairwise EdgeBefore :=
    (List.pairwise_map.2 (faceEdges_ascend o shapes f)).sublist hsub
  rw [hcontent]
  refine ⟨Content.group_ne_nil hne, Content.grouped_group hascend, fun g hg => ?_⟩
  have hmem {i : Nat} (hi : i ∈ g.edges) :
      ∃ s, shapes[g.shape]? = some s ∧ i < s.edges.size := by
    obtain ⟨e, he, heq⟩ := List.mem_map.1 (hsub.subset (Content.mem_group_edges hg hi))
    obtain ⟨s, hs, hlt⟩ := mem_faceEdges he
    obtain ⟨hshape, hedge⟩ := Prod.mk.inj heq
    rw [hshape] at hs
    rw [hedge] at hlt
    exact ⟨s, hs, hlt⟩
  -- A group has some edge, which tells of the shape of all of them.
  obtain ⟨i, hi⟩ :=
    List.exists_mem_of_ne_nil _ ((Content.grouped_group hascend).edges_ne_nil g hg)
  obtain ⟨s, hs, -⟩ := hmem hi
  refine ⟨s, hs, fun i hi => ?_⟩
  obtain ⟨s', hs', hlt⟩ := hmem hi
  rw [hs] at hs'
  exact Option.some.inj hs' ▸ hlt

theorem proper_rebuild (x : ShapeIndex α) : x.rebuild.Proper := by
  refine ⟨?_, fun c hc => ?_⟩
  · exact cellsOf_inOrder x.options x.shapes
  · exact cellsOf_content (List.mem_toArray.1 hc)

/-- **After a rebuild** the stored cells are valid, ascend and do not overlap.  Each lists some
edges, in groups by strictly ascending shape; each group has some edges of its shape, strictly
ascending; and the search for a shape gives its group, if there is one. -/
theorem rebuild_keeps_order (x : ShapeIndex α) :
    (∀ c ∈ x.rebuild.cells, c.id.IsValid) ∧
    (x.rebuild.cells.toList.Pairwise fun a b => a.id < b.id ∧ a.id.rangeMax < b.id.rangeMin) ∧
    ∀ c ∈ x.rebuild.cells,
      0 < c.content.numEdges ∧
      (c.content.clipped.Pairwise fun g h => g.shape < h.shape) ∧
      (∀ g ∈ c.content.clipped, g.edges ≠ [] ∧ g.edges.Pairwise (· < ·) ∧
        ∃ s, x.rebuild.shape? g.shape = some s ∧ ∀ e ∈ g.edges, e < s.edges.size) ∧
      ∀ shape g, c.content.find? shape = some g ↔ g ∈ c.content.clipped ∧ g.shape = shape := by
  obtain ⟨⟨hvalid, hprec⟩, hcontents⟩ := x.proper_rebuild
  refine ⟨fun c hc => hvalid c (Array.mem_toList_iff.2 hc), ?_, fun c hc => ?_⟩
  · refine hprec.imp_of_mem fun {a b} ha hb hab => ⟨?_, hab⟩
    exact (hvalid a ha).lt_of_precedes (hvalid b hb) hab
  · obtain ⟨hne, hgrouped, hlt⟩ := hcontents c hc
    refine ⟨?_, hgrouped.shapes_ascend, fun g hg => ?_, fun shape g => ?_⟩
    · obtain ⟨g, hg⟩ := List.exists_mem_of_ne_nil _ hne
      obtain ⟨e, he⟩ := List.exists_mem_of_ne_nil _ (hgrouped.edges_ne_nil g hg)
      rw [Content.numEdges_eq_length]
      exact List.length_pos_of_mem (Content.mem_ungroup.2 ⟨g, hg, rfl, he⟩)
    · exact ⟨hgrouped.edges_ne_nil g hg, hgrouped.edges_ascend g hg, hlt g hg⟩
    · exact Content.find?_eq_some_iff hgrouped

end ShapeIndex

end SphereIndex
