import SphereIndex.Proofs.Cell.Square
import SphereIndex.Proofs.Index.Invariant
import SphereIndex.Proofs.Planar.Segment

/-!
# What the cells of a face list

A child clips its edges starting from the bounds that its parent left.  In exact arithmetic such a
bound is the box of the part of the edge in the rectangle of the parent, so nothing is lost or added
on the way down: every cell has exactly the edges that reach its rectangle, and as long as a cell has
an edge the leaf cells below it stay covered.
-/

namespace SphereIndex

open Planar

/-- Some point of the edge lies in the rectangle. -/
def FaceEdge.Reaches (e : FaceEdge ℝ) (r : Rect ℝ) : Prop := ∃ p, OnSegment e.a e.b p ∧ r.Contains p

/-- The numbers under which the edge is listed. -/
def FaceEdge.label {α : Type} (e : FaceEdge α) : ShapeId × Nat := (e.shape, e.edge)

namespace Subdivision

open Classical in
/-- The edges among the given ones that reach a rectangle. -/
noncomputable def reaching (r : Rect ℝ) (edges : List (FaceEdge ℝ)) : List (FaceEdge ℝ) :=
  edges.filter fun e => e.Reaches r

theorem mem_reaching {r : Rect ℝ} {edges : List (FaceEdge ℝ)} {e : FaceEdge ℝ} :
    e ∈ reaching r edges ↔ e ∈ edges ∧ e.Reaches r := by
  classical
  rw [reaching, List.mem_filter, decide_eq_true_iff]

theorem reaching_eq_self {r : Rect ℝ} {edges : List (FaceEdge ℝ)} (h : ∀ e ∈ edges, e.Reaches r) :
    reaching r edges = edges := by
  classical
  rw [reaching, List.filter_eq_self]
  intro e he
  exact decide_eq_true (h e he)

/-! ## 1. Clipping -/

/-- The bound of the edge is the box of its part in a rectangle. -/
def IsClipped (r : Rect ℝ) (e : CellEdge ℝ) : Prop :=
  ∃ s t, Cut (fun x => r.Contains (pointAt e.edge.a e.edge.b x)) 0 1 (some (s, t)) ∧
    e.bound = partBound e.edge.a e.edge.b s t

theorem reaches_iff_exists {e : FaceEdge ℝ} {r : Rect ℝ} :
    e.Reaches r ↔ ∃ x, 0 ≤ x ∧ x ≤ 1 ∧ r.Contains (pointAt e.a e.b x) := by
  constructor
  · rintro ⟨_, ⟨x, h0, h1, rfl⟩, hp⟩
    exact ⟨x, h0, h1, hp⟩
  · rintro ⟨x, h0, h1, hp⟩
    exact ⟨_, ⟨x, h0, h1, rfl⟩, hp⟩

theorem IsClipped.reaches {r : Rect ℝ} {e : CellEdge ℝ} (h : IsClipped r e) : e.edge.Reaches r := by
  obtain ⟨s, t, hcut, -⟩ := h
  cases hcut with
  | between hs hst ht hiff =>
    have h1 := hst.trans ht
    exact reaches_iff_exists.2 ⟨s, hs, h1, (hiff s hs h1).2 ⟨le_rfl, hst⟩⟩

/-- **Clipping to a smaller rectangle** goes on from the bound that the larger one left. -/
theorem clip_isClipped {r r' : Rect ℝ} (hsub : ∀ p, r'.Contains p → r.Contains p) {e : CellEdge ℝ}
    (h : IsClipped r e) :
    (¬e.edge.Reaches r' ∧ clipBound? e.edge.a e.edge.b r' e.bound = none) ∨
      ∃ bound, clipBound? e.edge.a e.edge.b r' e.bound = some bound ∧
        IsClipped r' ⟨e.edge, bound⟩ := by
  obtain ⟨s, t, hcut, hbound⟩ := h
  have hst : s ≤ t := by
    cases hcut with
    | between _ hst _ _ => exact hst
  obtain ⟨part, hpart, hclip⟩ := clipBound?_cut e.edge.a e.edge.b r' hst
  -- Being in both rectangles is being in the smaller one.
  have hall : Cut (fun x => r'.Contains (pointAt e.edge.a e.edge.b x)) 0 1 part :=
    (hcut.and hpart).congr fun x => ⟨fun hx => hx.2, fun hx => ⟨hsub _ hx, hx⟩⟩
  rw [← hbound] at hclip
  cases part with
  | none =>
    refine .inl ⟨fun hr => ?_, hclip⟩
    obtain ⟨x, h0, h1, hx⟩ := reaches_iff_exists.1 hr
    cases hall with
    | nowhere hno => exact hno x h0 h1 hx
  | some part => exact .inr ⟨_, hclip, part.1, part.2, hall, rfl⟩

/-! ## 2. One cell -/

/-- **The edges of a cell**: those of the face that reach its rectangle, each with the box of its
part there. -/
structure Holds (r : Rect ℝ) (all : List (FaceEdge ℝ)) (edges : List (CellEdge ℝ)) : Prop where
  edges_eq : edges.map (·.edge) = reaching r all
  clipped : ∀ e ∈ edges, IsClipped r e

theorem map_clipTo {r r' : Rect ℝ} (hsub : ∀ p, r'.Contains p → r.Contains p)
    {edges : List (CellEdge ℝ)} (h : ∀ e ∈ edges, IsClipped r e) :
    (clipTo r' edges).map (·.edge) = reaching r' (edges.map (·.edge)) := by
  unfold clipTo reaching
  induction edges with
  | nil => rfl
  | cons e rest ih =>
    have ih := ih fun e he => h e (List.mem_cons_of_mem _ he)
    rcases clip_isClipped hsub (h e List.mem_cons_self) with ⟨hno, hclip⟩ | ⟨bound, hclip, hnew⟩
    · rw [List.filterMap_cons_none (by rw [hclip]; rfl), List.map_cons,
        List.filter_cons_of_neg (by simpa using hno), ih]
    · rw [List.filterMap_cons_some (by rw [hclip]; rfl), List.map_cons, List.map_cons,
        List.filter_cons_of_pos (by simpa using hnew.reaches), ih]

theorem Holds.clipTo {r r' : Rect ℝ} {all : List (FaceEdge ℝ)} {edges : List (CellEdge ℝ)}
    (h : Holds r all edges) (hsub : ∀ p, r'.Contains p → r.Contains p) :
    Holds r' all (clipTo r' edges) := by
  refine ⟨?_, fun e he => ?_⟩
  · -- An edge that reaches the smaller rectangle also reaches the larger one.
    rw [map_clipTo hsub h.clipped, h.edges_eq, reaching, reaching, List.filter_filter]
    refine List.filter_congr fun e _ => ?_
    have himp : e.Reaches r' → e.Reaches r := fun ⟨p, hp, hin⟩ => ⟨p, hp, hsub p hin⟩
    by_cases he : e.Reaches r' <;> simp [he, himp]
  · obtain ⟨e', he', hclip⟩ := List.mem_filterMap.1 he
    rcases clip_isClipped hsub (h.clipped e' he') with ⟨-, hnone⟩ | ⟨bound, hsome, hnew⟩
    · rw [hnone] at hclip
      cases hclip
    · rw [hsome] at hclip
      exact Option.some.inj hclip ▸ hnew

theorem child_bound_subset {c : PaddedCell ℝ} (h : c.Exact) (hl : c.level < maxLevel)
    (q : Quadrant) {p : Vec2 ℝ} (hp : (c.child q).bound.Contains p) : c.bound.Contains p := by
  have hchild := h.child hl q
  have hl' := hl
  rw [h.level_eq] at hl'
  have hbelow := h.isValid.contains_child hl' (c.orientation.digit q)
  rw [Rect.contains_iff_along] at hp ⊢
  intro axis
  have hin := hp axis
  rw [hchild.bound_along] at hin
  rw [h.bound_along]
  have hlo := CellId.lo_le_lo h.isValid hchild.isValid hbelow axis
  have hhi := CellId.hi_le_hi h.isValid hchild.isValid hbelow axis
  have hpad : (c.child q).padding = c.padding := rfl
  rw [hpad] at hin
  exact ⟨(sub_le_sub_right hlo _).trans hin.1, hin.2.trans (add_le_add_left hhi _)⟩

/-! ## 3. All cells -/

variable {limit : Nat} {c : PaddedCell ℝ} {all : List (FaceEdge ℝ)} {edges : List (CellEdge ℝ)}

theorem bound_eq_ofId (h : c.Exact) : (PaddedCell.ofId c.id c.padding).bound = c.bound :=
  congrArg (·.bound) (h.eq_ofId rfl).symm

/-- Every cell found lists the edges that reach its padded rectangle. -/
theorem ungroup_of_mem_cellsBelow (hc : c.Exact) (h : Holds c.bound all edges) {s : StoredCell}
    (hs : s ∈ cellsBelow limit c edges) : Content.ungroup s.content.clipped =
      (reaching (PaddedCell.ofId s.id c.padding).bound all).map FaceEdge.label := by
  fun_induction cellsBelow limit c edges with
  | case1 => cases hs
  | case2 c edges _ hdiv ih =>
    -- Dividing clips the edges to the rectangle of the child, which keeps `Holds`.
    obtain ⟨q, -, hs⟩ := List.mem_flatMap.1 hs
    exact ih q (hc.child hdiv.1 q) (h.clipTo fun p => child_bound_subset hc hdiv.1 q) hs
  | case3 c edges =>
    obtain rfl := List.mem_singleton.1 hs
    change Content.ungroup (Content.group (edges.map fun e => e.edge.label)) = _
    rw [Content.ungroup_group, bound_eq_ofId hc, ← h.edges_eq, List.map_map]
    rfl

/-- A point of the square of a cell lies in its padded rectangle. -/
theorem padded_contains (h : c.Exact) {p : Vec2 ℝ} (hp : c.id.bound.Contains p) :
    c.bound.Contains p := by
  have h0 := h.padding_nonneg
  rw [Rect.contains_iff_along] at hp ⊢
  intro axis
  have hin := hp axis
  rw [h.bound_along]
  exact ⟨(sub_le_self _ h0).trans hin.1, hin.2.trans (le_add_of_nonneg_right h0)⟩

theorem square_contains {a b : CellId} (ha : a.IsValid) (hb : b.IsValid) (h : a.Contains b)
    {p : Vec2 ℝ} (hp : b.bound.Contains p) : a.bound.Contains p := by
  rw [Rect.contains_iff_along] at hp ⊢
  intro axis
  have hin := hp axis
  exact ⟨(CellId.lo_le_lo ha hb h axis).trans hin.1, hin.2.trans (CellId.hi_le_hi ha hb h axis)⟩

theorem mem_clipTo {r r' : Rect ℝ} (hsub : ∀ p, r'.Contains p → r.Contains p) {e : CellEdge ℝ}
    (he : e ∈ edges) (h : IsClipped r e) (hreach : e.edge.Reaches r') :
    ∃ bound, ⟨e.edge, bound⟩ ∈ clipTo r' edges ∧ IsClipped r' ⟨e.edge, bound⟩ := by
  rcases clip_isClipped hsub h with ⟨hno, -⟩ | ⟨bound, hclip, hnew⟩
  · exact absurd hreach hno
  · exact ⟨bound, List.mem_filterMap.2 ⟨e, he, by rw [hclip]; rfl⟩, hnew⟩

/-- Below a cell, a leaf cell with a point of an edge in its square is covered by a stored cell that
lists the edge. -/
theorem exists_mem_cellsBelow (limit : Nat) (hc : c.Exact) {e : CellEdge ℝ} (he : e ∈ edges)
    (h : IsClipped c.bound e) {p : Vec2 ℝ} (hp : OnSegment e.edge.a e.edge.b p) {leaf : CellId}
    (hleaf : leaf.IsValid) (hlevel : leaf.level = maxLevel) (hcl : c.id.Contains leaf)
    (hin : leaf.bound.Contains p) : ∃ s ∈ cellsBelow limit c edges,
      s.id.Contains leaf ∧ e.edge.label ∈ Content.ungroup s.content.clipped := by
  fun_induction cellsBelow limit c edges generalizing e with
  | case1 c edges hempty =>
    rw [List.isEmpty_iff.1 hempty] at he
    cases he
  | case2 c edges _ hdiv ih =>
    have hlt := hdiv.1
    rw [hc.level_eq] at hlt
    have hne : leaf ≠ c.id := by
      rintro rfl
      exact absurd hlevel (Nat.ne_of_lt hlt)
    -- The leaf cell lies below one child, whose padded rectangle therefore has the point.
    obtain ⟨-, d, hd⟩ := hc.isValid.exists_child_contains hleaf hcl hne
    have hchild := hc.child hdiv.1 (c.orientation.quadrant d)
    have hid : (c.child (c.orientation.quadrant d)).id = c.id.child d := by
      rw [PaddedCell.id_child, Orientation.digit_quadrant]
    rw [← hid] at hd
    have hreach : e.edge.Reaches (c.child (c.orientation.quadrant d)).bound :=
      ⟨p, hp, padded_contains hchild (square_contains hchild.isValid hleaf hd hin)⟩
    obtain ⟨bound, hmem, hnew⟩ :=
      mem_clipTo (fun p => child_bound_subset hc hdiv.1 _) he h hreach
    obtain ⟨s, hs, hsl⟩ := ih (c.orientation.quadrant d) hchild hmem hnew hp hd
    exact ⟨s, List.mem_flatMap.2 ⟨_, Quadrant.mem_all _, hs⟩, hsl⟩
  | case3 c edges =>
    refine ⟨_, List.mem_singleton_self _, hcl, ?_⟩
    change _ ∈ Content.ungroup (Content.group (edges.map fun e => e.edge.label))
    rw [Content.ungroup_group]
    exact List.mem_map_of_mem he

/-! ## 4. A whole face -/

theorem contains_pointAt {r : Rect ℝ} {a b : Vec2 ℝ} {y : ℝ} (ha : r.Contains a)
    (hb : r.Contains b) (h0 : 0 ≤ y) (h1 : y ≤ 1) : r.Contains (pointAt a b y) := by
  rw [Rect.contains_iff_along] at ha hb ⊢
  intro axis
  have hlo := mul_nonneg h0 (sub_nonneg.2 (hb axis).1)
  have hlo' := mul_nonneg (sub_nonneg.2 h1) (sub_nonneg.2 (ha axis).1)
  have hhi := mul_nonneg h0 (sub_nonneg.2 (hb axis).2)
  have hhi' := mul_nonneg (sub_nonneg.2 h1) (sub_nonneg.2 (ha axis).2)
  rw [← linear_along, linear]
  constructor <;> linarith

/-- The edge lies in the padded square of the face. -/
def InPaddedSquare (f : Face) (padding : ℝ) (e : FaceEdge ℝ) : Prop :=
  (PaddedCell.ofFace f padding).bound.Contains e.a ∧ (PaddedCell.ofFace f padding).bound.Contains e.b

/-- All edges lie in the padded square of the face. -/
def InPaddedFace (f : Face) (padding : ℝ) (edges : List (FaceEdge ℝ)) : Prop :=
  ∀ e ∈ edges, InPaddedSquare f padding e

theorem InPaddedSquare.isClipped {f : Face} {padding : ℝ} {e : FaceEdge ℝ}
    (h : InPaddedSquare f padding e) :
    IsClipped (PaddedCell.ofFace f padding).bound ⟨e, Rect.ofPair e.a e.b⟩ :=
  ⟨0, 1, .all zero_le_one fun _ h0 h1 => contains_pointAt h.1 h.2 h0 h1,
    ofPair_eq_partBound e.a e.b⟩

theorem holds_ofFace {f : Face} {padding : ℝ} {edges : List (FaceEdge ℝ)}
    (h : InPaddedFace f padding edges) : Holds (PaddedCell.ofFace f padding).bound edges
      (edges.map fun e => ⟨e, Rect.ofPair e.a e.b⟩) := by
  refine ⟨?_, fun e he => ?_⟩
  · rw [List.map_map, reaching_eq_self fun e he => (h e he).isClipped.reaches]
    exact List.map_id edges
  · obtain ⟨e, hmem, rfl⟩ := List.mem_map.1 he
    exact (h e hmem).isClipped

theorem exact_ofFace (f : Face) {padding : ℝ} (h : 0 ≤ padding) :
    (PaddedCell.ofFace f padding).Exact := PaddedCell.exact_ofId (.ofFace f) h

/-- The stored cells of a face cover the leaf cells along every edge in the padded square, and list
it there. -/
theorem exists_mem_ofFace {o : IndexOptions ℝ} (hpad : 0 ≤ o.cellPadding) {f : Face}
    {edges : List (FaceEdge ℝ)} {e : FaceEdge ℝ} (he : e ∈ edges)
    (h : InPaddedSquare f o.cellPadding e) {p : Vec2 ℝ} (hp : OnSegment e.a e.b p) {leaf : CellId}
    (hleaf : leaf.IsValid) (hlevel : leaf.level = maxLevel) (hface : leaf.faceNumber = f.number)
    (hin : leaf.bound.Contains p) : ∃ c ∈ ofFace o f edges,
      c.id.Contains leaf ∧ e.label ∈ Content.ungroup c.content.clipped := by
  have hid : (PaddedCell.ofFace f o.cellPadding).id = CellId.ofFace f := PaddedCell.id_ofId _ _
  have hroot : (PaddedCell.ofFace f o.cellPadding).id.Contains leaf := by
    rw [hid]
    exact hleaf.contains_of_faceNumber hface
  exact exists_mem_cellsBelow o.maxEdgesPerCell (exact_ofFace f hpad) (List.mem_map_of_mem he)
    h.isClipped hp hleaf hlevel hroot hin

/-- **What the stored cells of a face list.**  A stored cell lists, in order, exactly the edges that
reach its padded rectangle.  And every leaf cell with a point of an edge in its square lies below a
stored cell, which lists the edge: the stored cells leave no gap along any edge. -/
theorem ofFace_lists_reaching_edges (o : IndexOptions ℝ) (hpad : 0 ≤ o.cellPadding) (f : Face)
    (edges : List (FaceEdge ℝ)) (h : InPaddedFace f o.cellPadding edges) :
    (∀ c ∈ ofFace o f edges,
      Content.ungroup c.content.clipped =
        (reaching (PaddedCell.ofId c.id o.cellPadding).bound edges).map FaceEdge.label ∧
      ∀ e ∈ edges, (∀ e' ∈ edges, e'.label = e.label → e' = e) →
        (e.label ∈ Content.ungroup c.content.clipped ↔
          e.Reaches (PaddedCell.ofId c.id o.cellPadding).bound)) ∧
    ∀ e ∈ edges, ∀ p, OnSegment e.a e.b p → ∀ leaf : CellId, leaf.IsValid →
      leaf.level = maxLevel → leaf.faceNumber = f.number → leaf.bound.Contains p →
      ∃ c ∈ ofFace o f edges,
        c.id.Contains leaf ∧ e.label ∈ Content.ungroup c.content.clipped := by
  have hpadding : (PaddedCell.ofFace f o.cellPadding).padding = o.cellPadding :=
    PaddedCell.padding_ofId _ _
  refine ⟨fun c hc => ?_, fun e he p hp leaf hleaf hlevel hface hin => ?_⟩
  · have hlists := ungroup_of_mem_cellsBelow (exact_ofFace f hpad) (holds_ofFace h) hc
    rw [hpadding] at hlists
    refine ⟨hlists, fun e he hunique => ?_⟩
    rw [hlists, List.mem_map]
    constructor
    · rintro ⟨e', he', hlabel⟩
      obtain ⟨hmem, hreach⟩ := mem_reaching.1 he'
      exact hunique e' hmem hlabel ▸ hreach
    · intro hreach
      exact ⟨e, mem_reaching.2 ⟨he, hreach⟩, rfl⟩
  · exact exists_mem_ofFace hpad he (h e he) hp hleaf hlevel hface hin

/-- Two edges, the second of which ends in the center of the face. -/
noncomputable def twoEdges : List (FaceEdge ℝ) :=
  [⟨0, 0, ⟨-1, -1⟩, ⟨1, -1⟩, 5⟩, ⟨0, 1, ⟨-1, 1⟩, ⟨0, 0⟩, 5⟩]

theorem twoEdges_inPaddedFace : InPaddedFace .xPos 0 twoEdges := by
  have hbound : (PaddedCell.ofFace .xPos (0 : ℝ)).bound = ⟨⟨-1, 1⟩, ⟨-1, 1⟩⟩ := by
    change PaddedCell.around ((1 : ℝ) + 0) = _
    rw [add_zero]
    rfl
  intro e he
  unfold InPaddedSquare
  rw [hbound]
  simp only [twoEdges, List.mem_cons, List.not_mem_nil, or_false] at he
  rcases he with rfl | rfl <;> norm_num [Rect.Contains, Interval.Contains]

/-- The leaf cell above and to the right of the center is covered by a cell with the second edge. -/
theorem twoEdges_listed_at_center : (0 : ℝ) ≤ 0 ∧ InPaddedFace .xPos 0 twoEdges ∧
    ∃ c ∈ ofFace ⟨1, (0 : ℝ), 1⟩ .xPos twoEdges,
      c.id.Contains (CellId.ofLeaf 0 (2 ^ 29) (2 ^ 29)) ∧
        (0, 1) ∈ Content.ungroup c.content.clipped := by
  refine ⟨le_rfl, twoEdges_inPaddedFace, ?_⟩
  have hvalid : (CellId.ofLeaf 0 (2 ^ 29) (2 ^ 29)).IsValid := by decide +kernel
  obtain ⟨-, hcovers⟩ :=
    ofFace_lists_reaching_edges ⟨1, (0 : ℝ), 1⟩ le_rfl .xPos twoEdges twoEdges_inPaddedFace
  refine hcovers _ (List.mem_cons_of_mem _ List.mem_cons_self) ⟨0, 0⟩
    ⟨1, zero_le_one, le_rfl, by simp [pointAt]⟩ _ hvalid (by decide +kernel) (by decide +kernel) ?_
  rw [Rect.contains_iff_along]
  intro axis
  have hcorner : (CellId.ofLeaf 0 (2 ^ 29) (2 ^ 29)).corner axis = 2 ^ 29 := by
    cases axis <;> decide +kernel
  have hpoint : (Vec2.mk (0 : ℝ) 0).along axis = 0 := by cases axis <;> rfl
  rw [CellId.bound_along hvalid, hcorner, hpoint]
  have hlt := CellId.lo_lt_hi hvalid axis
  rw [CellId.bound_along hvalid, hcorner] at hlt
  have hmiddle := Grid.line_middle
  exact ⟨hmiddle.le, hmiddle.symm.le.trans hlt.le⟩

end Subdivision

end SphereIndex
