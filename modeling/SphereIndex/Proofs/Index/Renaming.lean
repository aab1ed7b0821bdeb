import Mathlib.Data.List.FinRange
import Mathlib.Data.List.Forall2
import Mathlib.GroupTheory.Perm.List
import Mathlib.Logic.Equiv.Fin.Basic
import SphereIndex.Proofs.Index.Reachable

/-!
# The same shapes in another order

Shapes get their numbers in the order in which they are added.  Two indexes of the same shapes, added
in different orders, differ in these numbers alone: every cell is given the same edges in another
order, so it is divided in both or in neither, and what is listed in a stored cell is the same up to
the numbers.  Nothing is assumed of the arithmetic.
-/

namespace SphereIndex

/-! ## 1. Lists -/

/-- Sorting keeps members paired if the order of the members does not tell the lists apart. -/
theorem forall₂_mergeSort {β γ : Type} {R : β → γ → Prop} {r : β → β → Bool} {s : γ → γ → Bool}
    (hrs : ∀ a a' b b', R a b → R a' b' → r a a' = s b b') {xs : List β} {ys : List γ}
    (h : List.Forall₂ R xs ys) : List.Forall₂ R (xs.mergeSort r) (ys.mergeSort s) := by
  obtain ⟨hlength, hpairs⟩ := List.forall₂_iff_zip.1 h
  have hfst : (xs.zip ys).map Prod.fst = xs := List.map_fst_zip hlength.le
  have hsnd : (xs.zip ys).map Prod.snd = ys := List.map_snd_zip hlength.ge
  -- The pairs are sorted by their first members, which is to sort them by their second ones.
  have hleft := List.map_mergeSort (r := fun p q => r p.1 q.1) (s := r) (f := Prod.fst)
    (l := xs.zip ys) fun _ _ _ _ => rfl
  have hright := List.map_mergeSort (r := fun p q => r p.1 q.1) (s := s) (f := Prod.snd)
    (l := xs.zip ys) fun p hp q hq => hrs _ _ _ _ (hpairs hp) (hpairs hq)
  rw [hfst] at hleft
  rw [hsnd] at hright
  rw [← hleft, ← hright, List.forall₂_map_left_iff, List.forall₂_map_right_iff, List.forall₂_same]
  exact fun p hp => hpairs (List.mem_mergeSort.1 hp)

theorem forall₂_flatMap {β γ δ : Type} {R : γ → δ → Prop} {f : β → List γ} {g : β → List δ}
    (xs : List β) (h : ∀ x ∈ xs, List.Forall₂ R (f x) (g x)) :
    List.Forall₂ R (xs.flatMap f) (xs.flatMap g) := by
  induction xs with
  | nil => exact .nil
  | cons x xs ih =>
    rw [List.flatMap_cons, List.flatMap_cons]
    apply List.rel_append
    · exact h x List.mem_cons_self
    · exact ih fun y hy => h y (List.mem_cons_of_mem _ hy)

theorem zipIdx_ofFn {β : Type} {n : Nat} (f : Fin n → β) :
    (List.ofFn f).zipIdx = List.ofFn fun i => (f i, i.val) := by
  apply List.ext_getElem
  · simp
  · simp

/-! ## 2. Numbers of shapes -/

variable {α : Type} {r : ShapeId → ShapeId}

def FaceEdge.renamed (r : ShapeId → ShapeId) (e : FaceEdge α) : FaceEdge α :=
  { e with shape := r e.shape }

def CellEdge.renamed (r : ShapeId → ShapeId) (e : CellEdge α) : CellEdge α :=
  { e with edge := e.edge.renamed r }

/-- Two cells with the same id that list the same edges, up to the numbers of their shapes. -/
structure StoredCell.Renames (r : ShapeId → ShapeId) (s t : StoredCell) : Prop where
  id_eq : s.id = t.id
  perm : ((Content.ungroup s.content.clipped).map fun e => (r e.1, e.2)).Perm
    (Content.ungroup t.content.clipped)

namespace Content

variable {c d : Content}

/-- What the search for a shape finds is told by the edges alone. -/
theorem find?_edges (h : Grouped c.clipped) (shape : ShapeId) :
    (c.find? shape).map (·.edges) =
      if c.edgesOf shape = [] then none else some (c.edgesOf shape) := by
  unfold edgesOf
  cases hg : c.find? shape with
  | none => simp
  | some g => simp [h.edges_ne_nil g ((find?_eq_some_iff h).1 hg).1]

theorem edgesOf_renamed (hr : Function.Injective r) (hc : Grouped c.clipped)
    (hd : Grouped d.clipped)
    (h : ((ungroup c.clipped).map fun e => (r e.1, e.2)).Perm (ungroup d.clipped))
    (shape : ShapeId) : c.edgesOf shape = d.edgesOf (r shape) := by
  -- Both lists ascend strictly, so their members decide.
  apply (edgesOf_ascend hc shape).eq_of_mem_iff (edgesOf_ascend hd (r shape))
  intro e
  rw [mem_edgesOf_iff hc, mem_edgesOf_iff hd, ← h.mem_iff, List.mem_map]
  constructor
  · exact fun he => ⟨_, he, rfl⟩
  · rintro ⟨⟨s, e'⟩, he, heq⟩
    obtain ⟨hs, rfl⟩ := Prod.mk.inj heq
    rwa [← hr hs]

end Content

/-! ## 3. Subdivision -/

namespace Subdivision

variable {edges edges' : List (CellEdge α)}

theorem labels_renamed (edges : List (CellEdge α)) :
    labels (edges.map (·.renamed r)) = (labels edges).map fun e => (r e.1, e.2) := by
  unfold labels
  rw [List.map_map, List.map_map]
  rfl

/-- The number of a shape does not decide whether its edges are short. -/
theorem divides_perm (limit level : Nat) (h : (edges.map (·.renamed r)).Perm edges') :
    Divides limit level edges ↔ Divides limit level edges' := by
  have hcount : numShort level edges = numShort level edges' := by
    unfold numShort
    rw [← h.countP_eq, List.countP_map]
    rfl
  unfold Divides
  rw [hcount]

variable [Scalar α]

theorem clipTo_renamed (rect : Rect α) (edges : List (CellEdge α)) :
    clipTo rect (edges.map (·.renamed r)) = (clipTo rect edges).map (·.renamed r) := by
  unfold clipTo
  rw [List.filterMap_map, List.map_filterMap]
  congr 1
  funext e
  show (Planar.clipBound? e.edge.a e.edge.b rect e.bound).map _ = Option.map _ (Option.map _ _)
  rw [Option.map_map]
  rfl

theorem clipTo_perm (rect : Rect α) (h : (edges.map (·.renamed r)).Perm edges') :
    ((clipTo rect edges).map (·.renamed r)).Perm (clipTo rect edges') := by
  rw [← clipTo_renamed]
  exact h.filterMap _

/-- **Below a cell the same cells are found**, whatever numbers its edges carry and in whatever order
they come. -/
theorem cellsBelow_renamed (limit : Nat) (c : PaddedCell α)
    (h : (edges.map (·.renamed r)).Perm edges') :
    List.Forall₂ (StoredCell.Renames r) (cellsBelow limit c edges) (cellsBelow limit c edges') := by
  have hempty {edges edges' : List (CellEdge α)} (h : (edges.map (·.renamed r)).Perm edges') :
      edges.isEmpty = edges'.isEmpty := by
    rw [← h.isEmpty_eq, List.isEmpty_map]
  fun_induction cellsBelow limit c edges generalizing edges' with
  | case1 c edges he =>
    rw [cellsBelow, if_pos (hempty h ▸ he)]
    exact .nil
  -- The number of short edges is the same, and so is the decision.
  | case2 c edges he hd ih =>
    rw [cellsBelow, if_neg (hempty h ▸ he), dif_pos ((divides_perm limit c.level h).1 hd)]
    exact forall₂_flatMap _ fun q _ => ih q (clipTo_perm _ h)
  | case3 c edges he hd =>
    rw [cellsBelow, if_neg (hempty h ▸ he), dif_neg (mt (divides_perm limit c.level h).2 hd)]
    refine .cons ⟨rfl, ?_⟩ .nil
    show ((Content.ungroup (Content.group (labels edges))).map _).Perm
      (Content.ungroup (Content.group (labels edges')))
    rw [Content.ungroup_group, Content.ungroup_group, ← labels_renamed]
    exact h.map _

theorem ofFace_renamed (o : IndexOptions α) (f : Face) {edges edges' : List (FaceEdge α)}
    (h : (edges.map (·.renamed r)).Perm edges') :
    List.Forall₂ (StoredCell.Renames r) (ofFace o f edges) (ofFace o f edges') := by
  apply cellsBelow_renamed
  rw [List.map_map]
  have hmap := h.map fun e => (⟨e, Rect.ofPair e.a e.b⟩ : CellEdge α)
  rwa [List.map_map] at hmap

end Subdivision

/-! ## 4. Indexes -/

namespace ShapeIndex

/-- The shapes in another order: number `i` is given to the shape that had number `σ i`. -/
def rearranged (shapes : List (Shape α)) (σ : Equiv.Perm (Fin shapes.length)) : List (Shape α) :=
  List.ofFn fun i => shapes[σ i]

/-- What the number of a shape was before; a number that no shape has stays. -/
def formerId {n : Nat} (σ : Equiv.Perm (Fin n)) : Equiv.Perm ShapeId :=
  σ.extendDomain Fin.equivSubtype

theorem formerId_val {n : Nat} (σ : Equiv.Perm (Fin n)) (i : Fin n) : formerId σ i = σ i :=
  σ.extendDomain_apply_image Fin.equivSubtype i

section order
variable (shapes : List (Shape α)) (σ : Equiv.Perm (Fin shapes.length))

theorem rearranged_perm : (rearranged shapes σ).Perm shapes := by
  have hperm := σ.ofFn_comp_perm shapes.get
  rwa [List.ofFn_get] at hperm

/-- With its former number, each shape is among those of the first order. -/
theorem zipIdx_rearranged_perm :
    ((rearranged shapes σ).zipIdx.map fun s => (s.1, formerId σ s.2)).Perm shapes.zipIdx := by
  have hformer : (rearranged shapes σ).zipIdx.map (fun s => (s.1, formerId σ s.2)) =
      List.ofFn ((fun i : Fin shapes.length => (shapes.get i, i.val)) ∘ σ) := by
    rw [rearranged, zipIdx_ofFn, List.map_ofFn]
    congr 1
    funext i
    exact congrArg (Prod.mk _) (formerId_val σ i)
  have hzip := zipIdx_ofFn shapes.get
  rw [List.ofFn_get] at hzip
  rw [hformer, hzip]
  exact σ.ofFn_comp_perm _

end order

variable [Scalar α] (o : IndexOptions α)

theorem clipShape_renamed (f : Face) (id : ShapeId) (s : Shape α) :
    (clipShape o f id s).map (·.renamed r) = clipShape o f (r id) s := by
  unfold clipShape
  rw [List.map_filterMap]
  congr 1
  funext ⟨e, i⟩
  show Option.map _ (Option.map _ _) = _
  rw [Option.map_map]
  rfl

variable (shapes : List (Shape α)) (σ : Equiv.Perm (Fin shapes.length))

/-- **A face is reached by the same edges**, up to their order and the numbers of their shapes. -/
theorem faceEdges_rearranged (f : Face) :
    ((faceEdges o (rearranged shapes σ).toArray f).map (·.renamed (formerId σ))).Perm
      (faceEdges o shapes.toArray f) := by
  have hclip := (zipIdx_rearranged_perm shapes σ).flatMap_right fun s => clipShape o f s.2 s.1
  rw [List.flatMap_map] at hclip
  unfold faceEdges
  rw [List.map_flatMap]
  simp only [clipShape_renamed]
  exact hclip

theorem cellsOf_rearranged :
    List.Forall₂ (StoredCell.Renames (formerId σ)) (cellsOf o (rearranged shapes σ).toArray)
      (cellsOf o shapes.toArray) := by
  apply forall₂_mergeSort
  · intro a a' b b' h h'
    rw [h.id_eq, h'.id_eq]
  · exact forall₂_flatMap _ fun f _ =>
      Subdivision.ofFace_renamed o f (faceEdges_rearranged o shapes σ f)

theorem infoOf_rearranged : (built o (rearranged shapes σ)).info = (built o shapes).info := by
  have hperm := rearranged_perm shapes σ
  have hcells := cellsOf_rearranged o shapes σ
  have hids : (cellsOf o (rearranged shapes σ).toArray).map (·.id) =
      (cellsOf o shapes.toArray).map (·.id) := by
    rw [← List.forall₂_eq_eq_eq, List.forall₂_map_left_iff, List.forall₂_map_right_iff]
    exact hcells.imp fun _ _ h => h.id_eq
  have hsize : (rearranged shapes σ).toArray.size = shapes.toArray.size := hperm.length_eq
  have hedges : (rearranged shapes σ).toArray.foldl (fun n s => n + s.edges.size) 0 =
      shapes.toArray.foldl (fun n s => n + s.edges.size) 0 := by
    rw [← Array.foldl_toList, ← Array.foldl_toList]
    exact hperm.foldl_eq' (fun _ _ _ _ _ => Nat.add_right_comm _ _ _) 0
  have hlevels (cells : List StoredCell) : cells.foldl (fun n c => max n c.id.level) 0 =
      (cells.map (·.id)).foldl (fun n id => max n id.level) 0 := by rw [List.foldl_map]
  show infoOf _ _ = infoOf _ _
  unfold infoOf
  rw [hedges, hsize, hcells.length_eq, hlevels, hids, ← hlevels]

/-- **The order in which shapes are added decides their numbers and nothing else.**  With options
that make sense both indexes are built, their cells have the same ids in the same order, the edges
that a cell lists of a shape are those that it listed under the former number of the shape, and the
summaries agree. -/
theorem build_rearranged {o : IndexOptions α} (ho : o.validate = .ok o)
    (shapes : List (Shape α)) (σ : Equiv.Perm (Fin shapes.length)) :
    ∃ x y, build shapes o = .ok x ∧ build (rearranged shapes σ) o = .ok y ∧
      List.Forall₂ (fun c d => c.id = d.id ∧ ∀ i : Fin shapes.length,
        (d.content.find? i).map (·.edges) = (c.content.find? (σ i)).map (·.edges))
        x.cells.toList y.cells.toList ∧
      x.info = y.info := by
  refine ⟨_, _, build_eq ho _, build_eq ho _, ?_, (infoOf_rearranged o shapes σ).symm⟩
  have hcells : List.Forall₂ (flip (StoredCell.Renames (formerId σ))) (cellsOf o shapes.toArray)
    (cellsOf o (rearranged shapes σ).toArray) := (cellsOf_rearranged o shapes σ).flip
  show List.Forall₂ _ (cellsOf o shapes.toArray) (cellsOf o (rearranged shapes σ).toArray)
  rw [List.forall₂_iff_zip] at hcells ⊢
  refine ⟨hcells.1, fun {c d} hcd => ?_⟩
  have hrenames : d.Renames (formerId σ) c := hcells.2 hcd
  obtain ⟨hc, hd⟩ := List.of_mem_zip hcd
  have hdgrouped := (cellsOf_content hd).grouped
  have hcgrouped := (cellsOf_content hc).grouped
  refine ⟨hrenames.id_eq.symm, fun i => ?_⟩
  have hedges := Content.edgesOf_renamed (formerId σ).injective hdgrouped hcgrouped hrenames.perm i
  rw [formerId_val] at hedges
  show (d.content.find? i).map _ = (c.content.find? (σ i)).map _
  rw [Content.find?_edges hdgrouped, Content.find?_edges hcgrouped, hedges]

/-- Two meridians added in either order, in double precision. -/
theorem build_meridians_swapped :
    (IndexOptions.default : IndexOptions Float).validate = .ok .default ∧
    ∃ x y, build [meridian 1 0, meridian 0 1] .default = .ok x ∧
      build [meridian 0 1, meridian 1 0] .default = .ok y ∧
      List.Forall₂ (fun c d => c.id = d.id ∧
        (d.content.find? 0).map (·.edges) = (c.content.find? 1).map (·.edges) ∧
        (d.content.find? 1).map (·.edges) = (c.content.find? 0).map (·.edges))
        x.cells.toList y.cells.toList ∧
      x.info = y.info := by
  have ho := IndexOptions.validate_default_float
  obtain ⟨x, y, hx, hy, hcells, hinfo⟩ :=
    build_rearranged ho [meridian 1 0, meridian 0 1] (Equiv.swap 0 1)
  exact ⟨ho, x, y, hx, hy, hcells.imp fun c d h => ⟨h.1, h.2 0, h.2 1⟩, hinfo⟩

end ShapeIndex

end SphereIndex
