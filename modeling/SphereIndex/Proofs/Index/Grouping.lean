import SphereIndex.Index.Content

/-!
# Grouping edges by shape

A cell receives its edges by ascending shape, and by ascending edge within a shape.  The groups made
of them then stand by ascending shape, so that the binary search for a shape finds its group
whenever there is one.
-/

namespace SphereIndex

/-- The order in which edges come: by shape, and by edge within a shape. -/
def EdgeBefore (a b : ShapeId × Nat) : Prop := a.1 < b.1 ∨ a.1 = b.1 ∧ a.2 < b.2

namespace Content

/-- **Groups in order**: by strictly ascending shape, each with some edges in strictly ascending
order. -/
structure Grouped (groups : List ClippedShape) : Prop where
  shapes_ascend : groups.Pairwise fun a b => a.shape < b.shape
  edges_ne_nil : ∀ g ∈ groups, g.edges ≠ []
  edges_ascend : ∀ g ∈ groups, g.edges.Pairwise (· < ·)

/-! ## 1. Making groups -/

theorem mem_ungroup {groups : List ClippedShape} {s : ShapeId} {e : Nat} :
    (s, e) ∈ ungroup groups ↔ ∃ g ∈ groups, g.shape = s ∧ e ∈ g.edges := by
  simp only [ungroup, List.mem_flatMap, List.mem_map, Prod.mk.injEq]
  constructor
  · rintro ⟨g, hg, f, hf, hs, rfl⟩
    exact ⟨g, hg, hs, hf⟩
  · rintro ⟨g, hg, hs, he⟩
    exact ⟨g, hg, e, he, hs, rfl⟩

theorem mem_group_edges {edges : List (ShapeId × Nat)} {g : ClippedShape} {e : Nat}
    (hg : g ∈ group edges) (he : e ∈ g.edges) : (g.shape, e) ∈ edges := by
  rw [← ungroup_group edges]
  exact mem_ungroup.2 ⟨g, hg, rfl, he⟩

theorem numEdges_eq_length (c : Content) : c.numEdges = (ungroup c.clipped).length := by
  have hfold (groups : List ClippedShape) (n : Nat) :
      groups.foldl (fun n g => n + g.edges.length) n = n + (ungroup groups).length := by
    induction groups generalizing n with
    | nil => rfl
    | cons g rest ih =>
      have hcons : ungroup (g :: rest) = g.edges.map (fun e => (g.shape, e)) ++ ungroup rest :=
        List.flatMap_cons
      rw [List.foldl_cons, ih, hcons, List.length_append, List.length_map, Nat.add_assoc]
  rw [numEdges, hfold, Nat.zero_add]

theorem group_ne_nil {edges : List (ShapeId × Nat)} (h : edges ≠ []) : group edges ≠ [] := by
  intro h0
  apply h
  rw [← ungroup_group edges, h0]
  rfl

theorem grouped_nil : Grouped [] :=
  ⟨.nil, fun _ hg => absurd hg List.not_mem_nil, fun _ hg => absurd hg List.not_mem_nil⟩

theorem Grouped.tail {g : ClippedShape} {groups : List ClippedShape} (h : Grouped (g :: groups)) :
    Grouped groups :=
  ⟨h.shapes_ascend.of_cons, fun g' hg => h.edges_ne_nil g' (List.mem_cons_of_mem _ hg),
    fun g' hg => h.edges_ascend g' (List.mem_cons_of_mem _ hg)⟩

theorem Grouped.cons {g : ClippedShape} {groups : List ClippedShape} (h : Grouped groups)
    (hlt : ∀ g' ∈ groups, g.shape < g'.shape) (hne : g.edges ≠ [])
    (hascend : g.edges.Pairwise (· < ·)) : Grouped (g :: groups) := by
  refine ⟨List.pairwise_cons.2 ⟨hlt, h.shapes_ascend⟩, ?_, ?_⟩
  · rintro g' (_ | ⟨_, hg⟩)
    · exact hne
    · exact h.edges_ne_nil g' hg
  · rintro g' (_ | ⟨_, hg⟩)
    · exact hascend
    · exact h.edges_ascend g' hg

theorem grouped_group {edges : List (ShapeId × Nat)} (h : edges.Pairwise EdgeBefore) :
    Grouped (group edges) := by
  induction edges with
  | nil => exact grouped_nil
  | cons x rest ih =>
    obtain ⟨s, e⟩ := x
    have ih := ih h.of_cons
    have hbefore {g : ClippedShape} {f : Nat} (hg : g ∈ group rest) (hf : f ∈ g.edges) :
        EdgeBefore (s, e) (g.shape, f) := (List.pairwise_cons.1 h).1 _ (mem_group_edges hg hf)
    rw [group]
    cases hg : group rest with
    | nil =>
      exact grouped_nil.cons (fun _ hg => absurd hg List.not_mem_nil) (List.cons_ne_nil _ _)
        (List.pairwise_singleton _ _)
    | cons c cs =>
      rw [hg] at ih hbefore
      have hc : c ∈ c :: cs := List.mem_cons_self
      have hcs := (List.pairwise_cons.1 ih.shapes_ascend).1
      by_cases hs : c.shape = s
      · -- The new edge comes before those of the group that it joins.
        simp only [hs, if_true]
        refine ih.tail.cons (fun g hg => hs ▸ hcs g hg) (List.cons_ne_nil _ _) ?_
        refine List.pairwise_cons.2 ⟨fun f hf => ?_, ih.edges_ascend c hc⟩
        rcases hbefore hc hf with hlt | ⟨-, hlt⟩
        · exact absurd hlt (hs ▸ Nat.lt_irrefl _)
        · exact hlt
      · -- Its shape comes before that of the first group, and so before all others.
        simp only [hs, if_false]
        have hlt : s < c.shape := by
          obtain ⟨f, hf⟩ := List.exists_mem_of_ne_nil _ (ih.edges_ne_nil c hc)
          rcases hbefore hc hf with hlt | ⟨heq, -⟩
          · exact hlt
          · exact absurd heq.symm hs
        refine ih.cons (fun g hg => ?_) (List.cons_ne_nil _ _) (List.pairwise_singleton _ _)
        rcases List.mem_cons.1 hg with rfl | hg
        · exact hlt
        · exact Nat.lt_trans hlt (hcs g hg)

/-! ## 2. Finding a group -/

/-- **The search for a shape gives its group** if it has one, and nothing if it has none. -/
theorem find?_eq_some_iff {c : Content} (h : Grouped c.clipped) {shape : ShapeId}
    {g : ClippedShape} : c.find? shape = some g ↔ g ∈ c.clipped ∧ g.shape = shape := by
  have hparted : Parted c.clipped.toArray (·.shape < shape) := by
    refine h.shapes_ascend.imp fun hab hb => ?_
    exact decide_eq_true (Nat.lt_trans hab (of_decide_eq_true hb))
  have hleft {n : Nat} {x : ClippedShape} (hx : c.clipped.toArray[n]? = some x) :
      n < partitionPoint c.clipped.toArray (·.shape < shape) ↔ x.shape < shape := by
    rw [lt_partitionPoint_iff hparted hx, decide_eq_true_iff]
  unfold find?
  rw [Option.filter_eq_some_iff, beq_iff_eq]
  refine and_congr_left fun hs => ⟨fun hg => ?_, fun hg => ?_⟩
  · rw [List.getElem?_toArray] at hg
    exact List.mem_of_getElem? hg
  · obtain ⟨n, hn⟩ := List.mem_iff_getElem?.1 hg
    rw [← List.getElem?_toArray] at hn
    -- The group stands at the partition point: not left of it, and with nothing between.
    have hle : ¬n < partitionPoint c.clipped.toArray (·.shape < shape) := by
      rw [hleft hn, hs]
      exact Nat.lt_irrefl _
    obtain hlt | heq := Nat.lt_or_eq_of_le (Nat.le_of_not_lt hle)
    · have hsize : n < c.clipped.toArray.size := (Array.getElem?_eq_some_iff.1 hn).1
      have hy := Array.getElem?_eq_getElem (Nat.lt_trans hlt hsize)
      have hge := mt (hleft hy).2 (Nat.lt_irrefl _)
      have hlt' := List.pairwise_iff_getElem.1 h.shapes_ascend _ n (Nat.lt_trans hlt hsize) hsize hlt
      rw [List.getElem?_toArray, List.getElem?_eq_getElem hsize] at hn
      rw [Option.some.inj hn, hs] at hlt'
      exact absurd hlt' hge
    · rw [heq]
      exact hn

theorem mem_edgesOf_iff {c : Content} (h : Grouped c.clipped) {shape : ShapeId} {e : Nat} :
    e ∈ c.edgesOf shape ↔ (shape, e) ∈ ungroup c.clipped := by
  rw [mem_ungroup, edgesOf]
  cases hf : c.find? shape with
  | none =>
    refine ⟨fun he => absurd he List.not_mem_nil, fun ⟨g, hg, hs, _⟩ => ?_⟩
    rw [(find?_eq_some_iff h).2 ⟨hg, hs⟩] at hf
    cases hf
  | some g =>
    obtain ⟨hg, hs⟩ := (find?_eq_some_iff h).1 hf
    refine ⟨fun he => ⟨g, hg, hs, he⟩, fun ⟨g', hg', hs', he⟩ => ?_⟩
    rw [(find?_eq_some_iff h).2 ⟨hg', hs'⟩] at hf
    obtain rfl := Option.some.inj hf
    exact he

theorem edgesOf_ascend {c : Content} (h : Grouped c.clipped) (shape : ShapeId) :
    (c.edgesOf shape).Pairwise (· < ·) := by
  unfold edgesOf
  cases hf : c.find? shape with
  | none => exact .nil
  | some g => exact h.edges_ascend g ((find?_eq_some_iff h).1 hf).1

/-- Of groups by strictly ascending shape, one alone has edges of its shape. -/
theorem Grouped.flatMap_eq {groups : List ClippedShape} (h : Grouped groups) {g : ClippedShape}
    (hg : g ∈ groups) :
    (groups.flatMap fun x => if x.shape = g.shape then x.edges else []) = g.edges := by
  have hnone (rest : List ClippedShape) (hrest : ∀ x ∈ rest, x.shape ≠ g.shape) :
      (rest.flatMap fun x => if x.shape = g.shape then x.edges else []) = [] :=
    List.flatMap_eq_nil_iff.2 fun x hx => if_neg (hrest x hx)
  induction groups with
  | nil => cases hg
  | cons first rest ih =>
    have hlt := (List.pairwise_cons.1 h.shapes_ascend).1
    rw [List.flatMap_cons]
    rcases List.mem_cons.1 hg with rfl | hg
    · rw [if_pos rfl, hnone rest fun x hx => Nat.ne_of_gt (hlt x hx), List.append_nil]
    · rw [if_neg (Nat.ne_of_lt (hlt g hg)), List.nil_append, ih h.tail hg]

/-- The search for a shape gives the same edges as a pass over all groups. -/
theorem edgesOf_eq_flatMap {c : Content} (h : Grouped c.clipped) (shape : ShapeId) :
    c.edgesOf shape = c.clipped.flatMap fun g => if g.shape = shape then g.edges else [] := by
  unfold edgesOf
  cases hf : c.find? shape with
  | none =>
    refine (List.flatMap_eq_nil_iff.2 fun g hg => if_neg fun hs => ?_).symm
    rw [(find?_eq_some_iff h).2 ⟨hg, hs⟩] at hf
    cases hf
  | some g =>
    obtain ⟨hg, rfl⟩ := (find?_eq_some_iff h).1 hf
    exact (h.flatMap_eq hg).symm

end Content

end SphereIndex
