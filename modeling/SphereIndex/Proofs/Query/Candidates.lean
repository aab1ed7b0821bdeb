import SphereIndex.Proofs.Arc.Rounds
import SphereIndex.Proofs.Index.Reachable
import SphereIndex.Proofs.Query.Soundness

/-!
# What a query reports

A query looks up the edges of one shape, or collects those of all shapes, in the same cells, and
merges the lists under the same condition.  If it merges nothing there is at most one list, which
ascends already.  So both report the same strictly ascending list for every shape, whatever values
the arithmetic gives.  An edge that is never followed to its end leaves both without an answer.
-/

namespace SphereIndex.EdgeQuery

variable {α : Type} {q : EdgeQuery α} {a b : Vec3 α} {shape : ShapeId} {s : Shape α} {n : Nat}
  {found : List StoredCell}

theorem any_ofList {β : Type} (xs : List β) : (Outcome.ofList xs).any = true ↔ xs ≠ [] := by
  unfold Outcome.ofList
  rw [Bool.not_eq_true', List.isEmpty_eq_false_iff]

/-! ## 1. What is gathered from the cells -/

theorem mem_gathered (h : ∀ c ∈ found, Content.Grouped c.content.clipped) {e : Nat} :
    e ∈ gathered n found shape ↔
      ∃ c ∈ found, (shape, e) ∈ Content.ungroup c.content.clipped := by
  have hlisted : e ∈ found.flatMap (fun c => c.content.edgesOf shape) ↔
      ∃ c ∈ found, (shape, e) ∈ Content.ungroup c.content.clipped := by
    rw [List.mem_flatMap]
    exact exists_congr fun c => and_congr_right fun hc => Content.mem_edgesOf_iff (h c hc)
  rw [← hlisted]
  unfold gathered
  dsimp only
  split
  · exact mem_ascending
  · exact Iff.rfl

/-- **Without merging the list ascends already**: at most one cell was found. -/
theorem gathered_ascend (h : ∀ c ∈ found, Content.Grouped c.content.clipped) :
    (gathered n found shape).Pairwise (· < ·) := by
  unfold gathered
  dsimp only
  split
  · exact pairwise_ascending _
  · rename_i hmerge
    simp only [Bool.or_eq_true, decide_eq_true_iff, not_or] at hmerge
    match found with
    | [] => exact .nil
    | [c] =>
      rw [List.flatMap_singleton]
      exact Content.edgesOf_ascend (h c (List.mem_singleton_self c)) shape
    | c :: d :: rest =>
      simp only [List.length_cons] at hmerge
      omega

theorem lt_of_mem_gathered (h : ∀ c ∈ found, c.content.Proper q.index.shapes) {e : Nat}
    (he : e ∈ gathered n found shape) : ∃ s, q.index.shape? shape = some s ∧ e < s.edges.size := by
  obtain ⟨c, hc, he⟩ := (mem_gathered fun c hc => (h c hc).grouped).1 he
  obtain ⟨g, hg, rfl, heg⟩ := Content.mem_ungroup.1 he
  obtain ⟨s, hs, hlt⟩ := (h c hc).edge_lt g hg
  exact ⟨s, hs, hlt e heg⟩

theorem ordered_gatheredMap (n : Nat) (found : List StoredCell) : (gatheredMap n found).Ordered := by
  have hlisted : (listed [] found).Ordered := EdgeMap.Ordered.foldl_append .nil _
  unfold gatheredMap
  split
  · exact hlisted.sorted
  · exact hlisted

/-- **Both queries gather the same list for every shape.** -/
theorem edgesOf_gatheredMap (h : ∀ c ∈ found, Content.Grouped c.content.clipped)
    (shape : ShapeId) : (gatheredMap n found).edgesOf shape = gathered n found shape := by
  have hlisted : (listed [] found).edgesOf shape =
      found.flatMap fun c => c.content.edgesOf shape := by
    rw [listed, EdgeMap.edgesOf_foldl_append .nil, List.flatMap_assoc]
    refine List.flatMap_congr fun c hc => ?_
    exact (Content.edgesOf_eq_flatMap (h c hc) shape).symm
  unfold gatheredMap gathered
  dsimp only
  split
  · rw [EdgeMap.edgesOf_sorted, hlisted]
  · exact hlisted

theorem isSome_find?_gatheredMap (n : Nat) (found : List StoredCell) (shape : ShapeId) :
    ((gatheredMap n found).find? shape).isSome = true ↔
      ∃ c ∈ found, ∃ g ∈ c.content.clipped, g.shape = shape := by
  have hlisted : ((listed [] found).find? shape).isSome = true ↔
      ∃ c ∈ found, ∃ g ∈ c.content.clipped, g.shape = shape := by
    rw [listed, EdgeMap.isSome_find?_foldl_append .nil]
    simp only [EdgeMap.find?, Option.isSome_none, Bool.false_eq_true, false_or, List.mem_flatMap]
    constructor
    · rintro ⟨g, ⟨c, hc, hg⟩, hs⟩
      exact ⟨c, hc, g, hg, hs⟩
    · rintro ⟨c, hc, g, hg, hs⟩
      exact ⟨g, ⟨c, hc, hg⟩, hs⟩
  rw [← hlisted]
  unfold gatheredMap
  split
  · rw [EdgeMap.find?_sorted, Option.isSome_map]
  · exact Iff.rfl

/-- Every entry has some edges, in ascending order, and all of them in range. -/
theorem entry_gatheredMap (h : ∀ c ∈ found, c.content.Proper q.index.shapes)
    {x : ShapeId × List Nat} (hx : x ∈ gatheredMap n found) :
    x.2 ≠ [] ∧ x.2.Pairwise (· < ·) ∧
      ∃ s, q.index.shape? x.1 = some s ∧ ∀ e ∈ x.2, e < s.edges.size := by
  have hgrouped (c : StoredCell) (hc : c ∈ found) := (h c hc).grouped
  have hordered := ordered_gatheredMap n found
  have hedges : x.2 = gathered n found x.1 := by
    rw [← edgesOf_gatheredMap hgrouped, EdgeMap.edgesOf_of_mem hordered hx]
  have hkey : ((gatheredMap n found).find? x.1).isSome = true := by
    rw [(EdgeMap.find?_eq_some_iff hordered).2 hx]
    rfl
  -- Some group of a cell has the shape, and that group has an edge.
  obtain ⟨c, hc, g, hg, hshape⟩ := (isSome_find?_gatheredMap n found x.1).1 hkey
  obtain ⟨e, he⟩ := List.exists_mem_of_ne_nil _ ((hgrouped c hc).edges_ne_nil g hg)
  have hmem : e ∈ gathered n found x.1 :=
    (mem_gathered hgrouped).2 ⟨c, hc, Content.mem_ungroup.2 ⟨g, hg, hshape, he⟩⟩
  rw [hedges]
  refine ⟨List.ne_nil_of_mem hmem, gathered_ascend hgrouped, ?_⟩
  obtain ⟨s, hs, -⟩ := lt_of_mem_gathered h hmem
  refine ⟨s, hs, fun f hf => ?_⟩
  obtain ⟨s', hs', hlt⟩ := lt_of_mem_gathered h hf
  rw [hs] at hs'
  exact Option.some.inj hs' ▸ hlt

/-! ## 2. The edges of one shape -/

variable [Scalar α]

theorem proper_of_report? (h : q.index.Proper) (hr : q.report? a b = some (n, found))
    {c : StoredCell} (hc : c ∈ found) : c.content.Proper q.index.shapes :=
  h.contents c (mem_of_report? hr hc)

theorem cells?_eq_none_iff : q.cells? a b = none ↔ q.report? a b = none := by
  rw [← Option.map_eq_none_iff, cells?_fst, Option.map_eq_none_iff]

/-- What the search reports, given the cells that it returns. -/
theorem exists_report?_of_cells? {r : EdgeQuery α} (h : q.cells? a b = some (found, r)) :
    ∃ n, q.report? a b = some (n, found) := by
  have hfound : (q.report? a b).map (·.2) = some found := by rw [← cells?_fst, h, Option.map_some]
  obtain ⟨⟨n, found⟩, hr, rfl⟩ := Option.map_eq_some_iff.1 hfound
  exact ⟨n, hr⟩

theorem exists_of_map_fst {β σ : Type} {x : β} {call : Option (β × σ)}
    (h : call.map (·.1) = some x) : ∃ r, call = some (x, r) := by
  obtain ⟨⟨y, r⟩, hcall, rfl⟩ := Option.map_eq_some_iff.1 h
  exact ⟨r, hcall⟩

/-- **The search for an edge does not end if and only if the edge is followed for ever.** -/
theorem cells?_eq_none_iff_endless (q : EdgeQuery α) (a b : Vec3 α) :
    q.cells? a b = none ↔ Arc.Endless a b := by
  rw [cells?_eq_none_iff, report?_eq_none, Arc.faceSegments?_eq_none_iff]

theorem candidates?_eq_none_iff_of_many {edges : List Nat} (hs : q.index.shape? shape = some s)
    (hmany : q.options.maxBruteForceEdges < s.edges.size) :
    q.candidates? a b shape edges = none ↔ q.cells? a b = none := by
  rw [← Option.map_eq_none_iff, candidates?_of_many hs hmany, Option.map_eq_none_iff,
    cells?_eq_none_iff]

theorem candidates?_ne_none (h : q.cells? a b ≠ none) (shape : ShapeId) (edges : List Nat) :
    q.candidates? a b shape edges ≠ none := by
  cases hs : q.index.shape? shape with
  | none =>
    rw [candidates?_of_unknown hs]
    exact Option.some_ne_none _
  | some s =>
    by_cases hfew : s.edges.size ≤ q.options.maxBruteForceEdges
    · rw [candidates?_of_few hs hfew]
      exact Option.some_ne_none _
    · exact mt (candidates?_eq_none_iff_of_many hs (Nat.not_le.1 hfew)).1 h

/-- **The bool tells whether the list has members**, in every answer. -/
theorem any_of_candidates? {edges : List Nat} {x : Outcome (List Nat)} {r : EdgeQuery α}
    (h : q.candidates? a b shape edges = some (x, r)) : x.any = true ↔ x.result ≠ [] := by
  have hlist : ∃ xs, x = .ofList xs := by
    cases hs : q.index.shape? shape with
    | none =>
      rw [candidates?_of_unknown hs] at h
      obtain ⟨rfl, -⟩ := Prod.mk.inj (Option.some.inj h)
      exact ⟨[], rfl⟩
    | some s =>
      by_cases hfew : s.edges.size ≤ q.options.maxBruteForceEdges
      · rw [candidates?_of_few hs hfew] at h
        obtain ⟨rfl, -⟩ := Prod.mk.inj (Option.some.inj h)
        exact ⟨_, rfl⟩
      · have hfst := candidates?_of_many hs (Nat.not_le.1 hfew) a b edges
        rw [h, Option.map_some] at hfst
        obtain ⟨report, -, hx⟩ := Option.map_eq_some_iff.1 hfst.symm
        exact ⟨_, hx.symm⟩
  obtain ⟨xs, rfl⟩ := hlist
  exact any_ofList xs

/-- **The candidates of one shape**: none for an unknown shape, all edges of a shape of few, and of
any other shape the strictly ascending list of the edges that the cells on AB list for it.  The query
says whether there are any, and does not look at what the list held before.  A shape of many edges
has an answer whenever the cells on AB do, and they do unless AB is followed for ever. -/
theorem candidates_enumerate (h : q.index.Reachable) (a b : Vec3 α) (shape : ShapeId)
    (edges : List Nat) :
    (q.index.shape? shape = none → q.candidates? a b shape edges = some (⟨false, []⟩, q)) ∧
    (∀ s, q.index.shape? shape = some s → s.edges.size ≤ q.options.maxBruteForceEdges →
      q.candidates? a b shape edges = some (.ofList (List.range s.edges.size), q)) ∧
    (∀ s, q.index.shape? shape = some s → q.options.maxBruteForceEdges < s.edges.size →
      (q.candidates? a b shape edges = none ↔ q.cells? a b = none) ∧
      ∀ cells r, q.cells? a b = some (cells, r) → ∃ x r,
        q.candidates? a b shape edges = some (x, r) ∧ x.result.Pairwise (· < ·) ∧
        (∀ e, e ∈ x.result ↔ ∃ c ∈ cells, (shape, e) ∈ Content.ungroup c.content.clipped) ∧
        ∀ e ∈ x.result, e < s.edges.size) ∧
    (q.cells? a b = none ↔ Arc.Endless a b) ∧
    ∀ x r, q.candidates? a b shape edges = some (x, r) → (x.any = true ↔ x.result ≠ []) := by
  refine ⟨fun hs => candidates?_of_unknown hs, fun s hs hfew => candidates?_of_few hs hfew a b edges,
    fun s hs hmany => ⟨candidates?_eq_none_iff_of_many hs hmany, fun cells r hcells => ?_⟩,
    cells?_eq_none_iff_endless q a b, fun x r hx => any_of_candidates? hx⟩
  obtain ⟨n, hr⟩ := exists_report?_of_cells? hcells
  have hproper (c : StoredCell) (hc : c ∈ cells) := proper_of_report? h.proper hr hc
  have hgrouped (c : StoredCell) (hc : c ∈ cells) := (hproper c hc).grouped
  have hfst := candidates?_of_many hs hmany a b edges
  rw [hr, Option.map_some] at hfst
  obtain ⟨r, hx⟩ := exists_of_map_fst hfst
  refine ⟨_, r, hx, gathered_ascend hgrouped, fun e => mem_gathered hgrouped, fun e he => ?_⟩
  obtain ⟨s', hs', hlt⟩ := lt_of_mem_gathered hproper he
  rw [hs] at hs'
  exact Option.some.inj hs' ▸ hlt

/-! The instances here and below are about a query edge along a quarter of the equator. -/

theorem noShapes_reachable :
    (⟨.default, #[], #[], 0, ⟨0, 0, 0, 0⟩⟩ : ShapeIndex ℝ).Reachable := by
  refine .empty (o := .default) ?_
  unfold ShapeIndex.empty
  rw [IndexOptions.validate_default]
  rfl

theorem twoShapes_reachable : twoShapes.rebuild.Reachable :=
  .rebuild (.add (.add noShapes_reachable _) _)

theorem quarterEquator_onSphere : (Edge.mk (⟨1, 0, 0⟩ : Vec3 ℝ) ⟨0, 1, 0⟩).OnSphere := by
  refine ⟨?_, ?_, fun heq => ?_⟩
  · norm_num [Vec3.lengthSquared_eq]
  · norm_num [Vec3.lengthSquared_eq]
  · have hx : (0 : ℝ) = -1 := congrArg Vec3.x heq
    norm_num at hx

noncomputable def twoShapesQuery (limit : Nat) : EdgeQuery ℝ := ofIndex twoShapes.rebuild ⟨limit⟩

/-- The meridian of the first shape starts where the query edge does. -/
theorem quarterEquator_lists (limit : Nat) :
    ∃ cells r, (twoShapesQuery limit).cells? ⟨1, 0, 0⟩ ⟨0, 1, 0⟩ = some (cells, r) ∧
      ∃ c ∈ cells, (0, 0) ∈ Content.ungroup c.content.clipped := by
  have hbetween (p : Vec3 ℝ) : Vec3.Between ⟨1, 0, 0⟩ p ⟨1, 0, 0⟩ := by
    refine ⟨1, 0, by norm_num, by norm_num, by norm_num, ?_⟩
    ext <;> norm_num
  have hedge : (Edge.mk (⟨1, 0, 0⟩ : Vec3 ℝ) ⟨0, 0, 1⟩).OnSphere :=
    twoShapes_onSphere _ (Array.mem_of_getElem? (i := 0) rfl) _ (Array.mem_of_getElem? (i := 0) rfl)
  obtain ⟨n, cells, hr, c, hc, hlists, -⟩ := exists_mem_found (q := twoShapesQuery limit)
    (IndexOptions.padding_nonneg IndexOptions.validate_default) rfl quarterEquator_onSphere.isArc
    (show twoShapes.shapes[0]? = some _ from rfl) (k := 0) rfl hedge.isArc (hbetween _) (hbetween _)
  have hcells : ((twoShapesQuery limit).cells? ⟨1, 0, 0⟩ ⟨0, 1, 0⟩).map (·.1) = some cells := by
    rw [cells?_fst, hr, Option.map_some]
  obtain ⟨r, hcells⟩ := exists_of_map_fst hcells
  exact ⟨cells, r, hcells, c, hc, hlists⟩

/-- An unknown shape, the first shape as one of few edges, and as one of many. -/
theorem candidates_quarterEquator : twoShapes.rebuild.Reachable ∧
    (twoShapesQuery 0).candidates? ⟨1, 0, 0⟩ ⟨0, 1, 0⟩ 2 [7] =
      some (⟨false, []⟩, twoShapesQuery 0) ∧
    (twoShapesQuery 1).candidates? ⟨1, 0, 0⟩ ⟨0, 1, 0⟩ 0 [7] =
      some (⟨true, [0]⟩, twoShapesQuery 1) ∧
    ∃ r, (twoShapesQuery 0).candidates? ⟨1, 0, 0⟩ ⟨0, 1, 0⟩ 0 [7] = some (⟨true, [0]⟩, r) := by
  have hreachable := twoShapes_reachable
  have hshape : twoShapes.shapes[0]? = some ⟨#[⟨⟨1, 0, 0⟩, ⟨0, 0, 1⟩⟩]⟩ := rfl
  obtain ⟨hunknown, -⟩ := candidates_enumerate (q := twoShapesQuery 0) hreachable
    ⟨1, 0, 0⟩ ⟨0, 1, 0⟩ 2 [7]
  obtain ⟨-, hfew, -⟩ := candidates_enumerate (q := twoShapesQuery 1) hreachable
    ⟨1, 0, 0⟩ ⟨0, 1, 0⟩ 0 [7]
  obtain ⟨-, -, hmany, -, hany⟩ := candidates_enumerate (q := twoShapesQuery 0) hreachable
    ⟨1, 0, 0⟩ ⟨0, 1, 0⟩ 0 [7]
  obtain ⟨cells, r, hcells, hlisted⟩ := quarterEquator_lists 0
  obtain ⟨-, hmany⟩ := hmany _ hshape (by decide)
  obtain ⟨x, r, hx, hascend, hmem, hlt⟩ := hmany cells r hcells
  refine ⟨hreachable, hunknown rfl, hfew _ hshape (by decide), r, ?_⟩
  have hlist : x.result = [0] := by
    refine hascend.eq_of_mem_iff (List.pairwise_singleton _ _) fun e => ?_
    rw [List.mem_singleton]
    exact ⟨fun he => Nat.lt_one_iff.1 (hlt e he), fun he => he ▸ (hmem 0).2 hlisted⟩
  have htrue := hany x r hx
  rw [hlist] at htrue
  rw [hx, show x = ⟨true, [0]⟩ from congrArg₂ Outcome.mk (htrue.2 (List.cons_ne_nil _ _)) hlist]

/-! ## 3. The edges of all shapes -/

theorem candidatesByShape?_eq_none_iff_of_many (hmany : q.index.numShapes ≠ 1) (map : EdgeMap) :
    q.candidatesByShape? a b map = none ↔ q.cells? a b = none := by
  rw [← Option.map_eq_none_iff, candidatesByShape?_of_many hmany, Option.map_eq_none_iff,
    cells?_eq_none_iff]

theorem candidatesByShape?_ne_none (h : q.cells? a b ≠ none) (map : EdgeMap) :
    q.candidatesByShape? a b map ≠ none := by
  by_cases hone : q.index.numShapes = 1
  · rw [candidatesByShape?_of_one hone map [], Ne, Option.map_eq_none_iff]
    exact candidates?_ne_none h 0 []
  · exact mt (candidatesByShape?_eq_none_iff_of_many hone map).1 h

/-- **The candidates of all shapes agree with those of each.**  On an index of one shape the map has
exactly the entry of that shape, with the same list and answer, whatever it held before.  Otherwise
there is an answer whenever the cells on AB have one, and the map has exactly the shapes that they
list, each with some edges, ascending and in range: for a shape of many edges the same list as the
query for that shape alone, for a shape of few some of them.  The query says whether the map has any
entry. -/
theorem candidatesByShape_agrees (h : q.index.Reachable) (a b : Vec3 α) (map : EdgeMap) :
    (q.index.numShapes = 1 → ∀ edges, q.candidatesByShape? a b map =
      (q.candidates? a b 0 edges).map fun (x, q) => (⟨x.any, [(0, x.result)]⟩, q)) ∧
    (q.index.numShapes ≠ 1 →
      (q.candidatesByShape? a b map = none ↔ q.cells? a b = none) ∧
      ∀ cells r, q.cells? a b = some (cells, r) → ∃ x r,
        q.candidatesByShape? a b map = some (x, r) ∧ x.result.Ordered ∧
        (∀ shape, (x.result.find? shape).isSome = true ↔
          ∃ c ∈ cells, ∃ g ∈ c.content.clipped, g.shape = shape) ∧
        (∀ entry ∈ x.result, entry.2 ≠ [] ∧ entry.2.Pairwise (· < ·) ∧
          ∃ s, q.index.shape? entry.1 = some s ∧ ∀ e ∈ entry.2, e < s.edges.size) ∧
        (∀ shape s edges, q.index.shape? shape = some s → ∃ y r,
          q.candidates? a b shape edges = some (y, r) ∧
          (q.options.maxBruteForceEdges < s.edges.size → x.result.edgesOf shape = y.result) ∧
          (s.edges.size ≤ q.options.maxBruteForceEdges →
            ∀ e ∈ x.result.edgesOf shape, e ∈ y.result)) ∧
        (x.any = true ↔ x.result ≠ [])) := by
  refine ⟨fun hone edges => candidatesByShape?_of_one hone map edges, fun hmany =>
    ⟨candidatesByShape?_eq_none_iff_of_many hmany map, fun cells r hcells => ?_⟩⟩
  obtain ⟨n, hr⟩ := exists_report?_of_cells? hcells
  have hproper (c : StoredCell) (hc : c ∈ cells) := proper_of_report? h.proper hr hc
  have hgrouped (c : StoredCell) (hc : c ∈ cells) := (hproper c hc).grouped
  have hfst := candidatesByShape?_of_many (a := a) (b := b) hmany map
  rw [hr, Option.map_some] at hfst
  obtain ⟨r, hx⟩ := exists_of_map_fst hfst
  refine ⟨_, r, hx, ordered_gatheredMap n cells, isSome_find?_gatheredMap n cells,
    fun entry hentry => entry_gatheredMap hproper hentry, fun shape s edges hs => ?_, any_ofList _⟩
  change ∃ y r, _ ∧ (_ → (gatheredMap n cells).edgesOf shape = _) ∧
    (_ → ∀ e ∈ (gatheredMap n cells).edgesOf shape, _)
  rw [edgesOf_gatheredMap hgrouped]
  by_cases hfew : s.edges.size ≤ q.options.maxBruteForceEdges
  · refine ⟨_, q, candidates?_of_few hs hfew a b edges, fun hlarge => absurd hfew (Nat.not_le.2 hlarge),
      fun _ e he => ?_⟩
    obtain ⟨s', hs', hlt⟩ := lt_of_mem_gathered hproper he
    rw [hs] at hs'
    exact List.mem_range.2 (Option.some.inj hs' ▸ hlt)
  · have hfst := candidates?_of_many hs (Nat.not_le.1 hfew) a b edges
    rw [hr, Option.map_some] at hfst
    obtain ⟨r, hy⟩ := exists_of_map_fst hfst
    exact ⟨_, r, hy, fun _ => rfl, fun hsmall => absurd hsmall hfew⟩

noncomputable def oneShape : ShapeIndex ℝ :=
  ⟨.default, #[⟨#[⟨⟨1, 0, 0⟩, ⟨0, 0, 1⟩⟩]⟩], #[], 1, ⟨0, 0, 0, 0⟩⟩

/-- An index of one shape, where the entry of another does not stay, and an index of two. -/
theorem candidatesByShape_quarterEquator :
    (oneShape.Reachable ∧ (ofIndex oneShape .default).candidatesByShape? ⟨1, 0, 0⟩ ⟨0, 1, 0⟩
      [(5, [3])] = some (⟨true, [(0, [0])]⟩, ofIndex oneShape .default)) ∧
    twoShapes.rebuild.Reachable ∧ ∀ map : EdgeMap, ∃ x r y r',
      (twoShapesQuery 0).candidatesByShape? ⟨1, 0, 0⟩ ⟨0, 1, 0⟩ map = some (x, r) ∧
      (twoShapesQuery 0).candidates? ⟨1, 0, 0⟩ ⟨0, 1, 0⟩ 0 [] = some (y, r') ∧
      x.any = true ∧ x.result.edgesOf 0 = y.result := by
  have hone : oneShape.Reachable := .add noShapes_reachable _
  refine ⟨⟨hone, ?_⟩, twoShapes_reachable, fun map => ?_⟩
  · obtain ⟨hentry, -⟩ := candidatesByShape_agrees (q := ofIndex oneShape .default) hone
      ⟨1, 0, 0⟩ ⟨0, 1, 0⟩ [(5, [3])]
    have hfew := candidates?_of_few (q := ofIndex oneShape .default)
      (show oneShape.shapes[0]? = some _ from rfl) (by decide) ⟨1, 0, 0⟩ ⟨0, 1, 0⟩ []
    rw [hentry rfl [], hfew]
    rfl
  · obtain ⟨-, htwo⟩ := candidatesByShape_agrees (q := twoShapesQuery 0) twoShapes_reachable
      ⟨1, 0, 0⟩ ⟨0, 1, 0⟩ map
    obtain ⟨cells, r, hcells, c, hc, hlists⟩ := quarterEquator_lists 0
    obtain ⟨-, htwo⟩ := htwo (by decide)
    obtain ⟨x, r, hx, -, hkeys, -, hedges, hany⟩ := htwo cells r hcells
    obtain ⟨y, r', hy, hlarge, -⟩ := hedges 0 _ [] (show twoShapes.shapes[0]? = some _ from rfl)
    obtain ⟨g, hg, hshape, -⟩ := Content.mem_ungroup.1 hlists
    refine ⟨x, r, y, r', hx, hy, hany.2 fun hnil => ?_, hlarge (by decide)⟩
    have hkey := (hkeys 0).2 ⟨c, hc, g, hg, hshape⟩
    rw [hnil] at hkey
    exact absurd hkey (by decide)

end SphereIndex.EdgeQuery
