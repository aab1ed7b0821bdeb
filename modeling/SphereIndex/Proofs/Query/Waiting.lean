import SphereIndex.Proofs.Index.Growth
import SphereIndex.Proofs.Query.Candidates

/-!
# Shapes that wait for a rebuild

The cells of an index list shapes of the last rebuild only, so a shape that was added since is never
found in them.  But a query does not look up everything in the cells: a shape of few edges is taken
as a whole from the list of shapes, and there it stands from the moment it is added.  What a query
shows of a waiting shape depends on this alone.
-/

namespace SphereIndex

variable {α : Type} [Scalar α]

/-! ## 1. Indexes with waiting shapes -/

namespace ShapeIndex

variable {o : IndexOptions α} {indexed waiting : List (Shape α)}

theorem Reachable.run {x : ShapeIndex α} (h : x.Reachable) (ops : List (Operation α)) :
    (x.run ops).2.Reachable := by
  induction ops generalizing x with
  | nil => exact h
  | cons op rest ih =>
    cases op with
    | add s shared => exact ih (h.add s)
    | rebuild => exact ih h.rebuild

theorem exists_eq_staged {x : ShapeIndex α} (h : empty o = .ok x) :
    ∃ o' : IndexOptions α, x = staged o' [] [] := by
  unfold empty at h
  cases hv : o.validate with
  | error e =>
    rw [hv] at h
    cases h
  | ok o' =>
    rw [hv] at h
    cases h
    exact ⟨o', (staged_nil o').symm⟩

/-- **No cell lists a waiting shape.** -/
theorem lt_of_listed_staged {c : StoredCell} (hc : c ∈ (staged o indexed waiting).cells)
    {g : ClippedShape} (hg : g ∈ c.content.clipped) : g.shape < indexed.length := by
  have hfound : c ∈ cellsOf o indexed.toArray := List.mem_toArray.1 hc
  obtain ⟨s, hs, -⟩ := (cellsOf_content hfound).edge_lt g hg
  rw [List.getElem?_toArray] at hs
  exact (List.getElem?_eq_some_iff.1 hs).1

/-- If the index was not rebuilt after some operations, then its cells are of the shapes that were
added before, or of fewer. -/
theorem lt_of_listed_run {x : ShapeIndex α} (hx : empty o = .ok x)
    {before after : List (Operation α)} (hafter : .rebuild ∉ after) {c : StoredCell}
    (hc : c ∈ (x.run (before ++ after)).2.cells) {g : ClippedShape}
    (hg : g ∈ c.content.clipped) : g.shape < (added before).length := by
  obtain ⟨o', rfl⟩ := exists_eq_staged hx
  obtain ⟨indexed, waiting, happend, hrun⟩ := exists_staged_run o' [] [] before
  rw [run_append, hrun] at hc
  dsimp only at hc
  rw [run_staged_of_no_rebuild hafter] at hc
  have hall : indexed ++ waiting = added before := happend
  have hlength : indexed.length ≤ (added before).length := by
    rw [← hall, List.length_append]
    exact Nat.le_add_right _ _
  exact Nat.lt_of_lt_of_le (lt_of_listed_staged hc hg) hlength

theorem shape?_run {x : ShapeIndex α} (hx : empty o = .ok x) (ops : List (Operation α))
    (i : ShapeId) : (x.run ops).2.shape? i = (added ops)[i]? := by
  obtain ⟨o', rfl⟩ := exists_eq_staged hx
  obtain ⟨indexed, waiting, happend, hrun⟩ := exists_staged_run o' [] [] ops
  rw [hrun, shape?_staged, happend]
  rfl

theorem numShapes_run {x : ShapeIndex α} (hx : empty o = .ok x) (ops : List (Operation α)) :
    (x.run ops).2.numShapes = (added ops).length := by
  obtain ⟨o', rfl⟩ := exists_eq_staged hx
  obtain ⟨indexed, waiting, happend, hrun⟩ := exists_staged_run o' [] [] ops
  rw [hrun, numShapes_staged, happend]
  rfl

end ShapeIndex

/-! ## 2. Queries -/

namespace EdgeQuery

open ShapeIndex

variable {q : EdgeQuery α} {shape : ShapeId} {s : Shape α}

/-- **Nothing is gathered for a shape that no cell of the index lists.** -/
theorem gathered_eq_nil (h : q.index.Proper)
    (hunlisted : ∀ c ∈ q.index.cells, ∀ g ∈ c.content.clipped, g.shape ≠ shape) {a b : Vec3 α}
    {n : Nat} {found : List StoredCell} (hr : q.report? a b = some (n, found)) :
    gathered n found shape = [] := by
  apply List.eq_nil_iff_forall_not_mem.2
  intro e he
  obtain ⟨c, hc, hlists⟩ := (mem_gathered fun c hc => (proper_of_report? h hr hc).grouped).1 he
  obtain ⟨g, hg, hshape, -⟩ := Content.mem_ungroup.1 hlists
  exact hunlisted c (mem_of_report? hr hc) g hg hshape

/-- **What a query for one shape shows of an unlisted one**: nothing if it looks it up. -/
theorem candidates?_of_unlisted (h : q.index.Proper)
    (hunlisted : ∀ c ∈ q.index.cells, ∀ g ∈ c.content.clipped, g.shape ≠ shape)
    (hs : q.index.shape? shape = some s) {a b : Vec3 α} {edges : List Nat} {x : Outcome (List Nat)}
    {r : EdgeQuery α} (hx : q.candidates? a b shape edges = some (x, r)) :
    x = .ofList (if s.edges.size ≤ q.options.maxBruteForceEdges then List.range s.edges.size
      else []) := by
  split
  · rename_i hfew
    rw [candidates?_of_few hs hfew] at hx
    exact (Prod.mk.inj (Option.some.inj hx)).1.symm
  · rename_i hmany
    have hfst := candidates?_of_many hs (Nat.lt_of_not_le hmany) a b edges
    rw [hx, Option.map_some] at hfst
    obtain ⟨⟨n, found⟩, hr, heq⟩ := Option.map_eq_some_iff.1 hfst.symm
    dsimp only at heq
    rw [← heq, gathered_eq_nil h hunlisted hr]

theorem ofList_eq_none_iff {β : Type} (xs : List β) : Outcome.ofList xs = ⟨false, []⟩ ↔ xs = [] := by
  refine ⟨congrArg Outcome.result, fun h => ?_⟩
  rw [h]
  rfl

/-- **A waiting shape is hidden from a query if and only if it has more edges than the query takes
without looking, or none.**  After any operations on a new index, this is so of every answer, for every
shape added later than the last rebuild, whatever the query was asked before.  A query for all shapes
hides also the others, unless the waiting shape is the only one.  There is an answer unless the query
looks for cells on an edge that is followed for ever. -/
theorem waiting_hidden_iff {o : IndexOptions α} {x : ShapeIndex α} (hx : empty o = .ok x)
    {before after : List (Operation α)} (hafter : .rebuild ∉ after)
    (hq : q.index = (x.run (before ++ after)).2) (hshape : (added before).length ≤ shape)
    (hs : (added (before ++ after))[shape]? = some s) :
    (∀ a b edges,
      (q.candidates? a b shape edges = none ↔
        q.options.maxBruteForceEdges < s.edges.size ∧ Arc.Endless a b) ∧
      ∀ y r, q.candidates? a b shape edges = some (y, r) → (y = ⟨false, []⟩ ↔
        s.edges.size = 0 ∨ q.options.maxBruteForceEdges < s.edges.size)) ∧
    ∀ a b map,
      (q.candidatesByShape? a b map = none ↔
        (q.options.maxBruteForceEdges < s.edges.size ∨ q.index.numShapes ≠ 1) ∧ Arc.Endless a b) ∧
      ∀ y r, q.candidatesByShape? a b map = some (y, r) → (y.result.edgesOf shape = [] ↔
        s.edges.size = 0 ∨ q.options.maxBruteForceEdges < s.edges.size ∨ q.index.numShapes ≠ 1) := by
  have hproper : q.index.Proper := by
    rw [hq]
    exact ((Reachable.empty hx).run _).proper
  have hunlisted : ∀ c ∈ q.index.cells, ∀ g ∈ c.content.clipped, g.shape ≠ shape := by
    intro c hc g hg
    rw [hq] at hc
    exact Nat.ne_of_lt (Nat.lt_of_lt_of_le (lt_of_listed_run hx hafter hc hg) hshape)
  have hfound : q.index.shape? shape = some s := by rw [hq, shape?_run hx, hs]
  have hnone (a b : Vec3 α) (edges : List Nat) : q.candidates? a b shape edges = none ↔
      q.options.maxBruteForceEdges < s.edges.size ∧ Arc.Endless a b := by
    rw [← cells?_eq_none_iff_endless q]
    by_cases hfew : s.edges.size ≤ q.options.maxBruteForceEdges
    · rw [candidates?_of_few hfound hfew]
      exact iff_of_false (Option.some_ne_none _) fun h => Nat.not_le.2 h.1 hfew
    · have hmany := Nat.not_le.1 hfew
      rw [candidates?_eq_none_iff_of_many hfound hmany, and_iff_right hmany]
  have hhidden {a b : Vec3 α} {edges : List Nat} {y : Outcome (List Nat)} {r : EdgeQuery α}
      (hy : q.candidates? a b shape edges = some (y, r)) : y = ⟨false, []⟩ ↔
        s.edges.size = 0 ∨ q.options.maxBruteForceEdges < s.edges.size := by
    rw [candidates?_of_unlisted hproper hunlisted hfound hy, ofList_eq_none_iff]
    split
    · rw [List.range_eq_nil]
      omega
    · simp only [true_iff]
      omega
  refine ⟨fun a b edges => ⟨hnone a b edges, fun y r hy => hhidden hy⟩, fun a b map => ?_⟩
  by_cases hone : q.index.numShapes = 1
  · -- The only shape has the number 0, and its entry is made by the query for one shape.
    have hzero : shape = 0 := by
      have hlt : shape < (added (before ++ after)).length := (List.getElem?_eq_some_iff.1 hs).1
      rw [← numShapes_run hx, ← hq, hone] at hlt
      exact Nat.lt_one_iff.1 hlt
    subst hzero
    rw [candidatesByShape?_of_one hone map [], Option.map_eq_none_iff, hnone,
      or_iff_left (not_not.2 hone)]
    refine ⟨Iff.rfl, fun y r hy => ?_⟩
    obtain ⟨⟨z, r'⟩, hz, heq⟩ := Option.map_eq_some_iff.1 hy
    obtain ⟨rfl, rfl⟩ := Prod.mk.inj heq
    rw [← hhidden hz, candidates?_of_unlisted hproper hunlisted hfound hz, ofList_eq_none_iff]
    exact Iff.rfl
  · have hsearch : q.candidatesByShape? a b map = none ↔ Arc.Endless a b :=
      (candidatesByShape?_eq_none_iff_of_many hone map).trans (cells?_eq_none_iff_endless q a b)
    refine ⟨hsearch.trans (and_iff_right (.inr hone)).symm, fun y r hy => ?_⟩
    have hfst := candidatesByShape?_of_many (a := a) (b := b) hone map
    rw [hy, Option.map_some] at hfst
    obtain ⟨⟨n, found⟩, hr, heq⟩ := Option.map_eq_some_iff.1 hfst.symm
    dsimp only at heq
    subst heq
    have hgrouped (c : StoredCell) (hc : c ∈ found) := (proper_of_report? hproper hr hc).grouped
    have hnil : (gatheredMap n found).edgesOf shape = [] := by
      rw [edgesOf_gatheredMap hgrouped, gathered_eq_nil hproper hunlisted hr]
    exact iff_of_true hnil (.inr (.inr hone))

/-- Two meridians, the second of them after the rebuild.  A query for it alone looks it up if it is
told to, and one for all shapes does so anyway. -/
theorem waiting_meridian_hidden :
    ∃ x : ShapeIndex Float, empty .default = .ok x ∧ ∀ y,
      y = (x.run ([.add (meridian 1 0) false, .rebuild] ++ [.add (meridian 0 1) false])).2 →
      (∃ r, (ofIndex y ⟨0⟩).candidates? ⟨1, 0, 0⟩ ⟨0, 1, 0⟩ 1 [7] = some (⟨false, []⟩, r)) ∧
      ∃ z r, (ofIndex y .default).candidatesByShape? ⟨1, 0, 0⟩ ⟨0, 1, 0⟩ [] = some (z, r) ∧
        z.result.edgesOf 1 = [] := by
  have hx := empty_eq IndexOptions.validate_default_float
  have hafter : .rebuild ∉ [Operation.add (meridian 0 1) false] := by simp
  have harrives : ¬Arc.Endless (⟨1, 0, 0⟩ : Vec3 Float) ⟨0, 1, 0⟩ := by
    have h : (Arc.faceSegments? (⟨1, 0, 0⟩ : Vec3 Float) ⟨0, 1, 0⟩).isSome = true := by
      decide +kernel
    rw [← Arc.faceSegments?_eq_none_iff]
    exact Option.isSome_iff_ne_none.1 h
  refine ⟨_, hx, fun y hy => ?_⟩
  obtain ⟨halone, -⟩ :=
    waiting_hidden_iff (q := ofIndex y ⟨0⟩) hx hafter hy (Nat.le_refl 1) rfl
  obtain ⟨-, hall⟩ :=
    waiting_hidden_iff (q := ofIndex y .default) hx hafter hy (Nat.le_refl 1) rfl
  obtain ⟨hnone, hhidden⟩ := halone ⟨1, 0, 0⟩ ⟨0, 1, 0⟩ [7]
  obtain ⟨hnoneAll, hhiddenAll⟩ := hall ⟨1, 0, 0⟩ ⟨0, 1, 0⟩ []
  constructor
  · obtain ⟨⟨z, r⟩, hz⟩ := Option.ne_none_iff_exists'.1 (mt hnone.1 fun h => harrives h.2)
    obtain rfl := (hhidden z r hz).2 (.inr Nat.zero_lt_one)
    exact ⟨r, hz⟩
  · obtain ⟨⟨z, r⟩, hz⟩ := Option.ne_none_iff_exists'.1 (mt hnoneAll.1 fun h => harrives h.2)
    refine ⟨z, r, hz, (hhiddenAll z r hz).2 (.inr (.inr ?_))⟩
    rw [ofIndex, hy, numShapes_run hx]
    exact Nat.succ_ne_self 1

/-- **A waiting shape of one edge is shown** by both queries, to which the index is not fresh. -/
theorem waiting_meridian_shown :
    ∃ x y : ShapeIndex Float, empty .default = .ok x ∧
      x.run [.add (meridian 1 0) false] = ([0], y) ∧ ¬y.isFresh ∧
      (ofIndex y .default).candidates? ⟨1, 0, 0⟩ ⟨0, 1, 0⟩ 0 [] =
        some (⟨true, [0]⟩, ofIndex y .default) ∧
      (ofIndex y .default).candidatesByShape? ⟨1, 0, 0⟩ ⟨0, 1, 0⟩ [] =
        some (⟨true, [(0, [0])]⟩, ofIndex y .default) := by
  refine ⟨_, _, empty_eq IndexOptions.validate_default_float, rfl, by decide, rfl, rfl⟩

end EdgeQuery

end SphereIndex
