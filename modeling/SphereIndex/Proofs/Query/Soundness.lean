import SphereIndex.Proofs.Arc.Clip
import SphereIndex.Proofs.Index.Contents
import SphereIndex.Proofs.Query.Discover
import SphereIndex.Proofs.Query.EdgeMap

/-!
# No crossing edge is missed

A point shared by an indexed edge and a query edge lies over some face.  There the clipped edge passes
through it, so a stored cell over the point lists the edge; and a segment of the query edge passes
through it, so the query finds that cell.
-/

namespace SphereIndex

open Planar

/-! ## 1. Edges on the sphere -/

/-- Unit vectors that are not opposite. -/
structure Edge.OnSphere (e : Edge ℝ) : Prop where
  left : e.v0.lengthSquared = 1
  right : e.v1.lengthSquared = 1
  apart : e.v1 ≠ -e.v0

/-- The point lies on the great-circle arc between the ends. -/
structure Edge.Passes (e : Edge ℝ) (p : Vec3 ℝ) : Prop where
  unit : p.lengthSquared = 1
  between : Vec3.Between e.v0 e.v1 p

theorem ne_zero_of_unit {p : Vec3 ℝ} (h : p.lengthSquared = 1) : p ≠ .zero := by
  rintro rfl
  rw [Vec3.lengthSquared_eq] at h
  norm_num at h

theorem Edge.OnSphere.isArc {e : Edge ℝ} (h : e.OnSphere) : Vec3.IsArc e.v0 e.v1 := by
  refine ⟨ne_zero_of_unit h.left, ne_zero_of_unit h.right, fun k hk heq => h.apart ?_⟩
  have hleft := h.left
  have hright := h.right
  rw [heq] at hright
  rw [Vec3.lengthSquared_eq] at hleft hright
  -- Opposite directions of the same length are opposite points.
  have hsq : k * k = 1 := by
    rw [← hright]
    change k * k = e.v0.x * -k * (e.v0.x * -k) + e.v0.y * -k * (e.v0.y * -k) +
      e.v0.z * -k * (e.v0.z * -k)
    linear_combination (-(k * k)) * hleft
  have hone : k = 1 := by nlinarith
  rw [heq, hone]
  ext <;> exact mul_neg_one _

/-! ## 2. The stored cells along an edge -/

theorem IndexOptions.padding_nonneg {o : IndexOptions ℝ} (h : o.validate = .ok o) :
    0 ≤ o.cellPadding := by
  have hdefault : 0 ≤ (defaultCellPadding : ℝ) := by
    have hsqrt := Real.sqrt_nonneg (Scalar.half : ℝ)
    have hdef : (defaultCellPadding : ℝ) =
      2 * (9 * Real.sqrt Scalar.half * Scalar.epsilon + 9 / 4 * Scalar.epsilon) := rfl
    have hepsilon := Scalar.epsilon_nonneg
    rw [hdef]
    positivity
  unfold validate at h
  split at h
  · cases h
  · split at h
    · cases h
    · rename_i hsmall
      rw [Bool.or_eq_true, not_or, decide_eq_true_iff] at hsmall
      exact hdefault.trans (not_lt.1 hsmall.2)

theorem IndexOptions.validate_default :
    (IndexOptions.default : IndexOptions ℝ).validate = .ok .default := by
  unfold validate
  rw [if_neg (by decide), if_neg, if_neg]
  · rw [Bool.or_eq_true, not_or, decide_eq_true_iff]
    exact ⟨Bool.false_ne_true, not_le.2 (show (0 : ℝ) < 1 from one_pos)⟩
  · rw [Bool.or_eq_true, not_or, decide_eq_true_iff]
    exact ⟨Bool.false_ne_true, lt_irrefl (defaultCellPadding : ℝ)⟩

namespace ShapeIndex

theorem mem_faceEdges_of_clip {o : IndexOptions ℝ} {shapes : Array (Shape ℝ)} {f : Face}
    {id : ShapeId} {s : Shape ℝ} (hs : shapes[id]? = some s) {k : Nat} {e : Edge ℝ}
    (he : s.edges[k]? = some e) {p q : Vec2 ℝ}
    (hclip : Arc.clipToFace? f o.cellPadding e.v0 e.v1 = some (p, q)) :
    ⟨id, k, p, q, edgeMaxLevel e.v0 e.v1 o.longEdgeRatio⟩ ∈ faceEdges o shapes f := by
  refine List.mem_flatMap.2 ⟨(s, id), ?_, List.mem_filterMap.2 ⟨(e, k), ?_, ?_⟩⟩
  · rw [List.mem_zipIdx_iff_getElem?, Array.getElem?_toList]
    exact hs
  · rw [List.mem_zipIdx_iff_getElem?, Array.getElem?_toList]
    exact he
  · dsimp only
    rw [hclip]
    rfl

/-- **The stored cells leave no gap along an edge**, and list it. -/
theorem exists_mem_cellsOf {o : IndexOptions ℝ} (hpad : 0 ≤ o.cellPadding)
    {shapes : Array (Shape ℝ)} {id : ShapeId} {s : Shape ℝ} (hs : shapes[id]? = some s) {k : Nat}
    {e : Edge ℝ} (he : s.edges[k]? = some e) (harc : Vec3.IsArc e.v0 e.v1) {p : Vec3 ℝ}
    (hp : Vec3.Between e.v0 e.v1 p) {f : Face} (hcone : f.Cone p) :
    ∃ c ∈ cellsOf o shapes, c.id.Contains (CellId.leafOf f (f.project p)) ∧
      (id, k) ∈ Content.ungroup c.content.clipped := by
  obtain ⟨u, v, hclip, hu, hv, hon⟩ := Arc.exists_clipToFace? harc hpad hp hcone
  have hin {w : Vec2 ℝ} (hw : |w.x| ≤ 1 + o.cellPadding ∧ |w.y| ≤ 1 + o.cellPadding) :
      (PaddedCell.ofFace f o.cellPadding).bound.Contains w := by
    rw [Rect.contains_iff_along]
    intro axis
    rw [PaddedCell.ofFace_bound_along]
    cases axis with
    | u => exact abs_le.1 hw.1
    | v => exact abs_le.1 hw.2
  have howns : (CellId.leafOf f (f.project p)).Owns (f.project p) :=
    CellId.leafOf_owns f hcone.project_le
  obtain ⟨c, hc, hleaf, hlists⟩ := Subdivision.exists_mem_ofFace hpad
    (mem_faceEdges_of_clip hs he hclip) ⟨hin hu, hin hv⟩ hon (CellId.isValid_leafOf f _)
    (CellId.level_leafOf f _) (CellId.faceNumber_leafOf f _) howns.contains
  exact ⟨c, mem_cellsOf.2 (mem_foundCells.2 ⟨f, hc⟩), hleaf, hlists⟩

end ShapeIndex

/-! ## 3. Queries -/

namespace EdgeQuery

variable {x : ShapeIndex ℝ} {q : EdgeQuery ℝ} {a b : Vec3 ℝ} {shape : ShapeId} {s : Shape ℝ}
  {k : Nat} {e : Edge ℝ}

/-- **Some cell that the query finds lists the edge**, if the edge meets the query edge. -/
theorem exists_mem_found (hpad : 0 ≤ x.options.cellPadding) (hq : q.index = x.rebuild)
    (hab : Vec3.IsArc a b) (hs : x.shapes[shape]? = some s) (he : s.edges[k]? = some e)
    (harc : Vec3.IsArc e.v0 e.v1) {p : Vec3 ℝ} (hp : Vec3.Between a b p)
    (hep : Vec3.Between e.v0 e.v1 p) : ∃ n found, q.report? a b = some (n, found) ∧
      ∃ c ∈ found, (shape, k) ∈ Content.ungroup c.content.clipped ∧
        c.content.Proper x.shapes := by
  obtain ⟨segments, hsegments, htrace⟩ := Arc.exists_trace hab
  obtain ⟨segment, hsegment, hthrough⟩ := htrace.covers hp
  obtain ⟨c, hc, hleaf, hlists⟩ :=
    ShapeIndex.exists_mem_cellsOf hpad hs he harc hep hthrough.1
  refine ⟨_, _, by rw [report?_eq, hsegments, Option.map_some], c, ?_, hlists,
    ShapeIndex.cellsOf_content hc⟩
  rw [hq]
  exact List.mem_flatMap.2 ⟨segment, hsegment,
    mem_segmentCells x.proper_rebuild.inOrder (List.mem_toArray.2 hc) hthrough hleaf⟩

theorem mem_edgesOf_listed {cells : List StoredCell} {c : StoredCell} (hc : c ∈ cells)
    (hk : (shape, k) ∈ Content.ungroup c.content.clipped) :
    k ∈ (listed [] cells).edgesOf shape := by
  obtain ⟨g, hg, hshape, hk⟩ := Content.mem_ungroup.1 hk
  rw [listed, EdgeMap.edgesOf_foldl_append .nil, List.mem_append, List.mem_flatMap]
  refine .inr ⟨g, List.mem_flatMap.2 ⟨c, hc, hg⟩, ?_⟩
  rwa [if_pos hshape]

/-- **No edge that meets the query edge is missed**: the query returns, and the edge is among the
candidates of its shape, and on an index of several shapes in the entry of its shape.  What the list or
map held before makes no difference. -/
theorem candidates_complete (hoptions : x.options.validate = .ok x.options)
    (hshapes : ∀ s ∈ x.shapes, ∀ e ∈ s.edges, e.OnSphere) (hq : q.index = x.rebuild)
    (hab : (Edge.mk a b).OnSphere) (hs : x.shape? shape = some s) (he : s.edges[k]? = some e)
    (hmeet : ∃ p, (Edge.mk a b).Passes p ∧ e.Passes p) :
    (∀ edges, ∃ answer, (q.candidates? a b shape edges).map (·.1) = some answer ∧
      k ∈ answer.result) ∧
    (2 ≤ x.numShapes → ∀ map, ∃ answer edges,
      (q.candidatesByShape? a b map).map (·.1) = some answer ∧
        answer.result.find? shape = some edges ∧ k ∈ edges) := by
  obtain ⟨p, hp, hep⟩ := hmeet
  have hedge := hshapes s (Array.mem_of_getElem? hs) e (Array.mem_of_getElem? he)
  obtain ⟨n, found, hreport, c, hc, hlists, hproper⟩ := exists_mem_found
    (IndexOptions.padding_nonneg hoptions) hq hab.isArc hs he hedge.isArc hp.between hep.between
  constructor
  · intro edges
    have hshape : q.index.shape? shape = some s := by
      rw [hq]
      exact hs
    by_cases hfew : s.edges.size ≤ q.options.maxBruteForceEdges
    · -- A shape of few edges gives them all.
      rw [candidates?_of_few hshape hfew]
      exact ⟨_, rfl, List.mem_range.2 (Array.getElem?_eq_some_iff.1 he).1⟩
    · rw [candidates?_of_many hshape (Nat.not_le.1 hfew), hreport]
      refine ⟨_, rfl, ?_⟩
      have hlisted : k ∈ found.flatMap fun c => c.content.edgesOf shape :=
        List.mem_flatMap.2 ⟨c, hc, (Content.mem_edgesOf_iff hproper.grouped).2 hlists⟩
      change k ∈ gathered n found shape
      unfold gathered
      dsimp only
      split
      · exact mem_ascending.2 hlisted
      · exact hlisted
  · intro htwo map
    have hmany : ¬q.index.numShapes = 1 := by
      rw [hq]
      change ¬x.numShapes = 1
      omega
    have hlisted := mem_edgesOf_listed hc hlists
    have hgathered : k ∈ (gatheredMap n found).edgesOf shape := by
      unfold gatheredMap
      -- Sorting the lists does not change their members.
      split
      · rw [EdgeMap.edgesOf_sorted]
        exact mem_ascending.2 hlisted
      · exact hlisted
    obtain ⟨edges, hfind, hk⟩ := EdgeMap.exists_find? hgathered
    rw [candidatesByShape?_of_many hmany, hreport]
    exact ⟨_, edges, rfl, hfind, hk⟩

/-- An index of two shapes of one edge each, up to the pole from the center of a face and from a
point beside it. -/
noncomputable def twoShapes : ShapeIndex ℝ :=
  ⟨.default, #[⟨#[⟨⟨1, 0, 0⟩, ⟨0, 0, 1⟩⟩]⟩, ⟨#[⟨⟨3 / 5, 4 / 5, 0⟩, ⟨0, 0, 1⟩⟩]⟩], #[], 2, ⟨0, 0, 0, 0⟩⟩

theorem twoShapes_onSphere : ∀ s ∈ twoShapes.shapes, ∀ e ∈ s.edges, e.OnSphere := by
  intro s hs e he
  have hs : s = ⟨#[⟨⟨1, 0, 0⟩, ⟨0, 0, 1⟩⟩]⟩ ∨ s = ⟨#[⟨⟨3 / 5, 4 / 5, 0⟩, ⟨0, 0, 1⟩⟩]⟩ := by
    simpa [twoShapes] using hs
  have hapart {u v : Vec3 ℝ} (h : v.z ≠ -u.z) : v ≠ -u := fun heq => h (congrArg Vec3.z heq)
  rcases hs with rfl | rfl
  · obtain rfl : e = ⟨⟨1, 0, 0⟩, ⟨0, 0, 1⟩⟩ := by simpa using he
    refine ⟨?_, ?_, hapart ?_⟩ <;> norm_num [Vec3.lengthSquared_eq]
  · obtain rfl : e = ⟨⟨3 / 5, 4 / 5, 0⟩, ⟨0, 0, 1⟩⟩ := by simpa using he
    refine ⟨?_, ?_, hapart ?_⟩ <;> norm_num [Vec3.lengthSquared_eq]

/-- An edge that starts on the query edge is found, whether the query asks for its shape or for
all. -/
theorem twoShapes_found : twoShapes.options.validate = .ok twoShapes.options ∧
    (∀ s ∈ twoShapes.shapes, ∀ e ∈ s.edges, e.OnSphere) ∧
    (∀ edges, ∃ answer, ((ofIndex twoShapes.rebuild ⟨0⟩).candidates? ⟨1, 0, 0⟩ ⟨0, 1, 0⟩ 1 edges).map
      (·.1) = some answer ∧ 0 ∈ answer.result) ∧
    ∀ map, ∃ answer edges, ((ofIndex twoShapes.rebuild ⟨0⟩).candidatesByShape? ⟨1, 0, 0⟩ ⟨0, 1, 0⟩
      map).map (·.1) = some answer ∧ answer.result.find? 1 = some edges ∧ 0 ∈ edges := by
  have hoptions : twoShapes.options.validate = .ok twoShapes.options := IndexOptions.validate_default
  refine ⟨hoptions, twoShapes_onSphere, ?_⟩
  have hquery : (Edge.mk (⟨1, 0, 0⟩ : Vec3 ℝ) ⟨0, 1, 0⟩).OnSphere := by
    refine ⟨?_, ?_, fun heq => ?_⟩
    · norm_num [Vec3.lengthSquared_eq]
    · norm_num [Vec3.lengthSquared_eq]
    · have hx : (0 : ℝ) = -1 := congrArg Vec3.x heq
      norm_num at hx
  have hmeet : ∃ p, (Edge.mk (⟨1, 0, 0⟩ : Vec3 ℝ) ⟨0, 1, 0⟩).Passes p ∧
      (Edge.mk (⟨3 / 5, 4 / 5, 0⟩ : Vec3 ℝ) ⟨0, 0, 1⟩).Passes p := by
    refine ⟨⟨3 / 5, 4 / 5, 0⟩, ⟨?_, 3 / 5, 4 / 5, ?_⟩, ⟨?_, 1, 0, ?_⟩⟩
    · norm_num [Vec3.lengthSquared_eq]
    · refine ⟨by norm_num, by norm_num, by norm_num, ?_⟩
      ext <;> norm_num
    · norm_num [Vec3.lengthSquared_eq]
    · refine ⟨by norm_num, by norm_num, by norm_num, ?_⟩
      ext <;> norm_num
  obtain ⟨hshape, hall⟩ := candidates_complete (q := ofIndex twoShapes.rebuild ⟨0⟩) (k := 0)
    hoptions twoShapes_onSphere rfl hquery (show twoShapes.shape? 1 = some _ from rfl) rfl hmeet
  exact ⟨hshape, hall (Nat.le_refl 2)⟩

end EdgeQuery

end SphereIndex
