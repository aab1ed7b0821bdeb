import SphereIndex.Proofs.Arc.Reach
import SphereIndex.Proofs.Query.Root

/-!
# Edges that pass beside a root

A search below a root starts if the box around the edge meets the root's square, and from there on
the edge is compared with centers of cells only.  So the sides of the root itself are never looked
at: a stored cell below it is found if the edge passes its square continued beyond those sides.  An
edge that misses the root finds nothing, unless it slips in this way.
-/

namespace SphereIndex

open Planar

/-! ## 1. Where an arc meets a face -/

theorem Vec3.Between.of_between {a b x y z : Vec3 ℝ} (hx : Between a b x) (hy : Between a b y)
    (hz : Between x y z) : Between a b z := by
  obtain ⟨s, t, hs, ht, hst, rfl⟩ := hx
  obtain ⟨s', t', hs', ht', hst', rfl⟩ := hy
  obtain ⟨u, v, hu, hv, huv, rfl⟩ := hz
  have hpos := combine_pos hst hst' hu hv huv
  refine ⟨s * u + s' * v, t * u + t' * v, by positivity, by positivity, by linarith, ?_⟩
  ext <;> simp only [add_x, add_y, add_z, scale_x, scale_y, scale_z] <;> ring

theorem Face.lift_pointAt (f : Face) (p r : Vec2 ℝ) (t : ℝ) :
    f.lift (pointAt p r t) = (f.lift p).scale (1 - t) + (f.lift r).scale t := by
  apply f.toFrame_injective
  rw [toFrame_combine, toFrame_lift, toFrame_lift, toFrame_lift]
  ext <;> simp only [pointAt, linear, Vec3.add_x, Vec3.add_y, Vec3.add_z, Vec3.scale_x,
    Vec3.scale_y, Vec3.scale_z] <;> ring

/-- **Every point of a segment is the projection** of a direction between those of its ends. -/
theorem Face.exists_project_eq {f : Face} {x y : Vec3 ℝ} (hx : 0 < f.height x)
    (hy : 0 < f.height y) {p : Vec2 ℝ} (hp : OnSegment (f.project x) (f.project y) p) :
    ∃ z, Vec3.Between x y z ∧ p = f.project z := by
  obtain ⟨t, h0, h1, rfl⟩ := hp
  refine ⟨f.lift (pointAt (f.project x) (f.project y) t), ?_, (f.project_lift _).symm⟩
  have hbetween : Vec3.Between (f.lift (f.project x)) (f.lift (f.project y))
      (f.lift (pointAt (f.project x) (f.project y) t)) :=
    ⟨1 - t, t, sub_nonneg.2 h1, h0, by linarith, f.lift_pointAt _ _ t⟩
  rw [lift_project hx, lift_project hy] at hbetween
  have hx' := (Vec3.between_left x y).scale (inv_pos.2 hx)
  have hy' := (Vec3.between_left y x).symm.scale (inv_pos.2 hy)
  exact hx'.of_between hy' hbetween

namespace Arc

/-- **The arc meets the square of the face in `p`.** -/
def MeetsFaceAt (f : Face) (a b : Vec3 ℝ) (p : Vec2 ℝ) : Prop :=
  ∃ x, Vec3.Between a b x ∧ Reaches f 0 x ∧ p = f.project x

variable {a b : Vec3 ℝ} {f : Face} {p r z : Vec2 ℝ}

/-- The clipped segment lies on the arc, if its line does not graze the face. -/
theorem meetsFaceAt_of_clip (h : Vec3.IsArc a b) (hgraze : ¬Grazes f 0 a b)
    (hclip : clipToFace? f 0 a b = some (p, r)) (hz : OnSegment p r z) : MeetsFaceAt f a b z := by
  obtain ⟨-, hsome, -⟩ := clip_exact_unless_grazing (f := f) h (le_refl (0 : ℝ))
  obtain ⟨x, y, hx, hy, rfl, rfl⟩ := hsome p r hclip hgraze
  have hxover := reaches_iff.1 hx.holds
  have hyover := reaches_iff.1 hy.holds
  obtain ⟨w, hw, rfl⟩ := Face.exists_project_eq hxover.pos hyover.pos hz
  refine ⟨w, hx.between.of_between hy.between.symm hw, reaches_iff.2 ?_, rfl⟩
  obtain ⟨s, t, hs, ht, hst, rfl⟩ := hw
  rw [Face.toFrame_combine]
  exact hxover.combine hyover hs ht hst

end Arc

/-! ## 2. Squares continued beyond the root -/

/-- **The square of a cell, continued beyond the sides that it shares with a root** over it: an end
at which the two agree does not count. -/
def CellId.Continued (root c : CellId) (p : Vec2 ℝ) : Prop :=
  ∀ axis,
    ((c.bound.along axis).lo ≤ p.along axis ∨
      (c.bound.along axis : Interval ℝ).lo = (root.bound.along axis).lo) ∧
    (p.along axis ≤ (c.bound.along axis).hi ∨
      (c.bound.along axis : Interval ℝ).hi = (root.bound.along axis).hi)

namespace Walk

/-- The root continued beyond its sides is the whole plane. -/
theorem continued_self (root : CellId) (p : Vec2 ℝ) : root.Continued root p :=
  fun _ => ⟨.inr rfl, .inr rfl⟩

theorem continued_child {root : CellId} {c : PaddedCell ℝ} (hc : c.Placed) (hl : c.level < maxLevel)
    {q : Quadrant} {p : Vec2 ℝ} (hp : root.Continued c.id p)
    (hside : ∀ axis, OnSide (q.along axis) (c.center.along axis) (p.along axis)) :
    root.Continued (c.child q).id p := by
  intro axis
  have hin := hp axis
  have hon := hside axis
  rw [hc.id_child_bound_along hl]
  -- One end of the child is the center, the other one that of the cell.
  cases hq : q.along axis with
  | true =>
    rw [hq] at hon
    exact ⟨.inl hon, hin.2⟩
  | false =>
    rw [hq] at hon
    exact ⟨hin.1, .inl hon⟩

/-- **What a search below a root finds**: cells of which the continued square has a point of AB. -/
theorem exists_continued_of_mem_visit {cells : Array StoredCell} {root : PaddedCell ℝ}
    (hroot : root.Made) {a b : Vec2 ℝ} {s : StoredCell}
    (hs : s ∈ visit cells a b root (Rect.ofPair a b)) :
    ∃ p, OnSegment a b p ∧ root.id.Continued s.id p := by
  obtain ⟨y, h0, h1, hy⟩ := exists_of_mem_visitBy (P := root.id.Continued)
    (fun hc hl => continued_child hc hl) hroot.exact.toPlaced (ofPair_eq_partBound a b) zero_le_one
    (fun _ _ _ => continued_self _ _) hs
  exact ⟨_, ⟨y, h0, h1, rfl⟩, hy⟩

end Walk

/-! ## 3. Edges that miss the root -/

namespace EdgeQuery

variable {q : EdgeQuery ℝ} {root : PaddedCell ℝ} {a b : Vec3 ℝ} {f : Face}

/-- **An edge that does not reach the root finds nothing**, if the box around its part on the face
misses the root as well, or if it passes no stored cell below the root beyond a side that the two
share.  An edge that does not reach the face is such an edge. -/
theorem cellsInRoot_empty_of_outside (hcells : StoredInOrder q.index.cells.toList)
    (hroot : root.Made) (hface : root.id.face? = some f) (h : Vec3.IsArc a b)
    (hgraze : ¬Arc.Grazes f 0 a b)
    (houtside : ∀ p, Arc.MeetsFaceAt f a b p → ¬root.bound.Contains p)
    (hbeside : (∀ p r, Arc.clipToFace? f 0 a b = some (p, r) →
        ¬root.bound.Meets (Rect.ofPair p r)) ∨
      ∀ s ∈ q.index.cells, root.id.Contains s.id → ∀ p, Arc.MeetsFaceAt f a b p →
        ¬root.bound.Contains p → ¬root.id.Continued s.id p) (list : List StoredCell) :
    (q.fillCellsInRoot a b root list).1 = ⟨false, []⟩ := by
  have hfound : cellsBelow a b q.index.cells root = [] := by
    cases hclip : Arc.clipToFace? f 0 a b with
    | none =>
      unfold cellsBelow
      rw [hface, Option.bind_some, hclip]
    | some segment =>
      obtain ⟨p, r⟩ := segment
      rw [cellsBelow_of_clip a b hface hclip]
      by_cases hmeets : root.bound.Meets (Rect.ofPair p r)
      · rw [if_pos hmeets]
        apply List.eq_nil_iff_forall_not_mem.2
        intro s hs
        obtain ⟨hstored, hbelow⟩ := Walk.stored_of_mem_visitBy hcells hroot.exact.toOnTree hs
        obtain ⟨z, hz, hcontinued⟩ := Walk.exists_continued_of_mem_visit hroot hs
        have hz := Arc.meetsFaceAt_of_clip h hgraze hclip hz
        obtain hbox | hnone := hbeside
        · exact hbox p r hclip hmeets
        · exact hnone s hstored hbelow z hz (houtside z hz) hcontinued
      · rw [if_neg hmeets]
  rw [fillCellsInRoot_fst, hfound]
  rfl

/-! The instances are about an edge that slants across the lower left half of a face, past its
center, and the upper right quarter of the face as root. -/

noncomputable def slantStart : Vec3 ℝ := ⟨1, -1 / 2, 1 / 4⟩

noncomputable def slantEnd : Vec3 ℝ := ⟨1, 1 / 4, -1 / 2⟩

theorem slant_isArc : Vec3.IsArc slantStart slantEnd := by
  refine ⟨fun h => ?_, fun h => ?_, fun k hk h => ?_⟩
  · exact one_ne_zero (congrArg Vec3.x h)
  · exact one_ne_zero (congrArg Vec3.x h)
  · have hx : (1 : ℝ) = 1 * -k := congrArg Vec3.x h
    linarith

theorem slant_not_grazes : ¬Arc.Grazes .xPos 0 slantStart slantEnd := by
  intro h
  have hx := congrArg Vec3.x h.same
  norm_num [slantStart, slantEnd] at hx

theorem slant_clip : Arc.clipToFace? .xPos (0 : ℝ) slantStart slantEnd =
    some (⟨-1 / 2, 1 / 4⟩, ⟨1 / 4, -1 / 2⟩) := by
  have hface {u v : ℝ} (hu : |u| < 1) (hv : |v| < 1) : Face.ofPoint (⟨1, u, v⟩ : Vec3 ℝ) = .xPos :=
    Face.xPos.ofPoint_lift (e := ⟨u, v⟩) hu hv
  have hproject (u v : ℝ) : Face.xPos.project (⟨1, u, v⟩ : Vec3 ℝ) = ⟨u, v⟩ :=
    Face.xPos.project_lift ⟨u, v⟩
  have hstart : Face.ofPoint slantStart = .xPos := by
    apply hface <;> rw [abs_lt] <;> norm_num
  have hend : Face.ofPoint slantEnd = .xPos := by
    apply hface <;> rw [abs_lt] <;> norm_num
  have hclip : Arc.clipToFace? .xPos (0 : ℝ) slantStart slantEnd =
      some (Face.xPos.project slantStart, Face.xPos.project slantEnd) := if_pos ⟨hstart, hend⟩
  rw [hclip, slantStart, slantEnd, hproject, hproject]

noncomputable def upperQuarter : PaddedCell ℝ := .ofId (Walk.quarter true).id 0

theorem upperQuarter_made : upperQuarter.Made :=
  .ofId (Walk.quarters_inOrder.isValid _ (List.mem_cons_of_mem _ List.mem_cons_self)) le_rfl

theorem upperQuarter_bound (axis : Axis) : upperQuarter.bound.along axis = ⟨0, 1⟩ := by
  rw [upperQuarter_made.exact.bound_along, upperQuarter, PaddedCell.id_ofId,
    PaddedCell.padding_ofId, Walk.quarter_bound, if_pos rfl, sub_zero, add_zero]

/-- On the edge the two coordinates add up to -1/4. -/
theorem slant_outside {p : Vec2 ℝ} (h : Arc.MeetsFaceAt .xPos slantStart slantEnd p) :
    ¬∀ axis, 0 ≤ p.along axis := by
  obtain ⟨x, ⟨s, t, hs, ht, hst, rfl⟩, -, rfl⟩ := h
  have hz : 0 < 1 * s + 1 * t := by linarith
  intro hpos
  have hu : 0 ≤ (-1 / 2 * s + 1 / 4 * t) / (1 * s + 1 * t) := hpos .u
  have hv : 0 ≤ (1 / 4 * s + -1 / 2 * t) / (1 * s + 1 * t) := hpos .v
  rw [le_div_iff₀ hz, zero_mul] at hu hv
  linarith

theorem slant_not_contains {p : Vec2 ℝ} (h : Arc.MeetsFaceAt .xPos slantStart slantEnd p) :
    ¬upperQuarter.bound.Contains p := by
  intro hp
  refine slant_outside h fun axis => ?_
  have hin := Rect.contains_iff_along.1 hp axis
  rw [upperQuarter_bound] at hin
  exact hin.1

/-- A query on the given cells, which list the one edge of a shape. -/
noncomputable def slantQuery (cells : Array StoredCell) : EdgeQuery ℝ :=
  ofIndex ⟨.default, #[⟨#[⟨⟨1, 0, 0⟩, ⟨0, 0, 1⟩⟩]⟩], cells, 0, ⟨1, 1, 1, 1⟩⟩ .default

theorem upperQuarter_face : upperQuarter.id.face? = some .xPos := by
  rw [upperQuarter, PaddedCell.id_ofId]
  decide +kernel

theorem upperQuarter_level : upperQuarter.level < maxLevel := by
  rw [upperQuarter_made.exact.level_eq, upperQuarter, PaddedCell.id_ofId]
  decide +kernel

/-- A stored cell in the corner of the root away from the edge. -/
noncomputable def farCell : StoredCell := ⟨(upperQuarter.child ⟨true, true⟩).id, ⟨[⟨0, [0]⟩]⟩⟩

/-- The inner sides of the corner lie apart from those of the root, which would not count. -/
theorem slant_not_continued {p : Vec2 ℝ} (h : Arc.MeetsFaceAt .xPos slantStart slantEnd p) :
    ¬upperQuarter.id.Continued farCell.id p := by
  intro hp
  refine slant_outside h fun axis => ?_
  have hplaced := upperQuarter_made.exact.toPlaced
  have hroot : (upperQuarter.id.bound.along axis : Interval ℝ) = ⟨0, 1⟩ := by
    rw [upperQuarter, PaddedCell.id_ofId, Walk.quarter_bound, if_pos rfl]
  have hcorner (upper : Bool) :
      ((upperQuarter.child ⟨upper, upper⟩).id.bound.along axis : Interval ℝ) =
        (Interval.mk 0 1).set (PaddedCell.innerEnd upper) (upperQuarter.center.along axis) := by
    rw [hplaced.id_child_bound_along upperQuarter_level, hroot]
    cases axis <;> rfl
  have hcenter : 0 < upperQuarter.center.along axis := by
    have hlt := CellId.lo_lt_hi (hplaced.child upperQuarter_level ⟨false, false⟩).isValid axis
    rw [hcorner] at hlt
    exact hlt
  obtain ⟨hlo, -⟩ := hp axis
  rw [farCell, hcorner, hroot] at hlo
  obtain hlo | heq := hlo
  · exact hcenter.le.trans hlo
  · exact absurd heq hcenter.ne'

/-- The box around the edge meets the root, but the stored cell there is left out. -/
theorem cellsInRoot_of_slant_empty : StoredInOrder [farCell] ∧ upperQuarter.Made ∧
    upperQuarter.id.face? = some .xPos ∧ Vec3.IsArc slantStart slantEnd ∧
    ¬Arc.Grazes .xPos 0 slantStart slantEnd ∧
    ((slantQuery #[farCell]).fillCellsInRoot slantStart slantEnd upperQuarter [farCell]).1 =
      ⟨false, []⟩ := by
  have hvalid := (upperQuarter_made.exact.toPlaced.child upperQuarter_level ⟨true, true⟩).isValid
  have hcells : StoredInOrder [farCell] :=
    ⟨fun c hc => List.mem_singleton.1 hc ▸ hvalid, List.pairwise_singleton _ _⟩
  refine ⟨hcells, upperQuarter_made, upperQuarter_face, slant_isArc, slant_not_grazes, ?_⟩
  refine cellsInRoot_empty_of_outside hcells upperQuarter_made upperQuarter_face slant_isArc
    slant_not_grazes (fun p => slant_not_contains) (.inr fun c hc _ p hp _ => ?_) [farCell]
  obtain rfl : c = farCell := List.mem_singleton.1 (Array.mem_toList_iff.2 hc)
  exact slant_not_continued hp

theorem slantQuery_proper : (slantQuery Walk.quarters).index.Proper := by
  refine ⟨Walk.quarters_inOrder, fun c hc => ?_⟩
  have hcontent : c.content = ⟨[⟨0, [0]⟩]⟩ := by
    obtain rfl | rfl : c = Walk.quarter false ∨ c = Walk.quarter true := by
      simpa [slantQuery, ofIndex, Walk.quarters] using hc
    · rfl
    · rfl
  rw [hcontent]
  refine ⟨List.cons_ne_nil _ _, ⟨List.pairwise_singleton _ _, ?_, ?_⟩, fun g hg => ?_⟩
  · intro g hg
    rw [List.mem_singleton.1 hg]
    exact List.cons_ne_nil _ _
  · intro g hg
    rw [List.mem_singleton.1 hg]
    exact List.pairwise_singleton _ _
  · rw [List.mem_singleton.1 hg]
    refine ⟨_, rfl, fun e he => ?_⟩
    rw [List.mem_singleton.1 he]
    exact Nat.zero_lt_one

/-- **A stored cell that the edge does not reach is found all the same**: the box around the edge
meets the root, and the root is stored itself. -/
theorem cellsInRoot_of_slant : (slantQuery Walk.quarters).index.Proper ∧ upperQuarter.Made ∧
    upperQuarter.padding = 0 ∧ Vec3.IsArc slantStart slantEnd ∧
    ¬Arc.Grazes .xPos 0 slantStart slantEnd ∧
    (∀ p, Arc.MeetsFaceAt .xPos slantStart slantEnd p → ¬upperQuarter.bound.Contains p) ∧
    ∀ list, ((slantQuery Walk.quarters).fillCellsInRoot slantStart slantEnd upperQuarter list).1 =
      ⟨true, [Walk.quarter true]⟩ := by
  refine ⟨slantQuery_proper, upperQuarter_made, PaddedCell.padding_ofId _ _, slant_isArc,
    slant_not_grazes, fun p => slant_not_contains, fun list => ?_⟩
  have hbox : Rect.ofPair (⟨-1 / 2, 1 / 4⟩ : Vec2 ℝ) ⟨1 / 4, -1 / 2⟩ =
      ⟨⟨-1 / 2, 1 / 4⟩, ⟨-1 / 2, 1 / 4⟩⟩ := by
    have hle : (-1 / 2 : ℝ) ≤ 1 / 4 := by norm_num
    have hlt : ¬(1 / 4 : ℝ) ≤ -1 / 2 := by norm_num
    exact congrArg₂ Rect.mk (if_pos hle) (if_neg hlt)
  have hmeets : upperQuarter.bound.Meets (Rect.ofPair ⟨-1 / 2, 1 / 4⟩ ⟨1 / 4, -1 / 2⟩) := by
    have hlt : ¬(0 : ℝ) ≤ -1 / 2 := by norm_num
    have hboth : (0 : ℝ) ≤ 1 / 4 ∧ (0 : ℝ) ≤ 1 := ⟨by norm_num, zero_le_one⟩
    rw [hbox]
    refine Rect.meets_of_along fun axis => ?_
    rw [upperQuarter_bound]
    cases axis <;> exact (if_neg hlt).mpr hboth
  have hfound : Walk.visit Walk.quarters ⟨-1 / 2, 1 / 4⟩ ⟨1 / 4, -1 / 2⟩ upperQuarter
      (Rect.ofPair ⟨-1 / 2, 1 / 4⟩ ⟨1 / 4, -1 / 2⟩) = [Walk.quarter true] :=
    Walk.visitBy_of_stored Walk.quarters_inOrder (Array.mem_of_getElem? (i := 1) rfl)
      (PaddedCell.id_ofId _ _).symm
  rw [fillCellsInRoot_fst, cellsBelow_of_clip _ _ upperQuarter_face slant_clip, if_pos hmeets]
  exact congrArg Outcome.ofList hfound

end EdgeQuery

end SphereIndex
