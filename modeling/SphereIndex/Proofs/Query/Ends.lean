import SphereIndex.Proofs.Face.DoubleGrid
import SphereIndex.Proofs.Query.Rounding

/-!
# The ends of a segment under rounding

The bound of a segment has the ends of the segment in two opposite corners.  A split moves two sides
of the bound in each part, but never the two that meet in a corner on the side of that part.  So
whatever the crossings are computed to be, either end stays a corner of the bound that is handed
down to the quadrant of that end, and the walk of the segment passes through all cells that the walk
of the end alone passes through.
-/

namespace SphereIndex

open Scalar

/-- The end along the other axis of the corner that has end `e` along one axis, given the end that
goes with the low one. -/
def End.paired (diag e : End) : End :=
  match e with
  | .lo => diag
  | .hi => diag.other

@[simp] theorem End.paired_paired (diag e : End) : diag.paired (diag.paired e) = e := by
  cases diag <;> cases e <;> rfl

theorem End.paired_other (diag e : End) : diag.paired e.other = (diag.paired e).other := by
  cases diag <;> cases e <;> rfl

variable {α : Type}

/-! ## 1. Corners -/

/-- **A point in one of the two corners on a diagonal.** -/
def Rect.IsCorner (r : Rect α) (diag : End) (p : Vec2 α) : Prop :=
  ∃ e, r.x.get e = p.x ∧ r.y.get (diag.paired e) = p.y

theorem Rect.isCorner_iff (r : Rect α) (diag : End) (p : Vec2 α) (axis : Axis) :
    r.IsCorner diag p ↔ ∃ e, (r.along axis).get e = p.along axis ∧
      (r.along axis.other).get (diag.paired e) = p.along axis.other := by
  cases axis with
  | u => exact Iff.rfl
  | v =>
    constructor
    · rintro ⟨e, hx, hy⟩
      exact ⟨diag.paired e, hy, by rwa [End.paired_paired]⟩
    · rintro ⟨e, hy, hx⟩
      exact ⟨diag.paired e, hx, by rwa [End.paired_paired]⟩

variable [Scalar α]

/-- An arithmetic in which every cell has a center. -/
class PaddedCell.HasCenters (α : Type) [Scalar α] : Prop where
  isNumber_centerAt : ∀ level i, IsNumber (PaddedCell.centerAt level i : α)

instance : PaddedCell.HasCenters Float := ⟨PaddedCell.isNumber_centerAt⟩

theorem PaddedCell.isNumber_center [PaddedCell.HasCenters α] (c : PaddedCell α) :
    c.center.IsNumber := by
  intro axis
  cases axis with
  | u => exact HasCenters.isNumber_centerAt c.level c.i
  | v => exact HasCenters.isNumber_centerAt c.level c.j

/-- The bound of a single point. -/
def Rect.point (p : Vec2 α) : Rect α := ⟨⟨p.x, p.x⟩, ⟨p.y, p.y⟩⟩

theorem Rect.ofPair_self (p : Vec2 α) : Rect.ofPair p p = .point p :=
  congrArg₂ Rect.mk (ite_self _) (ite_self _)

namespace Walk

/-- The quadrant of a cell that a point lies in. -/
def quadrantOf (center p : Vec2 α) : Quadrant :=
  ⟨!decide (p.x < center.x), !decide (p.y < center.y)⟩

theorem paired_diagonal (a b : Vec2 α) :
    (Planar.diagonal a b).paired (if b.x < a.x then .hi else .lo) =
      if b.y < a.y then .hi else .lo := by
  unfold Planar.diagonal
  by_cases hx : b.x < a.x <;> by_cases hy : b.y < a.y <;> simp [hx, hy, End.paired, End.other]

variable [Ordered α] {rule rule' : Interpolation α} {cells : Array StoredCell}
  {a b center p : Vec2 α} {r : Rect α} {c root : PaddedCell α} {axis : Axis} {x : α} {diag e : End}

theorem ofPair_get (x y : α) (hx : IsNumber x) (hy : IsNumber y) :
    (Interval.ofPair x y).get (if y < x then .hi else .lo) = x ∧
      (Interval.ofPair x y).get (if y < x then End.hi else .lo).other = y := by
  unfold Interval.ofPair
  by_cases h : y < x
  · rw [if_pos h, if_neg ((Ordered.not_le hx hy).2 h)]
    exact ⟨rfl, rfl⟩
  · rw [if_neg h, if_pos ((Ordered.not_lt hy hx).1 h)]
    exact ⟨rfl, rfl⟩

/-- **The ends of a segment are corners of its bound.** -/
theorem ofPair_isCorner (ha : a.IsNumber) (hb : b.IsNumber) :
    (Rect.ofPair a b).IsCorner (Planar.diagonal a b) a ∧
      (Rect.ofPair a b).IsCorner (Planar.diagonal a b) b := by
  obtain ⟨hax, hbx⟩ := ofPair_get a.x b.x (ha .u) (hb .u)
  obtain ⟨hay, hby⟩ := ofPair_get a.y b.y (ha .v) (hb .v)
  rw [← paired_diagonal] at hay hby
  refine ⟨⟨_, hax, hay⟩, ⟨_, hbx, ?_⟩⟩
  rw [End.paired_other]
  exact hby

/-- The coordinates of a corner lie within the bound. -/
theorem contains_of_isCorner (hr : r.Narrows r) (h : r.IsCorner diag p) (axis : Axis) :
    (r.along axis).Contains (p.along axis) := by
  obtain ⟨e, he, -⟩ := (r.isCorner_iff diag p axis).1 h
  obtain ⟨hlo, hhi⟩ := Ordered.isNumber_of_le (hr axis).le
  rw [← he]
  cases e with
  | lo => exact ⟨hlo, (hr axis).le⟩
  | hi => exact ⟨(hr axis).le, hhi⟩

theorem lt_of_hi_lt (hr : r.Narrows r) (h : r.IsCorner diag p) (axis : Axis)
    (hx : (r.along axis).hi < x) : p.along axis < x :=
  Ordered.lt_of_le_of_lt (contains_of_isCorner hr h axis).2 hx

theorem not_lt_of_le_lo (hr : r.Narrows r) (h : r.IsCorner diag p) (axis : Axis)
    (hx : x ≤ (r.along axis).lo) : ¬p.along axis < x := fun hlt =>
  (Ordered.lt_iff.1 hlt).2 (Ordered.le_trans hx (contains_of_isCorner hr h axis).1)

theorem point_narrows (hr : r.Narrows r) (h : r.IsCorner diag p) : (Rect.point p).Narrows r := by
  intro axis
  obtain ⟨hlo, hhi⟩ := contains_of_isCorner hr h axis
  have hp : IsNumber (p.along axis) := (Ordered.isNumber_of_le hlo).2
  cases axis with
  | u => exact ⟨hlo, hp, hhi⟩
  | v => exact ⟨hlo, hp, hhi⟩

theorem ofPair_self_narrows (ha : a.IsNumber) (hb : b.IsNumber) (hp : p = a ∨ p = b) :
    (Rect.ofPair p p).Narrows (.ofPair a b) := by
  have hr : (Rect.ofPair a b).Narrows (.ofPair a b) := Rect.ofPair_narrows ha hb
  obtain ⟨hfirst, hlast⟩ := ofPair_isCorner ha hb
  rw [Rect.ofPair_self]
  rcases hp with rfl | rfl
  · exact point_narrows hr hfirst
  · exact point_narrows hr hlast

/-! ## 2. Splitting -/

/-- **A split leaves a corner to the part on its side.** -/
theorem splitBy_isCorner (rule : Interpolation α) (axis : Axis) (hr : r.Narrows r)
    (hx : IsNumber x) (h : r.IsCorner (Planar.diagonal a b) p) (hhi : ¬(r.along axis).hi < x)
    (hlo : ¬x ≤ (r.along axis).lo) :
    (p.along axis < x → (Planar.splitBy rule a b r axis x).1.IsCorner (Planar.diagonal a b) p) ∧
      (¬p.along axis < x →
        (Planar.splitBy rule a b r axis x).2.IsCorner (Planar.diagonal a b) p) := by
  obtain ⟨hbelow, habove⟩ := lo_lt_and_le_hi hr hx hhi hlo
  obtain ⟨e, he, hother⟩ := (r.isCorner_iff _ p axis).1 h
  obtain ⟨y, -, heq⟩ := Planar.exists_splitBy_eq rule a b axis x hr
  rw [heq, Rect.isCorner_iff _ _ _ axis, Rect.isCorner_iff _ _ _ axis]
  simp only [Rect.along_set_set, Rect.along_set_self, Rect.along_set_other]
  constructor
  · -- Below the cut the high side moves, and across it the side that goes with the high one.
    intro hlt
    cases e with
    | lo =>
      have hkept := Interval.get_set_other (r.along axis.other) (Planar.diagonal a b).other y
      rw [End.other_other] at hkept
      exact ⟨.lo, he, hkept.trans hother⟩
    | hi =>
      rw [← he] at hlt
      exact absurd habove (Ordered.lt_iff.1 hlt).2
  · intro hnot
    cases e with
    | lo =>
      rw [← he] at hnot
      exact absurd hbelow hnot
    | hi => exact ⟨.hi, he, (Interval.get_set_other _ _ _).trans hother⟩

theorem exists_mem_column (rule : Interpolation α) (hr : r.Narrows r) (hx : IsNumber x)
    (h : r.IsCorner (Planar.diagonal a b) p) (i : Bool) :
    ∃ r', (⟨i, !decide (p.y < x)⟩, r') ∈ column rule a b x i r ∧
      r'.IsCorner (Planar.diagonal a b) p := by
  by_cases hhi : r.y.hi < x
  · have hlt : p.y < x := lt_of_hi_lt hr h .v hhi
    rw [column_of_hi_lt i hhi, decide_eq_true hlt]
    exact ⟨r, List.mem_cons_self, h⟩
  by_cases hlo : x ≤ r.y.lo
  · have hnot : ¬p.y < x := not_lt_of_le_lo hr h .v hlo
    rw [column_of_le_lo i hhi hlo, decide_eq_false hnot]
    exact ⟨r, List.mem_cons_self, h⟩
  · obtain ⟨hlower, hupper⟩ := splitBy_isCorner rule .v hr hx h hhi hlo
    unfold column
    rw [if_neg hhi, if_neg hlo]
    by_cases hlt : p.y < x
    · rw [decide_eq_true hlt]
      exact ⟨_, List.mem_cons_self, hlower hlt⟩
    · rw [decide_eq_false hlt]
      exact ⟨_, List.mem_cons_of_mem _ List.mem_cons_self, hupper hlt⟩

/-- **The quadrant of a corner is entered, with a bound that has the corner.** -/
theorem exists_mem_quadrants_of_isCorner (rule : Interpolation α) (hr : r.Narrows r)
    (hc : center.IsNumber) (h : r.IsCorner (Planar.diagonal a b) p) :
    ∃ r', (quadrantOf center p, r') ∈ quadrants rule a b center r ∧
      r'.IsCorner (Planar.diagonal a b) p := by
  unfold quadrantOf quadrants
  by_cases hhi : r.x.hi < center.x
  · have hlt : p.x < center.x := lt_of_hi_lt hr h .u hhi
    rw [if_pos hhi, decide_eq_true hlt]
    exact exists_mem_column rule hr (hc .v) h false
  by_cases hlo : center.x ≤ r.x.lo
  · have hnot : ¬p.x < center.x := not_lt_of_le_lo hr h .u hlo
    rw [if_neg hhi, if_pos hlo, decide_eq_false hnot]
    exact exists_mem_column rule hr (hc .v) h true
  obtain ⟨hleft, hright⟩ := splitBy_isCorner rule .u hr (hc .u) h hhi hlo
  obtain ⟨⟨hnarrow, -⟩, hnarrow', -⟩ := splitBy_parts rule a b .u hr (hc .u) hhi hlo
  -- A quadrant along v that both halves share is entered on the side of the corner along u.
  have hpair (j : Bool) : ∃ r', (⟨!decide (p.x < center.x), j⟩, r') ∈
      [(Quadrant.mk false j, (Planar.splitBy rule a b r .u center.x).1),
        (⟨true, j⟩, (Planar.splitBy rule a b r .u center.x).2)] ∧
      r'.IsCorner (Planar.diagonal a b) p := by
    by_cases hlt : p.x < center.x
    · rw [decide_eq_true hlt]
      exact ⟨_, List.mem_cons_self, hleft hlt⟩
    · rw [decide_eq_false hlt]
      exact ⟨_, List.mem_cons_of_mem _ List.mem_cons_self, hright hlt⟩
  rw [if_neg hhi, if_neg hlo]
  dsimp only
  by_cases hyhi : r.y.hi < center.y
  · have hlty : p.y < center.y := lt_of_hi_lt hr h .v hyhi
    rw [if_pos hyhi, decide_eq_true hlty]
    exact hpair false
  by_cases hylo : center.y ≤ r.y.lo
  · have hnoty : ¬p.y < center.y := not_lt_of_le_lo hr h .v hylo
    rw [if_neg hyhi, if_pos hylo, decide_eq_false hnoty]
    exact hpair true
  rw [if_neg hyhi, if_neg hylo]
  by_cases hlt : p.x < center.x
  · rw [decide_eq_true hlt]
    obtain ⟨r', hmem, hcorner⟩ := exists_mem_column rule hnarrow.self (hc .v) (hleft hlt) false
    exact ⟨r', List.mem_append_left _ hmem, hcorner⟩
  · rw [decide_eq_false hlt]
    obtain ⟨r', hmem, hcorner⟩ := exists_mem_column rule hnarrow'.self (hc .v) (hright hlt) true
    exact ⟨r', List.mem_append_right _ hmem, hcorner⟩

/-! ## 3. The walk -/

theorem column_point (rule : Interpolation α) (hp : p.IsNumber) (hx : IsNumber x) (i : Bool) :
    column rule p p x i (.point p) = [(⟨i, !decide (p.y < x)⟩, .point p)] := by
  by_cases hlt : p.y < x
  · rw [column_of_hi_lt i hlt, decide_eq_true hlt]
    rfl
  · have hle : x ≤ p.y := (Ordered.not_lt (hp .v) hx).1 hlt
    rw [column_of_le_lo i hlt hle, decide_eq_false hlt]
    rfl

/-- **A single point is in one quadrant.** -/
theorem quadrants_point (rule : Interpolation α) (hp : p.IsNumber) (hc : center.IsNumber) :
    quadrants rule p p center (.point p) = [(quadrantOf center p, .point p)] := by
  unfold quadrants quadrantOf
  show (if p.x < center.x then _ else if center.x ≤ p.x then _ else _) = _
  by_cases hlt : p.x < center.x
  · rw [if_pos hlt, decide_eq_true hlt]
    exact column_point rule hp (hc .v) false
  · have hle : center.x ≤ p.x := (Ordered.not_lt (hp .u) (hc .u)).1 hlt
    rw [if_neg hlt, if_pos hle, decide_eq_false hlt]
    exact column_point rule hp (hc .v) true

variable [PaddedCell.HasCenters α]

theorem length_visitBy_point_le_one (hp : p.IsNumber) (hr : r = .point p) :
    (visitBy rule cells p p c r).length ≤ 1 := by
  fun_induction visitBy rule cells p p c r with
  | case1 => exact Nat.zero_le 1
  | case2 => exact Nat.zero_le 1
  | case3 => exact Nat.le_refl 1
  | case4 c r s _ _ _ hl ih =>
    rw [hr, quadrants_point rule hp c.isNumber_center, List.flatMap_singleton]
    exact ih _ _ rfl
  | case5 => exact Nat.zero_le 1

/-- **The walk of a segment passes through the cells of a corner.** -/
theorem visitBy_point_subset (rule' : Interpolation α) (hp : p.IsNumber) (hr : r.Narrows r)
    (h : r.IsCorner (Planar.diagonal a b) p) :
    visitBy rule' cells p p c (.point p) ⊆ visitBy rule cells a b c r := by
  fun_induction visitBy rule cells a b c r with
  | case1 c r hnone =>
    rw [visitBy, hnone]
    exact List.Subset.refl _
  | case2 c r s hs hlt =>
    rw [visitBy, hs]
    dsimp only
    rw [if_pos hlt]
    exact List.Subset.refl _
  | case3 c r s hs hnot heq =>
    rw [visitBy, hs]
    dsimp only
    rw [if_neg hnot, if_pos heq]
    exact List.Subset.refl _
  | case4 c r s hs hnot hne hl ih =>
    rw [visitBy, hs]
    dsimp only
    rw [if_neg hnot, if_neg hne, dif_pos hl, quadrants_point rule' hp c.isNumber_center,
      List.flatMap_singleton]
    obtain ⟨r', hmem, hcorner⟩ := exists_mem_quadrants_of_isCorner rule hr c.isNumber_center h
    have hfits := fits_of_mem_quadrants hr c.isNumber_center _ hmem
    intro z hz
    exact List.mem_flatMap.2 ⟨_, hmem, ih _ _ hfits.narrows.self hcorner hz⟩
  | case5 c r s hs hnot hne hl =>
    rw [visitBy, hs]
    dsimp only
    rw [if_neg hnot, if_neg hne, dif_neg hl]
    exact List.Subset.refl _

/-- Both ends of a segment. -/
theorem visitBy_end_subset (rule rule' : Interpolation α) (cells : Array StoredCell)
    (root : PaddedCell α) (ha : a.IsNumber) (hb : b.IsNumber) (hp : p = a ∨ p = b) :
    visitBy rule' cells p p root (.ofPair p p) ⊆ visitBy rule cells a b root (.ofPair a b) ∧
      (visitBy rule' cells p p root (.ofPair p p)).length ≤ 1 := by
  have hr : (Rect.ofPair a b).Narrows (.ofPair a b) := Rect.ofPair_narrows ha hb
  obtain ⟨hfirst, hlast⟩ := ofPair_isCorner ha hb
  rw [Rect.ofPair_self]
  rcases hp with rfl | rfl
  · exact ⟨visitBy_point_subset rule' ha hr hfirst, length_visitBy_point_le_one ha rfl⟩
  · exact ⟨visitBy_point_subset rule' hb hr hlast, length_visitBy_point_le_one hb rfl⟩

end Walk

/-! ## 4. Roots -/

namespace EdgeQuery

variable {q : EdgeQuery α} {root : PaddedCell α} {f : Face} {a b : Vec3 α}

/-- An edge with both ends on the face of the root is not clipped. -/
theorem cellsBelow_of_face {cells : Array StoredCell} (hf : root.id.face? = some f)
    (ha : Face.ofPoint a = f) (hb : Face.ofPoint b = f) : cellsBelow a b cells root =
      if root.bound.Meets (.ofPair (f.project a) (f.project b)) then
        Walk.visit cells (f.project a) (f.project b) root (.ofPair (f.project a) (f.project b))
      else [] :=
  cellsBelow_of_clip a b hf (if_pos ⟨ha, hb⟩)

variable [Ordered α]

variable [PaddedCell.HasCenters α]

/-- **The ends of a segment survive every split**, in whatever way crossings are rounded: the cells
that the walk of AB finds include those that the walks of A alone and of B alone find from the same
root, of which there is one at most.  So do the cells found in a root for an edge on its face.  Where
the cursor stands and what the lists held before makes no difference. -/
theorem ends_survive_splits :
    (∀ (rule rule' : Interpolation α) (c c' : Cursor) (root : PaddedCell α) (a b : Vec2 α),
      c'.cells = c.cells → a.IsNumber → b.IsNumber → ∀ p, p = a ∨ p = b →
        (Walk.search rule' p p root (.ofPair p p) ⟨c', []⟩).found ⊆
          (Walk.search rule a b root (.ofPair a b) ⟨c, []⟩).found ∧
        (Walk.search rule' p p root (.ofPair p p) ⟨c', []⟩).found.length ≤ 1) ∧
    ∀ (q : EdgeQuery α) (root : PaddedCell α) (f : Face) (a b : Vec3 α),
      root.id.face? = some f → Face.ofPoint a = f → Face.ofPoint b = f →
      (f.project a).IsNumber → (f.project b).IsNumber → ∀ p, p = a ∨ p = b → ∀ list list',
        (q.fillCellsInRoot p p root list').1.result ⊆ (q.fillCellsInRoot a b root list).1.result := by
  constructor
  · intro rule rule' c c' root a b hc ha hb p hp
    rw [Walk.found_search, Walk.found_search, hc]
    exact Walk.visitBy_end_subset rule rule' c.cells root ha hb hp
  · intro q root f a b hf ha hb hna hnb p hp list list'
    have hpf : Face.ofPoint p = f := by
      rcases hp with rfl | rfl
      · exact ha
      · exact hb
    have hproject : f.project p = f.project a ∨ f.project p = f.project b :=
      hp.imp (congrArg _) (congrArg _)
    rw [fillCellsInRoot_fst, fillCellsInRoot_fst, cellsBelow_of_face hf hpf hpf,
      cellsBelow_of_face hf ha hb]
    by_cases hmeets : root.bound.Meets (.ofPair (f.project p) (f.project p))
    · have hwhole := (Walk.ofPair_self_narrows hna hnb hproject).meets_of_meets hmeets
      rw [if_pos hmeets, if_pos hwhole]
      exact (Walk.visitBy_end_subset _ _ _ root hna hnb hproject).1
    · rw [if_neg hmeets]
      exact List.nil_subset _

/-- The diagonal of a face in double precision, with rules that never give a number, and an edge in
one of its quarters. -/
theorem ends_survive_without_numbers :
    (Walk.search (fun _ _ _ _ _ => 0 / 0) ⟨0.5, 0.5⟩ ⟨0.5, 0.5⟩
        (PaddedCell.ofFace .xPos (0 : Float)) (.ofPair ⟨0.5, 0.5⟩ ⟨0.5, 0.5⟩)
        ⟨⟨Walk.quarters, 2⟩, []⟩).found ⊆
      (Walk.search (fun _ _ _ _ _ => 0 / 0) ⟨-0.5, -0.5⟩ ⟨0.5, 0.5⟩
        (PaddedCell.ofFace .xPos (0 : Float)) (.ofPair ⟨-0.5, -0.5⟩ ⟨0.5, 0.5⟩)
        ⟨⟨Walk.quarters, 0⟩, []⟩).found ∧
    ((ofIndex ⟨.default, #[], Walk.quarters, 0, ⟨0, 0, 2, 1⟩⟩ .default).fillCellsInRoot
        ⟨1, 0.25, 0.25⟩ ⟨1, 0.25, 0.25⟩ (PaddedCell.ofFace .xPos (0 : Float)) []).1.result ⊆
      ((ofIndex ⟨.default, #[], Walk.quarters, 0, ⟨0, 0, 2, 1⟩⟩ .default).fillCellsInRoot
        ⟨1, 0.25, 0.25⟩ ⟨1, 0.5, 0.5⟩ (PaddedCell.ofFace .xPos (0 : Float)) []).1.result := by
  obtain ⟨hwalk, hroot⟩ := ends_survive_splits (α := Float)
  constructor
  · refine (hwalk _ _ ⟨Walk.quarters, 0⟩ ⟨Walk.quarters, 2⟩ _ ⟨-0.5, -0.5⟩ ⟨0.5, 0.5⟩ rfl ?_ ?_ _
      (.inr rfl)).1
    · intro axis
      cases axis <;> decide +kernel
    · intro axis
      cases axis <;> decide +kernel
  · refine hroot _ _ .xPos ⟨1, 0.25, 0.25⟩ ⟨1, 0.5, 0.5⟩ ?_ ?_ ?_ ?_ ?_ _ (.inl rfl) [] []
    · decide +kernel
    · decide +kernel
    · decide +kernel
    · intro axis
      cases axis <;> decide +kernel
    · intro axis
      cases axis <;> decide +kernel

end EdgeQuery

end SphereIndex
