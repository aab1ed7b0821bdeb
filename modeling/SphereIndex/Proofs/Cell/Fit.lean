import SphereIndex.Proofs.Cell.Descent
import SphereIndex.Proofs.Cell.Shrink

/-!
# The smallest cell around a rectangle

In exact arithmetic the leaf cells whose columns and rows lie in the spans are those that the padded
rectangle reaches.  Each span begins and ends with one of them, so a cell over all of them is as
high as the bits in which the ends differ, and shrinking gives the lowest such cell.
-/

namespace SphereIndex

/-! ## 1. Smallest cells -/

namespace CellId

/-- **The smallest cell over some leaf cells**: any other cell over all of them contains it. -/
structure IsSmallestOver (d : CellId) (ls : Set CellId) : Prop where
  isValid : d.IsValid
  contains : ∀ l ∈ ls, d.Contains l
  smallest : ∀ e : CellId, e.IsValid → (∀ l ∈ ls, e.Contains l) → e.Contains d

/-- A cell over two leaf cells is above all levels at which they are apart. -/
theorem Numbered.contains_of_apart {a b d e : CellId} {h m l n p q : Nat} (hd : d.Numbered h m)
    (he : e.Numbered l n) (ha : a.Numbered 0 p) (hb : b.Numbered 0 q) (hda : d.Contains a)
    (hea : e.Contains a) (heb : e.Contains b)
    (hapart : ∀ j < h, ∃ axis, a.spot.along axis / 2 ^ j ≠ b.spot.along axis / 2 ^ j) :
    e.Contains d := by
  -- A lower cell would have the two leaf cells in one place at its own level.
  have hle : h ≤ l := by
    by_contra hlt
    obtain ⟨axis, hne⟩ := hapart l (Nat.not_le.1 hlt)
    exact hne ((he.spot_of_contains ha hea axis).trans (he.spot_of_contains hb heb axis).symm)
  exact he.contains_of_height_le hd ha hle hea hda

/-- The points of the square of a cell without its upper sides. -/
def Covers (c : CellId) (p : Vec2 ℝ) : Prop :=
  ∀ axis, (c.bound.along axis).lo ≤ p.along axis ∧ p.along axis < (c.bound.along axis).hi

theorem Numbered.covers_iff {l : CellId} {n : Nat} (hl : l.Numbered 0 n) {p : Vec2 ℝ} :
    l.Covers p ↔ ∀ axis, Grid.line (l.spot.along axis) ≤ p.along axis ∧
      p.along axis < Grid.line (l.spot.along axis + 1) := by
  have hbound (axis : Axis) : l.bound.along axis = (⟨Grid.line (l.spot.along axis),
      Grid.line (l.spot.along axis + 1)⟩ : Interval ℝ) := by
    rw [bound_along hl.isValid, hl.corner_leaf, hl.sizeAt_level, Nat.pow_zero]
  simp only [Covers, hbound]

end CellId

/-! ## 2. Columns that an interval reaches -/

/-- Whether some columns begin before the end of an interval and end behind its beginning. -/
structure Interval.Reaches (a : Interval ℝ) (first count : Nat) : Prop where
  le : a.lo ≤ a.hi
  lo_lt : a.lo < Grid.line (first + count)
  le_hi : Grid.line first ≤ a.hi

namespace Interval.Reaches

variable {a : Interval ℝ} {level first n : Nat}

theorem exists_mem (h : a.Reaches n 1) :
    ∃ x, Grid.line n ≤ x ∧ x < Grid.line (n + 1) ∧ a.Contains x :=
  ⟨max a.lo (Grid.line n), le_max_right _ _,
    max_lt h.lo_lt (Grid.line_strictMono (Nat.lt_succ_self n)), le_max_left _ _,
    max_le h.le h.le_hi⟩

theorem of_mem {x : ℝ} (hlo : Grid.line n ≤ x) (hhi : x < Grid.line (n + 1)) (hx : a.Contains x) :
    a.Reaches n 1 :=
  ⟨hx.1.trans hx.2, hx.1.trans_lt hhi, hlo.trans hx.2⟩

/-- **The span of an interval is made of the columns that it reaches.** -/
theorem mem_span_iff (h : a.Reaches first (CellId.sizeAt level))
    (hlast : first + CellId.sizeAt level ≤ 2 ^ 30) (hn : first ≤ n)
    (hn' : n < first + CellId.sizeAt level) :
    (PaddedCell.leafSpan level first a).1 ≤ n ∧ n ≤ (PaddedCell.leafSpan level first a).2 ↔
      a.Reaches n 1 := by
  constructor
  · rintro ⟨hlo, hhi⟩
    refine ⟨h.le, ?_, ?_⟩
    · -- The last column of the face is the last one of the cell, which the interval begins before.
      rcases Nat.lt_or_ge (n + 1) (2 ^ 30) with hlt | hge
      · exact (Grid.leafAt_le_iff hlt).1 (le_of_max_le_right hlo)
      · have heq : first + CellId.sizeAt level = n + 1 := by omega
        exact heq ▸ h.lo_lt
    · rcases Nat.eq_zero_or_pos n with rfl | hpos
      · have heq : first = 0 := by omega
        exact heq ▸ h.le_hi
      · exact (Grid.le_leafAt_iff hpos (by omega) _).1 (le_min_iff.1 hhi).2
  · intro hreach
    exact ⟨max_le hn (Grid.leafAt_le hreach.lo_lt),
      le_min (by omega) (Grid.le_leafAt (by omega) hreach.le_hi)⟩

/-- The span of an interval that reaches the cell is not empty. -/
theorem span_le (h : a.Reaches first (CellId.sizeAt level))
    (hlast : first + CellId.sizeAt level ≤ 2 ^ 30) :
    (PaddedCell.leafSpan level first a).1 ≤ (PaddedCell.leafSpan level first a).2 := by
  have hsize := CellId.sizeAt_pos level
  have hlo : Grid.leafAt a.lo ≤ first + CellId.sizeAt level - 1 := by
    apply Grid.leafAt_le
    rw [Nat.sub_add_cancel (by omega)]
    exact h.lo_lt
  have hhi : first ≤ Grid.leafAt a.hi := Grid.le_leafAt (by omega) h.le_hi
  exact max_le (le_min (by omega) hhi) (le_min hlo (Grid.leafAt_mono h.le))

end Interval.Reaches

/-- Intervals meet if neither is empty and neither begins behind the end of the other. -/
theorem Interval.meets_iff {a b : Interval ℝ} :
    a.Meets b ↔ a.lo ≤ a.hi ∧ b.lo ≤ b.hi ∧ b.lo ≤ a.hi ∧ a.lo ≤ b.hi := by
  unfold Meets
  split
  · rename_i hle
    exact ⟨fun h => ⟨le_trans hle h.1, h.2, h.1, le_trans hle h.2⟩, fun h => ⟨h.2.2.1, h.2.1⟩⟩
  · rename_i hlt
    have hlt := (not_le.1 hlt).le
    exact ⟨fun h => ⟨h.2, hlt.trans h.1, hlt.trans h.2, h.1⟩, fun h => ⟨h.2.2.2, h.1⟩⟩

theorem Rect.Meets.along {r s : Rect ℝ} (h : r.Meets s) (axis : Axis) :
    (r.along axis).Meets (s.along axis) := by
  cases axis with
  | u => exact h.1
  | v => exact h.2

/-! ## 3. Leaf cells that a rectangle reaches -/

namespace PaddedCell

variable {c : PaddedCell ℝ} {r : Rect ℝ} {axis : Axis} {d l : CellId} {k m n : Nat}

/-- **The leaf cells below a cell whose squares the padded rectangle reaches.** -/
def reached (c : PaddedCell ℝ) (r : Rect ℝ) : Set CellId :=
  {l | l.IsValid ∧ l.IsLeaf ∧ c.id.Contains l ∧ ∃ p, l.Covers p ∧
    (r.expanded (c.padding + 3 / 2 * Scalar.epsilon)).Contains p}

theorem Exact.padded_along (hc : c.Exact) (hr : c.bound.Meets r) (axis : Axis) :
    (c.padded r).along axis =
      ⟨(r.along axis).lo - (c.padding + 3 / 2 * Scalar.epsilon),
        (r.along axis).hi + (c.padding + 3 / 2 * Scalar.epsilon)⟩ :=
  expanded_along (margin_pos hc.padding_nonneg).le
    (fun axis => (Interval.meets_iff.1 (hr.along axis)).2.1) axis

/-- The margin is wider than the padding by which the square of the cell may miss the rectangle. -/
theorem Exact.reaches (hc : c.Exact) (hr : c.bound.Meets r) (axis : Axis) :
    ((c.padded r).along axis).Reaches (c.corner axis) (CellId.sizeAt c.level) := by
  have hpadding := hc.padding_nonneg
  have hepsilon := Scalar.epsilon_pos
  obtain ⟨-, hne, hhi, hlo⟩ := Interval.meets_iff.1 (hr.along axis)
  rw [hc.bound_along, CellId.bound_along hc.isValid, ← hc.corner_eq, ← hc.level_eq] at hhi hlo
  rw [hc.padded_along hr]
  constructor
  · linarith
  · linarith
  · linarith

/-- **The leaf cells of the spans are those that the rectangle reaches.** -/
theorem Exact.mem_reached_iff (hc : c.Exact) (hr : c.bound.Meets r) (hl : l.Numbered 0 n)
    (hcl : c.id.Contains l) : l ∈ c.reached r ↔ ∀ axis,
      (spanBy Grid.leafAt c r axis).1 ≤ l.spot.along axis ∧
        l.spot.along axis ≤ (spanBy Grid.leafAt c r axis).2 := by
  have hspan (axis : Axis) := (hc.reaches hr axis).mem_span_iff (hc.corner_add_le axis)
    (hc.spot_mem hl hcl axis).1 (hc.spot_mem hl hcl axis).2
  constructor
  · rintro ⟨-, -, -, p, hp, hpadded⟩ axis
    obtain ⟨hlo, hhi⟩ := hl.covers_iff.1 hp axis
    exact (hspan axis).2 (.of_mem hlo hhi (Rect.contains_iff_along.1 hpadded axis))
  · intro hmem
    have hreach (axis : Axis) := ((hspan axis).1 (hmem axis)).exists_mem
    choose x hlo hhi hx using hreach
    have hp (axis : Axis) : (Vec2.mk (x .u) (x .v)).along axis = x axis := by cases axis <;> rfl
    refine ⟨hl.isValid, hl.isLeaf_iff.2 rfl, hcl, ⟨x .u, x .v⟩, ?_, ?_⟩
    · rw [hl.covers_iff]
      intro axis
      rw [hp]
      exact ⟨hlo axis, hhi axis⟩
    · rw [Rect.contains_iff_along]
      intro axis
      rw [hp]
      exact hx axis

/-- A leaf cell whose own padded square meets the rectangle is reached. -/
theorem Exact.mem_reached_of_meets (hc : c.Exact) (hr : c.bound.Meets r) (hl : l.Numbered 0 n)
    (hcl : c.id.Contains l) (hmeets : (ofId l c.padding).bound.Meets r) : l ∈ c.reached r := by
  have hleaf := exact_ofId hl.isValid hc.padding_nonneg
  rw [hc.mem_reached_iff hr hl hcl]
  intro axis
  obtain ⟨hlo, hhi⟩ := hc.spot_mem hl hcl axis
  have hreach := hleaf.reaches hmeets axis
  have hpadded : (ofId l c.padding).padded r = c.padded r := by
    rw [padded, padding_ofId, padded]
  rw [hpadded, corner_ofId hl.isValid, level_ofId hl.isValid, hl.corner_leaf, hl.sizeAt_level,
    Nat.pow_zero] at hreach
  exact ((hc.reaches hr axis).mem_span_iff (hc.corner_add_le axis) hlo hhi).2 hreach

/-! ## 4. Shrinking -/

/-- The leaf cell at a place within the spans is reached. -/
theorem Exact.exists_reached (hc : c.Exact) (hr : c.bound.Meets r) (p : Axis → Nat)
    (hp : ∀ axis, (spanBy Grid.leafAt c r axis).1 ≤ p axis ∧
      p axis ≤ (spanBy Grid.leafAt c r axis).2) :
    ∃ l n, l ∈ c.reached r ∧ l.Numbered 0 n ∧ ∀ axis, l.spot.along axis = p axis := by
  obtain ⟨k, m, hm⟩ := hc.isValid.exists_numbered
  -- The place is a span of its own, which begins and ends with the leaf cell.
  have hspan (axis : Axis) : IsSpan c axis (p axis, p axis) := by
    have h := spanBy_isSpan hc.toPlaced Grid.leafAt_lt r axis
    have hcorner := hc.corner_add_le axis
    have hlast := Nat.lt_of_le_of_lt (hp axis).2 h.last_lt
    exact ⟨Nat.le_trans h.corner_le (hp axis).1, by omega, hlast⟩
  obtain ⟨n, hl⟩ : ∃ n, IsFirst c (fun axis => (p axis, p axis))
      (.ofLeaf c.id.faceNumber (p .u) (p .v)) n := exists_isFirst hc.toPlaced hspan
  have hcl := hl.contained hc.toPlaced hspan hm fun _ => rfl
  refine ⟨_, n, (hc.mem_reached_iff hr hl.numbered hcl).2 fun axis => ?_, hl.numbered, hl.spot_eq⟩
  rw [hl.spot_eq]
  exact hp axis

/-- A rectangle that reaches the center has a span that begins before the middle column and does not
end before it. -/
theorem Exact.across (hc : c.Exact) (hr : c.bound.Meets r) (hl : c.level < maxLevel)
    (hcenter : (r.along axis).Contains
      (Grid.line (c.corner axis + CellId.sizeAt (c.level + 1)))) :
    (spanBy Grid.leafAt c r axis).1 < c.corner axis + CellId.sizeAt (c.level + 1) ∧
      c.corner axis + CellId.sizeAt (c.level + 1) ≤ (spanBy Grid.leafAt c r axis).2 := by
  have hsize := CellId.sizeAt_pos (c.level + 1)
  have hcorner := hc.corner_add_le axis
  have hsides := CellId.sizeAt_of_lt hl
  have hmargin := margin_pos hc.padding_nonneg
  have hspan : spanBy Grid.leafAt c r axis =
      leafSpan c.level (c.corner axis) ((c.padded r).along axis) := rfl
  rw [hspan, hc.padded_along hr]
  generalize hn : c.corner axis + CellId.sizeAt (c.level + 1) = n at hcenter ⊢
  constructor
  · -- The margin is not zero, so that also a rectangle that begins at the center begins before it.
    apply max_lt (by omega)
    have hlo : Grid.leafAt ((r.along axis).lo - (c.padding + 3 / 2 * Scalar.epsilon)) ≤ n - 1 := by
      apply Grid.leafAt_le
      rw [Nat.sub_add_cancel (by omega)]
      exact (sub_lt_self _ hmargin).trans_le hcenter.1
    exact Nat.lt_of_le_of_lt hlo (by omega)
  · apply le_min (by omega)
    apply Grid.le_leafAt (by omega)
    exact hcenter.2.trans (le_add_of_nonneg_right hmargin.le)

/-- **Where the rectangle reaches the center, the ends of a span lie in different halves.** -/
theorem Exact.height_le_spread (hc : c.Exact) (hr : c.bound.Meets r)
    (hcenter : (r.along axis).Contains (c.center.along axis)) :
    30 - c.level ≤ spread (spanBy Grid.leafAt c r) := by
  by_contra hlt
  have hl : c.level < maxLevel := Nat.lt_of_sub_pos (Nat.zero_lt_of_lt (Nat.not_le.1 hlt))
  obtain ⟨k, m, hm⟩ := hc.isValid.exists_numbered_of_level (hc.level_eq ▸ hl)
  have hk := hm.height_le
  have hlevel : c.level = 30 - (k + 1) := hc.level_eq.trans hm.level_eq
  have hhalf : CellId.sizeAt (c.level + 1) = 2 ^ k := by
    rw [CellId.sizeAt_eq]
    congr 1
    omega
  -- The middle column is an odd multiple of the side of a child.
  have hmiddle : c.corner axis + 2 ^ k = (2 * c.id.spot.along axis + 1) * 2 ^ k := by
    rw [hc.corner_eq, CellId.corner, hm.sizeAt_level, Nat.pow_succ]
    ring
  rw [hc.center_along hl, ← hc.corner_eq, hhalf] at hcenter
  obtain ⟨hfirst, hlast⟩ := hc.across hr hl (hhalf.symm ▸ hcenter)
  rw [hhalf, hmiddle] at hfirst hlast
  have hfirst := (Nat.div_lt_iff_lt_mul (Nat.two_pow_pos k)).2 hfirst
  have hlast := (Nat.le_div_iff_mul_le (Nat.two_pow_pos k)).2 hlast
  have hsame := div_two_pow_of_spread_le (show spread (spanBy Grid.leafAt c r) ≤ k by omega) axis
  omega

/-- The result is no higher than the bits in which the spans differ. -/
theorem Shrunk.exists_height (h : Shrunk c r (spanBy Grid.leafAt c r) d) (hc : c.Exact)
    (hr : c.bound.Meets r) : ∃ k m, d.Numbered k m ∧ k ≤ spread (spanBy Grid.leafAt c r) := by
  obtain ⟨k, m, hm⟩ := hc.isValid.exists_numbered
  have hk := hm.height_le
  have hlevel : c.level = 30 - k := hc.level_eq.trans hm.level_eq
  cases h with
  | center axis h =>
    rw [hc.splitPoint_eq Grid.isExact_real] at h
    have hle := hc.height_le_spread hr h
    exact ⟨k, m, hm, by omega⟩
  | apart h => exact ⟨k, m, hm, by omega⟩
  | below h =>
    obtain ⟨n, hx⟩ := exists_isFirst hc.toPlaced (spanBy_isSpan hc.toPlaced Grid.leafAt_lt r)
    exact ⟨_, _, hx.numbered.parentAt (Nat.zero_le _) (by omega), Nat.le_refl _⟩

/-- A rectangle that meets the padded square of the cell reaches some leaf cell below it. -/
theorem Exact.reached_nonempty (hc : c.Exact) (hr : c.bound.Meets r) : (c.reached r).Nonempty := by
  obtain ⟨l, -, hl, -⟩ := hc.exists_reached hr (fun axis => (spanBy Grid.leafAt c r axis).1)
    fun axis => ⟨Nat.le_refl _, (hc.reaches hr axis).span_le (hc.corner_add_le axis)⟩
  exact ⟨l, hl⟩

/-- **Shrinking gives the smallest cell** over the leaf cells that the rectangle reaches. -/
theorem Exact.shrinkToFit_isSmallestOver (hc : c.Exact) (hr : c.bound.Meets r) :
    (c.shrinkToFit r).IsSmallestOver (c.reached r) := by
  have h := shrinkToFitBy_shrunk Grid.leafAt c r
  have hspan := spanBy_isSpan hc.toPlaced Grid.leafAt_lt r
  have hle (axis : Axis) : (spanBy Grid.leafAt c r axis).1 ≤ (spanBy Grid.leafAt c r axis).2 :=
    (hc.reaches hr axis).span_le (hc.corner_add_le axis)
  have hcontains (l : CellId) (hl : l ∈ c.reached r) : (c.shrinkToFit r).Contains l := by
    obtain ⟨n, hn⟩ := hl.1.numbered_leaf hl.2.1
    exact h.contains hc.toPlaced hspan hn hl.2.2.1 ((hc.mem_reached_iff hr hn hl.2.2.1).1 hl)
  refine ⟨isValid_shrinkToFit hc.toPlaced r, hcontains, fun e he hall => ?_⟩
  -- The leaf cells at the ends of the spans are reached, and apart at all levels below the result.
  obtain ⟨a, p, ha, hap, haspot⟩ := hc.exists_reached hr _ fun axis => ⟨Nat.le_refl _, hle axis⟩
  obtain ⟨b, q, hb, hbq, hbspot⟩ := hc.exists_reached hr _ fun axis => ⟨hle axis, Nat.le_refl _⟩
  obtain ⟨k, m, hd, hk⟩ := h.exists_height hc hr
  obtain ⟨l, n, hn⟩ := he.exists_numbered
  refine hd.contains_of_apart hn hap hbq (hcontains a ha) (hall a ha) (hall b hb) fun j hj => ?_
  simp only [haspot, hbspot]
  exact exists_apart (Nat.lt_of_lt_of_le hj hk)

/-- **Shrinking fits.**  Whatever leaf cells the sides of a rectangle are found to lie in, a padded
cell shrinks to a cell below it.  In exact arithmetic this is the smallest cell over the leaf cells
that the rectangle reaches, and among these are all leaf cells whose own padded squares meet it. -/
theorem shrinkToFit_fits {id : CellId} (hid : id.IsValid) (path : List Quadrant)
    (hpath : id.level + path.length ≤ maxLevel) :
    (∀ (α : Type) [Scalar α] (padding : α) (r : Rect α) (leafAt : α → Nat),
      (∀ x, leafAt x < 2 ^ 30) →
      let c := (ofId id padding).descend path
      c.shrinkToFit r = c.shrinkToFitBy Grid.leafAt r ∧
        (c.shrinkToFitBy leafAt r).IsValid ∧ c.id.Contains (c.shrinkToFitBy leafAt r)) ∧
    (∀ (padding : ℝ) (r : Rect ℝ), 0 ≤ padding →
      let c := (ofId id padding).descend path
      c.bound.Meets r → (c.reached r).Nonempty ∧ (c.shrinkToFit r).IsSmallestOver (c.reached r) ∧
        ∀ l : CellId, l.IsValid → l.IsLeaf → c.id.Contains l → (ofId l padding).bound.Meets r →
          l ∈ c.reached r ∧ (c.shrinkToFit r).Contains l) := by
  constructor
  · intro α _ padding r leafAt hleaf c
    have hc : c.Placed := (placed_ofId hid padding).descend (by rwa [level_ofId hid])
    obtain ⟨hvalid, hcontains⟩ := (shrinkToFitBy_shrunk leafAt c r).isValid_and_contained hc
      (spanBy_isSpan hc hleaf r)
    exact ⟨c.shrinkToFit_eq r, hvalid, hcontains⟩
  · intro padding r h0 c hr
    have hc : c.Exact := ((grown_ofId Grid.isExact_real hid h0).descend Grid.isExact_real
      (by rwa [level_ofId hid])).exact
    have hpadding : c.padding = padding := (padding_descend _ path).trans (padding_ofId _ _)
    have hfit := hc.shrinkToFit_isSmallestOver hr
    refine ⟨hc.reached_nonempty hr, hfit, fun l hl hleaf hcl hmeets => ?_⟩
    obtain ⟨n, hn⟩ := hl.numbered_leaf hleaf
    have hmem := hc.mem_reached_of_meets hr hn hcl (hpadding.symm ▸ hmeets)
    exact ⟨hmem, hfit.contains l hmem⟩

/-- A rectangle in the last quarter of a face. -/
theorem shrinkToFit_fits_quarter :
    (CellId.ofFace .zPos).IsValid ∧ (CellId.ofFace .zPos).level + 1 ≤ maxLevel ∧
    (0 : ℝ) ≤ 1 / 100 ∧
    ((ofFace .zPos (1 / 100 : ℝ)).child ⟨true, true⟩).bound.Meets ⟨⟨1 / 4, 1 / 3⟩, ⟨1 / 5, 1 / 2⟩⟩ ∧
    (((ofFace .zPos (1 / 100 : ℝ)).child ⟨true, true⟩).shrinkToFit
      ⟨⟨1 / 4, 1 / 3⟩, ⟨1 / 5, 1 / 2⟩⟩).IsSmallestOver
        (((ofFace .zPos (1 / 100 : ℝ)).child ⟨true, true⟩).reached
          ⟨⟨1 / 4, 1 / 3⟩, ⟨1 / 5, 1 / 2⟩⟩) := by
  have hvalid := CellId.IsValid.ofFace .zPos
  have hlevel : (CellId.ofFace .zPos).level + 1 ≤ maxLevel := by decide
  have hpadding : (0 : ℝ) ≤ 1 / 100 := by norm_num
  have hbound : ((ofFace .zPos (1 / 100 : ℝ)).child ⟨true, true⟩).bound =
      ⟨⟨-(1 / 100), 1 + 1 / 100⟩, ⟨-(1 / 100), 1 + 1 / 100⟩⟩ := rfl
  have hmeets : ((ofFace .zPos (1 / 100 : ℝ)).child ⟨true, true⟩).bound.Meets
      ⟨⟨1 / 4, 1 / 3⟩, ⟨1 / 5, 1 / 2⟩⟩ := by
    rw [hbound]
    exact ⟨Interval.meets_iff.2 (by norm_num), Interval.meets_iff.2 (by norm_num)⟩
  obtain ⟨-, hfit⟩ := shrinkToFit_fits hvalid [⟨true, true⟩] hlevel
  exact ⟨hvalid, hlevel, hpadding, hmeets,
    (hfit _ ⟨⟨1 / 4, 1 / 3⟩, ⟨1 / 5, 1 / 2⟩⟩ hpadding hmeets).2.1⟩

end PaddedCell

end SphereIndex
