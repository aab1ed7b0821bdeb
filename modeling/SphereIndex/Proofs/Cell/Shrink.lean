import Mathlib.Data.Nat.Bitwise
import SphereIndex.Proofs.Cell.Coordinates

/-!
# Shrinking a cell to a rectangle

The columns of two leaf cells differ below the highest bit of their exclusive or only, so the cell
of that level holds all leaf cells between them.  Whatever leaf cells the sides of the rectangle are
found to lie in, the first one of a span is not before the cell and the last one not behind it: if
they agree in more bits than the level of the cell asks for, both lie below the cell.
-/

namespace SphereIndex

namespace PaddedCell

/-! ## 1. Leading bits -/

theorem xor_lt_two_pow_iff {a b n : Nat} : a ^^^ b < 2 ^ n ↔ a / 2 ^ n = b / 2 ^ n := by
  rw [← Nat.div_eq_zero_iff_lt (Nat.two_pow_pos n), Nat.xor_div_two_pow, Nat.xor_eq_zero_iff]

/-- Numbers between two that agree in their leading bits agree with them. -/
theorem div_eq_of_between {a b x n : Nat} (h : a / 2 ^ n = b / 2 ^ n) (ha : a ≤ x) (hb : x ≤ b) :
    a / 2 ^ n = x / 2 ^ n := by
  have hle := Nat.div_le_div_right (c := 2 ^ n) ha
  have hle' := Nat.div_le_div_right (c := 2 ^ n) hb
  omega

/-- **The number of low bits in which the ends of two spans differ**, one span for each axis. -/
def spread (span : Axis → Nat × Nat) : Nat :=
  (2 * (((span .u).1 ^^^ (span .u).2) ||| ((span .v).1 ^^^ (span .v).2)) + 1).log2

theorem commonLevel_eq (span : Axis → Nat × Nat) :
    commonLevel (span .u) (span .v) = 30 - spread span := rfl

/-- Above these bits the ends agree. -/
theorem div_two_pow_spread (span : Axis → Nat × Nat) (axis : Axis) :
    (span axis).1 / 2 ^ spread span = (span axis).2 / 2 ^ spread span := by
  have hlog : 2 * (((span .u).1 ^^^ (span .u).2) ||| ((span .v).1 ^^^ (span .v).2)) + 1 <
      2 ^ (spread span + 1) := Nat.lt_log2_self
  have hu : (span .u).1 ^^^ (span .u).2 ≤
      ((span .u).1 ^^^ (span .u).2) ||| ((span .v).1 ^^^ (span .v).2) := Nat.left_le_or
  have hv : (span .v).1 ^^^ (span .v).2 ≤
      ((span .u).1 ^^^ (span .u).2) ||| ((span .v).1 ^^^ (span .v).2) := Nat.right_le_or
  rw [Nat.pow_succ] at hlog
  rw [← xor_lt_two_pow_iff]
  cases axis with
  | u => omega
  | v => omega

theorem div_two_pow_of_spread_le {span : Axis → Nat × Nat} {k : Nat} (h : spread span ≤ k)
    (axis : Axis) : (span axis).1 / 2 ^ k = (span axis).2 / 2 ^ k := by
  have hpow : 2 ^ k = 2 ^ spread span * 2 ^ (k - spread span) := by
    rw [← Nat.pow_add, Nat.add_sub_cancel' h]
  rw [hpow, ← Nat.div_div_eq_div_mul, div_two_pow_spread, Nat.div_div_eq_div_mul]

/-- At each of these bits they are apart along one axis. -/
theorem exists_apart {span : Axis → Nat × Nat} {n : Nat} (h : n < spread span) :
    ∃ axis, (span axis).1 / 2 ^ n ≠ (span axis).2 / 2 ^ n := by
  by_contra hno
  have hsame (axis : Axis) : (span axis).1 ^^^ (span axis).2 < 2 ^ n := by
    rw [xor_lt_two_pow_iff]
    by_contra hne
    exact hno ⟨axis, hne⟩
  have hor := Nat.or_lt_two_pow (hsame .u) (hsame .v)
  have hlog : spread span < n + 1 := by
    apply (Nat.log2_lt (Nat.succ_ne_zero _)).2
    rw [Nat.pow_succ]
    omega
  omega

section rounding
variable {α : Type} {c : PaddedCell α} {span : Axis → Nat × Nat} {k m : Nat}

/-! ## 2. Spans of leaf cells -/

/-- A span that begins in or behind the cell, on the face, and ends in or before the cell. -/
structure IsSpan (c : PaddedCell α) (axis : Axis) (u : Nat × Nat) : Prop where
  corner_le : c.corner axis ≤ u.1
  first_lt : u.1 < 2 ^ 30
  last_lt : u.2 < c.corner axis + CellId.sizeAt c.level

/-- The first leaf cell of a span that agrees in the bits above the cell lies in the cell. -/
theorem IsSpan.first_div_eq {axis : Axis} {u : Nat × Nat} (h : IsSpan c axis u) (hc : c.Placed)
    (hm : c.id.Numbered k m) (hsame : u.1 / 2 ^ k = u.2 / 2 ^ k) :
    u.1 / 2 ^ k = c.id.spot.along axis := by
  have hlo := h.corner_le
  have hhi := h.last_lt
  rw [hc.corner_eq, CellId.corner, hm.sizeAt_level] at hlo
  rw [hc.corner_eq, hc.level_eq, CellId.corner, hm.sizeAt_level, ← Nat.succ_mul] at hhi
  have hle := (Nat.le_div_iff_mul_le (Nat.two_pow_pos k)).2 hlo
  have hlt := (Nat.div_lt_iff_lt_mul (Nat.two_pow_pos k)).2 hhi
  omega

theorem Placed.spot_mem (hc : c.Placed) {l : CellId} (hl : l.Numbered 0 m)
    (hcl : c.id.Contains l) (axis : Axis) : c.corner axis ≤ l.spot.along axis ∧
      l.spot.along axis < c.corner axis + CellId.sizeAt c.level := by
  obtain ⟨k, n, hn⟩ := hc.isValid.exists_numbered
  have hcorner := hn.corner_of_contains hl hcl axis
  rwa [← hc.corner_eq, ← hc.level_eq, hl.sizeAt_level, hl.corner_leaf] at hcorner

/-- The leaf cell in which the spans begin. -/
structure IsFirst (c : PaddedCell α) (span : Axis → Nat × Nat) (x : CellId) (n : Nat) : Prop where
  numbered : x.Numbered 0 n
  faceNumber_eq : x.faceNumber = c.id.faceNumber
  spot_eq : ∀ axis, x.spot.along axis = (span axis).1

theorem exists_isFirst (hc : c.Placed) (hspan : ∀ axis, IsSpan c axis (span axis)) :
    ∃ n, IsFirst c span (.ofLeaf c.id.faceNumber (span .u).1 (span .v).1) n := by
  have hlt (axis : Axis) : (span axis).1 < 2 ^ 30 := (hspan axis).first_lt
  exact ⟨_, CellId.numbered_ofLeaf hc.isValid.1 (hlt .u) (hlt .v),
    CellId.faceNumber_ofLeaf hc.isValid.1 (hlt .u) (hlt .v),
    CellId.spot_along_ofLeaf (p := fun axis => (span axis).1) hc.isValid.1 hlt⟩

theorem IsFirst.contained {x : CellId} {n : Nat} (hx : IsFirst c span x n) (hc : c.Placed)
    (hspan : ∀ axis, IsSpan c axis (span axis)) (hm : c.id.Numbered k m)
    (hsame : ∀ axis, (span axis).1 / 2 ^ k = (span axis).2 / 2 ^ k) : c.id.Contains x := by
  rw [hm.contains_iff_spot hx.numbered]
  refine ⟨Nat.zero_le k, hx.faceNumber_eq, fun axis => ?_⟩
  rw [hx.spot_eq, Nat.sub_zero, (hspan axis).first_div_eq hc hm (hsame axis)]

/-! ## 3. What shrinking gives -/

variable [Scalar α] {r : Rect α} {leafAt : α → Nat} {d : CellId}

/-- A rectangle with the margin that shrinking leaves around it. -/
def padded (c : PaddedCell α) (r : Rect α) : Rect α :=
  r.expanded (c.padding + 3 / 2 * Scalar.epsilon)

/-- **The spans of a rectangle in a cell**, with any way to find the leaf cell of a coordinate. -/
def spanBy (leafAt : α → Nat) (c : PaddedCell α) (r : Rect α) (axis : Axis) : Nat × Nat :=
  let a := (c.padded r).along axis
  (max (c.corner axis) (leafAt a.lo),
    min (c.corner axis + CellId.sizeAt c.level - 1) (leafAt a.hi))

/-- **Shrinking with any way to find the leaf cell of a coordinate.** -/
def shrinkToFitBy (leafAt : α → Nat) (c : PaddedCell α) (r : Rect α) : CellId :=
  let span := spanBy leafAt c r
  let level := commonLevel (span .u) (span .v)
  if r.x.Contains c.splitPoint.x ∨ r.y.Contains c.splitPoint.y then c.id
  else if level ≤ c.level then c.id
  else (CellId.ofLeaf c.id.faceNumber (span .u).1 (span .v).1).parentAt level

theorem shrinkToFit_eq (c : PaddedCell α) (r : Rect α) :
    c.shrinkToFit r = c.shrinkToFitBy Grid.leafAt r := rfl

/-- **What shrinking gives**: the cell itself, if the rectangle reaches the center or the spans
differ in the bits of the level below, or else the cell over the first leaf cell in which they
agree. -/
inductive Shrunk (c : PaddedCell α) (r : Rect α) (span : Axis → Nat × Nat) : CellId → Prop where
  | center (axis : Axis) (h : (r.along axis).Contains (c.splitPoint.along axis)) : Shrunk c r span c.id
  | apart (h : 30 - c.level ≤ spread span) : Shrunk c r span c.id
  | below (h : spread span < 30 - c.level) : Shrunk c r span
      ((CellId.ofLeaf c.id.faceNumber (span .u).1 (span .v).1).parentAt (30 - spread span))

theorem shrinkToFitBy_shrunk (leafAt : α → Nat) (c : PaddedCell α) (r : Rect α) :
    Shrunk c r (spanBy leafAt c r) (c.shrinkToFitBy leafAt r) := by
  unfold shrinkToFitBy
  dsimp only
  rw [commonLevel_eq]
  split
  · rename_i h
    rcases h with h | h
    · exact .center .u h
    · exact .center .v h
  · split
    · exact .apart (by omega)
    · exact .below (by omega)

theorem spanBy_isSpan (hc : c.Placed) (hleaf : ∀ x, leafAt x < 2 ^ 30) (r : Rect α) (axis : Axis) :
    IsSpan c axis (spanBy leafAt c r axis) := by
  have hsize := CellId.sizeAt_pos c.level
  have hcorner := hc.corner_add_le axis
  refine ⟨Nat.le_max_left _ _, ?_, ?_⟩
  · exact Nat.max_lt.2 ⟨by omega, hleaf _⟩
  · apply Nat.lt_of_le_of_lt (Nat.min_le_left _ _)
    omega

/-- **Shrinking gives a cell below**, whatever the spans are. -/
theorem Shrunk.isValid_and_contained (h : Shrunk c r span d) (hc : c.Placed)
    (hspan : ∀ axis, IsSpan c axis (span axis)) : d.IsValid ∧ c.id.Contains d := by
  obtain ⟨k, m, hm⟩ := hc.isValid.exists_numbered
  cases h with
  | center axis h => exact ⟨hc.isValid, hc.isValid.contains_self⟩
  | apart h => exact ⟨hc.isValid, hc.isValid.contains_self⟩
  | below h =>
    have hk := hm.height_le
    rw [hc.level_eq, hm.level_eq] at h
    obtain ⟨n, hx⟩ := exists_isFirst hc hspan
    have hd := hx.numbered.parentAt (k := spread span) (Nat.zero_le _) (by omega)
    -- The spans agree in the bits above the cell too, and so the first leaf cell lies below it.
    have hcx := hx.contained hc hspan hm (div_two_pow_of_spread_le (by omega))
    have hdx := (hd.contains_iff hx.numbered).2 ⟨Nat.zero_le _, rfl⟩
    exact ⟨hd.isValid, hm.contains_of_height_le hd hx.numbered (by omega) hcx hdx⟩

/-- **Shrinking keeps the leaf cells of the spans.** -/
theorem Shrunk.contains (h : Shrunk c r span d) (hc : c.Placed)
    (hspan : ∀ axis, IsSpan c axis (span axis)) {l : CellId} (hl : l.Numbered 0 m)
    (hcl : c.id.Contains l) (hmem : ∀ axis, (span axis).1 ≤ l.spot.along axis ∧
      l.spot.along axis ≤ (span axis).2) : d.Contains l := by
  cases h with
  | center axis h => exact hcl
  | apart h => exact hcl
  | below h =>
    obtain ⟨k, p, hp⟩ := hc.isValid.exists_numbered
    obtain ⟨n, hx⟩ := exists_isFirst hc hspan
    have hd := hx.numbered.parentAt (k := spread span) (Nat.zero_le _) (by omega)
    have hdx := (hd.contains_iff hx.numbered).2 ⟨Nat.zero_le _, rfl⟩
    obtain ⟨-, hface, hspot⟩ := (hd.contains_iff_spot hx.numbered).1 hdx
    have hlface : l.faceNumber = c.id.faceNumber := ((hp.contains_iff_spot hl).1 hcl).2.1
    -- Between the ends of a span all columns agree with the first one down to the common level.
    have hsame (axis : Axis) := div_eq_of_between (div_two_pow_spread span axis) (hmem axis).1
      (hmem axis).2
    refine (hd.contains_iff_spot hl).2 ⟨Nat.zero_le _, ?_, fun axis => ?_⟩
    · exact hlface.trans (hx.faceNumber_eq.symm.trans hface)
    · rw [← hspot axis, hx.spot_eq, Nat.sub_zero, hsame axis]

/-- **Shrinking gives a cell of the tree**, whatever the rectangle is. -/
theorem isValid_shrinkToFit (hc : c.Placed) (r : Rect α) : (c.shrinkToFit r).IsValid :=
  ((shrinkToFitBy_shrunk Grid.leafAt c r).isValid_and_contained hc
    (spanBy_isSpan hc (fun _ => Grid.leaf_lt _) r)).1

end rounding

/-! ## 4. Points of the rectangle -/

variable {c : PaddedCell ℝ} {r : Rect ℝ} {p : Vec2 ℝ} {f : Face}

/-- The coordinate of a leaf cell below the cell lies in the span of every interval with a point of
it. -/
theorem mem_leafSpan {level i : Nat} {a : Interval ℝ} {x : ℝ} (hlo : i ≤ Grid.leafAt x)
    (hhi : Grid.leafAt x < i + CellId.sizeAt level) (hx : a.Contains x) :
    (leafSpan level i a).1 ≤ Grid.leafAt x ∧ Grid.leafAt x ≤ (leafSpan level i a).2 :=
  ⟨Nat.max_le.2 ⟨hlo, Grid.leafAt_mono hx.1⟩, Nat.le_min.2 ⟨by omega, Grid.leafAt_mono hx.2⟩⟩

theorem margin_pos {padding : ℝ} (h0 : 0 ≤ padding) :
    0 < padding + 3 / 2 * (Scalar.epsilon : ℝ) :=
  add_pos_of_nonneg_of_pos h0 (mul_pos (by norm_num) Scalar.epsilon_pos)

theorem expanded_contains {margin : ℝ} (h0 : 0 ≤ margin) (hp : r.Contains p) :
    (r.expanded margin).Contains p := by
  rw [Rect.contains_iff_along] at hp ⊢
  intro axis
  rw [expanded_along h0 fun axis => (hp axis).1.trans (hp axis).2]
  exact ⟨(sub_le_self _ h0).trans (hp axis).1, (hp axis).2.trans (le_add_of_nonneg_right h0)⟩

/-- **Shrinking loses no leaf cell** of a point of the rectangle. -/
theorem shrinkToFit_contains (hc : c.Placed) (h0 : 0 ≤ c.padding) (hp : r.Contains p)
    (hleaf : c.id.Contains (CellId.leafOf f p)) :
    (c.shrinkToFit r).IsValid ∧ (c.shrinkToFit r).Contains (CellId.leafOf f p) := by
  obtain ⟨n, hn⟩ : ∃ n, (CellId.leafOf f p).Numbered 0 n :=
    ⟨_, CellId.numbered_ofLeaf f.number_lt (Grid.leafAt_lt _) (Grid.leafAt_lt _)⟩
  have hpadded := Rect.contains_iff_along.1 (expanded_contains (margin_pos h0).le hp)
  have hspan (axis : Axis) : IsSpan c axis (spanBy Grid.leafAt c r axis) :=
    spanBy_isSpan hc Grid.leafAt_lt r axis
  refine ⟨isValid_shrinkToFit hc r,
    (shrinkToFitBy_shrunk Grid.leafAt c r).contains hc hspan hn hleaf fun axis => ?_⟩
  -- The leaf cell of the point lies in the span along both axes.
  obtain ⟨hlo, hhi⟩ := hc.spot_mem hn hleaf axis
  rw [← hn.corner_leaf, CellId.corner_leafOf] at hlo hhi ⊢
  exact mem_leafSpan hlo hhi (hpadded axis)

end PaddedCell

end SphereIndex
