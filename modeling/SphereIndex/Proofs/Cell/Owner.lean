import SphereIndex.Proofs.Cell.Ancestors
import SphereIndex.Proofs.Face.Cone

/-!
# The owner of a point

In exact arithmetic a point of a face is owned by one cell of each level, the ancestor there of the
leaf cell that is computed for the point.  This holds for points on the sides of cells too, which
rounding to a leaf cell gives to the cell above, and for points on the last sides of the face.
-/

namespace SphereIndex.CellId

variable {c : CellId} {f : Face} {p : Vec2 ℝ}

/-- **The column or row of an owned point is one of the cell.** -/
theorem Owns.leafAt_div (hc : c.IsValid) (h : c.Owns p) (axis : Axis) :
    Grid.leafAt (p.along axis) / sizeAt c.level = c.spot.along axis := by
  obtain ⟨hlo, hhi⟩ := h axis
  obtain ⟨k, m, hm⟩ := hc.exists_numbered
  have hle := hm.corner_add_le axis
  have hpos := sizeAt_pos c.level
  rw [bound_along hc] at hlo hhi
  have hfirst : c.corner axis ≤ Grid.leafAt (p.along axis) := Grid.le_leafAt (by omega) hlo
  have hlast : Grid.leafAt (p.along axis) ≤ c.corner axis + sizeAt c.level - 1 := by
    rcases hhi with hlt | ⟨-, htop⟩
    · apply Grid.leafAt_le
      rwa [Nat.sub_add_cancel (by omega)]
    · -- On the upper side of the face the cell has the last column.
      have hend := Grid.line_strictMono.injective (htop.trans Grid.line_last.symm)
      have := Grid.leafAt_lt (p.along axis)
      omega
  rw [corner] at hfirst hlast
  exact (Nat.div_eq_iff hpos).2 ⟨hfirst, by omega⟩

/-- **A cell owns the points whose leaf cells it contains**, and no others of its face. -/
theorem owns_iff (hc : c.IsValid) (hface : c.faceNumber = f.number)
    (hp : ∀ axis, |p.along axis| ≤ 1) : c.Owns p ↔ c.Contains (leafOf f p) := by
  have hleaf := isValid_leafOf f p
  constructor
  · intro h
    obtain ⟨k, m, hm⟩ := hc.exists_numbered
    have hnumbered := numbered_ofLeaf f.number_lt (Grid.leafAt_lt p.x) (Grid.leafAt_lt p.y)
    refine (hm.contains_iff_spot hnumbered).2
      ⟨Nat.zero_le k, (faceNumber_leafOf f p).trans hface.symm, fun axis => ?_⟩
    have hspot : (leafOf f p).spot.along axis = Grid.leafAt (p.along axis) :=
      spot_along_ofLeaf f.number_lt (fun axis => Grid.leafAt_lt (p.along axis)) axis
    have hdiv := h.leafAt_div hc axis
    rw [hm.sizeAt_level] at hdiv
    exact (congrArg (· / 2 ^ k) hspot).trans hdiv
  · exact fun h => (leafOf_owns f hp).of_contains hc hleaf h

/-- **The cells of a level that own a point of a face** are one, cut from its leaf cell. -/
theorem owner_iff (hp : ∀ axis, |p.along axis| ≤ 1) {l : Nat} (hl : l ≤ maxLevel) :
    (c.IsValid ∧ c.level = l ∧ c.faceNumber = f.number) ∧ c.Owns p ↔
      c = (leafOf f p).parentAt l := by
  have hleaf := isValid_leafOf f p
  have hle : l ≤ (leafOf f p).level := hl.trans (level_leafOf f p).ge
  constructor
  · rintro ⟨⟨hc, rfl, hface⟩, h⟩
    have hcontains := (owns_iff hc hface hp).1 h
    exact ((hc.contains_iff_parentAt hleaf).1 hcontains).2.symm
  · rintro rfl
    obtain ⟨hvalid, hlevel, hcontains, hsame⟩ := hleaf.parentAt hle
    have hface := hsame.trans (faceNumber_leafOf f p)
    exact ⟨⟨hvalid, hlevel, hface⟩, (owns_iff hvalid hface hp).2 hcontains⟩

/-- **The cell of a point is found at every level.**  The id computed for a point is that of a leaf cell
on its face, and of the cells of a level there its ancestor alone owns the point. -/
theorem ofPoint_in_one_cell_per_level (p : Vec3 ℝ) {l : Nat} (hl : l ≤ maxLevel) :
    let f := Face.ofPoint p
    let c := (ofPoint p).parentAt l
    ((ofPoint p).IsValid ∧ (ofPoint p).IsLeaf ∧ (ofPoint p).faceNumber = f.number) ∧
    c.bound.Contains (f.project p) ∧
    ∀ b : CellId, (b.IsValid ∧ b.level = l ∧ b.faceNumber = f.number) ∧ b.Owns (f.project p) ↔
      b = c := by
  have howner (b : CellId) := owner_iff (c := b) (f := Face.ofPoint p) (Face.abs_project_le p) hl
  obtain ⟨m, hm⟩ := exists_numbered_ofPoint p
  exact ⟨⟨hm.isValid, hm.isLeaf_iff.2 rfl, faceNumber_leafOf _ _⟩,
    ((howner _).2 rfl).2.contains, howner⟩

/-- The middle of an edge of the cube, on a side of its face and between two cells there. -/
theorem ofPoint_in_one_cell_on_edge : 1 ≤ maxLevel ∧
    (ofPoint (⟨1, 0, 1⟩ : Vec3 ℝ)).parentAt 1 = (ofFace .zPos).child 1 := by
  obtain ⟨-, -, howner⟩ := ofPoint_in_one_cell_per_level ⟨1, 0, 1⟩ (l := 1) (by decide)
  refine ⟨by decide, ((howner _).1 ?_).symm⟩
  have hface : Face.ofPoint (⟨1, 0, 1⟩ : Vec3 ℝ) = .zPos := by
    rw [Face.ofPoint_eq, abs_one, abs_zero, if_pos one_pos, if_neg (lt_irrefl _)]
    exact if_neg (not_lt.2 zero_le_one)
  have hproject : Face.zPos.project (⟨1, 0, 1⟩ : Vec3 ℝ) = ⟨-1, 0⟩ := by
    rw [Face.project_eq]
    norm_num [Vec3.shadow, Face.toFrame, Face.toward, Face.height]
  have hvalid : ((ofFace .zPos).child 1).IsValid := by decide +kernel
  have hlevel : ((ofFace .zPos).child 1).level = 1 := by decide +kernel
  have hcorner (axis : Axis) : ((ofFace .zPos).child 1).corner axis = coordinate 0 (2 ^ 29) axis := by
    cases axis <;> decide +kernel
  have hsize : sizeAt 1 = 2 ^ 29 := rfl
  rw [hface, hproject]
  refine ⟨⟨hvalid, hlevel, by decide +kernel⟩, fun axis => ?_⟩
  rw [bound_along hvalid, hcorner, hlevel, hsize]
  cases axis with
  | u =>
    rw [coordinate, Nat.zero_add, Grid.line_zero, Grid.line_middle]
    exact ⟨le_rfl, .inl neg_one_lt_zero⟩
  | v =>
    rw [coordinate, ← Nat.two_mul, ← Nat.pow_succ', Grid.line_middle, Grid.line_last]
    exact ⟨le_rfl, .inl one_pos⟩

end SphereIndex.CellId
