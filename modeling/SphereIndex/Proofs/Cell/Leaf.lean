import SphereIndex.Proofs.Cell.Square

/-!
# Leaf cells and their ancestors

The id of a leaf cell is made from its column and row, and the id of an ancestor by cutting off the
path of the leaf cell.  The leaf cell of a point is the one whose square owns the point.
-/

namespace SphereIndex

/-! ## 1. Cutting off a path -/

/-- Clearing the bits below a marker and setting the marker. -/
theorem and_or_two_pow {w e : Nat} (hw : w < 2 ^ 64) (he : e < 64) :
    w &&& (2 ^ 64 - 2 ^ e) ||| 2 ^ e = 2 ^ (e + 1) * (w / 2 ^ (e + 1)) + 2 ^ e := by
  have hpos : 0 < 2 ^ e := Nat.two_pow_pos e
  have hlt : 2 ^ e < 2 ^ (e + 1) := Nat.pow_lt_pow_right (by decide) (by omega)
  have hmarker : 2 ^ e < 2 ^ 64 := Nat.pow_lt_pow_right (by decide) he
  have hsucc : 2 ^ e = 2 ^ e - 1 + 1 := by omega
  apply Nat.eq_of_testBit_eq
  intro i
  rw [Nat.testBit_or, Nat.testBit_and, hsucc, Nat.testBit_two_pow_sub_succ (by omega), ← hsucc,
    Nat.testBit_two_pow_sub_one, Nat.testBit_two_pow_mul_add _ hlt, Nat.testBit_two_pow,
    Nat.testBit_div_two_pow]
  -- Bit by bit: the marker itself, the bits below it, and those above.
  by_cases hi : i < e + 1
  · rw [if_pos hi]
    by_cases hie : e = i
    · simp [hie]
    · have hlow : i < e := by omega
      simp [hie, hlow]
  · have hne : e ≠ i := by omega
    have hnot : ¬i < e := by omega
    rw [if_neg hi, Nat.sub_add_cancel (Nat.not_lt.1 hi)]
    by_cases h64 : i < 64
    · simp [hne, hnot, h64]
    · have hbit : w.testBit i = false :=
        Nat.testBit_lt_two_pow (Nat.lt_of_lt_of_le hw (Nat.pow_le_pow_right (by decide) (by omega)))
      simp [hne, hbit]

namespace CellId

namespace Numbered

variable {a b c : CellId} {k l m n : Nat}

theorem cutAt (h : c.Numbered l n) (hlk : l ≤ k) (hk : k ≤ 30) {marker : UInt64}
    (hmarker : marker.toNat = 4 ^ k) : (c.cutAt marker).Numbered k (n / 4 ^ (k - l)) := by
  have hpow : 4 ^ k = 4 ^ (k - l) * 4 ^ l := by rw [← Nat.pow_add, Nat.sub_add_cancel hlk]
  have hpos := four_pow_pos k
  have hneg : (0 - marker).toNat = 2 ^ 64 - 2 ^ (2 * k) := by
    have hlt := marker.toNat_lt
    rw [UInt64.toNat_sub, UInt64.toNat_zero, Nat.add_zero, Nat.mod_eq_of_lt (by omega), hmarker,
      four_pow_eq]
  refine ⟨hk, ?_, ?_⟩
  · have hnum := h.number_lt
    rw [Nat.div_lt_iff_lt_mul (four_pow_pos _), Nat.mul_assoc, ← Nat.pow_add]
    rwa [show 30 - k + (k - l) = 30 - l by omega]
  · -- What is left above the marker is the number of the ancestor.
    have hdiv : (2 * n + 1) * 4 ^ l / (4 ^ k * 2) = n / 4 ^ (k - l) := by
      rw [hpow, Nat.mul_assoc, Nat.mul_comm (4 ^ l), ← Nat.mul_assoc,
        Nat.mul_div_mul_right _ _ (four_pow_pos l), Nat.mul_comm (4 ^ (k - l)),
        ← Nat.div_div_eq_div_mul]
      congr 1
      omega
    change (c.word &&& (0 - marker) ||| marker).toNat = _
    rw [UInt64.toNat_or, UInt64.toNat_and, hneg, hmarker, four_pow_eq k,
      and_or_two_pow c.word.toNat_lt (by omega), Nat.pow_succ, ← four_pow_eq, h.word_eq, hdiv]
    ring

theorem markerAt_toNat (level : Nat) : (markerAt level).toNat = 4 ^ (30 - level) := by
  have hexp : (UInt64.ofNat (2 * (maxLevel - level))).toNat = 2 * (30 - level) :=
    UInt64.toNat_ofNat_of_lt' (show 2 * (30 - level) < 2 ^ 64 by omega)
  have hlt : 2 ^ (2 * (30 - level)) < 2 ^ 64 := Nat.pow_lt_pow_right (by decide) (by omega)
  rw [markerAt, UInt64.toNat_shiftLeft, hexp, Nat.mod_eq_of_lt (show 2 * (30 - level) < 64 by omega),
    UInt64.toNat_one, Nat.one_shiftLeft, Nat.mod_eq_of_lt hlt, four_pow_eq]

theorem parentAt (h : c.Numbered l n) {k : Nat} (hlk : l ≤ k) (hk : k ≤ 30) :
    (c.parentAt (30 - k)).Numbered k (n / 4 ^ (k - l)) := by
  refine h.cutAt hlk hk ?_
  rw [markerAt_toNat, Nat.sub_sub_self hk]

end Numbered

end CellId

/-! ## 2. The path to a leaf cell -/

theorem pathNumber_zero_cons (path : List Digit) : pathNumber (0 :: path) = pathNumber path := rfl

/-- The first two digits of the longer path are zero, and swap the axes twice. -/
theorem pathTo_of_lt (face : Nat) {i j : Nat} (hi : i < 2 ^ 30) (hj : j < 2 ^ 30) :
    pathTo (Orientation.ofFace face) i j 32 = 0 :: 0 :: pathTo (Orientation.ofFace face) i j 30 := by
  have hbit {n : Nat} (hn : n < 2 ^ 30) (k : Nat) (hk : 30 ≤ k) : n.testBit k = false :=
    Nat.testBit_lt_two_pow (Nat.lt_of_lt_of_le hn (Nat.pow_le_pow_right (by decide) hk))
  rw [pathTo, pathTo, hbit hi 31 (by decide), hbit hj 31 (by decide), hbit hi 30 (by decide),
    hbit hj 30 (by decide)]
  unfold Orientation.ofFace
  cases face % 2 == 1 <;> rfl

namespace CellId

/-! ## 3. The id of a leaf cell -/

variable {face i j : Nat}

theorem numbered_ofLeaf (hf : face < 6) (hi : i < 2 ^ 30) (hj : j < 2 ^ 30) :
    (ofLeaf face i j).Numbered 0
      (face * 4 ^ 30 + pathNumber (pathTo (Orientation.ofFace face) i j 30)) := by
  have hlt := pathNumber_lt (pathTo (Orientation.ofFace face) i j 30)
  have hpath : pathNumber (pathTo (Orientation.ofFace face) i j 32) =
      pathNumber (pathTo (Orientation.ofFace face) i j 30) := by
    rw [pathTo_of_lt face hi hj, pathNumber_zero_cons, pathNumber_zero_cons]
  rw [length_pathTo] at hlt
  unfold ofLeaf
  rw [hpath]
  generalize pathNumber (pathTo (Orientation.ofFace face) i j 30) = n at hlt
  change n < 2 ^ 60 at hlt
  refine ⟨Nat.zero_le _, ?_, ?_⟩
  · change face * 2 ^ 60 + n < 6 * 2 ^ 60
    omega
  · have hface : (UInt64.ofNat face).toNat = face := UInt64.toNat_ofNat_of_lt' (by
      change face < 2 ^ 64
      omega)
    have hpath : (UInt64.ofNat n).toNat = n := UInt64.toNat_ofNat_of_lt' (by
      change n < 2 ^ 64
      omega)
    have hshift : (UInt64.ofNat face <<< 60).toNat = face <<< 60 := by
      rw [UInt64.toNat_shiftLeft, hface]
      change face <<< 60 % 2 ^ 64 = _
      rw [Nat.shiftLeft_eq, Nat.mod_eq_of_lt (by omega)]
    -- The path is below the face bits, so joining the two is adding them.
    change ((UInt64.ofNat face <<< 60 ||| UInt64.ofNat n) * 2 + 1).toNat =
      (2 * (face * 2 ^ 60 + n) + 1) * 1
    rw [UInt64.toNat_add, UInt64.toNat_mul, UInt64.toNat_or, hshift, hpath,
      ← Nat.shiftLeft_add_eq_or_of_lt hlt, Nat.shiftLeft_eq]
    change ((face * 2 ^ 60 + n) * 2 % 2 ^ 64 + 1) % 2 ^ 64 = _
    omega

theorem isValid_ofLeaf (hf : face < 6) (hi : i < 2 ^ 30) (hj : j < 2 ^ 30) :
    (ofLeaf face i j).IsValid := (numbered_ofLeaf hf hi hj).isValid

theorem level_ofLeaf (hf : face < 6) (hi : i < 2 ^ 30) (hj : j < 2 ^ 30) :
    (ofLeaf face i j).level = maxLevel := (numbered_ofLeaf hf hi hj).level_eq

theorem faceNumber_ofLeaf (hf : face < 6) (hi : i < 2 ^ 30) (hj : j < 2 ^ 30) :
    (ofLeaf face i j).faceNumber = face := by
  have hlt := pathNumber_lt (pathTo (Orientation.ofFace face) i j 30)
  rw [length_pathTo] at hlt
  rw [(numbered_ofLeaf hf hi hj).faceNumber_eq, Nat.sub_zero, Nat.mul_comm,
    Nat.mul_add_div (four_pow_pos 30), Nat.div_eq_of_lt hlt, Nat.add_zero]

/-- **The path of a leaf cell leads to its column and row.** -/
theorem spot_ofLeaf (hf : face < 6) (hi : i < 2 ^ 30) (hj : j < 2 ^ 30) :
    (ofLeaf face i j).spot.i = i ∧ (ofLeaf face i j).spot.j = j := by
  have hpath : (ofLeaf face i j).path = pathTo (Orientation.ofFace face) i j 30 := by
    have hdigits := lastDigits_pathNumber face (pathTo (Orientation.ofFace face) i j 30)
    rw [length_pathTo] at hdigits
    rw [(numbered_ofLeaf hf hi hj).path_eq, Nat.sub_zero, hdigits]
  rw [spot, hpath, faceNumber_ofLeaf hf hi hj]
  obtain ⟨hfi, hfj⟩ := Spot.follow_pathTo (Spot.start (Orientation.ofFace face)) i j 30
  rw [Nat.mod_eq_of_lt hi] at hfi
  rw [Nat.mod_eq_of_lt hj] at hfj
  constructor
  · refine hfi.trans ?_
    rw [Spot.start, Nat.zero_mul, Nat.zero_add]
  · refine hfj.trans ?_
    rw [Spot.start, Nat.zero_mul, Nat.zero_add]

theorem spot_along_ofLeaf {p : Axis → Nat} (hf : face < 6) (h : ∀ axis, p axis < 2 ^ 30)
    (axis : Axis) : (ofLeaf face (p .u) (p .v)).spot.along axis = p axis := by
  obtain ⟨hi, hj⟩ := spot_ofLeaf hf (h .u) (h .v)
  cases axis with
  | u => exact hi
  | v => exact hj

def coordinate (i j : Nat) : Axis → Nat
  | .u => i
  | .v => j

theorem corner_ofLeaf (hf : face < 6) (hi : i < 2 ^ 30) (hj : j < 2 ^ 30) (axis : Axis) :
    (ofLeaf face i j).corner axis = coordinate i j axis := by
  obtain ⟨hsi, hsj⟩ := spot_ofLeaf hf hi hj
  have hsize : sizeAt (ofLeaf face i j).level = 1 := by
    rw [level_ofLeaf hf hi hj]
    rfl
  rw [corner, hsize, Nat.mul_one]
  cases axis with
  | u => exact hsi
  | v => exact hsj

/-! ## 4. The leaf cell of a point -/

theorem exists_numbered_ofPoint {α : Type} [Scalar α] (p : Vec3 α) :
    ∃ m, (ofPoint p).Numbered 0 m :=
  ⟨_, numbered_ofLeaf (Face.number_lt _) (Grid.leaf_lt _) (Grid.leaf_lt _)⟩

/-- The leaf cell with a point of a face. -/
noncomputable def leafOf (f : Face) (p : Vec2 ℝ) : CellId :=
  ofLeaf f.number (Grid.leafAt p.x) (Grid.leafAt p.y)

theorem isValid_leafOf (f : Face) (p : Vec2 ℝ) : (leafOf f p).IsValid :=
  isValid_ofLeaf f.number_lt (Grid.leafAt_lt _) (Grid.leafAt_lt _)

theorem level_leafOf (f : Face) (p : Vec2 ℝ) : (leafOf f p).level = maxLevel :=
  level_ofLeaf f.number_lt (Grid.leafAt_lt _) (Grid.leafAt_lt _)

theorem faceNumber_leafOf (f : Face) (p : Vec2 ℝ) : (leafOf f p).faceNumber = f.number :=
  faceNumber_ofLeaf f.number_lt (Grid.leafAt_lt _) (Grid.leafAt_lt _)

theorem corner_leafOf (f : Face) (p : Vec2 ℝ) (axis : Axis) :
    (leafOf f p).corner axis = Grid.leafAt (p.along axis) := by
  refine (corner_ofLeaf f.number_lt (Grid.leafAt_lt _) (Grid.leafAt_lt _) axis).trans ?_
  cases axis <;> rfl

theorem bound_leafOf (f : Face) (p : Vec2 ℝ) (axis : Axis) :
    ((leafOf f p).bound.along axis : Interval ℝ) =
      ⟨Grid.line (Grid.leafAt (p.along axis)), Grid.line (Grid.leafAt (p.along axis) + 1)⟩ := by
  rw [bound_along (isValid_leafOf f p), corner_leafOf, level_leafOf]
  rfl

/-- **A point of a face is owned by its leaf cell.** -/
theorem leafOf_owns (f : Face) {p : Vec2 ℝ} (hp : ∀ axis, |p.along axis| ≤ 1) :
    (leafOf f p).Owns p := by
  intro axis
  obtain ⟨hlo, hhi⟩ := abs_le.1 (hp axis)
  rw [bound_leafOf]
  refine ⟨Grid.line_leafAt_le hlo, ?_⟩
  rcases hhi.lt_or_eq with hlt | heq
  · exact .inl (Grid.lt_line_leafAt hlt)
  · refine .inr ⟨heq, ?_⟩
    rw [heq, Grid.leafAt_one]
    exact Grid.line_last

theorem Owns.contains {c : CellId} {p : Vec2 ℝ} (h : c.Owns p) : c.bound.Contains p := by
  rw [Rect.contains_iff_along]
  intro axis
  obtain ⟨hlo, hhi⟩ := h axis
  refine ⟨hlo, ?_⟩
  rcases hhi with hlt | ⟨hone, htop⟩
  · exact hlt.le
  · exact (hone.trans htop.symm).le

end CellId

end SphereIndex
