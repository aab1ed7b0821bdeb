import Mathlib.Data.Set.Card
import SphereIndex.Proofs.Cell.Leaf

/-!
# Columns and rows

Face, column and row are another name for a leaf cell: its id is made from them, and they are read
back from its id.  In this reading the range of a cell, an interval of ids along the curve, is a
square of leaf cells whose side is a power of two and whose corner is aligned to it.
-/

namespace SphereIndex

/-! ## 1. Places and paths -/

/-- Clearing the low bits of a number. -/
theorem and_two_pow_sub {i k n : Nat} (hi : i < 2 ^ n) (hk : k ≤ n) :
    i &&& (2 ^ n - 2 ^ k) = i / 2 ^ k * 2 ^ k := by
  have hmask : 2 ^ n - 2 ^ k = (2 ^ (n - k) - 1) * 2 ^ k := by
    rw [Nat.sub_one_mul, ← Nat.pow_add, Nat.sub_add_cancel hk]
  apply Nat.eq_of_testBit_eq
  intro b
  rw [hmask, Nat.testBit_and, Nat.testBit_mul_two_pow, Nat.testBit_mul_two_pow,
    Nat.testBit_two_pow_sub_one, Nat.testBit_div_two_pow]
  by_cases hb : k ≤ b
  · rw [Nat.sub_add_cancel hb]
    by_cases hn : b < n
    · rw [decide_eq_true (show b - k < n - k by omega), Bool.and_true, Bool.and_comm]
    · have hbit : i.testBit b = false :=
        Nat.testBit_lt_two_pow (Nat.lt_of_lt_of_le hi (Nat.pow_le_pow_right (by decide) (by omega)))
      rw [hbit, Bool.false_and, Bool.and_false]
  · rw [decide_eq_false hb, Bool.false_and, Bool.false_and, Bool.and_false]

/-- **A path can be read off the place that it leads to.** -/
theorem Spot.pathTo_follow (s : Spot) (path : List Digit) :
    pathTo s.orientation (s.follow path).i (s.follow path).j path.length = path := by
  induction path generalizing s with
  | nil => rfl
  | cons d path ih =>
    -- The leading bits of the place are those of the quadrant that the first digit chose.
    have hi : ((s.down d).follow path).i / 2 ^ path.length = _ :=
      follow_along_div (s.down d) path .u
    have hj : ((s.down d).follow path).j / 2 ^ path.length = _ :=
      follow_along_div (s.down d) path .v
    have hbit {x y n : Nat} {b : Bool} (h : x / 2 ^ n = 2 * y + b.toNat) : x.testBit n = b := by
      rw [Nat.testBit_eq_decide_div_mod_eq, h]
      cases b <;> simp
    rw [follow_cons, List.length_cons, pathTo, hbit hi, hbit hj]
    change s.orientation.digit (s.orientation.quadrant d) :: _ = _
    rw [Orientation.digit_quadrant]
    exact congrArg (d :: ·) (ih (s.down d))

theorem pathNumber_lastDigits (m n : Nat) : pathNumber (lastDigits m n) = m % 4 ^ n := by
  induction n generalizing m with
  | zero => rw [Nat.pow_zero, Nat.mod_one]; rfl
  | succ n ih =>
    rw [lastDigits, pathNumber_append_singleton, ih, Nat.pow_succ', Nat.mod_mul]
    exact Nat.add_comm _ _

namespace CellId

namespace Numbered

variable {a b c : CellId} {k l m n : Nat}

theorem isLeaf_iff (h : c.Numbered k m) : c.IsLeaf ↔ k = 0 := by
  have hword : (c.word &&& 1).toNat = (2 * m + 1) * 4 ^ k % 2 := by
    rw [UInt64.toNat_and, ← h.word_eq]
    exact Nat.and_one_is_mod _
  unfold IsLeaf
  rw [Ne, ← UInt64.toNat_inj, hword, UInt64.toNat_zero]
  cases k with
  | zero => simp
  | succ k =>
    rw [show (2 * m + 1) * 4 ^ (k + 1) = 2 * ((2 * m + 1) * 4 ^ k * 2) by ring, Nat.mul_mod_right]
    simp

/-- **A cell is determined by its level, its face and its place there.** -/
theorem number_eq (h : c.Numbered k m) : m = c.faceNumber * 4 ^ (30 - k) +
    pathNumber (pathTo (Orientation.ofFace c.faceNumber) c.spot.i c.spot.j (30 - k)) := by
  have hpath := Spot.pathTo_follow (Spot.start (Orientation.ofFace c.faceNumber)) c.path
  rw [h.length_path] at hpath
  change pathTo (Orientation.ofFace c.faceNumber) c.spot.i c.spot.j (30 - k) = c.path at hpath
  rw [hpath, h.path_eq, pathNumber_lastDigits, h.faceNumber_eq]
  exact (Nat.div_add_mod' _ _).symm

/-- **A cell contains those of its face whose places lie in its own.** -/
theorem contains_iff_spot (hc : c.Numbered k m) (hb : b.Numbered l n) : c.Contains b ↔
    l ≤ k ∧ b.faceNumber = c.faceNumber ∧
      ∀ axis, b.spot.along axis / 2 ^ (k - l) = c.spot.along axis := by
  constructor
  · intro h
    exact ⟨((hc.contains_iff hb).1 h).1, (hc.path_of_contains hb h).1.symm,
      hc.spot_of_contains hb h⟩
  · rintro ⟨hlk, hface, hspot⟩
    -- The ancestor of `b` at the level of `c` has the face and the place of `c`.
    have ha := hb.parentAt hlk hc.height_le
    have hab : (b.parentAt (30 - k)).Contains b := (ha.contains_iff hb).2 ⟨hlk, rfl⟩
    have hi := ha.spot_of_contains hb hab .u
    have hj := ha.spot_of_contains hb hab .v
    rw [hspot] at hi hj
    have heq : n / 4 ^ (k - l) = m := by
      rw [ha.number_eq, hc.number_eq, (ha.path_of_contains hb hab).1, hface]
      congr 3
      · exact hi.symm
      · exact hj.symm
    exact (hc.contains_iff hb).2 ⟨hlk, heq⟩

theorem coords_lt (h : c.Numbered k m) : c.coords.i < 2 ^ 30 ∧ c.coords.j < 2 ^ 30 := by
  have hlt (axis : Axis) : c.spot.along axis < 2 ^ 30 / 2 ^ k := by
    rw [Nat.pow_div h.height_le (by decide)]
    exact h.spot_lt axis
  obtain ⟨hi, hj⟩ := h.coords_along
  constructor
  · exact Nat.lt_of_div_lt_div (hi ▸ hlt .u)
  · exact Nat.lt_of_div_lt_div (hj ▸ hlt .v)

theorem coords_leaf (h : c.Numbered 0 m) :
    c.coords.i = c.spot.along .u ∧ c.coords.j = c.spot.along .v := by
  have hcoords := h.coords_along
  rwa [Nat.pow_zero, Nat.div_one, Nat.div_one] at hcoords

theorem contains_leaf_iff (hc : c.Numbered k m) (hb : b.Numbered 0 n) : c.Contains b ↔
    b.coords.face = c.coords.face ∧ b.coords.i / 2 ^ k = c.coords.i / 2 ^ k ∧
      b.coords.j / 2 ^ k = c.coords.j / 2 ^ k := by
  obtain ⟨hi, hj⟩ := hc.coords_along
  obtain ⟨hbi, hbj⟩ := hb.coords_leaf
  rw [hc.contains_iff_spot hb, hi, hj, hbi, hbj]
  constructor
  · rintro ⟨-, hface, hspot⟩
    exact ⟨hface, hspot .u, hspot .v⟩
  · rintro ⟨hface, hi, hj⟩
    refine ⟨Nat.zero_le k, hface, fun axis => ?_⟩
    cases axis with
    | u => exact hi
    | v => exact hj

end Numbered

/-! ## 2. Leaf cells by column and row -/

theorem IsValid.numbered_leaf {c : CellId} (h : c.IsValid) (hl : c.IsLeaf) :
    ∃ m, c.Numbered 0 m := by
  obtain ⟨k, m, hc⟩ := h.exists_numbered
  obtain rfl := hc.isLeaf_iff.1 hl
  exact ⟨m, hc⟩

theorem coords_ofLeaf {face i j : Nat} (hf : face < 6) (hi : i < 2 ^ 30) (hj : j < 2 ^ 30) :
    (ofLeaf face i j).coords.face = face ∧ (ofLeaf face i j).coords.i = i ∧
      (ofLeaf face i j).coords.j = j := by
  obtain ⟨hci, hcj⟩ := (numbered_ofLeaf hf hi hj).coords_leaf
  obtain ⟨hsi, hsj⟩ := spot_ofLeaf hf hi hj
  exact ⟨faceNumber_ofLeaf hf hi hj, hci.trans hsi, hcj.trans hsj⟩

theorem Numbered.ofLeaf_coords {c : CellId} {m : Nat} (h : c.Numbered 0 m) :
    ofLeaf c.coords.face c.coords.i c.coords.j = c := by
  obtain ⟨hi, hj⟩ := h.coords_leaf
  obtain ⟨hilt, hjlt⟩ := h.coords_lt
  have hleaf := numbered_ofLeaf h.isValid.1 hilt hjlt
  change (ofLeaf c.faceNumber c.coords.i c.coords.j).Numbered 0 _ at hleaf
  rw [hi, hj] at hleaf
  -- The number of the leaf cell made from the coordinates is that of `c`.
  have hnumber := h.number_eq
  change ofLeaf c.faceNumber c.coords.i c.coords.j = c
  rw [hi, hj]
  exact hleaf.eq_of_numbered (hnumber ▸ h)

/-- **Face, column and row name the leaf cells one to one.** -/
theorem ofLeaf_inverse_coords :
    (∀ face i j, face < 6 → i < 2 ^ 30 → j < 2 ^ 30 →
      (ofLeaf face i j).IsValid ∧ (ofLeaf face i j).IsLeaf ∧ (ofLeaf face i j).coords.face = face ∧
        (ofLeaf face i j).coords.i = i ∧ (ofLeaf face i j).coords.j = j) ∧
    ∀ c : CellId, c.IsValid → c.IsLeaf →
      c.coords.face < 6 ∧ c.coords.i < 2 ^ 30 ∧ c.coords.j < 2 ^ 30 ∧
        ofLeaf c.coords.face c.coords.i c.coords.j = c := by
  constructor
  · intro face i j hf hi hj
    have hleaf := numbered_ofLeaf hf hi hj
    exact ⟨hleaf.isValid, hleaf.isLeaf_iff.2 rfl, coords_ofLeaf hf hi hj⟩
  · intro c hc hl
    obtain ⟨m, hm⟩ := hc.numbered_leaf hl
    obtain ⟨hi, hj⟩ := hm.coords_lt
    exact ⟨hc.1, hi, hj, hm.ofLeaf_coords⟩

/-- The last face, and the last column beside the first row. -/
theorem ofLeaf_inverse_coords_last_column : (5 < 6 ∧ 2 ^ 30 - 1 < 2 ^ 30 ∧ 0 < 2 ^ 30) ∧
    (ofLeaf 5 (2 ^ 30 - 1) 0).coords.i = 2 ^ 30 - 1 ∧ (ofLeaf 5 (2 ^ 30 - 1) 0).coords.j = 0 :=
  ⟨by decide,
    (ofLeaf_inverse_coords.1 5 (2 ^ 30 - 1) 0 (by decide) (by decide) (by decide)).2.2.2⟩

/-! ## 3. Ranges as squares -/

/-- The bits of a column or row above those inside the cells of a level. -/
def masked (level i : Nat) : UInt32 := UInt32.ofNat i &&& (0 - UInt32.ofNat (sizeAt level))

/-- The leaf cells with ids in the range of the cell. -/
def leaves (c : CellId) : Set CellId :=
  {l | (l.IsValid ∧ l.IsLeaf) ∧ c.rangeMin ≤ l ∧ l ≤ c.rangeMax}

/-- The leaf cells of a square of a face, given its lowest column and row. -/
def square (face i j size : Nat) : Set CellId :=
  {l | ∃ x y, (i ≤ x ∧ x < i + size) ∧ (j ≤ y ∧ y < j + size) ∧ l = ofLeaf face x y}

theorem masked_toNat {level i : Nat} (hl : level ≤ 30) (hi : i < 2 ^ 30) :
    (masked level i).toNat = lowest level i := by
  have hsize : sizeAt level ≤ 2 ^ 30 := by
    rw [sizeAt_eq]
    exact Nat.pow_le_pow_right (by decide) (Nat.sub_le _ _)
  have hpos := sizeAt_pos level
  have hneg : (0 - UInt32.ofNat (sizeAt level)).toNat = 2 ^ 32 - 2 ^ (30 - level) := by
    rw [UInt32.toNat_sub, UInt32.toNat_ofNat_of_lt' (Nat.lt_of_le_of_lt hsize (by decide)),
      UInt32.toNat_zero, Nat.add_zero, Nat.mod_eq_of_lt (by omega)]
    rfl
  have hcol : (UInt32.ofNat i).toNat = i :=
    UInt32.toNat_ofNat_of_lt' (Nat.lt_trans hi (by decide))
  rw [masked, UInt32.toNat_and, hneg, hcol,
    and_two_pow_sub (Nat.lt_trans hi (by decide)) (by omega)]
  rfl

theorem div_sizeAt_eq_iff {level i x : Nat} : x / sizeAt level = i / sizeAt level ↔
    lowest level i ≤ x ∧ x < lowest level i + sizeAt level := by
  have hpos := sizeAt_pos level
  rw [Nat.div_eq_iff hpos, lowest]
  omega

/-- Two coordinates lie in the same cell of a level if their masked bits agree. -/
theorem masked_eq_masked_iff {level i x : Nat} (hl : level ≤ 30) (hi : i < 2 ^ 30)
    (hx : x < 2 ^ 30) : masked level x = masked level i ↔ x / sizeAt level = i / sizeAt level := by
  rw [← UInt32.toNat_inj, masked_toNat hl hi, masked_toNat hl hx]
  exact Nat.mul_left_inj (sizeAt_pos level).ne'

theorem lowest_add_le {level i : Nat} (hl : level ≤ 30) (hi : i < 2 ^ 30) :
    lowest level i + sizeAt level ≤ 2 ^ 30 := by
  have hpow : 2 ^ 30 = 2 ^ level * sizeAt level := by
    rw [sizeAt_eq, ← Nat.pow_add, Nat.add_sub_cancel' hl]
  have hdiv : i / sizeAt level + 1 ≤ 2 ^ level := by
    rw [Nat.add_one_le_iff, Nat.div_lt_iff_lt_mul (sizeAt_pos level), ← hpow]
    exact hi
  rw [lowest, ← Nat.add_one_mul, hpow]
  exact Nat.mul_le_mul_right _ hdiv

theorem Numbered.leaves_eq {c : CellId} {k m : Nat} (h : c.Numbered k m) :
    c.leaves = square c.coords.face (lowest c.level c.coords.i) (lowest c.level c.coords.j)
      (sizeAt c.level) := by
  have hlevel := h.isValid.level_le
  obtain ⟨hilt, hjlt⟩ := h.coords_lt
  ext l
  constructor
  · rintro ⟨⟨hl, hleaf⟩, hrange⟩
    obtain ⟨n, hn⟩ := hl.numbered_leaf hleaf
    obtain ⟨hface, hi, hj⟩ := (h.contains_leaf_iff hn).1 hrange
    rw [← h.sizeAt_level, div_sizeAt_eq_iff] at hi hj
    exact ⟨_, _, hi, hj, hface ▸ hn.ofLeaf_coords.symm⟩
  · rintro ⟨x, y, hx, hy, rfl⟩
    have hxlt := hx.2.trans_le (lowest_add_le hlevel hilt)
    have hylt := hy.2.trans_le (lowest_add_le hlevel hjlt)
    have hn := numbered_ofLeaf h.isValid.1 hxlt hylt
    obtain ⟨hface, hi, hj⟩ := coords_ofLeaf h.isValid.1 hxlt hylt
    refine ⟨⟨hn.isValid, hn.isLeaf_iff.2 rfl⟩, (h.contains_leaf_iff hn).2 ⟨hface, ?_, ?_⟩⟩
    · rw [← h.sizeAt_level]
      exact (congrArg (· / _) hi).trans (div_sizeAt_eq_iff.2 hx)
    · rw [← h.sizeAt_level]
      exact (congrArg (· / _) hj).trans (div_sizeAt_eq_iff.2 hy)

theorem square_ncard {face i j size : Nat} (hf : face < 6) (hi : i + size ≤ 2 ^ 30)
    (hj : j + size ≤ 2 ^ 30) : (square face i j size).ncard = size * size := by
  have hset : square face i j size =
      (fun p : Nat × Nat => ofLeaf face p.1 p.2) ''
        (Finset.Ico i (i + size) ×ˢ Finset.Ico j (j + size) : Finset (Nat × Nat)) := by
    ext l
    simp only [square, Set.mem_ofPred_eq, Set.mem_image, Finset.mem_coe, Finset.mem_product,
      Finset.mem_Ico, Prod.exists]
    constructor
    · rintro ⟨x, y, hx, hy, rfl⟩
      exact ⟨x, y, ⟨hx, hy⟩, rfl⟩
    · rintro ⟨x, y, ⟨hx, hy⟩, rfl⟩
      exact ⟨x, y, hx, hy, rfl⟩
  -- Different columns or rows give different ids.
  have hinj : Set.InjOn (fun p : Nat × Nat => ofLeaf face p.1 p.2)
      (Finset.Ico i (i + size) ×ˢ Finset.Ico j (j + size) : Finset (Nat × Nat)) := by
    rintro ⟨x, y⟩ hp ⟨x', y'⟩ hq heq
    simp only [Finset.mem_coe, Finset.mem_product, Finset.mem_Ico] at hp hq
    change ofLeaf face x y = ofLeaf face x' y' at heq
    obtain ⟨-, hx, hy⟩ := coords_ofLeaf hf (show x < 2 ^ 30 by omega) (show y < 2 ^ 30 by omega)
    obtain ⟨-, hx', hy'⟩ :=
      coords_ofLeaf hf (show x' < 2 ^ 30 by omega) (show y' < 2 ^ 30 by omega)
    rw [Prod.mk.injEq]
    exact ⟨hx.symm.trans ((congrArg (·.coords.i) heq).trans hx'),
      hy.symm.trans ((congrArg (·.coords.j) heq).trans hy')⟩
  rw [hset, hinj.ncard_image, Set.ncard_coe_finset, Finset.card_product, Nat.card_Ico,
    Nat.card_Ico, Nat.add_sub_cancel_left, Nat.add_sub_cancel_left]

/-- **The range of a cell is an aligned square of leaf cells**: those whose columns and rows agree
with its own above the bits inside the cell. -/
theorem range_is_square {α : Type} [Scalar α] {c : CellId} (hc : c.IsValid) :
    (∀ l : CellId, l.IsValid → l.IsLeaf → (c.Contains l ↔ l.coords.face = c.coords.face ∧
      masked c.level l.coords.i = masked c.level c.coords.i ∧
      masked c.level l.coords.j = masked c.level c.coords.j)) ∧
    c.leaves = square c.coords.face (masked c.level c.coords.i).toNat
      (masked c.level c.coords.j).toNat (sizeAt c.level) ∧
    c.leaves.ncard = 4 ^ (30 - c.level) ∧
    (c.bound : Rect α) = ⟨
      ⟨Grid.toFace (Grid.side (masked c.level c.coords.i).toNat),
        Grid.toFace (Grid.side ((masked c.level c.coords.i).toNat + sizeAt c.level))⟩,
      ⟨Grid.toFace (Grid.side (masked c.level c.coords.j).toNat),
        Grid.toFace (Grid.side ((masked c.level c.coords.j).toNat + sizeAt c.level))⟩⟩ := by
  obtain ⟨k, m, hm⟩ := hc.exists_numbered
  obtain ⟨hi, hj⟩ := hm.coords_lt
  have hlevel := hc.level_le
  rw [masked_toNat hlevel hi, masked_toNat hlevel hj]
  refine ⟨fun l hl hleaf => ?_, hm.leaves_eq, ?_, rfl⟩
  · obtain ⟨n, hn⟩ := hl.numbered_leaf hleaf
    obtain ⟨hli, hlj⟩ := hn.coords_lt
    rw [hm.contains_leaf_iff hn, masked_eq_masked_iff hlevel hi hli,
      masked_eq_masked_iff hlevel hj hlj, hm.sizeAt_level]
  · have hcard := square_ncard hc.1 (lowest_add_le hlevel hi) (lowest_add_le hlevel hj)
    rw [sizeAt_eq, ← Nat.mul_pow, ← sizeAt_eq] at hcard
    rw [hm.leaves_eq]
    exact hcard

/-- A cell of level 2 on the face with number 1. -/
theorem range_is_square_of_level_two : (⟨0x3300000000000000⟩ : CellId).IsValid ∧
    (⟨0x3300000000000000⟩ : CellId).leaves = square 1 (3 * 2 ^ 28) (2 * 2 ^ 28) (2 ^ 28) ∧
    (⟨0x3300000000000000⟩ : CellId).leaves.ncard = 4 ^ 28 := by
  have hvalid : (⟨0x3300000000000000⟩ : CellId).IsValid := by decide
  obtain ⟨-, hleaves, hcard, -⟩ := range_is_square (α := Float) hvalid
  exact ⟨hvalid, hleaves, hcard⟩

end CellId

end SphereIndex
