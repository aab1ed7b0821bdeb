import Mathlib.Logic.Function.Iterate
import SphereIndex.Proofs.Cell.Coordinates

/-!
# Ancestors and ranges

A cell is contained in exactly its ancestors, and these are found by cutting the word off at a marker
or by going from parent to parent.  So two ranges never overlap in part, and the ranges of the four
children of a cell follow one another without a gap from one end of its own range to the other.
-/

namespace SphereIndex.CellId

/-! ## 1. From parent to parent -/

namespace Numbered

variable {a b c : CellId} {j k l m n : Nat}

theorem parent (h : c.Numbered l n) (hl : l < 30) : c.parent.Numbered (l + 1) (n / 4) := by
  have hlt : 4 ^ (l + 1) < 2 ^ 64 := by
    rw [four_pow_eq]
    exact Nat.pow_lt_pow_right (by decide) (by omega)
  have hmarker : (c.marker <<< 2).toNat = 4 ^ (l + 1) := by
    rw [UInt64.toNat_shiftLeft, h.marker_toNat]
    change 4 ^ l <<< 2 % 2 ^ 64 = _
    rw [Nat.shiftLeft_eq]
    exact Nat.mod_eq_of_lt hlt
  have hcut := h.cutAt (Nat.le_succ l) hl hmarker
  rwa [Nat.succ_sub (Nat.le_refl l), Nat.sub_self, Nat.pow_one] at hcut

theorem parent_iterate (h : c.Numbered l n) (hj : l + j ≤ 30) :
    (CellId.parent^[j] c).Numbered (l + j) (n / 4 ^ j) := by
  induction j with
  | zero => rwa [Nat.pow_zero, Nat.div_one]
  | succ j ih =>
    rw [Function.iterate_succ_apply', Nat.pow_succ, ← Nat.div_div_eq_div_mul]
    exact (ih (by omega)).parent (by omega)

theorem parent_child (h : c.Numbered (k + 1) m) (d : Digit) : (c.child d).parent = c := by
  have hk := h.height_le
  have hd := d.isLt
  have hparent := (h.child d).parent (by omega)
  rw [show (4 * m + d.val) / 4 = m by omega] at hparent
  exact hparent.eq_of_numbered h

theorem contains_iff_parentAt (ha : a.Numbered k m) (hb : b.Numbered l n) :
    a.Contains b ↔ l ≤ k ∧ b.parentAt (30 - k) = a := by
  rw [ha.contains_iff hb]
  apply and_congr_right
  intro hlk
  have hcut := hb.parentAt hlk ha.height_le
  constructor
  · intro hnumber
    exact (hnumber ▸ hcut).eq_of_numbered ha
  · intro heq
    exact ((heq ▸ hcut).unique ha).2

/-- An odd word in the range of a cell is the id of a leaf cell. -/
theorem exists_numbered_leaf (h : c.Numbered k m) (hl : b.IsLeaf) (hcb : c.Contains b) :
    ∃ n, b.Numbered 0 n := by
  have hmax := h.rangeMax_toNat
  have hle := le_iff.1 hcb.2
  have hodd : b.word.toNat % 2 = 1 := by
    have hne : b.word.toNat % 2 ≠ 0 := by
      intro h0
      apply hl
      apply UInt64.toNat_inj.1
      rw [UInt64.toNat_and]
      exact (Nat.and_one_is_mod _).trans h0
    omega
  have hrange : (2 * m + 2) * 4 ^ k ≤ 2 * (6 * 4 ^ 30) := by
    have hpow : 4 ^ 30 = 4 ^ (30 - k) * 4 ^ k := by
      rw [← Nat.pow_add, Nat.sub_add_cancel h.height_le]
    rw [hpow, ← Nat.mul_assoc, ← Nat.mul_assoc]
    apply Nat.mul_le_mul_right
    have := h.number_lt
    omega
  refine ⟨b.word.toNat / 2, Nat.zero_le _, ?_, ?_⟩
  · rw [Nat.sub_zero]
    omega
  · omega

/-! ## 2. The ranges of the children -/

theorem rangeMin_child_zero (h : c.Numbered (k + 1) m) : (c.child 0).rangeMin = c.rangeMin := by
  apply ext
  rw [(h.child 0).rangeMin_toNat, h.rangeMin_toNat, Nat.pow_succ]
  change 2 * (4 * m + 0) * 4 ^ k + 1 = _
  ring

theorem rangeMax_child_three (h : c.Numbered (k + 1) m) : (c.child 3).rangeMax = c.rangeMax := by
  apply ext
  have hchild := (h.child 3).rangeMax_toNat
  change _ = (2 * (4 * m + 3) + 2) * 4 ^ k at hchild
  have hmax := h.rangeMax_toNat
  rw [show (2 * m + 2) * 4 ^ (k + 1) = (2 * (4 * m + 3) + 2) * 4 ^ k by ring] at hmax
  omega

/-- Between the ranges of two children in a row there is one even word. -/
theorem rangeMin_child_succ (h : c.Numbered (k + 1) m) {d e : Digit} (hde : d.val + 1 = e.val) :
    (c.child e).rangeMin.word.toNat = (c.child d).rangeMax.word.toNat + 2 := by
  have hmin := (h.child e).rangeMin_toNat
  have hmax := (h.child d).rangeMax_toNat
  rw [← hde, show 2 * (4 * m + (d.val + 1)) = 2 * (4 * m + d.val) + 2 by ring] at hmin
  omega

end Numbered

/-- **The ranges of the children divide the range of the cell.** -/
structure ChildrenTile (c : CellId) : Prop where
  first : (c.child 0).rangeMin = c.rangeMin
  last : (c.child 3).rangeMax = c.rangeMax
  ordered : ∀ d e : Digit, d < e → (c.child d).rangeMax < (c.child e).rangeMin
  /-- Leaf ids are the odd words, so that no leaf id lies between the two. -/
  adjacent : ∀ d e : Digit, d.val + 1 = e.val →
    (c.child e).rangeMin.word.toNat = (c.child d).rangeMax.word.toNat + 2
  leaf_iff : ∀ l : CellId, l.IsLeaf → (c.Contains l ↔ ∃! d, (c.child d).Contains l)

/-! ## 3. Valid cells -/

namespace IsValid

variable {a b c : CellId} {l : Nat}

theorem contains_iff_parentAt (ha : a.IsValid) (hb : b.IsValid) :
    a.Contains b ↔ a.level ≤ b.level ∧ b.parentAt a.level = a := by
  obtain ⟨k, m, ha⟩ := ha.exists_numbered
  obtain ⟨l, n, hb⟩ := hb.exists_numbered
  have hk := ha.height_le
  have hl := hb.height_le
  rw [ha.contains_iff_parentAt hb, ha.level_eq, hb.level_eq]
  exact and_congr_left fun _ => by omega

/-- The ancestor of a cell at a level above. -/
theorem parentAt (hc : c.IsValid) (hl : l ≤ c.level) :
    (c.parentAt l).IsValid ∧ (c.parentAt l).level = l ∧ (c.parentAt l).Contains c ∧
      (c.parentAt l).faceNumber = c.faceNumber := by
  obtain ⟨k, m, hm⟩ := hc.exists_numbered
  have hk := hm.height_le
  rw [hm.level_eq] at hl
  have hparent := hm.parentAt (k := 30 - l) (by omega) (Nat.sub_le 30 l)
  rw [Nat.sub_sub_self (by omega)] at hparent
  have hlevel : (c.parentAt l).level = l := hparent.level_eq.trans (by omega)
  have hcontains := (hparent.contains_iff hm).2 ⟨by omega, rfl⟩
  exact ⟨hparent.isValid, hlevel, hcontains, (hparent.path_of_contains hm hcontains).1⟩

theorem meets_iff (ha : a.IsValid) (hb : b.IsValid) :
    a.Meets b ↔ a.Contains b ∨ b.Contains a := by
  have hmeets : a.Meets b ↔ ¬a.Precedes b ∧ ¬b.Precedes a :=
    and_congr UInt64.not_lt.symm UInt64.not_lt.symm
  rw [hmeets]
  constructor
  · rintro ⟨hab, hba⟩
    rcases ha.nested_or_precedes hb with h | h | h | h
    · exact .inl h
    · exact .inr h
    · exact absurd h hab
    · exact absurd h hba
  · rintro (h | h)
    · exact ⟨not_precedes_of_contains ha hb hb h hb.contains_self,
        not_precedes_of_contains hb ha hb hb.contains_self h⟩
    · exact ⟨not_precedes_of_contains ha hb ha ha.contains_self h,
        not_precedes_of_contains hb ha ha h ha.contains_self⟩

/-- Cutting off a path at once is going up one level at a time. -/
theorem parentAt_eq_iterate (hc : c.IsValid) (hl : l ≤ c.level) :
    c.parentAt l = CellId.parent^[c.level - l] c := by
  obtain ⟨k, m, hc⟩ := hc.exists_numbered
  have hk := hc.height_le
  rw [hc.level_eq] at hl ⊢
  have hparents := hc.parent_iterate (j := 30 - k - l) (by omega)
  have hcut := hc.parentAt (k := 30 - l) (by omega) (by omega)
  rw [Nat.sub_sub_self (by omega), show 30 - l - k = 30 - k - l by omega,
    show 30 - l = k + (30 - k - l) by omega] at hcut
  exact hcut.eq_of_numbered hparents

theorem isLeaf_iff (hc : c.IsValid) : c.IsLeaf ↔ ¬c.level < maxLevel := by
  obtain ⟨k, m, hc⟩ := hc.exists_numbered
  have hk := hc.height_le
  rw [hc.isLeaf_iff, hc.level_eq]
  change k = 0 ↔ ¬30 - k < 30
  omega

theorem childrenTile (hc : c.IsValid) (hl : ¬c.IsLeaf) : c.ChildrenTile := by
  rw [hc.isLeaf_iff, not_not] at hl
  obtain ⟨k, m, hm⟩ := hc.exists_numbered_of_level hl
  refine ⟨hm.rangeMin_child_zero, hm.rangeMax_child_three,
    fun d e hde => hc.child_precedes_child hl hde, fun d e => hm.rangeMin_child_succ,
    fun b hb => ⟨fun hcb => ?_, fun ⟨d, hdb, _⟩ => ?_⟩⟩
  · obtain ⟨n, hn⟩ := hm.exists_numbered_leaf hb hcb
    have hne : b ≠ c := by
      rintro rfl
      exact hc.isLeaf_iff.1 hb hl
    obtain ⟨-, d, hd⟩ := exists_child_contains hc hn.isValid hcb hne
    refine ⟨d, hd, fun e he => ?_⟩
    -- Another child lies before or after this one.
    by_contra hed
    rcases Nat.lt_or_gt_of_ne (Fin.val_ne_of_ne hed) with hlt | hlt
    · exact not_precedes_of_contains (hc.child hl e) (hc.child hl d) hn.isValid he hd
        (hc.child_precedes_child hl hlt)
    · exact not_precedes_of_contains (hc.child hl d) (hc.child hl e) hn.isValid hd he
        (hc.child_precedes_child hl hlt)
  · obtain ⟨n, hn⟩ := (hm.child d).exists_numbered_leaf hb hdb
    exact contains_trans hc (hc.child hl d) hn.isValid (hc.contains_child hl d) hdb

end IsValid

/-- **The ranges of cells are laminar**: they are nested along the ancestors of a cell or disjoint,
and the children of a cell divide its range.  The ends of the range of any word but 0 are words. -/
theorem ranges_laminar :
    (∀ a b : CellId, a.IsValid → b.IsValid →
      (a.Contains b ↔ a.level ≤ b.level ∧ b.parentAt a.level = a) ∧
      (a.Meets b ↔ a.Contains b ∨ b.Contains a)) ∧
    (∀ (c : CellId) (l : Nat), c.IsValid → l ≤ c.level →
      c.parentAt l = parent^[c.level - l] c) ∧
    (∀ c : CellId, c.IsValid → ¬c.IsLeaf → c.ChildrenTile) ∧
    ∀ c : CellId, c.word ≠ 0 →
      1 ≤ c.marker.toNat ∧ c.marker.toNat - 1 ≤ c.word.toNat ∧
      c.word.toNat + (c.marker.toNat - 1) < 2 ^ 64 ∧
      c.rangeMin.word.toNat = c.word.toNat - (c.marker.toNat - 1) ∧
      c.rangeMax.word.toNat = c.word.toNat + (c.marker.toNat - 1) := by
  refine ⟨fun a b ha hb => ⟨ha.contains_iff_parentAt hb, ha.meets_iff hb⟩,
    fun c l hc hl => hc.parentAt_eq_iterate hl, fun c hc hl => hc.childrenTile hl, fun c hc => ?_⟩
  obtain ⟨m, e, hw⟩ := exists_odd_mul_two_pow hc
  obtain ⟨hle, hlt⟩ := range_fits hw
  rw [marker_toNat_of_word hw]
  exact ⟨Nat.two_pow_pos e, Nat.le_trans (Nat.sub_le _ _) hle, hlt, rangeMin_toNat_of_word hw,
    rangeMax_toNat_of_word hw⟩

/-- A cell of level 2 and the face with number 1 over it; the highest power of two as a word. -/
theorem ranges_laminar_of_level_two :
    ((ofFace .yPos).IsValid ∧ (⟨0x3300000000000000⟩ : CellId).IsValid ∧
      (⟨0x8000000000000000⟩ : CellId).word ≠ 0) ∧
    (ofFace .yPos).Contains ⟨0x3300000000000000⟩ ∧
    (ofFace .yPos).Meets ⟨0x3300000000000000⟩ ∧
    (⟨0x3300000000000000⟩ : CellId).parentAt 0 = parent^[2] ⟨0x3300000000000000⟩ ∧
    (⟨0x3300000000000000⟩ : CellId).ChildrenTile ∧
    (⟨0x8000000000000000⟩ : CellId).word.toNat +
      ((⟨0x8000000000000000⟩ : CellId).marker.toNat - 1) < 2 ^ 64 := by
  have hface : (ofFace .yPos).IsValid := by decide
  have hvalid : (⟨0x3300000000000000⟩ : CellId).IsValid := by decide
  have hword : (⟨0x8000000000000000⟩ : CellId).word ≠ 0 := by decide
  obtain ⟨hnested, hparents, hchildren, hfits⟩ := ranges_laminar
  obtain ⟨hcontains, hmeets⟩ := hnested _ _ hface hvalid
  have hsub := hcontains.2 (by decide)
  exact ⟨⟨hface, hvalid, hword⟩, hsub, hmeets.2 (.inl hsub), hparents _ 0 hvalid (by decide),
    hchildren _ hvalid (by decide), (hfits _ hword).2.2.1⟩

end SphereIndex.CellId
