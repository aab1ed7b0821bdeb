import SphereIndex.Proofs.Cell.Number

/-!
# The family of cells

Two cells are nested or one precedes the other on the curve, and the children of a cell divide
what lies below it.  Here the numbers of cells are left behind: what is said of valid cells in this
module is all that the index needs.
-/

namespace SphereIndex.CellId

/-! ## 1. The family of ranges -/

/-- All of the cell `a` comes before all of `b` on the curve. -/
def Precedes (a b : CellId) : Prop := a.rangeMax < b.rangeMin

instance (a b : CellId) : Decidable (a.Precedes b) := inferInstanceAs (Decidable (_ < _))

namespace Numbered

variable {a b c : CellId} {k l m n : Nat}

theorem contains_self (h : c.Numbered k m) : c.Contains c := by
  rw [h.contains_iff h]
  exact ⟨Nat.le_refl _, by rw [Nat.sub_self, Nat.pow_zero, Nat.div_one]⟩

theorem precedes_iff (ha : a.Numbered k m) (hb : b.Numbered l n) :
    a.Precedes b ↔ (m + 1) * 4 ^ k ≤ n * 4 ^ l := by
  have hmin := hb.rangeMin_toNat
  have hmax := ha.rangeMax_toNat
  unfold Precedes
  rw [lt_iff, hmin]
  have h1 : (2 * m + 2) * 4 ^ k = 2 * ((m + 1) * 4 ^ k) := by ring
  have h2 : 2 * n * 4 ^ l = 2 * (n * 4 ^ l) := by ring
  omega

theorem lt_of_precedes (ha : a.Numbered k m) (hb : b.Numbered l n) (h : a.Precedes b) : a < b := by
  rw [ha.precedes_iff hb] at h
  rw [lt_iff, ha.word_eq, hb.word_eq]
  have h1 : (2 * m + 1) * 4 ^ k < 2 * ((m + 1) * 4 ^ k) := by
    have := four_pow_pos k
    rw [show 2 * ((m + 1) * 4 ^ k) = (2 * m + 1) * 4 ^ k + 4 ^ k by ring]
    omega
  have h2 : 2 * (n * 4 ^ l) < (2 * n + 1) * 4 ^ l := by
    have := four_pow_pos l
    rw [show (2 * n + 1) * 4 ^ l = 2 * (n * 4 ^ l) + 4 ^ l by ring]
    omega
  omega

/-- **Two cells never overlap without one containing the other.** -/
theorem nested_or_precedes (ha : a.Numbered k m) (hb : b.Numbered l n) :
    a.Contains b ∨ b.Contains a ∨ a.Precedes b ∨ b.Precedes a := by
  rw [ha.contains_iff hb, hb.contains_iff ha, ha.precedes_iff hb, hb.precedes_iff ha]
  rcases Nat.le_total l k with hlk | hkl
  · have hpow : 4 ^ k = 4 ^ (k - l) * 4 ^ l := by rw [← Nat.pow_add, Nat.sub_add_cancel hlk]
    have hpos := four_pow_pos l
    rw [hpow, ← Nat.mul_assoc, ← Nat.mul_assoc, Nat.mul_le_mul_right_iff hpos,
      Nat.mul_le_mul_right_iff hpos, Nat.div_eq_iff (four_pow_pos _), Nat.add_one_mul]
    have := four_pow_pos (k - l)
    omega
  · have hpow : 4 ^ l = 4 ^ (l - k) * 4 ^ k := by rw [← Nat.pow_add, Nat.sub_add_cancel hkl]
    have hpos := four_pow_pos k
    rw [hpow, ← Nat.mul_assoc, ← Nat.mul_assoc, Nat.mul_le_mul_right_iff hpos,
      Nat.mul_le_mul_right_iff hpos, Nat.div_eq_iff (four_pow_pos (l - k)), Nat.add_one_mul]
    have := four_pow_pos (l - k)
    omega

/-- Of two cells over a third one, the higher one contains the other. -/
theorem contains_of_height_le {x : CellId} {j p : Nat} (ha : a.Numbered k m) (hb : b.Numbered l n)
    (hx : x.Numbered j p) (hlk : l ≤ k) (hax : a.Contains x) (hbx : b.Contains x) :
    a.Contains b := by
  rw [ha.contains_iff hx] at hax
  rw [hb.contains_iff hx] at hbx
  rw [ha.contains_iff hb]
  obtain ⟨-, rfl⟩ := hax
  obtain ⟨hjl, rfl⟩ := hbx
  refine ⟨hlk, ?_⟩
  rw [Nat.div_div_eq_div_mul, ← Nat.pow_add, show l - j + (k - l) = k - j by omega]

end Numbered

namespace IsValid

variable {a b c x y : CellId}

theorem contains_self (h : c.IsValid) : c.Contains c := by
  obtain ⟨k, m, hc⟩ := h.exists_numbered
  exact hc.contains_self

theorem contains_trans (ha : a.IsValid) (hb : b.IsValid) (hc : c.IsValid) (hab : a.Contains b)
    (hbc : b.Contains c) : a.Contains c := by
  obtain ⟨k, m, ha⟩ := ha.exists_numbered
  obtain ⟨l, n, hb⟩ := hb.exists_numbered
  obtain ⟨j, p, hc⟩ := hc.exists_numbered
  rw [ha.contains_iff hb] at hab
  rw [hb.contains_iff hc] at hbc
  rw [ha.contains_iff hc]
  obtain ⟨hlk, rfl⟩ := hab
  obtain ⟨hjl, rfl⟩ := hbc
  refine ⟨Nat.le_trans hjl hlk, ?_⟩
  rw [Nat.div_div_eq_div_mul, ← Nat.pow_add, show l - j + (k - l) = k - j by omega]

theorem nested_or_precedes (ha : a.IsValid) (hb : b.IsValid) :
    a.Contains b ∨ b.Contains a ∨ a.Precedes b ∨ b.Precedes a := by
  obtain ⟨k, m, ha⟩ := ha.exists_numbered
  obtain ⟨l, n, hb⟩ := hb.exists_numbered
  exact ha.nested_or_precedes hb

theorem precedes_of_contains (ha : a.IsValid) (hb : b.IsValid) (hx : x.IsValid) (hy : y.IsValid)
    (hab : a.Precedes b) (hax : a.Contains x) (hby : b.Contains y) : x.Precedes y := by
  obtain ⟨k, m, ha⟩ := ha.exists_numbered
  obtain ⟨l, n, hb⟩ := hb.exists_numbered
  obtain ⟨i, p, hx⟩ := hx.exists_numbered
  obtain ⟨j, q, hy⟩ := hy.exists_numbered
  rw [ha.contains_iff hx] at hax
  rw [hb.contains_iff hy] at hby
  rw [ha.precedes_iff hb] at hab
  rw [hx.precedes_iff hy]
  obtain ⟨hik, rfl⟩ := hax
  obtain ⟨hjl, rfl⟩ := hby
  -- A cell ends no later, and begins no earlier, than a cell that contains it.
  have h1 : (p + 1) * 4 ^ i ≤ (p / 4 ^ (k - i) + 1) * 4 ^ k := by
    rw [show 4 ^ k = 4 ^ (k - i) * 4 ^ i by rw [← Nat.pow_add, Nat.sub_add_cancel hik],
      ← Nat.mul_assoc]
    exact Nat.mul_le_mul_right _ (Nat.lt_mul_of_div_lt (Nat.lt_succ_self _) (four_pow_pos _))
  have h2 : q / 4 ^ (l - j) * 4 ^ l ≤ q * 4 ^ j := by
    rw [show 4 ^ l = 4 ^ (l - j) * 4 ^ j by rw [← Nat.pow_add, Nat.sub_add_cancel hjl],
      ← Nat.mul_assoc]
    exact Nat.mul_le_mul_right _ (Nat.div_mul_le_self _ _)
  omega

theorem lt_of_precedes (ha : a.IsValid) (hb : b.IsValid) (h : a.Precedes b) : a < b := by
  obtain ⟨k, m, ha⟩ := ha.exists_numbered
  obtain ⟨l, n, hb⟩ := hb.exists_numbered
  exact ha.lt_of_precedes hb h

theorem not_precedes_of_contains (ha : a.IsValid) (hb : b.IsValid) (hc : c.IsValid)
    (hac : a.Contains c) (hbc : b.Contains c) : ¬a.Precedes b := by
  intro hab
  have hcc := precedes_of_contains ha hb hc hc hab hac hbc
  exact absurd (hc.lt_of_precedes hc hcc) (UInt64.lt_irrefl _)

theorem nested_of_contains (ha : a.IsValid) (hb : b.IsValid) (hc : c.IsValid)
    (hac : a.Contains c) (hbc : b.Contains c) : a.Contains b ∨ b.Contains a := by
  rcases nested_or_precedes ha hb with h | h | h | h
  · exact .inl h
  · exact .inr h
  · exact absurd h (not_precedes_of_contains ha hb hc hac hbc)
  · exact absurd h (not_precedes_of_contains hb ha hc hbc hac)

theorem contains_antisymm (ha : a.IsValid) (hb : b.IsValid) (hab : a.Contains b)
    (hba : b.Contains a) : a = b := by
  obtain ⟨k, m, ha⟩ := ha.exists_numbered
  obtain ⟨l, n, hb⟩ := hb.exists_numbered
  rw [ha.contains_iff hb] at hab
  rw [hb.contains_iff ha] at hba
  obtain rfl : k = l := by omega
  rw [Nat.sub_self, Nat.pow_zero, Nat.div_one] at hab
  obtain rfl := hab.2
  exact ha.eq_of_numbered hb

/-! ## 2. Below a cell -/

theorem exists_numbered_of_level (h : c.IsValid) (hl : c.level < maxLevel) :
    ∃ k m, c.Numbered (k + 1) m := by
  obtain ⟨k, m, hc⟩ := h.exists_numbered
  rw [hc.level_eq] at hl
  change 30 - k < 30 at hl
  obtain ⟨k, rfl⟩ : ∃ l, k = l + 1 := ⟨k - 1, by omega⟩
  exact ⟨k, m, hc⟩

theorem level_le (h : c.IsValid) : c.level ≤ maxLevel := by
  obtain ⟨k, m, hc⟩ := h.exists_numbered
  rw [hc.level_eq]
  exact Nat.sub_le _ _

theorem child (h : c.IsValid) (hl : c.level < maxLevel) (d : Digit) : (c.child d).IsValid := by
  obtain ⟨k, m, hc⟩ := h.exists_numbered_of_level hl
  exact (hc.child d).isValid

theorem level_child (h : c.IsValid) (hl : c.level < maxLevel) (d : Digit) :
    (c.child d).level = c.level + 1 := by
  obtain ⟨k, m, hc⟩ := h.exists_numbered_of_level hl
  have := hc.height_le
  rw [(hc.child d).level_eq, hc.level_eq]
  omega

theorem contains_child (h : c.IsValid) (hl : c.level < maxLevel) (d : Digit) :
    c.Contains (c.child d) := by
  obtain ⟨k, m, hc⟩ := h.exists_numbered_of_level hl
  have hd := d.isLt
  rw [hc.contains_iff (hc.child d)]
  refine ⟨by omega, ?_⟩
  rw [Nat.add_sub_cancel_left, Nat.pow_one]
  omega

theorem child_precedes_child (h : c.IsValid) (hl : c.level < maxLevel) {d e : Digit}
    (hde : d.val < e.val) : (c.child d).Precedes (c.child e) := by
  obtain ⟨k, m, hc⟩ := h.exists_numbered_of_level hl
  rw [(hc.child d).precedes_iff (hc.child e)]
  exact Nat.mul_le_mul_right _ (by omega)

/-- **A cell below another one is that cell or lies below one of its children.** -/
theorem exists_child_contains (hc : c.IsValid) (hb : b.IsValid) (hcb : c.Contains b)
    (hne : b ≠ c) : c.level < maxLevel ∧ ∃ d, (c.child d).Contains b := by
  obtain ⟨k, m, hc⟩ := hc.exists_numbered
  obtain ⟨l, n, hb⟩ := hb.exists_numbered
  rw [hc.contains_iff hb] at hcb
  obtain ⟨hlk, rfl⟩ := hcb
  have hlt : l < k := by
    apply Nat.lt_of_le_of_ne hlk
    rintro rfl
    rw [Nat.sub_self, Nat.pow_zero, Nat.div_one] at hc
    exact hne (hb.eq_of_numbered hc)
  -- The child is the one whose digit is the last of the number of `b` at that level.
  obtain ⟨k, rfl⟩ : ∃ j, k = j + 1 := ⟨k - 1, by omega⟩
  have := hc.height_le
  refine ⟨?_, ⟨⟨n / 4 ^ (k - l) % 4, Nat.mod_lt _ (by decide)⟩, ?_⟩⟩
  · rw [hc.level_eq]
    change 30 - (k + 1) < 30
    omega
  · rw [(hc.child _).contains_iff hb]
    refine ⟨by omega, ?_⟩
    rw [show k + 1 - l = k - l + 1 by omega, Nat.pow_succ, ← Nat.div_div_eq_div_mul]
    exact (Nat.div_add_mod _ _).symm

theorem eq_of_contains_leaf (hc : c.IsValid) (hl : ¬c.level < maxLevel) (hb : b.IsValid)
    (hcb : c.Contains b) : b = c := by
  by_contra hne
  exact hl (exists_child_contains hc hb hcb hne).1

theorem ofFace (f : Face) : (CellId.ofFace f).IsValid := (Numbered.ofFace f).isValid

theorem contains_of_faceNumber {f : Face} (h : c.IsValid) (hf : c.faceNumber = f.number) :
    (CellId.ofFace f).Contains c := by
  obtain ⟨k, m, hm⟩ := h.exists_numbered
  rw [(Numbered.ofFace f).contains_iff hm, ← hm.faceNumber_eq]
  exact ⟨hm.height_le, hf⟩

/-- A cell over a cell of a face is a cell of that face. -/
theorem face_contains {f : Face} (ha : a.IsValid) (hb : b.IsValid) (hab : a.Contains b)
    (hf : (CellId.ofFace f).Contains b) : (CellId.ofFace f).Contains a := by
  obtain ⟨k, m, hm⟩ := ha.exists_numbered
  obtain ⟨l, n, hn⟩ := hb.exists_numbered
  have hk := hm.height_le
  rw [hm.contains_iff hn] at hab
  rw [(Numbered.ofFace f).contains_iff hn] at hf
  rw [(Numbered.ofFace f).contains_iff hm]
  obtain ⟨hlk, rfl⟩ := hab
  have hlevels : k - l + (30 - k) = 30 - l := by omega
  rw [Nat.div_div_eq_div_mul, ← Nat.pow_add, hlevels]
  exact ⟨hk, hf.2⟩

end IsValid

end SphereIndex.CellId
