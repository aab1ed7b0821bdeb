import Mathlib.Data.Nat.Factorization.Basic
import Mathlib.Tactic.Ring
import Mathlib.Tactic.IntervalCases
import Mathlib.Algebra.Order.Ring.Nat
import SphereIndex.Cell.Id

/-!
# Cells by number

The cells of one level are numbered along the curve, face by face.  Cell number `m` among those `k`
levels above the leaves has the word `(2 m + 1) * 4 ^ k`.  All that is said of cell ids elsewhere is
read off this pair: the ranges, the children, and which of two cells contains the other.
-/

namespace SphereIndex

/-! ## 1. The lowest one of a word -/

/-- A number and its complement to a power of two have only the lowest one of the number in
common. -/
theorem and_two_pow_sub_self (m e n : Nat) (h : (2 * m + 1) * 2 ^ e < 2 ^ n) :
    (2 * m + 1) * 2 ^ e &&& (2 ^ n - (2 * m + 1) * 2 ^ e) = 2 ^ e := by
  have hpos : 0 < 2 ^ e := Nat.two_pow_pos e
  have hlt : 2 ^ e < 2 ^ (e + 1) := Nat.pow_lt_pow_right (by decide) (by omega)
  have hen : e < n := by
    apply (Nat.pow_lt_pow_iff_right (by decide : 1 < 2)).1
    exact Nat.lt_of_le_of_lt (Nat.le_mul_of_pos_left _ (by omega)) h
  -- The number ends in a one and `e` zeros, and the complement inverts every bit above that one.
  have hodd : (2 * m + 1) * 2 ^ e = 2 ^ (e + 1) * m + 2 ^ e := by rw [Nat.pow_succ]; ring
  have hsucc : (2 * m + 1) * 2 ^ e = 2 ^ (e + 1) * m + (2 ^ e - 1) + 1 := by omega
  apply Nat.eq_of_testBit_eq
  intro i
  rw [Nat.testBit_and, hsucc, Nat.testBit_two_pow_sub_succ (by omega), ← hsucc, hodd,
    Nat.testBit_two_pow_mul_add _ hlt, Nat.testBit_two_pow_mul_add _ (by omega)]
  by_cases hi : i < e + 1
  · rw [if_pos hi, if_pos hi, Nat.testBit_two_pow, Nat.testBit_two_pow_sub_one]
    by_cases hei : e = i
    · subst hei
      simp [hen]
    · simp [hei]
  · rw [if_neg hi, if_neg hi, Nat.testBit_two_pow, decide_eq_false (by omega : e ≠ i)]
    cases m.testBit (i - (e + 1)) <;> simp

theorem four_pow_eq (k : Nat) : 4 ^ k = 2 ^ (2 * k) := by rw [Nat.pow_mul]

theorem four_pow_pos (k : Nat) : 0 < 4 ^ k := Nat.pow_pos (by decide)

namespace CellId

theorem ext {a b : CellId} (h : a.word.toNat = b.word.toNat) : a = b := by
  obtain ⟨a⟩ := a
  obtain ⟨b⟩ := b
  rw [CellId.mk.injEq]
  exact UInt64.toNat_inj.1 h

theorem lt_iff {a b : CellId} : a < b ↔ a.word.toNat < b.word.toNat := UInt64.lt_iff_toNat_lt

theorem le_iff {a b : CellId} : a ≤ b ↔ a.word.toNat ≤ b.word.toNat := UInt64.le_iff_toNat_le

theorem marker_toNat_of_word {c : CellId} {m e : Nat} (h : c.word.toNat = (2 * m + 1) * 2 ^ e) :
    c.marker.toNat = 2 ^ e := by
  have hlt : c.word.toNat < 2 ^ 64 := c.word.toNat_lt
  have hpos : 0 < c.word.toNat := by
    rw [h]
    exact Nat.mul_pos (by omega) (Nat.two_pow_pos e)
  have hneg : (0 - c.word).toNat = 2 ^ 64 - c.word.toNat := by
    rw [UInt64.toNat_sub, UInt64.toNat_zero, Nat.add_zero, Nat.mod_eq_of_lt (by omega)]
  rw [marker, UInt64.toNat_and, hneg, h]
  exact and_two_pow_sub_self m e 64 (by rw [← h]; exact hlt)

/-- Every word but 0 has a lowest one. -/
theorem exists_odd_mul_two_pow {c : CellId} (h : c.word ≠ 0) :
    ∃ m e, c.word.toNat = (2 * m + 1) * 2 ^ e := by
  have hne : c.word.toNat ≠ 0 := fun h0 => h (UInt64.toNat_inj.1 h0)
  obtain ⟨e, q, ⟨m, rfl⟩, hw⟩ := Nat.exists_eq_two_pow_mul_odd hne
  exact ⟨m, e, hw.trans (Nat.mul_comm _ _)⟩

theorem exponent_lt {c : CellId} {m e : Nat} (h : c.word.toNat = (2 * m + 1) * 2 ^ e) : e < 64 := by
  apply (Nat.pow_lt_pow_iff_right (by decide : 1 < 2)).1
  apply Nat.lt_of_le_of_lt _ c.word.toNat_lt
  rw [h]
  exact Nat.le_mul_of_pos_left _ (by omega)

/-- **Neither end of a range leaves the words**: what lies below the lowest one can be taken away from
the word, and filled up with ones. -/
theorem range_fits {c : CellId} {m e : Nat} (h : c.word.toNat = (2 * m + 1) * 2 ^ e) :
    2 ^ e ≤ c.word.toNat ∧ c.word.toNat + (2 ^ e - 1) < 2 ^ 64 := by
  have hpos := Nat.two_pow_pos e
  have hlt := c.word.toNat_lt
  have hmarker : 2 ^ e ≤ c.word.toNat := by
    rw [h]
    exact Nat.le_mul_of_pos_left _ (by omega)
  have he := exponent_lt h
  -- Above the lowest one there is an even number of multiples of it below `2 ^ 64`.
  have hpow : 2 ^ 64 = 2 * 2 ^ (63 - e) * 2 ^ e := by
    rw [← Nat.pow_succ', ← Nat.pow_add, show (63 - e).succ + e = 64 by omega]
  have hodd : 2 * m + 1 < 2 * 2 ^ (63 - e) := by
    apply Nat.lt_of_mul_lt_mul_right (a := 2 ^ e)
    rwa [← h, ← hpow]
  have hle : (2 * m + 2) * 2 ^ e ≤ 2 ^ 64 := by
    rw [hpow]
    exact Nat.mul_le_mul_right _ (by omega)
  rw [show (2 * m + 2) * 2 ^ e = (2 * m + 1) * 2 ^ e + 2 ^ e by ring, ← h] at hle
  omega

theorem marker_sub_one_toNat {c : CellId} {m e : Nat} (h : c.word.toNat = (2 * m + 1) * 2 ^ e) :
    (c.marker - 1).toNat = 2 ^ e - 1 := by
  have hmarker := marker_toNat_of_word h
  have hone : (1 : UInt64) ≤ c.marker := by
    rw [UInt64.le_iff_toNat_le, hmarker]
    exact Nat.two_pow_pos e
  rw [UInt64.toNat_sub_of_le _ _ hone, hmarker]
  rfl

theorem rangeMin_toNat_of_word {c : CellId} {m e : Nat} (h : c.word.toNat = (2 * m + 1) * 2 ^ e) :
    c.rangeMin.word.toNat = c.word.toNat - (2 ^ e - 1) := by
  have hpred := marker_sub_one_toNat h
  have hle : c.marker - 1 ≤ c.word := by
    rw [UInt64.le_iff_toNat_le, hpred]
    exact Nat.le_trans (Nat.sub_le _ _) (range_fits h).1
  show (c.word - (c.marker - 1)).toNat = _
  rw [UInt64.toNat_sub_of_le _ _ hle, hpred]

theorem rangeMax_toNat_of_word {c : CellId} {m e : Nat} (h : c.word.toNat = (2 * m + 1) * 2 ^ e) :
    c.rangeMax.word.toNat = c.word.toNat + (2 ^ e - 1) := by
  show (c.word + (c.marker - 1)).toNat = _
  rw [UInt64.toNat_add, marker_sub_one_toNat h, Nat.mod_eq_of_lt (range_fits h).2]

/-! ## 2. Numbers of cells -/

/-- The range of the last cell of a level ends below `2 ^ 64`. -/
theorem range_lt_of_number_lt {k m : Nat} (hk : k ≤ 30) (hm : m < 6 * 4 ^ (30 - k)) :
    (2 * m + 2) * 4 ^ k < 2 ^ 64 := by
  have hpow : 4 ^ (30 - k) * 4 ^ k = 4 ^ 30 := by rw [← Nat.pow_add, Nat.sub_add_cancel hk]
  have hle : (2 * m + 2) * 4 ^ k ≤ 12 * 4 ^ (30 - k) * 4 ^ k := Nat.mul_le_mul_right _ (by omega)
  rw [Nat.mul_assoc, hpow] at hle
  exact Nat.lt_of_le_of_lt hle (by decide)

/-- **The cell with number `m` among the cells `k` levels above the leaves.** -/
structure Numbered (c : CellId) (k m : Nat) : Prop where
  height_le : k ≤ 30
  number_lt : m < 6 * 4 ^ (30 - k)
  word_eq : c.word.toNat = (2 * m + 1) * 4 ^ k

namespace Numbered

variable {a b c : CellId} {k l m n : Nat}

theorem range_lt (h : c.Numbered k m) : (2 * m + 2) * 4 ^ k < 2 ^ 64 :=
  range_lt_of_number_lt h.height_le h.number_lt

theorem eq_of_numbered (ha : a.Numbered k m) (hb : b.Numbered k m) : a = b :=
  ext (by rw [ha.word_eq, hb.word_eq])

theorem word_eq_two_pow (h : c.Numbered k m) : c.word.toNat = (2 * m + 1) * 2 ^ (2 * k) := by
  rw [h.word_eq, four_pow_eq]

theorem marker_toNat (h : c.Numbered k m) : c.marker.toNat = 4 ^ k := by
  rw [four_pow_eq]
  exact marker_toNat_of_word h.word_eq_two_pow

theorem level_eq (h : c.Numbered k m) : c.level = 30 - k := by
  rw [level, h.marker_toNat, four_pow_eq, Nat.log2_two_pow, Nat.mul_div_cancel_left _ (by decide)]
  rfl

theorem faceNumber_eq (h : c.Numbered k m) : c.faceNumber = m / 4 ^ (30 - k) := by
  have hpow : 2 ^ 61 = 4 ^ k * (2 * 4 ^ (30 - k)) := by
    rw [Nat.mul_left_comm, ← Nat.pow_add, Nat.add_sub_cancel' h.height_le]
    rfl
  rw [faceNumber, UInt64.toNat_shiftRight, Nat.shiftRight_eq_div_pow]
  change c.word.toNat / 2 ^ 61 = _
  rw [h.word_eq, hpow, ← Nat.div_div_eq_div_mul, Nat.mul_div_cancel _ (four_pow_pos k),
    ← Nat.div_div_eq_div_mul]
  congr 1
  omega

theorem isValid (h : c.Numbered k m) : c.IsValid := by
  refine ⟨?_, fun h0 => ?_⟩
  · rw [h.faceNumber_eq]
    exact Nat.div_lt_of_lt_mul (by have := h.number_lt; omega)
  · have hbits := congrArg UInt64.toNat h0
    rw [UInt64.toNat_and, h.marker_toNat] at hbits
    -- A power of four has its bit in the mask.
    have hk := h.height_le
    interval_cases k <;> exact absurd hbits (by decide)

end Numbered

theorem IsValid.exists_numbered {c : CellId} (h : c.IsValid) : ∃ k m, c.Numbered k m := by
  obtain ⟨hface, hmark⟩ := h
  have hne : c.word ≠ 0 := by
    intro h0
    apply hmark
    rw [marker, h0]
    decide
  obtain ⟨m, e, hw⟩ := exists_odd_mul_two_pow hne
  have he := exponent_lt hw
  -- The marker has an even exponent, because the bits of the mask do.
  have hand : 2 ^ e &&& 0x1555555555555555 ≠ 0 := by
    intro h0
    apply hmark
    apply UInt64.toNat_inj.1
    rw [UInt64.toNat_and, marker_toNat_of_word hw]
    exact h0
  obtain ⟨k, hk, rfl⟩ : ∃ k, k ≤ 30 ∧ e = 2 * k := by
    refine ⟨e / 2, ?_⟩
    interval_cases e <;> first | exact absurd (by decide) hand | decide
  rw [← four_pow_eq] at hw
  refine ⟨k, m, hk, ?_, hw⟩
  have hword : c.word.toNat < 12 * 4 ^ (30 - k) * 4 ^ k := by
    rw [faceNumber, UInt64.toNat_shiftRight, Nat.shiftRight_eq_div_pow] at hface
    change c.word.toNat / 2 ^ 61 < 6 at hface
    rw [Nat.mul_assoc, ← Nat.pow_add, Nat.sub_add_cancel hk]
    have := (Nat.div_lt_iff_lt_mul (by decide)).1 hface
    exact Nat.lt_of_lt_of_le this (by decide)
  rw [hw] at hword
  have := Nat.lt_of_mul_lt_mul_right hword
  omega

namespace Numbered

variable {a b c : CellId} {k l m n : Nat}

theorem unique (h : c.Numbered k m) (h' : c.Numbered l n) : k = l ∧ m = n := by
  have hk : k = l := by
    have := h.level_eq.symm.trans h'.level_eq
    have := h.height_le
    have := h'.height_le
    omega
  subst hk
  have hw := h.word_eq.symm.trans h'.word_eq
  have := Nat.eq_of_mul_eq_mul_right (four_pow_pos k) hw
  exact ⟨rfl, by omega⟩

theorem ofFace (f : Face) : (CellId.ofFace f).Numbered 30 f.number := by
  refine ⟨Nat.le_refl _, ?_, ?_⟩
  · exact f.number_lt
  · cases f <;> rfl

/-! ## 3. Ranges -/

theorem rangeMin_toNat (h : c.Numbered k m) : c.rangeMin.word.toNat = 2 * m * 4 ^ k + 1 := by
  have hpos := four_pow_pos k
  have hword : (2 * m + 1) * 4 ^ k = 2 * m * 4 ^ k + 4 ^ k := by ring
  rw [rangeMin_toNat_of_word h.word_eq_two_pow, h.word_eq, ← four_pow_eq]
  omega

theorem rangeMax_toNat (h : c.Numbered k m) : c.rangeMax.word.toNat + 1 = (2 * m + 2) * 4 ^ k := by
  have hpos := four_pow_pos k
  have hword : (2 * m + 2) * 4 ^ k = (2 * m + 1) * 4 ^ k + 4 ^ k := by ring
  rw [rangeMax_toNat_of_word h.word_eq_two_pow, h.word_eq, ← four_pow_eq]
  omega

/-- The range of a leaf cell is the cell itself. -/
theorem rangeMin_of_leaf (h : c.Numbered 0 m) : c.rangeMin = c := by
  apply ext
  rw [h.rangeMin_toNat, h.word_eq]
  omega

theorem rangeMax_of_leaf (h : c.Numbered 0 m) : c.rangeMax = c := by
  apply ext
  have hmax := h.rangeMax_toNat
  have hword := h.word_eq
  omega

theorem contains_iff (ha : a.Numbered k m) (hb : b.Numbered l n) :
    a.Contains b ↔ l ≤ k ∧ n / 4 ^ (k - l) = m := by
  have hmin := ha.rangeMin_toNat
  have hmax := ha.rangeMax_toNat
  have hpos := four_pow_pos l
  unfold Contains
  rw [le_iff, le_iff, hmin, hb.word_eq]
  by_cases hlk : l ≤ k
  · -- Both ends of the range are even multiples of `4 ^ l`, and the word is an odd one.
    have hpow : 4 ^ k = 4 ^ (k - l) * 4 ^ l := by rw [← Nat.pow_add, Nat.sub_add_cancel hlk]
    rw [Nat.div_eq_iff (four_pow_pos _)]
    generalize 4 ^ (k - l) = q at hpow
    have hlow : 2 * m * 4 ^ k + 1 ≤ (2 * n + 1) * 4 ^ l ↔ m * q ≤ n := by
      rw [Nat.add_one_le_iff, hpow, ← Nat.mul_assoc, Nat.mul_lt_mul_right hpos, Nat.mul_assoc]
      omega
    have hhigh : (2 * n + 1) * 4 ^ l ≤ a.rangeMax.word.toNat ↔ n < (m + 1) * q := by
      rw [← Nat.lt_add_one_iff, hmax, hpow, ← Nat.mul_assoc, Nat.mul_lt_mul_right hpos,
        show (2 * m + 2) * q = 2 * ((m + 1) * q) by ring]
      omega
    rw [hlow, hhigh, Nat.add_one_mul]
    have hq : 0 < q := Nat.pos_of_ne_zero (by rintro rfl; have := four_pow_pos k; omega)
    constructor
    · rintro ⟨h1, h2⟩
      exact ⟨hlk, h1, by omega⟩
    · rintro ⟨-, h1, h2⟩
      exact ⟨h1, by omega⟩
  · -- The word of a larger cell is an even multiple of the smaller cell's marker.
    have hpow : 4 ^ l = 4 * 4 ^ (l - k - 1) * 4 ^ k := by
      rw [← Nat.pow_succ', ← Nat.pow_add]
      congr 1
      omega
    generalize 4 ^ (l - k - 1) = q at hpow
    have heven : (2 * n + 1) * 4 ^ l = 2 * (2 * (2 * n + 1) * q) * 4 ^ k := by rw [hpow]; ring
    refine ⟨fun ⟨h1, h2⟩ => ?_, fun h => absurd h.1 hlk⟩
    rw [heven] at h1 h2
    have h1 := Nat.lt_of_mul_lt_mul_right (Nat.add_one_le_iff.1 h1)
    have h2 := Nat.lt_of_mul_lt_mul_right (hmax ▸ Nat.lt_add_one_iff.2 h2)
    omega

/-! ## 4. Children -/

/-- **The children of a cell have four consecutive numbers.** -/
theorem child (h : c.Numbered (k + 1) m) (d : Digit) : (c.child d).Numbered k (4 * m + d.val) := by
  have hd := d.isLt
  have hk := h.height_le
  have hpos := four_pow_pos k
  have hlt := h.range_lt
  rw [Nat.pow_succ'] at hlt
  refine ⟨by omega, ?_, ?_⟩
  · have hm := h.number_lt
    rw [show 30 - k = 30 - (k + 1) + 1 by omega, Nat.pow_succ']
    omega
  -- The word of the child lies in the range of the cell, so nothing wraps around.
  have hstep : (c.marker >>> 2).toNat = 4 ^ k := by
    rw [UInt64.toNat_shiftRight, h.marker_toNat, Nat.shiftRight_eq_div_pow, Nat.pow_succ']
    exact Nat.mul_div_cancel_left _ (by decide)
  have hword : c.word.toNat = 8 * m * 4 ^ k + 4 * 4 ^ k := by
    rw [h.word_eq, Nat.pow_succ']
    ring
  have hsize : 8 * m * 4 ^ k + 8 * 4 ^ k < 2 ^ 64 := by
    rw [show 8 * m * 4 ^ k + 8 * 4 ^ k = (2 * m + 2) * (4 * 4 ^ k) by ring]
    exact hlt
  have hthree : ((3 : UInt64) * (c.marker >>> 2)).toNat = 3 * 4 ^ k := by
    rw [UInt64.toNat_mul, hstep, Nat.mod_eq_of_lt]
    · rfl
    · change 3 * 4 ^ k < 2 ^ 64
      omega
  have hle : (3 : UInt64) * (c.marker >>> 2) ≤ c.word := by
    rw [UInt64.le_iff_toNat_le, hthree, hword]
    omega
  have hdigit : ((2 : UInt64) * UInt64.ofNat d.val * (c.marker >>> 2)).toNat = 2 * d.val * 4 ^ k := by
    have hsix : 2 * d.val * 4 ^ k ≤ 6 * 4 ^ k := Nat.mul_le_mul_right _ (by omega)
    rw [UInt64.toNat_mul, UInt64.toNat_mul, UInt64.toNat_ofNat_of_lt' (by
      change d.val < 2 ^ 64
      omega), hstep]
    change 2 * d.val % 2 ^ 64 * 4 ^ k % 2 ^ 64 = _
    rw [Nat.mod_eq_of_lt (by omega : 2 * d.val < 2 ^ 64), Nat.mod_eq_of_lt (by omega)]
  have hsix : 2 * d.val * 4 ^ k ≤ 6 * 4 ^ k := Nat.mul_le_mul_right _ (by omega)
  have hsum : (2 * (4 * m + d.val) + 1) * 4 ^ k = 8 * m * 4 ^ k + 4 ^ k + 2 * d.val * 4 ^ k := by
    ring
  change (c.word - (3 : UInt64) * (c.marker >>> 2) +
    (2 : UInt64) * UInt64.ofNat d.val * (c.marker >>> 2)).toNat = _
  rw [UInt64.toNat_add, UInt64.toNat_sub_of_le _ _ hle, hthree, hdigit, hword, hsum,
    Nat.mod_eq_of_lt (by omega)]
  omega

end Numbered

end CellId

end SphereIndex
