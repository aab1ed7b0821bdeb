import Mathlib.Algebra.Order.Archimedean.Real.Basic
import Mathlib.Algebra.Order.Round
import Mathlib.Tactic.GCongr
import Mathlib.Tactic.Linarith
import Mathlib.Tactic.NormNum
import Mathlib.Tactic.Positivity
import Mathlib.Tactic.Ring
import SphereIndex.Proofs.Exact

/-!
# Nearest numbers of 53 bits

The exponents of doubles start at -1074.  Apart from their largest exponent, which is not looked at
here, the doubles are the integers of 53 bits times such a power of two.  A number that is rounded
to the nearest of them is off by half of the last bit at most; where all 53 bits are used, this is
the part `2 ^ -53` of the number.
-/

namespace SphereIndex.Double

variable {a v w y : ℝ} {m e k : ℤ}

/-! ## 1. Numbers of 53 bits -/

/-- Whether 53 bits and an exponent of doubles, however large, are enough for the number. -/
def IsRepresentable (v : ℝ) : Prop := ∃ m e : ℤ, |m| < 2 ^ 53 ∧ -1074 ≤ e ∧ v = m * 2 ^ e

theorem two_zpow_pos (e : ℤ) : (0 : ℝ) < 2 ^ e := zpow_pos two_pos e

theorem two_zpow_le (h : e ≤ k) : (2 : ℝ) ^ e ≤ 2 ^ k := zpow_le_zpow_right₀ one_le_two h

theorem two_zpow_add (e k : ℤ) : (2 : ℝ) ^ (e + k) = 2 ^ e * 2 ^ k := zpow_add₀ two_ne_zero e k

theorem two_zpow_eq_pow_mul (h : k ≤ e) : (2 : ℝ) ^ e = 2 ^ (e - k).toNat * 2 ^ k := by
  rw [← zpow_natCast, ← two_zpow_add]
  congr 1
  omega

/-- A multiple of a power of two is one of every smaller power. -/
theorem exists_eq_mul_two_zpow (m : ℤ) (h : k ≤ e) : ∃ n : ℤ, (m : ℝ) * 2 ^ e = n * 2 ^ k := by
  refine ⟨m * 2 ^ (e - k).toNat, ?_⟩
  rw [two_zpow_eq_pow_mul h]
  push_cast
  ring

/-- A mantissa of 54 bits loses none of them if it is the least of these. -/
theorem isRepresentable_of_le (hm : |m| ≤ 2 ^ 53) (he : -1074 ≤ e) :
    IsRepresentable ((m : ℝ) * 2 ^ e) := by
  rcases hm.lt_or_eq with hlt | heq
  · exact ⟨m, e, hlt, he, rfl⟩
  · have hhalf {n : ℤ} (hn : |n| = 2 ^ 52) (hm : m = 2 * n) :
        IsRepresentable ((m : ℝ) * 2 ^ e) := by
      refine ⟨n, e + 1, by omega, by omega, ?_⟩
      rw [hm, two_zpow_add]
      push_cast
      ring
    rcases abs_choice m with h | h
    · exact hhalf (n := 2 ^ 52) (by decide) (by omega)
    · exact hhalf (n := -2 ^ 52) (by decide) (by omega)

theorem IsRepresentable.neg (h : IsRepresentable v) : IsRepresentable (-v) := by
  obtain ⟨m, e, hm, he, rfl⟩ := h
  exact ⟨-m, e, by rwa [abs_neg], he, by push_cast; ring⟩

theorem isRepresentable_zero : IsRepresentable 0 := ⟨0, 0, by decide, by decide, by simp⟩

theorem isRepresentable_two_zpow (he : -1074 ≤ e) : IsRepresentable (2 ^ e) :=
  ⟨1, e, by decide, he, by simp⟩

theorem isRepresentable_one : IsRepresentable 1 := ⟨1, 0, by decide, by decide, by simp⟩

/-- **The last bit of a number is no smaller than its size allows.** -/
theorem IsRepresentable.exists_eq_mul (h : IsRepresentable v) (hv : 2 ^ (k + 52) ≤ |v|) :
    ∃ n : ℤ, v = n * 2 ^ k := by
  obtain ⟨m, e, hm, -, rfl⟩ := h
  by_cases hke : k ≤ e
  · exact exists_eq_mul_two_zpow m hke
  · exfalso
    have hm' : |(m : ℝ)| < 2 ^ 53 := mod_cast hm
    have : |(m : ℝ) * 2 ^ e| < 2 ^ (k + 52) := by
      calc
        |(m : ℝ) * 2 ^ e| = |(m : ℝ)| * 2 ^ e := by rw [abs_mul, abs_of_pos (two_zpow_pos e)]
        _ < 2 ^ 53 * 2 ^ e := by
          have := two_zpow_pos e
          gcongr
        _ = 2 ^ (53 + e) := by rw [two_zpow_add]; norm_num
        _ ≤ 2 ^ (k + 52) := two_zpow_le (by omega)
    exact this.not_ge hv

/-- The last bit of every number is one of the smallest at least. -/
theorem IsRepresentable.exists_eq_mul_least (h : IsRepresentable v) :
    ∃ n : ℤ, v = n * 2 ^ (-1074 : ℤ) := by
  obtain ⟨m, e, -, he, rfl⟩ := h
  exact exists_eq_mul_two_zpow m he

/-- **Small sums take no more bits than their terms.** -/
theorem IsRepresentable.add (hv : IsRepresentable v) (hw : IsRepresentable w)
    (h : |v + w| ≤ 2 ^ (-1021 : ℤ)) : IsRepresentable (v + w) := by
  obtain ⟨m, hm⟩ := hv.exists_eq_mul_least
  obtain ⟨n, hn⟩ := hw.exists_eq_mul_least
  have hsum : v + w = ((m + n : ℤ) : ℝ) * 2 ^ (-1074 : ℤ) := by
    rw [hm, hn]
    push_cast
    ring
  have hbits : |((m + n : ℤ) : ℝ)| ≤ 2 ^ 53 := by
    rw [hsum, abs_mul, abs_of_pos (two_zpow_pos _)] at h
    rw [two_zpow_eq_pow_mul (k := -1074) (e := -1021) (by decide)] at h
    exact le_of_mul_le_mul_right h (two_zpow_pos _)
  rw [hsum]
  exact isRepresentable_of_le (mod_cast hbits) le_rfl

/-! ## 2. Rounding to the nearest -/

/-- **Rounding to the nearest number of 53 bits**, whichever is taken of two. -/
structure IsNearest (a v : ℝ) : Prop where
  isRepresentable : IsRepresentable a
  abs_sub_le : ∀ {y : ℝ}, IsRepresentable y → |a - v| ≤ |y - v|

theorem IsRepresentable.isNearest (h : IsRepresentable v) : IsNearest v v :=
  ⟨h, fun _ => by rw [sub_self, abs_zero]; exact abs_nonneg _⟩

namespace IsNearest

theorem neg (h : IsNearest a v) : IsNearest (-a) (-v) := by
  refine ⟨h.isRepresentable.neg, fun {y} hy => ?_⟩
  have := h.abs_sub_le hy.neg
  rwa [neg_sub_neg, abs_sub_comm, ← abs_neg (y - -v), neg_sub', neg_neg]

theorem eq (h : IsNearest a v) (hv : IsRepresentable v) : a = v := by
  have := h.abs_sub_le hv
  rw [sub_self, abs_zero] at this
  exact sub_eq_zero.1 (abs_eq_zero.1 (this.antisymm (abs_nonneg _)))

/-- Rounding does not pass by a number of 53 bits. -/
theorem le (h : IsNearest a v) (hy : IsRepresentable y) (hvy : v ≤ y) : a ≤ y := by
  by_contra hlt
  have := h.abs_sub_le hy
  rw [abs_of_nonneg (by linarith), abs_of_nonneg (by linarith)] at this
  linarith

theorem ge (h : IsNearest a v) (hy : IsRepresentable y) (hyv : y ≤ v) : y ≤ a := by
  have := h.neg.le hy.neg (neg_le_neg hyv)
  linarith

/-- **Rounding keeps the order** of numbers that differ. -/
theorem mono {b w : ℝ} (ha : IsNearest a v) (hb : IsNearest b w) (h : v < w) : a ≤ b := by
  by_contra hlt
  have hv := sq_le_sq.2 (ha.abs_sub_le hb.isRepresentable)
  have hw := sq_le_sq.2 (hb.abs_sub_le ha.isRepresentable)
  -- Each of the two is on its own side of the middle between the results.
  have hpos : 0 < a - b := sub_pos.2 (not_le.1 hlt)
  have hright : (a + b) / 2 ≤ v := by nlinarith
  have hleft : w ≤ (a + b) / 2 := by nlinarith
  linarith

theorem lt_of_lt (h : IsNearest a v) (hy : IsRepresentable y) (hay : a < y) : v < y :=
  not_le.1 fun hyv => (h.ge hy hyv).not_gt hay

theorem abs_le_two_zpow (h : IsNearest a v) (he : -1074 ≤ e) (hv : |v| ≤ 2 ^ e) : |a| ≤ 2 ^ e := by
  have hpow := isRepresentable_two_zpow he
  obtain ⟨hlow, hhigh⟩ := abs_le.1 hv
  exact abs_le.2 ⟨h.ge hpow.neg hlow, h.le hpow hhigh⟩

theorem nonneg (h : IsNearest a v) (hv : 0 ≤ v) : 0 ≤ a := h.ge isRepresentable_zero hv

/-- **Rounding does not pass by the middle** between a number and the next one of its last bit. -/
theorem le_of_lt_middle {i : ℤ} (h : IsNearest a v) (hk : -1074 ≤ k) (hi : |i| ≤ 2 ^ 53)
    (hlarge : (2 : ℝ) ^ (k + 52) ≤ i * 2 ^ k) (hv : v < (i + 1 / 2) * 2 ^ k) : a ≤ i * 2 ^ k := by
  have hpos := two_zpow_pos k
  have hy := isRepresentable_of_le hi hk
  by_contra hlt
  rw [not_le] at hlt
  obtain ⟨j, hj⟩ := h.isRepresentable.exists_eq_mul (hlarge.trans (hlt.le.trans (le_abs_self a)))
  have hij : i + 1 ≤ j := Int.cast_lt.1 (lt_of_mul_lt_mul_right (hj ▸ hlt) hpos.le)
  have hnext : ((i : ℝ) + 1) * 2 ^ k ≤ a := by
    rw [hj]
    gcongr
    exact_mod_cast hij
  rcases le_total v (i * 2 ^ k) with hle | hge
  · exact (h.le hy hle).not_gt hlt
  · have hnear := h.abs_sub_le hy
    rw [abs_of_nonneg (a := a - v) (by linarith), abs_of_nonpos (by linarith)] at hnear
    linarith

theorem ge_of_middle_lt {i : ℤ} (h : IsNearest a v) (hk : -1074 ≤ k) (hi : |i| ≤ 2 ^ 53)
    (hlarge : (2 : ℝ) ^ (k + 52) ≤ (i - 1) * 2 ^ k) (hv : (i - 1 / 2) * 2 ^ k < v) :
    i * 2 ^ k ≤ a := by
  have hpos := two_zpow_pos k
  have hy := isRepresentable_of_le hi hk
  by_contra hlt
  rw [not_le] at hlt
  have ha := h.ge (isRepresentable_two_zpow (e := k + 52) (by omega)) (by linarith)
  obtain ⟨j, hj⟩ := h.isRepresentable.exists_eq_mul (ha.trans (le_abs_self a))
  have hij : j + 1 ≤ i := Int.cast_lt.1 (lt_of_mul_lt_mul_right (hj ▸ hlt) hpos.le)
  have hprev : a ≤ ((i : ℝ) - 1) * 2 ^ k := by
    rw [hj]
    gcongr
    exact_mod_cast le_sub_iff_add_le.2 hij
  rcases le_total ((i : ℝ) * 2 ^ k) v with hge | hle
  · exact (h.ge hy hge).not_gt hlt
  · have hnear := h.abs_sub_le hy
    rw [abs_of_nonpos (a := a - v) (by linarith), abs_of_nonneg (by linarith)] at hnear
    linarith

/-! ## 3. Errors -/

/-- **The error is half of the last bit at most.** -/
theorem error_le (h : IsNearest a v) (he : -1075 ≤ e) (hv : |v| ≤ 2 ^ (e + 54)) :
    |a - v| ≤ 2 ^ e := by
  have hpos := two_zpow_pos (e + 1)
  have hround := abs_sub_round (v / 2 ^ (e + 1))
  -- A bound of the number is one of the integers that it is rounded among.
  have hbits : |round (v / 2 ^ (e + 1))| ≤ 2 ^ 53 := by
    have hquot : |v / 2 ^ (e + 1)| ≤ 2 ^ 53 := by
      rw [abs_div, abs_of_pos hpos, div_le_iff₀ hpos, ← zpow_natCast, ← two_zpow_add]
      exact hv.trans_eq (by congr 1; push_cast; ring)
    have hlt : |(round (v / 2 ^ (e + 1)) : ℝ)| < 2 ^ 53 + 1 := by
      have := abs_sub_abs_le_abs_sub (round (v / 2 ^ (e + 1)) : ℝ) (v / 2 ^ (e + 1))
      rw [abs_sub_comm] at this
      linarith
    exact Int.lt_add_one_iff.1 (mod_cast hlt)
  calc
    |a - v| ≤ |round (v / 2 ^ (e + 1)) * 2 ^ (e + 1) - v| :=
      h.abs_sub_le (isRepresentable_of_le hbits (by omega))
    _ = |v / 2 ^ (e + 1) - round (v / 2 ^ (e + 1))| * 2 ^ (e + 1) := by
      rw [← abs_of_pos hpos, ← abs_mul, abs_of_pos hpos, abs_sub_comm]
      congr 1
      field_simp
    _ ≤ 1 / 2 * 2 ^ (e + 1) := by gcongr
    _ = 2 ^ e := by
      rw [two_zpow_add]
      ring

/-- The error of a number that all bits are used for. -/
theorem error_le_mul (h : IsNearest a v) (hv : 2 ^ (-1022 : ℤ) ≤ |v|) :
    |a - v| ≤ 2 ^ (-53 : ℤ) * |v| := by
  have hpos : 0 < |v| := (two_zpow_pos _).trans_le hv
  obtain ⟨n, hlow, hhigh⟩ := exists_mem_Ico_zpow hpos one_lt_two
  have hn : -1022 ≤ n := by
    by_contra hlt
    exact (hv.trans_lt hhigh).not_ge (two_zpow_le (by omega))
  calc
    |a - v| ≤ 2 ^ (-53 + n) := h.error_le (by omega) (hhigh.le.trans_eq (by congr 1; ring))
    _ = 2 ^ (-53 : ℤ) * 2 ^ n := two_zpow_add (-53) n
    _ ≤ 2 ^ (-53 : ℤ) * |v| := by gcongr

/-- **The error of any number**: below all bits, half of the smallest is added. -/
theorem error_le_add (h : IsNearest a v) :
    |a - v| ≤ 2 ^ (-53 : ℤ) * |v| + 2 ^ (-1075 : ℤ) := by
  rcases le_total (2 ^ (-1022 : ℤ)) |v| with hv | hv
  · exact (h.error_le_mul hv).trans (le_add_of_nonneg_right (two_zpow_pos _).le)
  · have := h.error_le (e := -1075) le_rfl (hv.trans (two_zpow_le (by decide)))
    refine this.trans (le_add_of_nonneg_left ?_)
    exact mul_nonneg (two_zpow_pos _).le (abs_nonneg _)

/-- Small sums are exact, so that a sum has all its bits or no error. -/
theorem error_add_le (h : IsNearest a (v + w)) (hv : IsRepresentable v) (hw : IsRepresentable w) :
    |a - (v + w)| ≤ 2 ^ (-53 : ℤ) * |v + w| := by
  rcases le_total (2 ^ (-1022 : ℤ)) |v + w| with hsum | hsum
  · exact h.error_le_mul hsum
  · rw [h.eq (hv.add hw (hsum.trans (two_zpow_le (by decide)))), sub_self, abs_zero]
    exact mul_nonneg (two_zpow_pos _).le (abs_nonneg _)

end IsNearest

end SphereIndex.Double
