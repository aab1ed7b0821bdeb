import Mathlib.Analysis.Real.Sqrt
import Mathlib.Tactic.LinearCombination
import SphereIndex.Proofs.Double.Nearest

/-!
# The error of normalizing

A vector is normalized by the rounded reciprocal of its rounded length.  The squared length after
that is off by the errors of the first squared length, of the root and the reciprocal, of the
coordinates and of the second squared length.  Unless the first one is so small that its last bits
are lost, these add up to less than 11 times `2 ^ -53` above 1 and 10.5 times below, which leaves
ten steps of the doubles below 1 on either side.
-/

namespace SphereIndex.Double

variable {x y z x' y' z' n l r d m : ℝ}

/-! ## 1. Squared lengths -/

/-- **The squared length of a vector, with the rounding of its squares and of their sums.** -/
inductive IsLengthSquared (x y z n : ℝ) : Prop where
  | mk {p q r s : ℝ} (hp : IsNearest p (x * x)) (hq : IsNearest q (y * y))
      (hr : IsNearest r (z * z)) (hs : IsNearest s (p + q)) (hn : IsNearest n (s + r))

theorem two_zpow_neg_53 : (2 : ℝ) ^ (-53 : ℤ) = 1 / 9007199254740992 := by norm_num

/-- How small the error of one rounding is beside the sum of such errors. -/
theorem two_zpow_neg_53_le : (2 : ℝ) ^ (-53 : ℤ) ≤ 1 / 10000 := by norm_num

/-- Powers of two by the largest error where the last bits are lost. -/
theorem two_zpow_sub_eq (i : ℕ) : (2 : ℝ) ^ ((i : ℤ) - 1075) = 2 ^ i * 2 ^ (-1075 : ℤ) := by
  rw [sub_eq_add_neg, two_zpow_add, zpow_natCast]

section

variable {p q r s : ℝ} (hp : IsNearest p (x * x)) (hq : IsNearest q (y * y))
  (hr : IsNearest r (z * z)) (hs : IsNearest s (p + q)) (hn : IsNearest n (s + r))

theorem error_lengthSquared_le :
    |n - (x * x + y * y + z * z)| ≤
      |p - x * x| + |q - y * y| + |r - z * z| + |s - (p + q)| + |n - (s + r)| := by
  calc
    |n - (x * x + y * y + z * z)|
      = |p - x * x + (q - y * y) + (r - z * z) + (s - (p + q)) + (n - (s + r))| := by
        congr 1
        ring
    _ ≤ |p - x * x + (q - y * y) + (r - z * z) + (s - (p + q))| + |n - (s + r)| := abs_add_le _ _
    _ ≤ |p - x * x + (q - y * y) + (r - z * z)| + |s - (p + q)| + |n - (s + r)| := by
      gcongr
      exact abs_add_le _ _
    _ ≤ _ := by
      gcongr
      exact abs_add_three _ _ _

include hp hq hr hs hn

theorem nonneg_lengthSquared : 0 ≤ p ∧ 0 ≤ q ∧ 0 ≤ r ∧ 0 ≤ s ∧ 0 ≤ n := by
  have hp0 := hp.nonneg (mul_self_nonneg x)
  have hq0 := hq.nonneg (mul_self_nonneg y)
  have hr0 := hr.nonneg (mul_self_nonneg z)
  have hs0 := hs.nonneg (add_nonneg hp0 hq0)
  exact ⟨hp0, hq0, hr0, hs0, hn.nonneg (add_nonneg hs0 hr0)⟩

/-- From here on what the squares lose of their last bits is a small part of the error. -/
theorem error_of_large (hlow : 2 ^ (-1020 : ℤ) ≤ n) :
    |n - (x * x + y * y + z * z)| ≤ 393 / 100 * 2 ^ (-53 : ℤ) * n := by
  obtain ⟨hp0, hq0, hr0, hs0, -⟩ := nonneg_lengthSquared hp hq hr hs hn
  have ep := hp.error_le_add
  have eq := hq.error_le_add
  have er := hr.error_le_add
  have es := hs.error_add_le hp.isRepresentable hq.isRepresentable
  have en := hn.error_add_le hs.isRepresentable hr.isRepresentable
  rw [abs_of_nonneg (mul_self_nonneg x)] at ep
  rw [abs_of_nonneg (mul_self_nonneg y)] at eq
  rw [abs_of_nonneg (mul_self_nonneg z)] at er
  rw [abs_of_nonneg (add_nonneg hp0 hq0)] at es
  rw [abs_of_nonneg (add_nonneg hs0 hr0)] at en
  have hpow := two_zpow_sub_eq 55
  norm_num only at hpow
  rw [hpow] at hlow
  generalize (2 : ℝ) ^ (-1075 : ℤ) = t at *
  rw [two_zpow_neg_53, abs_le] at *
  constructor <;> linarith

/-- A squared length below a power of two is the sum of such squares. -/
theorem lt_of_lengthSquared_lt {k : ℤ} (hk : -1074 ≤ k) (hlt : n < 2 ^ k) :
    x * x < 2 ^ k ∧ y * y < 2 ^ k ∧ z * z < 2 ^ k ∧ p + q < 2 ^ k ∧ s + r < 2 ^ k := by
  obtain ⟨hp0, hq0, hr0, hs0, -⟩ := nonneg_lengthSquared hp hq hr hs hn
  have hpow := isRepresentable_two_zpow hk
  have hsr := hn.lt_of_lt hpow hlt
  have hpq := hs.lt_of_lt hpow (by linarith)
  exact ⟨hp.lt_of_lt hpow (by linarith), hq.lt_of_lt hpow (by linarith),
    hr.lt_of_lt hpow (by linarith), hpq, hsr⟩

/-- The sums of small squares are exact. -/
theorem error_of_small (hlow : 2 ^ (-1022 : ℤ) ≤ n) (hhigh : n < 2 ^ (-1021 : ℤ)) :
    |n - (x * x + y * y + z * z)| ≤ 393 / 100 * 2 ^ (-53 : ℤ) * n := by
  obtain ⟨hp0, hq0, hr0, hs0, -⟩ := nonneg_lengthSquared hp hq hr hs hn
  obtain ⟨hx, hy, hz, hpq, hsr⟩ := lt_of_lengthSquared_lt hp hq hr hs hn (by decide) hhigh
  have hn' := hn.eq (hs.isRepresentable.add hr.isRepresentable
    (by rw [abs_of_nonneg (by linarith)]; exact hsr.le))
  have hs' := hs.eq (hp.isRepresentable.add hq.isRepresentable
    (by rw [abs_of_nonneg (by linarith)]; exact hpq.le))
  have hsquare {p v : ℝ} (hp : IsNearest p (v * v)) (hlt : v * v < 2 ^ (-1021 : ℤ)) :
      |p - v * v| ≤ 2 ^ (-1075 : ℤ) :=
    hp.error_le le_rfl (by rw [abs_of_nonneg (mul_self_nonneg v)]; exact hlt.le)
  have ep := hsquare hp hx
  have eq := hsquare hq hy
  have er := hsquare hr hz
  have hpow := two_zpow_sub_eq 53
  norm_num only at hpow
  rw [hpow] at hlow
  generalize (2 : ℝ) ^ (-1075 : ℤ) = t at *
  rw [two_zpow_neg_53, abs_le] at *
  constructor <;> linarith

/-- Between these bounds one of the squares at most has the larger error. -/
theorem error_of_middle (hhigh : n < 2 ^ (-1020 : ℤ)) :
    |n - (x * x + y * y + z * z)| ≤ 2 ^ (-1072 : ℤ) := by
  obtain ⟨hp0, hq0, hr0, hs0, -⟩ := nonneg_lengthSquared hp hq hr hs hn
  obtain ⟨hx, hy, hz, hpq, hsr⟩ := lt_of_lengthSquared_lt hp hq hr hs hn (by decide) hhigh
  have hpow := isRepresentable_two_zpow (e := -1021) (by decide)
  have hbound {a v : ℝ} (ha : IsNearest a v) (hv : 0 ≤ v) (hlt : v < 2 ^ (-1020 : ℤ)) :
      |a - v| ≤ 2 ^ (-1074 : ℤ) :=
    ha.error_le (by decide) (by rw [abs_of_nonneg hv]; exact hlt.le)
  have hsmaller {a v : ℝ} (ha : IsNearest a (v * v)) (hlt : a < 2 ^ (-1021 : ℤ)) :
      |a - v * v| ≤ 2 ^ (-1075 : ℤ) :=
    ha.error_le le_rfl (by
      rw [abs_of_nonneg (mul_self_nonneg v)]
      exact (ha.lt_of_lt hpow hlt).le)
  have ep := hbound hp (mul_self_nonneg x) hx
  have eq := hbound hq (mul_self_nonneg y) hy
  have er := hbound hr (mul_self_nonneg z) hz
  have es := hbound hs (add_nonneg hp0 hq0) hpq
  have en := hbound hn (add_nonneg hs0 hr0) hsr
  have herror := error_lengthSquared_le (x := x) (y := y) (z := z) (p := p) (q := q) (r := r)
    (s := s) (n := n)
  have h1074 := two_zpow_sub_eq 1
  have h1072 := two_zpow_sub_eq 3
  have h1020 : (2 : ℝ) ^ (-1020 : ℤ) = 2 ^ (-1021 : ℤ) + 2 ^ (-1021 : ℤ) := by
    rw [← two_mul, ← zpow_one_add₀ two_ne_zero]
    norm_num
  norm_num only at h1074 h1072
  rw [h1074] at ep eq er es en
  rw [h1020] at hpq hsr
  rw [h1072]
  -- Two squares of the upper half would have a sum above the bound.
  rcases lt_or_ge (p + q) (2 ^ (-1021 : ℤ)) with hlt | hge
  · have := hsmaller hp (by linarith)
    have := hsmaller hq (by linarith)
    linarith
  · have hs1 := hs.ge hpow hge
    have := hsmaller hr (by linarith)
    rcases le_total p q with hle | hle
    · have := hsmaller hp (by linarith)
      linarith
    · have := hsmaller hq (by linarith)
      linarith

end

/-- **The error of a squared length that has all bits**: it is largest just above `2 ^ -1021`, since
the last bits of smaller squares and sums get no smaller. -/
theorem IsLengthSquared.error_le (h : IsLengthSquared x y z n) (hlow : 2 ^ (-1022 : ℤ) ≤ n) :
    |n - (x * x + y * y + z * z)| ≤ 393 / 100 * 2 ^ (-53 : ℤ) * n ∨
      2 ^ (-1021 : ℤ) ≤ n ∧ n ≤ 102 / 100 * 2 ^ (-1021 : ℤ) ∧
        |n - (x * x + y * y + z * z)| ≤ 4 * 2 ^ (-53 : ℤ) * n := by
  obtain ⟨hp, hq, hr, hs, hn⟩ := h
  rcases lt_or_ge n (2 ^ (-1021 : ℤ)) with hsmall | hmiddle
  · exact .inl (error_of_small hp hq hr hs hn hlow hsmall)
  rcases le_or_gt (2 ^ (-1020 : ℤ)) n with hlarge | hhigh
  · exact .inl (error_of_large hp hq hr hs hn hlarge)
  · have herror := error_of_middle hp hq hr hs hn hhigh
    have hunit : (2 : ℝ) ^ (-1072 : ℤ) = 4 * 2 ^ (-53 : ℤ) * 2 ^ (-1021 : ℤ) := by
      rw [mul_assoc, ← two_zpow_add, show (4 : ℝ) = 2 ^ (2 : ℤ) by norm_num, ← two_zpow_add]
      norm_num
    rw [hunit] at herror
    have hpos := two_zpow_pos (-53)
    generalize (2 : ℝ) ^ (-1021 : ℤ) = w at *
    rcases le_total n (102 / 100 * w) with hle | hge
    · refine .inr ⟨hmiddle, hle, herror.trans ?_⟩
      gcongr
    · refine .inl (herror.trans ?_)
      have := mul_le_mul_of_nonneg_left hge hpos.le
      linarith

theorem IsLengthSquared.eq_zero (h : IsLengthSquared 0 0 0 n) : n = 0 := by
  obtain ⟨hp, hq, hr, hs, hn⟩ := h
  rw [mul_zero] at hp hq hr
  obtain rfl := hp.eq isRepresentable_zero
  obtain rfl := hq.eq isRepresentable_zero
  obtain rfl := hr.eq isRepresentable_zero
  rw [add_zero] at hs
  obtain rfl := hs.eq isRepresentable_zero
  rw [add_zero] at hn
  exact hn.eq isRepresentable_zero

/-! ## 2. Reciprocals of lengths -/

/-- The error of a rounded root and of its rounded reciprocal, by the place of the root between two
powers of two. -/
theorem error_reciprocal_le {v : ℝ} {e : ℤ} (he : -1000 ≤ e) (he' : e ≤ 1000) (hlow : 2 ^ e ≤ v)
    (hhigh : v ≤ 2 ^ (e + 1)) (hl : IsNearest l v) (hr : IsNearest r (1 / l)) :
    2 ^ e ≤ l ∧ l ≤ 2 ^ (e + 1) ∧ |l - v| ≤ 2 ^ (-53 : ℤ) * 2 ^ e ∧
      |r * v - 1| ≤ 2 ^ (-53 : ℤ) * (l / 2 ^ e / 2 + 2 ^ e / l + 2 ^ (-53 : ℤ)) := by
  have hpos := two_zpow_pos e
  have hu := two_zpow_pos (-53)
  have hl1 := hl.ge (isRepresentable_two_zpow (by omega)) hlow
  have hl2 := hl.le (isRepresentable_two_zpow (by omega)) hhigh
  have hl0 : 0 < l := hpos.trans_le hl1
  have el : |l - v| ≤ 2 ^ (-53 : ℤ) * 2 ^ e := by
    rw [← two_zpow_add]
    refine hl.error_le (by omega) ?_
    rw [abs_of_nonneg (hpos.le.trans hlow)]
    exact hhigh.trans_eq (by congr 1; ring)
  -- The reciprocal lies between two powers of two as well.
  have er : |r - 1 / l| ≤ 2 ^ (-53 : ℤ) / 2 * (2 ^ e)⁻¹ := by
    have hsplit : (2 : ℝ) ^ (-53 : ℤ) / 2 * (2 ^ e)⁻¹ = 2 ^ (-54 - e) := by
      rw [← zpow_neg, show (2 : ℝ) ^ (-53 : ℤ) / 2 = 2 ^ (-54 : ℤ) by norm_num, ← two_zpow_add,
        sub_eq_add_neg]
    rw [hsplit]
    refine hr.error_le (by omega) ?_
    rw [abs_of_nonneg (one_div_nonneg.2 hl0.le)]
    calc
      1 / l ≤ 1 / 2 ^ e := one_div_le_one_div_of_le hpos hl1
      _ = 2 ^ (-54 - e + 54) := by
        rw [one_div, ← zpow_neg]
        congr 1
        ring
  refine ⟨hl1, hl2, el, ?_⟩
  have hv0 : 0 < v := hpos.trans_le hlow
  calc
    |r * v - 1| = |(r - 1 / l) * v + (v - l) / l| := by
      congr 1
      field_simp
      ring
    _ ≤ |(r - 1 / l) * v| + |(v - l) / l| := abs_add_le _ _
    _ = |r - 1 / l| * v + |l - v| / l := by
      rw [abs_mul, abs_div, abs_of_pos hv0, abs_of_pos hl0, abs_sub_comm v l]
    _ ≤ 2 ^ (-53 : ℤ) / 2 * (2 ^ e)⁻¹ * v + 2 ^ (-53 : ℤ) * 2 ^ e / l := by gcongr
    _ ≤ 2 ^ (-53 : ℤ) / 2 * (2 ^ e)⁻¹ * (l + 2 ^ (-53 : ℤ) * 2 ^ e) +
        2 ^ (-53 : ℤ) * 2 ^ e / l := by
      have := (abs_le.1 el).1
      gcongr
      linarith
    _ = 2 ^ (-53 : ℤ) * (l / 2 ^ e / 2 + 2 ^ e / l + 2 ^ (-53 : ℤ) / 2) := by
      generalize (2 : ℝ) ^ (-53 : ℤ) = u
      field_simp
      ring
    _ ≤ 2 ^ (-53 : ℤ) * (l / 2 ^ e / 2 + 2 ^ e / l + 2 ^ (-53 : ℤ)) := by
      gcongr
      exact half_le_self hu.le

/-- Where the lengths are whose squares have all bits. -/
theorem sqrt_mem_Icc (hlow : 2 ^ (-1022 : ℤ) ≤ n) (hhigh : n ≤ 2 ^ (1024 : ℤ)) :
    (2 : ℝ) ^ (-511 : ℤ) ≤ √n ∧ √n ≤ 2 ^ (512 : ℤ) := by
  have hroot (k : ℤ) : √((2 : ℝ) ^ (2 * k)) = 2 ^ k := by
    rw [two_mul, two_zpow_add, Real.sqrt_mul_self (two_zpow_pos k).le]
  exact ⟨(hroot (-511)).symm.trans_le (Real.sqrt_le_sqrt hlow),
    (Real.sqrt_le_sqrt hhigh).trans_eq (hroot 512)⟩

/-- **The reciprocal of a length** is off by 1.5 times the error of one rounding. -/
theorem error_reciprocal (hlow : 2 ^ (-1022 : ℤ) ≤ n) (hhigh : n ≤ 2 ^ (1024 : ℤ))
    (hl : IsNearest l √n) (hr : IsNearest r (1 / l)) :
    |r * √n - 1| ≤ 1501 / 1000 * 2 ^ (-53 : ℤ) := by
  obtain ⟨hv1, hv2⟩ := sqrt_mem_Icc hlow hhigh
  obtain ⟨e, he1, he2⟩ := exists_mem_Ico_zpow ((two_zpow_pos _).trans_le hv1) one_lt_two
  have hlow' : -511 < e + 1 := (zpow_lt_zpow_iff_right₀ one_lt_two).1 (hv1.trans_lt he2)
  have hhigh' : e ≤ 512 := (zpow_le_zpow_iff_right₀ one_lt_two).1 (he1.trans hv2)
  obtain ⟨hl1, hl2, -, hr'⟩ := error_reciprocal_le (by omega) (by omega) he1 he2.le hl hr
  refine hr'.trans ?_
  rw [mul_comm]
  have hpos := two_zpow_pos e
  have hl0 := hpos.trans_le hl1
  gcongr
  -- With the length between 1 and 2 this is largest at both ends.
  have : l / 2 ^ e / 2 + 2 ^ e / l ≤ 3 / 2 := by
    rw [two_zpow_add, zpow_one] at hl2
    generalize (2 : ℝ) ^ e = c at *
    rw [div_div, div_add_div _ _ (by positivity) hl0.ne', div_le_div_iff₀ (by positivity) two_pos]
    nlinarith
  linarith [two_zpow_neg_53_le]

/-- The reciprocals of the lengths whose squares have the largest error have a smaller one. -/
theorem error_reciprocal_middle (hlow : 2 ^ (-1021 : ℤ) ≤ n)
    (hhigh : n ≤ 102 / 100 * 2 ^ (-1021 : ℤ)) (hl : IsNearest l √n) (hr : IsNearest r (1 / l)) :
    |r * √n - 1| ≤ 1421 / 1000 * 2 ^ (-53 : ℤ) := by
  have hpos := two_zpow_pos (-511)
  have hsquare : (2 : ℝ) ^ (-1021 : ℤ) = 2 * (2 ^ (-511 : ℤ) * 2 ^ (-511 : ℤ)) := by
    rw [← two_zpow_add, ← zpow_one_add₀ two_ne_zero]
    norm_num
  rw [hsquare] at hlow hhigh
  have hv1 : 1414 / 1000 * 2 ^ (-511 : ℤ) ≤ √n := Real.le_sqrt_of_sq_le (by nlinarith)
  have hv2 : √n ≤ 1429 / 1000 * 2 ^ (-511 : ℤ) :=
    Real.sqrt_le_iff.2 ⟨by linarith, by nlinarith⟩
  obtain ⟨hl1, -, el, hr'⟩ := error_reciprocal_le (e := -511) (by decide) (by decide)
    (by linarith) (by rw [two_zpow_add, zpow_one]; linarith) hl hr
  refine hr'.trans ?_
  rw [mul_comm]
  have hl0 := hpos.trans_le hl1
  gcongr
  -- Here the length is close to the root of 2, where it is smallest.
  obtain ⟨el1, el2⟩ := abs_le.1 el
  have hu := two_zpow_neg_53_le
  have : l / 2 ^ (-511 : ℤ) / 2 + 2 ^ (-511 : ℤ) / l ≤ 142 / 100 := by
    generalize (2 : ℝ) ^ (-511 : ℤ) = c at *
    generalize (2 : ℝ) ^ (-53 : ℤ) = u at *
    have hc := mul_le_mul_of_nonneg_right hu hpos.le
    have h1 : 141 / 100 * c ≤ l := by linarith
    have h2 : l ≤ 143 / 100 * c := by linarith
    rw [div_div, div_add_div _ _ (by positivity) hl0.ne', div_le_div_iff₀ (by positivity)
      (by norm_num)]
    nlinarith [mul_nonneg (sub_nonneg.2 h1) (sub_nonneg.2 h2)]
  linarith

/-- The exact squared length of a vector that is divided by its length without rounding. -/
theorem error_scale_le {a k t w c : ℝ} (ha : |a - 1| ≤ k) (hw : |n - w| ≤ t * n)
    (hc : c * n = a * a) (hc0 : 0 ≤ c) (ht : 0 ≤ t) :
    |c * w - 1| ≤ k * (2 + k) + t * ((1 + k) * (1 + k)) := by
  have hk : 0 ≤ k := (abs_nonneg _).trans ha
  obtain ⟨ha1, ha2⟩ := abs_le.1 ha
  have hle : |a + 1| ≤ 2 + k := abs_le.2 ⟨by linarith, by linarith⟩
  have hsquare : a * a ≤ (1 + k) * (1 + k) := by
    rw [← abs_mul_abs_self a]
    have : |a| ≤ 1 + k := abs_le.2 ⟨by linarith, by linarith⟩
    gcongr
  calc
    |c * w - 1| = |(a - 1) * (a + 1) + c * (w - n)| := by
      congr 1
      linear_combination hc
    _ ≤ |(a - 1) * (a + 1)| + |c * (w - n)| := abs_add_le _ _
    _ = |a - 1| * |a + 1| + c * |n - w| := by
      rw [abs_mul, abs_mul, abs_of_nonneg hc0, abs_sub_comm w]
    _ ≤ k * (2 + k) + c * (t * n) := by gcongr
    _ = k * (2 + k) + t * (a * a) := by rw [mul_left_comm, hc]
    _ ≤ k * (2 + k) + t * ((1 + k) * (1 + k)) := by gcongr

/-- **A rounded reciprocal of the length scales a vector to the unit sphere**, but for its error. -/
theorem IsLengthSquared.error_scale (h : IsLengthSquared x y z n) (hlow : 2 ^ (-1022 : ℤ) ≤ n)
    (hhigh : n ≤ 2 ^ (1024 : ℤ)) (hl : IsNearest l √n) (hr : IsNearest r (1 / l)) :
    |r * r * (x * x + y * y + z * z) - 1| ≤ 694 / 100 * 2 ^ (-53 : ℤ) := by
  have hn : 0 ≤ n := (two_zpow_pos _).le.trans hlow
  have hscale : r * r * n = r * √n * (r * √n) := by
    linear_combination (-r * r) * Real.mul_self_sqrt hn
  have hu := two_zpow_pos (-53)
  have hu' := two_zpow_neg_53_le
  rcases h.error_le hlow with herror | ⟨hmiddle, hmiddle', herror⟩
  · refine (error_scale_le (error_reciprocal hlow hhigh hl hr) herror hscale
      (mul_self_nonneg r) (by positivity)).trans ?_
    generalize (2 : ℝ) ^ (-53 : ℤ) = u at *
    have := mul_le_mul_of_nonneg_right hu' hu.le
    have := mul_le_mul_of_nonneg_right hu' (mul_self_nonneg u)
    linarith
  · refine (error_scale_le (error_reciprocal_middle hmiddle hmiddle' hl hr) herror hscale
      (mul_self_nonneg r) (by positivity)).trans ?_
    generalize (2 : ℝ) ^ (-53 : ℤ) = u at *
    have := mul_le_mul_of_nonneg_right hu' hu.le
    have := mul_le_mul_of_nonneg_right hu' (mul_self_nonneg u)
    linarith

/-! ## 3. Lengths of scaled vectors -/

/-- The square of a rounded coordinate. -/
theorem error_square {w q : ℝ} (hw : |w| ≤ 2) (hx : IsNearest x w) (hq : IsNearest q (x * x)) :
    |q - w * w| ≤ 301 / 100 * 2 ^ (-53 : ℤ) * (w * w) + 10 * 2 ^ (-1075 : ℤ) := by
  have ex := hx.error_le_add
  have eq := hq.error_le_add
  have hu := two_zpow_pos (-53)
  have hu' := two_zpow_neg_53_le
  have ht := two_zpow_pos (-1075)
  have ht' : (2 : ℝ) ^ (-1075 : ℤ) ≤ 2 ^ (-53 : ℤ) := two_zpow_le (by decide)
  generalize (2 : ℝ) ^ (-53 : ℤ) = u at *
  generalize (2 : ℝ) ^ (-1075 : ℤ) = t at *
  rw [abs_of_nonneg (mul_self_nonneg x)] at eq
  have hx' : |x| ≤ (1 + u) * |w| + t := by
    have := abs_add_le (x - w) w
    rw [sub_add_cancel] at this
    linarith
  have hw0 := abs_nonneg w
  have hsquare : |x * x - w * w| ≤ (u * |w| + t) * ((2 + u) * |w| + t) := by
    rw [mul_self_sub_mul_self, mul_comm, abs_mul]
    have := abs_add_le x w
    gcongr
    linarith
  have hsquare' : |x * x - w * w| ≤ 2001 / 1000 * u * (w * w) + 5 * t := by
    have h0 := mul_nonneg hu.le (mul_self_nonneg |w|)
    have h1 := mul_le_mul_of_nonneg_right hu' h0
    have h2 := mul_le_mul_of_nonneg_left hw ht.le
    have h3 := mul_le_mul_of_nonneg_right hu' (mul_nonneg ht.le hw0)
    have h4 := mul_le_mul_of_nonneg_right (ht'.trans hu') ht.le
    rw [← abs_mul_abs_self w] at hsquare ⊢
    linarith
  calc
    |q - w * w| ≤ |q - x * x| + |x * x - w * w| := abs_sub_le _ _ _
    _ ≤ u * (x * x) + t + |x * x - w * w| := by gcongr
    _ ≤ 301 / 100 * u * (w * w) + 10 * t := by
      have h0 := mul_nonneg hu.le (mul_self_nonneg w)
      have h1 := (abs_le.1 hsquare').2
      have h2 := mul_le_mul_of_nonneg_left h1 hu.le
      have h3 := mul_le_mul_of_nonneg_right hu' h0
      have h4 := mul_le_mul_of_nonneg_right hu' ht.le
      linarith

/-- The coordinates of a vector that is scaled to the unit sphere. -/
theorem abs_le_two_of_scaled
    (h : |r * r * (x * x + y * y + z * z) - 1| ≤ 694 / 100 * 2 ^ (-53 : ℤ)) :
    |x * r| ≤ 2 ∧ |y * r| ≤ 2 ∧ |z * r| ≤ 2 := by
  have hu' := two_zpow_neg_53_le
  have hsum := (abs_le.1 h).2
  have hx := mul_self_nonneg (x * r)
  have hy := mul_self_nonneg (y * r)
  have hz := mul_self_nonneg (z * r)
  have hle {w : ℝ} (hw : w * w ≤ 2) : |w| ≤ 2 :=
    abs_le_of_sq_le_sq (by linarith) zero_le_two
  exact ⟨hle (by linarith), hle (by linarith), hle (by linarith)⟩

section

variable {p q o s : ℝ} (hx : IsNearest x' (x * r)) (hy : IsNearest y' (y * r))
  (hz : IsNearest z' (z * r)) (hp : IsNearest p (x' * x')) (hq : IsNearest q (y' * y'))
  (ho : IsNearest o (z' * z')) (hs : IsNearest s (p + q))
  (h : |r * r * (x * x + y * y + z * z) - 1| ≤ 694 / 100 * 2 ^ (-53 : ℤ))
include hx hy hz hp hq ho hs h

/-- **The squared length of a scaled vector** before its last rounding. -/
theorem lengthSquared_of_scaled :
    1 - 21 / 2 * 2 ^ (-53 : ℤ) < s + o ∧ s + o < 1 + 11 * 2 ^ (-53 : ℤ) := by
  obtain ⟨hx2, hy2, hz2⟩ := abs_le_two_of_scaled h
  have hp0 := hp.nonneg (mul_self_nonneg x')
  have hq0 := hq.nonneg (mul_self_nonneg y')
  have ho0 := ho.nonneg (mul_self_nonneg z')
  have ep := abs_le.1 (error_square hx2 hx hp)
  have eq := abs_le.1 (error_square hy2 hy hq)
  have eo := abs_le.1 (error_square hz2 hz ho)
  have es := hs.error_add_le hp.isRepresentable hq.isRepresentable
  rw [abs_of_nonneg (add_nonneg hp0 hq0)] at es
  -- Where the sum of two squares is below 1, its last bit is smaller.
  have es' : 1 ≤ s ∨ |s - (p + q)| ≤ 2 ^ (-53 : ℤ) / 2 := by
    rcases le_total 1 (p + q) with hge | hle
    · exact .inl (hs.ge isRepresentable_one hge)
    · right
      have := hs.error_le (e := -54) (by decide) (by simpa [abs_of_nonneg (add_nonneg hp0 hq0)])
      norm_num at this ⊢
      exact this
  have hu := two_zpow_pos (-53)
  have hu' := two_zpow_neg_53_le
  have ht : (2 : ℝ) ^ (-1075 : ℤ) ≤ 1 / 10000 * 2 ^ (-53 : ℤ) :=
    calc
      (2 : ℝ) ^ (-1075 : ℤ) ≤ 2 ^ (-53 + -53 : ℤ) := two_zpow_le (by decide)
      _ = 2 ^ (-53 : ℤ) * 2 ^ (-53 : ℤ) := two_zpow_add _ _
      _ ≤ 1 / 10000 * 2 ^ (-53 : ℤ) := by gcongr
  have hsum : r * r * (x * x + y * y + z * z) =
      x * r * (x * r) + y * r * (y * r) + z * r * (z * r) := by ring
  rw [hsum] at h
  generalize (2 : ℝ) ^ (-1075 : ℤ) = t at *
  generalize (2 : ℝ) ^ (-53 : ℤ) = u at *
  obtain ⟨h1, h2⟩ := abs_le.1 h
  have huu := mul_le_mul_of_nonneg_right hu' hu.le
  have hscaled := mul_le_mul_of_nonneg_left h2 hu.le
  have hrounded : p + q + o ≤ 1 + 10 * u := by linarith
  have hrounded' : 1 - 9970 / 1000 * u ≤ p + q + o := by linarith
  constructor
  · rcases es' with hs1 | es'
    · linarith
    · have := (abs_le.1 es').1
      linarith
  · have := mul_le_mul_of_nonneg_left hrounded hu.le
    have := (abs_le.1 es).2
    have := mul_nonneg hu.le ho0
    linarith

end

/-- **A vector that was scaled to the unit sphere has a squared length of 1**, up to ten steps of
the doubles below 1. -/
theorem IsLengthSquared.of_scaled (hm : IsLengthSquared x' y' z' m) (hx : IsNearest x' (x * r))
    (hy : IsNearest y' (y * r)) (hz : IsNearest z' (z * r))
    (h : |r * r * (x * x + y * y + z * z) - 1| ≤ 694 / 100 * 2 ^ (-53 : ℤ)) :
    |m - 1| ≤ 5 * 2 ^ (-52 : ℤ) := by
  obtain ⟨hp, hq, ho, hs, hn⟩ := hm
  obtain ⟨hlow, hhigh⟩ := lengthSquared_of_scaled hx hy hz hp hq ho hs h
  have h1 := hn.ge_of_middle_lt (k := -53) (i := 2 ^ 53 - 10) (by decide) (by decide)
    (by norm_num) (by norm_num at hlow ⊢; linarith)
  have h2 := hn.le_of_lt_middle (k := -52) (i := 2 ^ 52 + 5) (by decide) (by decide)
    (by norm_num) (by norm_num at hhigh ⊢; linarith)
  rw [abs_le]
  norm_num at h1 h2 ⊢
  constructor <;> linarith

end SphereIndex.Double
