import SphereIndex.Proofs.Double.Operations
import SphereIndex.Proofs.Shape.Roundoff
import SphereIndex.Vector

/-!
# Unit vectors in doubles

A vector of doubles is normalized by the reciprocal of its length.  If the squared length is finite
and not smaller than the smallest double with all bits, then nothing else overflows, and the vector
that comes out passes for a unit vector.  If the squared length overflows, the vector that comes out
is zero.
-/

namespace SphereIndex

variable {p : Vec3 Float}

namespace Vec3

/-- The smallest double that has all its bits, `2 ^ -1022`. -/
def smallestNormal : Float := Float.ofBits 0x0010000000000000

/-- **Whether the squared length of a point is computed without loss**: it does not overflow, and
it is not so small that its last bits are cut. -/
def HasNormalLength (p : Vec3 Float) : Prop :=
  p.lengthSquared.isFinite = true ∧ smallestNormal ≤ p.lengthSquared

instance (p : Vec3 Float) : Decidable p.HasNormalLength := inferInstanceAs (Decidable (_ ∧ _))

/-! ## 1. Constants -/

theorem value_smallestNormal : Double.value smallestNormal = 2 ^ (-1022 : ℤ) := by
  rw [Double.value_of_rankOf (a := 1) (b := -1074) (c := 2 ^ 52) (by decide +kernel)]
  have hbits : ((2 ^ 52 : ℤ) : ℝ) = 2 ^ (52 : ℤ) := by norm_num
  rw [hbits, ← Double.two_zpow_add]
  rfl

theorem value_unitTolerance : Double.value (unitTolerance (α := Float)) = 5 * 2 ^ (-52 : ℤ) := by
  rw [Double.value_of_rankOf (a := 1) (b := -102) (c := 5 * 2 ^ 50) (by decide +kernel)]
  norm_num

/-! ## 2. Squared lengths -/

theorem isFinite_iff : p.isFinite = true ↔
    p.x.isFinite = true ∧ p.y.isFinite = true ∧ p.z.isFinite = true := by
  unfold isFinite
  rw [Bool.and_eq_true, Bool.and_eq_true, and_assoc]
  rfl

theorem isLengthSquared (hp : p.isFinite = true) (h : p.lengthSquared.isFinite = true) :
    Double.IsLengthSquared (Double.value p.x) (Double.value p.y) (Double.value p.z)
      (Double.value p.lengthSquared) := by
  obtain ⟨hx, hy, hz⟩ := isFinite_iff.1 hp
  obtain ⟨hs, hr⟩ := Double.isFinite_of_add h
  obtain ⟨hp, hq⟩ := Double.isFinite_of_add hs
  exact ⟨(Double.isResult_mul hx hx).isNearest hp, (Double.isResult_mul hy hy).isNearest hq,
    (Double.isResult_mul hz hz).isNearest hr, (Double.isResult_add hp hq).isNearest hs,
    (Double.isResult_add hs hr).isNearest h⟩

/-- The squared length of a vector of small coordinates does not overflow. -/
theorem isFinite_lengthSquared (hp : p.isFinite = true) (hx2 : |Double.value p.x| ≤ 2)
    (hy2 : |Double.value p.y| ≤ 2) (hz2 : |Double.value p.z| ≤ 2) :
    p.lengthSquared.isFinite = true := by
  obtain ⟨hx, hy, hz⟩ := isFinite_iff.1 hp
  have hsquare {x : Float} (hx : x.isFinite = true) (hx2 : |Double.value x| ≤ 2) :
      (x * x).isFinite = true ∧ |Double.value (x * x)| ≤ 2 ^ (2 : ℤ) := by
    refine (Double.isResult_mul hx hx).abs_le (by decide) (by decide) ?_
    rw [abs_mul, zpow_two]
    exact mul_le_mul hx2 hx2 (abs_nonneg _) zero_le_two
  have hsum {k : ℤ} (hk : -1074 ≤ k + 1) (hk' : k + 1 ≤ 1023) {x y : Float}
      (hx : x.isFinite = true ∧ |Double.value x| ≤ 2 ^ k)
      (hy : y.isFinite = true ∧ |Double.value y| ≤ 2 ^ k) :
      (x + y).isFinite = true ∧ |Double.value (x + y)| ≤ 2 ^ (k + 1) := by
    refine (Double.isResult_add hx.1 hy.1).abs_le hk hk' ?_
    rw [Double.two_zpow_add, zpow_one, mul_two]
    exact (abs_add_le _ _).trans (add_le_add hx.2 hy.2)
  have hxy := hsum (by decide) (by decide) (hsquare hx hx2) (hsquare hy hy2)
  obtain ⟨hz', hz2'⟩ := hsquare hz hz2
  exact (hsum (by decide) (by decide) hxy ⟨hz', hz2'.trans (Double.two_zpow_le (by decide))⟩).1

/-! ## 3. Normalized vectors -/

/-- The test of unit vectors is exact where it may be passed. -/
theorem isUnit_of_abs_le (h : p.lengthSquared.isFinite = true)
    (hn : |Double.value p.lengthSquared - 1| ≤ 5 * 2 ^ (-52 : ℤ)) : p.isUnit = true := by
  have htol : Double.IsRepresentable (5 * 2 ^ (-52 : ℤ)) :=
    ⟨5, -52, by decide, by decide, by norm_num⟩
  have hsub := Double.isResult_sub (y := 1) h (by decide +kernel)
  rw [Double.value_one] at hsub
  have hfinite := hsub.isFinite (hn.trans (by
    calc
      (5 : ℝ) * 2 ^ (-52 : ℤ) ≤ 2 ^ (0 : ℤ) := by norm_num
      _ ≤ 2 ^ (1023 : ℤ) := Double.two_zpow_le (by decide)))
  have hnear := hsub.isNearest hfinite
  unfold isUnit
  rw [decide_eq_true_iff]
  refine (Double.le_iff_value ((Double.isFinite_abs _).trans hfinite) (by decide +kernel)).2 ?_
  rw [value_unitTolerance]
  refine (Double.value_abs _).trans_le (abs_le.2 ⟨?_, ?_⟩)
  · exact hnear.ge htol.neg (abs_le.1 hn).1
  · exact hnear.le htol (abs_le.1 hn).2

/-- Unit vectors have a squared length that does not overflow. -/
theorem isFinite_of_isUnit (h : p.isUnit = true) :
    p.lengthSquared.isFinite = true ∧ (p.lengthSquared - 1).isFinite = true := by
  have hsub : (p.lengthSquared - 1).isFinite = true := by
    by_contra hne
    rw [Bool.not_eq_true] at hne
    exact Double.not_abs_le_of_isFinite_eq_false hne (by decide +kernel) (decide_eq_true_iff.1 h)
  exact ⟨(Double.isFinite_of_sub hsub).1, hsub⟩

theorem isFinite_of_lengthSquared (h : p.lengthSquared.isFinite = true) : p.isFinite = true := by
  obtain ⟨hs, hr⟩ := Double.isFinite_of_add h
  obtain ⟨hp, hq⟩ := Double.isFinite_of_add hs
  exact isFinite_iff.2 ⟨(Double.isFinite_of_mul hp).1, (Double.isFinite_of_mul hq).1,
    (Double.isFinite_of_mul hr).1⟩

/-- **A vector whose squared length is computed without loss is normalized to a unit vector.** -/
theorem isUnit_normalize (hp : p.isFinite = true) (h : p.HasNormalLength) :
    p.normalize.isUnit = true := by
  obtain ⟨hn, hlow⟩ := h
  have hlen := isLengthSquared hp hn
  rw [Double.le_iff_value (by decide +kernel) hn, value_smallestNormal] at hlow
  have hhigh := (abs_le.1 (Double.abs_value_lt p.lengthSquared).le).2
  obtain ⟨hv1, hv2⟩ := Double.sqrt_mem_Icc hlow hhigh
  -- Neither the length nor its reciprocal overflows.
  have hl := Double.isResult_sqrt hn ((Double.two_zpow_pos _).le.trans hlow)
  have hlf := hl.isFinite (by
    rw [abs_of_nonneg (Real.sqrt_nonneg _)]
    exact hv2.trans (Double.two_zpow_le (by decide)))
  have hln := hl.isNearest hlf
  have hl1 := hln.ge (Double.isRepresentable_two_zpow (by decide)) hv1
  have hl0 := (Double.two_zpow_pos _).trans_le hl1
  have hr := Double.isResult_div (x := 1) (by decide +kernel) hlf hl0.ne'
  rw [Double.value_one] at hr
  have hrf := hr.isFinite (by
    rw [abs_of_nonneg (one_div_nonneg.2 hl0.le)]
    calc
      1 / _ ≤ 1 / (2 : ℝ) ^ (-511 : ℤ) := one_div_le_one_div_of_le (Double.two_zpow_pos _) hl1
      _ = 2 ^ (511 : ℤ) := by rw [one_div, ← zpow_neg]; rfl
      _ ≤ 2 ^ (1023 : ℤ) := Double.two_zpow_le (by decide))
  have hscale := hlen.error_scale hlow hhigh hln (hr.isNearest hrf)
  -- Nor does any coordinate.
  obtain ⟨hx, hy, hz⟩ := isFinite_iff.1 hp
  obtain ⟨hx2, hy2, hz2⟩ := Double.abs_le_two_of_scaled hscale
  have hcoord {x : Float} (hx : x.isFinite = true)
      (hx2 : |Double.value x * Double.value (1 / p.length)| ≤ 2) :
      (x * (1 / p.length)).isFinite = true ∧ |Double.value (x * (1 / p.length))| ≤ 2 := by
    have := (Double.isResult_mul hx hrf).abs_le (e := 1) (by decide) (by decide)
      (by rwa [zpow_one])
    rwa [zpow_one] at this
  obtain ⟨hx', hx2'⟩ := hcoord hx hx2
  obtain ⟨hy', hy2'⟩ := hcoord hy hy2
  obtain ⟨hz', hz2'⟩ := hcoord hz hz2
  have hp' : p.normalize.isFinite = true := isFinite_iff.2 ⟨hx', hy', hz'⟩
  have hn' := isFinite_lengthSquared hp' hx2' hy2' hz2'
  exact isUnit_of_abs_le hn' ((isLengthSquared hp' hn').of_scaled
    ((Double.isResult_mul hx hrf).isNearest hx') ((Double.isResult_mul hy hrf).isNearest hy')
    ((Double.isResult_mul hz hrf).isNearest hz') hscale)

/-- **A vector whose squared length overflows is not normalized**: what comes out is zero. -/
theorem isUnit_normalize_eq_false (h : p.lengthSquared.isFinite = false) :
    p.normalize.isUnit = false := by
  by_contra hunit
  rw [Bool.not_eq_false] at hunit
  obtain ⟨hn, hd⟩ := isFinite_of_isUnit hunit
  obtain ⟨hx, hy, hz⟩ := isFinite_iff.1 (isFinite_of_lengthSquared hn)
  -- The reciprocal of an infinite length is zero.
  have hr : Double.value (1 / p.length) = 0 :=
    Double.value_one_div_sqrt h (Double.isFinite_of_mul hx).2
  have hcoord {x : Float} (hx : (x * (1 / p.length)).isFinite = true) :
      Double.value (x * (1 / p.length)) = 0 := by
    obtain ⟨hx', hr'⟩ := Double.isFinite_of_mul hx
    have hmul := (Double.isResult_mul hx' hr').isNearest hx
    rw [hr, mul_zero] at hmul
    exact hmul.eq Double.isRepresentable_zero
  have hlen := isLengthSquared (isFinite_of_lengthSquared hn) hn
  rw [show Double.value p.normalize.x = 0 from hcoord hx,
    show Double.value p.normalize.y = 0 from hcoord hy,
    show Double.value p.normalize.z = 0 from hcoord hz] at hlen
  have hzero := hlen.eq_zero
  have hsub := (Double.isResult_sub (y := 1) hn (by decide +kernel)).isNearest hd
  rw [hzero, Double.value_one] at hsub
  have hone := hsub.eq ⟨-1, 0, by decide, by decide, by norm_num⟩
  have hle := (Double.le_iff_value ((Double.isFinite_abs _).trans hd) (by decide +kernel)).1
    (decide_eq_true_iff.1 hunit)
  rw [value_unitTolerance, Double.value_abs, hone] at hle
  norm_num at hle

end Vec3

end SphereIndex
