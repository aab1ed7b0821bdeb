import SphereIndex.Proofs.Double.Order

/-!
# The grid of doubles is exact

Numbers of leaf cells and their quotients by powers of two are doubles without rounding.  The lines
that are made of them are rounded, in steps each of which keeps the order, and the three lines at the
ends and in the middle of a face are what they should be.
-/

namespace SphereIndex

namespace Double

open Float.Model (Format UnpackedFloat)
open Float.Model.UnpackedFloat

/-! ## 1. Quotients of small numbers -/

theorem isRepresentable_natCast {n : ℕ} (h : n < 2 ^ 53) : IsRepresentable n :=
  ⟨n, 0, by rw [abs_of_nonneg (Int.natCast_nonneg n)]; exact_mod_cast h, by decide, by simp⟩

theorem abs_natCast_le {n : ℕ} (h : n < 2 ^ 53) : |(n : ℝ)| ≤ 2 ^ (1023 : ℤ) := by
  rw [abs_of_nonneg (Nat.cast_nonneg n)]
  calc
    (n : ℝ) ≤ 2 ^ (53 : ℤ) := by exact_mod_cast h.le
    _ ≤ 2 ^ (1023 : ℤ) := two_zpow_le (by decide)

/-- **A natural number of 53 bits is a double.** -/
theorem ofNat_exact {n : ℕ} (h : n < 2 ^ 53) :
    (Float.ofNat n).isFinite = true ∧ value (Float.ofNat n) = n := by
  have hinteger : IsResult n.toUInt64.toFloat n := by
    have hround := rounds_normalize (n.toUInt64.toNat : ℤ) 0 .positive
    have hcast : n.toUInt64.toNat = n := UInt64.toNat_ofNat_of_lt' (h.trans (by decide))
    have hexact : ((n.toUInt64.toNat : ℤ) : ℝ) * 2 ^ (0 : ℤ) = n := by
      rw [hcast, Int.cast_natCast, zpow_zero, mul_one]
    rw [hexact] at hround
    exact hround.isResult
  have hfinite := hinteger.isFinite (abs_natCast_le h)
  have hvalue := (hinteger.isNearest hfinite).eq (isRepresentable_natCast h)
  -- The model multiplies by the power of ten with exponent 0.
  have hproduct : Float.ofNat n = n.toUInt64.toFloat * 1 := dif_pos ⟨h, Nat.zero_le 22⟩
  have hmul := isResult_mul (y := 1) hfinite (by decide +kernel)
  rw [hvalue, value_one, mul_one, ← hproduct] at hmul
  have hfinite' := hmul.isFinite (abs_natCast_le h)
  exact ⟨hfinite', (hmul.isNearest hfinite').eq (isRepresentable_natCast h)⟩

/-- **Its quotient by a power of two** is exact. -/
theorem div_exact {n k : ℕ} (hn : n < 2 ^ 53) (hk : k < 53) :
    (Float.ofNat n / Float.ofNat (2 ^ k)).isFinite = true ∧
      value (Float.ofNat n / Float.ofNat (2 ^ k)) = n / 2 ^ k := by
  obtain ⟨hnf, hnv⟩ := ofNat_exact hn
  obtain ⟨hkf, hkv⟩ := ofNat_exact (Nat.pow_lt_pow_right one_lt_two hk)
  rw [Nat.cast_pow, Nat.cast_ofNat] at hkv
  have hdiv := isResult_div hnf hkf (hkv ▸ (by positivity))
  rw [hnv, hkv] at hdiv
  -- The division only lowers the exponent, and not below that of the smallest doubles.
  have hrepresentable : IsRepresentable ((n : ℝ) / 2 ^ k) := by
    refine ⟨n, -k, ?_, by omega, ?_⟩
    · rw [abs_of_nonneg (Int.natCast_nonneg n)]
      exact_mod_cast hn
    · rw [zpow_neg, zpow_natCast, Int.cast_natCast, div_eq_mul_inv]
  have hsmall : |(n : ℝ) / 2 ^ k| ≤ 2 ^ (1023 : ℤ) := by
    refine le_trans ?_ (abs_natCast_le hn)
    rw [abs_div]
    exact div_le_self (abs_nonneg _) (le_abs.2 (.inl (one_le_pow₀ one_le_two)))
  have hfinite := hdiv.isFinite hsmall
  exact ⟨hfinite, (hdiv.isNearest hfinite).eq hrepresentable⟩

end Double

namespace Grid

open Double

/-! ## 2. Lines -/

variable {s t : Float}

theorem side_exact {n : ℕ} (hn : n ≤ 2 ^ 30) :
    (side n : Float).isFinite = true ∧ value (side n : Float) = n / 2 ^ 30 :=
  div_exact (n := n) (k := 30) (hn.trans_lt (by decide)) (by decide)

/-- Four times the square of a number, as it is rounded. -/
def fourfoldSquare (s : Float) : Float := 4 * s * s

theorem toFace_of_half_le (h : Scalar.half ≤ s) :
    toFace s = 1 / 3 * (fourfoldSquare s - 1) := if_pos h

theorem toFace_of_not_half_le (h : ¬Scalar.half ≤ s) :
    toFace s = 1 / 3 * (1 - fourfoldSquare (1 - s)) := if_neg h

/-- Between two numbers, as a finite double. -/
structure Between (a b : ℝ) (x : Float) : Prop where
  isFinite : x.isFinite = true
  low : a ≤ value x
  high : value x ≤ b

theorem Between.of_isResult {a b v : ℝ} {x : Float} (h : IsResult x v) (ha : IsRepresentable a)
    (hb : IsRepresentable b) (hav : a ≤ v) (hvb : v ≤ b) (hlow : -4 ≤ a) (hhigh : b ≤ 4) :
    Between a b x := by
  have hfour : (4 : ℝ) ≤ 2 ^ (1023 : ℤ) :=
    calc
      (4 : ℝ) = 2 ^ (2 : ℤ) := by norm_num
      _ ≤ 2 ^ (1023 : ℤ) := two_zpow_le (by decide)
  have hsmall : |v| ≤ 4 := abs_le.2 ⟨by linarith, by linarith⟩
  have hfinite := h.isFinite (hsmall.trans hfour)
  -- The bounds are doubles themselves, so that rounding does not pass them.
  have hnearest := h.isNearest hfinite
  exact ⟨hfinite, hnearest.ge ha hav, hnearest.le hb hvb⟩

theorem four_mul (hs : Between (1 / 2) 1 s) :
    IsResult (4 * s) (4 * value s) ∧ Between 2 4 (4 * s) := by
  have hfour : value 4 = 4 := by
    rw [value_of_rankOf (a := 1) (b := -50) (c := 2 ^ 52) (by decide +kernel)]
    norm_num
  have hmul := isResult_mul (x := 4) (by decide +kernel) hs.isFinite
  rw [hfour] at hmul
  exact ⟨hmul, .of_isResult hmul (isRepresentable_natCast (n := 2) (by decide))
    (isRepresentable_natCast (n := 4) (by decide)) (by linarith [hs.low]) (by linarith [hs.high])
    (by norm_num) le_rfl⟩

theorem fourfoldSquare_between (hs : Between (1 / 2) 1 s) :
    IsResult (fourfoldSquare s) (value (4 * s) * value s) ∧ Between 1 4 (fourfoldSquare s) := by
  obtain ⟨-, hfour⟩ := four_mul hs
  have hmul := isResult_mul hfour.isFinite hs.isFinite
  exact ⟨hmul, .of_isResult hmul isRepresentable_one (isRepresentable_natCast (n := 4) (by decide))
    (by nlinarith [hs.low, hfour.low]) (by nlinarith [hs.low, hs.high, hfour.low, hfour.high])
    (by norm_num) le_rfl⟩

theorem fourfoldSquare_mono (hs : Between (1 / 2) 1 s) (ht : Between (1 / 2) 1 t)
    (h : value s ≤ value t) : value (fourfoldSquare s) ≤ value (fourfoldSquare t) := by
  have hpos := hs.low
  obtain ⟨hrs, hfs⟩ := four_mul hs
  obtain ⟨hrt, hft⟩ := four_mul ht
  obtain ⟨hqs, hbs⟩ := fourfoldSquare_between hs
  obtain ⟨hqt, hbt⟩ := fourfoldSquare_between ht
  have hfour : value (4 * s) ≤ value (4 * t) :=
    value_le_value (f := fun z => 4 * z) hs.isFinite ht.isFinite (hrs.isNearest hfs.isFinite)
      (hrt.isNearest hft.isFinite) (fun hne => by linarith [lt_of_le_of_ne h hne])
      (fun h0 => by linarith)
  refine value_le_value hs.isFinite ht.isFinite (hqs.isNearest hbs.isFinite)
    (hqt.isNearest hbt.isFinite) (fun hne => ?_) (fun h0 => by linarith)
  have hlt := lt_of_le_of_ne h hne
  nlinarith [hfs.low]

/-- **The two halves of a face** are on different sides of 0, up to a third. -/
theorem fourfoldSquare_sub_one (hs : Between (1 / 2) 1 s) :
    IsResult (fourfoldSquare s - 1) (value (fourfoldSquare s) - 1) ∧
      Between 0 3 (fourfoldSquare s - 1) ∧
    IsResult (1 - fourfoldSquare s) (1 - value (fourfoldSquare s)) ∧
      Between (-3) 0 (1 - fourfoldSquare s) := by
  obtain ⟨-, hq⟩ := fourfoldSquare_between hs
  have hsub := isResult_sub (y := 1) hq.isFinite (by decide +kernel)
  have hsub' := isResult_sub (x := 1) (by decide +kernel) hq.isFinite
  rw [value_one] at hsub hsub'
  have hthree : IsRepresentable 3 := isRepresentable_natCast (n := 3) (by decide)
  exact ⟨hsub, .of_isResult hsub isRepresentable_zero hthree (by linarith [hq.low])
    (by linarith [hq.high]) (by norm_num) (by norm_num), hsub', .of_isResult hsub' hthree.neg
    isRepresentable_zero (by linarith [hq.high]) (by linarith [hq.low]) (by norm_num)
    (by norm_num)⟩

theorem sub_one_mono (hs : Between (1 / 2) 1 s) (ht : Between (1 / 2) 1 t)
    (h : value s ≤ value t) : value (fourfoldSquare s - 1) ≤ value (fourfoldSquare t - 1) := by
  obtain ⟨hrs, hbs, -, -⟩ := fourfoldSquare_sub_one hs
  obtain ⟨hrt, hbt, -, -⟩ := fourfoldSquare_sub_one ht
  have hqs := (fourfoldSquare_between hs).2
  have hqt := (fourfoldSquare_between ht).2
  refine value_le_value (f := fun z => z - 1) hqs.isFinite hqt.isFinite
    (hrs.isNearest hbs.isFinite) (hrt.isNearest hbt.isFinite) (fun hne => ?_)
    (fun h0 => by linarith [hqs.low])
  linarith [lt_of_le_of_ne (fourfoldSquare_mono hs ht h) hne]

theorem one_sub_mono (hs : Between (1 / 2) 1 s) (ht : Between (1 / 2) 1 t)
    (h : value s ≤ value t) : value (1 - fourfoldSquare t) ≤ value (1 - fourfoldSquare s) := by
  obtain ⟨-, -, hrs, hbs⟩ := fourfoldSquare_sub_one hs
  obtain ⟨-, -, hrt, hbt⟩ := fourfoldSquare_sub_one ht
  have hqs := (fourfoldSquare_between hs).2
  have hqt := (fourfoldSquare_between ht).2
  refine value_le_value (f := fun z => 1 - z) hqt.isFinite hqs.isFinite
    (hrt.isNearest hbt.isFinite) (hrs.isNearest hbs.isFinite) (fun hne => ?_)
    (fun h0 => by linarith [hqt.low])
  linarith [lt_of_le_of_ne (fourfoldSquare_mono hs ht h) hne.symm]

theorem third_pos : 0 < value (1 / 3 : Float) ∧ value (1 / 3 : Float) ≤ 1 := by
  rw [value_of_rankOf (a := 1) (b := -54) (c := 6004799503160661) (by decide +kernel)]
  norm_num

theorem third_mul {x : Float} (h : Between (-3) 3 x) :
    IsResult (1 / 3 * x) (value (1 / 3) * value x) ∧ Between (-3) 3 (1 / 3 * x) := by
  obtain ⟨hpos, hle⟩ := third_pos
  have hmul := isResult_mul (x := 1 / 3) (by decide +kernel) h.isFinite
  have hthree : IsRepresentable 3 := isRepresentable_natCast (n := 3) (by decide)
  exact ⟨hmul, .of_isResult hmul hthree.neg hthree (by nlinarith [h.low]) (by nlinarith [h.high])
    (by norm_num) (by norm_num)⟩

theorem third_mono {x y : Float} (hx : Between (-3) 3 x) (hy : Between (-3) 3 y)
    (h : value x ≤ value y) : value (1 / 3 * x) ≤ value (1 / 3 * y) := by
  obtain ⟨hrx, hbx⟩ := third_mul hx
  obtain ⟨hry, hby⟩ := third_mul hy
  refine value_le_value (f := fun z => 1 / 3 * z) hx.isFinite hy.isFinite
    (hrx.isNearest hbx.isFinite) (hry.isNearest hby.isFinite) (fun hne => ?_) (fun h0 h0' => ?_)
  · exact mul_lt_mul_of_pos_left (lt_of_le_of_ne h hne) third_pos.1
  · rw [h0, h0', mul_zero]
    exact ⟨rfl, isRepresentable_zero⟩

theorem value_half : value Scalar.half = 1 / 2 := by
  rw [value_of_rankOf (a := 1) (b := -53) (c := 2 ^ 52) (by decide +kernel)]
  norm_num

theorem half_le_iff (hs : s.isFinite = true) : (Scalar.half : Float) ≤ s ↔ 1 / 2 ≤ value s := by
  rw [← value_half]
  exact le_iff_value (by decide +kernel) hs

/-- What is left to the upper end. -/
theorem one_sub (hs : Between 0 (1 / 2) s) :
    IsResult (1 - s) (1 - value s) ∧ Between (1 / 2) 1 (1 - s) := by
  have hsub := isResult_sub (x := 1) (by decide +kernel) hs.isFinite
  rw [value_one] at hsub
  have hhalf : IsRepresentable (1 / 2) := by
    rw [one_div, ← zpow_neg_one]
    exact isRepresentable_two_zpow (by decide)
  exact ⟨hsub, .of_isResult hsub hhalf isRepresentable_one (by linarith [hs.high])
    (by linarith [hs.low]) (by norm_num) (by norm_num)⟩

theorem one_sub_anti (hs : Between 0 (1 / 2) s) (ht : Between 0 (1 / 2) t)
    (h : value s ≤ value t) : value (1 - t) ≤ value (1 - s) := by
  obtain ⟨hrs, hbs⟩ := one_sub hs
  obtain ⟨hrt, hbt⟩ := one_sub ht
  refine value_le_value (f := fun z => 1 - z) ht.isFinite hs.isFinite
    (hrt.isNearest hbt.isFinite) (hrs.isNearest hbs.isFinite) (fun hne => ?_) (fun h0 h0' => ?_)
  · linarith [lt_of_le_of_ne h hne.symm]
  · rw [h0, h0', sub_zero]
    exact ⟨rfl, isRepresentable_one⟩

/-- **The upper half of a face.** -/
theorem toFace_upper (hs : Between (1 / 2) 1 s) :
    Between 0 3 (fourfoldSquare s - 1) ∧ toFace s = 1 / 3 * (fourfoldSquare s - 1) := by
  obtain ⟨-, hsub, -, -⟩ := fourfoldSquare_sub_one hs
  exact ⟨hsub, toFace_of_half_le ((half_le_iff hs.isFinite).2 hs.low)⟩

/-- **The lower half of a face.** -/
theorem toFace_lower (hs : Between 0 (1 / 2) s) (hlt : value s < 1 / 2) :
    Between (-3) 0 (1 - fourfoldSquare (1 - s)) ∧
      toFace s = 1 / 3 * (1 - fourfoldSquare (1 - s)) := by
  obtain ⟨-, -, -, hsub⟩ := fourfoldSquare_sub_one (one_sub hs).2
  refine ⟨hsub, toFace_of_not_half_le fun hhalf => ?_⟩
  exact hlt.not_ge ((half_le_iff hs.isFinite).1 hhalf)

/-- **Rounding keeps the order of the lines.** -/
theorem toFace_mono (hs : Between 0 1 s) (ht : Between 0 1 t) (h : value s ≤ value t) :
    toFace s ≤ toFace t := by
  have hwide {a b : ℝ} {x : Float} (hx : Between a b x) (ha : -3 ≤ a) (hb : b ≤ 3) :
      Between (-3) 3 x := ⟨hx.isFinite, ha.trans hx.low, hx.high.trans hb⟩
  -- Before they are divided by 3, both lines are in order.
  have hstep : ∃ x y, Between (-3) 3 x ∧ Between (-3) 3 y ∧ value x ≤ value y ∧
      toFace s = 1 / 3 * x ∧ toFace t = 1 / 3 * y := by
    by_cases hhs : 1 / 2 ≤ value s
    · have hs' : Between (1 / 2) 1 s := ⟨hs.isFinite, hhs, hs.high⟩
      have ht' : Between (1 / 2) 1 t := ⟨ht.isFinite, hhs.trans h, ht.high⟩
      obtain ⟨hx, hsx⟩ := toFace_upper hs'
      obtain ⟨hy, hty⟩ := toFace_upper ht'
      refine ⟨_, _, hwide hx (by norm_num) le_rfl, hwide hy (by norm_num) le_rfl, ?_, hsx, hty⟩
      exact sub_one_mono hs' ht' h
    · have hs' : Between 0 (1 / 2) s := ⟨hs.isFinite, hs.low, (not_le.1 hhs).le⟩
      obtain ⟨hx, hsx⟩ := toFace_lower hs' (not_le.1 hhs)
      by_cases hht : 1 / 2 ≤ value t
      · obtain ⟨hy, hty⟩ := toFace_upper (s := t) ⟨ht.isFinite, hht, ht.high⟩
        exact ⟨_, _, hwide hx le_rfl (by norm_num), hwide hy (by norm_num) le_rfl,
          hx.high.trans hy.low, hsx, hty⟩
      · have ht' : Between 0 (1 / 2) t := ⟨ht.isFinite, ht.low, (not_le.1 hht).le⟩
        obtain ⟨hy, hty⟩ := toFace_lower ht' (not_le.1 hht)
        refine ⟨_, _, hwide hx le_rfl (by norm_num), hwide hy le_rfl (by norm_num), ?_, hsx, hty⟩
        exact one_sub_mono (one_sub ht').2 (one_sub hs').2 (one_sub_anti hs' ht' h)
  obtain ⟨x, y, hx, hy, hxy, hsx, hty⟩ := hstep
  rw [hsx, hty]
  exact (le_iff_value (third_mul hx).2.isFinite (third_mul hy).2.isFinite).2 (third_mono hx hy hxy)

end Grid

/-! ## 3. All laws -/

/-- **The grid of doubles is exact.** -/
theorem Grid.isExact_float : Grid.IsExact Float where
  div_two_pow m n j k hm hn hj hk h := by
    obtain ⟨hmf, hmv⟩ := Double.div_exact (n := m) (k := j) (hm.trans (by decide)) (by omega)
    obtain ⟨hnf, hnv⟩ := Double.div_exact (n := n) (k := k) (hn.trans (by decide)) (by omega)
    have hvalue : (m : ℝ) / 2 ^ j = n / 2 ^ k := by
      rw [div_eq_div_iff (by positivity) (by positivity)]
      exact_mod_cast h
    -- A value of 0 does not tell the sign of a zero, so that zeros are compared as doubles.
    by_cases hzero : m = 0
    · have hzero' : n = 0 := by
        rw [hzero, Nat.zero_mul] at h
        exact (Nat.mul_eq_zero.1 h.symm).resolve_right (Nat.two_pow_pos j).ne'
      have hquotient : ∀ i < 32, Float.ofNat 0 / Float.ofNat (2 ^ i) = 0 := by decide +kernel
      rw [hzero, hzero']
      exact (hquotient j hj).trans (hquotient k hk).symm
    · have hne : (m : ℝ) / 2 ^ j ≠ 0 := by positivity
      exact Double.eq_of_value_eq hmf hnf (hmv.trans (hvalue.trans hnv.symm)) (hmv.trans_ne hne)
  div_one n hn := by
    obtain ⟨hf, hv⟩ := Double.div_exact (n := n) (k := 0) (hn.trans (by decide)) (by decide)
    obtain ⟨hnf, hnv⟩ := Double.ofNat_exact (hn.trans (by decide : 2 ^ 32 < 2 ^ 53))
    by_cases hzero : n = 0
    · subst hzero
      decide +kernel
    · have hne : (n : ℝ) / 2 ^ 0 ≠ 0 := by positivity
      have hvalue : (n : ℝ) / 2 ^ 0 = n := by rw [pow_zero, div_one]
      exact Double.eq_of_value_eq hf hnf (hv.trans (hvalue.trans hnv.symm)) (hv.trans_ne hne)
  toFace_zero := by decide +kernel
  toFace_half := by decide +kernel
  toFace_one := by decide +kernel
  not_side_lt_side m n hmn hn := by
    have hbetween {i : ℕ} (hi : i ≤ 2 ^ 30) : Between 0 1 (side i : Float) := by
      obtain ⟨hf, hv⟩ := side_exact hi
      refine ⟨hf, hv ▸ by positivity, hv ▸ div_le_one_of_le₀ ?_ (by positivity)⟩
      exact_mod_cast hi
    have hle : (toFace (side m) : Float) ≤ toFace (side n) := by
      refine toFace_mono (hbetween (hmn.trans hn)) (hbetween hn) ?_
      rw [(side_exact (hmn.trans hn)).2, (side_exact hn).2]
      gcongr
    exact fun hlt => (Scalar.Ordered.lt_iff.1 hlt).2 hle
  not_add_lt_sub x y p hp h := Double.not_add_lt_sub hp h
  same_neg_one_sub p _ := Double.same_neg_add 1 p
  same_zero_sub p _ := Double.same_zero_sub p
  same_zero_add p _ := Double.same_zero_add p

end SphereIndex
