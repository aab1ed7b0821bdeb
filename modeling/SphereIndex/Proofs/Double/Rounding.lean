import SphereIndex.Proofs.Double.Value

/-!
# Rounding of doubles

A mantissa that is cut is kept with two more bits: the next one, and whether there is any behind.
They tell on which side of a half the number lies, and shifting keeps them true.  So what is rounded
is the nearest number of 53 bits.
-/

namespace SphereIndex.Double

open Float.Model (Format UnpackedFloat totalExponent)
open Float.Model.UnpackedFloat

variable {m n : ℕ} {e k : ℤ} {X v : ℝ} {em : ExtendedMantissa} {acc : Accuracy}

/-! ## 1. Cut mantissas -/

/-- **What a mantissa and its two bits tell of a number.** -/
inductive Keeps : ExtendedMantissa → ℝ → Prop where
  | exact {m : ℕ} {X : ℝ} (h : X = m) : Keeps ⟨m, false, false⟩ X
  | below {m : ℕ} {X : ℝ} (hlow : m < X) (hhigh : X < m + 1 / 2) : Keeps ⟨m, false, true⟩ X
  | half {m : ℕ} {X : ℝ} (h : X = m + 1 / 2) : Keeps ⟨m, true, false⟩ X
  | above {m : ℕ} {X : ℝ} (hlow : m + 1 / 2 < X) (hhigh : X < m + 1) : Keeps ⟨m, true, true⟩ X

theorem shiftRightOne_even (n : ℕ) (r s : Bool) :
    (ExtendedMantissa.mk (2 * n) r s).shiftRightOne = ⟨n, false, r || s⟩ := by
  unfold ExtendedMantissa.shiftRightOne
  rw [Nat.mul_div_cancel_left n two_pos, Nat.mul_mod_right]
  rfl

theorem shiftRightOne_odd (n : ℕ) (r s : Bool) :
    (ExtendedMantissa.mk (2 * n + 1) r s).shiftRightOne = ⟨n, true, r || s⟩ := by
  unfold ExtendedMantissa.shiftRightOne
  have hdiv : (2 * n + 1) / 2 = n := by omega
  have hmod : (2 * n + 1) % 2 = 1 := by omega
  rw [hdiv, hmod]
  rfl

namespace Keeps

theorem mantissa_le (h : Keeps em X) : em.mantissa ≤ X ∧ X < em.mantissa + 1 := by
  cases h <;> constructor <;> dsimp only <;> linarith

theorem shiftRightOne (h : Keeps em X) : Keeps em.shiftRightOne (X / 2) := by
  cases h with
  | @exact m _ h =>
    obtain ⟨n, rfl | rfl⟩ := m.even_or_odd'
    · rw [shiftRightOne_even]
      exact .exact (by push_cast at h; linarith)
    · rw [shiftRightOne_odd]
      exact .half (by push_cast at h; linarith)
  | @below m _ hlow hhigh | @above m _ hlow hhigh =>
    obtain ⟨n, rfl | rfl⟩ := m.even_or_odd' <;> push_cast at hlow hhigh
    · rw [shiftRightOne_even]
      exact .below (by linarith) (by linarith)
    · rw [shiftRightOne_odd]
      exact .above (by linarith) (by linarith)
  | @half m _ h =>
    obtain ⟨n, rfl | rfl⟩ := m.even_or_odd' <;> push_cast at h
    · rw [shiftRightOne_even]
      exact .below (by linarith) (by linarith)
    · rw [shiftRightOne_odd]
      exact .above (by linarith) (by linarith)

theorem shiftRight (h : Keeps em X) (i : ℕ) : Keeps (em >>> i) (X / 2 ^ i) := by
  change Keeps (i.repeat ExtendedMantissa.shiftRightOne em) _
  induction i with
  | zero =>
    rw [pow_zero, div_one]
    exact h
  | succ i ih =>
    have hhalf := ih.shiftRightOne
    rwa [div_div, ← pow_succ] at hhalf

/-- **The bits round to the nearest integer.** -/
theorem abs_roundedMantissa_sub_le (h : Keeps em X) : |(em.roundedMantissa : ℝ) - X| ≤ 1 / 2 := by
  rw [abs_le]
  cases h with
  | @exact m _ h =>
    change -(1 / 2) ≤ (m : ℝ) - X ∧ (m : ℝ) - X ≤ 1 / 2
    constructor <;> linarith
  | @below m _ hlow hhigh =>
    change -(1 / 2) ≤ (m : ℝ) - X ∧ (m : ℝ) - X ≤ 1 / 2
    constructor <;> linarith
  | @half m _ h =>
    change -(1 / 2) ≤ ((m + m % 2 : ℕ) : ℝ) - X ∧ ((m + m % 2 : ℕ) : ℝ) - X ≤ 1 / 2
    have hbit : ((m % 2 : ℕ) : ℝ) ≤ 1 := mod_cast Nat.lt_succ_iff.1 (Nat.mod_lt m two_pos)
    have hpos : (0 : ℝ) ≤ (m % 2 : ℕ) := Nat.cast_nonneg _
    rw [Nat.cast_add]
    constructor <;> linarith
  | @above m _ hlow hhigh =>
    change -(1 / 2) ≤ ((m + 1 : ℕ) : ℝ) - X ∧ ((m + 1 : ℕ) : ℝ) - X ≤ 1 / 2
    push_cast
    constructor <;> linarith

theorem abs_roundedMantissa_sub_le_abs (h : Keeps em X) (n : ℤ) :
    |(em.roundedMantissa : ℝ) - X| ≤ |(n : ℝ) - X| := by
  have hround := h.abs_roundedMantissa_sub_le
  by_cases hn : n = em.roundedMantissa
  · rw [hn, Int.cast_natCast]
  · have hint : (1 : ℤ) ≤ |n - em.roundedMantissa| := Int.one_le_abs (sub_ne_zero.2 hn)
    have hreal : (1 : ℝ) ≤ |(n : ℝ) - em.roundedMantissa| := mod_cast hint
    have := abs_sub_le (n : ℝ) X em.roundedMantissa
    rw [abs_sub_comm X] at this
    linarith

end Keeps

theorem roundedMantissa_le (em : ExtendedMantissa) : em.roundedMantissa ≤ em.mantissa + 1 := by
  obtain ⟨m, round, sticky⟩ := em
  cases round <;> cases sticky
  · exact Nat.le_succ m
  · exact Nat.le_succ m
  · exact Nat.add_le_add_left (Nat.lt_succ_iff.1 (Nat.mod_lt m two_pos)) m
  · exact Nat.le_refl _

theorem keeps_exact (m : ℕ) : Keeps (.ofMantissaAndAccuracy m .exact) m := .exact rfl

/-! ## 2. To 53 bits -/

/-- **A number cut to 53 bits**, or to fewer at the smallest exponent. -/
structure IsCut (em : ExtendedMantissa) (e : ℤ) (v : ℝ) : Prop where
  keeps : Keeps em (v / 2 ^ e)
  isCanonical : IsCanonical em.mantissa e

theorem ofMantissaAndAccuracy_mantissa (m : ℕ) (acc : Accuracy) :
    (ExtendedMantissa.ofMantissaAndAccuracy m acc).mantissa = m := by
  rcases acc with _ | _ | _ | _ <;> rfl

/-- The exponent that is shifted to leaves 53 bits, unless it is the smallest one. -/
theorem shiftToTargetExponent_eq {i : ℕ}
    (hi : (max (((m.log2 : ℤ) + 1 + e) - 53) (-1074) - e).toNat = i) :
    shiftToTargetExponent Format.binary64 m e acc =
      (ExtendedMantissa.ofMantissaAndAccuracy m acc >>> i, e + (i : ℤ)) := by
  subst hi
  rfl

theorem isCut_shiftToTargetExponent (hX : Keeps (.ofMantissaAndAccuracy m acc) X)
    (he : e ≤ Format.binary64.targetExponent (totalExponent m e)) :
    IsCut (shiftToTargetExponent Format.binary64 m e acc).1
      (shiftToTargetExponent Format.binary64 m e acc).2 (X * 2 ^ e) := by
  change e ≤ max (((m.log2 : ℤ) + 1 + e) - 53) (-1074) at he
  generalize hi : (max (((m.log2 : ℤ) + 1 + e) - 53) (-1074) - e).toNat = i
  rw [shiftToTargetExponent_eq hi]
  constructor
  · have hshift := hX.shiftRight i
    rwa [two_zpow_add, zpow_natCast, mul_comm X, mul_div_mul_left _ _ (two_zpow_pos e).ne']
  · rw [shiftRight_mantissa, ofMantissaAndAccuracy_mantissa]
    have hhigh := Nat.lt_log2_self (n := m)
    have hlow := Nat.log2_self_le (n := m)
    refine ⟨?_, by omega, ?_⟩
    · rw [Nat.div_lt_iff_lt_mul (Nat.two_pow_pos _), ← Nat.pow_add]
      exact hhigh.trans_le (Nat.pow_le_pow_right two_pos (by omega))
    · by_cases hlarge : 52 ≤ m.log2 - i ∧ m ≠ 0
      · refine .inl ((Nat.le_div_iff_mul_le (Nat.two_pow_pos _)).2 ?_)
        rw [← Nat.pow_add]
        exact (Nat.pow_le_pow_right two_pos (by omega)).trans (hlow hlarge.2)
      · right
        by_cases hm : m = 0
        · subst hm
          rw [Nat.log2_zero] at he hi
          omega
        · omega

/-- **What is cut is rounded to the nearest number.** -/
theorem IsCut.isNearest (h : IsCut em e v) : IsNearest (em.roundedMantissa * 2 ^ e) v := by
  have hpos := two_zpow_pos e
  have hround := roundedMantissa_le em
  have hlt := h.isCanonical.mantissa_lt
  have hdist (n : ℝ) : |n * 2 ^ e - v| = |n - v / 2 ^ e| * 2 ^ e := by
    rw [← abs_of_pos hpos, ← abs_mul, abs_of_pos hpos]
    congr 1
    field_simp
  -- Among the multiples of the last bit the rounded mantissa is nearest.
  have hgrid (n : ℤ) : |em.roundedMantissa * 2 ^ e - v| ≤ |n * 2 ^ e - v| := by
    rw [hdist, hdist]
    exact mul_le_mul_of_nonneg_right (h.keeps.abs_roundedMantissa_sub_le_abs n) hpos.le
  constructor
  · refine isRepresentable_of_le (m := em.roundedMantissa) ?_ h.isCanonical.le_exponent
    rw [abs_of_nonneg (Int.natCast_nonneg _)]
    omega
  · intro y hy
    by_cases hlarge : 2 ^ (e + 52) ≤ |y|
    · obtain ⟨n, rfl⟩ := hy.exists_eq_mul hlarge
      exact hgrid n
    rcases h.isCanonical.full with hfull | hmin
    · -- A smaller number is no nearer than the smallest one with this last bit.
      have hv : (2 : ℝ) ^ (e + 52) ≤ v := by
        have hkeep := h.keeps.mantissa_le.1
        rw [le_div_iff₀ hpos] at hkeep
        refine le_trans ?_ hkeep
        rw [add_comm, two_zpow_add]
        gcongr
        exact_mod_cast hfull
      have hstep := hgrid (2 ^ 52)
      have hpow : ((2 ^ 52 : ℤ) : ℝ) * 2 ^ e = 2 ^ (e + 52) := by
        rw [add_comm e, two_zpow_add]
        norm_num
      rw [hpow, abs_of_nonpos (a := 2 ^ (e + 52) - v) (by linarith)] at hstep
      have hy' := (le_abs_self y).trans_lt (not_le.1 hlarge)
      rw [abs_of_nonpos (a := y - v) (by linarith)]
      linarith
    · subst hmin
      obtain ⟨n, rfl⟩ := hy.exists_eq_mul_least
      exact hgrid n

/-! ## 3. Rounded values -/

/-- **A finite value, as it can be packed, that is nearest to a number.** -/
structure Rounds (u : UnpackedFloat) (v : ℝ) : Prop where
  isFinite : u.isFinite = true
  isReduced : IsReduced u
  isNearest : IsNearest (valueOf u) v

theorem shift_of_lt (hm : m < 2 ^ 53) (he : -1074 ≤ e) :
    shiftToTargetExponent Format.binary64 m e .exact = (⟨m, false, false⟩, e) := by
  have hlog : m.log2 ≤ 52 := by
    by_cases hzero : m = 0
    · rw [hzero, Nat.log2_zero]
      exact Nat.zero_le _
    · exact Nat.lt_succ_iff.1 ((Nat.log2_lt hzero).2 hm)
  rw [shiftToTargetExponent_eq (i := 0) (by omega)]
  exact congrArg _ (add_zero e)

theorem shift_of_eq (he : -1074 ≤ e) :
    shiftToTargetExponent Format.binary64 (2 ^ 53) e .exact = (⟨2 ^ 52, false, false⟩, e + 1) := by
  rw [shiftToTargetExponent_eq (i := 1) (by rw [Nat.log2_two_pow]; omega)]
  have hcarry : ExtendedMantissa.ofMantissaAndAccuracy (2 ^ 53) .exact >>> 1 =
      ⟨2 ^ 52, false, false⟩ := rfl
  exact congrArg (·, e + 1) hcarry

/-- **Rounding what is known of a number** gives the nearest number. -/
theorem rounds_roundWithAccuracy (s : Sign) (hX : Keeps (.ofMantissaAndAccuracy m acc) X)
    (he : e ≤ Format.binary64.targetExponent (totalExponent m e)) :
    Rounds (roundWithAccuracy Format.binary64 s m e acc) (signOf s * (X * 2 ^ e)) := by
  have hcut := isCut_shiftToTargetExponent hX he
  unfold roundWithAccuracy
  generalize shiftToTargetExponent Format.binary64 m e acc = cut at hcut ⊢
  obtain ⟨em, t⟩ := cut
  dsimp only at hcut ⊢
  have hnearest := hcut.isNearest.signOf_mul s
  have hround := roundedMantissa_le em
  have hfloor := le_roundedMantissa em
  obtain ⟨hlt, ht, hfull⟩ := hcut.isCanonical
  generalize em.roundedMantissa = n at hnearest hround hfloor ⊢
  rcases (by omega : n < 2 ^ 53 ∨ n = 2 ^ 53) with hn | rfl
  · rw [shift_of_lt hn ht]
    dsimp only
    by_cases hzero : n = 0
    · rw [dif_pos hzero]
      rw [hzero, Nat.cast_zero, zero_mul, mul_zero] at hnearest
      exact ⟨rfl, trivial, hnearest⟩
    · rw [dif_neg hzero]
      exact ⟨rfl, ⟨hn, ht, hfull.imp_left fun h => h.trans hfloor⟩, hnearest⟩
  · -- Rounded up to a 54th bit, the mantissa is a power of two.
    rw [shift_of_eq ht]
    refine ⟨rfl, ⟨by norm_num, by omega, .inl le_rfl⟩, ?_⟩
    have hcarry : ((2 ^ 52 : ℕ) : ℝ) * 2 ^ (t + 1) = ((2 ^ 53 : ℕ) : ℝ) * 2 ^ t := by
      rw [two_zpow_add]
      norm_num
      ring
    rw [← hcarry] at hnearest
    exact hnearest

theorem log2_shiftLeft (hm : 0 < m) (i : ℕ) : (m <<< i).log2 = m.log2 + i := by
  rw [Nat.shiftLeft_eq]
  refine (Nat.log2_eq_iff (Nat.mul_pos hm (Nat.two_pow_pos i)).ne').2 ⟨?_, ?_⟩
  · rw [Nat.pow_add]
    exact Nat.mul_le_mul_right _ (Nat.log2_self_le hm.ne')
  · rw [Nat.add_right_comm, Nat.pow_add]
    exact Nat.mul_lt_mul_of_pos_right Nat.lt_log2_self (Nat.two_pow_pos i)

theorem cast_shiftLeft_mul (m i : ℕ) (e : ℤ) :
    ((m <<< i : ℕ) : ℝ) * 2 ^ (e - (i : ℤ)) = m * 2 ^ e := by
  have hsplit : (2 : ℝ) ^ e = 2 ^ i * 2 ^ (e - (i : ℤ)) := by
    rw [← zpow_natCast, ← two_zpow_add, add_sub_cancel]
  rw [hsplit, Nat.shiftLeft_eq, ← mul_assoc]
  push_cast
  rfl

theorem rounds_round (s : Sign) (hm : 0 < m) :
    Rounds (UnpackedFloat.round Format.binary64 s m e) (signOf s * (m * 2 ^ e)) := by
  unfold UnpackedFloat.round decreaseExponent
  dsimp only
  generalize ht : Format.binary64.targetExponent (totalExponent m e) = t
  generalize hi : (e - t).toNat = i
  rw [← cast_shiftLeft_mul m i e]
  refine rounds_roundWithAccuracy s (keeps_exact _) ?_
  change max (((m.log2 : ℤ) + 1 + e) - 53) (-1074) = t at ht
  change e - (i : ℤ) ≤ max ((((m <<< i).log2 : ℕ) : ℤ) + 1 + (e - (i : ℤ)) - 53) (-1074)
  rw [log2_shiftLeft hm]
  omega

theorem rounds_normalize (m e : ℤ) (s : Sign) :
    Rounds (UnpackedFloat.normalize Format.binary64 m e s) (m * 2 ^ e) := by
  unfold UnpackedFloat.normalize
  rcases lt_trichotomy m 0 with hm | rfl | hm
  · rw [compare_lt_iff_lt.2 hm]
    have hcast : ((-m).toNat : ℤ) = -m := Int.toNat_of_nonneg (by omega)
    have hround := rounds_round (e := e) .negative (m := (-m).toNat) (by omega)
    rw [← Int.cast_natCast (R := ℝ), hcast] at hround
    simpa [signOf] using hround
  · rw [Int.cast_zero, zero_mul]
    exact ⟨rfl, trivial, isRepresentable_zero.isNearest⟩
  · rw [compare_gt_iff_gt.2 hm]
    have hcast : (m.toNat : ℤ) = m := Int.toNat_of_nonneg hm.le
    have hround := rounds_round (e := e) .positive (m := m.toNat) (by omega)
    rw [← Int.cast_natCast (R := ℝ), hcast] at hround
    simpa [signOf] using hround

end SphereIndex.Double
