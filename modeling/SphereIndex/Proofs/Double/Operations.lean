import Mathlib.Analysis.Real.Sqrt
import SphereIndex.Proofs.Double.Rounding

/-!
# The operations of doubles

Sums, differences, products, quotients and square roots of finite doubles are the exact results,
rounded to the nearest double.  Every operation hands its exact result to the rounding with no more
digits cut than are cut there again.
-/

namespace SphereIndex.Double

open Float.Model (Format UnpackedFloat totalExponent)
open Float.Model.UnpackedFloat

variable {u v : UnpackedFloat} {x y : Float}

/-- Where bits are cut when a mantissa has all of them, and when the exponent is too small. -/
theorem le_targetExponent {q : ℕ} {t : ℤ} (h : 2 ^ 52 ≤ q ∨ t ≤ -1074) :
    t ≤ Format.binary64.targetExponent (totalExponent q t) := by
  change t ≤ max ((q.log2 : ℤ) + 1 + t - 53) (-1074)
  rcases h with hq | ht
  · have := (Nat.le_log2 (by omega)).2 hq
    omega
  · omega

/-! ## 1. Sums and products -/

theorem rounds_zero (s : Sign) : Rounds (.zero s) 0 :=
  ⟨rfl, trivial, isRepresentable_zero.isNearest⟩

/-- A value is its own rounding. -/
theorem IsReduced.rounds (hu : IsReduced u) (hf : u.isFinite = true) : Rounds u (valueOf u) :=
  ⟨hf, hu, hu.isRepresentable.isNearest⟩

theorem rounds_mul (hu : IsReduced u) (hv : IsReduced v) (hfu : u.isFinite = true)
    (hfv : v.isFinite = true) : Rounds (mul Format.binary64 u v) (valueOf u * valueOf v) := by
  cases u with
  | notANumber => cases hfu
  | infinity s => cases hfu
  | zero s => cases v with
    | notANumber => cases hfv
    | infinity t => cases hfv
    | zero t | finite t n k hn => exact (zero_mul (valueOf _)).symm ▸ rounds_zero (s * t)
  | finite s m e hm => cases v with
    | notANumber => cases hfv
    | infinity t => cases hfv
    | zero t => exact (mul_zero (valueOf _)).symm ▸ rounds_zero (s * t)
    | finite t n k hn =>
      have hexp : e + k ≤ Format.binary64.targetExponent (totalExponent (m * n) (e + k)) := by
        refine le_targetExponent (or_iff_not_imp_left.2 fun hsmall => ?_)
        -- Otherwise neither of the mantissas has all bits.
        have hle := Nat.le_mul_of_pos_right m hn
        have hle' := Nat.le_mul_of_pos_left n hm
        have := hu.full.resolve_left fun h => hsmall (h.trans hle)
        have := hv.full.resolve_left fun h => hsmall (h.trans hle')
        omega
      have hround := rounds_roundWithAccuracy (s * t) (keeps_exact (m * n)) hexp
      have hvalue : signOf (s * t) * (((m * n : ℕ) : ℝ) * 2 ^ (e + k)) =
          valueOf (.finite s m e hm) * valueOf (.finite t n k hn) := by
        change _ = signOf s * (m * 2 ^ e) * (signOf t * (n * 2 ^ k))
        rw [signOf_mul, two_zpow_add, Nat.cast_mul]
        ring
      rwa [hvalue] at hround

theorem rounds_add (hu : IsReduced u) (hv : IsReduced v) (hfu : u.isFinite = true)
    (hfv : v.isFinite = true) : Rounds (add Format.binary64 u v) (valueOf u + valueOf v) := by
  cases u with
  | notANumber => cases hfu
  | infinity s => cases hfu
  | zero s => cases v with
    | notANumber => cases hfv
    | infinity t => cases hfv
    | zero t =>
      rw [show valueOf (.zero s) + valueOf (.zero t) = 0 from add_zero 0]
      cases s <;> cases t <;> exact rounds_zero _
    | finite t n k hn => exact (zero_add (valueOf _)).symm ▸ hv.rounds rfl
  | finite s m e hm => cases v with
    | notANumber => cases hfv
    | infinity t => cases hfv
    | zero t => exact (add_zero (valueOf _)).symm ▸ hu.rounds rfl
    | finite t n k hn =>
      have hround := rounds_normalize (s.apply (m <<< (e - min e k).toNat : ℕ) +
        t.apply (n <<< (k - min e k).toNat : ℕ)) (min e k) .positive
      have hshift (m : ℕ) {e f : ℤ} (h : f ≤ e) :
          ((m <<< (e - f).toNat : ℕ) : ℝ) * 2 ^ f = m * 2 ^ e := by
        rw [← cast_shiftLeft_mul m (e - f).toNat e]
        congr 2
        omega
      have hvalue : ((s.apply (m <<< (e - min e k).toNat : ℕ) +
          t.apply (n <<< (k - min e k).toNat : ℕ) : ℤ) : ℝ) * 2 ^ min e k =
          valueOf (.finite s m e hm) + valueOf (.finite t n k hn) := by
        rw [Int.cast_add, cast_apply, cast_apply, Int.cast_natCast, Int.cast_natCast, add_mul,
          mul_assoc, mul_assoc, hshift m (min_le_left e k), hshift n (min_le_right e k)]
        rfl
      rwa [hvalue] at hround

theorem apply_neg (s : Sign) (n : ℤ) : (-s).apply n = -s.apply n := by
  cases s
  · exact (Int.neg_neg n).symm
  · rfl

/-- Subtracting is adding what has the other sign. -/
theorem sub_eq_add (u v : UnpackedFloat) :
    sub Format.binary64 u v = add Format.binary64 u v.neg := by
  cases u with
  | notANumber => rfl
  | infinity s => cases v with
    | notANumber => rfl
    | infinity t => cases s <;> cases t <;> rfl
    | zero t | finite t n k hn => rfl
  | zero s => cases v with
    | notANumber | infinity t | finite t n k hn => rfl
    | zero t => cases s <;> cases t <;> rfl
  | finite s m e hm => cases v with
    | notANumber | infinity t | zero t => rfl
    | finite t n k hn =>
      change UnpackedFloat.normalize Format.binary64 (_ - t.apply _) _ _ =
        UnpackedFloat.normalize Format.binary64 (_ + (-t).apply _) _ _
      rw [apply_neg, ← Int.sub_eq_add_neg]

theorem rounds_sub (hu : IsReduced u) (hv : IsReduced v) (hfu : u.isFinite = true)
    (hfv : v.isFinite = true) : Rounds (sub Format.binary64 u v) (valueOf u - valueOf v) := by
  rw [sub_eq_add, sub_eq_add_neg, ← valueOf_neg]
  exact rounds_add hu hv.neg hfu (by cases v <;> exact hfv)

/-! ## 2. Quotients -/

/-- A remainder tells where a quotient stands between two integers. -/
theorem keeps_div (m : ℕ) {n : ℕ} (hn : 0 < n) :
    Keeps (.ofMantissaAndAccuracy (m / n) (accuracyOfFraction (m % n) n)) ((m : ℝ) / n) := by
  have hn' : (0 : ℝ) < n := mod_cast hn
  have hsplit : (m : ℝ) / n = (m / n : ℕ) + (m % n : ℕ) / n := by
    rw [eq_comm, ← mul_right_cancel_iff_of_pos hn', add_mul, div_mul_cancel₀ _ hn'.ne',
      div_mul_cancel₀ _ hn'.ne']
    exact_mod_cast Nat.div_add_mod' m n
  have hlt := Nat.mod_lt m hn
  rw [hsplit]
  generalize m / n = q
  generalize m % n = r at hlt
  unfold accuracyOfFraction
  by_cases hr : r = 0
  · rw [if_pos hr, hr]
    exact .exact (by simp)
  · rw [if_neg hr]
    have hpos : (0 : ℝ) < (r : ℝ) / n := div_pos (mod_cast Nat.pos_of_ne_zero hr) hn'
    rcases lt_trichotomy (2 * r) n with hhalf | hhalf | hhalf
    · rw [compare_lt_iff_lt.2 hhalf]
      have : (r : ℝ) / n < 1 / 2 := by
        rw [div_lt_div_iff₀ hn' two_pos]
        exact_mod_cast (by omega : r * 2 < 1 * n)
      exact .below (by linarith) (by linarith)
    · rw [compare_eq_iff_eq.2 hhalf]
      have : (r : ℝ) / n = 1 / 2 := by
        rw [div_eq_div_iff hn'.ne' two_ne_zero]
        exact_mod_cast (by omega : r * 2 = 1 * n)
      exact .half (by linarith)
    · rw [compare_gt_iff_gt.2 hhalf]
      have : (1 : ℝ) / 2 < (r : ℝ) / n := by
        rw [div_lt_div_iff₀ two_pos hn']
        exact_mod_cast (by omega : 1 * n < r * 2)
      have : (r : ℝ) / n < 1 := (div_lt_one hn').2 (mod_cast hlt)
      exact .above (by linarith) (by linarith)

theorem rounds_div (hfu : u.isFinite = true) (hfv : v.isFinite = true) (hv : valueOf v ≠ 0) :
    Rounds (div Format.binary64 u v) (valueOf u / valueOf v) := by
  cases v with
  | notANumber => cases hfv
  | infinity t => cases hfv
  | zero t => exact absurd rfl hv
  | finite t n k hn => cases u with
    | notANumber => cases hfu
    | infinity s => cases hfu
    | zero s => exact (zero_div (valueOf _)).symm ▸ rounds_zero (s / t)
    | finite s m e hm =>
      change Rounds (roundWithAccuracy _ _ _ _ _) _
      generalize ht : min (e - k) (Format.binary64.targetExponent
        (totalExponent m e - totalExponent n k)) = f
      generalize hi : (e - k - f).toNat = i
      change min (e - k) (max ((m.log2 + 1 + e) - (n.log2 + 1 + k) - 53) (-1074)) = f at ht
      have hexp : f ≤ Format.binary64.targetExponent (totalExponent (m <<< i / n) f) := by
        refine le_targetExponent (or_iff_not_imp_right.2 fun hlarge => ?_)
        -- Shifted so far the dividend has 52 bits more than the divisor.
        refine (Nat.le_div_iff_mul_le hn).2 ?_
        rw [Nat.shiftLeft_eq]
        calc
          2 ^ 52 * n ≤ 2 ^ 52 * 2 ^ (n.log2 + 1) := Nat.mul_le_mul_left _ Nat.lt_log2_self.le
          _ = 2 ^ (52 + (n.log2 + 1)) := (Nat.pow_add ..).symm
          _ ≤ 2 ^ (m.log2 + i) := Nat.pow_le_pow_right two_pos (by omega)
          _ = 2 ^ m.log2 * 2 ^ i := Nat.pow_add ..
          _ ≤ m * 2 ^ i := Nat.mul_le_mul_right _ (Nat.log2_self_le hm.ne')
      have hround := rounds_roundWithAccuracy (s / t) (keeps_div (m <<< i) hn) hexp
      have hvalue : signOf (s / t) * (((m <<< i : ℕ) : ℝ) / n * 2 ^ f) =
          valueOf (.finite s m e hm) / valueOf (.finite t n k hn) := by
        have hshift := cast_shiftLeft_mul m i (e - k)
        rw [(by omega : e - k - (i : ℤ) = f), zpow_sub₀ two_ne_zero] at hshift
        have hsign : signOf t / signOf t = 1 := by cases t <;> norm_num [signOf]
        rw [div_mul_eq_mul_div, hshift, signOf_div]
        have hn' : (n : ℝ) ≠ 0 := mod_cast hn.ne'
        have hk := (two_zpow_pos k).ne'
        change _ = signOf s * (m * 2 ^ e) / (signOf t * (n * 2 ^ k))
        cases t <;> (simp only [signOf]; field_simp)
      rwa [hvalue] at hround

/-! ## 3. Square roots -/

/-- The remainder of a root tells on which side of a half it is: a half is no root of an integer. -/
theorem keeps_sqrt (m : ℕ) :
    Keeps (.ofMantissaAndAccuracy m.sqrt (if m - m.sqrt * m.sqrt = 0 then .exact
      else .inexact (if m - m.sqrt * m.sqrt ≤ m.sqrt then .lt else .gt))) √(m : ℝ) := by
  have hlow := Nat.sqrt_le m
  have hhigh := Nat.lt_succ_sqrt m
  generalize m.sqrt = r at hlow hhigh ⊢
  have hr : (0 : ℝ) ≤ r := Nat.cast_nonneg r
  split
  · have : m = r * r := by omega
    rw [this, Nat.cast_mul, Real.sqrt_mul_self hr]
    exact .exact rfl
  · have hlt : (r : ℝ) * r < m := mod_cast (by omega : r * r < m)
    split
    · refine .below (Real.lt_sqrt_of_sq_lt (by linarith)) ?_
      rw [Real.sqrt_lt' (by linarith)]
      have : (m : ℝ) ≤ r * r + r := mod_cast (by omega : m ≤ r * r + r)
      nlinarith
    · refine .above (Real.lt_sqrt_of_sq_lt ?_) ?_
      · have : (r : ℝ) * r + r + 1 ≤ m := mod_cast (by omega : r * r + r + 1 ≤ m)
        nlinarith
      · rw [Real.sqrt_lt' (by linarith)]
        have : (m : ℝ) < (r + 1) * (r + 1) := mod_cast hhigh
        linarith

theorem rounds_sqrt (hfu : u.isFinite = true) (hu : 0 ≤ valueOf u) :
    Rounds (UnpackedFloat.sqrt Format.binary64 u) √(valueOf u) := by
  cases u with
  | notANumber => cases hfu
  | infinity s => cases hfu
  | zero s =>
    rw [show √(valueOf (.zero s)) = 0 from Real.sqrt_zero]
    exact rounds_zero s
  | finite s m e hm => cases s with
    | negative =>
      have hpos : (0 : ℝ) < m * 2 ^ e := mul_pos (mod_cast hm) (two_zpow_pos e)
      rw [valueOf_negative] at hu
      linarith
    | positive =>
      change Rounds (roundWithAccuracy _ _ _ _ _) _
      generalize ht : min (e.ediv 2) (Format.binary64.targetExponent
        ((totalExponent m e + 1).ediv 2)) = f
      generalize hi : (e - 2 * f).toNat = i
      change min (e / 2) (max ((m.log2 + 1 + e + 1) / 2 - 53) (-1074)) = f at ht
      have hexp : f ≤ Format.binary64.targetExponent (totalExponent (m <<< i).sqrt f) := by
        refine le_targetExponent (or_iff_not_imp_right.2 fun hlarge => ?_)
        refine Nat.le_sqrt.2 ?_
        rw [Nat.shiftLeft_eq]
        calc
          2 ^ 52 * 2 ^ 52 = 2 ^ 104 := (Nat.pow_add ..).symm
          _ ≤ 2 ^ (m.log2 + i) := Nat.pow_le_pow_right two_pos (by omega)
          _ = 2 ^ m.log2 * 2 ^ i := Nat.pow_add ..
          _ ≤ m * 2 ^ i := Nat.mul_le_mul_right _ (Nat.log2_self_le hm.ne')
      have hround := rounds_roundWithAccuracy .positive (keeps_sqrt (m <<< i)) hexp
      have hvalue : signOf .positive * (√((m <<< i : ℕ) : ℝ) * 2 ^ f) =
          √(valueOf (.finite .positive m e hm)) := by
        have hshift := cast_shiftLeft_mul m i e
        rw [(by omega : e - (i : ℤ) = f + f), two_zpow_add, ← mul_assoc] at hshift
        rw [valueOf_positive, signOf, one_mul, ← hshift, mul_assoc,
          Real.sqrt_mul (Nat.cast_nonneg _), Real.sqrt_mul_self (two_zpow_pos f).le]
      rwa [hvalue] at hround

/-! ## 4. Packed results -/

/-- **A double as the result of an operation** whose exact result is a number: the nearest double,
or infinite where the number is too large. -/
structure IsResult (x : Float) (v : ℝ) : Prop where
  isFinite : |v| ≤ 2 ^ (1023 : ℤ) → x.isFinite = true
  isNearest : x.isFinite = true → IsNearest (value x) v

/-- **What has been rounded is read back as it was packed**, or as infinite with the same sign. -/
theorem Rounds.packed {v : ℝ} (h : Rounds u v) :
    unpack Format.binary64 (pack Format.binary64 u) = u ∨
      ∃ s, unpack Format.binary64 (pack Format.binary64 u) = .infinity s ∧
        2 ^ (1024 : ℤ) ≤ signOf s * valueOf u := by
  by_cases hmax : ∃ s m e hm, u = .finite s m e hm ∧ 971 < e
  · obtain ⟨s, m, e, hm, rfl, he⟩ := hmax
    refine .inr ⟨s, pack_of_lt he hm, ?_⟩
    have hfull : 2 ^ 52 ≤ m := h.isReduced.full.resolve_right (by omega)
    calc
      (2 : ℝ) ^ (1024 : ℤ) = 2 ^ 52 * 2 ^ (972 : ℤ) := by
        rw [← zpow_natCast, ← two_zpow_add]
        norm_num
      _ ≤ m * 2 ^ e :=
        mul_le_mul (mod_cast hfull) (two_zpow_le he) (two_zpow_pos _).le (Nat.cast_nonneg m)
      _ = signOf s * (signOf s * (m * 2 ^ e)) := by cases s <;> simp [signOf]
  · exact .inl (h.isReduced.unpack_pack fun s m e hm hu =>
      not_lt.1 fun he => hmax ⟨s, m, e, hm, hu, he⟩)

theorem Rounds.isResult {v : ℝ} (h : Rounds u v) : IsResult (.ofModel (.pack u)) v := by
  have hfinite : (Float.ofModel (.pack u)).isFinite = true ↔
      (unpack Format.binary64 (pack Format.binary64 u)).isFinite = true := Iff.rfl
  have hvalue : value (.ofModel (.pack u)) =
      valueOf (unpack Format.binary64 (pack Format.binary64 u)) := rfl
  rcases h.packed with hunpack | ⟨s, hunpack, hlarge⟩
  · rw [hunpack] at hfinite hvalue
    exact ⟨fun _ => hfinite.2 h.isFinite, fun _ => hvalue ▸ h.isNearest⟩
  · rw [hunpack] at hfinite
    constructor
    · intro hv
      -- What is packed as infinite is larger than all numbers of this size.
      exfalso
      obtain ⟨hlow, hhigh⟩ := abs_le.1 (h.isNearest.abs_le_two_zpow (by decide) hv)
      have hpow : (2 : ℝ) ^ (1023 : ℤ) < 2 ^ (1024 : ℤ) :=
        zpow_lt_zpow_right₀ one_lt_two (by decide)
      generalize (2 : ℝ) ^ (1023 : ℤ) = bound at hlow hhigh hpow
      generalize (2 : ℝ) ^ (1024 : ℤ) = large at hlarge hpow
      cases s <;> simp only [signOf] at hlarge <;> linarith
    · exact fun hread => absurd (hfinite.1 hread) Bool.false_ne_true

theorem IsResult.abs_le {v : ℝ} {e : ℤ} (h : IsResult x v) (he : -1074 ≤ e) (he' : e ≤ 1023)
    (hv : |v| ≤ 2 ^ e) : x.isFinite = true ∧ |value x| ≤ 2 ^ e := by
  have hfinite := h.isFinite (hv.trans (two_zpow_le he'))
  exact ⟨hfinite, (h.isNearest hfinite).abs_le_two_zpow he hv⟩

section

variable (hx : x.isFinite = true) (hy : y.isFinite = true)
include hx

theorem isResult_sqrt (h : 0 ≤ value x) : IsResult x.sqrt √(value x) := (rounds_sqrt hx h).isResult

include hy

theorem isResult_mul : IsResult (x * y) (value x * value y) :=
  (rounds_mul (isReduced_unpack x) (isReduced_unpack y) hx hy).isResult

theorem isResult_add : IsResult (x + y) (value x + value y) :=
  (rounds_add (isReduced_unpack x) (isReduced_unpack y) hx hy).isResult

theorem isResult_sub : IsResult (x - y) (value x - value y) :=
  (rounds_sub (isReduced_unpack x) (isReduced_unpack y) hx hy).isResult

theorem isResult_div (h : value y ≠ 0) : IsResult (x / y) (value x / value y) :=
  (rounds_div hx hy h).isResult

end

/-! ## 5. Operands that are not finite -/

theorem isFinite_of_pack (h : (Float.ofModel (.pack u)).isFinite = true) : u.isFinite = true := by
  cases u with
  | notANumber => cases h
  | infinity s => cases s <;> cases h
  | zero s | finite s m e hm => rfl

theorem isFinite_of_add_unpacked (h : (add Format.binary64 u v).isFinite = true) :
    u.isFinite = true ∧ v.isFinite = true := by
  cases u with
  | notANumber => cases h
  | infinity s => cases v with
    | infinity t => cases s <;> cases t <;> cases h
    | _ => cases h
  | zero s | finite s m e hm => cases v with
    | notANumber | infinity t => cases h
    | _ => exact ⟨rfl, rfl⟩

/-- **No finite sum has a term that is not finite.** -/
theorem isFinite_of_add (h : (x + y).isFinite = true) : x.isFinite = true ∧ y.isFinite = true :=
  isFinite_of_add_unpacked (isFinite_of_pack h)

theorem isFinite_of_sub (h : (x - y).isFinite = true) : x.isFinite = true ∧ y.isFinite = true := by
  have hsub := isFinite_of_pack h
  rw [sub_eq_add] at hsub
  obtain ⟨hx, hy⟩ := isFinite_of_add_unpacked hsub
  refine ⟨hx, ?_⟩
  change y.toModel.unpack.isFinite = true
  generalize y.toModel.unpack = v at hy
  cases v <;> exact hy

theorem isFinite_of_mul (h : (x * y).isFinite = true) : x.isFinite = true ∧ y.isFinite = true := by
  have hmul := isFinite_of_pack h
  change x.toModel.unpack.isFinite = true ∧ y.toModel.unpack.isFinite = true
  generalize x.toModel.unpack = u at hmul ⊢
  generalize y.toModel.unpack = v at hmul ⊢
  cases u with
  | notANumber => cases hmul
  | infinity s => cases v <;> cases hmul
  | zero s | finite s m e hm => cases v with
    | notANumber | infinity t => cases hmul
    | _ => exact ⟨rfl, rfl⟩

theorem unpack_sqrt_of_isFinite_eq_false (hx : x.isFinite = false) :
    x.sqrt.toModel.unpack = .notANumber ∨ x.sqrt.toModel.unpack = .infinity .positive := by
  change x.toModel.unpack.isFinite = false at hx
  change unpack Format.binary64 (pack Format.binary64
      (UnpackedFloat.sqrt Format.binary64 x.toModel.unpack)) = _ ∨
    unpack Format.binary64 (pack Format.binary64
      (UnpackedFloat.sqrt Format.binary64 x.toModel.unpack)) = _
  generalize x.toModel.unpack = u at hx ⊢
  cases u with
  | notANumber => exact .inl rfl
  | infinity s => cases s with
    | negative => exact .inl rfl
    | positive => exact .inr rfl
  | zero s | finite s m e hm => cases hx

/-- **An infinite root has the reciprocal zero.** -/
theorem value_one_div_sqrt (hx : x.isFinite = false) (h : (1 / x.sqrt).isFinite = true) :
    value (1 / x.sqrt) = 0 := by
  change (unpack Format.binary64 (pack Format.binary64
    (div Format.binary64 (1 : Float).toModel.unpack x.sqrt.toModel.unpack))).isFinite = true at h
  change valueOf (unpack Format.binary64 (pack Format.binary64
    (div Format.binary64 (1 : Float).toModel.unpack x.sqrt.toModel.unpack))) = 0
  rcases unpack_sqrt_of_isFinite_eq_false hx with hroot | hroot
  · rw [hroot] at h
    cases h
  · rw [hroot]
    rfl

/-- Nothing finite is larger than what is not finite. -/
theorem not_abs_le_of_isFinite_eq_false (hx : x.isFinite = false) (hy : y.isFinite = true) :
    ¬x.abs ≤ y := by
  intro hle
  obtain ⟨a, ha, b, hb, hab⟩ := le_iff.1 hle
  change rank x.toModel.abs.unpack = some a at ha
  change rank y.toModel.unpack = some b at hb
  change x.toModel.unpack.isFinite = false at hx
  change y.toModel.unpack.isFinite = true at hy
  rw [unpack_abs] at ha
  generalize x.toModel.unpack = u at hx ha
  generalize y.toModel.unpack = v at hy hb
  cases u with
  | notANumber => cases ha
  | zero s | finite s m e hm => cases hx
  | infinity s =>
    cases ha
    cases v with
    | notANumber | infinity t => cases hy
    | zero t =>
      cases hb
      exact absurd hab (by decide)
    | finite t n k hn =>
      cases t <;> cases hb <;> simp [Prod.Lex.toLex_le_toLex] at hab

end SphereIndex.Double
