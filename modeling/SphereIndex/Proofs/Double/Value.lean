import SphereIndex.Proofs.Double.Nearest
import SphereIndex.Proofs.DoubleSign

/-!
# The number of a double

A finite double stands for a real number, its mantissa times a power of two.  Doubles are compared
as these numbers are, and what is packed with a mantissa as large as it can be is read back unless
its exponent is too large.
-/

namespace SphereIndex.Double

open Float.Model (Format UnpackedFloat)
open Float.Model.UnpackedFloat

variable {s : Sign} {m n : ℕ} {e k : ℤ} {u v : UnpackedFloat} {x y : Float}

/-! ## 1. Values -/

/-- A sign as a factor. -/
def signOf : Sign → ℝ
  | .negative => -1
  | .positive => 1

theorem signOf_mul (s t : Sign) : signOf (s * t) = signOf s * signOf t := by
  cases s <;> cases t
  · change (1 : ℝ) = -1 * -1
    norm_num
  · exact (mul_one _).symm
  · exact (one_mul _).symm
  · exact (one_mul _).symm

theorem signOf_div (s t : Sign) : signOf (s / t) = signOf s * signOf t := signOf_mul s t

theorem signOf_neg (s : Sign) : signOf (-s) = -signOf s := by
  cases s
  · change (1 : ℝ) = -(-1)
    norm_num
  · rfl

theorem cast_apply (s : Sign) (n : ℤ) : ((s.apply n : ℤ) : ℝ) = signOf s * n := by
  cases s
  · change ((-n : ℤ) : ℝ) = -1 * n
    push_cast
    ring
  · exact (one_mul _).symm

theorem IsNearest.signOf_mul {a v : ℝ} (h : IsNearest a v) (s : Sign) :
    IsNearest (signOf s * a) (signOf s * v) := by
  cases s
  · simpa only [signOf, neg_one_mul] using h.neg
  · simpa only [signOf, one_mul] using h

/-- **The number that an unpacked double stands for**, 0 if for none. -/
noncomputable def valueOf : UnpackedFloat → ℝ
  | .finite s m e _ => signOf s * (m * 2 ^ e)
  | _ => 0

theorem valueOf_negative (h : 0 < m) : valueOf (.finite .negative m e h) = -(m * 2 ^ e) :=
  neg_one_mul _

theorem valueOf_positive (h : 0 < m) : valueOf (.finite .positive m e h) = m * 2 ^ e :=
  one_mul _

/-- The mantissa of an unpacked double is as large as it can be. -/
def IsReduced : UnpackedFloat → Prop
  | .finite _ m e _ => IsCanonical m e
  | _ => True

/-- **The number that a double stands for**, 0 if for none. -/
noncomputable def value (x : Float) : ℝ := valueOf x.toModel.unpack

theorem isReduced_unpack (x : Float) : IsReduced x.toModel.unpack := by
  have hunpacks := unpacks x.toModel.toBits.toBitVec
  change Unpacks _ x.toModel.unpack at hunpacks
  generalize x.toModel.unpack = u at hunpacks
  cases hunpacks with
  | finite s hm h => exact h
  | _ => trivial

theorem IsCanonical.isRepresentable (h : IsCanonical m e) : IsRepresentable (m * 2 ^ e) :=
  ⟨m, e, by rw [abs_of_nonneg (Int.natCast_nonneg m)]; exact_mod_cast h.mantissa_lt, h.le_exponent,
    by push_cast; rfl⟩

theorem IsReduced.isRepresentable (h : IsReduced u) : IsRepresentable (valueOf u) := by
  cases u with
  | finite s m e hm => cases s with
    | negative =>
      rw [valueOf_negative]
      exact (IsCanonical.isRepresentable h).neg
    | positive =>
      rw [valueOf_positive]
      exact IsCanonical.isRepresentable h
  | _ => exact isRepresentable_zero

theorem IsReduced.neg (h : IsReduced u) : IsReduced u.neg := by
  cases u <;> exact h

theorem valueOf_neg (u : UnpackedFloat) : valueOf u.neg = -valueOf u := by
  cases u with
  | finite s m e hm =>
    change signOf (-s) * _ = -(signOf s * _)
    rw [signOf_neg, neg_mul]
  | _ => exact neg_zero.symm

theorem valueOf_abs (u : UnpackedFloat) : valueOf u.abs = |valueOf u| := by
  cases u with
  | finite s m e hm =>
    have hpos : (0 : ℝ) ≤ m * 2 ^ e := mul_nonneg (Nat.cast_nonneg m) (two_zpow_pos e).le
    change valueOf (.finite .positive m e hm) = _
    cases s
    · rw [valueOf_positive, valueOf_negative, abs_neg, abs_of_nonneg hpos]
    · rw [valueOf_positive, abs_of_nonneg hpos]
  | _ => exact abs_zero.symm

theorem value_abs (x : Float) : value x.abs = |value x| := by
  unfold value
  rw [← valueOf_abs, ← unpack_abs]
  rfl

theorem isFinite_abs (x : Float) : x.abs.isFinite = x.isFinite := by
  change x.toModel.abs.unpack.isFinite = x.toModel.unpack.isFinite
  rw [unpack_abs]
  cases x.toModel.unpack <;> rfl

/-! ## 2. Order -/

theorem IsCanonical.mul_lt_mul (hm : IsCanonical m e) (hn : IsCanonical n k)
    (h : e < k ∨ e = k ∧ m < n) : (m : ℝ) * 2 ^ e < n * 2 ^ k := by
  rcases h with hlt | ⟨rfl, hlt⟩
  · have hshift := hm.lt_shiftLeft hn hlt
    rw [Nat.shiftLeft_eq] at hshift
    rw [two_zpow_eq_pow_mul hlt.le, ← mul_assoc]
    exact mul_lt_mul_of_pos_right (mod_cast hshift) (two_zpow_pos e)
  · exact mul_lt_mul_of_pos_right (mod_cast hlt) (two_zpow_pos e)

/-- The number that stands at a rank. -/
noncomputable def numberOf (a : ℤ ×ₗ ℤ ×ₗ ℤ) : ℝ :=
  (ofLex (ofLex a).2).2 * 2 ^ ((ofLex a).1 * (ofLex (ofLex a).2).1)

theorem valueOf_of_rank {a : ℤ ×ₗ ℤ ×ₗ ℤ} (h : rank u = some a) : valueOf u = numberOf a := by
  cases u with
  | notANumber => cases h
  | infinity s =>
    change 0 = numberOf a
    cases s <;> cases h <;> simp [numberOf]
  | zero s =>
    change 0 = numberOf a
    cases h
    simp [numberOf]
  | finite s m e hm => cases s with
    | negative =>
      cases h
      rw [valueOf_negative]
      simp [numberOf]
    | positive =>
      cases h
      rw [valueOf_positive]
      simp [numberOf]

/-- **The order of the ranks is that of the numbers.** -/
theorem valueOf_lt_of_rank_lt {a b : ℤ ×ₗ ℤ ×ₗ ℤ} (ha : rank u = some a) (hb : rank v = some b)
    (hu : IsReduced u) (hv : IsReduced v) (hfu : u.isFinite = true) (hfv : v.isFinite = true)
    (hab : a < b) : valueOf u < valueOf v := by
  have hpos {m : ℕ} (hm : 0 < m) (e : ℤ) : (0 : ℝ) < m * 2 ^ e :=
    mul_pos (mod_cast hm) (two_zpow_pos e)
  cases u with
  | notANumber => cases hfu
  | infinity s => cases hfu
  | zero s => cases v with
    | notANumber => cases hfv
    | infinity t => cases hfv
    | zero t =>
      cases ha
      cases hb
      exact absurd hab (lt_irrefl _)
    | finite t n k hn => cases t with
      | negative =>
        cases ha
        cases hb
        exact absurd hab (by simp [Prod.Lex.toLex_lt_toLex])
      | positive =>
        rw [valueOf_positive]
        exact hpos hn k
  | finite s m e hm => cases v with
    | notANumber => cases hfv
    | infinity t => cases hfv
    | zero t => cases s with
      | negative =>
        rw [valueOf_negative]
        exact neg_neg_of_pos (hpos hm e)
      | positive =>
        cases ha
        cases hb
        exact absurd hab (by simp [Prod.Lex.toLex_lt_toLex])
    | finite t n k hn =>
      cases s <;> cases t <;> cases ha <;> cases hb <;>
        simp only [Prod.Lex.toLex_lt_toLex, lt_self_iff_false, false_or, true_and] at hab
      · -- Of negative numbers the one with the larger mantissa comes first.
        have := hv.mul_lt_mul hu (by omega)
        rw [valueOf_negative, valueOf_negative]
        exact neg_lt_neg this
      · rw [valueOf_negative, valueOf_positive]
        exact (neg_neg_of_pos (hpos hm e)).trans (hpos hn k)
      · omega
      · rw [valueOf_positive, valueOf_positive]
        exact hu.mul_lt_mul hv (by omega)

theorem exists_rank (hu : u.isFinite = true) : ∃ a, rank u = some a := by
  cases u with
  | notANumber => cases hu
  | infinity s => cases hu
  | zero s => exact ⟨_, rfl⟩
  | finite s m e hm => cases s <;> exact ⟨_, rfl⟩

/-- **Finite doubles are compared as numbers.** -/
theorem le_iff_value (hx : x.isFinite = true) (hy : y.isFinite = true) :
    x ≤ y ↔ value x ≤ value y := by
  obtain ⟨a, ha⟩ := exists_rank hx
  obtain ⟨b, hb⟩ := exists_rank hy
  rw [le_iff_le ha hb]
  unfold value
  have hx' := isReduced_unpack x
  have hy' := isReduced_unpack y
  rcases lt_trichotomy a b with hab | rfl | hab
  · exact iff_of_true hab.le (valueOf_lt_of_rank_lt ha hb hx' hy' hx hy hab).le
  · exact iff_of_true le_rfl ((valueOf_of_rank ha).trans (valueOf_of_rank hb).symm).le
  · exact iff_of_false hab.not_ge (valueOf_lt_of_rank_lt hb ha hy' hx' hy hx hab).not_ge

theorem value_of_rankOf {a b c : ℤ} (h : rankOf x = some (toLex (a, toLex (b, c)))) :
    value x = c * 2 ^ (a * b) :=
  valueOf_of_rank h

theorem value_one : value 1 = 1 := by
  rw [value_of_rankOf (a := 1) (b := -52) (c := 2 ^ 52) (by decide +kernel)]
  norm_num

/-- **The largest exponent of the finite doubles.** -/
theorem abs_value_lt (x : Float) : |value x| < 2 ^ (1024 : ℤ) := by
  have hread : Reads _ _ _ x.toModel.unpack := reads x.toModel.toBits.toBitVec
  have hfinite {s : Sign} {m : ℕ} {e : ℤ} (hm : 0 < m) (hlt : m < 2 ^ 53) (he : e ≤ 971) :
      |valueOf (.finite s m e hm)| < 2 ^ (1024 : ℤ) := by
    have hpos := two_zpow_pos e
    rw [← valueOf_abs]
    calc
      valueOf (.finite .positive m e hm) = m * 2 ^ e := valueOf_positive hm
      _ < 2 ^ 53 * 2 ^ e := by
        gcongr
        exact_mod_cast hlt
      _ = 2 ^ (53 + e) := by rw [two_zpow_add]; norm_num
      _ ≤ 2 ^ (1024 : ℤ) := two_zpow_le (by omega)
  unfold value
  generalize x.toModel.unpack = u at hread ⊢
  cases hread with
  | subnormal he hn hk hpos => exact hfinite hpos (by omega) (by omega)
  | normal hmin hmax hn hk hpos => exact hfinite hpos (by omega) (by omega)
  | _ =>
    rw [show valueOf _ = 0 from rfl, abs_zero]
    exact two_zpow_pos _

/-! ## 3. Packing -/

/-- **What is reduced and not too large is read back.** -/
theorem IsReduced.unpack_pack (hu : IsReduced u) (hmax : ∀ s m e h, u = .finite s m e h → e ≤ 971) :
    unpack Format.binary64 (pack Format.binary64 u) = u := by
  cases u with
  | notANumber => rfl
  | infinity s => cases s <;> rfl
  | zero s => cases s <;> rfl
  | finite s m e hm =>
    have he := hmax s m e hm rfl
    obtain ⟨hlt, hge, hfull⟩ := hu
    have hreads : ∃ (f : BitVec 11) (b : BitVec 52), Reads s f b (.finite s m e hm) := by
      by_cases h52 : 2 ^ 52 ≤ m
      · have hf : (BitVec.ofNat 11 (e + 1075).toNat).toNat = (e + 1075).toNat := by
          rw [BitVec.toNat_ofNat, Nat.mod_eq_of_lt (by omega)]
        have hb : (BitVec.ofNat 52 (m - 2 ^ 52)).toNat = m - 2 ^ 52 := by
          rw [BitVec.toNat_ofNat, Nat.mod_eq_of_lt (by omega)]
        exact ⟨.ofNat 11 (e + 1075).toNat, .ofNat 52 (m - 2 ^ 52),
          .normal (by omega) (by omega) (by omega) (by omega) hm⟩
      · have hb : (BitVec.ofNat 52 m).toNat = m := by
          rw [BitVec.toNat_ofNat, Nat.mod_eq_of_lt (by omega)]
        exact ⟨0#11, .ofNat 52 m, .subnormal rfl hb.symm (hfull.resolve_left h52) hm⟩
    obtain ⟨f, b, hreads⟩ := hreads
    rw [hreads.pack_eq nofun]
    exact (reads_packComponents s f b).unique hreads

theorem pack_of_lt (h : 971 < e) (hm : 0 < m) :
    unpack Format.binary64 (pack Format.binary64 (.finite s m e hm)) = .infinity s := by
  have hlarge : 2 ^ 11 ≤ (e + 1023 + 52).toNat + 1 := by omega
  have hpack : pack Format.binary64 (.finite s m e hm) = pack Format.binary64 (.infinity s) := by
    unfold pack
    exact if_pos hlarge
  rw [hpack]
  cases s <;> rfl

end SphereIndex.Double
