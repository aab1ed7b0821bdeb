import Mathlib.Algebra.Order.Ring.Int
import Mathlib.Data.Prod.Lex
import Mathlib.Order.Compare
import Mathlib.Tactic.ByContra
import SphereIndex.Proofs.Ordered

/-!
# Doubles

A double is compared by its sign first, then by the exponent and then by the mantissa, because it has
the largest mantissa that it can have.  So the numbers among the doubles are ordered.  The exponent
does not get below that of the smallest double, which leaves a bit of every difference that is rounded:
only equal doubles have the difference zero.
-/

namespace SphereIndex.Double

open Float.Model (Format UnpackedFloat totalExponent)
open Float.Model.UnpackedFloat

/-! ## 1. Comparison -/

/-- Where a value stands among the numbers: sign and kind, exponent, mantissa. -/
def rank : UnpackedFloat → Option (ℤ ×ₗ ℤ ×ₗ ℤ)
  | .notANumber => none
  | .infinity .negative => some (toLex (-2, toLex (0, 0)))
  | .finite .negative m e _ => some (toLex (-1, toLex (-e, -m)))
  | .zero _ => some (toLex (0, toLex (0, 0)))
  | .finite .positive m e _ => some (toLex (1, toLex (e, m)))
  | .infinity .positive => some (toLex (2, toLex (0, 0)))

theorem compare_neg (a b : ℤ) : compare (-a) (-b) = (compare a b).swap := by
  rw [← Std.OrientedOrd.eq_swap]
  simp only [compare, compareOfLessAndEq]
  grind

theorem compare_natCast (m n : ℕ) : compare (m : ℤ) n = compare m n := by
  simp only [compare, compareOfLessAndEq]
  grind

theorem compare_toLex (a b c a' b' c' : ℤ) :
    compare (toLex (a, toLex (b, c)) : ℤ ×ₗ ℤ ×ₗ ℤ) (toLex (a', toLex (b', c'))) =
      (compare a a').then ((compare b b').then (compare c c')) := rfl

theorem compare_eq (u v : UnpackedFloat) :
    u.compare v = (rank u).bind fun a => (rank v).map fun b => compare a b := by
  cases u with
  | notANumber => rfl
  | infinity s => cases v with
    | notANumber => cases s <;> rfl
    | infinity t => cases s <;> cases t <;> rfl
    | zero t => cases s <;> rfl
    | finite t m e h => cases s <;> cases t <;> rfl
  | zero s => cases v with
    | notANumber => rfl
    | infinity t => cases t <;> rfl
    | zero t => rfl
    | finite t m e h => cases t <;> rfl
  | finite s m e h => cases v with
    | notANumber => cases s <;> rfl
    | infinity t => cases s <;> cases t <;> rfl
    | zero t => cases s <;> rfl
    | finite t n k h' =>
      cases s with
      | negative => cases t with
        | positive => rfl
        | negative =>
          show some _ = some (compare _ _)
          rw [compare_toLex, compare_neg e k, compare_neg m n, compare_natCast, Ordering.swap_then]
          rfl
      | positive => cases t with
        | negative => rfl
        | positive =>
          show some _ = some (compare _ _)
          rw [compare_toLex, compare_natCast]
          rfl

theorem compare_of_rank_eq {u v : UnpackedFloat} {a : ℤ ×ₗ ℤ ×ₗ ℤ} (hu : rank u = some a)
    (hv : rank v = some a) : u.compare v = some .eq := by
  rw [compare_eq, hu, hv]
  exact congrArg some (compare_eq_iff_eq.2 rfl)

/-- Where a double stands among the numbers. -/
def rankOf (x : Float) : Option (ℤ ×ₗ ℤ ×ₗ ℤ) := rank x.toModel.unpack

variable {x y : Float}

theorem le_iff : x ≤ y ↔ ∃ a ∈ rankOf x, ∃ b ∈ rankOf y, a ≤ b := by
  show decide ((x.toModel.unpack.compare y.toModel.unpack).any (·.isLE) = true) = true ↔ _
  rw [decide_eq_true_iff, compare_eq]
  unfold rankOf
  cases rank x.toModel.unpack <;> cases rank y.toModel.unpack <;>
    simp [Ordering.isLE_iff_ne_gt, compare_le_iff_le]

theorem lt_iff : x < y ↔ ∃ a ∈ rankOf x, ∃ b ∈ rankOf y, a < b := by
  show decide ((x.toModel.unpack.compare y.toModel.unpack == some .lt) = true) = true ↔ _
  rw [decide_eq_true_iff, compare_eq]
  unfold rankOf
  cases rank x.toModel.unpack <;> cases rank y.toModel.unpack <;> simp [compare_lt_iff_lt]

theorem beq_iff : (x == y) = true ↔ ∃ a ∈ rankOf x, a ∈ rankOf y := by
  show (x.toModel.unpack.compare y.toModel.unpack == some .eq) = true ↔ _
  rw [compare_eq, beq_iff_eq, Option.bind_eq_some_iff]
  refine exists_congr fun a => and_congr_right fun _ => ?_
  rw [Option.map_eq_some_iff]
  constructor
  · rintro ⟨b, hb, hab⟩
    rw [compare_eq_iff_eq.1 hab]
    exact hb
  · exact fun ha => ⟨a, ha, compare_eq_iff_eq.2 rfl⟩

theorem le_iff_le {a b : ℤ ×ₗ ℤ ×ₗ ℤ} (ha : a ∈ rankOf x) (hb : b ∈ rankOf y) :
    x ≤ y ↔ a ≤ b := by
  rw [le_iff]
  constructor
  · rintro ⟨a', ha', b', hb', hab⟩
    rwa [Option.mem_unique ha ha', Option.mem_unique hb hb']
  · exact fun hab => ⟨a, ha, b, hb, hab⟩

theorem isNumber_iff : x ≤ x ↔ ∃ a, rankOf x = some a := by
  rw [le_iff]
  constructor
  · rintro ⟨a, ha, -⟩
    exact ⟨a, ha⟩
  · rintro ⟨a, ha⟩
    exact ⟨a, ha, a, ha, le_rfl⟩

/-! ## 2. Rounding -/

theorem shiftRight_mantissa (em : ExtendedMantissa) (k : ℕ) :
    (em >>> k).mantissa = em.mantissa / 2 ^ k := by
  show (k.repeat ExtendedMantissa.shiftRightOne em).mantissa = _
  induction k with
  | zero => exact (Nat.div_one _).symm
  | succ k ih =>
    show (k.repeat ExtendedMantissa.shiftRightOne em).mantissa / 2 = _
    rw [ih, Nat.div_div_eq_div_mul, Nat.pow_succ]

theorem le_roundedMantissa (em : ExtendedMantissa) : em.mantissa ≤ em.roundedMantissa := by
  obtain ⟨m, round, sticky⟩ := em
  cases round <;> cases sticky
  · exact Nat.le_refl m
  · exact Nat.le_refl m
  · exact Nat.le_add_right m _
  · exact Nat.le_succ m

/-- The exponent for a mantissa leaves at most 53 bits of it, and drops no more bits than needed. -/
theorem shift_mantissa {m : ℕ} {e : ℤ} (hm : 0 < m) (he : -1074 ≤ e) :
    0 < (shiftToTargetExponent Format.binary64 m e .exact).1.mantissa ∧
    (shiftToTargetExponent Format.binary64 m e .exact).1.mantissa < 2 ^ 53 ∧
    -1074 ≤ (shiftToTargetExponent Format.binary64 m e .exact).2 := by
  have hlow := Nat.log2_self_le hm.ne'
  have hhigh := Nat.lt_log2_self (n := m)
  show 0 < ((ExtendedMantissa.mk m false false) >>>
      (max ((m.log2 + 1 + e) - 53) (-1074) - e).toNat).mantissa ∧
    ((ExtendedMantissa.mk m false false) >>>
      (max ((m.log2 + 1 + e) - 53) (-1074) - e).toNat).mantissa < 2 ^ 53 ∧
    -1074 ≤ e + ((max ((m.log2 + 1 + e) - 53) (-1074) - e).toNat : ℤ)
  rw [shiftRight_mantissa]
  show 0 < m / _ ∧ m / _ < _ ∧ _
  generalize m.log2 = l at hlow hhigh ⊢
  -- The exponent is at least the smallest one, so that the shift is that to 53 bits.
  have hshift : (max (((l : ℤ) + 1 + e) - 53) (-1074) - e).toNat = l - 52 := by omega
  rw [hshift]
  refine ⟨Nat.div_pos ?_ (Nat.two_pow_pos _), ?_, by omega⟩
  · exact (Nat.pow_le_pow_right (by decide) (Nat.sub_le l 52)).trans hlow
  · rw [Nat.div_lt_iff_lt_mul (Nat.two_pow_pos _), ← Nat.pow_add]
    exact hhigh.trans_le (Nat.pow_le_pow_right (by decide) (by omega))

/-- Values that stay apart from zero when they are packed. -/
def Survives : UnpackedFloat → Prop
  | .zero _ => False
  | .finite _ m e _ => m < 2 ^ 53 ∧ -1074 ≤ e
  | _ => True

theorem survives_round (s : Sign) {m : ℕ} {e : ℤ} (hm : 0 < m) (he : -1074 ≤ e) :
    Survives (UnpackedFloat.round Format.binary64 s m e) := by
  unfold UnpackedFloat.round
  -- The mantissa is only ever padded before it is cut.
  generalize htarget : Format.binary64.targetExponent (totalExponent m e) = t
  have ht : -1074 ≤ t := by
    rw [← htarget]
    exact le_max_right _ _
  have hm' : 0 < m <<< (e - t).toNat := by
    rw [Nat.shiftLeft_eq]
    exact Nat.mul_pos hm (Nat.two_pow_pos _)
  have he' : -1074 ≤ e - ((e - t).toNat : ℤ) := by omega
  show Survives (roundWithAccuracy Format.binary64 s (m <<< (e - t).toNat) (e - (e - t).toNat) .exact)
  generalize m <<< (e - t).toNat = m at hm'
  generalize e - ((e - t).toNat : ℤ) = e at he'
  obtain ⟨hpos, -, hexp⟩ := shift_mantissa hm' he'
  have hround := hpos.trans_le (le_roundedMantissa _)
  obtain ⟨hpos, hlt, hexp⟩ := shift_mantissa hround hexp
  unfold roundWithAccuracy
  dsimp only
  rw [dif_neg hpos.ne']
  exact ⟨hlt, hexp⟩

theorem survives_normalize {m : ℤ} {e : ℤ} (hm : m ≠ 0) (he : -1074 ≤ e) (s : Sign) :
    Survives (UnpackedFloat.normalize Format.binary64 m e s) := by
  unfold UnpackedFloat.normalize
  split
  · rename_i h
    have hneg := compare_lt_iff_lt.1 h
    exact survives_round _ (by omega) he
  · rename_i h
    exact absurd (compare_eq_iff_eq.1 h) hm
  · rename_i h
    have hpos := compare_gt_iff_gt.1 h
    exact survives_round _ (by omega) he

/-! ## 3. Packing -/

/-- **The form of an unpacked double**: the mantissa is as large as it can be. -/
structure IsCanonical (m : ℕ) (e : ℤ) : Prop where
  mantissa_lt : m < 2 ^ 53
  le_exponent : -1074 ≤ e
  full : 2 ^ 52 ≤ m ∨ e = -1074

/-- **What a double is read as**, given its sign, exponent and mantissa. -/
inductive Reads (s : Sign) (e : BitVec 11) (m : BitVec 52) : UnpackedFloat → Prop where
  | notANumber (he : e = -1#11) (hm : m ≠ 0#52) : Reads s e m .notANumber
  | infinity (he : e = -1#11) (hm : m = 0#52) : Reads s e m (.infinity s)
  | zero (he : e = 0#11) (hm : m = 0#52) : Reads s e m (.zero s)
  | subnormal {n : ℕ} {k : ℤ} (he : e = 0#11) (hn : n = m.toNat) (hk : k = -1074) (hpos : 0 < n) :
    Reads s e m (.finite s n k hpos)
  | normal {n : ℕ} {k : ℤ} (hmin : e.toNat ≠ 0) (hmax : e.toNat ≠ 2047) (hn : n = 2 ^ 52 + m.toNat)
    (hk : k = e.toNat - 1075) (hpos : 0 < n) : Reads s e m (.finite s n k hpos)

theorem reads (b : BitVec Format.binary64.numBits) :
    Reads (.ofBitVec (@unpackSign Format.binary64 b)) (@unpackExponent Format.binary64 b)
      (@unpackMantissa Format.binary64 b) (unpack Format.binary64 b) := by
  have hlt : (@unpackMantissa Format.binary64 b).toNat < 2 ^ 52 :=
    (@unpackMantissa Format.binary64 b).isLt
  unfold unpack
  dsimp only
  by_cases hmax : @unpackExponent Format.binary64 b = -1#_
  · rw [if_pos hmax]
    split
    · exact .infinity hmax ‹_›
    · exact .notANumber hmax ‹_›
  · rw [if_neg hmax]
    by_cases hexp : @unpackExponent Format.binary64 b = 0#_
    · rw [if_pos hexp]
      by_cases hm : @unpackMantissa Format.binary64 b = 0#_
      · rw [dif_pos hm]
        exact .zero hexp hm
      · rw [dif_neg hm]
        refine .subnormal hexp rfl ?_ _
        rw [hexp]
        rfl
    · rw [if_neg hexp]
      refine .normal (fun h => hexp (BitVec.eq_of_toNat_eq h))
        (fun h => hmax (BitVec.eq_of_toNat_eq h)) ?_ rfl _
      rw [BitVec.toNat_append, ← Nat.shiftLeft_add_eq_or_of_lt hlt]
      rfl

/-- What the bits of a double are unpacked to. -/
inductive Unpacks (b : BitVec Format.binary64.numBits) : UnpackedFloat → Prop where
  | notANumber : Unpacks b .notANumber
  | infinity (s : Sign) : Unpacks b (.infinity s)
  | zero (s : Sign) (hexp : @unpackExponent Format.binary64 b = 0#_)
      (hmantissa : @unpackMantissa Format.binary64 b = 0#_) : Unpacks b (.zero s)
  | finite (s : Sign) {m : ℕ} {e : ℤ} (hm : 0 < m) (h : IsCanonical m e) :
      Unpacks b (.finite s m e hm)

theorem unpacks (b : BitVec Format.binary64.numBits) : Unpacks b (unpack Format.binary64 b) := by
  have hlt : (@unpackMantissa Format.binary64 b).toNat < 2 ^ 52 :=
    (@unpackMantissa Format.binary64 b).isLt
  have hreads := reads b
  generalize unpack Format.binary64 b = u at hreads
  cases hreads with
  | notANumber => exact .notANumber
  | infinity => exact .infinity _
  | zero he hm => exact .zero _ he hm
  | subnormal he hn hk hpos => exact .finite _ hpos ⟨by omega, by omega, .inr hk⟩
  | normal hmin hmax hn hk hpos => exact .finite _ hpos ⟨by omega, by omega, .inl (by omega)⟩

theorem isCanonical_of_unpack {b : BitVec Format.binary64.numBits} {s : Sign} {m : ℕ} {e : ℤ}
    {hm : 0 < m} (h : unpack Format.binary64 b = .finite s m e hm) : IsCanonical m e := by
  have hunpacks := unpacks b
  rw [h] at hunpacks
  cases hunpacks
  assumption

/-- What is unpacked to zero has no bit of exponent or mantissa. -/
theorem of_unpack_eq_zero {b : BitVec Format.binary64.numBits} {s : Sign}
    (h : unpack Format.binary64 b = .zero s) :
    @unpackExponent Format.binary64 b = 0#_ ∧ @unpackMantissa Format.binary64 b = 0#_ := by
  have hunpacks := unpacks b
  rw [h] at hunpacks
  cases hunpacks with
  | zero _ hexp hmantissa => exact ⟨hexp, hmantissa⟩

theorem Survives.unpack_pack_ne {f : UnpackedFloat} (h : Survives f) (s : Sign) :
    unpack Format.binary64 (pack Format.binary64 f) ≠ .zero s := by
  intro hzero
  obtain ⟨hexp, hmantissa⟩ := of_unpack_eq_zero hzero
  cases f with
  | notANumber =>
    unfold pack packedNaN at hexp
    rw [unpackExponent_packComponents] at hexp
    exact absurd hexp (by decide)
  | infinity s =>
    unfold pack packedInfinity at hexp
    rw [unpackExponent_packComponents] at hexp
    exact absurd hexp (by decide)
  | zero s => exact h
  | finite s m e hm =>
    obtain ⟨hlt, he⟩ := h
    unfold pack at hexp hmantissa
    dsimp only at hexp hmantissa
    split at hexp
    · rw [packedInfinity, unpackExponent_packComponents] at hexp
      exact absurd hexp (by decide)
    · rename_i hfits
      split at hexp
      -- A normal double has an exponent field above 0, a subnormal one has all of its mantissa.
      · rename_i hnormal
        rw [unpackExponent_packComponents] at hexp
        have hzero := congrArg BitVec.toNat hexp
        have hsmall : ¬2 ^ 11 ≤ (e + 1023 + 52).toNat + 1 := hfits
        change (e + 1023 + 52).toNat % 2 ^ 11 = 0 at hzero
        rw [Nat.mod_eq_of_lt (by omega)] at hzero
        omega
      · rename_i hsub
        rw [if_neg hfits, if_neg hsub, unpackMantissa_packComponents] at hmantissa
        have hzero := congrArg BitVec.toNat hmantissa
        have hlog : ¬m.log2 + 1 = 53 := hsub
        have hlt' : m < 2 ^ 52 := by
          have := (Nat.log2_lt hm.ne').2 hlt
          exact (Nat.log2_lt hm.ne').1 (by omega)
        change m % 2 ^ 52 = 0 at hzero
        rw [Nat.mod_eq_of_lt hlt'] at hzero
        omega

/-! ## 4. Differences -/

/-- Brought to the lower exponent, the mantissa of the higher one is the larger. -/
theorem IsCanonical.lt_shiftLeft {m n : ℕ} {e k : ℤ} (hm : IsCanonical m e) (hn : IsCanonical n k)
    (h : e < k) : m < n <<< (k - e).toNat := by
  have hfull : 2 ^ 52 ≤ n := hn.full.resolve_right (by have := hm.le_exponent; omega)
  rw [Nat.shiftLeft_eq]
  calc
    m < 2 ^ 52 * 2 := hm.mantissa_lt
    _ ≤ n * 2 ^ (k - e).toNat :=
      Nat.mul_le_mul hfull (Nat.le_self_pow (by omega) 2)

theorem IsCanonical.shiftLeft_ne {m n : ℕ} {e k : ℤ} (hm : IsCanonical m e) (hn : IsCanonical n k)
    (hne : e = k → m ≠ n) : m <<< (e - min e k).toNat ≠ n <<< (k - min e k).toNat := by
  rcases lt_trichotomy e k with h | h | h
  · rw [min_eq_left h.le, Int.sub_self]
    exact (hm.lt_shiftLeft hn h).ne
  · subst h
    rw [min_self, Int.sub_self]
    exact hne rfl
  · rw [min_eq_right h.le, Int.sub_self]
    exact (hn.lt_shiftLeft hm h).ne'

/-- **The difference of unequal values stays apart from zero.** -/
theorem survives_sub {u v : UnpackedFloat}
    (hu : ∀ s m e h, u = .finite s m e h → IsCanonical m e)
    (hv : ∀ s m e h, v = .finite s m e h → IsCanonical m e) (hne : u.compare v ≠ some .eq) :
    Survives (sub Format.binary64 u v) := by
  cases u with
  | notANumber => exact trivial
  | infinity s => cases v with
    | notANumber => exact trivial
    | infinity t => cases s <;> cases t <;> exact trivial
    | zero t => exact trivial
    | finite t n k hn => exact trivial
  | zero s => cases v with
    | notANumber => exact trivial
    | infinity t => exact trivial
    | zero t => exact absurd rfl hne
    | finite t n k hn =>
      have hv := hv t n k hn rfl
      exact ⟨hv.mantissa_lt, hv.le_exponent⟩
  | finite s m e hm => cases v with
    | notANumber => exact trivial
    | infinity t => exact trivial
    | zero t =>
      have hu := hu s m e hm rfl
      exact ⟨hu.mantissa_lt, hu.le_exponent⟩
    | finite t n k hn =>
      have hu := hu s m e hm rfl
      have hv := hv t n k hn rfl
      have hlow : -1074 ≤ min e k := le_min hu.le_exponent hv.le_exponent
      have hpos {m : ℕ} (hm : 0 < m) (i : ℕ) : 0 < m <<< i := by
        rw [Nat.shiftLeft_eq]
        exact Nat.mul_pos hm (Nat.two_pow_pos i)
      have hm' := hpos hm (e - min e k).toNat
      have hn' := hpos hn (k - min e k).toNat
      have hshift := hu.shiftLeft_ne hv
      show Survives (UnpackedFloat.normalize Format.binary64 (s.apply (m <<< (e - min e k).toNat : ℕ) -
        t.apply (n <<< (k - min e k).toNat : ℕ)) (min e k) .positive)
      generalize m <<< (e - min e k).toNat = m' at hm' hshift ⊢
      generalize n <<< (k - min e k).toNat = n' at hn' hshift ⊢
      apply survives_normalize _ hlow
      cases s with
      | negative => cases t with
        | negative =>
          have hne' := hshift fun he hmn => hne (compare_of_rank_eq rfl (by rw [he, hmn]; rfl))
          show -(m' : ℤ) - -n' ≠ 0
          omega
        | positive =>
          show -(m' : ℤ) - n' ≠ 0
          omega
      | positive => cases t with
        | negative =>
          show (m' : ℤ) - -n' ≠ 0
          omega
        | positive =>
          have hne' := hshift fun he hmn => hne (compare_of_rank_eq rfl (by rw [he, hmn]; rfl))
          show (m' : ℤ) - n' ≠ 0
          omega

theorem rankOf_zero : rankOf 0 = some (toLex (0, toLex (0, 0))) := by decide +kernel

theorem exists_eq_zero {u : UnpackedFloat} (h : rank u = some (toLex (0, toLex (0, 0)))) :
    ∃ s, u = .zero s := by
  cases u with
  | notANumber => cases h
  | infinity s => cases s <;> cases h
  | zero s => exact ⟨s, rfl⟩
  | finite s m e hm => cases s <;> cases h

theorem beq_of_sub_beq_zero (h : (x - y == 0) = true) : (x == y) = true := by
  by_contra hne
  have hcompare : x.toModel.unpack.compare y.toModel.unpack ≠ some .eq := fun heq =>
    hne (show (x.toModel.unpack.compare y.toModel.unpack == some .eq) = true by rw [heq]; rfl)
  have hsurvives : Survives (sub Format.binary64 x.toModel.unpack y.toModel.unpack) :=
    survives_sub (fun _ _ _ _ => isCanonical_of_unpack) (fun _ _ _ _ => isCanonical_of_unpack)
      hcompare
  obtain ⟨a, ha, hzero⟩ := beq_iff.1 h
  rw [rankOf_zero] at hzero
  cases hzero
  obtain ⟨s, hs⟩ := exists_eq_zero ha
  exact hsurvives.unpack_pack_ne s hs

end SphereIndex.Double

namespace SphereIndex

/-- **The arithmetic of doubles is ordered.** -/
instance : Scalar.Ordered Float where
  isNumber_of_le h := by
    obtain ⟨a, ha, b, hb, -⟩ := Double.le_iff.1 h
    exact ⟨Double.isNumber_iff.2 ⟨a, ha⟩, Double.isNumber_iff.2 ⟨b, hb⟩⟩
  le_trans {x y z} h h' := by
    obtain ⟨a, ha, b, hb, hab⟩ := Double.le_iff.1 h
    obtain ⟨-, -, c, hc, -⟩ := Double.le_iff.1 h'
    rw [Double.le_iff_le hb hc] at h'
    exact (Double.le_iff_le ha hc).2 (hab.trans h')
  le_total {x y} hx hy := by
    obtain ⟨a, ha⟩ := Double.isNumber_iff.1 hx
    obtain ⟨b, hb⟩ := Double.isNumber_iff.1 hy
    rw [Double.le_iff_le ha hb, Double.le_iff_le hb ha]
    exact le_total a b
  lt_iff {x y} := by
    constructor
    · intro h
      obtain ⟨a, ha, b, hb, hab⟩ := Double.lt_iff.1 h
      rw [Double.le_iff_le ha hb, Double.le_iff_le hb ha]
      exact ⟨hab.le, hab.not_ge⟩
    · rintro ⟨hxy, hyx⟩
      obtain ⟨a, ha, b, hb, -⟩ := Double.le_iff.1 hxy
      rw [Double.le_iff_le hb ha] at hyx
      exact Double.lt_iff.2 ⟨a, ha, b, hb, lt_of_not_ge hyx⟩
  beq_iff {x y} := by
    constructor
    · intro h
      obtain ⟨a, ha, hb⟩ := Double.beq_iff.1 h
      rw [Double.le_iff_le ha hb, Double.le_iff_le hb ha]
      exact ⟨le_rfl, le_rfl⟩
    · rintro ⟨hxy, hyx⟩
      obtain ⟨a, ha, b, hb, hab⟩ := Double.le_iff.1 hxy
      rw [Double.le_iff_le hb ha] at hyx
      obtain rfl := le_antisymm hab hyx
      exact Double.beq_iff.2 ⟨a, ha, hb⟩
  beq_of_sub_beq_zero h := Double.beq_of_sub_beq_zero h

end SphereIndex
