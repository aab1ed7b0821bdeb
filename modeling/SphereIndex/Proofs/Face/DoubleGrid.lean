import SphereIndex.Cell.Padded
import SphereIndex.Proofs.Double

/-!
# The grid in doubles

The lines of the grid are computed by sums, products and quotients with constants.  Such a constant
is neither zero nor infinite, so that it never meets an operand with which there would be no result:
every line of the grid, and with it every center of a cell, is a number.
-/

namespace SphereIndex

namespace Double

open Float.Model (Format UnpackedFloat totalExponent)
open Float.Model.UnpackedFloat

/-! ## 1. Packing -/

/-- What is unpacked to no number has all bits of the exponent and some bit of the mantissa. -/
theorem of_unpack_eq_notANumber {b : BitVec Format.binary64.numBits}
    (h : unpack Format.binary64 b = .notANumber) :
    @unpackExponent Format.binary64 b = -1#_ ∧ @unpackMantissa Format.binary64 b ≠ 0#_ := by
  have hreads := reads b
  rw [h] at hreads
  cases hreads with
  | notANumber he hm => exact ⟨he, hm⟩

/-- **Packing keeps numbers.** -/
theorem unpack_pack_ne {f : UnpackedFloat} (hf : f ≠ .notANumber) :
    unpack Format.binary64 (pack Format.binary64 f) ≠ .notANumber := by
  intro hnan
  obtain ⟨hexp, hmantissa⟩ := of_unpack_eq_notANumber hnan
  cases f with
  | notANumber => exact hf rfl
  | infinity s =>
    apply hmantissa
    exact unpackMantissa_packComponents
  | zero s =>
    apply hmantissa
    exact unpackMantissa_packComponents
  | finite s m e hm =>
    unfold pack at hexp hmantissa
    dsimp only at hexp hmantissa
    split at hexp
    · rename_i hlarge
      rw [if_pos hlarge] at hmantissa
      apply hmantissa
      exact unpackMantissa_packComponents
    · rename_i hfits
      split at hexp
      · rw [unpackExponent_packComponents] at hexp
        have hall := congrArg BitVec.toNat hexp
        have hsmall : ¬2 ^ 11 ≤ (e + 1023 + 52).toNat + 1 := hfits
        change (e + 1023 + 52).toNat % 2 ^ 11 = 2 ^ 11 - 1 at hall
        rw [Nat.mod_eq_of_lt (by omega)] at hall
        omega
      · rw [unpackExponent_packComponents] at hexp
        exact absurd hexp (by decide)

theorem unpack_pack_infinity (s : Sign) :
    unpack Format.binary64 (pack Format.binary64 (.infinity s)) = .infinity s := by
  cases s <;> rfl

theorem unpack_pack_zero (s : Sign) :
    unpack Format.binary64 (pack Format.binary64 (.zero s)) = .zero s := by
  cases s <;> rfl

/-! ## 2. Operations -/

variable {x y : Float} {u v : UnpackedFloat}

theorem isNumber_iff_unpack : x ≤ x ↔ x.toModel.unpack ≠ .notANumber := by
  rw [isNumber_iff]
  unfold rankOf
  cases x.toModel.unpack with
  | notANumber => exact iff_of_false (fun ⟨_, h⟩ => nomatch h) (fun h => h rfl)
  | infinity s => cases s <;> exact iff_of_true ⟨_, rfl⟩ nofun
  | zero s => exact iff_of_true ⟨_, rfl⟩ nofun
  | finite s m e h => cases s <;> exact iff_of_true ⟨_, rfl⟩ nofun

/-- Neither zero nor infinite. -/
def IsFinite : UnpackedFloat → Prop
  | .finite .. => True
  | _ => False

instance (u : UnpackedFloat) : Decidable (IsFinite u) :=
  match u with
  | .notANumber => .isFalse id
  | .infinity _ => .isFalse id
  | .zero _ => .isFalse id
  | .finite .. => .isTrue trivial

theorem IsFinite.ne (h : IsFinite u) : u ≠ .notANumber := by
  rintro rfl
  exact h

theorem roundWithAccuracy_ne (s : Sign) (m : ℕ) (e : ℤ) (a : Accuracy) :
    roundWithAccuracy Format.binary64 s m e a ≠ .notANumber := by
  intro hnan
  obtain ⟨_, hzero⟩ | ⟨_, hfinite⟩ := dite_eq_iff.1 hnan
  · cases hzero
  · cases hfinite

theorem normalize_ne (m e : ℤ) (s : Sign) :
    UnpackedFloat.normalize Format.binary64 m e s ≠ .notANumber := by
  unfold UnpackedFloat.normalize
  split
  · exact roundWithAccuracy_ne _ _ _ _
  · nofun
  · exact roundWithAccuracy_ne _ _ _ _

/-- **With an operand that is neither zero nor infinite, numbers give a number.** -/
theorem combine_ne (hu : u ≠ .notANumber) (hv : v ≠ .notANumber) (h : IsFinite u ∨ IsFinite v) :
    mul Format.binary64 u v ≠ .notANumber ∧ div Format.binary64 u v ≠ .notANumber ∧
      sub Format.binary64 u v ≠ .notANumber := by
  cases u with
  | notANumber => exact absurd rfl hu
  | finite s m e hm =>
    cases v with
    | notANumber => exact absurd rfl hv
    | finite t n k hn =>
      exact ⟨roundWithAccuracy_ne _ _ _ _, roundWithAccuracy_ne _ _ _ _, normalize_ne _ _ _⟩
    | _ => exact ⟨nofun, nofun, nofun⟩
  | _ =>
    cases v with
    | notANumber => exact absurd rfl hv
    | finite t n k hn => exact ⟨nofun, nofun, nofun⟩
    | _ => exact absurd h (or_self_iff.1)

theorem isNumber_ofModel {f : UnpackedFloat} (hf : f ≠ .notANumber) :
    Scalar.IsNumber (Float.ofModel (.pack f)) :=
  isNumber_iff_unpack.2 (unpack_pack_ne hf)

theorem isNumber_combine (hx : Scalar.IsNumber x) (hy : Scalar.IsNumber y)
    (h : IsFinite x.toModel.unpack ∨ IsFinite y.toModel.unpack) :
    Scalar.IsNumber (x * y) ∧ Scalar.IsNumber (x / y) ∧ Scalar.IsNumber (x - y) := by
  obtain ⟨hmul, hdiv, hsub⟩ :=
    combine_ne (isNumber_iff_unpack.1 hx) (isNumber_iff_unpack.1 hy) h
  exact ⟨isNumber_ofModel hmul, isNumber_ofModel hdiv, isNumber_ofModel hsub⟩

/-- A multiple of a number by a constant can be multiplied by the number: zero and infinity do not
meet, because the multiple of either is the same again. -/
theorem isNumber_mul_mul (hx : Scalar.IsNumber x) (hy : IsFinite y.toModel.unpack) :
    Scalar.IsNumber (y * x * x) := by
  have hmul : Scalar.IsNumber (y * x) :=
    (isNumber_combine (isNumber_iff_unpack.2 hy.ne) hx (.inl hy)).1
  by_cases hfinite : IsFinite x.toModel.unpack
  · exact (isNumber_combine hmul hx (.inr hfinite)).1
  · apply isNumber_ofModel
    show mul Format.binary64 (unpack Format.binary64 (pack Format.binary64
      (mul Format.binary64 y.toModel.unpack x.toModel.unpack))) x.toModel.unpack ≠ .notANumber
    have hnumber := isNumber_iff_unpack.1 hx
    generalize y.toModel.unpack = v at hy
    generalize x.toModel.unpack = u at hfinite hnumber
    cases v with
    | finite t n k hn =>
      cases u with
      | notANumber => exact absurd rfl hnumber
      | infinity s =>
        rw [show mul Format.binary64 (.finite t n k hn) (.infinity s) = .infinity (t * s) from rfl,
          unpack_pack_infinity]
        nofun
      | zero s =>
        rw [show mul Format.binary64 (.finite t n k hn) (.zero s) = .zero (t * s) from rfl,
          unpack_pack_zero]
        nofun
      | finite => exact absurd trivial hfinite
    | _ => exact hy.elim

theorem ofScientific_ne (m : ℕ) (e : ℤ) : ofScientific Format.binary64 m e ≠ .notANumber := by
  intro hnan
  -- Where no number is out of range, the result is a product or a quotient.
  obtain ⟨_, hzero⟩ | ⟨_, hnan⟩ := dite_eq_iff.1 hnan
  · cases hzero
  obtain ⟨_, hinfinity⟩ | ⟨_, hnan⟩ := ite_eq_iff.1 hnan
  · cases hinfinity
  obtain ⟨_, hzero⟩ | ⟨_, hnan⟩ := ite_eq_iff.1 hnan
  · cases hzero
  obtain ⟨_, hmul⟩ | ⟨_, hdiv⟩ := ite_eq_iff.1 hnan
  · refine (combine_ne ?_ ?_ (.inl ?_)).1 hmul
    · exact IsFinite.ne trivial
    · exact IsFinite.ne trivial
    · trivial
  · refine (combine_ne ?_ ?_ (.inl ?_)).2.1 hdiv
    · exact IsFinite.ne trivial
    · exact IsFinite.ne trivial
    · trivial

theorem isNumber_ofNat (n : ℕ) : Scalar.IsNumber (Float.ofNat n) := by
  show Scalar.IsNumber (Float.ofScientific n false 0)
  unfold Float.ofScientific
  split
  · -- A small number is multiplied by the power of ten with exponent 0, which is 1.
    have hone : IsFinite (Float.ofBits 0x3FF0000000000000).toModel.unpack := by decide +kernel
    have hsmall : Scalar.IsNumber n.toUInt64.toFloat := isNumber_ofModel (normalize_ne _ _ _)
    exact (isNumber_combine hsmall (isNumber_iff_unpack.2 hone.ne) (.inr hone)).1
  · exact isNumber_ofModel (ofScientific_ne _ _)

end Double

/-! ## 3. Lines and centers -/

open Scalar

/-- **Every line of the grid is a number.** -/
theorem Grid.isNumber_toFace {s : Float} (hs : IsNumber s) : IsNumber (toFace s) := by
  have hone : Double.IsFinite (1 : Float).toModel.unpack := by decide +kernel
  have hfour : Double.IsFinite (4 : Float).toModel.unpack := by decide +kernel
  have hthird : Double.IsFinite (1 / 3 : Float).toModel.unpack := by decide +kernel
  have hnumber {x : Float} (hx : Double.IsFinite x.toModel.unpack) : IsNumber x :=
    Double.isNumber_iff_unpack.2 hx.ne
  unfold toFace
  split
  · have hsquare := Double.isNumber_mul_mul hs hfour
    have hdiff := (Double.isNumber_combine hsquare (hnumber hone) (.inr hone)).2.2
    exact (Double.isNumber_combine (hnumber hthird) hdiff (.inl hthird)).1
  · have hrest := (Double.isNumber_combine (hnumber hone) hs (.inl hone)).2.2
    have hsquare := Double.isNumber_mul_mul hrest hfour
    have hdiff := (Double.isNumber_combine (hnumber hone) hsquare (.inl hone)).2.2
    exact (Double.isNumber_combine (hnumber hthird) hdiff (.inl hthird)).1

/-- **Every center is a number.** -/
theorem PaddedCell.isNumber_centerAt (level i : ℕ) : IsNumber (centerAt level i : Float) := by
  have hsteps : Double.IsFinite (Scalar.ofNat halfSteps : Float).toModel.unpack := by decide +kernel
  apply Grid.isNumber_toFace
  exact (Double.isNumber_combine (Double.isNumber_ofNat _)
    (Double.isNumber_iff_unpack.2 hsteps.ne) (.inr hsteps)).2.1

end SphereIndex
