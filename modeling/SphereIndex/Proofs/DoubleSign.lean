import SphereIndex.Proofs.Double
import SphereIndex.Proofs.Signs

/-!
# The sign of a double

The sign is a bit of its own.  Negation reads a double, turns the sign, and packs the rest as it was,
since packing and reading undo each other; so the signs of doubles are exact.
-/

namespace SphereIndex.Double

open Float.Model (Format UnpackedFloat)
open Float.Model.UnpackedFloat

variable {s : Sign} {e : BitVec 11} {m : BitVec 52} {u v : UnpackedFloat} {x : Float}

/-! ## 1. The parts of a double -/

theorem ofBitVec_toBitVec (s : Sign) : Sign.ofBitVec s.toBitVec = s := by cases s <;> rfl

theorem toBitVec_ofBitVec (b : BitVec 1) : (Sign.ofBitVec b).toBitVec = b := by
  revert b
  decide

theorem unpackSign_packComponents (s : Sign) (e : BitVec 11) (m : BitVec 52) :
    @unpackSign Format.binary64 (packComponents Format.binary64 s e m) = s.toBitVec := by
  unfold unpackSign packComponents BitVec.extractLsb
  rw [BitVec.extractLsb'_append_eq_of_le (by decide),
    BitVec.extractLsb'_append_eq_of_le (by decide)]
  cases s <;> rfl

theorem packComponents_parts (b : BitVec Format.binary64.numBits) :
    packComponents Format.binary64 (.ofBitVec (@unpackSign Format.binary64 b))
      (@unpackExponent Format.binary64 b) (@unpackMantissa Format.binary64 b) = b := by
  unfold packComponents
  rw [toBitVec_ofBitVec]
  unfold unpackSign unpackExponent unpackMantissa BitVec.extractLsb
  ext i hi
  grind

theorem reads_packComponents (s : Sign) (e : BitVec 11) (m : BitVec 52) :
    Reads s e m (unpack Format.binary64 (packComponents Format.binary64 s e m)) := by
  have h := reads (packComponents Format.binary64 s e m)
  rwa [unpackExponent_packComponents, unpackMantissa_packComponents, unpackSign_packComponents,
    ofBitVec_toBitVec] at h

theorem Reads.unique (hu : Reads s e m u) (hv : Reads s e m v) : u = v := by
  cases hu with
  | notANumber he hm | infinity he hm | zero he hm =>
    cases hv <;> first | rfl | (exfalso; grind)
  | subnormal he hn hk hpos =>
    cases hv with
    | subnormal he' hn' hk' hpos' =>
      subst hn hk hn' hk'
      rfl
    | _ => exfalso; grind
  | normal hmin hmax hn hk hpos =>
    cases hv with
    | normal hmin' hmax' hn' hk' hpos' =>
      subst hn hk hn' hk'
      rfl
    | _ => exfalso; grind

/-- The sign is read for itself. -/
theorem Reads.neg (h : Reads s e m u) : Reads (-s) e m u.neg := by
  cases h with
  | notANumber he hm => exact .notANumber he hm
  | infinity he hm => exact .infinity he hm
  | zero he hm => exact .zero he hm
  | subnormal he hn hk hpos => exact .subnormal he hn hk hpos
  | normal hmin hmax hn hk hpos => exact .normal hmin hmax hn hk hpos

/-! ## 2. Packing and reading -/

/-- **What was read from three parts is packed into the same three.** -/
theorem Reads.pack_eq (h : Reads s e m u) (hu : u ≠ .notANumber) :
    pack Format.binary64 u = packComponents Format.binary64 s e m := by
  have hm := m.isLt
  have he := e.isLt
  cases h with
  | notANumber => exact absurd rfl hu
  | infinity he hm =>
    rw [he, hm]
    rfl
  | zero he hm =>
    rw [he, hm]
    rfl
  | subnormal he hn hk hpos =>
    -- The mantissa is below those of the doubles with an exponent.
    subst hn hk
    have hlog : ¬m.toNat.log2 + 1 = 53 := by
      have := (Nat.log2_lt hpos.ne').2 hm
      omega
    unfold pack
    refine (if_neg (by decide)).trans ((if_neg hlog).trans ?_)
    rw [he, BitVec.ofNat_toNat, BitVec.setWidth_eq]
  | normal hmin hmax hn hk hpos =>
    -- The leading bit of the mantissa is not stored.
    subst hn hk
    have hlog : (2 ^ 52 + m.toNat).log2 = 52 := (Nat.log2_eq_iff (by omega)).2 ⟨by omega, by omega⟩
    have hmantissa : BitVec.ofNat 52 (2 ^ 52 + m.toNat) = m := by
      apply BitVec.eq_of_toNat_eq
      rw [BitVec.toNat_ofNat, Nat.add_mod_left, Nat.mod_eq_of_lt hm]
    have hexp : ((e.toNat : ℤ) - 1075 + 1023 + 52).toNat = e.toNat := by omega
    unfold pack
    refine (if_neg ?_).trans ((if_pos (congrArg (· + 1) hlog)).trans ?_)
    · change ¬2 ^ 11 ≤ ((e.toNat : ℤ) - 1075 + 1023 + 52).toNat + 1
      omega
    · change packComponents Format.binary64 s
        (BitVec.ofNat 11 ((e.toNat : ℤ) - 1075 + 1023 + 52).toNat) (BitVec.ofNat 52 _) = _
      rw [hexp, BitVec.ofNat_toNat, BitVec.setWidth_eq, hmantissa]

/-- **Packing what a double was read as** gives the double. -/
theorem pack_unpack (f : Float.Model) : Float.Model.pack f.unpack = f := by
  obtain ⟨⟨b⟩, hvalid⟩ := f
  have hpack : pack Format.binary64 (unpack Format.binary64 b) = b := by
    by_cases hnan : unpack Format.binary64 b = .notANumber
    · -- Of what is no number there is one form only.
      have hreads := reads b
      rw [hnan] at hreads ⊢
      cases hreads with
      | notANumber he hm => exact (hvalid.eq_packedNaN he hm).symm
    · exact ((reads b).pack_eq hnan).trans (packComponents_parts b)
  exact (Float.Model.mk.injEq ..).mpr (congrArg UInt64.ofBitVec hpack)

theorem unpack_neg (f : Float.Model) : (-f).unpack = f.unpack.neg := by
  change unpack Format.binary64 (pack Format.binary64 f.unpack.neg) = _
  by_cases hnan : f.unpack.neg = .notANumber
  · rw [hnan]
    rfl
  · have hneg : Reads _ _ _ f.unpack.neg := (reads f.toBits.toBitVec).neg
    rw [hneg.pack_eq hnan]
    exact (reads_packComponents _ _ _).unique hneg

/-! ## 3. Signs -/

theorem neg_neg (x : Float) : -(-x) = x := by
  have hneg : x.toModel.unpack.neg.neg = x.toModel.unpack := by
    cases x.toModel.unpack with
    | notANumber => rfl
    | infinity s => cases s <;> rfl
    | zero s => cases s <;> rfl
    | finite s => cases s <;> rfl
  change Float.ofModel (Float.Model.pack (-x.toModel).unpack.neg) = x
  rw [unpack_neg, hneg, pack_unpack]

theorem abs_unpacked (u : UnpackedFloat) : u.abs = u ∨ u.abs = u.neg := by
  cases u with
  | notANumber => exact .inl rfl
  | infinity s | zero s | finite s =>
    cases s with
    | negative => exact .inr rfl
    | positive => exact .inl rfl

theorem unpack_abs (f : Float.Model) : f.abs.unpack = f.unpack.abs := by
  change (Float.Model.pack f.unpack.abs).unpack = _
  rcases abs_unpacked f.unpack with h | h
  · rw [h, pack_unpack]
  · rw [h]
    exact unpack_neg f

theorem abs_eq_or_eq_neg (x : Float) : x.abs = x ∨ x.abs = -x := by
  refine (abs_unpacked x.toModel.unpack).imp (fun h => ?_) (fun h => ?_)
  · change Float.ofModel (Float.Model.pack x.toModel.unpack.abs) = x
    rw [h, pack_unpack]
  · exact congrArg (fun u => Float.ofModel (Float.Model.pack u)) h

/-- What has the same rank is the same, zeros apart. -/
theorem eq_of_rank_eq (h : rank u = rank v) (hnumber : rank u ≠ none)
    (hzero : rank u ≠ rank (.zero .positive)) : u = v := by
  cases u with
  | notANumber => exact absurd rfl hnumber
  | zero s => exact absurd rfl hzero
  | infinity s => cases v with
    | notANumber => cases s <;> cases h
    | infinity t => cases s <;> cases t <;> first | rfl | cases h
    | zero t => cases s <;> cases h
    | finite t => cases s <;> cases t <;> cases h
  | finite s m e hm => cases v with
    | notANumber => cases s <;> cases h
    | infinity t => cases s <;> cases t <;> cases h
    | zero t => cases s <;> cases h
    | finite t n k hn =>
      -- Sign, exponent and mantissa are the three parts of the rank.
      obtain rfl : s = t := by cases s <;> cases t <;> first | rfl | cases h
      have hparts : e = k ∧ m = n := by
        cases s
        all_goals
          obtain ⟨-, hlex⟩ := Prod.mk.inj (toLex.injective (Option.some.inj h))
          obtain ⟨he, hm⟩ := Prod.mk.inj (toLex.injective hlex)
          omega
      obtain ⟨rfl, rfl⟩ := hparts
      rfl

theorem ofModel_pack_unpack (x : Float) : Float.ofModel (Float.Model.pack x.toModel.unpack) = x := by
  rw [pack_unpack]

theorem eq_of_unpack_eq {x y : Float} (h : x.toModel.unpack = y.toModel.unpack) : x = y := by
  rw [← ofModel_pack_unpack x, h, ofModel_pack_unpack]

theorem eq_one_of_beq (h : (x == 1) = true) : x = 1 := by
  obtain ⟨a, hx, hone⟩ := beq_iff.1 h
  have hrank : rankOf x = rankOf 1 := hx.trans hone.symm
  refine eq_of_unpack_eq (eq_of_rank_eq hrank ?_ ?_)
  · exact fun hnone => absurd (hx.symm.trans hnone) nofun
  · exact fun hzero => absurd (hrank.symm.trans hzero) (by decide +kernel)

end SphereIndex.Double

namespace SphereIndex

/-- **The signs of doubles are exact.** -/
instance : Scalar.ExactSigns Float where
  neg_neg := Double.neg_neg
  zero_lt_one := by decide +kernel
  not_zero_lt_neg_one := by decide +kernel
  eq_of_abs_beq_one {x} h := by
    change (x.abs == 1) = true at h
    rcases Double.abs_eq_or_eq_neg x with habs | habs
    · rw [habs] at h
      exact .inl (Double.eq_one_of_beq h)
    · rw [habs] at h
      refine .inr ?_
      change x = -(1 : Float)
      rw [← Double.eq_one_of_beq h, Double.neg_neg]

end SphereIndex
