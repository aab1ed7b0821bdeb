import SphereIndex.Proofs.Double.Operations
import SphereIndex.Proofs.Face.DoubleGrid
import SphereIndex.Proofs.Face.ExactGrid

/-!
# Order and sign of results

Rounding keeps the order of exact results that differ, and where they do not, equal operands are the
same double and have the same result.  It treats both signs alike, so that what is known of sums is
known of differences: adding what is not negative makes nothing smaller, subtracting it nothing
larger.
-/

namespace SphereIndex.Double

open Float.Model (Format UnpackedFloat)
open Float.Model.UnpackedFloat

variable {x y p : Float} {u v : UnpackedFloat}

/-! ## 1. Equal values -/

theorem rankOf_eq_of_value_eq (hx : x.isFinite = true) (hy : y.isFinite = true)
    (h : value x = value y) : rankOf x = rankOf y := by
  obtain ⟨a, ha⟩ := exists_rank hx
  obtain ⟨b, hb⟩ := exists_rank hy
  have hle := (le_iff_value hx hy).2 h.le
  have hge := (le_iff_value hy hx).2 h.ge
  rw [le_iff_le ha hb] at hle
  rw [le_iff_le hb ha] at hge
  exact ha.trans ((congrArg some (le_antisymm hle hge)).trans hb.symm)

/-- **A double is known by its value**, except for the sign of zero. -/
theorem eq_of_value_eq (hx : x.isFinite = true) (hy : y.isFinite = true) (h : value x = value y)
    (h0 : value x ≠ 0) : x = y := by
  obtain ⟨a, ha⟩ := exists_rank hx
  refine eq_of_unpack_eq (eq_of_rank_eq (rankOf_eq_of_value_eq hx hy h) ?_ ?_)
  · rw [ha]
    nofun
  · intro hzero
    obtain ⟨s, hs⟩ := exists_eq_zero hzero
    exact h0 (congrArg valueOf hs)

/-- **A rounded operation keeps the order** that the exact one does: where the exact results do not
differ, the operands are the same double, or zeros. -/
theorem value_le_value {f : Float → Float} {a b : ℝ} (hx : x.isFinite = true)
    (hy : y.isFinite = true) (ha : IsNearest (value (f x)) a) (hb : IsNearest (value (f y)) b)
    (h : value x ≠ value y → a < b) (h0 : value x = 0 → value y = 0 → a = b ∧ IsRepresentable a) :
    value (f x) ≤ value (f y) := by
  by_cases heq : value x = value y
  · by_cases hzero : value x = 0
    · obtain ⟨rfl, hexact⟩ := h0 hzero (heq ▸ hzero)
      rw [ha.eq hexact, hb.eq hexact]
    · rw [eq_of_value_eq hx hy heq hzero]
  · exact ha.mono hb (h heq)

/-! ## 2. Signs -/

theorem exists_pack_eq (hu : u ≠ .notANumber) : ∃ (s : Sign) (e : BitVec 11) (m : BitVec 52),
    pack Format.binary64 u = packComponents Format.binary64 s e m ∧
    pack Format.binary64 u.neg = packComponents Format.binary64 (-s) e m := by
  cases u with
  | notANumber => exact absurd rfl hu
  | infinity s => exact ⟨s, _, _, rfl, rfl⟩
  | zero s => exact ⟨s, _, _, rfl, rfl⟩
  | finite s m e hm =>
    -- Which form it is packed in depends on the size alone.
    unfold pack
    dsimp only [neg]
    split
    · exact ⟨s, _, _, rfl, rfl⟩
    · split
      · exact ⟨s, _, _, rfl, rfl⟩
      · exact ⟨s, _, _, rfl, rfl⟩

/-- **What is packed with the other sign is read with the other sign.** -/
theorem unpack_pack_neg (u : UnpackedFloat) : unpack Format.binary64 (pack Format.binary64 u.neg) =
    (unpack Format.binary64 (pack Format.binary64 u)).neg := by
  by_cases hu : u = .notANumber
  · subst hu
    rfl
  · obtain ⟨s, e, m, hpos, hneg⟩ := exists_pack_eq hu
    rw [hpos, hneg]
    exact (reads_packComponents (-s) e m).unique (reads_packComponents s e m).neg

theorem neg_ofModel_pack (u : UnpackedFloat) :
    -Float.ofModel (.pack u) = Float.ofModel (.pack u.neg) := by
  refine eq_of_unpack_eq ?_
  change (-Float.Model.pack u).unpack = _
  rw [unpack_neg]
  exact (unpack_pack_neg u).symm

theorem round_neg (s : Sign) (m : ℕ) (e : ℤ) : UnpackedFloat.round Format.binary64 (-s) m e =
    (UnpackedFloat.round Format.binary64 s m e).neg := by
  unfold UnpackedFloat.round roundWithAccuracy
  dsimp only
  rw [apply_dite UnpackedFloat.neg]
  rfl

/-- Rounding treats both signs alike. -/
theorem normalize_neg {m : ℤ} (hm : m ≠ 0) (e : ℤ) (s t : Sign) :
    UnpackedFloat.normalize Format.binary64 (-m) e s =
      (UnpackedFloat.normalize Format.binary64 m e t).neg := by
  unfold UnpackedFloat.normalize
  rcases lt_or_gt_of_ne hm with hneg | hpos
  · rw [compare_lt_iff_lt.2 hneg, compare_gt_iff_gt.2 (Int.neg_pos.2 hneg)]
    exact round_neg .negative _ e
  · rw [compare_gt_iff_gt.2 hpos, compare_lt_iff_lt.2 (Int.neg_neg_iff_pos.2 hpos), Int.neg_neg]
    exact round_neg .positive _ e

/-- **A difference is the sum with the other sign**, except for the sign of zero. -/
theorem neg_add_unpacked (u v : UnpackedFloat) :
    (add Format.binary64 u v).neg = sub Format.binary64 u.neg v ∨
      (∃ s, (add Format.binary64 u v).neg = .zero s) ∧
        ∃ s, sub Format.binary64 u.neg v = .zero s := by
  cases u with
  | notANumber => exact .inl rfl
  | infinity s => cases v with
    | notANumber | zero t | finite t n k hn => exact .inl rfl
    | infinity t => cases s <;> cases t <;> exact .inl rfl
  | zero s => cases v with
    | notANumber | infinity t | finite t n k hn => exact .inl rfl
    | zero t => cases s <;> cases t <;> exact .inr ⟨⟨_, rfl⟩, ⟨_, rfl⟩⟩
  | finite s m e hm => cases v with
    | notANumber | infinity t | zero t => exact .inl rfl
    | finite t n k hn =>
      change (UnpackedFloat.normalize Format.binary64 (s.apply _ + t.apply _) _ _).neg =
          UnpackedFloat.normalize Format.binary64 ((-s).apply _ - t.apply _) _ _ ∨
        (∃ r, (UnpackedFloat.normalize Format.binary64 (s.apply _ + t.apply _) _ _).neg = .zero r) ∧
          ∃ r, UnpackedFloat.normalize Format.binary64 ((-s).apply _ - t.apply _) _ _ = .zero r
      rw [apply_neg, ← neg_add']
      generalize s.apply _ + t.apply _ = sum
      -- Terms that cancel leave a zero, which has its sign from the operation and not from them.
      by_cases hsum : sum = 0
      · subst hsum
        exact .inr ⟨⟨_, rfl⟩, ⟨_, rfl⟩⟩
      · exact .inl (normalize_neg hsum _ _ _).symm

theorem same_of_unpacked (h : u = v ∨ (∃ s, u = .zero s) ∧ ∃ s, v = .zero s) :
    Scalar.Same (Float.ofModel (.pack u)) (Float.ofModel (.pack v)) := by
  obtain rfl | ⟨⟨s, rfl⟩, ⟨t, rfl⟩⟩ := h
  · exact .inl rfl
  · refine .inr (beq_iff.2 ⟨toLex (0, toLex (0, 0)), ?_, ?_⟩)
    · cases s <;> rfl
    · cases t <;> rfl

/-- **Turning the sign of a sum** is turning those of both terms. -/
theorem same_neg_add (x y : Float) : Scalar.Same (-(x + y)) (-x - y) := by
  change Scalar.Same (-Float.ofModel (.pack (add Format.binary64 x.toModel.unpack y.toModel.unpack)))
    (Float.ofModel (.pack (sub Format.binary64 (-x.toModel).unpack y.toModel.unpack)))
  rw [neg_ofModel_pack, unpack_neg]
  exact same_of_unpacked (neg_add_unpacked _ _)

theorem unpack_zero : (0 : Float).toModel.unpack = .zero .positive := by rfl

theorem same_zero_sub (x : Float) : Scalar.Same (-x) (0 - x) := by
  change Scalar.Same (Float.ofModel (.pack x.toModel.unpack.neg))
    (Float.ofModel (.pack (sub Format.binary64 (0 : Float).toModel.unpack x.toModel.unpack)))
  rw [unpack_zero]
  refine same_of_unpacked ?_
  generalize x.toModel.unpack = u
  cases u with
  | notANumber | infinity s | finite s m e hm => exact .inl rfl
  | zero s => cases s <;> exact .inr ⟨⟨_, rfl⟩, ⟨_, rfl⟩⟩

theorem same_zero_add (x : Float) : Scalar.Same x (0 + x) := by
  rw [← ofModel_pack_unpack x]
  refine same_of_unpacked ?_
  change _ = add Format.binary64 (0 : Float).toModel.unpack (Float.Model.pack _).unpack ∨ _
  rw [pack_unpack, unpack_zero]
  generalize x.toModel.unpack = u
  cases u with
  | notANumber | infinity s | finite s m e hm => exact .inl rfl
  | zero s => cases s <;> exact .inr ⟨⟨_, rfl⟩, ⟨_, rfl⟩⟩

/-! ## 3. Adding what is not negative -/

theorem rank_neg {a b c : ℤ} (h : rank u = some (toLex (a, toLex (b, c)))) :
    rank u.neg = some (toLex (-a, toLex (-b, -c))) := by
  cases u with
  | notANumber => cases h
  | zero s =>
    cases h
    rfl
  | infinity s => cases s <;> cases h <;> rfl
  | finite s m e hm => cases s with
    | negative =>
      cases h
      change some (toLex (1, toLex (e, (m : ℤ)))) = some (toLex (1, toLex (- -e, - -(m : ℤ))))
      rw [Int.neg_neg, Int.neg_neg]
    | positive =>
      cases h
      rfl

theorem rankOf_neg {a b c : ℤ} (h : rankOf x = some (toLex (a, toLex (b, c)))) :
    rankOf (-x) = some (toLex (-a, toLex (-b, -c))) := by
  change rank (-x.toModel).unpack = _
  rw [unpack_neg]
  exact rank_neg h

/-- **Turning signs turns the order.** -/
theorem neg_le_neg (h : x ≤ y) : -y ≤ -x := by
  obtain ⟨⟨a₁, a₂, a₃⟩, ha, ⟨b₁, b₂, b₃⟩, hb, hab⟩ := le_iff.1 h
  refine le_iff.2 ⟨_, rankOf_neg hb, _, rankOf_neg ha, ?_⟩
  have hlex : toLex (a₁, toLex (a₂, a₃)) ≤ toLex (b₁, toLex (b₂, b₃)) := hab
  simp only [Prod.Lex.toLex_le_toLex] at hlex ⊢
  omega

theorem value_nonneg (hp : 0 ≤ p) (hfinite : p.isFinite = true) : 0 ≤ value p := by
  have hzero : value 0 = 0 := congrArg valueOf unpack_zero
  rwa [le_iff_value (by decide +kernel) hfinite, hzero] at hp

theorem unpack_add (x y : Float) : (x + y).toModel.unpack =
    unpack Format.binary64 (pack Format.binary64
      (add Format.binary64 x.toModel.unpack y.toModel.unpack)) := rfl

theorem add_ne_of_isNumber (h : Scalar.IsNumber (x + y)) :
    add Format.binary64 x.toModel.unpack y.toModel.unpack ≠ .notANumber := by
  intro hnan
  refine isNumber_iff_unpack.1 h ?_
  rw [unpack_add, hnan]
  rfl

/-- **A finite sum with what is not negative** overflows upwards only. -/
theorem add_cases_of_isFinite (hp : 0 ≤ p) (hxf : x.isFinite = true) (hpf : p.isFinite = true) :
    (x + p).isFinite = true ∨ (x + p).toModel.unpack = .infinity .positive := by
  have hround := rounds_add (isReduced_unpack x) (isReduced_unpack p) hxf hpf
  rcases hround.packed with hunpack | ⟨s, hunpack, hlarge⟩
  · left
    change (x + p).toModel.unpack.isFinite = true
    rw [unpack_add, hunpack]
    exact hround.isFinite
  · right
    cases s with
    | positive => exact hunpack
    | negative =>
      -- The sum is not below the first term.
      have hlow := (abs_lt.1 (abs_value_lt x)).1
      have hge := hround.isNearest.ge (isReduced_unpack x).isRepresentable
        (le_add_of_nonneg_right (value_nonneg hp hpf))
      change value x ≤ _ at hge
      rw [signOf] at hlarge
      generalize (2 : ℝ) ^ (1024 : ℤ) = large at hlarge hlow
      linarith

/-- **A sum with what is not negative** is finite, or infinite upwards, or has a first term that is
infinite downwards. -/
theorem add_cases (hp : 0 ≤ p) (h : Scalar.IsNumber (x + p)) :
    (x + p).isFinite = true ∨ (x + p).toModel.unpack = .infinity .positive ∨
      x.toModel.unpack = .infinity .negative := by
  by_cases hfinite : x.isFinite = true ∧ p.isFinite = true
  · exact (add_cases_of_isFinite hp hfinite.1 hfinite.2).imp_right .inl
  · right
    -- One of the terms is infinite or no number, and the rank of `p` says which it can be.
    obtain ⟨a, ha, b, hb, hab⟩ := le_iff.1 hp
    rw [rankOf_zero] at ha
    cases ha
    have hnumber := add_ne_of_isNumber h
    have hinfinite (hadd : add Format.binary64 x.toModel.unpack p.toModel.unpack =
        .infinity .positive) : (x + p).toModel.unpack = .infinity .positive := by
      rw [unpack_add, hadd, unpack_pack_infinity]
    change rank p.toModel.unpack = some b at hb
    change ¬(x.toModel.unpack.isFinite = true ∧ p.toModel.unpack.isFinite = true) at hfinite
    generalize x.toModel.unpack = u at hnumber hfinite hinfinite ⊢
    generalize p.toModel.unpack = v at hnumber hfinite hinfinite hb
    cases u with
    | notANumber => exact absurd rfl hnumber
    | infinity s => cases s with
      | negative => exact .inr rfl
      | positive => cases v with
        | notANumber => cases hb
        | infinity t => cases t with
          | positive => exact .inl (hinfinite rfl)
          | negative => exact absurd rfl hnumber
        | zero t | finite t n k hn => exact .inl (hinfinite rfl)
    | zero s | finite s m e hm => cases v with
      | notANumber => cases hb
      | infinity t => cases t with
        | positive => exact .inl (hinfinite rfl)
        | negative =>
          cases hb
          exact absurd hab (by decide)
      | zero t | finite t n k hn => exact absurd ⟨rfl, rfl⟩ hfinite

/-- **The infinities are at both ends.** -/
theorem rank_mem_Icc {a : ℤ ×ₗ ℤ ×ₗ ℤ} (h : rank u = some a) :
    toLex (-2, toLex (0, 0)) ≤ a ∧ a ≤ toLex (2, toLex (0, 0)) := by
  cases u with
  | notANumber => cases h
  | zero s =>
    cases h
    simp [Prod.Lex.toLex_le_toLex]
  | infinity s | finite s m e hm => cases s <;> cases h <;> simp [Prod.Lex.toLex_le_toLex]

/-- **Adding what is not negative makes nothing smaller.** -/
theorem le_add (hp : 0 ≤ p) (h : Scalar.IsNumber (x + p)) : x ≤ x + p := by
  have hx : Scalar.IsNumber x := by
    refine isNumber_iff_unpack.2 fun hnan => add_ne_of_isNumber h ?_
    rw [hnan]
    rfl
  obtain ⟨a, ha⟩ := isNumber_iff.1 hx
  obtain ⟨b, hb⟩ := isNumber_iff.1 h
  rcases add_cases hp h with hfinite | htop | hbottom
  · obtain ⟨hxf, hpf⟩ := isFinite_of_add hfinite
    have hnearest := (isResult_add hxf hpf).isNearest hfinite
    exact (le_iff_value hxf hfinite).2 (hnearest.ge (isReduced_unpack x).isRepresentable
      (le_add_of_nonneg_right (value_nonneg hp hpf)))
  · refine (le_iff_le ha hb).2 ((rank_mem_Icc ha).2.trans_eq ?_)
    rw [rankOf, htop] at hb
    exact Option.some.inj hb
  · refine (le_iff_le ha hb).2 (Eq.trans_le ?_ (rank_mem_Icc hb).1)
    rw [rankOf, hbottom] at ha
    exact (Option.some.inj ha).symm

/-- **Subtracting what is not negative makes nothing larger.** -/
theorem sub_le (hp : 0 ≤ p) (h : Scalar.IsNumber (x - p)) : x - p ≤ x := by
  -- Both sides of `-x ≤ -x + p`, turned.
  have hsame := same_neg_add (-x) p
  rw [neg_neg] at hsame
  have hle : x - p ≤ -(-x + p) ∧ Scalar.IsNumber (-(-x + p)) := by
    rcases hsame with heq | hbeq
    · rw [heq]
      exact ⟨h, h⟩
    · obtain ⟨hle, hge⟩ := Scalar.Ordered.beq_iff.1 hbeq
      exact ⟨hge, (Scalar.Ordered.isNumber_of_le hle).1⟩
  have hsum : Scalar.IsNumber (-x + p) := by
    have := neg_le_neg hle.2
    rwa [neg_neg] at this
  have hneg := neg_le_neg (le_add hp hsum)
  rw [neg_neg] at hneg
  exact Scalar.Ordered.le_trans hle.1 hneg

/-- **Moving two doubles apart keeps their order.** -/
theorem not_add_lt_sub (hp : 0 ≤ p) (h : ¬y < x) : ¬y + p < x - p := by
  intro hlt
  have hle := Scalar.Ordered.le_of_lt hlt
  obtain ⟨hsum, hdiff⟩ := Scalar.Ordered.isNumber_of_le hle
  exact h (Scalar.Ordered.lt_of_le_of_lt (le_add hp hsum)
    (Scalar.Ordered.lt_of_lt_of_le hlt (sub_le hp hdiff)))

end SphereIndex.Double
