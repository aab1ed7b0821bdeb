import SphereIndex.Proofs.Face.Grid

/-!
# Exact grids

What a cell carries along and what its id says agree as numbers already if the arithmetic rounds, as
long as it does not on the lines of the grid: the quotients that place them are exact, and elsewhere
rounding keeps the order of values and treats both signs alike.
-/

namespace SphereIndex

/-- Equal as numbers: the same value, or told to be equal, as the two zeros are. -/
def Scalar.Same {α : Type} [Scalar α] (x y : α) : Prop := x = y ∨ (x == y) = true

/-! ## 1. What is needed of the arithmetic -/

/-- **An arithmetic whose grid is exact**, such as that of doubles or of the real numbers. -/
structure Grid.IsExact (α : Type) [Scalar α] : Prop where
  /-- A number below `2 ^ 32` divided by a power of two is exact, so that equal quotients are the
  same value. -/
  div_two_pow : ∀ m n j k : Nat, m < 2 ^ 32 → n < 2 ^ 32 → j < 32 → k < 32 →
    m * 2 ^ k = n * 2 ^ j →
    (Scalar.ofNat m / Scalar.ofNat (2 ^ j) : α) = Scalar.ofNat n / Scalar.ofNat (2 ^ k)
  div_one : ∀ n : Nat, n < 2 ^ 32 → (Scalar.ofNat n / Scalar.ofNat 1 : α) = Scalar.ofNat n
  toFace_zero : toFace (0 : α) = -1
  toFace_half : toFace (Scalar.half : α) = 0
  toFace_one : toFace (1 : α) = 1
  /-- Rounding keeps the order of the lines. -/
  not_side_lt_side : ∀ m n : Nat, m ≤ n → n ≤ 2 ^ 30 →
    ¬(toFace (side n) : α) < toFace (side m)
  /-- Moving two values apart keeps their order. -/
  not_add_lt_sub : ∀ x y p : α, 0 ≤ p → ¬y < x → ¬y + p < x - p
  /-- Rounding treats both signs alike. -/
  same_neg_one_sub : ∀ p : α, 0 ≤ p → Scalar.Same (-(1 + p)) (-1 - p)
  same_zero_sub : ∀ p : α, 0 ≤ p → Scalar.Same (-p) (0 - p)
  same_zero_add : ∀ p : α, 0 ≤ p → Scalar.Same p (0 + p)

namespace Grid.IsExact

variable {α : Type} [Scalar α]

theorem side_zero (h : Grid.IsExact α) : (Grid.side 0 : α) = 0 :=
  calc
    (Grid.side 0 : α) = Scalar.ofNat 0 / Scalar.ofNat (2 ^ 0) :=
      h.div_two_pow 0 0 30 0 (by decide) (by decide) (by decide) (by decide) (by decide)
    _ = 0 := h.div_one 0 (by decide)

theorem side_middle (h : Grid.IsExact α) : (Grid.side (2 ^ 29) : α) = Scalar.half :=
  h.div_two_pow (2 ^ 29) 1 30 1 (by decide) (by decide) (by decide) (by decide) (by decide)

theorem side_last (h : Grid.IsExact α) : (Grid.side (2 ^ 30) : α) = 1 :=
  calc
    (Grid.side (2 ^ 30) : α) = Scalar.ofNat 1 / Scalar.ofNat (2 ^ 0) :=
      h.div_two_pow (2 ^ 30) 1 30 0 (by decide) (by decide) (by decide) (by decide) (by decide)
    _ = 1 := h.div_one 1 (by decide)

theorem halfSide_two_mul (h : Grid.IsExact α) {n : Nat} (hn : n ≤ 2 ^ 30) :
    (Grid.halfSide (2 * n) : α) = Grid.side n := by
  apply h.div_two_pow (2 * n) n 31 30
  · omega
  · omega
  · decide
  · decide
  · omega

end Grid.IsExact

/-! ## 2. The real numbers -/

theorem Scalar.same_real {x y : ℝ} : Scalar.Same x y ↔ x = y :=
  or_iff_left_of_imp (Scalar.eq_real x y).1

theorem Grid.isExact_real : Grid.IsExact ℝ where
  div_two_pow m n j k _ _ _ _ h := by
    rw [Scalar.ofNat_real, Scalar.ofNat_real, Scalar.ofNat_real, Scalar.ofNat_real]
    change (m : ℝ) / ((2 ^ j : ℕ) : ℝ) = (n : ℝ) / ((2 ^ k : ℕ) : ℝ)
    rw [div_eq_div_iff (by positivity) (by positivity)]
    exact_mod_cast h
  div_one n _ := by
    rw [Scalar.ofNat_real, Scalar.ofNat_real]
    change (n : ℝ) / ((1 : ℕ) : ℝ) = n
    rw [Nat.cast_one, div_one]
  toFace_zero := by
    change toFace (0 : ℝ) = -1
    rw [toFace_of_lt (by norm_num)]
    norm_num
  toFace_half := by
    change toFace (1 / 2 : ℝ) = 0
    rw [toFace_of_ge le_rfl]
    norm_num
  toFace_one := by
    change toFace (1 : ℝ) = 1
    rw [toFace_of_ge (by norm_num)]
    norm_num
  not_side_lt_side m n hmn _ := not_lt.2 (line_strictMono.monotone hmn)
  not_add_lt_sub x y p hp h := by
    change 0 ≤ p at hp
    change ¬y < x at h
    change ¬y + p < x - p
    rw [not_lt] at h ⊢
    linarith
  same_neg_one_sub p _ := .inl (neg_add' 1 p)
  same_zero_sub p _ := .inl (zero_sub p).symm
  same_zero_add p _ := .inl (zero_add p).symm

end SphereIndex
