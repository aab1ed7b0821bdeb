import SphereIndex.Proofs.Exact

/-!
# Exact signs

Rounding does not touch a sign.  Where numbers are only negated and compared with 1 and -1, nothing is
rounded, and what holds in exact arithmetic holds as exactly in any other.
-/

namespace SphereIndex.Scalar

/-- **An arithmetic with exact signs**, such as that of doubles or of the real numbers.  Nothing is
said of sums, products and quotients. -/
class ExactSigns (α : Type) [Scalar α] : Prop where
  neg_neg : ∀ x : α, -(-x) = x
  zero_lt_one : (0 : α) < 1
  not_zero_lt_neg_one : ¬(0 : α) < -1
  /-- Only 1 and -1 are of size 1. -/
  eq_of_abs_beq_one : ∀ {x : α}, (Scalar.abs x == 1) = true → x = 1 ∨ x = -1

instance : ExactSigns ℝ where
  neg_neg := neg_neg
  zero_lt_one := zero_lt_one
  not_zero_lt_neg_one := by
    change ¬(0 : ℝ) < -1
    norm_num
  eq_of_abs_beq_one h := (abs_eq zero_le_one).1 ((eq_real _ _).1 h)

end SphereIndex.Scalar
