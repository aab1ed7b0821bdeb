import SphereIndex.TwoPow

/-!
# Scalars

The numbers of the geometry.  Every formula of this library is written once, over any type with
the operations of `Scalar`, and then used in three ways: it runs in double precision, it is read
in exact arithmetic, and a statement about all scalars covers every way an operation may round,
because the class assumes no law.
-/

namespace SphereIndex

/-- **The operations that the geometry needs of its numbers.**  No law is assumed of them: what
holds for every `Scalar` holds whatever value an operation returns. -/
class Scalar (α : Type) where
  ofNat : Nat → α
  /-- The decimal `m / 10 ^ e`. -/
  ofDecimal : Nat → Nat → α
  add : α → α → α
  sub : α → α → α
  mul : α → α → α
  div : α → α → α
  neg : α → α
  abs : α → α
  sqrt : α → α
  log2 : α → α
  floor : α → α
  /-- The nearest integer, a half going away from zero. -/
  round : α → α
  lt : α → α → Prop
  le : α → α → Prop
  eq : α → α → Bool
  /-- Whether the sign bit is set: of a zero too, where zeros are signed. -/
  isNegative : α → Bool
  isFinite : α → Bool
  /-- The integer part; 0 below zero and for what is not a number. -/
  toNat : α → Nat
  decidableLt : ∀ x y, Decidable (lt x y)
  decidableLe : ∀ x y, Decidable (le x y)

namespace Scalar

variable {α : Type} [Scalar α]

/-! ## 1. Operators

Their priority is low, so that a type with operators of its own keeps them. -/

instance (priority := low) (n : Nat) : OfNat α n := ⟨Scalar.ofNat n⟩
instance (priority := low) : OfScientific α :=
  ⟨fun m down e => if down then Scalar.ofDecimal m e else Scalar.ofNat (m * Nat.pow 10 e)⟩
instance (priority := low) : Add α := ⟨Scalar.add⟩
instance (priority := low) : Sub α := ⟨Scalar.sub⟩
instance (priority := low) : Mul α := ⟨Scalar.mul⟩
instance (priority := low) : Div α := ⟨Scalar.div⟩
instance (priority := low) : Neg α := ⟨Scalar.neg⟩
instance (priority := low) : LT α := ⟨Scalar.lt⟩
instance (priority := low) : LE α := ⟨Scalar.le⟩
instance (priority := low) : BEq α := ⟨Scalar.eq⟩
instance (priority := low) (x y : α) : Decidable (x < y) := Scalar.decidableLt x y
instance (priority := low) (x y : α) : Decidable (x ≤ y) := Scalar.decidableLe x y

/-! ## 2. Smaller, larger, clamped -/

/-- The larger of two values; beside a value that is not a number, the other one. -/
def max (x y : α) : α :=
  if x < y then y else if x == x then x else y

/-- The smaller of two values; beside a value that is not a number, the other one. -/
def min (x y : α) : α :=
  if y < x then y else if x == x then x else y

/-- The value of `[lo, hi]` closest to `x`; what is not a number stays as it is. -/
def clamp (x lo hi : α) : α :=
  if x < lo then lo else if hi < x then hi else x

/-! ## 3. Constants -/

def half : α := 1 / 2

/-- The distance from 1 to the next double, `2 ^ -52`. -/
def epsilon : α := 1 / Scalar.ofNat (twoPow 52)

end Scalar

/-! ## 4. Double precision -/

instance : Scalar Float where
  ofNat := Float.ofNat
  ofDecimal m e := Float.ofScientific m true e
  add x y := x + y
  sub x y := x - y
  mul x y := x * y
  div x y := x / y
  neg x := -x
  abs := Float.abs
  sqrt := Float.sqrt
  log2 := Float.log2
  floor := Float.floor
  round := Float.round
  lt x y := x < y
  le x y := x ≤ y
  eq x y := x == y
  isNegative x := x.toBits >>> 63 == 1
  isFinite := Float.isFinite
  toNat x := x.toUInt64.toNat
  decidableLt x y := inferInstanceAs (Decidable (x < y))
  decidableLe x y := inferInstanceAs (Decidable (x ≤ y))

end SphereIndex
