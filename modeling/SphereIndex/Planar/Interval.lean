import SphereIndex.Scalar

/-!
# Intervals

Closed intervals, empty ones included: an interval is empty when its low end lies above its high
end, and operations never put the ends in order.  Splitting a bound at a point relies on that.
-/

namespace SphereIndex

/-- Why a part of an interval or rectangle cannot be picked by its number. -/
inductive PartError where
  | intervalEnd (n : Nat)
  | rectAxis (n : Nat)
  deriving DecidableEq, Repr

inductive End where
  | lo
  | hi
  deriving DecidableEq, Repr

namespace End

def other : End → End
  | lo => hi
  | hi => lo

@[simp] theorem other_other (e : End) : e.other.other = e := by cases e <;> rfl

def pick : Nat → Except PartError End
  | 0 => .ok lo
  | 1 => .ok hi
  | n => .error (.intervalEnd n)

end End

structure Interval (α : Type) where
  lo : α
  hi : α
  deriving BEq, DecidableEq, Repr

namespace Interval

/-! ## 1. The two ends -/

section ends
variable {α : Type}

def get (a : Interval α) : End → α
  | .lo => a.lo
  | .hi => a.hi

/-- The interval with one end moved; the other end stays, even if it ends up on the wrong side. -/
def set (a : Interval α) (e : End) (x : α) : Interval α :=
  match e with
  | .lo => ⟨x, a.hi⟩
  | .hi => ⟨a.lo, x⟩

@[simp] theorem get_set_self (a : Interval α) (e : End) (x : α) : (a.set e x).get e = x := by
  cases e <;> rfl

@[simp] theorem get_set_other (a : Interval α) (e : End) (x : α) :
    (a.set e x).get e.other = a.get e.other := by cases e <;> rfl

end ends

variable {α : Type} [Scalar α]

/-! ## 2. The values of an interval -/

/-- The interval `[1, 0]`, which stands for every empty one. -/
def empty : Interval α := ⟨1, 0⟩

instance : Inhabited (Interval α) := ⟨empty⟩

def ofPair (p q : α) : Interval α := if p ≤ q then ⟨p, q⟩ else ⟨q, p⟩

def IsEmpty (a : Interval α) : Prop := a.hi < a.lo

instance (a : Interval α) : Decidable a.IsEmpty := inferInstanceAs (Decidable (_ < _))

def Contains (a : Interval α) (p : α) : Prop := a.lo ≤ p ∧ p ≤ a.hi

instance (a : Interval α) (p : α) : Decidable (a.Contains p) :=
  inferInstanceAs (Decidable (_ ∧ _))

def center (a : Interval α) : α := Scalar.half * (a.lo + a.hi)

/-- The distance between the ends, negative for an empty interval. -/
def length (a : Interval α) : α := a.hi - a.lo

/-! ## 3. Two intervals -/

def Includes (a b : Interval α) : Prop := b.IsEmpty ∨ a.lo ≤ b.lo ∧ b.hi ≤ a.hi

instance (a b : Interval α) : Decidable (a.Includes b) := inferInstanceAs (Decidable (_ ∨ _))

def Meets (a b : Interval α) : Prop :=
  if a.lo ≤ b.lo then b.lo ≤ a.hi ∧ b.lo ≤ b.hi else a.lo ≤ b.hi ∧ a.lo ≤ a.hi

instance (a b : Interval α) : Decidable (a.Meets b) :=
  inferInstanceAs (Decidable (if a.lo ≤ b.lo then b.lo ≤ a.hi ∧ b.lo ≤ b.hi
    else a.lo ≤ b.hi ∧ a.lo ≤ a.hi))

/-- The smallest interval that includes both. -/
def union (a b : Interval α) : Interval α :=
  if a.IsEmpty then b
  else if b.IsEmpty then a
  else ⟨Scalar.min a.lo b.lo, Scalar.max a.hi b.hi⟩

def inter (a b : Interval α) : Interval α := ⟨Scalar.max a.lo b.lo, Scalar.min a.hi b.hi⟩

/-! ## 4. Moving the ends -/

/-- The value of a non-empty interval that is closest to `p`. -/
def clamp (a : Interval α) (p : α) : α := Scalar.max a.lo (Scalar.min a.hi p)

/-- The interval grown by a margin on both sides; an empty one stays as it is. -/
def expanded (a : Interval α) (margin : α) : Interval α :=
  if a.IsEmpty then a else ⟨a.lo - margin, a.hi + margin⟩

end Interval

end SphereIndex
