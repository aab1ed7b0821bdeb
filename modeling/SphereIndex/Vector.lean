import SphereIndex.Scalar

/-!
# Points of the plane and of space

`Vec2` is a point of a face in its (u, v) coordinates, `Vec3` a point of space or a direction.
-/

namespace SphereIndex

inductive Axis where
  | u
  | v
  deriving DecidableEq, Repr

namespace Axis

def other : Axis → Axis
  | u => v
  | v => u

@[simp] theorem other_other (a : Axis) : a.other.other = a := by cases a <;> rfl

/-- Number 0 is the first axis and any other number the second. -/
def numbered (n : Nat) : Axis := if n = 0 then u else v

end Axis

structure Vec2 (α : Type) where
  x : α
  y : α
  deriving BEq, DecidableEq, Repr

def Vec2.along {α : Type} (p : Vec2 α) : Axis → α
  | .u => p.x
  | .v => p.y

structure Vec3 (α : Type) where
  x : α
  y : α
  z : α
  deriving BEq, DecidableEq, Repr

namespace Vec3

variable {α : Type} [Scalar α]

instance : Add (Vec3 α) := ⟨fun a b => ⟨a.x + b.x, a.y + b.y, a.z + b.z⟩⟩
instance : Sub (Vec3 α) := ⟨fun a b => ⟨a.x - b.x, a.y - b.y, a.z - b.z⟩⟩
instance : Neg (Vec3 α) := ⟨fun a => ⟨-a.x, -a.y, -a.z⟩⟩

def zero : Vec3 α := ⟨0, 0, 0⟩

def scale (a : Vec3 α) (k : α) : Vec3 α := ⟨a.x * k, a.y * k, a.z * k⟩

def abs (a : Vec3 α) : Vec3 α := ⟨Scalar.abs a.x, Scalar.abs a.y, Scalar.abs a.z⟩

def dot (a b : Vec3 α) : α := a.x * b.x + a.y * b.y + a.z * b.z

def cross (a b : Vec3 α) : Vec3 α :=
  ⟨a.y * b.z - b.y * a.z, a.z * b.x - b.z * a.x, a.x * b.y - b.x * a.y⟩

def lengthSquared (a : Vec3 α) : α := a.dot a

def length (a : Vec3 α) : α := Scalar.sqrt a.lengthSquared

def normalize (a : Vec3 α) : Vec3 α := a.scale (1 / a.length)

def largest (a : Vec3 α) : α := Scalar.max a.x (Scalar.max a.y a.z)

def isFinite (a : Vec3 α) : Bool :=
  Scalar.isFinite a.x && Scalar.isFinite a.y && Scalar.isFinite a.z

/-- How far the squared length of a point may be from 1 for it to count as a unit vector. -/
def unitTolerance : α := 5 * Scalar.epsilon

def isUnit (a : Vec3 α) : Bool := Scalar.abs (a.lengthSquared - 1) ≤ unitTolerance (α := α)

end Vec3

end SphereIndex
