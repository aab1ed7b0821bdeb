import SphereIndex.Face.Projection
import SphereIndex.Planar.Interval

/-!
# Lines on the sphere

The great circle through two points is given by the normal of its plane.  In the frame of a face
with normal (n.x, n.y, n.z) it becomes the line `n.x * u + n.y * v + n.z = 0`, directed so that
it runs along (n.y, -n.x).  All questions about where a line enters and leaves the square of a
face are answered from that normal alone, so that the pieces on neighbouring faces join.
-/

namespace SphereIndex

variable {α : Type} [Scalar α]

namespace Vec3

/-! ## 1. The normal of the line through two points -/

/-- A unit vector orthogonal to `a`, computed stably for every direction. -/
def orthogonal (a : Vec3 α) : Vec3 α :=
  let other : Vec3 α := match a.largestCoordinate with
    | .x => ⟨0.012, 0.0053, 1⟩
    | .y => ⟨1, 0.0053, 0.00457⟩
    | .z => ⟨0.012, 1, 0.00457⟩
  (a.cross other).normalize

/-- **Twice the cross product** of two points, accurate also for points that are nearly the same;
some vector orthogonal to `a` if they are the same or opposite. -/
def lineNormal (a b : Vec3 α) : Vec3 α :=
  let n := (b + a).cross (b - a)
  if n == zero then a.orthogonal else n

end Vec3

/-! ## 2. Margins of error -/

/-- How far the ends of a clipped edge may be off, in radians. -/
def faceClipRadians : α := 3 * Scalar.epsilon

/-- How far a coordinate of the end of a clipped edge may be off. -/
def faceClipError : α := 9 * Scalar.sqrt Scalar.half * Scalar.epsilon

/-- How far a side of a clipped bound may be off. -/
def boundClipError : α := 9 / 4 * Scalar.epsilon

/-- A coordinate up to this one lies on the face also after rounding. -/
def safeCoordinate : α := 1 - faceClipError

/-! ## 3. A line and the square of a face -/

namespace Line

def MeetsSquare (n : Vec3 α) : Prop :=
  Scalar.abs n.z - Scalar.abs n.x ≤ Scalar.abs n.y ∧
    Scalar.abs n.z - Scalar.abs n.y ≤ Scalar.abs n.x

instance (n : Vec3 α) : Decidable (MeetsSquare n) := inferInstanceAs (Decidable (_ ∧ _))

/-- Whether the line crosses two opposite sides of the square; through a corner it does. -/
def CrossesOpposite (n : Vec3 α) : Prop :=
  let u := Scalar.abs n.x
  let v := Scalar.abs n.y
  let w := Scalar.abs n.z
  if Scalar.abs (u - v) != w then w ≤ Scalar.abs (u - v)
  else if v ≤ u then v ≤ u - w else u ≤ v - w

instance (n : Vec3 α) : Decidable (CrossesOpposite n) :=
  inferInstanceAs (Decidable (if _ != _ then _ ≤ _ else if _ ≤ _ then _ ≤ _ else _ ≤ _))

/-- **The axis of the side through which the line leaves the square.**  Through two opposite
sides, it is the axis the line runs along; otherwise an odd number of negative components of the
normal tells that it leaves through a side across u. -/
def exitAxis (n : Vec3 α) : Axis :=
  if CrossesOpposite n then (if Scalar.abs n.y ≤ Scalar.abs n.x then .v else .u)
  else if Scalar.isNegative n.x ^^ Scalar.isNegative n.y ^^ Scalar.isNegative n.z then .u
  else .v

def exitPoint (n : Vec3 α) (axis : Axis) : Vec2 α :=
  match axis with
  | .u =>
    let u : α := if 0 < n.y then 1 else -1
    ⟨u, (-u * n.x - n.z) / n.y⟩
  | .v =>
    let v : α := if n.x < 0 then 1 else -1
    ⟨(-v * n.y - n.z) / n.x, v⟩

def exit (n : Vec3 α) : Vec2 α := exitPoint n (exitAxis n)

/-- Whether the sum of two numbers is a third, with no rounding in any arrangement. -/
def SumEquals (x y z : α) : Prop := x + y == z ∧ x == z - y ∧ y == z - x

instance (x y z : α) : Decidable (SumEquals x y z) := inferInstanceAs (Decidable (_ ∧ _ ∧ _))

end Line

end SphereIndex
