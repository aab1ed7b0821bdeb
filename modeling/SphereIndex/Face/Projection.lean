import SphereIndex.Face.Basic

/-!
# Projection onto the faces

A point of space is projected from the origin onto the face that its direction meets, and has
there the coordinates (u, v), between -1 and 1.
-/

namespace SphereIndex

inductive Coordinate where
  | x
  | y
  | z
  deriving DecidableEq, Repr

namespace Vec3

variable {α : Type} [Scalar α]

/-- The coordinate of largest size, the later one of equals. -/
def largestCoordinate (p : Vec3 α) : Coordinate :=
  let a := p.abs
  if a.y < a.x then (if a.z < a.x then .x else .z)
  else if a.z < a.y then .y
  else .z

end Vec3

namespace Face

variable {α : Type} [Scalar α]

/-! ## 1. From space to a face -/

/-- **The face that the direction of a point meets.** -/
def ofPoint (p : Vec3 α) : Face :=
  match p.largestCoordinate with
  | .x => if p.x < 0 then xNeg else xPos
  | .y => if p.y < 0 then yNeg else yPos
  | .z => if p.z < 0 then zNeg else zPos

/-- The coordinates on the face of a point on its side of the origin. -/
def project (f : Face) (p : Vec3 α) : Vec2 α :=
  let q := f.toFrame p
  ⟨q.x / q.z, q.y / q.z⟩

def project? (f : Face) (p : Vec3 α) : Option (Vec2 α) :=
  if 0 < f.height p then some (f.project p) else none

/-! ## 2. From a face to space -/

/-- The point of the cube with the given coordinates on the face. -/
def lift (f : Face) (p : Vec2 α) : Vec3 α :=
  match f with
  | xPos => ⟨1, p.x, p.y⟩
  | yPos => ⟨-p.x, 1, p.y⟩
  | zPos => ⟨-p.x, -p.y, 1⟩
  | xNeg => ⟨-1, -p.y, -p.x⟩
  | yNeg => ⟨p.y, -1, -p.x⟩
  | zNeg => ⟨p.y, p.x, -1⟩

/-- A normal of the plane through the origin and the line of constant `u` on the face. -/
def uNormal (f : Face) (u : α) : Vec3 α :=
  match f with
  | xPos => ⟨u, -1, 0⟩
  | yPos => ⟨1, u, 0⟩
  | zPos => ⟨1, 0, u⟩
  | xNeg => ⟨-u, 0, 1⟩
  | yNeg => ⟨0, -u, 1⟩
  | zNeg => ⟨0, -1, -u⟩

/-- A normal of the plane through the origin and the line of constant `v` on the face. -/
def vNormal (f : Face) (v : α) : Vec3 α :=
  match f with
  | xPos => ⟨-v, 0, 1⟩
  | yPos => ⟨0, -v, 1⟩
  | zPos => ⟨0, -1, -v⟩
  | xNeg => ⟨v, -1, 0⟩
  | yNeg => ⟨1, v, 0⟩
  | zNeg => ⟨-1, 0, -v⟩

end Face

end SphereIndex
