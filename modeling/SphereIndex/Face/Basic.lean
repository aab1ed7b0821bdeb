import SphereIndex.Vector

/-!
# The six faces of the cube

The sphere is projected onto the cube with sides at distance 1 from the origin.  A face is named
for the direction of its outward normal.  Every face has a right-handed frame (u, v, w) whose
third axis is that normal, and since the axes of a frame are again normals of faces, one table
fixes the frames and says which faces are neighbours.
-/

namespace SphereIndex

inductive Face where
  | xPos
  | yPos
  | zPos
  | xNeg
  | yNeg
  | zNeg
  deriving DecidableEq, Repr

namespace Face

/-! ## 1. Numbering -/

def all : List Face := [xPos, yPos, zPos, xNeg, yNeg, zNeg]

def number : Face → Nat
  | xPos => 0
  | yPos => 1
  | zPos => 2
  | xNeg => 3
  | yNeg => 4
  | zNeg => 5

def numbered? (n : Nat) : Option Face := all[n]?

/-- The face with that number, the last face for any number above. -/
def numbered (n : Nat) : Face := (numbered? n).getD zNeg

@[simp] theorem numbered?_number (f : Face) : numbered? f.number = some f := by cases f <;> rfl

theorem number_lt (f : Face) : f.number < 6 := by cases f <;> decide

theorem number_injective {f g : Face} (h : f.number = g.number) : f = g :=
  Option.some.inj (by rw [← numbered?_number f, ← numbered?_number g, h])

/-! ## 2. Frames and neighbours -/

def opposite : Face → Face
  | xPos => xNeg
  | yPos => yNeg
  | zPos => zNeg
  | xNeg => xPos
  | yNeg => yPos
  | zNeg => zPos

@[simp] theorem opposite_opposite (f : Face) : f.opposite.opposite = f := by cases f <;> rfl

/-- The direction of an axis of the frame of a face, named by the face it points to. -/
def toward : Face → Axis → Face
  | xPos, .u => yPos
  | xPos, .v => zPos
  | yPos, .u => xNeg
  | yPos, .v => zPos
  | zPos, .u => xNeg
  | zPos, .v => yNeg
  | xNeg, .u => zNeg
  | xNeg, .v => yNeg
  | yNeg, .u => zNeg
  | yNeg, .v => xPos
  | zNeg, .u => yPos
  | zNeg, .v => xPos

/-- The face across the side where the coordinate along `axis` is 1, or -1 if not `positive`. -/
def neighbour (f : Face) (axis : Axis) (positive : Bool) : Face :=
  if positive then f.toward axis else (f.toward axis).opposite

theorem neighbour_ne (f : Face) (axis : Axis) (positive : Bool) :
    f.neighbour axis positive ≠ f ∧ f.neighbour axis positive ≠ f.opposite := by
  cases f <;> cases axis <;> cases positive <;> decide

def frame (f : Face) : List Face := [f.toward .u, f.toward .v, f]

variable {α : Type} [Scalar α]

def normal : Face → Vec3 α
  | xPos => ⟨1, 0, 0⟩
  | yPos => ⟨0, 1, 0⟩
  | zPos => ⟨0, 0, 1⟩
  | xNeg => ⟨-1, 0, 0⟩
  | yNeg => ⟨0, -1, 0⟩
  | zNeg => ⟨0, 0, -1⟩

/-- How far a point lies in the direction of a face. -/
def height (f : Face) (p : Vec3 α) : α :=
  match f with
  | xPos => p.x
  | yPos => p.y
  | zPos => p.z
  | xNeg => -p.x
  | yNeg => -p.y
  | zNeg => -p.z

/-- **The point in the frame of the face.** -/
def toFrame (f : Face) (p : Vec3 α) : Vec3 α :=
  ⟨(f.toward .u).height p, (f.toward .v).height p, f.height p⟩

end Face

end SphereIndex
