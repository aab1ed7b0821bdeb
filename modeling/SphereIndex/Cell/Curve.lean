/-!
# The Hilbert curve

A cell has four children, one per quadrant.  The curve runs through them in an order that depends
on how its piece inside the cell is turned: the two axes may be swapped, and both may be inverted.
The position of a child on the curve is its digit; a path of digits from a face leads to a cell.
-/

namespace SphereIndex

/-- A quadrant of a cell: the upper or lower half along each axis. -/
structure Quadrant where
  i : Bool
  j : Bool
  deriving DecidableEq, Repr

namespace Quadrant

/-- The four quadrants, the second axis varying fastest. -/
def all : List Quadrant := [⟨false, false⟩, ⟨false, true⟩, ⟨true, false⟩, ⟨true, true⟩]

theorem mem_all (q : Quadrant) : q ∈ all := by
  rcases q with ⟨_ | _, _ | _⟩ <;> decide

end Quadrant

/-- The position of a child among its siblings on the curve. -/
abbrev Digit := Fin 4

/-- How the curve is turned inside a cell. -/
structure Orientation where
  swapped : Bool
  inverted : Bool
  deriving DecidableEq, Repr

namespace Orientation

/-- The orientation on a whole face: swapped on faces with odd numbers. -/
def ofFace (face : Nat) : Orientation := ⟨face % 2 == 1, false⟩

def number (o : Orientation) : Nat := o.swapped.toNat + 2 * o.inverted.toNat

/-! ## 1. One step -/

/-- The quadrant of the child with a given digit.  In the plain orientation the curve goes up the
lower half along u and down the upper half. -/
def quadrant (o : Orientation) (d : Digit) : Quadrant :=
  let plain : Quadrant := match d with
    | 0 => ⟨false, false⟩
    | 1 => ⟨false, true⟩
    | 2 => ⟨true, true⟩
    | 3 => ⟨true, false⟩
  let turned : Quadrant := if o.swapped then ⟨plain.j, plain.i⟩ else plain
  ⟨turned.i ^^ o.inverted, turned.j ^^ o.inverted⟩

/-- The digit of the child in a given quadrant. -/
def digit (o : Orientation) (q : Quadrant) : Digit :=
  let upright : Quadrant := ⟨q.i ^^ o.inverted, q.j ^^ o.inverted⟩
  let plain : Quadrant := if o.swapped then ⟨upright.j, upright.i⟩ else upright
  match plain with
  | ⟨false, false⟩ => 0
  | ⟨false, true⟩ => 1
  | ⟨true, true⟩ => 2
  | ⟨true, false⟩ => 3

/-- The orientation inside the child with a given digit. -/
def child (o : Orientation) (d : Digit) : Orientation :=
  match d with
  | 0 => ⟨!o.swapped, o.inverted⟩
  | 1 => o
  | 2 => o
  | 3 => ⟨!o.swapped, !o.inverted⟩

@[simp] theorem digit_quadrant (o : Orientation) (d : Digit) : o.digit (o.quadrant d) = d := by
  rcases o with ⟨_ | _, _ | _⟩ <;> revert d <;> decide

@[simp] theorem quadrant_digit (o : Orientation) (q : Quadrant) : o.quadrant (o.digit q) = q := by
  rcases o with ⟨_ | _, _ | _⟩ <;> rcases q with ⟨_ | _, _ | _⟩ <;> decide

end Orientation

/-! ## 2. Paths -/

/-- **Where a path of digits has led**: the column and row of the cell among the cells of its
level, and the orientation inside it. -/
structure Spot where
  orientation : Orientation
  i : Nat
  j : Nat
  deriving DecidableEq, Repr

namespace Spot

def start (o : Orientation) : Spot := ⟨o, 0, 0⟩

/-- One level down, to the child with a given digit. -/
def down (s : Spot) (d : Digit) : Spot :=
  let q := s.orientation.quadrant d
  ⟨s.orientation.child d, 2 * s.i + q.i.toNat, 2 * s.j + q.j.toNat⟩

def follow (s : Spot) (path : List Digit) : Spot := path.foldl down s

@[simp] theorem follow_nil (s : Spot) : s.follow [] = s := rfl

@[simp] theorem follow_cons (s : Spot) (d : Digit) (path : List Digit) :
    s.follow (d :: path) = (s.down d).follow path := rfl

@[simp] theorem follow_append (s : Spot) (p q : List Digit) :
    s.follow (p ++ q) = (s.follow p).follow q := List.foldl_append

end Spot

/-- **The digits of the path to column `i` and row `j`**, on the grid with `2 ^ n` of each. -/
def pathTo (o : Orientation) (i j : Nat) : Nat → List Digit
  | 0 => []
  | n + 1 =>
    let d := o.digit ⟨i.testBit n, j.testBit n⟩
    d :: pathTo (o.child d) i j n

@[simp] theorem length_pathTo (o : Orientation) (i j n : Nat) : (pathTo o i j n).length = n := by
  induction n generalizing o with
  | zero => rfl
  | succ n ih => simp [pathTo, ih]

/-- The number whose base 4 digits are those of the path. -/
def pathNumber (path : List Digit) : Nat := path.foldl (fun n d => 4 * n + d.val) 0

end SphereIndex
