import SphereIndex.Cell.Bound

/-!
# Padded cells

A cell together with its rectangle, grown by a padding on every side.  The children of a padded
cell are made from its own rectangle and center, without going back to their ids.
-/

namespace SphereIndex

/-- **A cell with its padded rectangle.**  `i` and `j` are the lowest column and row. -/
structure PaddedCell (α : Type) where
  id : CellId
  padding : α
  bound : Rect α
  i : Nat
  j : Nat
  orientation : Orientation
  level : Nat

namespace PaddedCell

variable {α : Type} [Scalar α]

/-! ## 1. From an id -/

/-- The interval around 0 on both axes. -/
def around (x : α) : Rect α := ⟨⟨-x, x⟩, ⟨-x, x⟩⟩

def ofId (id : CellId) (padding : α) : PaddedCell α :=
  if id.IsFace then
    ⟨id, padding, around (1 + padding), 0, 0, Orientation.ofFace id.faceNumber, 0⟩
  else
    let c := id.coords
    ⟨id, padding, (CellId.boundAt id.level c.i c.j).expanded padding,
      CellId.lowest id.level c.i, CellId.lowest id.level c.j, c.orientation, id.level⟩

def ofFace (f : Face) (padding : α) : PaddedCell α := ofId (.ofFace f) padding

/-! ## 2. Center and children -/

def centerAt (level i : Nat) : α := Grid.toFace (Grid.halfSide (2 * i + CellId.sizeAt level))

def center (c : PaddedCell α) : Vec2 α := ⟨centerAt c.level c.i, centerAt c.level c.j⟩

/-- The center where it is not computed on a whole face, on which it is 0. -/
def splitPoint (c : PaddedCell α) : Vec2 α := if c.level = 0 then ⟨0, 0⟩ else c.center

/-- The rectangle where the four padded children overlap. -/
def middle (c : PaddedCell α) : Rect α :=
  if c.level = 0 then around c.padding
  else
    let p := c.center
    ⟨⟨p.x - c.padding, p.x + c.padding⟩, ⟨p.y - c.padding, p.y + c.padding⟩⟩

/-- The end of an interval that the upper or lower half of it does not share. -/
def innerEnd (upper : Bool) : End := if upper then .lo else .hi

/-- **The child in a quadrant.**  Its rectangle has one corner of the cell's own, and the opposite
corner of the middle. -/
def child (c : PaddedCell α) (q : Quadrant) : PaddedCell α :=
  let d := c.orientation.digit q
  let m := c.middle
  let size := CellId.sizeAt (c.level + 1)
  let ei := innerEnd q.i
  let ej := innerEnd q.j
  { id := c.id.child d
    padding := c.padding
    bound := ⟨c.bound.x.set ei (m.x.get ei), c.bound.y.set ej (m.y.get ej)⟩
    i := c.i + q.i.toNat * size
    j := c.j + q.j.toNat * size
    orientation := c.orientation.child d
    level := c.level + 1 }

@[simp] theorem level_child (c : PaddedCell α) (q : Quadrant) : (c.child q).level = c.level + 1 :=
  rfl

/-! ## 3. The smallest cell around a rectangle -/

/-- The first and last leaf cell of the cell along one axis that an interval reaches, given the
lowest column or row of the cell. -/
def leafSpan (level i : Nat) (a : Interval α) : Nat × Nat :=
  (max i (Grid.leafAt a.lo), min (i + CellId.sizeAt level - 1) (Grid.leafAt a.hi))

/-- The level of the smallest cells that hold both leaf cells of a span on either axis: as deep as
the coordinates of the two agree. -/
def commonLevel (u v : Nat × Nat) : Nat :=
  -- The logarithm is the number of bits of the exclusive or.
  maxLevel - (2 * ((u.1 ^^^ u.2) ||| (v.1 ^^^ v.2)) + 1).log2

/-- **The smallest cell below `c` that holds a rectangle**, which meets `c`.  It is `c` itself if
the rectangle reaches the center along some axis. -/
def shrinkToFit (c : PaddedCell α) (r : Rect α) : CellId :=
  let p := c.splitPoint
  -- Across the center no child holds the rectangle.
  if r.x.Contains p.x ∨ r.y.Contains p.y then c.id
  else
    let padded := r.expanded (c.padding + 3 / 2 * Scalar.epsilon)
    let u := leafSpan c.level c.i padded.x
    let v := leafSpan c.level c.j padded.y
    let level := commonLevel u v
    if level ≤ c.level then c.id
    else (CellId.ofLeaf c.id.faceNumber u.1 v.1).parentAt level

end PaddedCell

end SphereIndex
