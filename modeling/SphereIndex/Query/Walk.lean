import SphereIndex.Cell.Padded
import SphereIndex.Index.Cursor
import SphereIndex.Planar.Segment

/-!
# Walking a segment through the cells

The stored cells on a segment are found by descending from a root: at each cell above stored ones
the segment is split at the center, and the walk goes on in the quadrants that its parts lie in.
Along with a cell goes the bound of the part of the segment in it.
-/

namespace SphereIndex.Walk

variable {α : Type} [Scalar α] (rule : Interpolation α)

/-! ## 1. One cell -/

/-- The quadrants in one half along u that a part of AB lies in, and the bounds of the parts
there, given the bound of the part in that half. -/
def column (a b : Vec2 α) (v : α) (i : Bool) (bound : Rect α) : List (Quadrant × Rect α) :=
  if bound.y.hi < v then [(⟨i, false⟩, bound)]
  else if v ≤ bound.y.lo then [(⟨i, true⟩, bound)]
  else
    let (lower, upper) := Planar.splitBy rule a b bound .v v
    [(⟨i, false⟩, lower), (⟨i, true⟩, upper)]

/-- **The quadrants of a cell that a part of AB lies in**, and the bounds of the parts there, given
the center of the cell and the bound of the part in it.  A straight segment meets at most three of
the four. -/
def quadrants (a b center : Vec2 α) (bound : Rect α) : List (Quadrant × Rect α) :=
  if bound.x.hi < center.x then column rule a b center.y false bound
  else if center.x ≤ bound.x.lo then column rule a b center.y true bound
  else
    let (left, right) := Planar.splitBy rule a b bound .u center.x
    -- The split along u moves the bounds in v too, but only within the bound that is compared here.
    if bound.y.hi < center.y then [(⟨false, false⟩, left), (⟨true, false⟩, right)]
    else if center.y ≤ bound.y.lo then [(⟨false, true⟩, left), (⟨true, true⟩, right)]
    else column rule a b center.y false left ++ column rule a b center.y true right

/-! ## 2. All cells -/

/-- What a walk has at hand: the cursor, and the cells found so far. -/
structure Search where
  cursor : Cursor
  found : List StoredCell

/-- **The walk**: it moves the cursor to each cell that it comes to, looks only where the cursor
stands, and adds what it finds to the list. -/
def search (a b : Vec2 α) (c : PaddedCell α) (bound : Rect α) (s : Search) : Search :=
  let s := { s with cursor := s.cursor.seek c.id.rangeMin }
  -- The first stored cell not before `c`: beyond it, `c` itself, or below it.
  match s.cursor.current? with
  | none => s
  | some x =>
    if c.id.rangeMax < x.id then s
    else if x.id = c.id then { s with found := s.found ++ [x] }
    else if _h : c.level < maxLevel then
      (quadrants rule a b c.center bound).foldl (fun s (q, r) => search a b (c.child q) r s) s
    else s
termination_by maxLevel - c.level
decreasing_by
  simp only [PaddedCell.level_child]
  omega

end SphereIndex.Walk
