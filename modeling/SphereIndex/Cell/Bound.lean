import SphereIndex.Cell.Id
import SphereIndex.Planar.Rect

/-!
# The square of a cell

The rectangle that a cell covers in the coordinates of its face.
-/

namespace SphereIndex.CellId

variable {α : Type} [Scalar α]

/-- The interval of a cell along one axis, given a column or row of it. -/
def intervalAt (level i : Nat) : Interval α :=
  let lo := lowest level i
  ⟨Grid.toFace (Grid.side lo), Grid.toFace (Grid.side (lo + sizeAt level))⟩

/-- The rectangle of the cell of a level with leaf cell (i, j) in it. -/
def boundAt (level i j : Nat) : Rect α := ⟨intervalAt level i, intervalAt level j⟩

def bound (c : CellId) : Rect α := boundAt c.level c.coords.i c.coords.j

end SphereIndex.CellId
