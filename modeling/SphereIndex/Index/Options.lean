import SphereIndex.Arc.Normal

/-!
# Options of an index
-/

namespace SphereIndex

/-- A padding of cells that absorbs the errors of clipping an edge to a face and then to a cell, on
both sides of a border between cells. -/
def defaultCellPadding {α : Type} [Scalar α] : α := 2 * (faceClipError + boundClipError)

/-- **How to build an index.** -/
structure IndexOptions (α : Type) where
  /-- A cell with more short edges than this is divided. -/
  maxEdgesPerCell : Nat
  /-- The margin around every cell when edges are assigned to it. -/
  cellPadding : α
  /-- An edge that is longer than this multiple of the size of a cell is long for the cell. -/
  longEdgeRatio : α
  deriving BEq, DecidableEq

inductive OptionsError (α : Type) where
  | noEdgesPerCell
  | smallPadding (padding : α)
  | badRatio (ratio : α)

namespace IndexOptions

variable {α : Type} [Scalar α]

/-- At most ten short edges per cell, the smallest padding, and edges up to the size of a cell
counting as short. -/
def default : IndexOptions α := ⟨10, defaultCellPadding, 1⟩

/-- **The options themselves if they make sense.** -/
def validate (o : IndexOptions α) : Except (OptionsError α) (IndexOptions α) :=
  if o.maxEdgesPerCell = 0 then .error .noEdgesPerCell
  else if !Scalar.isFinite o.cellPadding || o.cellPadding < defaultCellPadding then
    .error (.smallPadding o.cellPadding)
  else if !Scalar.isFinite o.longEdgeRatio || o.longEdgeRatio ≤ 0 then
    .error (.badRatio o.longEdgeRatio)
  else .ok o

end IndexOptions

end SphereIndex
