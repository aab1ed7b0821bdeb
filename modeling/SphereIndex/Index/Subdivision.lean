import SphereIndex.Index.Content
import SphereIndex.Index.Options
import SphereIndex.Cell.Padded
import SphereIndex.Planar.Segment

/-!
# Subdivision of a face

The cells of one face are found by dividing it: a cell with too many short edges gives its edges to
its four children, each edge to every child whose padded rectangle it meets.  Every other cell with
edges is stored.  Along with an edge goes the bound of the part of it that is left in the cell.
-/

namespace SphereIndex

structure FaceEdge (α : Type) where
  shape : ShapeId
  edge : Nat
  a : Vec2 α
  b : Vec2 α
  /-- The edge is short for cells above this level. -/
  maxLevel : Nat

/-- An edge in a cell, and the bound of its part there. -/
structure CellEdge (α : Type) where
  edge : FaceEdge α
  bound : Rect α

variable {α : Type} [Scalar α]

/-! ## 1. Long and short edges -/

/-- The length of the side of a cell of level 0, averaged over the sphere.  Each level halves
it. -/
def averageSide : α := 1.459213746386106

/-- **The level up to which an edge is short**: the number of times that the side of a face can be
halved before it falls below `ratio` times the length of the edge. -/
def edgeMaxLevel (a b : Vec3 α) (ratio : α) : Nat :=
  let size := (a - b).length * ratio
  if size ≤ 0 then maxLevel
  else min (Scalar.toNat (-Scalar.floor (Scalar.log2 (size / averageSide)))) maxLevel

namespace Subdivision

/-! ## 2. One cell -/

def clipTo (r : Rect α) (edges : List (CellEdge α)) : List (CellEdge α) :=
  edges.filterMap fun e =>
    (Planar.clipBound? e.edge.a e.edge.b r e.bound).map fun bound => ⟨e.edge, bound⟩

/-- The number of edges that are short for cells of a level. -/
def numShort (level : Nat) (edges : List (CellEdge α)) : Nat :=
  edges.countP fun e => level < e.edge.maxLevel

/-- Whether a cell of a level has to be divided. -/
def Divides (limit level : Nat) (edges : List (CellEdge α)) : Prop :=
  level < maxLevel ∧ limit < numShort level edges

instance (limit level : Nat) (edges : List (CellEdge α)) : Decidable (Divides limit level edges) :=
  inferInstanceAs (Decidable (_ ∧ _))

def contentOf (edges : List (CellEdge α)) : Content :=
  .ofEdges (edges.map fun e => (e.edge.shape, e.edge.edge))

/-! ## 3. All cells -/

/-- **The stored cells at or below a cell** that has the given edges. -/
def cellsBelow (limit : Nat) (c : PaddedCell α) (edges : List (CellEdge α)) : List StoredCell :=
  if edges.isEmpty then []
  else if _h : Divides limit c.level edges then
    -- A child clips its edges further from the bounds that the cell was given.
    Quadrant.all.flatMap fun q =>
      let child := c.child q
      cellsBelow limit child (clipTo child.bound edges)
  else [⟨c.id, contentOf edges⟩]
termination_by maxLevel - c.level
decreasing_by
  have := _h.1
  simp only [PaddedCell.level_child]
  omega

def ofFace (o : IndexOptions α) (f : Face) (edges : List (FaceEdge α)) : List StoredCell :=
  cellsBelow o.maxEdgesPerCell (PaddedCell.ofFace f o.cellPadding)
    (edges.map fun e => ⟨e, Rect.ofPair e.a e.b⟩)

end Subdivision

end SphereIndex
