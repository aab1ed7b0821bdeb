import SphereIndex.Cell.Id
import SphereIndex.Index.Search

/-!
# Contents of index cells

What an index stores in a cell: for each shape that reaches the cell, the edges that do.
-/

namespace SphereIndex

/-- The number of a shape in an index, in the order in which shapes were added. -/
abbrev ShapeId := Nat

/-- The number of shapes that have a number of 32 bits, without the largest one. -/
def maxShapes : Nat := 4294967295

/-- The edges of one shape in a cell, in ascending order. -/
structure ClippedShape where
  shape : ShapeId
  edges : List Nat
  deriving DecidableEq, Repr

/-- The clipped shapes in a cell, by ascending shape. -/
structure Content where
  clipped : List ClippedShape
  deriving DecidableEq, Repr

namespace Content

def find? (c : Content) (shape : ShapeId) : Option ClippedShape :=
  let groups := c.clipped.toArray
  groups[partitionPoint groups (·.shape < shape)]?.filter (·.shape == shape)

def edgesOf (c : Content) (shape : ShapeId) : List Nat :=
  ((c.find? shape).map (·.edges)).getD []

def numEdges (c : Content) : Nat := c.clipped.foldl (fun n s => n + s.edges.length) 0

/-- The groups of a list of edges, neighbours with the same shape together. -/
def group : List (ShapeId × Nat) → List ClippedShape
  | [] => []
  | (s, e) :: rest =>
    match group rest with
    | [] => [⟨s, [e]⟩]
    | c :: cs => if c.shape = s then ⟨s, e :: c.edges⟩ :: cs else ⟨s, [e]⟩ :: c :: cs

/-- The edges of a list of groups, in order. -/
def ungroup (cs : List ClippedShape) : List (ShapeId × Nat) :=
  cs.flatMap fun c => c.edges.map fun e => (c.shape, e)

@[simp] theorem ungroup_group (edges : List (ShapeId × Nat)) : ungroup (group edges) = edges := by
  induction edges with
  | nil => rfl
  | cons x rest ih =>
    obtain ⟨s, e⟩ := x
    rw [group]
    cases hg : group rest with
    | nil => simp_all [ungroup]
    | cons c cs =>
      by_cases hs : c.shape = s
      · subst hs
        simp_all [ungroup]
      · simp_all [ungroup]

/-- The content with the given edges, which come by ascending shape and edge. -/
def ofEdges (edges : List (ShapeId × Nat)) : Content := ⟨group edges⟩

end Content

structure StoredCell where
  id : CellId
  content : Content
  deriving DecidableEq, Repr

end SphereIndex
