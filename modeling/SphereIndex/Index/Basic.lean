import SphereIndex.Arc.FaceClip
import SphereIndex.Index.Cursor
import SphereIndex.Index.Subdivision
import SphereIndex.Shape

/-!
# Indexes of shapes

An index holds shapes and the cells that were found when it was last rebuilt.  A shape added since
then is pending: it has its number, but no cell knows of it.
-/

namespace SphereIndex

structure IndexInfo where
  shapeCount : Nat
  edgeCount : Nat
  cellCount : Nat
  maxLevel : Nat
  deriving DecidableEq, Repr

/-- **Shapes and the cells that their edges reach.** -/
structure ShapeIndex (α : Type) where
  options : IndexOptions α
  shapes : Array (Shape α)
  /-- By ascending id. -/
  cells : Array StoredCell
  /-- The number of shapes added since the last rebuild. -/
  pending : Nat
  info : IndexInfo

namespace ShapeIndex

variable {α : Type}

def numShapes (x : ShapeIndex α) : Nat := x.shapes.size

def shape? (x : ShapeIndex α) (id : ShapeId) : Option (Shape α) := x.shapes[id]?

def isFresh (x : ShapeIndex α) : Bool := x.pending == 0

def cursor (x : ShapeIndex α) : Cursor := .start x.cells

/-- The index with one more shape, which gets the next number. -/
def add (x : ShapeIndex α) (s : Shape α) : ShapeIndex α :=
  { x with shapes := x.shapes.push s, pending := x.pending + 1 }

@[simp] theorem numShapes_add (x : ShapeIndex α) (s : Shape α) :
    (x.add s).numShapes = x.numShapes + 1 := Array.size_push s

@[simp] theorem isFresh_add (x : ShapeIndex α) (s : Shape α) : (x.add s).isFresh = false := rfl

@[simp] theorem shape?_add_self (x : ShapeIndex α) (s : Shape α) :
    (x.add s).shape? x.numShapes = some s := Array.getElem?_push_size

variable [Scalar α]

/-- The index without shapes, if the options make sense. -/
def empty (o : IndexOptions α) : Except (OptionsError α) (ShapeIndex α) :=
  o.validate.map fun o => ⟨o, #[], #[], 0, ⟨0, 0, 0, 0⟩⟩

/-! ## Rebuilding -/

def clipShape (o : IndexOptions α) (f : Face) (id : ShapeId) (s : Shape α) : List (FaceEdge α) :=
  s.edges.toList.zipIdx.filterMap fun (e, i) =>
    (Arc.clipToFace? f o.cellPadding e.v0 e.v1).map fun (a, b) =>
      ⟨id, i, a, b, edgeMaxLevel e.v0 e.v1 o.longEdgeRatio⟩

/-- The edges of all shapes that reach a padded face, by ascending shape and edge. -/
def faceEdges (o : IndexOptions α) (shapes : Array (Shape α)) (f : Face) : List (FaceEdge α) :=
  shapes.toList.zipIdx.flatMap fun (s, id) => clipShape o f id s

/-- The cells of all faces in the order in which they are found. -/
def foundCells (o : IndexOptions α) (shapes : Array (Shape α)) : List StoredCell :=
  Face.all.flatMap fun f => Subdivision.ofFace o f (faceEdges o shapes f)

/-- **The cells that an index of the given shapes stores.** -/
def cellsOf (o : IndexOptions α) (shapes : Array (Shape α)) : List StoredCell :=
  (foundCells o shapes).mergeSort fun a b => a.id ≤ b.id

/-- The summary of shapes and the cells found for them. -/
def infoOf (shapes : Array (Shape α)) (cells : List StoredCell) : IndexInfo :=
  ⟨shapes.size, shapes.foldl (fun n s => n + s.edges.size) 0, cells.length,
    cells.foldl (fun n c => max n c.id.level) 0⟩

def rebuild (x : ShapeIndex α) : ShapeIndex α :=
  let cells := cellsOf x.options x.shapes
  { x with cells := cells.toArray, pending := 0, info := infoOf x.shapes cells }

@[simp] theorem isFresh_rebuild (x : ShapeIndex α) : x.rebuild.isFresh = true := rfl

def build (shapes : List (Shape α)) (o : IndexOptions α) :
    Except (OptionsError α) (ShapeIndex α) :=
  (empty o).map fun x => (shapes.foldl add x).rebuild

end ShapeIndex

end SphereIndex
