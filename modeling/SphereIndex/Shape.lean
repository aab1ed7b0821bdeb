import SphereIndex.Vector

/-!
# Shapes

A shape is a sequence of edges between unit vectors.  Polylines and edge sets are two ways to make
one; both move the points they are given onto the unit sphere and refuse points without direction.
-/

namespace SphereIndex

/-- Why no shape can be made of some points. -/
inductive ShapeError (α : Type) where
  /-- A polyline of fewer than two vertices. -/
  | tooShort
  /-- A vertex that is zero, or not finite. -/
  | noDirection (index : Nat) (point : Vec3 α)

/-- The edge along the great circle between two unit vectors. -/
structure Edge (α : Type) where
  v0 : Vec3 α
  v1 : Vec3 α
  deriving BEq, DecidableEq

structure Shape (α : Type) where
  edges : Array (Edge α)

variable {α : Type} [Scalar α]

def Edge.isDegenerate (e : Edge α) : Bool := e.v0 == e.v1

/-! ## 1. Vertices -/

/-- **The point moved onto the unit sphere**, unless it is there within rounding.  `index` is
reported with a point that has no direction. -/
def unitVertex (p : Vec3 α) (index : Nat) : Except (ShapeError α) (Vec3 α) :=
  if !p.isFinite || p.lengthSquared == 0 then .error (.noDirection index p)
  else if p.isUnit then .ok p
  else .ok p.normalize

/-! ## 2. Polylines -/

/-- A chain of vertices, each joined to the next by an edge. -/
structure Polyline (α : Type) where
  vertices : List (Vec3 α)

namespace Polyline

def ofPoints (points : List (Vec3 α)) : Except (ShapeError α) (Polyline α) :=
  if points.length < 2 then .error .tooShort
  else do
    let vertices ← points.zipIdx.mapM fun (p, i) => unitVertex p i
    return ⟨vertices⟩

def edges {α : Type} (p : Polyline α) : List (Edge α) :=
  (p.vertices.zip p.vertices.tail).map fun (a, b) => ⟨a, b⟩

def toShape {α : Type} (p : Polyline α) : Shape α := ⟨p.edges.toArray⟩

end Polyline

/-! ## 3. Edge sets -/

/-- Edges that have nothing to do with each other. -/
structure EdgeSet (α : Type) where
  edges : Array (Edge α)

namespace EdgeSet

def empty {α : Type} : EdgeSet α := ⟨#[]⟩

/-- The set with one more edge.  Vertices are counted two per edge. -/
def push (s : EdgeSet α) (a b : Vec3 α) : Except (ShapeError α) (EdgeSet α) := do
  let index := 2 * s.edges.size
  let v0 ← unitVertex a index
  let v1 ← unitVertex b (index + 1)
  return ⟨s.edges.push ⟨v0, v1⟩⟩

def ofPairs (pairs : List (Vec3 α × Vec3 α)) : Except (ShapeError α) (EdgeSet α) :=
  pairs.foldlM (fun s (a, b) => s.push a b) empty

def toShape {α : Type} (s : EdgeSet α) : Shape α := ⟨s.edges⟩

end EdgeSet

end SphereIndex
