import SphereIndex.Arc.FaceSegments
import SphereIndex.Index.Basic
import SphereIndex.Query.EdgeMap
import SphereIndex.Query.Walk

/-!
# Edge queries

A query finds the indexed edges that may cross a given edge AB: those listed in the stored cells
that AB passes through.  On each face that AB crosses, the smallest cell around its segment there
is looked up, and if stored cells lie below it the segment is walked through them.
-/

namespace SphereIndex

/-- A shape with at most this many edges is not looked up: all its edges are candidates. -/
structure QueryOptions where
  maxBruteForceEdges : Nat
  deriving DecidableEq, Repr

def QueryOptions.default : QueryOptions := ⟨27⟩

/-- What a query found, and whether that is anything. -/
structure Outcome (β : Type) where
  any : Bool
  result : β
  deriving DecidableEq, Repr

def Outcome.ofList {β : Type} (xs : List β) : Outcome (List β) := ⟨!xs.isEmpty, xs⟩

/-- **A query on an index.**  It keeps the position where it looked last, and the cells it found
there. -/
structure EdgeQuery (α : Type) where
  index : ShapeIndex α
  options : QueryOptions
  pos : Nat
  found : List StoredCell

namespace EdgeQuery

variable {α : Type} [Scalar α]

def ofIndex (x : ShapeIndex α) (o : QueryOptions) : EdgeQuery α := ⟨x, o, 0, []⟩

def cursor (q : EdgeQuery α) : Cursor := ⟨q.index.cells, q.pos⟩

/-! ## 1. Cells -/

/-- A list without its members, to be filled again. -/
def cleared {β : Type} (_ : List β) : List β := []

/-- The cell at which the search for a segment starts. -/
def rootOf (segment : FaceSegment α) : CellId :=
  -- The stored cells have a padding already, so the search goes without one.
  (PaddedCell.ofFace segment.face (0 : α)).shrinkToFit (Rect.ofPair segment.a segment.b)

/-- **The search for the stored cells on a segment**, which goes on with the cursor where the last
one left it. -/
def searchSegment (s : Walk.Search) (segment : FaceSegment α) : Walk.Search :=
  let root := rootOf segment
  match s.cursor.locate root with
  | (.indexed, c) => ⟨c, s.found ++ c.current?.toList⟩
  | (.subdivided, c) =>
    Walk.search Planar.interpolate segment.a segment.b (PaddedCell.ofId root 0)
      (Rect.ofPair segment.a segment.b) ⟨c, s.found⟩
  | (.disjoint, c) => ⟨c, s.found⟩

/-- A search of the query that has found nothing yet. -/
def begin (q : EdgeQuery α) : Walk.Search := ⟨q.cursor, cleared q.found⟩

/-- The query after a search. -/
def after (q : EdgeQuery α) (s : Walk.Search) : EdgeQuery α :=
  { q with pos := s.cursor.pos, found := s.found }

/-- **The search for the stored cells on the edge AB**: the number of its face segments, and the
query with the cells on them.  If AB is never followed to its end, the search does not end
either. -/
def discover? (q : EdgeQuery α) (a b : Vec3 α) : Option (Nat × EdgeQuery α) :=
  (Arc.faceSegments? a b).map fun segments =>
    (segments.length, q.after (segments.foldl searchSegment q.begin))

/-- **The stored cells on the edge AB**, a cell once for each face segment that reaches it. -/
def cells? (q : EdgeQuery α) (a b : Vec3 α) : Option (List StoredCell × EdgeQuery α) :=
  (q.discover? a b).map fun (_, q) => (q.found, q)

/-- **The stored cells at or below a root cell on the edge AB**, in a list that is passed in. -/
def fillCellsInRoot (q : EdgeQuery α) (a b : Vec3 α) (root : PaddedCell α)
    (list : List StoredCell) : Outcome (List StoredCell) × EdgeQuery α :=
  let s :=
    match root.id.face?.bind fun f => Arc.clipToFace? f 0 a b with
    | none => q.begin
    | some (p, p') =>
      let bound := Rect.ofPair p p'
      if root.bound.Meets bound then Walk.search Planar.interpolate p p' root bound q.begin
      else q.begin
  (.ofList (cleared list ++ s.found), q.after s)

/-! ## 2. Edges

Like the search, these calls return if AB is followed to its end; without a search they always do. -/

/-- Whether an edge may have been listed more than once, or out of order.  The list of a single cell
is ascending already. -/
def needsMerge (q : EdgeQuery α) (segments : Nat) : Bool := 1 < q.found.length || 1 < segments

/-- **The edges of a shape that may cross AB**, in ascending order, in a list that is passed in.  A
shape of few edges gives them all, and an unknown shape none. -/
def candidates? (q : EdgeQuery α) (a b : Vec3 α) (shape : ShapeId) (edges : List Nat) :
    Option (Outcome (List Nat) × EdgeQuery α) :=
  let edges := cleared edges
  match q.index.shape? shape with
  | none => some (⟨false, edges⟩, q)
  | some s =>
    if s.edges.size ≤ q.options.maxBruteForceEdges then
      some (.ofList (edges ++ List.range s.edges.size), q)
    else
      (q.discover? a b).map fun (segments, q) =>
        let edges := edges ++ q.found.flatMap fun c => c.content.edgesOf shape
        (.ofList (if q.needsMerge segments then ascending edges else edges), q)

/-- The map with the edges that some cells list. -/
def listed (map : EdgeMap) (cells : List StoredCell) : EdgeMap :=
  (cells.flatMap (·.content.clipped)).foldl .append map

/-- **The edges of all shapes that may cross AB**, by shape, in a map that is passed in.  On an index
of one shape the entry of that shape is used again, and remains even if it is empty; otherwise the
map is made anew, and shapes of few edges have no exception. -/
def candidatesByShape? (q : EdgeQuery α) (a b : Vec3 α) (map : EdgeMap) :
    Option (Outcome EdgeMap × EdgeQuery α) :=
  if q.index.numShapes = 1 then
    -- A map of other shapes is not used again.
    let map := if map.length = 1 ∧ (map.find? 0).isSome then map else cleared map
    (q.candidates? a b 0 (map.edgesOf 0)).map fun (edges, q) =>
      (⟨edges.any, map.insert 0 edges.result⟩, q)
  else
    (q.discover? a b).map fun (segments, q) =>
      let map := listed (cleared map) q.found
      (.ofList (if q.needsMerge segments then map.sorted else map), q)

end EdgeQuery

/-! ## 3. Giving up

A program that has to print something cannot wait for a walk that goes round for ever.  It gives the
call up and prints that nothing was found, which is not an answer of the query; a call that returns is
printed as it is.  All that is proved is proved of the calls above. -/

def Arc.faceSegments {α : Type} [Scalar α] (a b : Vec3 α) : List (FaceSegment α) :=
  (faceSegments? a b).getD []

namespace EdgeQuery

variable {α : Type} [Scalar α]

def cells (q : EdgeQuery α) (a b : Vec3 α) : List StoredCell × EdgeQuery α :=
  (q.cells? a b).getD ([], q)

def cellsInRoot (q : EdgeQuery α) (a b : Vec3 α) (root : PaddedCell α) :
    Outcome (List StoredCell) × EdgeQuery α :=
  q.fillCellsInRoot a b root []

def candidates (q : EdgeQuery α) (a b : Vec3 α) (shape : ShapeId) :
    Outcome (List Nat) × EdgeQuery α :=
  (q.candidates? a b shape []).getD (⟨false, []⟩, q)

def candidatesByShape (q : EdgeQuery α) (a b : Vec3 α) (map : EdgeMap) :
    Outcome EdgeMap × EdgeQuery α :=
  (q.candidatesByShape? a b map).getD (⟨false, []⟩, q)

end EdgeQuery

end SphereIndex
