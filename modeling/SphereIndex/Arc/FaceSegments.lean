import SphereIndex.Arc.Normal

/-!
# The pieces of an edge on the faces

An edge is followed from face to face: on each face it crosses it gives a segment from where it
enters to where it leaves.  The next face depends only on the face that is left, the line and the
face of the far end, so a walk that needs more than five steps to arrive would go round forever.
-/

namespace SphereIndex

structure FaceSegment (α : Type) where
  face : Face
  a : Vec2 α
  b : Vec2 α

namespace Arc

variable {α : Type} [Scalar α]

/-! ## 1. The faces of the ends -/

/-- **The face from which to follow the line with normal `n`** that starts at `a`, and the
coordinates of `a` there.  It is the face of `a`, unless `a` lies next to a side and the line
misses that face, or leaves it before `a`; then it is the face beyond that side. -/
def startFace (f : Face) (a n : Vec3 α) (p : Vec2 α) : Face × Vec2 α :=
  if Scalar.max (Scalar.abs p.x) (Scalar.abs p.y) ≤ safeCoordinate (α := α) then (f, p)
  else
    let m := f.toFrame n
    -- Well behind `a` the exit would mean that the line has left the face already.
    if Line.MeetsSquare m ∧
        -faceClipRadians ≤ (f.lift (Line.exit m) - a).dot (n.normalize.cross a) then (f, p)
    else
      -- A line that misses this face passes through its neighbours.
      let g :=
        if Scalar.abs p.y ≤ Scalar.abs p.x then f.neighbour .u (0 < p.x)
        else f.neighbour .v (0 < p.y)
      let q := g.project a
      (g, ⟨Scalar.clamp q.x (-1) 1, Scalar.clamp q.y (-1) 1⟩)

/-! ## 2. One face further -/

/-- The face after the exit of a line through the side across `axis`.  Exactly through a corner
next to the face of the far end, it is that face. -/
def nextFace (f : Face) (exit : Vec2 α) (axis : Axis) (n : Vec3 α) (last : Face) : Face :=
  let side := exit.along axis.other
  if Scalar.abs side == 1 ∧ f.neighbour axis.other (0 < side) = last ∧
      Line.SumEquals (exit.x * n.x) (exit.y * n.y) (-n.z) then last
  else f.neighbour axis (0 < exit.along axis)

/-- The segment on a face entered at `a`, and the next face with the entry there. -/
def step (n : Vec3 α) (last : Face) (f : Face) (a : Vec2 α) : FaceSegment α × Face × Vec2 α :=
  let m := f.toFrame n
  let axis := Line.exitAxis m
  let b := Line.exitPoint m axis
  let g := nextFace f b axis m last
  let q := g.toFrame (f.lift b)
  (⟨f, a, b⟩, g, ⟨q.x, q.y⟩)

/-! ## 3. All faces -/

/-- The segments from face `f`, entered at `a`, to the point `b` of face `last`, if that is
reached within `n` steps. -/
def follow? (normal : Vec3 α) (last : Face) (b : Vec2 α) :
    Nat → Face → Vec2 α → Option (List (FaceSegment α))
  | n, f, a =>
    if f = last then some [⟨f, a, b⟩]
    else match n with
      | 0 => none
      | n + 1 =>
        let (segment, g, a) := step normal last f a
        (follow? normal last b n g a).map (segment :: ·)

/-- **The pieces of the edge AB on the faces it crosses**, in order from A to B, if following its line
arrives at B. -/
def faceSegments? (a b : Vec3 α) : Option (List (FaceSegment α)) :=
  let f := Face.ofPoint a
  let g := Face.ofPoint b
  let p := f.project a
  let q := g.project b
  if f = g then some [⟨f, p, q⟩]
  else
    let n := a.lineNormal b
    let (f, p) := startFace f a n p
    let (g, q) := startFace g b (-n) q
    follow? n g q 5 f p

end Arc

end SphereIndex
