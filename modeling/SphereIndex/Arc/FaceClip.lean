import SphereIndex.Arc.Normal

/-!
# Clipping an edge to a face

The part of an edge on one face, whose square may be grown by a padding.  Each end is clipped on
its own, and gets a score; the scores of both ends together tell whether the edge reaches the
square at all.
-/

namespace SphereIndex.Arc

variable {α : Type} [Scalar α]

/-- The normal of the same line for a square scaled to the plain one. -/
def scaledNormal (n : Vec3 α) (scale : α) : Vec3 α := ⟨scale * n.x, scale * n.y, n.z⟩

/-- **Clips the far end B of the edge AB.**  All points are in the frame of the face, and `n` is
the scaled normal.  If B lies well inside it is kept.  Otherwise it is moved to where the line
leaves the square, unless that is before A (score 2) or after B (score 1); then B is kept if it is
on the side of the face at all (else the score is 3). -/
def clipEnd (a b n aTangent bTangent : Vec3 α) (scale : α) : Vec2 α × Nat :=
  let inside : Vec2 α := ⟨b.x / b.z, b.y / b.z⟩
  if 0 < b.z ∧
      Scalar.max (Scalar.abs inside.x) (Scalar.abs inside.y) ≤ safeCoordinate (α := α) then
    (inside, 0)
  else
    let e := Line.exit n
    let exit : Vec2 α := ⟨scale * e.x, scale * e.y⟩
    let p : Vec3 α := ⟨exit.x, exit.y, 1⟩
    -- Beyond B the exit is first on the wrong side of B only, then of both ends, then of A only.
    let score := if (p - a).dot aTangent < 0 then 2 else if (p - b).dot bTangent < 0 then 1 else 0
    if score = 0 then (exit, 0)
    else if b.z ≤ 0 then (exit, 3)
    else (inside, score)

/-- The normal brought to length 1; a tiny one is first enlarged so that its square is not lost. -/
def unitNormal (n : Vec3 α) : Vec3 α :=
  if n.abs.largest < 1 / Scalar.ofNat (twoPow 511) then
    (n.scale (Scalar.ofNat (twoPow 563))).normalize
  else n.normalize

/-- **The ends of the part of the edge AB on a face** grown by `padding`; nothing if the edge does
not reach it. -/
def clipToFace? (f : Face) (padding : α) (a b : Vec3 α) : Option (Vec2 α × Vec2 α) :=
  if Face.ofPoint a = f ∧ Face.ofPoint b = f then some (f.project a, f.project b)
  else
    let n := f.toFrame (a.lineNormal b)
    let a := f.toFrame a
    let b := f.toFrame b
    let scale := 1 + padding
    let m := scaledNormal n scale
    if Line.MeetsSquare m then
      let n := unitNormal n
      let aTangent := n.cross a
      let bTangent := b.cross n
      -- The near end is the far end of the edge BA, whose normal is the opposite one.
      let (p, s) := clipEnd b a (-m) bTangent aTangent scale
      let (q, t) := clipEnd a b m aTangent bTangent scale
      if s + t < 3 then some (p, q) else none
    else none

end SphereIndex.Arc
