import SphereIndex.Planar.Rect

/-!
# Segments of the plane

A segment AB is cut by a rectangle without computing the cut points themselves: what is kept is
the bound of the remaining part, and cutting moves the sides of that bound.  Where the segment
crosses a line is left to a function that is a parameter, so that the bounds can be reasoned about
however that crossing is rounded.
-/

namespace SphereIndex

/-- A rule for the value at `x` of the linear function through `(a, a1)` and `(b, b1)`, given as
`rule x a b a1 b1`. -/
abbrev Interpolation (α : Type) := α → α → α → α → α → α

namespace Planar

variable {α : Type} [Scalar α]

/-- **Linear interpolation from the closer end.** -/
def interpolate : Interpolation α := fun x a b a1 b1 =>
  if Scalar.abs (a - x) ≤ Scalar.abs (b - x) then a1 + (b1 - a1) * (x - a) / (b - a)
  else b1 + (a1 - b1) * (x - b) / (a - b)

/-- The end of the bound of AB in v that belongs to the low end in u: the low end if AB rises, the
high end if it falls. -/
def diagonal (a b : Vec2 α) : End :=
  if decide (b.x < a.x) = decide (b.y < a.y) then .lo else .hi

/-! ## 1. Moving one end of a bound -/

/-- The bound with one end moved inwards to `x`, unless the end is further in already; nothing if
`x` lies beyond the other end. -/
def shrinkEnd? (bound : Interval α) (e : End) (x : α) : Option (Interval α) :=
  match e with
  | .lo => if bound.hi < x then none else some (if bound.lo < x then bound.set .lo x else bound)
  | .hi => if x < bound.lo then none else some (if x < bound.hi then bound.set .hi x else bound)

/-- **One side of the clip**: end `e` of `bound` is moved to that of `clip` if it sticks out, and
end `e'` of the bound along the other axis to where the segment crosses there.  Nothing if the
whole bound sticks out. -/
def clipEnd? (crossing : α → α) (e e' : End) (clip bound other : Interval α) :
    Option (Interval α × Interval α) :=
  match e with
  | .lo =>
    if bound.lo < clip.lo then
      if bound.hi < clip.lo then none
      else (shrinkEnd? other e' (crossing clip.lo)).map fun o => (bound.set .lo clip.lo, o)
    else some (bound, other)
  | .hi =>
    if clip.hi < bound.hi then
      if clip.hi < bound.lo then none
      else (shrinkEnd? other e' (crossing clip.hi)).map fun o => (bound.set .hi clip.hi, o)
    else some (bound, other)

/-- Both sides along one axis. -/
def clipAxis? (crossing : α → α) (diag : End) (clip bound other : Interval α) :
    Option (Interval α × Interval α) := do
  let (bound, other) ← clipEnd? crossing .lo diag clip bound other
  clipEnd? crossing .hi diag.other clip bound other

/-! ## 2. Clipping and splitting -/

section cuts
variable (rule : Interpolation α)

/-- **The bound of the part of AB in a rectangle**, given the bound of some part of AB. -/
def clipBoundBy? (a b : Vec2 α) (clip bound : Rect α) : Option (Rect α) := do
  let diag := diagonal a b
  let (x, y) ← clipAxis? (fun u => rule u a.x b.x a.y b.y) diag clip.x bound.x bound.y
  let (y, x) ← clipAxis? (fun v => rule v a.y b.y a.x b.x) diag clip.y y x
  return ⟨x, y⟩

/-- The bounds of the two parts of AB on either side of a line `coordinate = x` of an axis: the
part below and the part above. -/
def splitBy (a b : Vec2 α) (bound : Rect α) (axis : Axis) (x : α) :
    Rect α × Rect α :=
  let across := axis.other
  let y := (bound.along across).clamp
    (rule x (a.along axis) (b.along axis) (a.along across) (b.along across))
  let diag := diagonal a b
  ((bound.set axis .hi x).set across diag.other y, (bound.set axis .lo x).set across diag y)

end cuts

def clipBound? (a b : Vec2 α) (clip bound : Rect α) : Option (Rect α) :=
  clipBoundBy? interpolate a b clip bound

end Planar

end SphereIndex
