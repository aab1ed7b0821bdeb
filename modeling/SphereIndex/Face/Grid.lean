import SphereIndex.Scalar

/-!
# The grid of a face

A coordinate of a face between -1 and 1 is first mapped to `s` between 0 and 1 by a quadratic
function, which gives cells near the corners about the area of cells in the middle, and then
counted in leaf cells, `2 ^ 30` along each side.
-/

namespace SphereIndex

def maxLevel : Nat := 30

def faceSize : Nat := twoPow maxLevel

def halfSteps : Nat := twoPow (maxLevel + 1)

namespace Grid

variable {α : Type} [Scalar α]

def toFace (s : α) : α :=
  if Scalar.half ≤ s then 1 / 3 * (4 * s * s - 1)
  else 1 / 3 * (1 - 4 * (1 - s) * (1 - s))

def ofFace (u : α) : α :=
  if 0 ≤ u then Scalar.half * Scalar.sqrt (1 + 3 * u)
  else 1 - Scalar.half * Scalar.sqrt (1 - 3 * u)

/-- **The leaf cell of `s`**, which is the nearest one beyond the ends of the face. -/
def leaf (s : α) : Nat :=
  min (Scalar.toNat (Scalar.round (Scalar.ofNat faceSize * s - Scalar.half))) (faceSize - 1)

theorem leaf_lt (s : α) : leaf s < faceSize :=
  Nat.lt_of_le_of_lt (Nat.min_le_right _ _) (by decide)

def leafAt (u : α) : Nat := leaf (ofFace u)

/-- The `s` of the lower side of leaf cell `i`. -/
def side (i : Nat) : α := Scalar.ofNat i / Scalar.ofNat faceSize

/-- The `s` reached after `n` half leaf cells. -/
def halfSide (n : Nat) : α := Scalar.ofNat n / Scalar.ofNat halfSteps

end Grid

end SphereIndex
