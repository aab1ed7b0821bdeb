import SphereIndex.Cell.Curve
import SphereIndex.Face.Projection
import SphereIndex.Face.Grid

/-!
# Cell ids

A cell id is a 64-bit word: three bits for the face, two for each digit of the path to the cell,
and then a one that marks the end of the path; the rest is zero.  The ids of all cells below a
cell then lie in one range around its own.  Every word is admitted here, valid or not, and the
arithmetic is that of words.
-/

namespace SphereIndex

/-- A 64-bit word read as the id of a cell. -/
structure CellId where
  word : UInt64
  deriving DecidableEq, Repr

namespace CellId

instance : LT CellId := ⟨fun a b => a.word < b.word⟩
instance : LE CellId := ⟨fun a b => a.word ≤ b.word⟩
instance (a b : CellId) : Decidable (a < b) := inferInstanceAs (Decidable (a.word < b.word))
instance (a b : CellId) : Decidable (a ≤ b) := inferInstanceAs (Decidable (a.word ≤ b.word))

/-! ## 1. The fields of the word -/

def none : CellId := ⟨0⟩

def sentinel : CellId := ⟨0xffffffffffffffff⟩

instance : Inhabited CellId := ⟨none⟩

/-- The face bits of the word, up to 7. -/
def faceNumber (c : CellId) : Nat := (c.word >>> 61).toNat

def face? (c : CellId) : Option Face := Face.numbered? c.faceNumber

/-- The word without its face bits. -/
def position (c : CellId) : UInt64 := c.word &&& 0x1fffffffffffffff

/-- The lowest one of the word, which marks the end of the path. -/
def marker (c : CellId) : UInt64 := c.word &&& (0 - c.word)

def markerAt (level : Nat) : UInt64 := 1 <<< UInt64.ofNat (2 * (maxLevel - level))

/-- The length of the path. -/
def level (c : CellId) : Nat := maxLevel - c.marker.toNat.log2 / 2

/-- Whether there is such a face, and the marker stands at the end of a digit. -/
def IsValid (c : CellId) : Prop := c.faceNumber < 6 ∧ c.marker &&& 0x1555555555555555 ≠ 0

instance (c : CellId) : Decidable c.IsValid := inferInstanceAs (Decidable (_ ∧ _))

def IsFace (c : CellId) : Prop := c.word &&& (markerAt 0 - 1) = 0

instance (c : CellId) : Decidable c.IsFace := inferInstanceAs (Decidable (_ = _))

def IsLeaf (c : CellId) : Prop := c.word &&& 1 ≠ 0

instance (c : CellId) : Decidable c.IsLeaf := inferInstanceAs (Decidable (_ ≠ _))

/-- The two bits of the word for the digit at depth `n`, counted from 1. -/
def digit (c : CellId) (n : Nat) : Digit :=
  ⟨(c.word >>> UInt64.ofNat (2 * maxLevel + 1 - 2 * n)).toNat % 4, Nat.mod_lt _ (by decide)⟩

def digits (c : CellId) (n : Nat) : List Digit := (List.range n).map fun k => c.digit (k + 1)

def path (c : CellId) : List Digit := c.digits c.level

/-! ## 2. Ranges -/

/-- The id of the first leaf cell below the cell. -/
def rangeMin (c : CellId) : CellId := ⟨c.word - (c.marker - 1)⟩

/-- The id of the last leaf cell below the cell. -/
def rangeMax (c : CellId) : CellId := ⟨c.word + (c.marker - 1)⟩

/-- Whether `b` is `a` or a cell below it. -/
def Contains (a b : CellId) : Prop := a.rangeMin ≤ b ∧ b ≤ a.rangeMax

instance (a b : CellId) : Decidable (a.Contains b) := inferInstanceAs (Decidable (_ ∧ _))

/-- Whether some leaf cell lies below both. -/
def Meets (a b : CellId) : Prop := b.rangeMin ≤ a.rangeMax ∧ a.rangeMin ≤ b.rangeMax

instance (a b : CellId) : Decidable (a.Meets b) := inferInstanceAs (Decidable (_ ∧ _))

/-! ## 3. Moving in the hierarchy -/

def ofFace (f : Face) : CellId := ⟨(UInt64.ofNat f.number <<< 61) + markerAt 0⟩

def child (c : CellId) (d : Digit) : CellId :=
  let step := c.marker >>> 2
  ⟨c.word - 3 * step + 2 * UInt64.ofNat d.val * step⟩

def childBegin (c : CellId) : CellId := ⟨c.word - c.marker + (c.marker >>> 2)⟩

def ofPath (f : Face) (path : List Digit) : CellId := path.foldl child (ofFace f)

/-- The word cut off at a given marker. -/
def cutAt (c : CellId) (marker : UInt64) : CellId := ⟨(c.word &&& (0 - marker)) ||| marker⟩

def parent (c : CellId) : CellId := c.cutAt (c.marker <<< 2)

/-- The cell of a given level, not below the cell's own, that contains it. -/
def parentAt (c : CellId) (level : Nat) : CellId := c.cutAt (markerAt level)

/-- The next cell of the same level on the curve, on the next face after the last of a face. -/
def next (c : CellId) : CellId := ⟨c.word + (c.marker <<< 1)⟩

/-! ## 4. Columns and rows -/

def sizeAt (level : Nat) : Nat := twoPow (maxLevel - level)

/-- **The leaf cell in a given column and row of a face.** -/
def ofLeaf (face i j : Nat) : CellId :=
  -- The path is two digits longer than needed.  On coordinates below `2 ^ 30` the two are zero and
  -- leave the orientation as it was; what larger ones put there is joined to the face bits.
  let path := pathNumber (pathTo (Orientation.ofFace face) i j 32)
  ⟨((UInt64.ofNat face <<< 60) ||| UInt64.ofNat path) * 2 + 1⟩

/-- The column and row of a leaf cell below the cell, and the orientation inside the cell. -/
structure Coords where
  face : Nat
  i : Nat
  j : Nat
  orientation : Orientation
  deriving DecidableEq, Repr

/-- **The coordinates of a cell.**  All 30 digits of the word are followed, also those below the
cell. -/
def coords (c : CellId) : Coords :=
  let s := (Spot.start (Orientation.ofFace c.faceNumber)).follow (c.digits maxLevel)
  -- Below the cell the digits are a two for the marker and then zeros, each of which swaps the axes
  -- once more.  The number of zeros is odd if the marker stands at one of these bits.
  let odd : Bool := c.marker &&& 0x1111111111111110 ≠ 0
  ⟨c.faceNumber, s.i, s.j, ⟨s.orientation.swapped ^^ odd, s.orientation.inverted⟩⟩

/-- The lowest column or row of a cell, given that of a leaf cell in it. -/
def lowest (level i : Nat) : Nat := i / sizeAt level * sizeAt level

/-- **The leaf cell that the direction of a point meets.** -/
def ofPoint {α : Type} [Scalar α] (p : Vec3 α) : CellId :=
  let f := Face.ofPoint p
  let q := f.project p
  ofLeaf f.number (Grid.leafAt q.x) (Grid.leafAt q.y)

end CellId

end SphereIndex
