import SphereIndex.Cell.Id

/-!
# The curve by tables

Column and row of a leaf cell are turned into its path, and a path into a column and a row, four
digits at a time.  Two tables hold all pieces of four digits of the curve, for each orientation that a
piece can begin with: one is read at the place within the piece, the other at the position on it.
-/

namespace SphereIndex

def Digit.all : List Digit := List.finRange 4

namespace Orientation

def all : List Orientation := [⟨false, false⟩, ⟨true, false⟩, ⟨false, true⟩, ⟨true, true⟩]

def ofNumber (n : Nat) : Orientation := ⟨n % 2 == 1, n / 2 % 2 == 1⟩

end Orientation

/-! ## 1. The tables -/

/-- **The pieces of four digits of the curve.**  The last two bits of an index are the orientation
before the piece, and those of an entry the orientation after it. -/
structure CurveTable where
  /-- The position on the piece, by the place within it. -/
  position : Array Nat
  /-- The place within the piece, by the position on it. -/
  place : Array Nat

namespace CurveTable

def blank : CurveTable := ⟨.replicate 1024 0, .replicate 1024 0⟩

/-- The entries of the piece in orientation `o` that has led to a spot at position `n`. -/
def enter (t : CurveTable) (o : Orientation) (s : Spot) (n : Nat) : CurveTable :=
  let place := 16 * s.i + s.j
  ⟨t.position.set! (4 * place + o.number) (4 * n + s.orientation.number),
    t.place.set! (4 * n + o.number) (4 * place + s.orientation.number)⟩

/-- The entries of all pieces in orientation `o` that go on from a spot with some more digits. -/
def fill (o : Orientation) : Nat → Spot → Nat → CurveTable → CurveTable
  | 0, s, n, t => t.enter o s n
  | more + 1, s, n, t =>
    Digit.all.foldl (fun t d => fill o more (s.down d) (4 * n + d.val) t) t

/-- **The tables with all pieces entered.** -/
def full : CurveTable := Orientation.all.foldl (fun t o => fill o 4 (Spot.start o) 0 t) blank

end CurveTable

namespace CellId

/-! ## 2. From column and row to the path -/

/-- The four bits of a column or row for the piece that `k` pieces come after. -/
def piece (i k : Nat) : Nat := i / twoPow (4 * k) % 16

/-- The word with the last `k` pieces of the path joined to it, given the number of the orientation
before them. -/
def joinPieces (t : CurveTable) (i j : Nat) : Nat → UInt64 → Nat → UInt64
  | 0, word, _ => word
  | k + 1, word, o =>
    let entry := t.position[o + piece i k * 64 + piece j k * 4]!
    joinPieces t i j k (word ||| (UInt64.ofNat (entry / 4) <<< UInt64.ofNat (8 * k))) (entry % 4)

/-- **The leaf cell in a given column and row of a face**, by the tables. -/
def ofLeafByTable (face i j : Nat) : CellId :=
  ⟨joinPieces .full i j 8 (UInt64.ofNat face <<< 60) (face % 2) * 2 + 1⟩

/-! ## 3. From the path to column and row -/

/-- The column, the row and the number of the orientation after the last `k` pieces of the path in a
word, given those before them.  The first of the eight pieces has two digits only. -/
def readPieces (t : CurveTable) (word : UInt64) : Nat → Nat → Nat → Nat → Nat × Nat × Nat
  | 0, i, j, o => (i, j, o)
  | k + 1, i, j, o =>
    let length := if k = 7 then 2 else 4
    let n := (word >>> UInt64.ofNat (8 * k + 1)).toNat % twoPow (2 * length)
    let entry := t.place[o + n * 4]!
    readPieces t word k (i + entry / 64 * twoPow (4 * k)) (j + entry / 4 % 16 * twoPow (4 * k))
      (entry % 4)

/-- **The coordinates of a cell**, by the tables. -/
def coordsByTable (c : CellId) : Coords :=
  let (i, j, n) := readPieces .full c.word 8 0 0 (c.faceNumber % 2)
  let o := Orientation.ofNumber n
  let odd : Bool := c.marker &&& 0x1111111111111110 ≠ 0
  ⟨c.faceNumber, i, j, ⟨o.swapped ^^ odd, o.inverted⟩⟩

end CellId

end SphereIndex
