import SphereIndex.Decimal.Shortest
import SphereIndex.Index.Options
import SphereIndex.Planar.Interval
import SphereIndex.Shape

/-!
# Messages

The wording of every error.  Numbers are written in full, without an exponent.
-/

namespace SphereIndex

def ShapeError.message : ShapeError Float → String
  | .tooShort => "Shape needs at least two vertices"
  | .noDirection index p =>
    let x := Decimal.text p.x
    let y := Decimal.text p.y
    let z := Decimal.text p.z
    s!"Invalid point at vertex {index}: cannot project ({x}, {y}, {z}) onto the sphere"

def OptionsError.reason : OptionsError Float → String
  | .noEdgesPerCell => "max_edges_per_cell must be at least 1"
  | .smallPadding padding =>
    let least := Decimal.scientificText defaultCellPadding
    let got := Decimal.text padding
    s!"cell_padding must be finite and at least {least}, got {got}"
  | .badRatio ratio =>
    let got := Decimal.text ratio
    s!"cell_size_to_long_edge_ratio must be positive, got {got}"

def OptionsError.message (e : OptionsError Float) : String := "Invalid options: " ++ e.reason

def PartError.message : PartError → String
  | .intervalEnd n => s!"interval endpoint out of range: {n}"
  | .rectAxis n => s!"rect axis out of range: {n}"

def ShapeId.display (id : Nat) : String := s!"shape#{id}"

end SphereIndex
