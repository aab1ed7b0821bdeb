import SphereIndex.Cell.Id

/-!
# Written forms of cell ids

A cell is written as its face, a slash and the digits of its path, as in `2/0313`.  The shorter
token is the word in hexadecimal without the zeros at its end, and `X` for the word 0.
-/

namespace SphereIndex.CellId

def hexDigit (n : Nat) : Char :=
  if n < 10 then Char.ofNat ('0'.toNat + n) else Char.ofNat ('a'.toNat + (n - 10))

def hexDigits (w : Nat) : Nat → List Char
  | 0 => []
  | n + 1 => hexDigits (w / 16) n ++ [hexDigit (w % 16)]

@[simp] theorem length_hexDigits (w n : Nat) : (hexDigits w n).length = n := by
  induction n generalizing w with
  | zero => rfl
  | succ n ih => simp [hexDigits, ih]

def hex (c : CellId) : List Char := hexDigits c.word.toNat 16

/-- **The token**: as many digits as the marker leaves. -/
def tokenChars (c : CellId) : List Char :=
  if c.word = 0 then ['X'] else c.hex.take (16 - c.marker.toNat.log2 / 4)

def token (c : CellId) : String := String.ofList c.tokenChars

def pathChars (c : CellId) : List Char :=
  c.path.map fun d => hexDigit d.val

/-- The face and path of a valid cell, the word of any other. -/
def displayChars (c : CellId) : List Char :=
  if c.IsValid then hexDigit c.faceNumber :: '/' :: c.pathChars
  else "Invalid: ".toList ++ c.hex

def display (c : CellId) : String := String.ofList c.displayChars

/-- The display inside a mark of what it is. -/
def debug (c : CellId) : String := "CellId(" ++ c.display ++ ")"

end SphereIndex.CellId
