import SphereIndex.TwoPow

/-!
# Shortest decimals

The decimal with the fewest digits among those that round to a given binary number.  The binary
number is `m * 2 ^ q`; the decimals that round to it form an interval around it.  The multiples of
ten powers are tried from the coarsest power down: on the first power with a multiple in the
interval, only the two multiples next to the number have to be compared.
-/

namespace SphereIndex

structure Decimal where
  digits : Nat
  exponent : Int
  deriving DecidableEq, Repr

namespace Decimal

/-- **The decimals that round to a positive binary number**: from `low` to `high` around `mid`, in
units of `2 ^ unit`, ends included if `closed`. -/
structure Basin where
  low : Nat
  mid : Nat
  high : Nat
  unit : Int
  closed : Bool
  deriving DecidableEq, Repr

namespace Basin

/-- The basin of `m * 2 ^ q`.  The ends are halfway to the neighbours, and ties go to the even
one.  The neighbour below a power of two is only half as far, unless no finer numbers exist. -/
def ofBinary (m : Nat) (q : Int) (closeBelow : Bool) : Basin :=
  ⟨4 * m - (if closeBelow then 1 else 2), 4 * m, 4 * m + 2, q - 2, m % 2 == 0⟩

/-- Whether `d` steps of `ten` lie in the basin, its units counting `unit` each. -/
def Holds (b : Basin) (ten unit d : Nat) : Prop :=
  (b.low * unit < d * ten ∧ d * ten < b.high * unit) ∨
    b.closed ∧ (b.low * unit = d * ten ∨ d * ten = b.high * unit)

instance (b : Basin) (ten unit d : Nat) : Decidable (b.Holds ten unit d) :=
  inferInstanceAs (Decidable (_ ∨ _))

/-- The multiple of `10 ^ k` in the basin that is closest to its middle, the larger of two.  The
power and the unit of the basin are first brought to a common whole scale. -/
def nearest? (b : Basin) (k : Int) : Option Nat :=
  let ten := Nat.pow 10 k.toNat * twoPow (-b.unit).toNat
  let unit := Nat.pow 10 (-k).toNat * twoPow b.unit.toNat
  let below := b.mid * unit / ten
  let above := below + 1
  if b.Holds ten unit below then
    if b.Holds ten unit above ∧ (below + above) * ten ≤ 2 * b.mid * unit then some above
    else some below
  else if b.Holds ten unit above then some above
  else none

/-- The first hit among `n` powers of ten, going down from `10 ^ k`. -/
def search (b : Basin) (k : Int) : Nat → Option Decimal
  | 0 => none
  | n + 1 =>
    match b.nearest? k with
    | some d => some ⟨d, k⟩
    | none => b.search (k - 1) n

end Basin

/-! ## Doubles -/

/-- A sign and what a double is apart from its sign. -/
inductive Magnitude where
  | notANumber
  | infinite
  | zero
  | number (d : Decimal)
  deriving DecidableEq, Repr

/-- The sign of a double, and the shortest decimal for its size. -/
def ofFloat (x : Float) : Bool × Magnitude :=
  let bits := x.toBits.toNat
  let negative : Bool := bits / twoPow 63 == 1
  let exponent : Nat := bits / twoPow 52 % twoPow 11
  let fraction := bits % twoPow 52
  if exponent = twoPow 11 - 1 then
    (negative, if fraction = 0 then .infinite else .notANumber)
  else if exponent = 0 ∧ fraction = 0 then (negative, .zero)
  else
    -- Subnormal numbers have no leading one, and the same spacing as the smallest normal ones.
    let b : Basin :=
      if exponent = 0 then .ofBinary fraction (-1074) false
      else .ofBinary (twoPow 52 + fraction) ((exponent : Int) - 1075)
        (fraction == 0 && exponent != 1)
    -- No double reaches `10 ^ 310`, and the digits of the smallest one end above `10 ^ (-330)`.
    match b.search 310 640 with
    | some d => (negative, .number d)
    | none => (negative, .zero)

/-! ## Writing -/

def digitChars (n : Nat) : List Char := Nat.toDigits 10 n

/-- The decimal without an exponent: zeros are written out on either side of the digits, and a
whole number has no point. -/
def positional (d : Decimal) : List Char :=
  let ds := digitChars d.digits
  if 0 ≤ d.exponent then ds ++ List.replicate d.exponent.toNat '0'
  else
    let places := (-d.exponent).toNat
    let padded := List.replicate (places + 1 - ds.length) '0' ++ ds
    padded.take (padded.length - places) ++ '.' :: padded.drop (padded.length - places)

/-- The decimal with one digit before the point, and an exponent. -/
def scientific (d : Decimal) : List Char :=
  let ds := digitChars d.digits
  let exponent := d.exponent + (ds.length - 1 : Nat)
  let point := if ds.length = 1 then [] else ['.']
  let minus := if exponent < 0 then ['-'] else []
  ds.take 1 ++ point ++ ds.drop 1 ++ 'e' :: minus ++ digitChars exponent.natAbs

/-- The text of a sign and a size, given how a decimal is written. -/
def write (decimal : Decimal → List Char) : Bool × Magnitude → String
  | (_, .notANumber) => "NaN"
  | (negative, size) =>
    let chars := match size with
      | .number d => decimal d
      | .infinite => "inf".toList
      | _ => ['0']
    String.ofList (if negative then '-' :: chars else chars)

/-- The shortest text that reads back as the double, without an exponent. -/
def text (x : Float) : String := write positional (ofFloat x)

/-- The shortest text that reads back as the double, with an exponent. -/
def scientificText (x : Float) : String := write scientific (ofFloat x)

end Decimal

end SphereIndex
