/-
# CommandShell.Decimal.Layout -- how a number is written

The shortest digits of a number are laid out either positionally, always with a fraction, or with
a power of ten. A `Layout` names the decisions: which leading powers are positional and how the
special numbers are spelled.
-/
import CommandShell.Decimal.Shortest

namespace CommandShell

/-- The decisions of a number format. -/
structure Layout where
  /-- Least power of the leading digit that is written positionally. -/
  least : Int
  /-- Greatest power of the leading digit that is written positionally. -/
  greatest : Int
  nan : String
  infinite : String

namespace Layout

/-- Numbers are positional from `0.0001` up to, but not including, `1e16`. -/
def standard : Layout := ⟨-4, 15, "NaN", "inf"⟩

/-- Drops the zeros at the end of a run of digits. -/
def dropTrailingZeros (digits : List Char) : List Char :=
  (digits.reverse.dropWhile (· == '0')).reverse

/-- Writes digits whose first has the given power of ten, with a point and no power. -/
def positional (digits : List Char) (power : Int) : List Char :=
  if power < 0 then '0' :: '.' :: List.replicate (-power - 1).toNat '0' ++ digits
  else
    let count := power.toNat + 1
    let padded := digits ++ List.replicate (count - digits.length) '0'
    let fraction := padded.drop count
    padded.take count ++ '.' :: (if fraction.isEmpty then ['0'] else fraction)

/-- Writes digits whose first has the given power of ten, as one digit, the rest and the power. -/
def scientific (digits : List Char) (power : Int) : List Char :=
  let mantissa := match digits with
    | first :: second :: rest => first :: '.' :: second :: rest
    | short => short
  mantissa ++ 'e' :: (toString power).toList

/-- Writes a positive finite number. -/
def magnitude (layout : Layout) (m : Nat) (q : Int) : List Char :=
  let (c, p) := Shortest.ofBinary m q
  let written := Nat.toDigits 10 c
  let power := p + (written.length - 1 : Nat)
  let digits := dropTrailingZeros written
  if layout.least ≤ power && power ≤ layout.greatest then positional digits power
  else scientific digits power

/-- Writes a number. -/
def write (layout : Layout) (x : Binary64) : String :=
  match x.shape with
  | .nan => layout.nan
  | .infinite negative => if negative then "-" ++ layout.infinite else layout.infinite
  | .finite negative m q =>
    let digits := if m == 0 then ['0', '.', '0'] else layout.magnitude m q
    String.ofList (if negative then '-' :: digits else digits)

end Layout

/-- The text of a number. -/
def Binary64.text (x : Binary64) : String := Layout.standard.write x

end CommandShell
