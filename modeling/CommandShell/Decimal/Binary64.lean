/-
# CommandShell.Decimal.Binary64 -- floating-point numbers as 64-bit words

The language reads floating-point literals and writes them back; it never computes with them. So
a number is kept as its word in the binary interchange format, two numbers are equal when their
words are, and `shape` says which real number a word stands for.
-/

namespace CommandShell

/-- The powers of two. -/
def twoTo (n : Nat) : Nat := Nat.pow 2 n

/-- The powers of ten. -/
def tenTo (n : Nat) : Nat := Nat.pow 10 n

/-- A floating-point number in the 64-bit binary interchange format. -/
structure Binary64 where
  bits : UInt64
  deriving DecidableEq, Repr

namespace Binary64

/-- What a word stands for. A finite number is `mantissa * 2 ^ exponent` with its sign. -/
inductive Shape where
  | nan
  | infinite (negative : Bool)
  | finite (negative : Bool) (mantissa : Nat) (exponent : Int)
  deriving DecidableEq, Repr

/-- Number of explicit mantissa bits. -/
def fractionBits : Nat := 52

/-- The exponent of the smallest positive number. -/
def leastExponent : Int := -1074

/-- Reads the fields of a word. -/
def shape (x : Binary64) : Shape :=
  let word := x.bits.toNat
  let negative := word / twoTo 63 == 1
  let field := word / twoTo fractionBits % 2048
  let fraction := word % twoTo fractionBits
  if field == 2047 then
    if fraction == 0 then .infinite negative else .nan
  else if field == 0 then .finite negative fraction leastExponent
  else .finite negative (fraction + twoTo fractionBits) (leastExponent + field - 1)

/-- The word with the given sign and magnitude bits. -/
def ofFields (negative : Bool) (magnitude : Nat) : Binary64 :=
  ⟨((if negative then twoTo 63 else 0) + magnitude).toUInt64⟩

/-- Zero with the given sign. -/
def zero (negative : Bool) : Binary64 := ofFields negative 0

/-- Infinity with the given sign. -/
def infinity (negative : Bool) : Binary64 := ofFields negative (2047 * twoTo fractionBits)

/-- The quiet not-a-number word. -/
def notANumber : Binary64 := ofFields false (2047 * twoTo fractionBits + twoTo (fractionBits - 1))

/-! ## Rounding a ratio -/

/-- The integer nearest to `num / den`; a half goes to the even neighbour. -/
def roundToEven (num den : Nat) : Nat :=
  let floor := num / den
  let twice := 2 * (num % den)
  if den < twice || (twice == den && floor % 2 == 1) then floor + 1 else floor

/-- The ratio `num / den` divided by a power of two. -/
def scaleDown (num den : Nat) (exponent : Int) : Nat × Nat :=
  if exponent < 0 then (num * twoTo (-exponent).toNat, den) else (num, den * twoTo exponent.toNat)

/-- The number nearest to the positive ratio `num / den`; a half goes to the even mantissa, and
what is too large becomes infinite. The first exponent tried is at most one too small. -/
def ofRatio (negative : Bool) (num den : Nat) : Binary64 :=
  let guess := max ((num.log2 : Int) - den.log2 - (fractionBits + 1)) leastExponent
  let wide := scaleDown num den guess
  let exponent := if wide.1 / wide.2 < twoTo (fractionBits + 1) then guess else guess + 1
  let scaled := scaleDown num den exponent
  let mantissa := roundToEven scaled.1 scaled.2
  let magnitude := (exponent - leastExponent).toNat * twoTo fractionBits + mantissa
  if 2047 * twoTo fractionBits ≤ magnitude then infinity negative else ofFields negative magnitude

end Binary64

end CommandShell
