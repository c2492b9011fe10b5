/-
# CommandShell.Decimal.Reading -- the number a decimal text names

A decimal is a run of digits scaled by a power of ten. `Decimal.toBinary64` rounds it correctly
by exact integer arithmetic; decimals that lie far outside the format's range are answered without
their power of ten being computed. A run of digits may be long: `valueOf` reads it in halves, and
`valueOf_eq_foldl` says that this is the usual reading from left to right.
-/
import CommandShell.Decimal.Binary64

namespace CommandShell

/-- An exact decimal: `digits * 10 ^ exponent`, with its sign. -/
structure Decimal where
  negative : Bool
  digits : Nat
  exponent : Int
  deriving DecidableEq, Repr

namespace Decimal

/-! ## Runs of digits -/

/-- Whether a character is a decimal digit. -/
def isDigit (c : Char) : Bool := '0' ≤ c && c ≤ '9'

/-- The value of a number with a digit put behind it. -/
def putDigit (n : Nat) (c : Char) : Nat := 10 * n + (c.toNat - '0'.toNat)

/-- The value of a run of decimal digits that is cut into halves the given number of times. -/
def valueInHalves : Nat → List Char → Nat
  | 0, digits => digits.foldl putDigit 0
  | cuts + 1, digits =>
    let kept := digits.length / 2
    let rest := digits.drop kept
    valueInHalves cuts (digits.take kept) * tenTo rest.length + valueInHalves cuts rest

/-- The value of a run of decimal digits. Runs of more than a few dozen digits are cut, so that
large numbers are multiplied by large numbers and not by ten alone. -/
def valueOf (digits : List Char) : Nat := valueInHalves (digits.length.log2 - 5) digits

theorem foldl_putDigit (digits : List Char) (n : Nat) :
    digits.foldl putDigit n = n * tenTo digits.length + digits.foldl putDigit 0 := by
  induction digits generalizing n with
  | nil => simp [tenTo]
  | cons c rest ih =>
    have step : tenTo (rest.length + 1) = 10 * tenTo rest.length := by
      simp [tenTo, Nat.pow_succ, Nat.mul_comm]
    rw [List.foldl_cons, List.foldl_cons, ih (putDigit n c), ih (putDigit 0 c), List.length_cons,
      step]
    simp only [putDigit]
    grind

theorem valueInHalves_eq_foldl (cuts : Nat) (digits : List Char) :
    valueInHalves cuts digits = digits.foldl putDigit 0 := by
  induction cuts generalizing digits with
  | zero => rfl
  | succ cuts ih =>
    simp only [valueInHalves, ih]
    rw [← foldl_putDigit, ← List.foldl_append, List.take_append_drop]

/-- Cutting a run of digits does not change its value. -/
theorem valueOf_eq_foldl (digits : List Char) : valueOf digits = digits.foldl putDigit 0 :=
  valueInHalves_eq_foldl _ digits

/-- Powers of ten grow no further once they reach this bound. -/
def powerBound : Nat := 65536

/-- The power of ten that a run of digits names. The digits behind one that reaches `powerBound`
are passed over. -/
def powerOf (digits : List Char) : Nat :=
  digits.foldl (fun n c => if n < powerBound then putDigit n c else n) 0

example : powerOf "655359".toList = 655359 ∧ powerOf "655361".toList = 65536 := by decide +kernel

/-! ## Rounding -/

/-- The decimal written as whole digits, a point, fraction digits and a power of ten. -/
def ofParts (negative : Bool) (whole fraction : List Char) (power : Int) : Decimal :=
  ⟨negative, valueOf (whole ++ fraction), power - fraction.length⟩

/-- A power of ten that a positive decimal reaches, by its leading bit. -/
def powerReached (d : Decimal) : Int :=
  let power : Nat := d.digits.log2 * 30102 / 100000
  power + d.exponent

/-- A power of ten that a decimal stays below, by its leading bit. -/
def powerAbove (d : Decimal) : Int :=
  let power : Nat := (d.digits.log2 + 1) * 30103 / 100000 + 1
  power + d.exponent

/-- From this power of ten on every decimal is infinite in the 64-bit format. -/
def infinitePower : Int := 310

/-- Below this power of ten every decimal is zero in the 64-bit format. -/
def zeroPower : Int := -330

/-- The floating-point number nearest to a decimal. -/
def toBinary64 (d : Decimal) : Binary64 :=
  if d.digits == 0 || d.powerAbove ≤ zeroPower then .zero d.negative
  else if infinitePower ≤ d.powerReached then .infinity d.negative
  else if d.exponent < 0 then .ofRatio d.negative d.digits (tenTo (-d.exponent).toNat)
  else .ofRatio d.negative (d.digits * tenTo d.exponent.toNat) 1

/-! ## Decimal texts -/

/-- Takes a leading sign off a text. -/
def takeSign : List Char → Bool × List Char
  | '-' :: rest => (true, rest)
  | '+' :: rest => (false, rest)
  | rest => (false, rest)

/-- Reads a power of ten: a mark, an optional sign and digits, and nothing else. -/
def readPower? : List Char → Option Int
  | [] => some 0
  | c :: rest =>
    let (negative, digits) := takeSign rest
    if (c == 'e' || c == 'E') && !digits.isEmpty && digits.all isDigit then
      some (if negative then -(powerOf digits : Int) else powerOf digits)
    else none

/-- Reads an unsigned decimal: digits with an optional point, then an optional power of ten. -/
def readUnsigned? (negative : Bool) (text : List Char) : Option Decimal :=
  let whole := text.takeWhile isDigit
  match text.dropWhile isDigit with
  | '.' :: rest =>
    let fraction := rest.takeWhile isDigit
    if whole.isEmpty && fraction.isEmpty then none
    else (readPower? (rest.dropWhile isDigit)).map (ofParts negative whole fraction)
  | rest => if whole.isEmpty then none else (readPower? rest).map (ofParts negative whole [])

end Decimal

/-- Reads a number from its text: a decimal, or one of `NaN`, `inf` and `-inf`. -/
def Binary64.ofText? (s : String) : Option Binary64 :=
  if s = "NaN" then some .notANumber
  else
    let (negative, rest) := Decimal.takeSign s.toList
    if rest = "inf".toList then some (.infinity negative)
    else (Decimal.readUnsigned? negative rest).map Decimal.toBinary64

end CommandShell
