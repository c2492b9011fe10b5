/-
# CommandShell.Decimal.Shortest -- the fewest digits that read back

A positive finite number is `m * 2 ^ q`. The reals that round to it form an interval, closed
exactly when `m` is even. For one digit, two digits and so on up to seventeen, the number's two
neighbours on that decimal grid are tested against the interval; the first grid with a hit wins,
of two hits the nearer one, and of two equally near ones the larger. All tests are exact integer
comparisons.
-/
import CommandShell.Decimal.Binary64

namespace CommandShell.Shortest

/-- Compares `a * 10 ^ p` with `b * 2 ^ q` exactly. -/
def compareScaled (a : Nat) (p : Int) (b : Nat) (q : Int) : Ordering :=
  compare (a * tenTo p.toNat * twoTo (-q).toNat) (b * twoTo q.toNat * tenTo (-p).toNat)

/-- The ends of the interval of reals that round to `m * 2 ^ q`, in units of `2 ^ (q - 2)`. The
lower neighbour is nearer when `m` is the least normal mantissa. -/
def interval (m : Nat) (q : Int) : Nat × Nat :=
  let narrow := m == twoTo Binary64.fractionBits && Binary64.leastExponent < q
  (if narrow then 4 * m - 1 else 4 * m - 2, 4 * m + 2)

/-- Whether `c * 10 ^ p` rounds to `m * 2 ^ q`. -/
def readsBack (m : Nat) (q : Int) (c : Nat) (p : Int) : Bool :=
  let (low, high) := interval m q
  let above := compareScaled c p low (q - 2)
  let below := compareScaled c p high (q - 2)
  if m % 2 == 0 then above != .lt && below != .gt else above == .gt && below == .lt

/-- The largest integer `c` with `c * 10 ^ p` at most `m * 2 ^ q`. -/
def floorOnGrid (m : Nat) (q p : Int) : Nat :=
  m * twoTo q.toNat * tenTo (-p).toNat / (tenTo p.toNat * twoTo (-q).toNat)

/-- Whether the upper neighbour `c + 1` is at least as near to `m * 2 ^ q` as `c`. -/
def upperIsNearer (m : Nat) (q : Int) (c : Nat) (p : Int) : Bool :=
  compareScaled (2 * c + 1) p (2 * m) q != .gt

/-- The neighbour on the grid `10 ^ p` that reads back, if there is one. -/
def onGrid? (m : Nat) (q p : Int) : Option Nat :=
  let c := floorOnGrid m q p
  match readsBack m q c p, readsBack m q (c + 1) p with
  | true, true => some (if upperIsNearer m q c p then c + 1 else c)
  | true, false => some c
  | false, true => some (c + 1)
  | false, false => none

/-- The power of ten of the leading digit of `m * 2 ^ q`. The first estimate is at most one
off. -/
def leadingPower (m : Nat) (q : Int) : Int :=
  let estimate := ((m.log2 + q) * 30103).fdiv 100000
  if compareScaled 1 estimate m q == .gt then estimate - 1
  else if compareScaled 1 (estimate + 1) m q == .gt then estimate
  else estimate + 1

/-- Tries the grids from the given power of ten downwards. -/
def search (m : Nat) (q : Int) : Nat → Int → Nat × Int
  | 0, p => (floorOnGrid m q p, p)
  | steps + 1, p =>
    match onGrid? m q p with
    | some c => (c, p)
    | none => search m q steps (p - 1)

/-- The shortest decimal `(c, p)`, standing for `c * 10 ^ p`, that reads back as `m * 2 ^ q`. -/
def ofBinary (m : Nat) (q : Int) : Nat × Int := search m q 17 (leadingPower m q)

end CommandShell.Shortest
