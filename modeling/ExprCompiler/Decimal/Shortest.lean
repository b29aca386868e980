/-
# The shortest decimal that reads back

A finite positive float `m · 2 ^ q` is the nearest float of every real in an
interval around it.  Its shortest decimal is the one with the fewest digits in
that interval and, among those, the nearest to the float itself; of two equally
near the greater is taken.

The search goes grid by grid.  On the grid of `k` significant digits only the
two grid points around the value matter, since the interval contains the value:
if any grid point lies in it, one of those two does.
-/
import ExprCompiler.Binary.Format

namespace ExprCompiler

/-- A decimal number, `coefficient · 10 ^ exponent`. -/
structure Decimal where
  coefficient : Nat
  exponent : Int
  deriving DecidableEq, Repr

namespace Decimal

/-- The reals that round to a float, all over one denominator.  `closed` tells
whether the end points round to it too. -/
structure Interval where
  low : Nat
  value : Nat
  high : Nat
  den : Nat
  closed : Bool
  deriving DecidableEq, Repr

/-- The rounding interval of a positive finite pattern.  Below a power of two
the next float is half as far away. -/
def Interval.ofBits (f : BinaryFormat) (bits : Nat) : Interval :=
  let (m, q) := f.decode bits
  let nearBelow := bits % f.exponentUnit = 0 ∧ f.exponentUnit < bits
  let (unit, den) := BinaryFormat.scale 1 4 q
  { low := (4 * m - if nearBelow then 1 else 2) * unit
    value := 4 * m * unit
    high := (4 * m + 2) * unit
    den := den
    closed := m % 2 == 0 }

/-- Whether `num / den` lies in the interval. -/
def Interval.contains (i : Interval) (num den : Nat) : Bool :=
  if i.closed then i.low * den ≤ num * i.den && num * i.den ≤ i.high * den
  else i.low * den < num * i.den && num * i.den < i.high * den

/-- A power of ten, as a quotient. -/
def tenTo (p : Int) : Nat × Nat :=
  if 0 ≤ p then (Nat.pow 10 p.toNat, 1) else (1, Nat.pow 10 (-p).toNat)

/-- The better of the two points around the value on the grid of multiples of
`10 ^ p`, if one of them is in the interval. -/
def Interval.onGrid? (i : Interval) (p : Int) : Option Decimal :=
  let (gn, gd) := tenTo p
  let below := i.value * gd / (i.den * gn)
  let inside (c : Nat) : Bool := i.contains (c * gn) gd
  -- twice the distance to the lower point, against one grid step
  let upperNearer := i.den * gn ≤ 2 * (i.value * gd - below * (i.den * gn))
  match inside below, inside (below + 1) with
  | true, true => some ⟨if upperNearer then below + 1 else below, p⟩
  | true, false => some ⟨below, p⟩
  | false, true => some ⟨below + 1, p⟩
  | false, false => none

/-- The first grid with a hit, going down from `10 ^ p`. -/
def Interval.search (i : Interval) : Nat → Int → Decimal
  | 0, p => ⟨0, p⟩
  | fuel + 1, p =>
    match i.onGrid? p with
    | some d => d
    | none => i.search fuel (p - 1)

/-- The exponent of the leading decimal digit of a positive quotient, found by
counting digits and at most one step of correction. -/
def leadingExponent (num den : Nat) : Int :=
  let guess : Int := ((Nat.toDigits 10 num).length : Int) - (Nat.toDigits 10 den).length
  let (gn, gd) := tenTo guess
  if den * gn ≤ num * gd then guess else guess - 1

/-- The shortest decimal of a positive finite pattern.  Seventeen digits are
always enough, so twenty grids are tried. -/
def shortest (f : BinaryFormat) (bits : Nat) : Decimal :=
  let i := Interval.ofBits f bits
  i.search 20 (leadingExponent i.value i.den)

end Decimal

end ExprCompiler
