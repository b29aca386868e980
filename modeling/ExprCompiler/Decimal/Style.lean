/-
# Writing floats

The text of a float: the shortest decimal that reads back, laid out by a style
that says which magnitudes are written positionally.  A whole number keeps one
zero after the point in positional form and no point in exponent form.
-/
import ExprCompiler.Decimal.Shortest

namespace ExprCompiler.Decimal

/-- The layout decisions of a float text. -/
structure Style where
  /-- Values below `10 ^ least` are written with an exponent. -/
  least : Int
  /-- Values from `10 ^ greatest` on are written with an exponent. -/
  greatest : Int
  exponentMark : String
  infinity : String
  notANumber : String

/-- Digits of a coefficient without trailing zeros, with the place of the point
counted from the first digit. -/
def significant (d : Decimal) : List Char × Int :=
  let digits := Nat.toDigits 10 d.coefficient
  let kept := (digits.reverse.dropWhile (· == '0')).reverse
  (kept, digits.length + d.exponent)

/-- Digits around a point that stands after `point` of them. -/
def positional (digits : List Char) (point : Int) : String :=
  if point ≤ 0 then
    "0." ++ String.ofList (List.replicate (-point).toNat '0' ++ digits)
  else
    let whole := digits.take point.toNat
    let fraction := digits.drop point.toNat
    let padding := List.replicate (point.toNat - digits.length) '0'
    String.ofList (whole ++ padding) ++ "."
      ++ (if fraction.isEmpty then "0" else String.ofList fraction)

/-- One digit before the point, the rest after it, then the exponent. -/
def scientific (mark : String) (digits : List Char) (point : Int) : String :=
  let fraction := digits.drop 1
  String.ofList (digits.take 1)
    ++ (if fraction.isEmpty then "" else "." ++ String.ofList fraction)
    ++ mark ++ toString (point - 1)

/-- The text of a finite positive pattern. -/
def Style.magnitude (s : Style) (f : BinaryFormat) (bits : Nat) : String :=
  let (digits, point) := significant (shortest f bits)
  -- the value is at least `10 ^ (point - 1)` and below `10 ^ point`
  if s.least < point ∧ point ≤ s.greatest then positional digits point
  else scientific s.exponentMark digits point

/-- The text of any pattern, sign included. -/
def Style.write (s : Style) (f : BinaryFormat) (bits : Nat) : String :=
  let magnitude := bits % f.signBit
  let sign := if bits / f.signBit = 0 then "" else "-"
  if f.infinity < magnitude then s.notANumber
  else if magnitude = f.infinity then sign ++ s.infinity
  else if magnitude = 0 then sign ++ "0.0"
  else sign ++ s.magnitude f magnitude

end ExprCompiler.Decimal
