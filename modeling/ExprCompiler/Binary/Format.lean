/-
# Binary floating-point formats

A format is given by the widths of its two fields.  Magnitudes are handled as
bit patterns without the sign: a finite pattern stands for `m · 2 ^ q`, and
`ofRatio` is the pattern of the value nearest to an exact quotient, ties to
the even neighbour.  Every float operation of the library is "compute exactly,
then `ofRatio`", so no machine float is involved.

Patterns of one format are ordered as the values they stand for.
-/

namespace ExprCompiler

/-- Field widths of a binary interchange format. -/
structure BinaryFormat where
  fractionBits : Nat
  exponentBits : Nat
  deriving DecidableEq, Repr

/-- Division rounded to the nearest integer, a half going to the even one. -/
def roundHalfEven (num den : Nat) : Nat :=
  let quotient := num / den
  let twice := 2 * (num % den)
  if twice < den then quotient
  else if den < twice then quotient + 1
  else quotient + quotient % 2

namespace BinaryFormat

def binary32 : BinaryFormat := ⟨23, 8⟩
def binary64 : BinaryFormat := ⟨52, 11⟩

/-- The weight of the exponent field, which is also how many fractions there are. -/
def exponentUnit (f : BinaryFormat) : Nat :=
  Nat.pow 2 f.fractionBits

/-- The pattern of infinity; a greater pattern is not a number. -/
def infinity (f : BinaryFormat) : Nat :=
  (Nat.pow 2 f.exponentBits - 1) * f.exponentUnit

/-- The weight of the sign bit. -/
def signBit (f : BinaryFormat) : Nat :=
  Nat.pow 2 (f.exponentBits + f.fractionBits)

/-- The exponent of the least positive value. -/
def leastExponent (f : BinaryFormat) : Int :=
  2 - (Nat.pow 2 (f.exponentBits - 1) + f.fractionBits : Nat)

/-! ## Reading a pattern -/

/-- The `m` and `q` of a finite pattern, which stands for `m · 2 ^ q`. -/
def decode (f : BinaryFormat) (bits : Nat) : Nat × Int :=
  let exponent := bits / f.exponentUnit
  let fraction := bits % f.exponentUnit
  if exponent = 0 then (fraction, f.leastExponent)
  else (fraction + f.exponentUnit, f.leastExponent + exponent - 1)

/-- `num / den · 2 ^ q` as a quotient of naturals. -/
def scale (num den : Nat) (q : Int) : Nat × Nat :=
  if 0 ≤ q then (num * Nat.pow 2 q.toNat, den) else (num, den * Nat.pow 2 (-q).toNat)

/-- The value of a finite pattern as a quotient of naturals. -/
def toRatio (f : BinaryFormat) (bits : Nat) : Nat × Nat :=
  let (m, q) := f.decode bits
  scale m 1 q

/-! ## Rounding to a pattern -/

/-- The exponent of the power of two at or just below a positive quotient. -/
def floorLog (num den : Nat) : Int :=
  let guess : Int := num.log2 - den.log2
  let (n, d) := scale num den (-guess)
  if d ≤ n then guess else guess - 1

/-- The pattern nearest to `num / den`, ties to even; values past the largest
finite one become infinity. -/
def ofRatio (f : BinaryFormat) (num den : Nat) : Nat :=
  if num = 0 then 0
  else
    let q := max (floorLog num den - f.fractionBits) f.leastExponent
    let (n, d) := scale num den (-q)
    min ((q - f.leastExponent).toNat * f.exponentUnit + roundHalfEven n d) f.infinity

/-! ## Conversions between formats -/

/-- The double nearest to an unsigned 64-bit integer. -/
def doubleOfNat (n : UInt64) : UInt64 :=
  (binary64.ofRatio n.toNat 1).toUInt64

/-- The single nearest to a double.  What is not a number stays so: it keeps
its sign and the upper part of its payload, and becomes quiet. -/
def singleOfDouble (bits : UInt64) : UInt32 :=
  let sign := bits.toNat / binary64.signBit
  let magnitude := bits.toNat % binary64.signBit
  let narrowed :=
    if binary64.infinity < magnitude then
      let payload := magnitude % binary64.exponentUnit
      let kept := payload / (binary64.exponentUnit / binary32.exponentUnit)
      binary32.infinity + (kept ||| binary32.exponentUnit / 2)
    else if magnitude = binary64.infinity then binary32.infinity
    else
      let (num, den) := binary64.toRatio magnitude
      binary32.ofRatio num den
  (sign * binary32.signBit + narrowed).toUInt32

end BinaryFormat

/-! ## Non-negative singles -/

/-- A non-negative single, by its pattern. -/
structure Single where
  bits : Nat
  deriving DecidableEq, Repr, Inhabited

namespace Single

def zero : Single := ⟨0⟩

/-- The single nearest to `num / den`. -/
def ofRatio (num den : Nat) : Single := ⟨BinaryFormat.binary32.ofRatio num den⟩

/-- The single nearest to a natural number. -/
def ofNat (n : Nat) : Single := ofRatio n 1

/-- The exact value, as a quotient. -/
def toRatio (x : Single) : Nat × Nat := BinaryFormat.binary32.toRatio x.bits

/-- The rounded sum. -/
def add (x y : Single) : Single :=
  let (a, b) := x.toRatio
  let (c, d) := y.toRatio
  ofRatio (a * d + c * b) (b * d)

/-- The rounded quotient by a positive value. -/
def div (x y : Single) : Single :=
  let (a, b) := x.toRatio
  let (c, d) := y.toRatio
  ofRatio (a * d) (b * c)

instance : Add Single := ⟨add⟩
instance : Div Single := ⟨div⟩

/-- Patterns are ordered as their values. -/
instance : LT Single := ⟨fun x y => x.bits < y.bits⟩
instance : LE Single := ⟨fun x y => x.bits ≤ y.bits⟩
instance (x y : Single) : Decidable (x < y) := inferInstanceAs (Decidable (x.bits < y.bits))
instance (x y : Single) : Decidable (x ≤ y) := inferInstanceAs (Decidable (x.bits ≤ y.bits))

end Single

end ExprCompiler
