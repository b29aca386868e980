/-
# Numeric promotion

What kind two operands meet in, which kinds widen to which, and what widening
costs.  Operands meet in the widest floating kind present, else in an integral
kind that holds the values of both; an unsigned 64-bit operand and a signed
one have no such kind.
-/
import ExprCompiler.Numeric.Kind

namespace ExprCompiler.NumericKind

/-- The kind two integral operands meet in. -/
def integralMeet (a b : NumericKind) : Option NumericKind :=
  if a = uint64 ∨ b = uint64 then
    if a.isSigned || b.isSigned then none else some uint64
  else if a = int64 ∨ b = int64 then some int64
  else if a = uint32 ∨ b = uint32 then
    if a.isSigned || b.isSigned then some int64 else some uint32
  else some int32

/-- The kind in which a binary operator on `a` and `b` works. -/
def meet? (a b : NumericKind) : Option NumericKind :=
  if a = float64 ∨ b = float64 then some float64
  else if a = float32 ∨ b = float32 then some float32
  else integralMeet a b

/-- Widening between two different integral kinds. -/
def widensIntegral (source target : NumericKind) : Bool :=
  if source = char then
    match target with
    | uint16 | int32 | uint32 | int64 | uint64 => true
    | _ => false
  else if target = char then false
  else if source.isUnsigned then source.bits < target.bits
  else target.isSigned && source.bits < target.bits

/-- Whether every use of `source` may stand for `target` without a cast. -/
def widens (source target : NumericKind) : Bool :=
  if source = target then true
  else if target.isFloating then !(source = float64 && target = float32)
  else if source.isFloating then false
  else widensIntegral source target

/-- The cost of widening: the distance on the ladder. -/
def widenCost? (source target : NumericKind) : Option Nat :=
  if source.widens target then some (target.rank - source.rank) else none

/-- The kind in which a unary operator works: at least 32 bits wide. -/
def promote (k : NumericKind) : NumericKind :=
  match k with
  | uint32 | int64 | uint64 | float32 | float64 => k
  | _ => int32

end ExprCompiler.NumericKind
