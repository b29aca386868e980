/-
# Conversion instructions

The instructions that carry a number of one kind into another.  A 32-bit slot
holds every integral kind of up to 32 bits, extended by its own signedness, so
widening within it needs no instruction.
-/
import ExprCompiler.Code.OpCode
import ExprCompiler.Numeric.Kind

namespace ExprCompiler.NumericKind

/-- To a floating kind; unsigned sources of 32 and 64 bits are marked first. -/
def toFloatOps (source target : NumericKind) : List OpCode :=
  let last := if target = float32 then OpCode.toF32 else OpCode.toF64
  match source with
  | uint32 | uint64 => [.toFloatUnsigned, last]
  | _ => [last]

/-- The instructions of a widening. -/
def implicitOps (source target : NumericKind) : List OpCode :=
  if source = target then []
  else if target.isFloating then toFloatOps source target
  else if target.isWide && !source.isWide then
    [if source.isUnsigned then .toU64 else .toI64]
  else []

/-- The trapping conversion to an integral kind, by the signedness of the source. -/
def checkedOp (target : NumericKind) (unsignedSource : Bool) : OpCode :=
  match target, unsignedSource with
  | int8, false => .toI8Checked
  | int8, true => .toI8CheckedUnsigned
  | uint8, false => .toU8Checked
  | uint8, true => .toU8CheckedUnsigned
  | int16, false => .toI16Checked
  | int16, true => .toI16CheckedUnsigned
  | uint16, false | char, false => .toU16Checked
  | uint16, true | char, true => .toU16CheckedUnsigned
  | int32, false => .toI32Checked
  | int32, true => .toI32CheckedUnsigned
  | uint32, false => .toU32Checked
  | uint32, true => .toU32CheckedUnsigned
  | int64, false => .toI64Checked
  | int64, true => .toI64CheckedUnsigned
  | uint64, false | float32, false | float64, false => .toU64Checked
  | uint64, true | float32, true | float64, true => .toU64CheckedUnsigned

/-- The conversion to a 64-bit kind: integers extend by their own signedness. -/
def wideOp (source target : NumericKind) : OpCode :=
  if source.isFloating then (if target = uint64 then .toU64 else .toI64)
  else if source.isUnsigned then .toU64
  else .toI64

/-- The wrapping conversion to an integral kind. -/
def uncheckedOp (source target : NumericKind) : OpCode :=
  match target with
  | int64 | uint64 => wideOp source target
  | int8 => .toI8
  | uint8 => .toU8
  | int16 => .toI16
  | uint16 | char => .toU16
  | int32 => .toI32
  | uint32 | float32 | float64 => .toU32

/-- The instructions of a cast. -/
def explicitOps (source target : NumericKind) (checked : Bool) : List OpCode :=
  if source = target then []
  else if target.isFloating then toFloatOps source target
  else if checked then [checkedOp target (source.isIntegral && source.isUnsigned)]
  else [uncheckedOp source target]

end ExprCompiler.NumericKind
