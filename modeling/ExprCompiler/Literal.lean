/-
# Literals

Constant values an expression can mention.  Floats are kept as bit patterns, so
that two literals are equal exactly if no program can tell them apart.
-/
import ExprCompiler.Decimal.Style
import ExprCompiler.Text
import ExprCompiler.Ty

namespace ExprCompiler

/-- A constant of the expression language. -/
inductive Literal
  | bool (value : Bool)
  | int (value : Int32)
  | uint (value : UInt32)
  | long (value : Int64)
  | ulong (value : UInt64)
  /-- A single, by its bit pattern. -/
  | float (bits : UInt32)
  /-- A double, by its bit pattern. -/
  | double (bits : UInt64)
  /-- A UTF-16 code unit. -/
  | char (unit : UInt16)
  | string (value : String)
  | null
  deriving DecidableEq, Repr, Inhabited

namespace Literal

/-- The static type of a literal. -/
def type : Literal → Ty
  | bool _ => .bool
  | int _ => .numeric .int32
  | uint _ => .numeric .uint32
  | long _ => .numeric .int64
  | ulong _ => .numeric .uint64
  | float _ => .numeric .float32
  | double _ => .numeric .float64
  | char _ => .numeric .char
  | string _ => .string
  | null => .null

/-- The least literal type that holds an unsigned number. -/
def ofNumber (value : UInt64) : Literal :=
  let n := value.toNat
  if n < 0x80000000 then int (Int32.ofNat n)
  else if n < 0x100000000 then uint n.toUInt32
  else if n < 0x8000000000000000 then long (Int64.ofNat n)
  else ulong value

/-- Floats are written positionally from `10 ^ -4` up to `10 ^ 16`. -/
def floatStyle : Decimal.Style where
  least := -4
  greatest := 16
  exponentMark := "e"
  infinity := "inf"
  notANumber := "NaN"

/-- The text of a double. -/
def doubleText (bits : UInt64) : String :=
  floatStyle.write .binary64 bits.toNat

/-- The text of a single. -/
def singleText (bits : UInt32) : String :=
  floatStyle.write .binary32 bits.toNat

/-- The form used inside descriptions of tags. -/
def describe : Literal → String
  | bool b => "Bool(" ++ toString b ++ ")"
  | int v => "Int(" ++ toString v.toInt ++ ")"
  | uint v => "UInt(" ++ toString v.toNat ++ ")"
  | long v => "Long(" ++ toString v.toInt ++ ")"
  | ulong v => "ULong(" ++ toString v.toNat ++ ")"
  | float bits => "Float(" ++ singleText bits ++ ")"
  | double bits => "Double(" ++ doubleText bits ++ ")"
  | char unit => "Char(" ++ toString unit.toNat ++ ")"
  | string s => "String(" ++ Text.quote s ++ ")"
  | null => "Null"

end Literal

end ExprCompiler
