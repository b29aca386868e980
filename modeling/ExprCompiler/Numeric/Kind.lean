/-
# Numeric kinds

The eleven built-in numeric types in the order of the widening ladder.  The
distance of two kinds on the ladder is the cost of widening one to the other.
-/
import ExprCompiler.HostId

namespace ExprCompiler

/-- The built-in numeric types, narrowest first. -/
inductive NumericKind
  | int8
  | uint8
  | int16
  | char
  | uint16
  | int32
  | uint32
  | int64
  | uint64
  | float32
  | float64
  deriving DecidableEq, Repr, Hashable, Inhabited

namespace NumericKind

/-- Every kind, in ladder order. -/
def all : List NumericKind :=
  [int8, uint8, int16, char, uint16, int32, uint32, int64, uint64, float32, float64]

/-- Position on the widening ladder. -/
def rank : NumericKind → Nat
  | int8 => 0
  | uint8 => 1
  | int16 => 2
  | char => 3
  | uint16 => 4
  | int32 => 5
  | uint32 => 6
  | int64 => 7
  | uint64 => 8
  | float32 => 9
  | float64 => 10

def isFloating : NumericKind → Bool
  | float32 | float64 => true
  | _ => false

/-- Integers and `char`. -/
def isIntegral (k : NumericKind) : Bool := !k.isFloating

/-- Unsigned integers and `char`. -/
def isUnsigned : NumericKind → Bool
  | uint8 | uint16 | uint32 | uint64 | char => true
  | _ => false

/-- Signed integers. -/
def isSigned : NumericKind → Bool
  | int8 | int16 | int32 | int64 => true
  | _ => false

/-- Width in bits. -/
def bits : NumericKind → Nat
  | int8 | uint8 => 8
  | int16 | uint16 | char => 16
  | int32 | uint32 | float32 => 32
  | int64 | uint64 | float64 => 64

/-- Whether a value takes a 64-bit integer slot. -/
def isWide : NumericKind → Bool
  | int64 | uint64 => true
  | _ => false

/-- The identity of the built-in type of this kind: that of its name. -/
def id : NumericKind → HostId
  | int8 => ⟨0x2b44191092e74388⟩
  | uint8 => ⟨0x0e8b2d31cdfa9716⟩
  | int16 => ⟨0x95aebfc985e9b115⟩
  | char => ⟨0x1262f4f62a255c69⟩
  | uint16 => ⟨0x269d68dfde65ae7f⟩
  | int32 => ⟨0x4f5e5320cd1c92bf⟩
  | uint32 => ⟨0x543fb8f520aa3e26⟩
  | int64 => ⟨0x7d6c550df59a1924⟩
  | uint64 => ⟨0x32ba58d17fda82dd⟩
  | float32 => ⟨0x02d5a2fddaf5bb69⟩
  | float64 => ⟨0xeb125587f6c2a79b⟩

/-- The name users see. -/
def name : NumericKind → String
  | int8 => "int8"
  | uint8 => "uint8"
  | int16 => "int16"
  | char => "char"
  | uint16 => "uint16"
  | int32 => "int"
  | uint32 => "uint"
  | int64 => "int64"
  | uint64 => "uint64"
  | float32 => "float"
  | float64 => "double"

/-- The short form used inside descriptions of tags. -/
def describe : NumericKind → String
  | int8 => "I8"
  | uint8 => "U8"
  | int16 => "I16"
  | char => "Char"
  | uint16 => "U16"
  | int32 => "I32"
  | uint32 => "U32"
  | int64 => "I64"
  | uint64 => "U64"
  | float32 => "F32"
  | float64 => "F64"

/-- The kind whose built-in type has the identity `id`. -/
def ofId? (id : HostId) : Option NumericKind :=
  all.find? (fun k => k.id == id)

/-- The kind called `name`. -/
def ofName? (name : String) : Option NumericKind :=
  all.find? (fun k => k.name == name)

end NumericKind

end ExprCompiler
