/-
# Instructions

The operations of the stack machine, in the order of their byte codes.  Operand
bytes follow the code: an index or slot, a two-byte pool index, a pool index and
an argument count, or a branch offset of one or four bytes.
-/

namespace ExprCompiler

/-- The operation of an instruction. -/
inductive OpCode
  -- constants
  | constant
  | constantWide
  | pushNull
  | pushTrue
  | pushFalse
  -- stack and temporaries
  | pop
  | dup
  | getLocal
  | setLocal
  | getOwner
  -- arithmetic
  | add
  | addChecked
  | addCheckedUnsigned
  | sub
  | subChecked
  | subCheckedUnsigned
  | mul
  | mulChecked
  | mulCheckedUnsigned
  | div
  | divUnsigned
  | rem
  | remUnsigned
  | neg
  -- bits and logic
  | and
  | or
  | xor
  | bitNot
  | not
  | shl
  | shr
  | shrUnsigned
  -- comparison
  | eq
  | gt
  | gtUnsigned
  | lt
  | ltUnsigned
  -- numeric conversion
  | toI8
  | toI16
  | toI32
  | toI64
  | toU8
  | toU16
  | toU32
  | toU64
  | toF32
  | toF64
  | toFloatUnsigned
  | toI8Checked
  | toI16Checked
  | toI32Checked
  | toI64Checked
  | toU8Checked
  | toU16Checked
  | toU32Checked
  | toU64Checked
  | toI8CheckedUnsigned
  | toI16CheckedUnsigned
  | toI32CheckedUnsigned
  | toI64CheckedUnsigned
  | toU8CheckedUnsigned
  | toU16CheckedUnsigned
  | toU32CheckedUnsigned
  | toU64CheckedUnsigned
  -- calls and members
  | call
  | callMethod
  | getField
  | getStatic
  -- reference conversion
  | box
  | unbox
  | castClass
  -- control flow
  | jump
  | jumpIfFalse
  | jumpIfTrue
  | jumpLong
  | jumpIfFalseLong
  | jumpIfTrueLong
  | ret
  deriving DecidableEq, Repr, Inhabited

namespace OpCode

/-- Every operation, in the order of the byte codes. -/
def all : Array OpCode :=
  #[constant, constantWide, pushNull, pushTrue, pushFalse,
    pop, dup, getLocal, setLocal, getOwner,
    add, addChecked, addCheckedUnsigned, sub, subChecked, subCheckedUnsigned,
    mul, mulChecked, mulCheckedUnsigned, div, divUnsigned, rem, remUnsigned, neg,
    and, or, xor, bitNot, not, shl, shr, shrUnsigned,
    eq, gt, gtUnsigned, lt, ltUnsigned,
    toI8, toI16, toI32, toI64, toU8, toU16, toU32, toU64, toF32, toF64, toFloatUnsigned,
    toI8Checked, toI16Checked, toI32Checked, toI64Checked,
    toU8Checked, toU16Checked, toU32Checked, toU64Checked,
    toI8CheckedUnsigned, toI16CheckedUnsigned, toI32CheckedUnsigned, toI64CheckedUnsigned,
    toU8CheckedUnsigned, toU16CheckedUnsigned, toU32CheckedUnsigned, toU64CheckedUnsigned,
    call, callMethod, getField, getStatic, box, unbox, castClass,
    jump, jumpIfFalse, jumpIfTrue, jumpLong, jumpIfFalseLong, jumpIfTrueLong, ret]

/-- The byte code: the place in declaration order. -/
def toByte (op : OpCode) : UInt8 := UInt8.ofNat op.ctorIdx

/-- The operation of a byte code. -/
def ofByte? (byte : UInt8) : Option OpCode := all[byte.toNat]?

/-- How many operand bytes follow the code. -/
def operandSize : OpCode → Nat
  | constant | getLocal | setLocal | jump | jumpIfFalse | jumpIfTrue => 1
  | constantWide | getField | getStatic | box | unbox | castClass => 2
  | call | callMethod => 3
  | jumpLong | jumpIfFalseLong | jumpIfTrueLong => 4
  | _ => 0

/-- How many bytes the whole instruction takes. -/
def size (op : OpCode) : Nat := 1 + op.operandSize

def isBranch : OpCode → Bool
  | jump | jumpIfFalse | jumpIfTrue | jumpLong | jumpIfFalseLong | jumpIfTrueLong => true
  | _ => false

def isComparison : OpCode → Bool
  | eq | gt | gtUnsigned | lt | ltUnsigned => true
  | _ => false

/-- The name in listings. -/
def name : OpCode → String
  | constant => "CONSTANT"
  | constantWide => "CONSTANT_WIDE"
  | pushNull => "PUSH_NULL"
  | pushTrue => "PUSH_TRUE"
  | pushFalse => "PUSH_FALSE"
  | pop => "POP"
  | dup => "DUP"
  | getLocal => "GET_LOCAL"
  | setLocal => "SET_LOCAL"
  | getOwner => "GET_OWNER"
  | add => "ADD"
  | addChecked => "ADD_OVF"
  | addCheckedUnsigned => "ADD_OVF_UN"
  | sub => "SUB"
  | subChecked => "SUB_OVF"
  | subCheckedUnsigned => "SUB_OVF_UN"
  | mul => "MUL"
  | mulChecked => "MUL_OVF"
  | mulCheckedUnsigned => "MUL_OVF_UN"
  | div => "DIV"
  | divUnsigned => "DIV_UN"
  | rem => "REM"
  | remUnsigned => "REM_UN"
  | neg => "NEG"
  | and => "AND"
  | or => "OR"
  | xor => "XOR"
  | bitNot => "BIT_NOT"
  | not => "NOT"
  | shl => "SHL"
  | shr => "SHR"
  | shrUnsigned => "SHR_UN"
  | eq => "EQ"
  | gt => "GT"
  | gtUnsigned => "GT_UN"
  | lt => "LT"
  | ltUnsigned => "LT_UN"
  | toI8 => "TO_I8"
  | toI16 => "TO_I16"
  | toI32 => "TO_I32"
  | toI64 => "TO_I64"
  | toU8 => "TO_U8"
  | toU16 => "TO_U16"
  | toU32 => "TO_U32"
  | toU64 => "TO_U64"
  | toF32 => "TO_F32"
  | toF64 => "TO_F64"
  | toFloatUnsigned => "TO_FLOAT_UN"
  | toI8Checked => "TO_I8_OVF"
  | toI16Checked => "TO_I16_OVF"
  | toI32Checked => "TO_I32_OVF"
  | toI64Checked => "TO_I64_OVF"
  | toU8Checked => "TO_U8_OVF"
  | toU16Checked => "TO_U16_OVF"
  | toU32Checked => "TO_U32_OVF"
  | toU64Checked => "TO_U64_OVF"
  | toI8CheckedUnsigned => "TO_I8_OVF_UN"
  | toI16CheckedUnsigned => "TO_I16_OVF_UN"
  | toI32CheckedUnsigned => "TO_I32_OVF_UN"
  | toI64CheckedUnsigned => "TO_I64_OVF_UN"
  | toU8CheckedUnsigned => "TO_U8_OVF_UN"
  | toU16CheckedUnsigned => "TO_U16_OVF_UN"
  | toU32CheckedUnsigned => "TO_U32_OVF_UN"
  | toU64CheckedUnsigned => "TO_U64_OVF_UN"
  | call => "CALL"
  | callMethod => "CALL_METHOD"
  | getField => "GET_FIELD"
  | getStatic => "GET_STATIC"
  | box => "BOX"
  | unbox => "UNBOX"
  | castClass => "CAST_CLASS"
  | jump => "JUMP"
  | jumpIfFalse => "JUMP_IF_FALSE"
  | jumpIfTrue => "JUMP_IF_TRUE"
  | jumpLong => "JUMP_LONG"
  | jumpIfFalseLong => "JUMP_IF_FALSE_LONG"
  | jumpIfTrueLong => "JUMP_IF_TRUE_LONG"
  | ret => "RETURN"

/-- The operation called `name`. -/
def ofName? (name : String) : Option OpCode :=
  all.find? (fun op => op.name == name)

/-- The table of operations lists each at the place of its byte code. -/
theorem ofByte?_toByte (op : OpCode) : ofByte? op.toByte = some op := by
  cases op <;> rfl

end OpCode

end ExprCompiler
