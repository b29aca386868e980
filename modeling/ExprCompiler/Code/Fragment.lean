/-
# Code fragments

The directives that a plan, a conversion or a literal stands for on its own,
without the operands around it.
-/
import ExprCompiler.Code.Directive
import ExprCompiler.Code.NumericOps
import ExprCompiler.Tree.Element

namespace ExprCompiler

/-- Push a literal. -/
def Literal.directives : Literal → List Directive
  | bool true => [.op .pushTrue]
  | bool false => [.op .pushFalse]
  | null => [.op .pushNull]
  | int v => [.constant (.int32 v)]
  | uint v => [.constant (.int32 v.toInt32)]
  | long v => [.constant (.int64 v)]
  | ulong v => [.constant (.int64 v.toInt64)]
  | float bits => [.constant (.float32 bits)]
  | double bits => [.constant (.float64 bits)]
  | char unit => [.constant (.int32 (Int32.ofNat unit.toNat))]
  | string s => [.constant (.string s)]

/-- Convert the value on top of the stack. -/
def Conversion.directives (c : Conversion) : List Directive :=
  match c.kind with
  | .identity | .nullReference | .upcast _ => []
  | .numeric source target => (source.implicitOps target).map .op
  | .boxing value => [.opId .box value]
  | .user method => [.call .call method 1]

/-- Cast the value on top of the stack. -/
def CastPlan.directives : CastPlan → List Directive
  | identity => []
  | implicit c => c.directives
  | numeric source target checked => (source.explicitOps target checked).map .op
  | user method => [.call .call method 1]
  | castClass target => [.opId .castClass target]
  | unbox target => [.opId .unbox target]

/-- Call a member on the arguments on the stack; an argument count has to fit a
byte. -/
def CallTarget.directives (call : CallTarget) : List Directive :=
  let argc := call.conversions.length
  if argc < 256 then
    [.call (if call.isStatic then .call else .callMethod) call.method argc.toUInt8]
  else [.refuse .tooManyArguments]

/-- The instruction of an arithmetic operator on two operands of one kind. -/
def ArithmeticOp.opcode (op : ArithmeticOp) (checked unsigned : Bool) : OpCode :=
  match op, checked, unsigned with
  | add, false, _ => .add
  | add, true, false => .addChecked
  | add, true, true => .addCheckedUnsigned
  | sub, false, _ => .sub
  | sub, true, false => .subChecked
  | sub, true, true => .subCheckedUnsigned
  | mul, false, _ | pow, false, _ => .mul
  | mul, true, false | pow, true, false => .mulChecked
  | mul, true, true | pow, true, true => .mulCheckedUnsigned
  | div, _, false => .div
  | div, _, true => .divUnsigned
  | mod, _, false => .rem
  | mod, _, true => .remUnsigned

/-- Raise the value in a slot to a power by squaring. -/
def powerDirectives (slot : UInt8) (kind : NumericKind) (times : OpCode) (n : Nat) :
    List Directive :=
  if n = 0 then [.constant (.ofNat kind 1)]
  else if n = 1 then [.opByte .getLocal slot]
  else if n % 2 = 0 then powerDirectives slot kind times (n / 2) ++ [.op .dup, .op times]
  else powerDirectives slot kind times (n - 1) ++ [.opByte .getLocal slot, .op times]
termination_by n

/-- The instructions of a comparison of two numbers of one kind.  The unsigned
tests also answer for operands without an order, so "not above" and "not below"
are false of those. -/
def CompareOp.opcodes (op : CompareOp) (unsigned floating : Bool) : List OpCode :=
  match op with
  | eq => [.eq]
  | ne => [.eq, .not]
  | lt => [if unsigned then .ltUnsigned else .lt]
  | gt => [if unsigned then .gtUnsigned else .gt]
  | le => [if unsigned || floating then .gtUnsigned else .gt, .not]
  | ge => [if unsigned || floating then .ltUnsigned else .lt, .not]

/-- Turn the answer round for `!=`. -/
def CompareOp.negation (op : CompareOp) : List Directive :=
  if op = .ne then [.op .not] else []

/-- Compare the two values on top of the stack. -/
def ComparePlan.directives (plan : ComparePlan) (op : CompareOp) : List Directive :=
  match plan with
  | operator call negate => call.directives ++ if negate then [.op .not] else []
  | numeric kind _ _ | enum kind => (op.opcodes kind.isUnsigned kind.isFloating).map .op
  | string mode =>
    [.constant (.int32 (Int32.ofNat mode.code)), .call .call Helper.stringEquals 3]
      ++ op.negation
  | boolean | reference => .op .eq :: op.negation

/-- The instruction of a shift. -/
def ShiftOp.opcode (op : ShiftOp) (unsigned : Bool) : OpCode :=
  match op, unsigned with
  | shl, _ => .shl
  | shr, true => .shrUnsigned
  | shr, false => .shr

/-- Shift a number by a count, which is first cut to the width of the number. -/
def ShiftOp.directives (op : ShiftOp) (kind : NumericKind) : List Directive :=
  [.constant (.int32 (if kind.isWide then 0x3f else 0x1f)), .op .and,
    .op (op.opcode kind.isUnsigned)]

/-- The instruction of a bitwise operator. -/
def LogicalOp.opcode : LogicalOp → OpCode
  | and => .and
  | or => .or
  | xor => .xor

/-- When a short-circuit operator skips its right operand. -/
def LogicalOp.skipKind : LogicalOp → BranchKind
  | or => .ifTrue
  | and | xor => .ifFalse

/-- Keep the value on top of the stack in a temporary slot. -/
def storeTemporary (slot : Nat) : Directive :=
  if slot < 256 then .opByte .setLocal slot.toUInt8 else .refuse .tooManyTemporaries

/-- Read a member, given whether it is static. -/
def ValueAccess.directive (access : ValueAccess) (isStatic : Bool) (member : HostId) :
    Directive :=
  match access, isStatic with
  | field, true => .opId .getStatic member
  | field, false => .opId .getField member
  | property, true => .call .call member 0
  | property, false => .call .callMethod member 0

/-- Narrow a power of a kind that is smaller than its slot. -/
def narrowPower (kind : NumericKind) (checked : Bool) : List Directive :=
  if kind.bits < 32 then (NumericKind.int32.explicitOps kind checked).map .op else []

end ExprCompiler
