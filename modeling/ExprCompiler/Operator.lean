/-
# Operators

Unary and binary operators, grouped by how their operands are treated.  Every
operator can be overloaded by a static member under its method name.
-/

namespace ExprCompiler

inductive ArithmeticOp
  | add
  | sub
  | mul
  | div
  | mod
  | pow
  deriving DecidableEq, Repr, Inhabited

inductive CompareOp
  | eq
  | ne
  | lt
  | gt
  | le
  | ge
  deriving DecidableEq, Repr, Inhabited

inductive ShiftOp
  | shl
  | shr
  deriving DecidableEq, Repr, Inhabited

inductive LogicalOp
  | and
  | or
  | xor
  deriving DecidableEq, Repr, Inhabited

inductive UnaryOp
  | neg
  | plus
  | not
  | complement
  deriving DecidableEq, Repr, Inhabited

/-- A binary operator, by the family that treats its operands. -/
inductive BinaryOp
  | arithmetic (op : ArithmeticOp)
  | compare (op : CompareOp)
  | shift (op : ShiftOp)
  | logical (op : LogicalOp)
  deriving DecidableEq, Repr, Inhabited

/-- An operator that a host type can overload. -/
inductive Operator
  | binary (op : BinaryOp)
  | unary (op : UnaryOp)
  deriving DecidableEq, Repr, Inhabited

/-! ## Symbols -/

def ArithmeticOp.symbol : ArithmeticOp → String
  | add => "+"
  | sub => "-"
  | mul => "*"
  | div => "/"
  | mod => "%"
  | pow => "**"

def CompareOp.symbol : CompareOp → String
  | eq => "=="
  | ne => "!="
  | lt => "<"
  | gt => ">"
  | le => "<="
  | ge => ">="

def ShiftOp.symbol : ShiftOp → String
  | shl => "<<"
  | shr => ">>"

def LogicalOp.symbol : LogicalOp → String
  | and => "and"
  | or => "or"
  | xor => "xor"

def UnaryOp.symbol : UnaryOp → String
  | neg => "-"
  | plus => "+"
  | not => "!"
  | complement => "~"

def BinaryOp.symbol : BinaryOp → String
  | arithmetic op => op.symbol
  | compare op => op.symbol
  | shift op => op.symbol
  | logical op => op.symbol

def Operator.symbol : Operator → String
  | binary op => op.symbol
  | unary op => op.symbol

/-! ## All operators -/

def ArithmeticOp.all : List ArithmeticOp := [add, sub, mul, div, mod, pow]
def CompareOp.all : List CompareOp := [eq, ne, lt, gt, le, ge]
def ShiftOp.all : List ShiftOp := [shl, shr]
def LogicalOp.all : List LogicalOp := [and, or, xor]
def UnaryOp.all : List UnaryOp := [neg, plus, not, complement]

def BinaryOp.all : List BinaryOp :=
  ArithmeticOp.all.map arithmetic ++ CompareOp.all.map compare ++ ShiftOp.all.map shift
    ++ LogicalOp.all.map logical

def Operator.all : List Operator :=
  BinaryOp.all.map binary ++ UnaryOp.all.map unary

/-- Whether the operator asks for an order, not just for equality. -/
def CompareOp.isRelational : CompareOp → Bool
  | eq | ne => false
  | _ => true

/-! ## Overloading -/

/-- The name of the member that overloads a binary operator. -/
def BinaryOp.methodName : BinaryOp → String
  | arithmetic .add => "opAdd"
  | arithmetic .sub => "opSub"
  | arithmetic .mul => "opMul"
  | arithmetic .div => "opDiv"
  | arithmetic .mod => "opMod"
  | arithmetic .pow => "opPow"
  | compare .eq => "opEquals"
  | compare .ne => "opNotEquals"
  | compare .lt => "opLess"
  | compare .gt => "opGreater"
  | compare .le => "opLessEqual"
  | compare .ge => "opGreaterEqual"
  | shift .shl => "opShl"
  | shift .shr => "opShr"
  | logical .and => "opAnd"
  | logical .or => "opOr"
  | logical .xor => "opXor"

/-- The name of the member that overloads a unary operator. -/
def UnaryOp.methodName : UnaryOp → String
  | neg => "opNeg"
  | plus => "opPlus"
  | not => "opNot"
  | complement => "opCom"

def Operator.methodName : Operator → String
  | binary op => op.methodName
  | unary op => op.methodName

/-- How many operands an operator takes. -/
def Operator.arity : Operator → Nat
  | binary _ => 2
  | unary _ => 1

/-- The operator that a member name overloads. -/
def Operator.ofMethodName? (name : String) : Option Operator :=
  all.find? (fun op => op.methodName == name)

/-! ## Descriptions of tags -/

/-- The form used inside descriptions of tags. -/
def BinaryOp.describe : BinaryOp → String
  | arithmetic .add => "Add"
  | arithmetic .sub => "Sub"
  | arithmetic .mul => "Mul"
  | arithmetic .div => "Div"
  | arithmetic .mod => "Mod"
  | arithmetic .pow => "Pow"
  | compare .eq => "Eq"
  | compare .ne => "Ne"
  | compare .lt => "Lt"
  | compare .gt => "Gt"
  | compare .le => "Le"
  | compare .ge => "Ge"
  | shift .shl => "Shl"
  | shift .shr => "Shr"
  | logical .and => "And"
  | logical .or => "Or"
  | logical .xor => "Xor"

/-- The form used inside descriptions of tags. -/
def UnaryOp.describe : UnaryOp → String
  | neg => "Neg"
  | plus => "Plus"
  | not => "Not"
  | complement => "Complement"

end ExprCompiler
