/-
# Typed expression trees

A node records, next to its operands, everything that was decided about it: its
static type, the plan by which it is computed, and the conversion of each
operand.  Walking a tree needs neither a registry nor options.
-/
import ExprCompiler.Conversion.Cast
import ExprCompiler.Overload.Resolve

namespace ExprCompiler

/-- A member to call and the conversion of each argument. -/
structure CallTarget where
  method : HostId
  isStatic : Bool
  returns : Ty
  conversions : List Conversion
  deriving DecidableEq, Repr, Inhabited

namespace CallTarget

/-- The call of a chosen candidate. -/
def ofCandidate (c : Candidate) : CallTarget where
  method := c.member.id
  isStatic := c.member.isStatic
  returns := c.member.returns
  conversions := c.conversions

/-- The conversion of one argument. -/
def conversion (call : CallTarget) (i : Nat) : Conversion :=
  (call.conversions[i]?).getD .identity

end CallTarget

/-! ## Plans -/

inductive ArithmeticPlan
  | operator (call : CallTarget)
  /-- Both operands meet in one kind. -/
  | numeric (kind : NumericKind) (checked unsigned : Bool) (left right : Conversion)
  /-- A runtime helper joins texts. -/
  | concat (helper : HostId) (left right : Conversion)
  /-- A power with a known exponent, by repeated squaring. -/
  | powerUnrolled (exponent : Nat) (kind : NumericKind) (checked : Bool)
  /-- A power computed by a runtime helper on doubles. -/
  | powerCall (left right : Conversion)
  deriving DecidableEq, Repr, Inhabited

inductive ComparePlan
  /-- An overload, whose answer is turned round if `negate`. -/
  | operator (call : CallTarget) (negate : Bool)
  | numeric (kind : NumericKind) (left right : Conversion)
  | string (mode : StringComparison)
  | boolean
  | reference
  /-- Two values of one enum, by what it is made of. -/
  | enum (kind : NumericKind)
  deriving DecidableEq, Repr, Inhabited

/-- The conversions of both operands of a comparison. -/
def ComparePlan.operandConversions : ComparePlan → Conversion × Conversion
  | operator call _ => (call.conversion 0, call.conversion 1)
  | numeric _ left right => (left, right)
  | _ => (.identity, .identity)

inductive ShiftPlan
  | operator (call : CallTarget)
  | numeric (kind : NumericKind) (left right : Conversion)
  deriving DecidableEq, Repr, Inhabited

inductive UnaryPlan
  | operator (call : CallTarget)
  | negate (kind : NumericKind) (checked : Bool) (conversion : Conversion)
  | plus (conversion : Conversion)
  | not
  | complement (kind : NumericKind) (conversion : Conversion)
  deriving DecidableEq, Repr, Inhabited

inductive LogicalPlan
  | operator (call : CallTarget)
  /-- The right operand is computed only if the left one does not decide. -/
  | shortCircuit
  | boolXor
  | bitwise (kind : NumericKind) (left right : Conversion)
  deriving DecidableEq, Repr, Inhabited

/-- A member that is read. -/
inductive ValueAccess
  | field
  | property
  deriving DecidableEq, Repr, Inhabited

/-- The name of a kind of access. -/
def ValueAccess.name : ValueAccess → String
  | field => "field"
  | property => "property"

/-- What a member belongs to. -/
inductive Receiver (ε : Type)
  /-- The value of an element. -/
  | target (element : ε)
  /-- The owner the expression is compiled for. -/
  | owner
  /-- Nothing: the member is static. -/
  | static
  deriving Repr, Inhabited

namespace Receiver

/-- The name of a kind of receiver. -/
def name : Receiver ε → String
  | target _ => "element"
  | owner => "owner"
  | static => "static"

/-- Whether the member belongs to nothing. -/
def isStatic : Receiver ε → Bool
  | static => true
  | _ => false

end Receiver

/-! ## Elements -/

/-- The static type of a node and where it came from. -/
structure NodeInfo where
  type : Ty
  span : Span
  deriving DecidableEq, Repr, Inhabited

/-- A typed expression tree. -/
inductive Element
  | literal (info : NodeInfo) (value : Literal)
  | arithmetic (info : NodeInfo) (op : ArithmeticOp) (plan : ArithmeticPlan)
      (left right : Element)
  | compare (info : NodeInfo) (op : CompareOp) (plan : ComparePlan) (left right : Element)
  | shift (info : NodeInfo) (op : ShiftOp) (plan : ShiftPlan) (left right : Element)
  | unary (info : NodeInfo) (op : UnaryOp) (plan : UnaryPlan) (operand : Element)
  | logical (info : NodeInfo) (op : LogicalOp) (plan : LogicalPlan) (left right : Element)
  | cast (info : NodeInfo) (plan : CastPlan) (operand : Element)
  | conditional (info : NodeInfo) (onTrue onFalse : Conversion)
      (condition whenTrue whenFalse : Element)
  /-- A probe and the items it is compared with, each by its own plan. -/
  | inList (info : NodeInfo) (probe : Element) (items : List (ComparePlan × Element))
  | inCollection (info : NodeInfo) (conversion : Conversion) (contains : HostId)
      (probe collection : Element)
  | read (info : NodeInfo) (access : ValueAccess) (member : HostId)
      (receiver : Receiver Element)
  | call (info : NodeInfo) (call : CallTarget) (receiver : Receiver Element)
      (args : List Element)
  /-- The whole expression and the conversion of its value. -/
  | root (info : NodeInfo) (conversion : Conversion) (child : Element)
  deriving Inhabited

namespace Element

def info : Element → NodeInfo
  | literal i _ | arithmetic i _ _ _ _ | compare i _ _ _ _ | shift i _ _ _ _ | unary i _ _ _
  | logical i _ _ _ _ | cast i _ _ | conditional i _ _ _ _ _ | inList i _ _
  | inCollection i _ _ _ _ | read i _ _ _ | call i _ _ _ | root i _ _ => i

/-- The static type of an element. -/
def type (e : Element) : Ty := e.info.type

/-- Where an element came from. -/
def span (e : Element) : Span := e.info.span

def isRoot : Element → Bool
  | root _ _ _ => true
  | _ => false

/-- The value of a literal that is a non-negative `int`. -/
def nonNegativeInt? : Element → Option Nat
  | literal _ (.int v) => if 0 ≤ v.toInt then some v.toInt.toNat else none
  | _ => none

/-- The element a member belongs to, if there is one. -/
def receiverChildren : Receiver Element → List Element
  | .target e => [e]
  | .owner | .static => []

/-- The operands of a node, in the order they were given. -/
def children : Element → List Element
  | literal _ _ => []
  | arithmetic _ _ _ l r | compare _ _ _ l r | shift _ _ _ l r | logical _ _ _ l r => [l, r]
  | unary _ _ _ e | cast _ _ e | root _ _ e => [e]
  | conditional _ _ _ c t f => [c, t, f]
  | inList _ probe items => probe :: items.map (·.2)
  | inCollection _ _ _ probe collection => [probe, collection]
  | read _ _ _ receiver => receiverChildren receiver
  | call _ _ receiver args => receiverChildren receiver ++ args

end Element

end ExprCompiler
