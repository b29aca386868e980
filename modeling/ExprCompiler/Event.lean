/-
# Reduction events

A front end describes an expression bottom-up, as a list of events in postfix
order.  Each event carries the tag of a node; the tag alone fixes how many
operands the node takes off the stack.

Counts are machine words.  A list takes its probe and its items, so the list of
most items takes one operand more than a word can count (`Tag.isCountable`).
-/
import ExprCompiler.Literal
import ExprCompiler.Operator
import ExprCompiler.Span

namespace ExprCompiler

/-- What an event builds. -/
inductive Tag
  /-- An unsigned integer as it was written. -/
  | integer (value : UInt64)
  /-- A real number as it was written, by its double bit pattern. -/
  | real (bits : UInt64)
  | literal (value : Literal)
  | binary (op : BinaryOp)
  | unary (op : UnaryOp)
  | cast (target : Ty)
  /-- Condition, value if true, value if false. -/
  | conditional
  /-- A probe and the items it is compared with. -/
  | inList (count : UInt64)
  /-- A probe and a collection. -/
  | inCollection
  /-- A member of the target, if there is one, called if `argc` is given. -/
  | member (name : String) (hasTarget : Bool) (argc : Option UInt8)
  /-- The whole expression, converted to a type if one is expected. -/
  | root (expected : Option Ty)
  deriving DecidableEq, Repr, Inhabited

/-- A tag and where it came from. -/
structure Event where
  tag : Tag
  span : Span
  deriving DecidableEq, Repr, Inhabited

namespace Tag

/-- How many operands a node takes. -/
def arity : Tag → Nat
  | integer _ | real _ | literal _ => 0
  | unary _ | cast _ | root _ => 1
  | binary _ | inCollection => 2
  | conditional => 3
  | inList count => count.toNat + 1
  | member _ hasTarget argc => hasTarget.toNat + (argc.map UInt8.toNat).getD 0

/-- Whether a machine word can count the operands of a node. -/
def isCountable (tag : Tag) : Bool := tag.arity < UInt64.size

/-- An optional value inside a description. -/
def describeOption (describe : α → String) : Option α → String
  | none => "None"
  | some a => "Some(" ++ describe a ++ ")"

/-- The description of a tag in messages about malformed input. -/
def describe : Tag → String
  | integer v => "Integer(" ++ toString v.toNat ++ ")"
  | real bits => "Real(" ++ Literal.doubleText bits ++ ")"
  | literal v => "Literal(" ++ v.describe ++ ")"
  | binary op => "Binary(" ++ op.describe ++ ")"
  | unary op => "Unary(" ++ op.describe ++ ")"
  | cast target => "Cast(" ++ target.describe ++ ")"
  | conditional => "Conditional"
  | inList count => "InList \x7b count: " ++ toString count.toNat ++ " \x7d"
  | inCollection => "InCollection"
  | member name hasTarget argc =>
    "Member \x7b name: " ++ Text.quote name ++ ", has_target: " ++ toString hasTarget
      ++ ", argc: " ++ describeOption (fun n => toString n.toNat) argc ++ " \x7d"
  | root expected => "Root(" ++ describeOption Ty.describe expected ++ ")"

end Tag

end ExprCompiler
