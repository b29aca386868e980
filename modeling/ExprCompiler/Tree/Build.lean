/-
# Building trees

`reduce` makes one node out of a tag and its operands.  `build` runs a stream of
events over a stack of finished elements: each event takes its operands off the
stack and puts its node there.  One element has to be left, and it becomes the
root if it is not one.

Before anything is done about an event, its operands are counted, which stops the
program if they are too many to count.
-/
import ExprCompiler.Tree.Access
import ExprCompiler.Tree.Arithmetic
import ExprCompiler.Tree.Logical
import ExprCompiler.Tree.Membership

namespace ExprCompiler.Context

/-! ## Leaves -/

def literal (value : Literal) (span : Span) : Element :=
  .literal ⟨value.type, span⟩ value

/-- An integer as it was written. -/
def integer (ctx : Context) (value : UInt64) (span : Span) : Element :=
  if ctx.options.integersAsDoubles then
    literal (.double (BinaryFormat.doubleOfNat value)) span
  else literal (.ofNumber value) span

/-- A real number as it was written. -/
def real (ctx : Context) (bits : UInt64) (span : Span) : Element :=
  if ctx.options.realLiteral = .float32 then
    literal (.float (BinaryFormat.singleOfDouble bits)) span
  else literal (.double bits) span

/-! ## Inner nodes -/

def binary (ctx : Context) (op : BinaryOp) (left right : Element) (span : Span) :
    Except CompileError Element :=
  match op with
  | .arithmetic op => ctx.arithmetic op left right span
  | .compare op => ctx.compare op left right span
  | .shift op => ctx.shift op left right span
  | .logical op => ctx.logical op left right span

/-- A cast node. -/
def cast (ctx : Context) (operand : Element) (target : Ty) (span : Span) :
    Except CompileError Element := do
  let plan ← ctx.castPlan operand.type target span
  return .cast ⟨target, span⟩ plan operand

/-- A conditional node; one branch converts to the type of the other, the first
one's type being preferred. -/
def conditional (ctx : Context) (condition whenTrue whenFalse : Element) (span : Span) :
    Except CompileError Element :=
  let (t, f) := (whenTrue.type, whenFalse.type)
  if !condition.type.isBool then
    .error (.mismatch (.conditionNotBool (ctx.typeName condition.type)) condition.span)
  else
    match ctx.conversion? f t with
    | some c => .ok (.conditional ⟨t, span⟩ .identity c condition whenTrue whenFalse)
    | none =>
      match ctx.conversion? t f with
      | some c => .ok (.conditional ⟨f, span⟩ c .identity condition whenTrue whenFalse)
      | none => .error (.mismatch (.branches (ctx.typeName t) (ctx.typeName f)) span)

/-- The root of an expression, which has to have a value. -/
def root (ctx : Context) (child : Element) (expected : Option Ty) (span : Span) :
    Except CompileError Element :=
  if child.type.isVoid then .error (.mismatch .noValue child.span)
  else
    match expected with
    | none => .ok (.root ⟨child.type, span⟩ .identity child)
    | some target =>
      match ctx.conversion? child.type target with
      | some c => .ok (.root ⟨target, span⟩ c child)
      | none =>
        .error (.mismatch (.notConvertible (ctx.typeName child.type) (ctx.typeName target))
          span)

/-! ## Reduction -/

/-- A node out of a tag and its operands. -/
def node (ctx : Context) (tag : Tag) (operands : List Element) (span : Span) :
    Except CompileError Element :=
  match tag, operands with
  | .integer v, [] => .ok (ctx.integer v span)
  | .real bits, [] => .ok (ctx.real bits span)
  | .literal v, [] => .ok (literal v span)
  | .binary op, [left, right] => ctx.binary op left right span
  | .unary op, [e] => ctx.unary op e span
  | .cast target, [e] => ctx.cast e target span
  | .conditional, [c, t, f] => ctx.conditional c t f span
  | .inList count, probe :: items =>
    if items.length ≠ count.toNat then .error (.malformed (.wrongArity tag operands.length) span)
    else if items.isEmpty then .error (.malformed .emptyList span)
    else ctx.inList probe items span
  | .inCollection, [probe, collection] => ctx.inCollection probe collection span
  | .member name hasTarget argc, operands =>
    if operands.length ≠ tag.arity then
      .error (.malformed (.wrongArity tag operands.length) span)
    else
      match hasTarget, operands with
      | true, target :: args => ctx.member name (some target) args argc.isSome span
      | _, args => ctx.member name none args argc.isSome span
  | .root expected, [e] => ctx.root e expected span
  | _, _ => .error (.malformed (.wrongArity tag operands.length) span)

/-- A node out of a tag and its operands, which are counted first. -/
def reduce (ctx : Context) (tag : Tag) (operands : List Element) (span : Span) :
    Except Stop Element :=
  if tag.isCountable then (ctx.node tag operands span).mapError .refused else .error .overflow

/-- Takes operands off a stack, whose top is its head, into the order they were
put there. -/
def takeOperands? : Nat → List Element → List Element → Option (List Element × List Element)
  | 0, taken, stack => some (taken, stack)
  | _ + 1, _, [] => none
  | n + 1, taken, e :: stack => takeOperands? n (e :: taken) stack

/-- The stack after one event. -/
def push (ctx : Context) (stack : List Element) (event : Event) :
    Except Stop (List Element) :=
  if !event.tag.isCountable then .error .overflow
  else
    match takeOperands? event.tag.arity [] stack with
    | none => .error (.refused (.malformed (.missingOperands event.tag stack.length) event.span))
    | some (operands, rest) => do
      let e ← ctx.reduce event.tag operands event.span
      return e :: rest

/-- The stack after a stream of events. -/
def pushAll (ctx : Context) (stack : List Element) :
    List Event → Except Stop (List Element)
  | [] => .ok stack
  | event :: events =>
    match ctx.push stack event with
    | .ok stack => ctx.pushAll stack events
    | .error e => .error e

/-- The only element of a stack, as a root. -/
def close (ctx : Context) : List Element → Except CompileError Element
  | [] => .error (.malformed .emptyExpression .unknown)
  | [e] => if e.isRoot then .ok e else ctx.root e none e.span
  | top :: rest => .error (.malformed (.leftOver (rest.length + 1)) top.span)

/-- The tree of a stream of events. -/
def build (ctx : Context) (events : List Event) : Except Stop Element := do
  let stack ← ctx.pushAll [] events
  (ctx.close stack).mapError .refused

end ExprCompiler.Context
