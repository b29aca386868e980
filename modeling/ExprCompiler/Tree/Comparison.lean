/-
# Comparisons and shifts

An overload comes first; `!=` also takes an overloaded `==` and turns the answer
round.  Without one, numbers are compared in the kind they meet in, values of one
enum by what it is made of, and strings, booleans and related references for
equality only.
-/
import ExprCompiler.Tree.Element

namespace ExprCompiler.Context

/-- The overload of a comparison, and whether its answer is to be turned round. -/
def compareOverload (ctx : Context) (op : CompareOp) (left right : Ty) (span : Span) :
    Except CompileError (Option ComparePlan) := do
  match ← ctx.findOperator (.binary (.compare op)) left right span with
  | some c => return some (.operator (.ofCandidate c) false)
  | none =>
    if op = .ne then
      match ← ctx.findOperator (.binary (.compare .eq)) left right span with
      | some c => return some (.operator (.ofCandidate c) true)
      | none => return none
    else return none

/-- Equality of two types that are neither numbers nor one enum. -/
def builtinEquality (ctx : Context) (op : CompareOp) (left right : Ty) (span : Span) :
    Except CompileError ComparePlan :=
  if op.isRelational then .error (ctx.binaryMismatch op.symbol left right span)
  else if left.isString && right.isString then .ok (.string ctx.options.stringComparison)
  else if left.isBool && right.isBool then .ok .boolean
  else if left.isReference && right.isReference
      && (ctx.converts left right || ctx.converts right left) then .ok .reference
  else .error (ctx.binaryMismatch op.symbol left right span)

/-- A comparison without an overload. -/
def builtinComparison (ctx : Context) (op : CompareOp) (left right : Ty) (span : Span) :
    Except CompileError ComparePlan :=
  match left.numericKind?, right.numericKind? with
  | some a, some b =>
    match a.meet? b with
    | some kind => .ok (.numeric kind (.operand a kind) (.operand b kind))
    | none => .error (ctx.binaryMismatch op.symbol left right span)
  | _, _ =>
    if left.isEnum && left = right then
      match (ctx.entry? left.id).bind (·.underlying) with
      | some kind => .ok (.enum kind)
      | none => .error (.internal (.enumWithoutUnderlying (ctx.typeName left)))
    else ctx.builtinEquality op left right span

/-- How two types are compared. -/
def comparePlan (ctx : Context) (op : CompareOp) (left right : Ty) (span : Span) :
    Except CompileError ComparePlan := do
  match ← ctx.compareOverload op left right span with
  | some plan => return plan
  | none => ctx.builtinComparison op left right span

/-- A comparison node. -/
def compare (ctx : Context) (op : CompareOp) (left right : Element) (span : Span) :
    Except CompileError Element := do
  let plan ← ctx.comparePlan op left.type right.type span
  return .compare ⟨Ty.bool, span⟩ op plan left right

/-- A shift node: an integral value by a count that converts to `int`. -/
def shift (ctx : Context) (op : ShiftOp) (left right : Element) (span : Span) :
    Except CompileError Element := do
  match ← ctx.findOperator (.binary (.shift op)) left.type right.type span with
  | some c =>
    return .shift ⟨c.member.returns, span⟩ op (.operator (.ofCandidate c)) left right
  | none =>
    match left.type.integralKind?, ctx.conversion? right.type (Ty.numeric .int32) with
    | some value, some count =>
      let kind := value.promote
      return .shift ⟨Ty.numeric kind, span⟩ op (.numeric kind (.operand value kind) count)
        left right
    | _, _ => throw (ctx.binaryMismatch op.symbol left.type right.type span)

end ExprCompiler.Context
