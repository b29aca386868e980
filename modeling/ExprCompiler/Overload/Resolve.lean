/-
# Choosing an overload

The candidate with the least score wins if no other has that score.  Two
candidates that share it are named in the order they were given.

Operators are looked up on both operand types, each on its own; the two winners
are compared once more.
-/
import ExprCompiler.Operator
import ExprCompiler.Overload.Candidate

namespace ExprCompiler.Context

/-- The candidate with the least score. -/
def bestCandidate (ctx : Context) (name : String) (viable : List Candidate) (span : Span) :
    Except CompileError Candidate :=
  match viable.mergeSort (fun a b => decide (a.score ≤ b.score)) with
  | [] => .error (.internal (.noCandidates name))
  | [only] => .ok only
  | best :: second :: _ =>
    if best.score = second.score then
      .error (.ambiguous
        (.overload name (ctx.describeMember best.member) (ctx.describeMember second.member))
        span)
    else .ok best

/-- The members that fit, as candidates. -/
def viable (ctx : Context) (members : List Member) (args : List Ty) : List Candidate :=
  members.filterMap (fun m => ctx.candidate? m args)

/-- The member that a call means. -/
def resolveOverload (ctx : Context) (name : String) (members : List Member) (args : List Ty)
    (span : Span) : Except CompileError Candidate :=
  match ctx.viable members args with
  | [] => .error (.mismatch (.noOverload name (args.map ctx.typeName)) span)
  | found => ctx.bestCandidate name found span

/-! ## Operators -/

/-- The overloads of an operator on a type and what it derives from. -/
def operatorsOn (ctx : Context) (op : Operator) (owner : HostId) : List Member :=
  (ctx.membersOf owner op.methodName).filter
    (fun m => m.kind == .operator && m.params.length == op.arity)

/-- The best overload on one type, if any fits. -/
def bestOn (ctx : Context) (op : Operator) (owner : HostId) (args : List Ty) (span : Span) :
    Except CompileError (Option Candidate) :=
  match ctx.viable (ctx.operatorsOn op owner) args with
  | [] => .ok none
  | found => (ctx.bestCandidate op.methodName found span).map some

/-- The better of the winners of both operand types. -/
def betterOperator (ctx : Context) (op : Operator) (left right : Candidate) (span : Span) :
    Except CompileError Candidate :=
  if left.member.id = right.member.id then .ok left
  else if left.score < right.score then .ok left
  else if right.score < left.score then .ok right
  else
    let owned (c : Candidate) :=
      ctx.registry.typeName c.member.owner ++ "::" ++ ctx.describeMember c.member
    .error (.ambiguous (.operator op.symbol (owned left) (owned right)) span)

/-- The overload of an operator for two operand types. -/
def findOperator (ctx : Context) (op : Operator) (left right : Ty) (span : Span) :
    Except CompileError (Option Candidate) := do
  let onLeft ← ctx.bestOn op left.id [left, right] span
  if left.id = right.id then return onLeft
  let onRight ← ctx.bestOn op right.id [left, right] span
  match onLeft, onRight with
  | some l, some r => (ctx.betterOperator op l r span).map some
  | some l, none => return some l
  | none, found => return found

/-- The overload of an operator for one operand type. -/
def findUnaryOperator (ctx : Context) (op : Operator) (operand : Ty) (span : Span) :
    Except CompileError (Option Candidate) :=
  ctx.bestOn op operand.id [operand] span

end ExprCompiler.Context
