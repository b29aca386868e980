/-
# Logical and unary nodes

An overload comes first.  Without one, booleans are combined by short circuit,
integers bit by bit in the kind they meet in.  Negation works in a signed kind,
which unsigned 64-bit numbers do not have.
-/
import ExprCompiler.Tree.Element

namespace ExprCompiler.Context

/-- The plan and result type of a logical operator without an overload. -/
def builtinLogical? (op : LogicalOp) (left right : Ty) : Option (LogicalPlan × Ty) :=
  if left.isBool && right.isBool then
    some (if op = .xor then .boolXor else .shortCircuit, Ty.bool)
  else do
    let a ← left.integralKind?
    let b ← right.integralKind?
    let kind ← a.meet? b
    some (.bitwise kind (.operand a kind) (.operand b kind), Ty.numeric kind)

/-- A logical node. -/
def logical (ctx : Context) (op : LogicalOp) (left right : Element) (span : Span) :
    Except CompileError Element := do
  match ← ctx.findOperator (.binary (.logical op)) left.type right.type span with
  | some c =>
    return .logical ⟨c.member.returns, span⟩ op (.operator (.ofCandidate c)) left right
  | none =>
    match builtinLogical? op left.type right.type with
    | some (plan, type) => return .logical ⟨type, span⟩ op plan left right
    | none => throw (ctx.binaryMismatch op.symbol left.type right.type span)

/-- The plan and result type of a unary operator without an overload. -/
def builtinUnary? (ctx : Context) (op : UnaryOp) (t : Ty) : Option (UnaryPlan × Ty) :=
  match op with
  | .not => if t.isBool then some (.not, Ty.bool) else none
  | .neg => do
    let k ← t.numericKind?
    let kind ← k.meet? .int32
    some (.negate kind (ctx.options.checked && kind.isIntegral) (.operand k kind),
      Ty.numeric kind)
  | .plus => do
    let k ← t.numericKind?
    some (.plus (.operand k k.promote), Ty.numeric k.promote)
  | .complement => do
    let k ← t.integralKind?
    some (.complement k.promote (.operand k k.promote), Ty.numeric k.promote)

/-- A unary node. -/
def unary (ctx : Context) (op : UnaryOp) (operand : Element) (span : Span) :
    Except CompileError Element := do
  match ← ctx.findUnaryOperator (.unary op) operand.type span with
  | some c => return .unary ⟨c.member.returns, span⟩ op (.operator (.ofCandidate c)) operand
  | none =>
    match ctx.builtinUnary? op operand.type with
    | some (plan, type) => return .unary ⟨type, span⟩ op plan operand
    | none =>
      throw (.mismatch (.unaryOperator op.symbol (ctx.typeName operand.type)) span)

end ExprCompiler.Context
