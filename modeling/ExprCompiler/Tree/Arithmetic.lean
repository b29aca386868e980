/-
# Arithmetic nodes

An overload comes first.  Without one, numbers meet in one kind, `+` with a
string on either side joins texts, and a power with a literal exponent is
unrolled in the kind of its base.
-/
import ExprCompiler.Tree.Element

namespace ExprCompiler

/-- How an operand of a join of texts becomes an object; strings stay strings. -/
def Conversion.toText (t : Ty) : Conversion :=
  if t.isString then .identity
  else if t.isValue then .boxing t
  else if t.isNull then .nullReference
  else .upcast Ty.object Conversion.stepCost

namespace Context

/-- A power of two numbers. -/
def power (ctx : Context) (left right : Element) (span : Span) :
    Except CompileError Element :=
  match left.type.numericKind?, right.type.numericKind? with
  | some base, some exponent =>
    match right.nonNegativeInt? with
    | some n =>
      let plan := .powerUnrolled n base (ctx.options.checked && base.isIntegral)
      .ok (.arithmetic ⟨left.type, span⟩ .pow plan left right)
    | none =>
      let plan := .powerCall (.operand base .float64) (.operand exponent .float64)
      .ok (.arithmetic ⟨Ty.numeric .float64, span⟩ .pow plan left right)
  | _, _ =>
    .error (ctx.binaryMismatch ArithmeticOp.pow.symbol left.type right.type span)

/-- A join of texts, at least one of them a string. -/
def concat (ctx : Context) (left right : Element) (span : Span) :
    Except CompileError Element :=
  let (l, r) := (left.type, right.type)
  if l.isVoid || r.isVoid then
    .error (ctx.binaryMismatch ArithmeticOp.add.symbol l r span)
  else
    let helper :=
      if l.isString && r.isString then Helper.stringConcat else Helper.stringConcatObject
    let plan := .concat helper (.toText l) (.toText r)
    .ok (.arithmetic ⟨Ty.string, span⟩ .add plan left right)

/-- The plan of arithmetic on two numbers that meet in `kind`. -/
def numericPlan (ctx : Context) (kind left right : NumericKind) : ArithmeticPlan :=
  .numeric kind (ctx.options.checked && kind.isIntegral)
    (left.isUnsigned && right.isUnsigned) (.operand left kind) (.operand right kind)

/-- Arithmetic without an overload, powers apart. -/
def builtinArithmetic (ctx : Context) (op : ArithmeticOp) (left right : Element)
    (span : Span) : Except CompileError Element :=
  let (l, r) := (left.type, right.type)
  match l.numericKind?, r.numericKind? with
  | some a, some b =>
    match a.meet? b with
    | some kind =>
      .ok (.arithmetic ⟨Ty.numeric kind, span⟩ op (ctx.numericPlan kind a b) left right)
    | none => .error (ctx.binaryMismatch op.symbol l r span)
  | _, _ =>
    if op = .add && (l.isString || r.isString) then ctx.concat left right span
    else .error (ctx.binaryMismatch op.symbol l r span)

/-- An arithmetic node. -/
def arithmetic (ctx : Context) (op : ArithmeticOp) (left right : Element) (span : Span) :
    Except CompileError Element := do
  match ← ctx.findOperator (.binary (.arithmetic op)) left.type right.type span with
  | some c =>
    return .arithmetic ⟨c.member.returns, span⟩ op (.operator (.ofCandidate c)) left right
  | none =>
    if op = .pow then ctx.power left right span
    else ctx.builtinArithmetic op left right span

end Context

end ExprCompiler
