/-
# Explicit casts

A cast is whatever converts implicitly, any change of numeric kind (enums count
as what they are made of), a conversion member, a checked downcast, or taking a
value out of its box, in this order.
-/
import ExprCompiler.Conversion.Implicit

namespace ExprCompiler

/-- How a cast is done. -/
inductive CastPlan
  | identity
  | implicit (conversion : Conversion)
  /-- A numeric change of kind, which traps on overflow if checked. -/
  | numeric (source target : NumericKind) (checked : Bool)
  | user (method : HostId)
  /-- A reference checked against a class at run time. -/
  | castClass (target : HostId)
  | unbox (target : HostId)
  deriving DecidableEq, Repr, Inhabited

namespace Context

/-- The numeric kind of a numeric type, or what an enum is made of. -/
def numericView? (ctx : Context) (t : Ty) : Option NumericKind :=
  if t.isEnum then (ctx.entry? t.id).bind (·.underlying) else t.numericKind?

/-- Whether a boxed value of type `target` can be found behind `source`. -/
def canUnbox (ctx : Context) (source target : Ty) : Bool :=
  source.isObject || (source.isInterface && ctx.registry.implements target.id source.id)

/-- The cast between references or out of a box. -/
def referenceCast? (ctx : Context) (source target : Ty) : Option CastPlan :=
  if source.isReference && target.isReference && ctx.registry.isDowncast source target then
    some (.castClass target.id)
  else if target.isValue && ctx.canUnbox source target then some (.unbox target.id)
  else none

/-- The cast between two numeric views; kinds made of the same bits need none. -/
def numericCast (ctx : Context) (source target : NumericKind) : CastPlan :=
  if source = target then .identity else .numeric source target ctx.options.checked

/-- The plan of a cast. -/
def castPlan (ctx : Context) (source target : Ty) (span : Span) :
    Except CompileError CastPlan :=
  if source = target then .ok .identity
  else
    match ctx.conversion? source target with
    | some c => .ok (.implicit c)
    | none =>
      match ctx.numericView? source, ctx.numericView? target with
      | some s, some t => .ok (ctx.numericCast s t)
      | _, _ =>
        match ctx.explicitConversion? source target span with
        | .error e => .error e
        | .ok (some m) => .ok (.user m.id)
        | .ok none =>
          match ctx.referenceCast? source target with
          | some plan => .ok plan
          | none => .error (.invalidCast (ctx.typeName source) (ctx.typeName target) span)

end Context

end ExprCompiler
