/-
# Membership tests

A value is looked for in a list of items, each compared by its own plan, or in a
collection, through the collection interface of its type.
-/
import ExprCompiler.Tree.Comparison

namespace ExprCompiler.Context

/-- How a probe is compared with an item of a list.  An item of a wrong type is
reported as such, at its own place. -/
def itemPlan (ctx : Context) (probe item : Element) :
    Except CompileError (ComparePlan × Element) :=
  match ctx.comparePlan .eq probe.type item.type item.span with
  | .ok plan => .ok (plan, item)
  | .error (.mismatch _ _) =>
    .error (.mismatch (.listItem (ctx.typeName item.type) (ctx.typeName probe.type)) item.span)
  | .error e => .error e

/-- A test against a list of items. -/
def inList (ctx : Context) (probe : Element) (items : List Element) (span : Span) :
    Except CompileError Element := do
  let plans ← items.mapM (ctx.itemPlan probe)
  return .inList ⟨Ty.bool, span⟩ probe plans

/-- A test against a collection. -/
def inCollection (ctx : Context) (probe collection : Element) (span : Span) :
    Except CompileError Element :=
  match ctx.registry.collectionInterface? collection.type.id with
  | none =>
    .error (.mismatch (.notCollection (ctx.typeName collection.type)) collection.span)
  | some interface =>
    match ctx.conversion? probe.type interface.element with
    | none =>
      .error (.mismatch
        (.notSearchable (ctx.typeName probe.type) (ctx.typeName interface.element))
        probe.span)
    | some c =>
      .ok (.inCollection ⟨Ty.bool, span⟩ c interface.contains probe collection)

end ExprCompiler.Context
