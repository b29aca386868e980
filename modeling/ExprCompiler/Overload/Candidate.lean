/-
# Scoring candidates

A member fits a list of arguments if every argument converts implicitly to the
parameter at its place.  Its score is the average cost of those conversions, as
a single-precision number.

A member with a trailing parameter array has two forms: the arguments past the
fixed parameters are the elements (the expanded form, at a penalty), or a single
one is the array itself.  The expanded form is used only if it is strictly
cheaper or the direct one does not fit.
-/
import ExprCompiler.Conversion.Implicit

namespace ExprCompiler

/-- A member that fits, with one conversion for each argument. -/
structure Candidate where
  member : Member
  conversions : List Conversion
  score : Single
  /-- Whether a parameter array is spelled out element by element. -/
  expanded : Bool
  deriving DecidableEq, Repr, Inhabited

namespace Candidate

/-- What spelling out a parameter array costs on top of the average. -/
def expansionPenalty : Single := .ofNat 1000

/-- The average cost, zero if there are no arguments. -/
def averageCost (conversions : List Conversion) : Single :=
  if conversions.isEmpty then .zero
  else
    conversions.foldl (fun total c => total + Single.ofNat c.cost) .zero
      / Single.ofNat conversions.length

/-- The score of a form. -/
def formScore (conversions : List Conversion) (expanded : Bool) : Single :=
  let average := averageCost conversions
  if expanded then average + expansionPenalty else average

end Candidate

namespace Context

/-- The conversions of the arguments to parameter types, place by place; there
have to be as many of each. -/
def convertAll? (ctx : Context) : List Ty → List Ty → Option (List Conversion)
  | [], [] => some []
  | a :: args, p :: params => do
    let c ← ctx.conversion? a p
    let rest ← ctx.convertAll? args params
    some (c :: rest)
  | _, _ => none

/-- A member in one form, given by its parameter types. -/
def scoreForm? (ctx : Context) (m : Member) (args params : List Ty) (expanded : Bool) :
    Option Candidate :=
  (ctx.convertAll? args params).map (fun conversions =>
    { member := m, conversions, expanded
      score := Candidate.formScore conversions expanded })

/-- The form that spells a parameter array out. -/
def expandedForm? (ctx : Context) (m : Member) (element : Ty) (args : List Ty) :
    Option Candidate :=
  if args.length < m.params.length then none
  else
    let extra := List.replicate (args.length - m.params.length) element
    ctx.scoreForm? m args (m.params ++ extra) true

/-- The form that passes a parameter array as one argument. -/
def arrayForm? (ctx : Context) (m : Member) (element : Ty) (args : List Ty) :
    Option Candidate :=
  ctx.scoreForm? m args (m.params ++ [ctx.arrayType element]) false

/-- A member as a candidate for a list of arguments. -/
def candidate? (ctx : Context) (m : Member) (args : List Ty) : Option Candidate :=
  match m.variadic with
  | none => ctx.scoreForm? m args m.params false
  | some element =>
    match ctx.arrayForm? m element args, ctx.expandedForm? m element args with
    | some direct, some expanded =>
      if expanded.score < direct.score then some expanded else some direct
    | some direct, none => some direct
    | none, expanded => expanded

/-- A member's signature in messages. -/
def describeMember (ctx : Context) (m : Member) : String :=
  let fixed := m.params.map ctx.typeName
  let trailing := match m.variadic with
    | some element => ["params " ++ ctx.typeName element ++ "[]"]
    | none => []
  m.name ++ "(" ++ String.intercalate ", " (fixed ++ trailing) ++ ")"

end Context

end ExprCompiler
