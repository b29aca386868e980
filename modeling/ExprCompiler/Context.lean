/-
# What a compilation can see

A registry to look things up in, and the options of the compilation.
-/
import ExprCompiler.Error
import ExprCompiler.Host.Registry

namespace ExprCompiler

/-- How strings are compared. -/
inductive StringComparison
  | ordinal
  | ordinalIgnoreCase
  | culture
  | cultureIgnoreCase
  deriving DecidableEq, Repr, Inhabited

namespace StringComparison

def all : List StringComparison := [ordinal, ordinalIgnoreCase, culture, cultureIgnoreCase]

/-- The number a comparison mode has at run time. -/
def code : StringComparison → Nat
  | ordinal => 0
  | ordinalIgnoreCase => 1
  | culture => 2
  | cultureIgnoreCase => 3

/-- The name of a comparison mode. -/
def name : StringComparison → String
  | ordinal => "ordinal"
  | ordinalIgnoreCase => "ordinal_ignore_case"
  | culture => "culture"
  | cultureIgnoreCase => "culture_ignore_case"

/-- The comparison mode called `name`. -/
def ofName? (name : String) : Option StringComparison :=
  all.find? (fun m => m.name == name)

end StringComparison

/-- Options of a compilation. -/
structure Options where
  /-- Integer arithmetic and narrowing trap on overflow. -/
  checked : Bool := false
  stringComparison : StringComparison := .ordinal
  /-- The type whose members can be used without a target. -/
  owner : Option HostId := none
  /-- Names match regardless of ASCII case. -/
  ignoreCase : Bool := false
  /-- The kind of real literals: singles if it is the kind of singles. -/
  realLiteral : NumericKind := .float64
  /-- Integer literals are doubles. -/
  integersAsDoubles : Bool := false
  deriving DecidableEq, Repr, Inhabited

/-- A registry and the options of a compilation. -/
structure Context where
  registry : Registry
  options : Options
  deriving DecidableEq, Repr, Inhabited

namespace Context

/-- The description of a type. -/
def entry? (ctx : Context) (id : HostId) : Option TypeEntry :=
  ctx.registry.entry? id

/-- The name of a type in messages: built-in kinds have fixed names. -/
def typeName (ctx : Context) (t : Ty) : String :=
  match t.kind with
  | .enum | .struct | .refClass | .interface | .array => ctx.registry.typeName t.id
  | _ => t.text

/-- The one-dimensional array type of an element type, registered or not. -/
def arrayType (ctx : Context) (element : Ty) : Ty :=
  ⟨HostId.ofName (ctx.registry.typeName element.id ++ "[]"), .array⟩

/-- The members of a type under a name. -/
def membersOf (ctx : Context) (id : HostId) (name : String) : List Member :=
  ctx.registry.resolve name (.type id) ctx.options.ignoreCase

/-- The members a name without a target stands for: those of the owner, if
there are any, else global functions. -/
def bareMembers (ctx : Context) (name : String) : List Member :=
  let owned := match ctx.options.owner with
    | some owner => ctx.membersOf owner name
    | none => []
  if owned.isEmpty then ctx.registry.resolve name (.space "") ctx.options.ignoreCase
  else owned

/-- Where names without a target are looked up, in messages. -/
def bareScopeName (ctx : Context) : String :=
  match ctx.options.owner with
  | some owner => ctx.registry.typeName owner
  | none => "the global namespace"

/-- A binary operator on operands it is not defined for. -/
def binaryMismatch (ctx : Context) (symbol : String) (left right : Ty) (span : Span) :
    CompileError :=
  .mismatch (.binaryOperator symbol (ctx.typeName left) (ctx.typeName right)) span

end Context

end ExprCompiler
