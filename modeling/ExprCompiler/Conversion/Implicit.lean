/-
# Implicit conversions

Identity first, then the numeric ladder, then references, then members.  Between
two numeric types only the ladder counts.

A conversion member applies if it takes exactly the source type and yields
exactly the target type.  Both types are asked, the source first; a member seen
through both counts once.
-/
import ExprCompiler.Conversion.Reference

namespace ExprCompiler.Context

/-! ## Conversions declared by host types -/

/-- Members without repetition of an identity, the first of each kept. -/
def distinctMembers (members : List Member) : List Member :=
  members.foldl
    (fun found m => if found.any (fun f => f.id == m.id) then found else found ++ [m]) []

/-- Whether a member converts exactly `source` to `target`. -/
def convertsExactly (source target : Ty) (m : Member) : Bool :=
  match m.kind with
  | .conversion _ => m.params == [source] && m.returns == target
  | _ => false

/-- The conversion members under a name from one type to another. -/
def conversionsNamed (ctx : Context) (name : String) (source target : Ty) : List Member :=
  let owners := if source.id = target.id then [source.id] else [source.id, target.id]
  distinctMembers
    ((owners.flatMap (fun owner => ctx.membersOf owner name)).filter
      (convertsExactly source target))

/-- The first implicit conversion member. -/
def userConversion? (ctx : Context) (source target : Ty) : Option Member :=
  (ctx.conversionsNamed Member.implicitName source target).head?

/-- A member with its owner in front. -/
def ownedName (ctx : Context) (m : Member) : String :=
  ctx.registry.typeName m.owner ++ "::" ++ m.name

/-- The only conversion member a cast can use, explicit or implicit; two of them
are one too many. -/
def explicitConversion? (ctx : Context) (source target : Ty) (span : Span) :
    Except CompileError (Option Member) :=
  match ctx.conversionsNamed Member.explicitName source target
      ++ ctx.conversionsNamed Member.implicitName source target with
  | [] => .ok none
  | [only] => .ok (some only)
  | first :: second :: _ =>
    .error (.ambiguous
      (.conversion (ctx.typeName source) (ctx.typeName target)
        (ctx.ownedName first) (ctx.ownedName second)) span)

/-! ## Between any two types -/

/-- The implicit conversion of one type to another. -/
def conversion? (ctx : Context) (source target : Ty) : Option Conversion :=
  if source = target then some .identity
  else
    match source.numericKind?, target.numericKind? with
    | some s, some t => Conversion.widening? s t
    | _, _ =>
      match ctx.registry.referenceConversion? source target with
      | some c => some c
      | none => (ctx.userConversion? source target).map .user

/-- Whether one type converts to another without a cast. -/
def converts (ctx : Context) (source target : Ty) : Bool :=
  (ctx.conversion? source target).isSome

end ExprCompiler.Context
