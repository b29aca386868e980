/-
# Member nodes

A name after a target is looked up on the target's type, a name on its own on the
owner and then among global functions.  Without arguments the first field or
property is read; with arguments the methods compete as overloads.
-/
import ExprCompiler.Tree.Element

namespace ExprCompiler.Context

/-- What a member of an optional target belongs to. -/
def receiverOf (m : Member) (target : Option Element) : Receiver Element :=
  if m.isStatic then .static
  else
    match target with
    | some e => .target e
    | none => .owner

/-- A node that reads a field or property. -/
def readMember (m : Member) (target : Option Element) (span : Span) : Element :=
  let access := if m.kind = .property then ValueAccess.property else .field
  .read ⟨m.returns, span⟩ access m.id (receiverOf m target)

/-- The members under a name, and where they were looked for, in messages. -/
def lookUp (ctx : Context) (name : String) (target : Option Element) : List Member × String :=
  match target with
  | some e => (ctx.membersOf e.type.id name, quoteName (ctx.typeName e.type))
  | none => (ctx.bareMembers name, ctx.bareScopeName)

/-- A node that calls one of the methods among the members under a name. -/
def callMember (ctx : Context) (name : String) (members : List Member)
    (target : Option Element) (args : List Element) (span : Span) :
    Except CompileError Element :=
  match members.filter (fun m => m.kind == .method) with
  | [] => .error (.mismatch (.notMethod name) span)
  | methods => do
    let c ← ctx.resolveOverload name methods (args.map (·.type)) span
    return .call ⟨c.member.returns, span⟩ (.ofCandidate c) (receiverOf c.member target) args

/-- A member node. -/
def member (ctx : Context) (name : String) (target : Option Element) (args : List Element)
    (isCall : Bool) (span : Span) : Except CompileError Element :=
  match ctx.lookUp name target with
  | ([], scope) => .error (.undefined name scope span)
  | (members, _) =>
    if isCall then ctx.callMember name members target args span
    else
      match members.find? (·.isValue) with
      | some m => .ok (readMember m target span)
      | none => .error (.mismatch (.mustBeCalled name) span)

end ExprCompiler.Context
