/-
# Members of host types

Fields, properties, methods, operators and conversions are all members; the
last two are static members under conventional names.  A member's identity is
fixed by owner, name and parameter types.  Conversions of one owner differ only
in what they yield, so the result type is part of theirs.
-/
import ExprCompiler.Ty

namespace ExprCompiler

/-- What a member is. -/
inductive MemberKind
  | field
  | property
  | method
  /-- A static operator; its parameters are the operands in order. -/
  | operator
  /-- A static conversion of its only parameter. -/
  | conversion (implicit : Bool)
  deriving DecidableEq, Repr, Inhabited

/-- The name of a kind. -/
def MemberKind.name : MemberKind → String
  | field => "field"
  | property => "property"
  | method => "method"
  | operator => "operator"
  | conversion _ => "conversion"

/-- A member of a host type, or a free function. -/
structure Member where
  name : String
  id : HostId
  owner : HostId
  kind : MemberKind
  /-- Fixed parameters. -/
  params : List Ty
  /-- Element type of a trailing parameter array. -/
  variadic : Option Ty
  /-- What reading or calling the member yields. -/
  returns : Ty
  isStatic : Bool
  deriving DecidableEq, Repr, Inhabited

namespace Member

/-- The name of implicit conversions. -/
def implicitName : String := "opImplConv"

/-- The name of explicit conversions. -/
def explicitName : String := "opConv"

/-- A member whose identity follows from its signature. -/
def ofSignature (owner : HostId) (name : String) (kind : MemberKind) (params : List Ty)
    (returns : Ty) (isStatic : Bool) : Member :=
  { name, owner, kind, params, returns, isStatic
    id := HostId.ofMember owner name (params.map (·.id))
    variadic := none }

def field (owner : HostId) (name : String) (type : Ty) : Member :=
  ofSignature owner name .field [] type false

def property (owner : HostId) (name : String) (type : Ty) : Member :=
  ofSignature owner name .property [] type false

/-- A method called on an instance. -/
def method (owner : HostId) (name : String) (params : List Ty) (returns : Ty) : Member :=
  ofSignature owner name .method params returns false

/-- A static method. -/
def function (owner : HostId) (name : String) (params : List Ty) (returns : Ty) : Member :=
  ofSignature owner name .method params returns true

def operator (owner : HostId) (name : String) (params : List Ty) (returns : Ty) : Member :=
  ofSignature owner name .operator params returns true

/-- A conversion declared on `owner`. -/
def conversion (owner : HostId) (source target : Ty) (implicit : Bool) : Member :=
  let name := if implicit then implicitName else explicitName
  { ofSignature owner name (.conversion implicit) [source] target true with
    id := HostId.ofMember owner name [source.id, target.id] }

/-- A free function of a namespace; the empty namespace is the global one. -/
def free (space name : String) (params : List Ty) (returns : Ty) : Member :=
  let qualified := if space.isEmpty then name else space ++ "::" ++ name
  { function HostId.zero name params returns with
    id := HostId.ofFunction qualified (params.map (·.id)) }

/-- Whether the member is called rather than read. -/
def isCallable (m : Member) : Bool :=
  match m.kind with
  | .field | .property => false
  | _ => true

/-- Whether the member is read rather than called. -/
def isValue (m : Member) : Bool := !m.isCallable

end Member

end ExprCompiler
