/-
# Registering host types

Every way a host can add to a registry, as a value of `Registration`, and what
performing it does.  Each is a computation on the registry that yields an answer
or an error, and the registry is what the computation leaves behind in either
case.
-/
import ExprCompiler.Host.Registry

namespace ExprCompiler

/-- Why a registration is refused. -/
inductive RegistrationError
  /-- A type that the registration needs is not there. -/
  | unknownType (type : String)
  /-- The name or the identity is taken. -/
  | duplicateType (name : String)
  /-- A member with this identity exists. -/
  | duplicateMember (name owner : String)
  deriving DecidableEq, Repr, Inhabited

/-- The wording of a refusal. -/
def RegistrationError.message : RegistrationError → String
  | .unknownType type => "type not found: " ++ type
  | .duplicateType name => "duplicate type: " ++ name
  | .duplicateMember name owner => "duplicate member: " ++ name ++ " on " ++ owner

/-- A request to add to a registry. -/
inductive Registration
  /-- All built-in types. -/
  | primitives
  /-- A type described in full. -/
  | type (entry : TypeEntry)
  /-- A reference class; without a base it derives from the root class. -/
  | refClass (name : String) (base : Option HostId) (interfaces : List HostId)
      (flags : TypeFlags)
  | struct (name : String)
  | interface (name : String) (parents : List HostId)
  | enum (name : String) (underlying : NumericKind)
  /-- The array type of an element type, found or made. -/
  | array (element : Ty) (rank : Nat)
  | member (m : Member)
  /-- A free function of a namespace. -/
  | function (space name : String) (params : List Ty) (returns : Ty)
  /-- A collection interface together with its search method. -/
  | collection (owner : HostId) (kind : CollectionKind) (element : Ty)
  deriving DecidableEq, Repr, Inhabited

/-- What a registration yields. -/
inductive Registered
  | nothing
  | type (t : Ty)
  | member (id : HostId)
  | collection (c : CollectionInterface)
  deriving DecidableEq, Repr, Inhabited

/-- A computation that changes a registry and may be refused. -/
abbrev Registering (α : Type) := ExceptT RegistrationError (StateM Registry) α

namespace Registry

/-! ## Built-in types -/

/-- The description of a built-in type: strings are sealed and derive from the
root class. -/
def builtinEntry (name : String) (type : Ty) : TypeEntry :=
  if type = Ty.string then
    { (TypeEntry.plain name type).withFlags { isSealed := true } with
      base := some Ty.object.id }
  else TypeEntry.plain name type

/-- The length of a string. -/
def stringLength : Member :=
  Member.property Ty.string.id "length" (Ty.numeric .int32)

/-- Registers the built-in types. -/
def registerPrimitives (r : Registry) : Registry :=
  let typed := Ty.builtins.foldl (fun r b => r.insertEntry (builtinEntry b.1 b.2)) r
  if typed.hasMember stringLength.id then typed else typed.insertMember stringLength

/-- The registry of the built-in types. -/
def withPrimitives : Registry := empty.registerPrimitives

/-! ## Types -/

/-- Registers a type under a fresh name and identity; its base and interfaces
have to be there. -/
def registerType (e : TypeEntry) : Registering Ty := do
  let r ← get
  if r.names.has e.name || r.has e.id then throw (.duplicateType e.name)
  else
    match e.parents.find? (fun p => !r.has p) with
    | some missing => throw (.unknownType missing.text)
    | none =>
      set (r.insertEntry e)
      return e.type

def classEntry (name : String) (base : Option HostId) (interfaces : List HostId)
    (flags : TypeFlags) : TypeEntry :=
  { (TypeEntry.plain name ⟨HostId.ofName name, .refClass⟩).withFlags flags with
    base := some (base.getD Ty.object.id)
    interfaces := interfaces }

def structEntry (name : String) : TypeEntry :=
  (TypeEntry.plain name ⟨HostId.ofName name, .struct⟩).withFlags { isSealed := true }

def interfaceEntry (name : String) (parents : List HostId) : TypeEntry :=
  { TypeEntry.plain name ⟨HostId.ofName name, .interface⟩ with interfaces := parents }

def enumEntry (name : String) (underlying : NumericKind) : TypeEntry :=
  { (TypeEntry.plain name ⟨HostId.ofName name, .enum⟩).withFlags { isSealed := true } with
    underlying := some underlying }

/-- The name of an array type: a comma for each dimension after the first. -/
def arrayName (elementName : String) (rank : Nat) : String :=
  elementName ++ "[" ++ String.ofList (List.replicate (rank - 1) ',') ++ "]"

def arrayEntry (name : String) (element : Ty) (rank : Nat) : TypeEntry :=
  { TypeEntry.plain name ⟨HostId.ofName name, .array⟩ with
    base := some Ty.object.id
    element := some element
    rank := max rank 1 }

/-- The array type of `element`: the one registered under its name, or else a
new one. -/
def arrayOf (element : Ty) (rank : Nat) : Registering Ty := do
  let r ← get
  let elementName := r.typeName element.id
  let name := arrayName elementName rank
  match r.entryNamed? name with
  | some e => return e.type
  | none =>
    if r.has element.id then registerType (arrayEntry name element rank)
    else throw (.unknownType elementName)

/-! ## Members -/

/-- Adds a member to its owner. -/
def registerMember (m : Member) : Registering HostId := do
  let r ← get
  match r.entry? m.owner with
  | none => throw (.unknownType m.owner.text)
  | some owner =>
    if r.hasMember m.id then throw (.duplicateMember m.name owner.name)
    else
      set (r.insertMember m)
      return m.id

/-- Adds a free function to a namespace. -/
def registerFunction (space name : String) (params : List Ty) (returns : Ty) :
    Registering HostId := do
  let m := Member.free space name params returns
  let r ← get
  if r.hasMember m.id then throw (.duplicateMember name space)
  else
    set (r.insertFunction space m)
    return m.id

/-- Lets a type implement a collection interface: adds the search method and
notes the interface. -/
def implementCollection (owner : HostId) (kind : CollectionKind) (element : Ty) :
    Registering CollectionInterface := do
  let contains ← registerMember (Member.method owner kind.searchMethod [element] Ty.bool)
  let c : CollectionInterface := ⟨kind, element, contains⟩
  modify (·.updateEntry owner (·.addCollection c))
  return c

/-! ## All registrations -/

/-- Performs a registration. -/
def perform : Registration → Registering Registered
  | .primitives => do
    modify registerPrimitives
    return .nothing
  | .type e => .type <$> registerType e
  | .refClass name base interfaces flags =>
    .type <$> registerType (classEntry name base interfaces flags)
  | .struct name => .type <$> registerType (structEntry name)
  | .interface name parents => .type <$> registerType (interfaceEntry name parents)
  | .enum name underlying => .type <$> registerType (enumEntry name underlying)
  | .array element rank => .type <$> arrayOf element rank
  | .member m => .member <$> registerMember m
  | .function space name params returns => .member <$> registerFunction space name params returns
  | .collection owner kind element => .collection <$> implementCollection owner kind element

/-- The registry that a registration leaves behind, accepted or refused. -/
def after (r : Registry) (reg : Registration) : Registry :=
  ((perform reg).run r).2

/-- The registry and the answer of a registration, unless it is refused. -/
def register (r : Registry) (reg : Registration) :
    Except RegistrationError (Registry × Registered) :=
  match (perform reg).run r with
  | (.ok answer, r') => .ok (r', answer)
  | (.error e, _) => .error e

end Registry

end ExprCompiler
