/-
# Descriptions of host types

Everything the compiler can learn about a host type: its name and static type,
its direct base and interfaces, its modifiers, what an array holds, what an enum
is made of, and which collections it implements.
-/
import ExprCompiler.Ty

namespace ExprCompiler

/-- Modifiers of a type. -/
structure TypeFlags where
  /-- No class may derive from the type. -/
  isSealed : Bool := false
  isAbstract : Bool := false
  /-- Copied by value. -/
  isValue : Bool := false
  isInterface : Bool := false
  deriving DecidableEq, Repr, Inhabited

namespace TypeFlags

def empty : TypeFlags := {}

/-- Every modifier of either. -/
def union (a b : TypeFlags) : TypeFlags where
  isSealed := a.isSealed || b.isSealed
  isAbstract := a.isAbstract || b.isAbstract
  isValue := a.isValue || b.isValue
  isInterface := a.isInterface || b.isInterface

/-- Modifiers by bit; bits past the fourth mean nothing. -/
def ofBits (bits : Nat) : TypeFlags where
  isSealed := bits.testBit 0
  isAbstract := bits.testBit 1
  isValue := bits.testBit 2
  isInterface := bits.testBit 3

def toBits (f : TypeFlags) : Nat :=
  f.isSealed.toNat + 2 * f.isAbstract.toNat + 4 * f.isValue.toNat + 8 * f.isInterface.toNat

end TypeFlags

/-- Collection interfaces that membership tests can use, best first. -/
inductive CollectionKind
  /-- Searched by key. -/
  | dictionary
  | collection
  | list
  deriving DecidableEq, Repr, Inhabited

namespace CollectionKind

def all : List CollectionKind := [dictionary, collection, list]

/-- The name of a kind. -/
def name : CollectionKind → String
  | dictionary => "dictionary"
  | collection => "collection"
  | list => "list"

/-- The kind called `name`. -/
def ofName? (name : String) : Option CollectionKind :=
  all.find? (fun k => k.name == name)

/-- Place in the order of preference. -/
def rank : CollectionKind → Nat
  | dictionary => 0
  | collection => 1
  | list => 2

/-- The method a membership test calls. -/
def searchMethod : CollectionKind → String
  | dictionary => "containsKey"
  | collection | list => "contains"

end CollectionKind

/-- A collection interface that a type implements. -/
structure CollectionInterface where
  kind : CollectionKind
  /-- The type of keys or elements. -/
  element : Ty
  /-- The search method. -/
  contains : HostId
  deriving DecidableEq, Repr, Inhabited

/-- The description of a host type. -/
structure TypeEntry where
  name : String
  type : Ty
  /-- Direct base class. -/
  base : Option HostId
  /-- Interfaces implemented, or extended by an interface, directly. -/
  interfaces : List HostId
  flags : TypeFlags
  /-- What an array holds. -/
  element : Option Ty
  /-- Number of dimensions of an array, zero otherwise. -/
  rank : Nat
  /-- The numeric kind an enum is made of. -/
  underlying : Option NumericKind
  collections : List CollectionInterface
  deriving DecidableEq, Repr, Inhabited

namespace TypeEntry

/-- The modifiers a type has by its kind. -/
def kindFlags (type : Ty) : TypeFlags :=
  if type.isValue then { isValue := true }
  else if type.isInterface then { isInterface := true }
  else .empty

/-- A description without relations. -/
def plain (name : String) (type : Ty) : TypeEntry where
  name := name
  type := type
  base := none
  interfaces := []
  flags := kindFlags type
  element := none
  rank := 0
  underlying := none
  collections := []

/-- The type's own identity. -/
def id (e : TypeEntry) : HostId := e.type.id

/-- What the type derives from directly: its base, then its interfaces. -/
def parents (e : TypeEntry) : List HostId :=
  e.base.toList ++ e.interfaces

/-- The same description with one more collection interface. -/
def addCollection (e : TypeEntry) (c : CollectionInterface) : TypeEntry :=
  { e with collections := e.collections ++ [c] }

/-- The same description with more modifiers. -/
def withFlags (e : TypeEntry) (flags : TypeFlags) : TypeEntry :=
  { e with flags := e.flags.union flags }

end TypeEntry

end ExprCompiler
