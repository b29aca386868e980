/-
# The registry of host types

A registry is five stores: type descriptions by identity, an index from names to
identities, members by owner and free functions by namespace, both in the order
they were registered, and the identities that members and functions have taken.
This module has the stores themselves and the walks over them:

* `lineage` lists a type and everything it derives from, breadth first;
* `implements` looks for an interface among them, depth first;
* `baseChain` follows base classes only;
* `resolve` finds the members under a name.

The walks are bounded by the size of the store, which is enough: no walk looks at
an identity twice, and every identity after the first is mentioned by an entry.
-/
import ExprCompiler.Host.Member
import ExprCompiler.Host.Table
import ExprCompiler.Host.TypeEntry

namespace ExprCompiler

/-- Where a name is looked up. -/
inductive Scope
  /-- On a type and what it derives from. -/
  | type (id : HostId)
  /-- Among the free functions of a namespace. -/
  | space (name : String)
  deriving DecidableEq, Repr, Inhabited

/-- Host types, members and free functions. -/
structure Registry where
  /-- Descriptions by identity. -/
  types : Table HostId TypeEntry
  /-- Identities by name. -/
  names : Table String HostId
  /-- Members by owner. -/
  memberTable : Table HostId (List Member)
  /-- Free functions by namespace. -/
  functionTable : Table String (List Member)
  /-- The identities of all members and functions. -/
  memberIds : List HostId
  deriving DecidableEq, Repr, Inhabited

namespace Registry

def empty : Registry := ⟨.empty, .empty, .empty, .empty, []⟩

/-! ## Look-up -/

/-- The description of a type. -/
def entry? (r : Registry) (id : HostId) : Option TypeEntry :=
  r.types.find? id

/-- Whether a type is registered. -/
def has (r : Registry) (id : HostId) : Bool :=
  r.types.has id

/-- The description of the type a name stands for. -/
def entryNamed? (r : Registry) (name : String) : Option TypeEntry :=
  (r.names.find? name).bind r.entry?

/-- The name of a type, or the text of its identity if it is not registered. -/
def typeName (r : Registry) (id : HostId) : String :=
  match r.entry? id with
  | some e => e.name
  | none => id.text

/-- How many types are registered. -/
def typeCount (r : Registry) : Nat := r.types.size

/-- The names of all registered types, in order of their characters. -/
def typeNames (r : Registry) : List String :=
  (r.types.values.map (·.name)).mergeSort (fun a b => !(b < a))

/-- Whether a member or function has this identity. -/
def hasMember (r : Registry) (id : HostId) : Bool :=
  r.memberIds.contains id

/-- The members declared on a type, in the order they were registered. -/
def declared (r : Registry) (owner : HostId) : List Member :=
  r.memberTable.items owner

/-- The free functions of a namespace, in the order they were registered. -/
def declaredIn (r : Registry) (space : String) : List Member :=
  r.functionTable.items space

/-- All members of types. -/
def members (r : Registry) : List Member :=
  r.memberTable.listed.map (·.2)

/-- All free functions, each with its namespace. -/
def functions (r : Registry) : List (String × Member) :=
  r.functionTable.listed

/-- A member is stored if some type declares it. -/
theorem mem_members_iff {r : Registry} {m : Member} :
    m ∈ r.members ↔ ∃ owner, m ∈ r.declared owner := by
  simp only [members, declared, List.mem_map, Prod.exists, exists_eq_right,
    Table.mem_listed_iff]

/-- A function is stored with a namespace if it is declared there. -/
theorem mem_functions_iff {r : Registry} {space : String} {m : Member} :
    (space, m) ∈ r.functions ↔ m ∈ r.declaredIn space :=
  Table.mem_listed_iff

/-! ## Store -/

/-- Puts a description under its identity and name, in place of what was there. -/
def insertEntry (r : Registry) (e : TypeEntry) : Registry :=
  { r with
    names := r.names.put e.name e.id
    types := r.types.put e.id e }

/-- Changes the description of one type. -/
def updateEntry (r : Registry) (id : HostId) (change : TypeEntry → TypeEntry) : Registry :=
  { r with types := r.types.adjust id change }

/-- Adds a member to its owner, and takes its identity. -/
def insertMember (r : Registry) (m : Member) : Registry :=
  { r with
    memberIds := m.id :: r.memberIds
    memberTable := r.memberTable.push m.owner m }

/-- Adds a free function to a namespace, and takes its identity. -/
def insertFunction (r : Registry) (space : String) (m : Member) : Registry :=
  { r with
    memberIds := m.id :: r.memberIds
    functionTable := r.functionTable.push space m }

/-! ## Ancestors -/

/-- What a type derives from directly. -/
def parents (r : Registry) (id : HostId) : List HostId :=
  match r.entry? id with
  | some e => e.parents
  | none => []

/-- One walk over the ancestors: `done` is listed already, `pending` waits in
line, and `fuel` bounds the steps left. -/
def lineageFrom (r : Registry) : Nat → List HostId → List HostId → List HostId
  | 0, done, pending => done ++ pending
  | _ + 1, done, [] => done
  | fuel + 1, done, id :: pending =>
    let seen := done ++ id :: pending
    let fresh := ((r.parents id).filter (fun p => !seen.contains p)).eraseDups
    r.lineageFrom fuel (done ++ [id]) (pending ++ fresh)

/-- How many times entries mention another type. -/
def edgeCount (r : Registry) : Nat :=
  (r.types.values.flatMap TypeEntry.parents).length

/-- A type and its ancestors, nearest first. -/
def lineage (r : Registry) (id : HostId) : List HostId :=
  r.lineageFrom (r.edgeCount + 1) [] [id]

/-- The base class of a type. -/
def base? (r : Registry) (id : HostId) : Option HostId :=
  (r.entry? id).bind (·.base)

/-- At most `fuel` steps along the base classes. -/
def baseChainFrom (r : Registry) : Nat → HostId → List HostId
  | 0, _ => []
  | fuel + 1, id =>
    id :: match r.base? id with
      | some base => r.baseChainFrom fuel base
      | none => []

/-- A type, its base, the base of that, and so on. -/
def baseChain (r : Registry) (id : HostId) : List HostId :=
  r.baseChainFrom (r.typeCount + 1) id

/-- How many base-class steps lead from one type to another. -/
def inheritanceDistance? (r : Registry) (derived base : HostId) : Option Nat :=
  (r.baseChain derived).idxOf? base

/-- One search for a type that lists an interface: `seen` has been looked at,
`pending` waits and may name a type more than once, what came last is taken first,
and `fuel` bounds the steps left.  Without an answer within so many steps there is
none. -/
def implementsFrom (r : Registry) (interface : HostId) :
    Nat → List HostId → List HostId → Option Bool
  | _, _, [] => some false
  | 0, _, _ :: _ => none
  | fuel + 1, seen, id :: pending =>
    if seen.contains id then r.implementsFrom interface fuel seen pending
    else
      match r.entry? id with
      | none => r.implementsFrom interface fuel (id :: seen) pending
      | some e =>
        if e.interfaces.contains interface then some true
        else r.implementsFrom interface fuel (id :: seen)
          (e.base.toList ++ e.interfaces.reverse ++ pending)

/-- Whether an interface is listed by a type or by anything it derives from. -/
def implements (r : Registry) (id interface : HostId) : Bool :=
  (r.implementsFrom interface (r.edgeCount + 1) [] [id]).getD false

/-- The better of two collection interfaces, the first of two equally good. -/
def betterCollection (best : Option CollectionInterface) (c : CollectionInterface) :
    Option CollectionInterface :=
  match best with
  | none => some c
  | some b => if c.kind.rank < b.kind.rank then some c else some b

/-- The preferred collection interface along the base chain, the nearest and
first declared of its kind. -/
def collectionInterface? (r : Registry) (id : HostId) : Option CollectionInterface :=
  (((r.baseChain id).filterMap r.entry?).flatMap (·.collections)).foldl betterCollection none

/-! ## Members by name -/

/-- A name with ASCII letters in lower case. -/
def foldCase (name : String) : String :=
  name.map Char.toLower

/-- Whether a member's name answers to `name`. -/
def nameMatches (ignoreCase : Bool) (name candidate : String) : Bool :=
  if ignoreCase then foldCase candidate == foldCase name else candidate == name

/-- Every member visible under `name` in a scope: on a type, those of nearer
ancestors first, and those of one type in the order they were registered. -/
def resolve (r : Registry) (name : String) (scope : Scope) (ignoreCase : Bool) : List Member :=
  match scope with
  | .type id =>
    ((r.lineage id).flatMap r.declared).filter (fun m => nameMatches ignoreCase name m.name)
  | .space space =>
    (r.declaredIn space).filter (fun m => nameMatches ignoreCase name m.name)

end Registry

end ExprCompiler
