/-
# Identities of host entities

A host and the compiler share no registration order, so everything they both
name (types, members, free functions, runtime helpers) is named by a 64-bit
identity computed from names and signatures.  Each sort of entity starts from
its own seed, so equal names of different sorts differ.

`mixParams` folds a parameter list into a seed.  Every step multiplies by an
odd constant and adds a word that depends on position and parameter, which
makes it injective in the seed and in each single parameter.
-/
import ExprCompiler.Digest.Xxh64
import ExprCompiler.Text

namespace ExprCompiler

/-- The identity of a type, a member, a free function or a runtime helper. -/
structure HostId where
  value : UInt64
  deriving DecidableEq, Hashable, Repr, Inhabited

namespace HostId

/-- No entity: the owner of a free function. -/
def zero : HostId := ⟨0⟩

def isZero (id : HostId) : Bool := id.value == 0

/-! ## Seeds and markers -/

def typeSeed : UInt64 := 0x2fac10b63a6cc57c
def functionSeed : UInt64 := 0x5ea77ffbcdf5f302
def memberSeed : UInt64 := 0x7d3c8b4a92e15f6d
def helperSeed : UInt64 := 0x3e9f5d2a8c7b1403

/-- The odd factor between two parameters. -/
def mixFactor : UInt64 := 0x4bc94d6bd06053ad

/-- Markers of the first eight parameter positions. -/
def positionMarkers : List UInt64 :=
  [0x9e3779b97f4a7c15, 0xbf58476d1ce4e5b9, 0x94d049bb133111eb, 0xd6e8feb86659fd93,
   0xe7037ed1a0b428db, 0xc6a4a7935bd1e995, 0x8648dbbc94d49b8d, 0xa2b48b2c69e0d657]

/-- The marker of position `i`; positions past the table count on from its
first entry. -/
def positionMarker (i : Nat) : UInt64 :=
  (positionMarkers[i]?).getD (0x9e3779b97f4a7c15 + i.toUInt64)

/-- Folds the parameters into `seed`, the first of them at position `i`. -/
def mixFrom (i : Nat) (seed : UInt64) : List HostId → UInt64
  | [] => seed
  | p :: ps => mixFrom (i + 1) (seed * mixFactor + (positionMarker i ^^^ p.value)) ps

/-- Folds a whole parameter list into `seed`. -/
def mixParams (seed : UInt64) (params : List HostId) : UInt64 :=
  mixFrom 0 seed params

/-! ## The four sorts of identity -/

/-- The identity of the type called `name`. -/
def ofName (name : String) : HostId :=
  ⟨typeSeed ^^^ Digest.xxh64 name⟩

/-- The identity of a free function, by qualified name and parameter types. -/
def ofFunction (name : String) (params : List HostId) : HostId :=
  ⟨mixParams (functionSeed ^^^ Digest.xxh64 name) params⟩

/-- The identity of a member, by owner, name and parameter types. -/
def ofMember (owner : HostId) (name : String) (params : List HostId) : HostId :=
  ⟨mixParams (memberSeed ^^^ owner.value ^^^ Digest.xxh64 name) params⟩

/-- The identity of a runtime helper. -/
def ofHelper (name : String) : HostId :=
  ⟨helperSeed ^^^ Digest.xxh64 name⟩

/-! ## Text -/

/-- Sixteen hexadecimal digits after `0x`. -/
def text (id : HostId) : String :=
  "0x" ++ Text.hex 16 id.value.toNat

/-- The form used inside descriptions of tags. -/
def describe (id : HostId) : String :=
  "TypeHash(" ++ id.text ++ ")"

end HostId

/-! ## Runtime helpers the emitted code calls -/

namespace Helper

/-- Joins two strings. -/
def stringConcat : HostId := ⟨0xc52a20915eda763c⟩

/-- Joins the texts of two objects. -/
def stringConcatObject : HostId := ⟨0x69c7ab11b9a10d7d⟩

/-- Compares two strings under a comparison mode. -/
def stringEquals : HostId := ⟨0x7cd28ab1ef9f80a2⟩

/-- Raises a double to a double power. -/
def mathPow : HostId := ⟨0x1e5920a3f2ff8b6b⟩

/-- Every helper with its name. -/
def all : List (String × HostId) :=
  [("string_concat", stringConcat), ("string_concat_object", stringConcatObject),
   ("string_equals", stringEquals), ("math_pow", mathPow)]

end Helper

end ExprCompiler
