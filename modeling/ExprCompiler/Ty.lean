/-
# Static types of expressions

A static type pairs the identity of a host type with a kind that says how the
compiler treats it.  Relations between types (base, interfaces, element,
underlying kind) are not part of it; the registry answers those.
-/
import ExprCompiler.Numeric.Kind

namespace ExprCompiler

/-- How the compiler treats a type. -/
inductive TypeKind
  /-- No value. -/
  | void
  /-- The type of the null literal. -/
  | null
  | bool
  | numeric (kind : NumericKind)
  | string
  /-- The root of every reference type; value types box into it. -/
  | object
  /-- Named constants over a numeric kind. -/
  | enum
  /-- A value type of the host. -/
  | struct
  /-- A reference type of the host. -/
  | refClass
  | interface
  | array
  deriving DecidableEq, Repr, Hashable, Inhabited

/-- The static type of an expression. -/
structure Ty where
  id : HostId
  kind : TypeKind
  deriving DecidableEq, Repr, Hashable, Inhabited

namespace TypeKind

/-- The kind's name; numeric kinds carry their own. -/
def name : TypeKind → String
  | void => "void"
  | null => "null"
  | bool => "bool"
  | numeric k => k.name
  | string => "string"
  | object => "object"
  | enum => "enum"
  | struct => "struct"
  | refClass => "class"
  | interface => "interface"
  | array => "array"

/-- The form used inside descriptions of tags. -/
def describe : TypeKind → String
  | void => "Void"
  | null => "Null"
  | bool => "Bool"
  | numeric k => "Numeric(" ++ k.describe ++ ")"
  | string => "String"
  | object => "Object"
  | enum => "Enum"
  | struct => "Struct"
  | refClass => "Class"
  | interface => "Interface"
  | array => "Array"

/-- The kind called `name`. -/
def ofName? (name : String) : Option TypeKind :=
  ([void, null, bool, string, object, enum, struct, refClass, interface, array]
    ++ NumericKind.all.map numeric).find? (fun k => k.name == name)

end TypeKind

namespace Ty

/-! ## Built-in types -/

def void : Ty := ⟨⟨0xe4b3797ddcf989ea⟩, .void⟩
def null : Ty := ⟨⟨0x1165f1b6597b5a46⟩, .null⟩
def bool : Ty := ⟨⟨0x1e0c8fa4cced99c1⟩, .bool⟩
def string : Ty := ⟨⟨0x7a8d5fb1ba695978⟩, .string⟩
def object : Ty := ⟨⟨0x7453af4894759ab5⟩, .object⟩

/-- The built-in type of a numeric kind. -/
def numeric (k : NumericKind) : Ty := ⟨k.id, .numeric k⟩

/-- Every built-in type with its name. -/
def builtins : List (String × Ty) :=
  [("void", void), ("null", null), ("bool", bool), ("string", string), ("object", object)]
    ++ NumericKind.all.map (fun k => (k.name, numeric k))

/-- The built-in type called `name`. -/
def builtin? (name : String) : Option Ty :=
  builtins.lookup name

/-! ## Kinds of types -/

/-- The numeric kind of a built-in numeric type; enums have none. -/
def numericKind? (t : Ty) : Option NumericKind :=
  match t.kind with
  | .numeric k => some k
  | _ => none

/-- The numeric kind of a built-in integral type. -/
def integralKind? (t : Ty) : Option NumericKind :=
  t.numericKind?.filter (·.isIntegral)

def isNumeric (t : Ty) : Bool := t.numericKind?.isSome
def isIntegral (t : Ty) : Bool := t.numericKind?.any (·.isIntegral)
def isUnsigned (t : Ty) : Bool := t.numericKind?.any (·.isUnsigned)
def isFloating (t : Ty) : Bool := t.numericKind?.any (·.isFloating)
def isVoid (t : Ty) : Bool := t.kind == .void
def isNull (t : Ty) : Bool := t.kind == .null
def isBool (t : Ty) : Bool := t.kind == .bool
def isString (t : Ty) : Bool := t.kind == .string
def isObject (t : Ty) : Bool := t.kind == .object
def isEnum (t : Ty) : Bool := t.kind == .enum
def isClass (t : Ty) : Bool := t.kind == .refClass
def isInterface (t : Ty) : Bool := t.kind == .interface
def isArray (t : Ty) : Bool := t.kind == .array

/-- Types copied by value. -/
def isValue (t : Ty) : Bool :=
  match t.kind with
  | .bool | .numeric _ | .enum | .struct => true
  | _ => false

/-- Types held by reference, the type of null among them. -/
def isReference (t : Ty) : Bool :=
  match t.kind with
  | .string | .object | .refClass | .interface | .array | .null => true
  | _ => false

/-! ## Text -/

/-- The name of a built-in kind, and the identity of any other type. -/
def text (t : Ty) : String :=
  match t.kind with
  | .enum | .struct | .refClass | .interface | .array => t.id.text
  | k => k.name

/-- The form used inside descriptions of tags. -/
def describe (t : Ty) : String :=
  "ResultType \x7b type_hash: " ++ t.id.describe ++ ", kind: " ++ t.kind.describe ++ " \x7d"

end Ty

end ExprCompiler
