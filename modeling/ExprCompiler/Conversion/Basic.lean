/-
# Conversions

How a value of one static type becomes a value of another, and what that costs.
Costs are small whole numbers; overload resolution compares their averages.
-/
import ExprCompiler.Context
import ExprCompiler.Numeric.Promotion

namespace ExprCompiler

/-- How a value is converted. -/
inductive ConversionKind
  | identity
  /-- Widening on the numeric ladder. -/
  | numeric (source target : NumericKind)
  /-- The null literal as a reference. -/
  | nullReference
  /-- A reference seen as one of a type it derives from. -/
  | upcast (target : HostId)
  /-- A value type as an object. -/
  | boxing (value : HostId)
  /-- A conversion member is called. -/
  | user (method : HostId)
  deriving DecidableEq, Repr, Inhabited

/-- An implicit conversion and its cost. -/
structure Conversion where
  kind : ConversionKind
  cost : Nat
  deriving DecidableEq, Repr, Inhabited

namespace Conversion

/-! ## Costs -/

/-- One step up the base classes, or one without a registered chain. -/
def stepCost : Nat := 1
def nullCost : Nat := 1
def userCost : Nat := 1
def interfaceCost : Nat := 5
def boxingCost : Nat := 8

/-! ## Conversions by kind -/

def identity : Conversion := ⟨.identity, 0⟩

def nullReference : Conversion := ⟨.nullReference, nullCost⟩

def boxing (value : Ty) : Conversion := ⟨.boxing value.id, boxingCost⟩

def upcast (target : Ty) (cost : Nat) : Conversion := ⟨.upcast target.id, cost⟩

def user (method : Member) : Conversion := ⟨.user method.id, userCost⟩

/-- The conversion of an operand to the kind it meets another in; between a
kind and itself nothing happens. -/
def operand (source target : NumericKind) : Conversion :=
  if source = target then identity
  else ⟨.numeric source target, (source.widenCost? target).getD 0⟩

/-- The widening of one numeric kind to another, if there is one. -/
def widening? (source target : NumericKind) : Option Conversion :=
  (source.widenCost? target).map (fun cost => ⟨.numeric source target, cost⟩)

/-- Whether nothing happens. -/
def isExact (c : Conversion) : Bool := c.kind == .identity

/-- Whether the value only changes its static type along what it derives from. -/
def isUpcast (c : Conversion) : Bool :=
  match c.kind with
  | .upcast _ => true
  | _ => false

end Conversion

end ExprCompiler
