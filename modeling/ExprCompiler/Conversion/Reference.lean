/-
# Conversions between references

A reference converts to any type it derives from, null converts to every
reference type, and value types box.  Arrays are covariant: an array of `A` is
an array of `B` of the same rank if `A` upcasts to `B`.

The last rule descends through element types.  Element types are taken as
registered, and a registry may describe an array whose element type leads back
to the array itself, so the descent is a search with a step budget that tells
"no conversion" (`some none`) from "not decided within the budget" (`none`).
The public functions use a budget larger than the number of pairs of types: a
descent that outlasts it has met a pair twice and never ends.  They give the
answer "no" in that case, in which a search without a budget gives none.
-/
import ExprCompiler.Conversion.Basic

namespace ExprCompiler.Registry

/-- The element types that decide a conversion or cast between two arrays: both
known, of equal rank, and held by reference. -/
def elementPair? (r : Registry) (source target : Ty) : Option (Ty × Ty) := do
  let s ← r.entry? source.id
  let t ← r.entry? target.id
  let a ← s.element
  let b ← t.element
  if s.rank = t.rank && a.isReference && b.isReference then some (a, b) else none

/-- More steps than there are pairs of registered types. -/
def elementBudget (r : Registry) : Nat :=
  (r.typeCount + 1) * (r.typeCount + 1) + 1

/-- Whether a value of type `source` can be held as `target`, an object or an
interface. -/
def boxing? (r : Registry) (source target : Ty) : Option Conversion :=
  if target.isObject || (target.isInterface && r.implements source.id target.id) then
    some (.boxing source)
  else none

/-- The upcast of one reference type to another, apart from array covariance. -/
def directUpcast? (r : Registry) (source target : Ty) : Option Conversion :=
  match r.inheritanceDistance? source.id target.id with
  | some depth => some (.upcast target (depth * Conversion.stepCost))
  | none =>
    if target.isObject then some (.upcast target Conversion.stepCost)
    else if target.isInterface && r.implements source.id target.id then
      some (.upcast target Conversion.interfaceCost)
    else none

/-- The conversion to a reference type, apart from array covariance. -/
def directReference? (r : Registry) (source target : Ty) : Option Conversion :=
  if !target.isReference || target.isNull then none
  else if source.isNull then some .nullReference
  else if source.isValue then r.boxing? source target
  else if source.isReference then r.directUpcast? source target
  else none

/-- The conversion to a reference type within a number of element steps. -/
def referenceSearch (r : Registry) : Nat → Ty → Ty → Option (Option Conversion)
  | 0, _, _ => none
  | budget + 1, source, target =>
    match r.directReference? source target with
    | some c => some (some c)
    | none =>
      if source.isArray && target.isArray then
        match r.elementPair? source target with
        | none => some none
        | some (a, b) =>
          (r.referenceSearch budget a b).map (fun found =>
            if found.any (·.isUpcast) then some (.upcast target Conversion.stepCost) else none)
      else some none

/-- The conversion to a reference type; none also where the search has no end. -/
def referenceConversion? (r : Registry) (source target : Ty) : Option Conversion :=
  (r.referenceSearch r.elementBudget source target).getD none

/-! ## Downcasts -/

/-- Types whose values are instances of one class. -/
def isClassLike (t : Ty) : Bool := t.isClass || t.isString || t.isArray

def isSealed (r : Registry) (t : Ty) : Bool :=
  (r.entry? t.id).any (·.flags.isSealed)

/-- Whether a reference could be one of another type at run time, for types that
are not both arrays. -/
def directDowncast (r : Registry) (source target : Ty) : Bool :=
  if source.isNull || target.isNull then false
  else if source.isObject then true
  else
    match isClassLike source, isClassLike target with
    | true, true => (r.inheritanceDistance? target.id source.id).isSome
    | true, false =>
      target.isInterface && !r.isSealed source && !r.implements source.id target.id
    | false, true =>
      source.isInterface && (!r.isSealed target || r.implements target.id source.id)
    | false, false => source.isInterface && target.isInterface

/-- Whether a checked cast between reference types makes sense, within a number
of element steps. -/
def downcastSearch (r : Registry) : Nat → Ty → Ty → Option Bool
  | 0, _, _ => none
  | budget + 1, source, target =>
    if source.isArray && target.isArray then
      match r.elementPair? source target with
      | none => some false
      | some (a, b) => if a = b then some true else r.downcastSearch budget a b
    else some (r.directDowncast source target)

/-- Whether a checked cast between reference types makes sense; not so where the search has
no end. -/
def isDowncast (r : Registry) (source target : Ty) : Bool :=
  (r.downcastSearch r.elementBudget source target).getD false

end ExprCompiler.Registry
