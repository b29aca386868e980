/-
# Constants and their pool

Code names constants by their index in a pool.  A pool holds each constant once:
adding one that is there gives its index.  Floats are told apart by their bits.

A pool keeps, next to the constants in order of first use, an index from
constants to places.  That the two agree is part of the type.
-/
import Std.Data.HashMap
import ExprCompiler.Binary.Format
import ExprCompiler.Numeric.Kind

namespace ExprCompiler

/-- A constant that code refers to. -/
inductive Constant
  | int32 (value : Int32)
  | int64 (value : Int64)
  /-- A single, by its bit pattern. -/
  | float32 (bits : UInt32)
  /-- A double, by its bit pattern. -/
  | float64 (bits : UInt64)
  | string (value : String)
  | id (value : HostId)
  deriving DecidableEq, Hashable, Repr, Inhabited

/-- A small number as a constant of the slot of a kind. -/
def Constant.ofNat (kind : NumericKind) (n : Nat) : Constant :=
  match kind with
  | .int64 | .uint64 => .int64 (Int64.ofNat n)
  | .float32 => .float32 (BinaryFormat.binary32.ofRatio n 1).toUInt32
  | .float64 => .float64 (BinaryFormat.binary64.ofRatio n 1).toUInt64
  | _ => .int32 (Int32.ofNat n)

/-- Distinct constants in order of first use. -/
structure ConstantPool where
  constants : Array Constant
  places : Std.HashMap Constant Nat
  /-- The index knows exactly the places of the constants. -/
  agree : ∀ (c : Constant) (i : Nat), places[c]? = some i ↔ constants[i]? = some c

namespace ConstantPool

def empty : ConstantPool where
  constants := #[]
  places := ∅
  agree := by simp

def size (p : ConstantPool) : Nat := p.constants.size

def isEmpty (p : ConstantPool) : Bool := p.constants.isEmpty

/-- The constant at an index. -/
def get? (p : ConstantPool) (i : Nat) : Option Constant := p.constants[i]?

/-- The index of a constant that the pool holds. -/
def indexOf? (p : ConstantPool) (c : Constant) : Option Nat := p.places[c]?

/-- The index still agrees with the constants after a new one at the end. -/
theorem agree_push {constants : Array Constant} {places : Std.HashMap Constant Nat}
    (agree : ∀ (c : Constant) (i : Nat), places[c]? = some i ↔ constants[i]? = some c)
    {c : Constant} (fresh : places[c]? = none) (d : Constant) (i : Nat) :
    (places.insert c constants.size)[d]? = some i ↔ (constants.push c)[i]? = some d := by
  rw [Std.HashMap.getElem?_insert, Array.getElem?_push]
  by_cases hd : c = d
  · subst hd
    by_cases hi : i = constants.size
    · simp [hi]
    · have hno : constants[i]? ≠ some c := fun h => by
        rw [(agree c i).mpr h] at fresh
        exact absurd fresh (by simp)
      simp [hi, hno, Ne.symm hi]
  · by_cases hi : i = constants.size
    · have hno : places[d]? ≠ some i := fun h => by
        have := (agree d i).mp h
        simp [hi] at this
      simp [hd, hi] at hno ⊢
      exact hno
    · simp [hd, hi, agree d i]

/-- A pool with one more constant, which it does not hold yet. -/
def push : (p : ConstantPool) → (c : Constant) → p.indexOf? c = none → ConstantPool
  | ⟨constants, places, agree⟩, c, fresh =>
    let place := constants.size
    ⟨constants.push c, places.insert c place, agree_push agree fresh⟩

/-- The index of a constant, added at the end if the pool does not hold it. -/
def add (p : ConstantPool) (c : Constant) : Nat × ConstantPool :=
  let index := (p.indexOf? c).getD p.size
  (index, if fresh : p.indexOf? c = none then p.push c fresh else p)

end ConstantPool

end ExprCompiler
