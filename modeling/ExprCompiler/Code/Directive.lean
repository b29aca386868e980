/-
# Directives

What a walk over a tree asks for, before any offset is known.  Branches name
labels; a label is marked once, at the place it stands for.  A walk that runs
into a limit of the code format says so with `refuse`, and no pass goes past it.
-/
import ExprCompiler.Code.Constant
import ExprCompiler.Code.OpCode
import ExprCompiler.Error

namespace ExprCompiler

/-- When a branch is taken. -/
inductive BranchKind
  | always
  | ifFalse
  | ifTrue
  deriving DecidableEq, Repr, Inhabited

namespace BranchKind

def all : List BranchKind := [always, ifFalse, ifTrue]

/-- The name of a kind. -/
def name : BranchKind → String
  | always => "always"
  | ifFalse => "if_false"
  | ifTrue => "if_true"

/-- The kind called `name`. -/
def ofName? (name : String) : Option BranchKind :=
  all.find? (fun k => k.name == name)

/-- The form with a one-byte offset. -/
def shortOp : BranchKind → OpCode
  | always => .jump
  | ifFalse => .jumpIfFalse
  | ifTrue => .jumpIfTrue

/-- The form with a four-byte offset. -/
def longOp : BranchKind → OpCode
  | always => .jumpLong
  | ifFalse => .jumpIfFalseLong
  | ifTrue => .jumpIfTrueLong

end BranchKind

/-- One request of a walk. -/
inductive Directive
  /-- What follows belongs to a source line. -/
  | line (number : Nat)
  /-- An instruction without operands. -/
  | op (code : OpCode)
  /-- An instruction with a one-byte operand. -/
  | opByte (code : OpCode) (operand : UInt8)
  /-- Push a constant, by a narrow or wide index. -/
  | constant (value : Constant)
  /-- An instruction on an identity, by its pool index. -/
  | opId (code : OpCode) (id : HostId)
  | call (code : OpCode) (id : HostId) (argc : UInt8)
  | branch (kind : BranchKind) (label : Nat)
  /-- The label stands for this place. -/
  | mark (label : Nat)
  /-- The code format cannot hold what comes here. -/
  | refuse (fault : Fault)
  deriving DecidableEq, Repr, Inhabited

/-- The pool index of a constant as an operand; the pool keeps a constant even
if its index does not fit. -/
def ConstantPool.operand (pool : ConstantPool) (c : Constant) :
    Except Fault UInt16 × ConstantPool :=
  let (index, pool) := pool.add c
  (if index < 65536 then .ok index.toUInt16 else .error .poolFull, pool)

/-- The offsets of labels, as far as they are known. -/
structure LabelTable where
  offsets : Array (Option Nat)
  deriving DecidableEq, Repr, Inhabited

namespace LabelTable

def empty : LabelTable := ⟨#[]⟩

/-- A table with room for a label. -/
def touch (t : LabelTable) (label : Nat) : LabelTable :=
  ⟨t.offsets ++ Array.replicate (label + 1 - t.offsets.size) none⟩

/-- Puts a label at an offset. -/
def mark (t : LabelTable) (label offset : Nat) : LabelTable :=
  ⟨(t.touch label).offsets.setIfInBounds label (some offset)⟩

/-- The offsets of all labels; each has to be marked. -/
def complete (t : LabelTable) : Except Fault (List Nat) :=
  t.offsets.toList.zipIdx.mapM (fun entry =>
    match entry.1 with
    | some offset => .ok offset
    | none => .error (.labelNeverMarked entry.2))

end LabelTable

end ExprCompiler
