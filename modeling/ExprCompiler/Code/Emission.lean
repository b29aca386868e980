/-
# Emission

The pass that writes bytes.  Branches take the size their plan gives them, with
an empty offset; once all labels are known the offsets are patched in.  Nothing
is trusted: a plan of another tree is found out by its number of branches or by
a short branch that does not reach.
-/
import ExprCompiler.Code.BranchPlan
import ExprCompiler.Code.Chunk

namespace ExprCompiler

/-- A branch whose offset is still to be written. -/
structure Patch where
  /-- Where the offset goes. -/
  operand : Nat
  /-- Where the branch ends, which its offset counts from. -/
  finish : Nat
  label : Nat
  long : Bool
  deriving DecidableEq, Repr, Inhabited

/-- Code, its constants, where its labels fell, and how many temporary slots it
uses. -/
structure Emission where
  chunk : Chunk
  pool : ConstantPool
  labels : List Nat
  localCount : Nat

/-- The state of an emission pass. -/
structure Writer where
  plan : BranchPlan
  chunk : Chunk
  pool : ConstantPool
  branchIndex : Nat
  patches : Array Patch
  labels : LabelTable
  line : Nat

namespace Writer

def start (plan : BranchPlan) : Writer where
  plan := plan
  chunk := .empty
  pool := .empty
  branchIndex := 0
  patches := #[]
  labels := .empty
  line := 0

/-- The offset of the next byte. -/
def offset (w : Writer) : Nat := w.chunk.size

/-- Writes an operation and operand bytes for the current line. -/
def write (w : Writer) (op : OpCode) (operands : List UInt8) : Writer :=
  { w with chunk := (w.chunk.writeOp op w.line).writeBytes operands w.line }

/-- Writes an instruction that names a constant. -/
def writeWith (w : Writer) (c : Constant) (instruction : UInt16 → OpCode × List UInt8) :
    Writer × Option Fault :=
  -- taking the state apart first leaves the pool with one owner
  let ⟨plan, chunk, pool, branchIndex, patches, labels, line⟩ := w
  match pool.operand c with
  | (.ok index, pool) =>
    let (op, operands) := instruction index
    ((Writer.mk plan chunk pool branchIndex patches labels line).write op operands, none)
  | (.error fault, pool) => (⟨plan, chunk, pool, branchIndex, patches, labels, line⟩, some fault)

/-- The instruction that pushes a constant, narrow if its index fits a byte. -/
def pushConstant (index : UInt16) : OpCode × List UInt8 :=
  if index < 256 then (.constant, [index.toUInt8])
  else (.constantWide, Chunk.wordBytes index)

/-- Writes a branch in the size its plan gives it, and notes the patch. -/
def writeBranch (w : Writer) (kind : BranchKind) (label : Nat) : Writer :=
  let long := w.plan.isLong w.branchIndex
  let operand := w.offset + 1
  let op := if long then kind.longOp else kind.shortOp
  let width := if long then 4 else 1
  { w.write op (List.replicate width 0) with
    branchIndex := w.branchIndex + 1
    patches := w.patches.push ⟨operand, operand + width, label, long⟩ }

/-- One directive, and the fault it meets, if any. -/
def step (w : Writer) : Directive → Writer × Option Fault
  | .line n => ({ w with line := n }, none)
  | .op code => (w.write code [], none)
  | .opByte code operand => (w.write code [operand], none)
  | .constant c => w.writeWith c pushConstant
  | .opId code id => w.writeWith (.id id) (fun index => (code, Chunk.wordBytes index))
  | .call code id argc =>
    w.writeWith (.id id) (fun index => (code, Chunk.wordBytes index ++ [argc]))
  | .branch kind label => (w.writeBranch kind label, none)
  | .mark label => ({ w with labels := w.labels.mark label w.offset }, none)
  | .refuse fault => (w, some fault)

/-- All directives, up to the first fault. -/
def run (w : Writer) : List Directive → Except Fault Writer
  | [] => .ok w
  | d :: ds =>
    match w.step d with
    | (w', none) => w'.run ds
    | (_, some fault) => .error fault

/-- Writes the offset of one branch. -/
def patch (labels : Array Nat) (chunk : Chunk) (p : Patch) : Except Fault Chunk :=
  match labels[p.label]? with
  | none => .error (.unknownLabel p.label)
  | some target =>
    let delta : Int := (target : Int) - p.finish
    if p.long then
      if -0x80000000 ≤ delta ∧ delta < 0x80000000 then
        .ok (chunk.patchI32 p.operand (Int32.ofInt delta))
      else .error .branchTooFar
    else if -128 ≤ delta ∧ delta ≤ 127 then .ok (chunk.patchI8 p.operand (Int8.ofInt delta))
    else .error (.shortBranchMisses (p.operand - 1) target)

/-- The finished code: all planned branches written, all labels marked, and all
branches patched. -/
def finish (w : Writer) (localCount : Nat) : Except Fault Emission := do
  if w.branchIndex ≠ w.plan.count then
    throw (.branchCount w.branchIndex w.plan.count)
  let labels ← w.labels.complete
  let chunk ← w.patches.foldlM (patch labels.toArray) w.chunk
  return { chunk, pool := w.pool, labels, localCount }

end Writer

/-- How many temporary slots a list of directives uses. -/
def Directive.localCount (ds : List Directive) : Nat :=
  ds.foldl (fun n d =>
    match d with
    | .opByte .setLocal slot => max n (slot.toNat + 1)
    | _ => n) 0

/-- The code of a list of directives under a plan. -/
def Emission.ofDirectives (plan : BranchPlan) (ds : List Directive) : Except Fault Emission := do
  let w ← (Writer.start plan).run ds
  w.finish (Directive.localCount ds)

end ExprCompiler
