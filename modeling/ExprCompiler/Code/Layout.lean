/-
# Trial layout

A pass over the directives that writes nothing: it counts bytes as if every
branch were short, interns constants to know the width of their indices, and
notes where branches and labels fall.
-/
import ExprCompiler.Code.Directive

namespace ExprCompiler

/-- A branch of a layout: where it starts, and where its label is. -/
structure BranchRecord where
  start : Nat
  kind : BranchKind
  label : Nat
  target : Nat
  deriving DecidableEq, Repr, Inhabited

/-- Where everything falls if all branches are short. -/
structure Layout where
  branches : List BranchRecord
  labels : List Nat
  size : Nat
  deriving DecidableEq, Repr, Inhabited

def Layout.empty : Layout := ⟨[], [], 0⟩

/-- The size of a short branch. -/
def shortBranchSize : Nat := 2

/-- A branch whose target is not known yet. -/
structure PendingBranch where
  start : Nat
  kind : BranchKind
  label : Nat
  deriving DecidableEq, Repr, Inhabited

/-- The state of a trial pass. -/
structure Trial where
  offset : Nat
  pool : ConstantPool
  branches : Array PendingBranch
  labels : LabelTable

namespace Trial

def start : Trial := ⟨0, .empty, #[], .empty⟩

/-- Room for a whole instruction. -/
def reserve (t : Trial) (op : OpCode) : Trial :=
  { t with offset := t.offset + op.size }

/-- Room for an instruction that names a constant. -/
def reserveWith (t : Trial) (c : Constant) (op : UInt16 → OpCode) : Trial × Option Fault :=
  -- taking the state apart first leaves the pool with one owner
  let ⟨offset, pool, branches, labels⟩ := t
  match pool.operand c with
  | (.ok index, pool) => (⟨offset + (op index).size, pool, branches, labels⟩, none)
  | (.error fault, pool) => (⟨offset, pool, branches, labels⟩, some fault)

/-- The operation that pushes a constant, by the width of its index. -/
def constantOp (index : UInt16) : OpCode :=
  if index < 256 then .constant else .constantWide

/-- One directive, and the fault it meets, if any. -/
def step (t : Trial) : Directive → Trial × Option Fault
  | .line _ => (t, none)
  | .op code => (t.reserve code, none)
  | .opByte code _ => (t.reserve code, none)
  | .constant c => t.reserveWith c constantOp
  | .opId code id => t.reserveWith (.id id) (fun _ => code)
  | .call code id _ => t.reserveWith (.id id) (fun _ => code)
  | .branch kind label =>
    ({ t with
        offset := t.offset + shortBranchSize
        branches := t.branches.push ⟨t.offset, kind, label⟩
        labels := t.labels.touch label }, none)
  | .mark label => ({ t with labels := t.labels.mark label t.offset }, none)
  | .refuse fault => (t, some fault)

/-- All directives, up to the first fault. -/
def run (t : Trial) : List Directive → Except Fault Trial
  | [] => .ok t
  | d :: ds =>
    match t.step d with
    | (t', none) => t'.run ds
    | (_, some fault) => .error fault

/-- The layout, once every label is marked. -/
def layout (t : Trial) : Except Fault Layout := do
  let labels ← t.labels.complete
  let offsets := labels.toArray
  let branches ← t.branches.toList.mapM (fun b =>
    match offsets[b.label]? with
    | some target => Except.ok ({ start := b.start, kind := b.kind, label := b.label, target } :
        BranchRecord)
    | none => .error (.branchToUnknownLabel b.start b.label))
  return ⟨branches, labels, t.offset⟩

end Trial

/-- The layout of a list of directives. -/
def Layout.ofDirectives (ds : List Directive) : Except Fault Layout := do
  let t ← Trial.start.run ds
  t.layout

end ExprCompiler
