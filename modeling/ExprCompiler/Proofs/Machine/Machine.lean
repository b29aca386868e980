/-
# An abstract stack machine

What emitted code is run on.  The machine decodes real bytes (`Emission.fetch?`)
and keeps a stack and temporary slots; what its operations compute is left open.
A `Machine` is any choice of functions on any values, each of which may trap.
Only the stack discipline of an operation is fixed: how many values it takes,
and that it leaves one.

A step that has no instruction, too few values, or no temporary to read is
`stuck`.  That is not an outcome: code that gets stuck has none.
-/
import ExprCompiler.Proofs.Code.Instruction

namespace ExprCompiler

/-- The meaning of operations on values `V`, with traps `T`. -/
structure Machine (V T : Type) where
  constant : Constant → Except T V
  /-- Operations that push something of their own. -/
  push : OpCode → Except T V
  unary : OpCode → V → Except T V
  binary : OpCode → V → V → Except T V
  /-- Operations on a value and an identity. -/
  named : OpCode → HostId → V → Except T V
  /-- The value of a static field. -/
  static : HostId → Except T V
  call : HostId → List V → Except T V
  /-- A call on a target. -/
  method : HostId → V → List V → Except T V
  /-- What conditional branches test. -/
  truth : V → Bool

/-- What an operation without operands does to the stack. -/
inductive Effect
  | push
  | pop
  | dup
  | unary
  | binary
  | ret
  deriving DecidableEq, Repr

/-- The stack discipline of operations without operands. -/
def OpCode.effect? : OpCode → Option Effect
  | pushNull | pushTrue | pushFalse | getOwner => some .push
  | pop => some .pop
  | dup => some .dup
  | add | addChecked | addCheckedUnsigned | sub | subChecked | subCheckedUnsigned
  | mul | mulChecked | mulCheckedUnsigned | div | divUnsigned | rem | remUnsigned
  | and | or | xor | shl | shr | shrUnsigned | eq | gt | gtUnsigned | lt | ltUnsigned =>
    some .binary
  | neg | bitNot | not
  | toI8 | toI16 | toI32 | toI64 | toU8 | toU16 | toU32 | toU64 | toF32 | toF64
  | toFloatUnsigned
  | toI8Checked | toI16Checked | toI32Checked | toI64Checked
  | toU8Checked | toU16Checked | toU32Checked | toU64Checked
  | toI8CheckedUnsigned | toI16CheckedUnsigned | toI32CheckedUnsigned | toI64CheckedUnsigned
  | toU8CheckedUnsigned | toU16CheckedUnsigned | toU32CheckedUnsigned
  | toU64CheckedUnsigned => some .unary
  | ret => some .ret
  | _ => none

/-- A state of the machine: the offset of the next instruction, the stack with
its top first, and the temporary slots. -/
structure Config (V : Type) where
  pc : Nat
  stack : List V
  slots : List (Option V)

/-- What a step comes to. -/
inductive Next (V T : Type)
  | running (c : Config V)
  | done (outcome : Except T V)
  | stuck

/-- Go on with a result, or trap. -/
def Next.after {V T : Type} (x : Except T V) (k : V → Config V) : Next V T :=
  match x with
  | .ok v => .running (k v)
  | .error t => .done (.error t)

namespace Machine

variable {V T : Type}

/-- An operation without operands. -/
def plain (M : Machine V T) (op : OpCode) (next : Nat) (c : Config V) : Next V T :=
  match op.effect?, c.stack with
  | some .push, stack => .after (M.push op) fun v => ⟨next, v :: stack, c.slots⟩
  | some .pop, _ :: stack => .running ⟨next, stack, c.slots⟩
  | some .dup, v :: stack => .running ⟨next, v :: v :: stack, c.slots⟩
  | some .unary, v :: stack => .after (M.unary op v) fun v => ⟨next, v :: stack, c.slots⟩
  | some .binary, b :: a :: stack =>
    .after (M.binary op a b) fun v => ⟨next, v :: stack, c.slots⟩
  | some .ret, [v] => .done (.ok v)
  | _, _ => .stuck

/-- Reading and writing a temporary slot. -/
def slot (op : OpCode) (place : Nat) (next : Nat) (c : Config V) : Next V T :=
  match op, c.stack with
  | .getLocal, stack =>
    match c.slots[place]? with
    | some (some v) => .running ⟨next, v :: stack, c.slots⟩
    | _ => .stuck
  | .setLocal, v :: stack =>
    if place < c.slots.length then .running ⟨next, stack, c.slots.set place (some v)⟩
    else .stuck
  | _, _ => .stuck

/-- An operation on an identity. -/
def onIdentity (M : Machine V T) (op : OpCode) (id : HostId) (next : Nat) (c : Config V) :
    Next V T :=
  match op, c.stack with
  | .getStatic, stack => .after (M.static id) fun v => ⟨next, v :: stack, c.slots⟩
  | .getField, v :: stack | .box, v :: stack | .unbox, v :: stack | .castClass, v :: stack =>
    .after (M.named op id v) fun v => ⟨next, v :: stack, c.slots⟩
  | _, _ => .stuck

/-- A call: the last argument is on top, and a target is below the first. -/
def calling (M : Machine V T) (op : OpCode) (id : HostId) (argc next : Nat) (c : Config V) :
    Next V T :=
  if argc ≤ c.stack.length then
    let args := (c.stack.take argc).reverse
    match op, c.stack.drop argc with
    | .call, stack => .after (M.call id args) fun v => ⟨next, v :: stack, c.slots⟩
    | .callMethod, target :: stack =>
      .after (M.method id target args) fun v => ⟨next, v :: stack, c.slots⟩
    | _, _ => .stuck
  else .stuck

/-- A branch; the conditional ones take the value they test. -/
def branching (M : Machine V T) (kind : BranchKind) (target next : Nat) (c : Config V) :
    Next V T :=
  match kind, c.stack with
  | .always, stack => .running ⟨target, stack, c.slots⟩
  | .ifFalse, v :: stack => .running ⟨if M.truth v then next else target, stack, c.slots⟩
  | .ifTrue, v :: stack => .running ⟨if M.truth v then target else next, stack, c.slots⟩
  | _, _ => .stuck

/-- What an instruction does, given the offset after it. -/
def act (M : Machine V T) (i : Instruction) (next : Nat) (c : Config V) : Next V T :=
  match i with
  | .plain op => M.plain op next c
  | .slot op place => slot op place.toNat next c
  | .push value => .after (M.constant value) fun v => ⟨next, v :: c.stack, c.slots⟩
  | .named op id => M.onIdentity op id next c
  | .call op id argc => M.calling op id argc.toNat next c
  | .branch kind target => M.branching kind target next c

/-- One step: fetch the instruction at the current offset and do it. -/
def step (M : Machine V T) (em : Emission) (c : Config V) : Next V T :=
  match em.fetch? c.pc with
  | some (i, next) => M.act i next c
  | none => .stuck

/-- The outcome within a number of steps. -/
def run (M : Machine V T) (em : Emission) : Nat → Config V → Option (Except T V)
  | 0, _ => none
  | n + 1, c =>
    match M.step em c with
    | .running c' => M.run em n c'
    | .done outcome => some outcome
    | .stuck => none

/-- Where running starts: at the first byte, with nothing on the stack and no
temporary written. -/
def init (em : Emission) : Config V := ⟨0, [], List.replicate em.localCount none⟩

/-- Running the code comes to an outcome. -/
def Yields (M : Machine V T) (em : Emission) (outcome : Except T V) : Prop :=
  ∃ n, M.run em n (init em) = some outcome

end Machine

end ExprCompiler
