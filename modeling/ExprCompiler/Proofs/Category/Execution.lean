/-
# Running code on categories

Values on the stack fall into five categories.  An abstract run keeps the category
of each value and nothing else: it is a run of the machine whose values are
categories (`Signature.machine`), except that a conditional branch goes both ways.

An operation on categories that it is not defined for, too few values, and a
return with anything but one value of the category of the result have no
successors at all (`none`), which is told apart from having come to the end.

The host is known by a `Signature`: the category of each value type, of each
field, and what a call leaves, given the categories of its arguments.  What is asked
of code, run against a signature, is `Signature.Verifies`.
-/
import ExprCompiler.Context
import ExprCompiler.Proofs.Machine.Machine

namespace ExprCompiler

/-- What the stack knows of a value. -/
inductive Category
  | int32
  | int64
  | float
  | double
  | reference
  deriving DecidableEq, Repr, Inhabited

namespace Category

def isIntegral : Category → Bool
  | int32 | int64 => true
  | _ => false

def isNumeric : Category → Bool
  | reference => false
  | _ => true

end Category

/-! ## Categories of types -/

/-- Integers of up to 32 bits share a slot. -/
def NumericKind.category : NumericKind → Category
  | int64 | uint64 => .int64
  | float32 => .float
  | float64 => .double
  | _ => .int32

/-- The category of a type: numbers by their kind, enums by what they are made of,
truth values as numbers, and a reference for everything else. -/
def Context.category (ctx : Context) (t : Ty) : Category :=
  match t.kind with
  | .bool => .int32
  | .numeric kind => kind.category
  | .enum => ((ctx.entry? t.id).bind (·.underlying)).elim .reference NumericKind.category
  | _ => .reference

def Constant.category? : Constant → Option Category
  | int32 _ => some .int32
  | int64 _ => some .int64
  | float32 _ => some .float
  | float64 _ => some .double
  | string _ => some .reference
  | id _ => none

/-! ## Operations -/

namespace OpCode

/-- What an operation pushes of its own. -/
def pushed? : OpCode → Option Category
  | pushNull | getOwner => some .reference
  | pushTrue | pushFalse => some .int32
  | _ => none

/-- What an operation on one value leaves.  The mark of an unsigned source is the
next wider category, from which a conversion to a float goes on. -/
def onOne? (op : OpCode) (c : Category) : Option Category :=
  match op with
  | neg => if c.isNumeric then some c else none
  | bitNot => if c.isIntegral then some c else none
  | not => if c = .int32 then some .int32 else none
  | toI8 | toI16 | toI32 | toU8 | toU16 | toU32
  | toI8Checked | toI16Checked | toI32Checked | toU8Checked | toU16Checked | toU32Checked
  | toI8CheckedUnsigned | toI16CheckedUnsigned | toI32CheckedUnsigned
  | toU8CheckedUnsigned | toU16CheckedUnsigned | toU32CheckedUnsigned =>
    if c.isNumeric then some .int32 else none
  | toI64 | toU64 | toI64Checked | toU64Checked | toI64CheckedUnsigned
  | toU64CheckedUnsigned => if c.isNumeric then some .int64 else none
  | toF32 => if c.isNumeric then some .float else none
  | toF64 => if c.isNumeric then some .double else none
  | toFloatUnsigned =>
    match c with
    | .int32 => some .int64
    | .int64 => some .double
    | _ => none
  | _ => none

/-- What an operation on two values leaves.  Signedness and overflow checks are
for integers. -/
def onTwo? (op : OpCode) (a b : Category) : Option Category :=
  match op with
  | add | sub | mul | div | rem => if a = b && a.isNumeric then some a else none
  | addChecked | addCheckedUnsigned | subChecked | subCheckedUnsigned | mulChecked
  | mulCheckedUnsigned | divUnsigned | remUnsigned | and | or | xor =>
    if a = b && a.isIntegral then some a else none
  | shl | shr | shrUnsigned => if a.isIntegral && b = .int32 then some a else none
  | eq => if a = b then some .int32 else none
  | gt | gtUnsigned | lt | ltUnsigned => if a = b && a.isNumeric then some .int32 else none
  | _ => none

end OpCode

/-- What is known of the identities that code names. -/
structure Signature where
  /-- The category of a value type. -/
  value : HostId → Category
  /-- The category of a field. -/
  field : HostId → Option Category
  /-- What a member or helper leaves, called on arguments. -/
  call : HostId → List Category → Option Category

namespace Signature

variable (sig : Signature)

/-- What an operation on a value and an identity leaves. -/
def onNamed? (op : OpCode) (id : HostId) (c : Category) : Option Category :=
  match op with
  | .getField => sig.field id
  | .box => if c = sig.value id then some .reference else none
  | .unbox => if c = .reference then some (sig.value id) else none
  | .castClass => if c = .reference then some .reference else none
  | _ => none

/-- A category, or a trap where there is none. -/
def given (c : Option Category) : Except Unit Category := c.elim (.error ()) .ok

/-- The machine whose values are categories. -/
def machine : Machine Category Unit where
  constant value := given value.category?
  push op := given op.pushed?
  unary op c := given (op.onOne? c)
  binary op a b := given (op.onTwo? a b)
  named op id c := given (sig.onNamed? op id c)
  static id := given (sig.field id)
  call id args := given (sig.call id args)
  method id _ args := given (sig.call id args)
  truth _ := true

/-! ## Runs -/

/-- The states after an instruction, for code with a result of category `result`. -/
def follow (result : Category) (i : Instruction) (next : Nat) (c : Config Category) :
    Option (List (Config Category)) :=
  match i with
  | .branch .always target => some [⟨target, c.stack, c.slots⟩]
  | .branch _ target =>
    match c.stack with
    | .int32 :: s => some [⟨next, s, c.slots⟩, ⟨target, s, c.slots⟩]
    | _ => none
  | .plain .ret => if c.stack = [result] then some [] else none
  | i =>
    match sig.machine.act i next c with
    | .running c' => some [c']
    | _ => none

/-- The states after a state. -/
def successors (em : Emission) (result : Category) (c : Config Category) :
    Option (List (Config Category)) :=
  match em.fetch? c.pc with
  | some (i, next) => sig.follow result i next c
  | none => none

/-- The states that an abstract run can come to. -/
inductive Reaches (em : Emission) (result : Category) : Config Category → Prop
  | init : Reaches em result (Machine.init em)
  | step {c c' : Config Category} {cs : List (Config Category)} : Reaches em result c →
      sig.successors em result c = some cs → c' ∈ cs → Reaches em result c'

/-- Code that abstract runs verify to have a result of category `result`. -/
structure Verifies (em : Emission) (result : Category) : Prop where
  /-- No run comes to an operation that is not defined for what is on the stack. -/
  safe : ∀ c, sig.Reaches em result c → ∃ cs, sig.successors em result c = some cs
  /-- All runs that come to an offset have the same stack there. -/
  one : ∀ c c', sig.Reaches em result c → sig.Reaches em result c' → c.pc = c'.pc →
    c.stack = c'.stack
  /-- There is a run to each instruction. -/
  covers : ∀ o ∈ em.chunk.instructions.map (·.1), ∃ c, sig.Reaches em result c ∧ c.pc = o
  /-- At a return there is the result and nothing else. -/
  returns : ∀ c next, sig.Reaches em result c →
    em.fetch? c.pc = some (.plain .ret, next) → c.stack = [result]

end Signature

end ExprCompiler
