/-
# Evaluation of trees

The value of a tree by recursion on it, with the operations of a machine and no
code in between.  Operands come from left to right, each followed by its recorded
conversion; a conditional evaluates the branch it selects, and a short circuit its
right operand only if the left one does not decide.  A list of items is gone
through until one equals the probe.  The target of a member comes before the
arguments, and so does a collection, on which its search method is called.  A
power with a known exponent multiplies by repeated squaring and does not evaluate
its exponent.
-/
import ExprCompiler.Code.Fragment
import ExprCompiler.Proofs.Machine.Machine

namespace ExprCompiler

namespace Machine

variable {V T : Type}

/-! ## Values -/

def literal (M : Machine V T) : Literal → Except T V
  | .bool true => M.push .pushTrue
  | .bool false => M.push .pushFalse
  | .null => M.push .pushNull
  | .int v => M.constant (.int32 v)
  | .uint v => M.constant (.int32 v.toInt32)
  | .long v => M.constant (.int64 v)
  | .ulong v => M.constant (.int64 v.toInt64)
  | .float bits => M.constant (.float32 bits)
  | .double bits => M.constant (.float64 bits)
  | .char unit => M.constant (.int32 (Int32.ofNat unit.toNat))
  | .string s => M.constant (.string s)

/-- One unary operation after the other. -/
def unaries (M : Machine V T) (ops : List OpCode) (v : V) : Except T V :=
  ops.foldlM (fun v op => M.unary op v) v

def convert (M : Machine V T) (c : Conversion) (v : V) : Except T V :=
  match c.kind with
  | .identity | .nullReference | .upcast _ => .ok v
  | .numeric source target => M.unaries (source.implicitOps target) v
  | .boxing value => M.named .box value v
  | .user method => M.call method [v]

def cast (M : Machine V T) (plan : CastPlan) (v : V) : Except T V :=
  match plan with
  | .identity => .ok v
  | .implicit c => M.convert c v
  | .numeric source target checked => M.unaries (source.explicitOps target checked) v
  | .user method => M.call method [v]
  | .castClass target => M.named .castClass target v
  | .unbox target => M.named .unbox target v

/-- A power by repeated squaring. -/
def power (M : Machine V T) (kind : NumericKind) (times : OpCode) (base : V) (n : Nat) :
    Except T V :=
  if n = 0 then M.constant (.ofNat kind 1)
  else if n = 1 then .ok base
  else if n % 2 = 0 then do
    let root ← M.power kind times base (n / 2)
    M.binary times root root
  else do
    let rest ← M.power kind times base (n - 1)
    M.binary times rest base
termination_by n

/-- A power of a kind smaller than its slot is cut to the kind. -/
def narrow (M : Machine V T) (kind : NumericKind) (checked : Bool) (v : V) : Except T V :=
  if kind.bits < 32 then M.unaries (NumericKind.int32.explicitOps kind checked) v else .ok v

/-! ## Nodes, given the values of their operands -/

/-- Two operands, each with its conversion. -/
def both (M : Machine V T) (cs : Conversion × Conversion) (x y : Except T V)
    (k : V → V → Except T V) : Except T V := do
  let a ← x
  let a ← M.convert cs.1 a
  let b ← y
  let b ← M.convert cs.2 b
  k a b

/-- An operator overload on two operands. -/
def overload (M : Machine V T) (call : CallTarget) (x y : Except T V) : Except T V :=
  M.both (call.conversion 0, call.conversion 1) x y fun a b => M.call call.method [a, b]

def arithmetic (M : Machine V T) (op : ArithmeticOp) (plan : ArithmeticPlan)
    (x y : Except T V) : Except T V :=
  match plan with
  | .operator call => M.overload call x y
  | .numeric _ checked unsigned l r => M.both (l, r) x y (M.binary (op.opcode checked unsigned))
  | .concat helper l r => M.both (l, r) x y fun a b => M.call helper [a, b]
  | .powerUnrolled exponent kind checked => do
    let base ← x
    let v ← M.power kind (ArithmeticOp.mul.opcode checked kind.isUnsigned) base exponent
    M.narrow kind checked v
  | .powerCall l r => M.both (l, r) x y fun a b => M.call Helper.mathPow [a, b]

def shift (M : Machine V T) (op : ShiftOp) (plan : ShiftPlan) (x y : Except T V) :
    Except T V :=
  match plan with
  | .operator call => M.overload call x y
  | .numeric kind l r =>
    M.both (l, r) x y fun a b => do
      let mask ← M.constant (.int32 (if kind.isWide then 0x3f else 0x1f))
      let count ← M.binary .and b mask
      M.binary (op.opcode kind.isUnsigned) a count

/-- Turn an answer round. -/
def negated (M : Machine V T) (negate : Bool) (x : Except T V) : Except T V := do
  let v ← x
  if negate then M.unary .not v else .ok v

/-- A comparison of two numbers of one kind: "at most" is "not above". -/
def compareNumbers (M : Machine V T) (op : CompareOp) (unsigned floating : Bool) (a b : V) :
    Except T V :=
  match op with
  | .eq => M.binary .eq a b
  | .ne => M.negated true (M.binary .eq a b)
  | .lt => M.binary (if unsigned then .ltUnsigned else .lt) a b
  | .gt => M.binary (if unsigned then .gtUnsigned else .gt) a b
  | .le => M.negated true (M.binary (if unsigned || floating then .gtUnsigned else .gt) a b)
  | .ge => M.negated true (M.binary (if unsigned || floating then .ltUnsigned else .lt) a b)

/-- A comparison of two converted operands. -/
def compare (M : Machine V T) (op : CompareOp) (plan : ComparePlan) (a b : V) : Except T V :=
  match plan with
  | .operator call negate => M.negated negate (M.call call.method [a, b])
  | .numeric kind _ _ | .enum kind => M.compareNumbers op kind.isUnsigned kind.isFloating a b
  | .string mode => do
    let mode ← M.constant (.int32 (Int32.ofNat mode.code))
    M.negated (op = .ne) (M.call Helper.stringEquals [a, b, mode])
  | .boolean | .reference => M.negated (op = .ne) (M.binary .eq a b)

def unaryNode (M : Machine V T) (plan : UnaryPlan) (x : Except T V) : Except T V :=
  match plan with
  | .operator call => do
    let v ← x
    let v ← M.convert (call.conversion 0) v
    M.call call.method [v]
  | .negate kind true c => do
    let zero ← M.constant (.ofNat kind 0)
    let v ← x
    let v ← M.convert c v
    M.binary .subChecked zero v
  | .negate _ false c => do
    let v ← x
    let v ← M.convert c v
    M.unary .neg v
  | .plus c => do
    let v ← x
    M.convert c v
  | .not => do
    let v ← x
    M.unary .not v
  | .complement _ c => do
    let v ← x
    let v ← M.convert c v
    M.unary .bitNot v

/-- Whether a value decides a short circuit. -/
def decides (M : Machine V T) (op : LogicalOp) (v : V) : Bool :=
  match op with
  | .or => M.truth v
  | .and | .xor => !M.truth v

def logical (M : Machine V T) (op : LogicalOp) (plan : LogicalPlan) (x y : Except T V) :
    Except T V :=
  match plan with
  | .operator call => M.overload call x y
  | .shortCircuit => do
    let a ← x
    if M.decides op a then .ok a else y
  | .boolXor => do
    let a ← x
    let b ← y
    M.binary .xor a b
  | .bitwise _ l r => M.both (l, r) x y (M.binary op.opcode)

/-- Read a member of a target, or a static one. -/
def read (M : Machine V T) (access : ValueAccess) (member : HostId) (target : Option V) :
    Except T V :=
  match access, target with
  | .field, none => M.static member
  | .field, some v => M.named .getField member v
  | .property, none => M.call member []
  | .property, some v => M.method member v []

/-- Call a member on a target, or a static one. -/
def invoke (M : Machine V T) (member : HostId) (target : Option V) (args : List V) :
    Except T V :=
  match target with
  | none => M.call member args
  | some v => M.method member v args

end Machine

/-! ## Trees -/

namespace Element

variable {V T : Type}

mutual

/-- The value of an element. -/
def eval (M : Machine V T) : Element → Except T V
  | literal _ v => M.literal v
  | arithmetic _ op plan l r => M.arithmetic op plan (l.eval M) (r.eval M)
  | compare _ op plan l r =>
    M.both plan.operandConversions (l.eval M) (r.eval M) (M.compare op plan)
  | shift _ op plan l r => M.shift op plan (l.eval M) (r.eval M)
  | unary _ _ plan e => M.unaryNode plan (e.eval M)
  | logical _ op plan l r => M.logical op plan (l.eval M) (r.eval M)
  | cast _ plan e => do
    let v ← e.eval M
    M.cast plan v
  | conditional _ onTrue onFalse c t f => do
    let condition ← c.eval M
    if M.truth condition then do
      let v ← t.eval M
      M.convert onTrue v
    else do
      let v ← f.eval M
      M.convert onFalse v
  | inList _ probe items => do
    let p ← probe.eval M
    evalItems M p items
  | inCollection _ conversion contains probe collection => do
    let target ← collection.eval M
    let p ← probe.eval M
    let p ← M.convert conversion p
    M.method contains target [p]
  | read _ access member receiver => do
    let target ← evalReceiver M receiver
    M.read access member target
  | call _ target receiver args => do
    let owner ← evalReceiver M receiver
    let values ← evalArguments M args target.conversions
    M.invoke target.method owner values
  | root _ conversion child => do
    let v ← child.eval M
    M.convert conversion v

/-- Whether one of the items equals a probe. -/
def evalItems (M : Machine V T) (probe : V) : List (ComparePlan × Element) → Except T V
  | [] => M.push .pushFalse
  | (plan, e) :: rest => do
    let hit ← M.both plan.operandConversions (.ok probe) (e.eval M) (M.compare .eq plan)
    if M.truth hit then M.push .pushTrue else evalItems M probe rest

/-- The target of a member, if it has one. -/
def evalReceiver (M : Machine V T) : Receiver Element → Except T (Option V)
  | .target e => do
    let v ← e.eval M
    return some v
  | .owner => do
    let v ← M.push .getOwner
    return some v
  | .static => .ok none

/-- The values of arguments, each with its conversion. -/
def evalArguments (M : Machine V T) : List Element → List Conversion → Except T (List V)
  | [], _ => .ok []
  | e :: rest, conversions => do
    let v ← e.eval M
    let v ← M.convert (conversions.head?.getD .identity) v
    let values ← evalArguments M rest conversions.tail
    return v :: values

end

/-- The value of a whole expression is that of its child, converted to the type asked for. -/
theorem eval_root (M : Machine V T) (info : NodeInfo) (c : Conversion) (child : Element) :
    (root info c child).eval M = (do
      let v ← child.eval M
      M.convert c v) := by
  rw [eval]

end Element

end ExprCompiler
