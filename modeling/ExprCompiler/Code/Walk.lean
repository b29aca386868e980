/-
# From trees to directives

Each node stands for a list of steps: directives of its own and visits to its
operands, in the order they run.  `Element.steps` gives that list for one node,
and `flatten` works a list of steps off until only directives are left.  The
work list takes the place of recursion, so a tree may be as deep as memory
holds.

Labels are numbered in the order in which nodes are met.  A visit knows how many
temporary slots are in use around it: slots nest like the nodes that hold them.
-/
import ExprCompiler.Code.Fragment

namespace ExprCompiler

/-- A piece of work: an operand to visit, with the number of temporary slots in
use around it, or a directive. -/
inductive Step
  | visit (live : Nat) (e : Element)
  | emit (d : Directive)

namespace Step

/-- Directives as steps. -/
def emits (ds : List Directive) : List Step := ds.map emit

/-- Visit an operand, then convert its value. -/
def operand (live : Nat) (e : Element) (c : Conversion) : List Step :=
  visit live e :: emits c.directives

/-- Visit two operands, converting each, then do something. -/
def binary (live : Nat) (left right : Element) (conversions : Conversion × Conversion)
    (ds : List Directive) : List Step :=
  operand live left conversions.1 ++ operand live right conversions.2 ++ emits ds

/-- The conversions of both operands of an operator overload. -/
def callConversions (call : CallTarget) : Conversion × Conversion :=
  (call.conversion 0, call.conversion 1)

def arithmetic (live : Nat) (op : ArithmeticOp) (plan : ArithmeticPlan)
    (left right : Element) : List Step :=
  match plan with
  | .operator call => binary live left right (callConversions call) call.directives
  | .numeric _ checked unsigned l r =>
    binary live left right (l, r) [.op (op.opcode checked unsigned)]
  | .concat helper l r => binary live left right (l, r) [.call .call helper 2]
  | .powerUnrolled exponent kind checked =>
    let times := ArithmeticOp.mul.opcode checked kind.isUnsigned
    visit live left :: emits (storeTemporary live
      :: powerDirectives (UInt8.ofNat live) kind times exponent ++ narrowPower kind checked)
  | .powerCall l r => binary live left right (l, r) [.call .call Helper.mathPow 2]

def shift (live : Nat) (op : ShiftOp) (plan : ShiftPlan) (left right : Element) : List Step :=
  match plan with
  | .operator call => binary live left right (callConversions call) call.directives
  | .numeric kind l r => binary live left right (l, r) (op.directives kind)

def unary (live : Nat) (plan : UnaryPlan) (e : Element) : List Step :=
  match plan with
  | .operator call => operand live e (call.conversion 0) ++ emits call.directives
  | .negate kind true c =>
    emit (.constant (.ofNat kind 0)) :: operand live e c ++ [emit (.op .subChecked)]
  | .negate _ false c => operand live e c ++ [emit (.op .neg)]
  | .plus c => operand live e c
  | .not => [visit live e, emit (.op .not)]
  | .complement _ c => operand live e c ++ [emit (.op .bitNot)]

def logical (live first : Nat) (op : LogicalOp) (plan : LogicalPlan) (left right : Element) :
    List Step :=
  match plan with
  | .operator call => binary live left right (callConversions call) call.directives
  | .shortCircuit =>
    [visit live left, emit (.op .dup), emit (.branch op.skipKind first), emit (.op .pop),
      visit live right, emit (.mark first)]
  | .boolXor => [visit live left, visit live right, emit (.op .xor)]
  | .bitwise _ l r => binary live left right (l, r) [.op op.opcode]

/-- Compare the probe in a slot with each item, and leave at the first hit. -/
def items (live hit : Nat) (slot : UInt8) : List (ComparePlan × Element) → List Step
  | [] => []
  | (plan, e) :: rest =>
    emits (.opByte .getLocal slot :: plan.operandConversions.1.directives)
      ++ operand live e plan.operandConversions.2
      ++ emits (plan.directives .eq ++ [.branch .ifTrue hit])
      ++ items live hit slot rest

/-- Visit the element that a member belongs to, or push the owner. -/
def receiver (live : Nat) : Receiver Element → List Step
  | .target e => [visit live e]
  | .owner => [emit (.op .getOwner)]
  | .static => []

/-- Visit arguments, converting each. -/
def arguments (live : Nat) : List Element → List Conversion → List Step
  | [], _ => []
  | e :: args, conversions =>
    operand live e (conversions.head?.getD .identity) ++ arguments live args conversions.tail

end Step

namespace Element

open ExprCompiler.Step

/-- What a node does, its operands in between.  `first` is the number of its
first label. -/
def body (live first : Nat) : Element → List Step
  | literal _ v => emits v.directives
  | arithmetic _ op plan left right => Step.arithmetic live op plan left right
  | compare _ op plan left right =>
    binary live left right plan.operandConversions (plan.directives op)
  | shift _ op plan left right => Step.shift live op plan left right
  | unary _ _ plan e => Step.unary live plan e
  | logical _ op plan left right => Step.logical live first op plan left right
  | cast _ plan e => visit live e :: emits plan.directives
  | conditional _ onTrue onFalse condition whenTrue whenFalse =>
    visit live condition :: emit (.branch .ifFalse first) :: operand live whenTrue onTrue
      ++ [emit (.branch .always (first + 1)), emit (.mark first)]
      ++ operand live whenFalse onFalse ++ [emit (.mark (first + 1))]
  | inList _ probe list =>
    visit live probe :: emit (storeTemporary live)
      :: items (live + 1) first (UInt8.ofNat live) list
      ++ emits [.op .pushFalse, .branch .always (first + 1), .mark first, .op .pushTrue,
        .mark (first + 1)]
  | inCollection _ conversion contains probe collection =>
    visit live collection :: operand live probe conversion
      ++ [emit (.call .callMethod contains 1)]
  | read _ access member source =>
    Step.receiver live source ++ [emit (access.directive source.isStatic member)]
  | call _ target source args =>
    Step.receiver live source ++ arguments live args target.conversions
      ++ emits target.directives
  | root _ conversion child => operand live child conversion ++ [emit (.op .ret)]

/-- All steps of a node: it announces its line first. -/
def steps (live first : Nat) (e : Element) : List Step :=
  emit (.line e.span.line) :: e.body live first

/-- How many labels a node uses itself. -/
def ownLabels : Element → Nat
  | conditional .. | inList .. => 2
  | logical _ _ .shortCircuit _ _ => 1
  | _ => 0

end Element

/-! ## Working steps off -/

/-- The size of what is left to visit. -/
noncomputable def Step.weight : List Step → Nat
  | [] => 0
  | .visit _ e :: ts => sizeOf e + weight ts
  | .emit _ :: ts => weight ts

namespace Step

theorem weight_append (xs ys : List Step) : weight (xs ++ ys) = weight xs + weight ys := by
  induction xs with
  | nil => exact (Nat.zero_add _).symm
  | cons t ts ih => cases t <;> simp only [List.cons_append, weight, ih, Nat.add_assoc]

theorem weight_emits (ds : List Directive) : weight (emits ds) = 0 := by
  induction ds with
  | nil => rfl
  | cons d ds ih => exact ih

theorem weight_operand (live : Nat) (e : Element) (c : Conversion) :
    weight (operand live e c) = sizeOf e := by
  simp only [operand, weight, weight_emits, Nat.add_zero]

theorem weight_binary (live : Nat) (left right : Element)
    (conversions : Conversion × Conversion) (ds : List Directive) :
    weight (binary live left right conversions ds) = sizeOf left + sizeOf right := by
  simp only [binary, weight_append, weight_operand, weight_emits, Nat.add_zero]

theorem weight_items (live hit : Nat) (slot : UInt8) (list : List (ComparePlan × Element)) :
    weight (items live hit slot list) ≤ sizeOf list := by
  induction list with
  | nil => exact Nat.zero_le _
  | cons item rest ih =>
    obtain ⟨plan, e⟩ := item
    simp only [items, weight_append, weight_emits, weight_operand, List.cons.sizeOf_spec,
      Prod.mk.sizeOf_spec]
    omega

theorem weight_receiver (live : Nat) (source : Receiver Element) :
    weight (receiver live source) ≤ sizeOf source := by
  cases source with
  | target e =>
    simp only [receiver, weight, Receiver.target.sizeOf_spec]
    omega
  | owner | static => exact Nat.zero_le _

theorem weight_arguments (live : Nat) (args : List Element) (conversions : List Conversion) :
    weight (arguments live args conversions) ≤ sizeOf args := by
  induction args generalizing conversions with
  | nil => exact Nat.zero_le _
  | cons e rest ih =>
    have := ih conversions.tail
    simp only [arguments, weight_append, weight_operand, List.cons.sizeOf_spec]
    omega

theorem weight_arithmetic (live : Nat) (op : ArithmeticOp) (plan : ArithmeticPlan)
    (left right : Element) :
    weight (arithmetic live op plan left right) ≤ sizeOf left + sizeOf right := by
  cases plan <;> simp only [arithmetic, weight_binary, weight, weight_emits] <;> omega

theorem weight_shift (live : Nat) (op : ShiftOp) (plan : ShiftPlan) (left right : Element) :
    weight (shift live op plan left right) ≤ sizeOf left + sizeOf right := by
  cases plan <;> exact Nat.le_of_eq (weight_binary ..)

theorem weight_unary (live : Nat) (plan : UnaryPlan) (e : Element) :
    weight (unary live plan e) ≤ sizeOf e := by
  rcases plan with _ | ⟨_, _ | _, _⟩ | _ | _ | _ <;>
    simp only [unary, weight_append, weight_operand, weight_emits, weight, List.cons_append] <;>
    omega

theorem weight_logical (live first : Nat) (op : LogicalOp) (plan : LogicalPlan)
    (left right : Element) :
    weight (logical live first op plan left right) ≤ sizeOf left + sizeOf right := by
  cases plan <;> simp only [logical, weight_binary, weight] <;> omega

end Step

/-- The operands that a node visits are together smaller than the node. -/
theorem Element.weight_steps_lt (live first : Nat) (e : Element) :
    Step.weight (e.steps live first) < sizeOf e := by
  cases e with
  | literal =>
    simp only [steps, body, Step.weight, Step.weight_emits, literal.sizeOf_spec]
    omega
  | arithmetic _ op plan left right =>
    have := Step.weight_arithmetic live op plan left right
    simp only [steps, body, Step.weight, arithmetic.sizeOf_spec]
    omega
  | compare =>
    simp only [steps, body, Step.weight, Step.weight_binary, compare.sizeOf_spec]
    omega
  | shift _ op plan left right =>
    have := Step.weight_shift live op plan left right
    simp only [steps, body, Step.weight, shift.sizeOf_spec]
    omega
  | unary _ _ plan e =>
    have := Step.weight_unary live plan e
    simp only [steps, body, Step.weight, unary.sizeOf_spec]
    omega
  | logical _ op plan left right =>
    have := Step.weight_logical live first op plan left right
    simp only [steps, body, Step.weight, logical.sizeOf_spec]
    omega
  | cast =>
    simp only [steps, body, Step.weight, Step.weight_emits, cast.sizeOf_spec]
    omega
  | conditional =>
    simp only [steps, body, Step.weight, Step.weight_append, Step.weight_operand,
      List.cons_append, conditional.sizeOf_spec]
    omega
  | inList _ _ list =>
    have := Step.weight_items (live + 1) first (UInt8.ofNat live) list
    simp only [steps, body, Step.weight, Step.weight_append, Step.weight_emits,
      List.cons_append, inList.sizeOf_spec]
    omega
  | inCollection =>
    simp only [steps, body, Step.weight, Step.weight_append, Step.weight_operand,
      List.cons_append, inCollection.sizeOf_spec]
    omega
  | read _ _ _ source =>
    have := Step.weight_receiver live source
    simp only [steps, body, Step.weight, Step.weight_append, read.sizeOf_spec]
    omega
  | call _ target source args =>
    have := Step.weight_receiver live source
    have := Step.weight_arguments live args target.conversions
    simp only [steps, body, Step.weight, Step.weight_append, Step.weight_emits,
      call.sizeOf_spec]
    omega
  | root =>
    simp only [steps, body, Step.weight, Step.weight_append, Step.weight_operand,
      root.sizeOf_spec]
    omega

/-- Works steps off.  `next` is the number of the next free label, and `done`
holds the directives so far. -/
def flatten (next : Nat) (done : Array Directive) : List Step → Array Directive
  | [] => done
  | .emit d :: rest => flatten next (done.push d) rest
  | .visit live e :: rest =>
    flatten (next + e.ownLabels) done (e.steps live next ++ rest)
termination_by ts => (Step.weight ts, ts.length)
decreasing_by
  · simp [Step.weight, Prod.lex_def]
  · have := e.weight_steps_lt live next
    simp only [Step.weight, Step.weight_append, Prod.lex_def]
    omega

/-- The directives of a tree. -/
def Element.directives (e : Element) : List Directive :=
  (flatten 0 #[] [.visit 0 e]).toList

end ExprCompiler
