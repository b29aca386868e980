/-
# What a node adds

Between its operands a node adds operations, constants, calls, branches and marks, and refuses
what does not fit.  All else is rare: its source line, which it announces first, and the
temporary slot of the few nodes that hold one.

So what looks for lines or slots passes over nearly everything (`Directive.Plain`).  In a node
that holds no temporary there is nothing for it but the line (`Element.plain_body`), and in one
that does there is the write to the slot, and then at most its reads
(`Element.exists_body_of_holds`).
-/
import ExprCompiler.Proofs.Code.Exits

namespace ExprCompiler

namespace Directive

/-- A directive that neither announces a line nor names a slot, or names one only to read it. -/
def isPlain (loads : Bool) : Directive → Bool
  | .line _ => false
  | .opByte code _ => loads && code == .getLocal
  | _ => true

/-- All are plain. -/
def Plain (loads : Bool) (ds : List Directive) : Prop := ∀ d ∈ ds, d.isPlain loads = true

variable {loads : Bool} {d : Directive} {ds ds' : List Directive}

@[simp] theorem plain_nil : Plain loads [] := fun _ hd => absurd hd List.not_mem_nil

@[simp] theorem plain_cons : Plain loads (d :: ds) ↔ d.isPlain loads = true ∧ Plain loads ds :=
  List.forall_mem_cons

@[simp] theorem plain_append : Plain loads (ds ++ ds') ↔ Plain loads ds ∧ Plain loads ds' :=
  List.forall_mem_append

@[simp] theorem isPlain_op (code : OpCode) : (op code).isPlain loads = true := rfl

@[simp] theorem isPlain_constant (c : Constant) : (constant c).isPlain loads = true := rfl

@[simp] theorem isPlain_opId (code : OpCode) (id : HostId) :
    (opId code id).isPlain loads = true := rfl

@[simp] theorem isPlain_call (code : OpCode) (id : HostId) (argc : UInt8) :
    (call code id argc).isPlain loads = true := rfl

@[simp] theorem isPlain_branch (kind : BranchKind) (label : Nat) :
    (branch kind label).isPlain loads = true := rfl

@[simp] theorem isPlain_mark (label : Nat) : (mark label).isPlain loads = true := rfl

@[simp] theorem isPlain_refuse (fault : Fault) : (refuse fault).isPlain loads = true := rfl

@[simp] theorem isPlain_load (place : UInt8) :
    (opByte .getLocal place).isPlain true = true := rfl

theorem plain_ops (ops : List OpCode) : Plain loads (ops.map op) := by
  intro d hd
  obtain ⟨code, -, rfl⟩ := List.mem_map.mp hd
  rfl

/-- A reading that sees nothing in plain directives finds nothing among them. -/
theorem Plain.filterMap {α : Type} {f : Directive → Option α}
    (overlooks : ∀ d : Directive, d.isPlain loads = true → f d = none) (h : Plain loads ds) :
    ds.filterMap f = [] :=
  List.filterMap_eq_nil_iff.mpr fun d hd => overlooks d (h d hd)

end Directive

open Directive

variable {loads : Bool}

/-! ## Fragments -/

@[simp] theorem CompareOp.plain_negation (op : CompareOp) : Plain loads op.negation := by
  cases op <;> simp [negation]

@[simp] theorem ShiftOp.plain_directives (op : ShiftOp) (kind : NumericKind) :
    Plain loads (op.directives kind) := by
  simp [ShiftOp.directives]

@[simp] theorem ValueAccess.isPlain_directive (access : ValueAccess) (isStatic : Bool)
    (member : HostId) : (access.directive isStatic member).isPlain loads = true := by
  cases access <;> cases isStatic <;> rfl

@[simp] theorem Literal.plain_directives (v : Literal) : Plain loads v.directives := by
  cases v with
  | bool b => cases b <;> simp [Literal.directives]
  | _ => simp [Literal.directives]

@[simp] theorem Conversion.plain_directives (c : Conversion) : Plain loads c.directives := by
  simp only [Conversion.directives]
  cases c.kind with
  | numeric source target => exact plain_ops _
  | _ => simp

@[simp] theorem CastPlan.plain_directives (plan : CastPlan) : Plain loads plan.directives := by
  cases plan with
  | implicit c => exact c.plain_directives
  | numeric source target checked => exact plain_ops _
  | _ => simp [CastPlan.directives]

@[simp] theorem CallTarget.plain_directives (call : CallTarget) : Plain loads call.directives := by
  unfold CallTarget.directives
  simp only
  split <;> simp

@[simp] theorem ComparePlan.plain_directives (plan : ComparePlan) (op : CompareOp) :
    Plain loads (plan.directives op) := by
  cases plan with
  | operator call negate => cases negate <;> simp [ComparePlan.directives]
  | numeric kind left right => exact plain_ops _
  | enum kind => exact plain_ops _
  | _ => simp [ComparePlan.directives]

@[simp] theorem plain_narrowPower (kind : NumericKind) (checked : Bool) :
    Plain loads (narrowPower kind checked) := by
  simp only [narrowPower]
  split
  · exact plain_ops _
  · exact plain_nil

@[simp] theorem plain_powerDirectives (slot : UInt8) (kind : NumericKind) (times : OpCode)
    (n : Nat) : Plain true (powerDirectives slot kind times n) := by
  fun_induction powerDirectives slot kind times n with
  | case1 => simp
  | case2 => simp
  | case3 n _ _ _ ih => simp [ih]
  | case4 n _ _ _ ih => simp [ih]

/-! ## Nodes -/

namespace Step

@[simp] theorem plain_own_receiver (live : Nat) (source : Receiver Element) :
    Plain loads (own (receiver live source)) := by
  cases source <;> simp [receiver]

@[simp] theorem plain_own_arguments (live : Nat) (args : List Element)
    (conversions : List Conversion) : Plain loads (own (arguments live args conversions)) := by
  induction args generalizing conversions with
  | nil => exact plain_nil
  | cons e args ih => simp [arguments, operand, ih]

@[simp] theorem plain_own_items (live hit : Nat) (slot : UInt8)
    (list : List (ComparePlan × Element)) : Plain true (own (items live hit slot list)) := by
  induction list with
  | nil => exact plain_nil
  | cons item rest ih => simp [items, operand, ih]

end Step

namespace Element

/-- In a node that holds no temporary all is plain. -/
theorem plain_body {e : Element} (h : e.holds = 0) (live first : Nat) :
    Plain loads (Step.own (e.body live first)) := by
  cases e with
  | arithmetic info op plan l r =>
      cases plan with
      | powerUnrolled exponent kind checked => cases h
      | _ => simp [body, Step.arithmetic, Step.binary, Step.operand]
  | shift info op plan l r =>
      cases plan <;> simp [body, Step.shift, Step.binary, Step.operand]
  | unary info op plan x =>
      rcases plan with _ | ⟨_, _ | _, _⟩ | _ | _ | _ <;> simp [body, Step.unary, Step.operand]
  | logical info op plan l r =>
      cases plan <;> simp [body, Step.logical, Step.binary, Step.operand]
  | inList info probe items => cases h
  | _ => simp [body, Step.binary, Step.operand]

/-- A node that holds one writes it first, and then at most reads it. -/
theorem exists_body_of_holds {e : Element} (h : e.holds ≠ 0) (live first : Nat) :
    ∃ rest, Step.own (e.body live first) = storeTemporary live :: rest ∧ Plain true rest := by
  cases e with
  | arithmetic info op plan l r =>
      cases plan with
      | powerUnrolled exponent kind checked =>
          refine ⟨_, Step.own_emits _, ?_⟩
          exact plain_append.mpr ⟨plain_powerDirectives _ _ _ _, plain_narrowPower _ _⟩
      | _ => exact absurd rfl h
  | inList info probe items =>
      refine ⟨Step.own (Step.items (live + 1) first (UInt8.ofNat live) items)
        ++ [.op .pushFalse, .branch .always (first + 1), .mark first, .op .pushTrue,
          .mark (first + 1)], ?_, ?_⟩
      · simp [body]
      · simp
  | _ => exact absurd rfl h

/-- What does not matter in plain directives is found in a node at most where it keeps a
temporary. -/
theorem filterMap_body {α : Type} {f : Directive → Option α}
    (overlooks : ∀ d : Directive, d.isPlain true = true → f d = none) (e : Element)
    (live first : Nat) : (Step.own (e.body live first)).filterMap f
      = if e.holds = 0 then [] else (f (storeTemporary live)).toList := by
  by_cases h : e.holds = 0
  · rw [if_pos h, (plain_body h live first).filterMap overlooks]
  · obtain ⟨rest, written, plain⟩ := exists_body_of_holds h live first
    rw [if_neg h, written, List.filterMap_cons, plain.filterMap overlooks]
    cases f (storeTemporary live) <;> rfl

end Element

end ExprCompiler
