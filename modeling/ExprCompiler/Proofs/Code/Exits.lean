/-
# Where code can end

A walk over a tree can end code in two ways: it asks for a return, or it refuses to
go on because the code format cannot hold what comes next.  Few nodes do either.  A
root returns, a node that needs a temporary slot refuses if all slots are in use, and
a call refuses if it has too many arguments (`Element.ownExits`).

The nodes that a walk meets are its operands, node by node, each with the number of
temporaries in use around it (`Element.walk`).  Main result:
`Element.exits_directives`, the exits of a whole tree are those of the nodes met.
-/
import Mathlib.Data.List.Perm.Basic
import ExprCompiler.Proofs.Code.Blocks
import ExprCompiler.Proofs.Tree.Calls

namespace ExprCompiler

/-- A way in which code ends. -/
inductive Exit
  | returns
  | refuses (fault : Fault)
  deriving DecidableEq

namespace Directive

/-- The exit that a directive is. -/
def exit? : Directive → Option Exit
  | .op .ret => some .returns
  | .refuse fault => some (.refuses fault)
  | _ => none

/-- The exits among directives, in order. -/
def exits (ds : List Directive) : List Exit := ds.filterMap exit?

@[simp] theorem exits_nil : exits [] = [] := rfl

@[simp] theorem exits_cons (d : Directive) (ds : List Directive) :
    exits (d :: ds) = d.exit?.toList ++ exits ds := by
  simp only [exits]
  rw [List.filterMap_cons]
  cases d.exit? <;> rfl

@[simp] theorem exits_append (ds ds' : List Directive) :
    exits (ds ++ ds') = exits ds ++ exits ds' :=
  List.filterMap_append

@[simp] theorem exit?_op {code : OpCode} (h : code ≠ .ret) : (op code).exit? = none := by
  unfold exit?
  split
  · next same => exact absurd (Directive.op.inj same) h
  · next same => cases same
  · rfl

@[simp] theorem exit?_line (n : Nat) : (line n).exit? = none := rfl

@[simp] theorem exit?_opByte (code : OpCode) (place : UInt8) :
    (opByte code place).exit? = none := rfl

@[simp] theorem exit?_constant (c : Constant) : (constant c).exit? = none := rfl

@[simp] theorem exit?_opId (code : OpCode) (id : HostId) : (opId code id).exit? = none := rfl

@[simp] theorem exit?_call (code : OpCode) (id : HostId) (argc : UInt8) :
    (call code id argc).exit? = none := rfl

@[simp] theorem exit?_branch (kind : BranchKind) (label : Nat) :
    (branch kind label).exit? = none := rfl

@[simp] theorem exit?_mark (label : Nat) : (mark label).exit? = none := rfl

/-- Operations other than a return, one after the other. -/
theorem exits_ops {ops : List OpCode} (h : .ret ∉ ops) : exits (ops.map op) = [] := by
  refine List.filterMap_eq_nil_iff.mpr ?_
  intro d hd
  obtain ⟨code, hcode, rfl⟩ := List.mem_map.mp hd
  exact exit?_op fun same => h (same ▸ hcode)

end Directive

open Directive

/-! ## Fragments

What a plan, a conversion or a literal adds has no exit, calls apart. -/

theorem NumericKind.ret_not_mem_toFloatOps (source target : NumericKind) :
    .ret ∉ source.toFloatOps target := by
  cases source <;> cases target <;> decide

theorem NumericKind.ret_not_mem_implicitOps (source target : NumericKind) :
    .ret ∉ source.implicitOps target := by
  simp only [implicitOps]
  split
  · exact List.not_mem_nil
  · split
    · exact ret_not_mem_toFloatOps source target
    · split
      · split <;> decide
      · exact List.not_mem_nil

theorem NumericKind.ret_not_mem_explicitOps (source target : NumericKind) (checked : Bool) :
    .ret ∉ source.explicitOps target checked := by
  cases source <;> cases target <;> cases checked <;> decide

@[simp] theorem ArithmeticOp.opcode_ne_ret (op : ArithmeticOp) (checked unsigned : Bool) :
    op.opcode checked unsigned ≠ .ret := by
  cases op <;> cases checked <;> cases unsigned <;> decide

theorem CompareOp.ret_not_mem_opcodes (op : CompareOp) (unsigned floating : Bool) :
    .ret ∉ op.opcodes unsigned floating := by
  cases op <;> cases unsigned <;> cases floating <;> decide

@[simp] theorem CompareOp.exits_negation (op : CompareOp) : exits op.negation = [] := by
  cases op <;> rfl

@[simp] theorem LogicalOp.opcode_ne_ret (op : LogicalOp) : op.opcode ≠ .ret := by
  cases op <;> decide

@[simp] theorem ShiftOp.exits_directives (op : ShiftOp) (kind : NumericKind) :
    exits (op.directives kind) = [] := by
  cases op <;> cases kind <;> rfl

@[simp] theorem ValueAccess.exit?_directive (access : ValueAccess) (isStatic : Bool)
    (member : HostId) : (access.directive isStatic member).exit? = none := by
  cases access <;> cases isStatic <;> rfl

@[simp] theorem Literal.exits_directives (v : Literal) : exits v.directives = [] := by
  cases v with
  | bool b => cases b <;> rfl
  | _ => rfl

@[simp] theorem Conversion.exits_directives (c : Conversion) : exits c.directives = [] := by
  simp only [Conversion.directives]
  cases c.kind with
  | numeric source target => exact exits_ops (NumericKind.ret_not_mem_implicitOps _ _)
  | _ => rfl

@[simp] theorem CastPlan.exits_directives (plan : CastPlan) : exits plan.directives = [] := by
  cases plan with
  | implicit c => exact c.exits_directives
  | numeric source target checked => exact exits_ops (NumericKind.ret_not_mem_explicitOps _ _ _)
  | _ => rfl

@[simp] theorem exits_narrowPower (kind : NumericKind) (checked : Bool) :
    exits (narrowPower kind checked) = [] := by
  simp only [narrowPower]
  split
  · exact exits_ops (NumericKind.ret_not_mem_explicitOps _ _ _)
  · rfl

@[simp] theorem exits_powerDirectives {times : OpCode} (h : times ≠ .ret) (slot : UInt8)
    (kind : NumericKind) (n : Nat) : exits (powerDirectives slot kind times n) = [] := by
  fun_induction powerDirectives slot kind times n with
  | case1 => rfl
  | case2 => rfl
  | case3 n _ _ _ ih => simp [ih, h]
  | case4 n _ _ _ ih => simp [ih, h]

/-- A call whose arguments are too many for a byte is refused. -/
def CallTarget.exits (call : CallTarget) : List Exit :=
  if 255 < call.conversions.length then [.refuses .tooManyArguments] else []

@[simp] theorem CallTarget.exits_directives (call : CallTarget) :
    Directive.exits call.directives = call.exits := by
  unfold CallTarget.directives CallTarget.exits
  by_cases small : call.conversions.length < 256
  · rw [if_neg (Nat.not_lt.mpr (Nat.le_of_lt_succ small))]
    simp [small]
  · rw [if_pos (Nat.lt_of_lt_of_le (by decide) (Nat.not_lt.mp small))]
    simp [small, exit?]

@[simp] theorem ComparePlan.exits_directives (plan : ComparePlan) (op : CompareOp) :
    Directive.exits (plan.directives op) = plan.operators.flatMap CallTarget.exits := by
  cases plan with
  | operator call negate =>
      cases negate <;> simp [ComparePlan.directives, ComparePlan.operators]
  | numeric kind left right => exact exits_ops (CompareOp.ret_not_mem_opcodes _ _ _)
  | enum kind => exact exits_ops (CompareOp.ret_not_mem_opcodes _ _ _)
  | string mode => simp [ComparePlan.directives, ComparePlan.operators]
  | boolean => simp [ComparePlan.directives, ComparePlan.operators]
  | reference => simp [ComparePlan.directives, ComparePlan.operators]

/-- A temporary that finds no free slot is refused. -/
@[simp] theorem exit?_storeTemporary (live : Nat) :
    (storeTemporary live).exit?.toList
      = if 256 ≤ live then [.refuses .tooManyTemporaries] else [] := by
  simp only [storeTemporary]
  by_cases small : live < 256
  · rw [if_pos small, if_neg (by omega)]
    rfl
  · rw [if_neg small, if_pos (by omega)]
    rfl

/-! ## Nodes -/

namespace Step

/-- The operands that steps visit, in order, each with the number of temporaries in
use around it. -/
def visits (ts : List Step) : List (Nat × Element) :=
  ts.filterMap fun
    | .visit live e => some (live, e)
    | .emit _ => none

/-- The directives of the steps themselves. -/
def own (ts : List Step) : List Directive :=
  ts.filterMap fun
    | .visit _ _ => none
    | .emit d => some d

section

variable (live : Nat) (e : Element) (d : Directive) (ts us : List Step)

@[simp] theorem visits_nil : visits [] = [] := rfl

@[simp] theorem visits_visit : visits (.visit live e :: ts) = (live, e) :: visits ts := rfl

@[simp] theorem visits_emit : visits (.emit d :: ts) = visits ts := rfl

@[simp] theorem visits_append : visits (ts ++ us) = visits ts ++ visits us :=
  List.filterMap_append

@[simp] theorem own_nil : own [] = [] := rfl

@[simp] theorem own_visit : own (.visit live e :: ts) = own ts := rfl

@[simp] theorem own_emit : own (.emit d :: ts) = d :: own ts := rfl

@[simp] theorem own_append : own (ts ++ us) = own ts ++ own us :=
  List.filterMap_append

end

@[simp] theorem visits_emits (ds : List Directive) : visits (emits ds) = [] := by
  induction ds with
  | nil => rfl
  | cons d ds ih => exact ih

@[simp] theorem own_emits (ds : List Directive) : own (emits ds) = ds := by
  induction ds with
  | nil => rfl
  | cons d ds ih => exact congrArg (d :: ·) ih

@[simp] theorem visits_items (live hit : Nat) (slot : UInt8)
    (list : List (ComparePlan × Element)) :
    visits (items live hit slot list) = list.map (fun item => (live, item.2)) := by
  induction list with
  | nil => rfl
  | cons item rest ih => simp [items, operand, ih]

@[simp] theorem exits_own_items (live hit : Nat) (slot : UInt8)
    (list : List (ComparePlan × Element)) :
    exits (own (items live hit slot list))
      = (list.flatMap (·.1.operators)).flatMap CallTarget.exits := by
  induction list with
  | nil => rfl
  | cons item rest ih => simp [items, operand, ih]

@[simp] theorem visits_receiver (live : Nat) (source : Receiver Element) :
    visits (receiver live source) = (Element.receiverChildren source).map ((live, ·)) := by
  cases source <;> rfl

@[simp] theorem exits_own_receiver (live : Nat) (source : Receiver Element) :
    exits (own (receiver live source)) = [] := by
  cases source <;> rfl

@[simp] theorem visits_arguments (live : Nat) (args : List Element)
    (conversions : List Conversion) :
    visits (arguments live args conversions) = args.map ((live, ·)) := by
  induction args generalizing conversions with
  | nil => rfl
  | cons e args ih => simp [arguments, operand, ih]

@[simp] theorem exits_own_arguments (live : Nat) (args : List Element)
    (conversions : List Conversion) :
    exits (own (arguments live args conversions)) = [] := by
  induction args generalizing conversions with
  | nil => rfl
  | cons e args ih => simp [arguments, operand, ih]

/-- What steps visit is part of what is left to visit. -/
theorem sizeOf_le_weight {ts : List Step} {p : Nat × Element} (h : p ∈ visits ts) :
    sizeOf p.2 ≤ weight ts := by
  induction ts with
  | nil => exact absurd h List.not_mem_nil
  | cons t ts ih =>
      cases t with
      | visit live e =>
          rcases List.mem_cons.mp h with rfl | later
          · exact Nat.le_add_right _ _
          · exact Nat.le_trans (ih later) (Nat.le_add_left _ _)
      | emit d => exact ih h

end Step

namespace Element

/-- The operands that a node walks, in order, each with the number of temporaries
that the node holds meanwhile.  An unrolled power leaves its exponent out. -/
def operands : Element → List (Nat × Element)
  | literal _ _ => []
  | arithmetic _ _ (.powerUnrolled _ _ _) l _ => [(0, l)]
  | arithmetic _ _ _ l r | compare _ _ _ l r | shift _ _ _ l r | logical _ _ _ l r =>
    [(0, l), (0, r)]
  | unary _ _ _ e | cast _ _ e | root _ _ e => [(0, e)]
  | conditional _ _ _ c t f => [(0, c), (0, t), (0, f)]
  | inList _ probe items => (0, probe) :: items.map (fun item => (1, item.2))
  | inCollection _ _ _ probe collection => [(0, collection), (0, probe)]
  | read _ _ _ receiver => (receiverChildren receiver).map ((0, ·))
  | call _ _ receiver args => (receiverChildren receiver ++ args).map ((0, ·))

/-- The number of temporaries that a node holds itself: a list holds its probe and an
unrolled power its base. -/
def holds : Element → Nat
  | inList _ _ _ | arithmetic _ _ (.powerUnrolled _ _ _) _ _ => 1
  | _ => 0

/-- The members that a node calls: operator overloads, and a method. -/
def calls : Element → List CallTarget
  | call _ target _ _ => [target]
  | e => e.operators

/-- The exits of a node itself, with `live` temporaries in use around it. -/
def ownExits (live : Nat) (e : Element) : List Exit :=
  (if 0 < e.holds ∧ 256 ≤ live then [.refuses .tooManyTemporaries] else [])
    ++ e.calls.flatMap CallTarget.exits ++ if e.isRoot then [.returns] else []

theorem visits_steps (e : Element) (live first : Nat) :
    Step.visits (e.steps live first) = e.operands.map (fun p => (live + p.1, p.2)) := by
  cases e with
  | arithmetic info op plan l r =>
      cases plan <;>
        simp [steps, body, Step.arithmetic, Step.binary, Step.operand, operands]
  | shift info op plan l r =>
      cases plan <;> simp [steps, body, Step.shift, Step.binary, Step.operand, operands]
  | unary info op plan x =>
      rcases plan with _ | ⟨_, _ | _, _⟩ | _ | _ | _ <;>
        simp [steps, body, Step.unary, Step.operand, operands]
  | logical info op plan l r =>
      cases plan <;> simp [steps, body, Step.logical, Step.binary, Step.operand, operands]
  | _ => simp [steps, body, Step.binary, Step.operand, operands, Function.comp_def]

theorem exits_steps (e : Element) (live first : Nat) :
    exits (Step.own (e.steps live first)) = e.ownExits live := by
  simp only [ownExits]
  cases e with
  | arithmetic info op plan l r =>
      cases plan <;>
        simp [steps, body, Step.arithmetic, Step.binary, Step.operand, holds, calls, operators,
          isRoot]
  | shift info op plan l r =>
      cases plan <;>
        simp [steps, body, Step.shift, Step.binary, Step.operand, holds, calls, operators, isRoot]
  | unary info op plan x =>
      rcases plan with _ | ⟨_, _ | _, _⟩ | _ | _ | _ <;>
        simp [steps, body, Step.unary, Step.operand, holds, calls, operators, isRoot]
  | logical info op plan l r =>
      cases plan <;>
        simp [steps, body, Step.logical, Step.binary, Step.operand, holds, calls, operators,
          isRoot]
  | root info conversion child =>
      simp [steps, body, Step.operand, holds, calls, operators, isRoot, exit?]
  | _ => simp [steps, body, Step.binary, Step.operand, holds, calls, operators, isRoot]

/-! ## Walks -/

/-- An operand that is walked is smaller than its node. -/
theorem sizeOf_operand {e : Element} {p : Nat × Element} (h : p ∈ e.operands) :
    sizeOf p.2 < sizeOf e := by
  have visited : (0 + p.1, p.2) ∈ Step.visits (e.steps 0 0) := by
    rw [visits_steps]
    exact List.mem_map.mpr ⟨p, h, rfl⟩
  have within := Step.sizeOf_le_weight visited
  exact Nat.lt_of_le_of_lt within (e.weight_steps_lt 0 0)

/-- The nodes that a walk meets, each with the number of temporaries in use around
it. -/
def walk (live : Nat) (e : Element) : List (Nat × Element) :=
  (live, e) :: e.operands.attach.flatMap (fun p => p.1.2.walk (live + p.1.1))
termination_by sizeOf e
decreasing_by exact sizeOf_operand p.2

theorem walk_eq (live : Nat) (e : Element) :
    e.walk live = (live, e) :: e.operands.flatMap (fun p => p.2.walk (live + p.1)) := by
  rw [walk, List.flatMap_subtype (g := fun p => p.2.walk (live + p.1)) (fun _ _ => rfl),
    List.unattach_attach]

/-- What the nodes of a walk contribute, the node first and then its operands by its steps. -/
theorem flatMap_walk {α : Type} (g : Nat × Element → List α) (live first : Nat) (e : Element) :
    (e.walk live).flatMap g
      = g (live, e) ++ (Step.visits (e.steps live first)).flatMap (fun p =>
          (p.2.walk p.1).flatMap g) := by
  rw [walk_eq, List.flatMap_cons, List.flatMap_assoc, visits_steps, List.flatMap_map]

/-- The exits of the nodes that a walk meets. -/
def exits (live : Nat) (e : Element) : List Exit :=
  (e.walk live).flatMap (fun p => p.2.ownExits p.1)

end Element

/-- What directives contribute comes from the steps themselves and from the nodes they lead to,
if the labels of a node do not matter for it. -/
theorem Step.Gives.filterMap_perm {α : Type} {f : Directive → Option α}
    {g : Nat × Element → List α}
    (node : ∀ (e : Element) (live first : Nat),
      (own (e.steps live first)).filterMap f = g (live, e))
    {next next' : Nat} {ts : List Step} {ds : List Directive} (h : Gives next ts ds next') :
    (ds.filterMap f).Perm
      ((own ts).filterMap f ++ (visits ts).flatMap (fun p => (p.2.walk p.1).flatMap g)) := by
  induction h with
  | nil next => exact .refl _
  | @emit next next' d ts ds _ ih =>
      rw [own_emit, visits_emit]
      cases known : f d with
      | none =>
          rw [List.filterMap_cons_none known, List.filterMap_cons_none known]
          exact ih
      | some a =>
          rw [List.filterMap_cons_some known, List.filterMap_cons_some known]
          exact ih.cons a
  | @visit next middle next' live e ts ds ds' _ _ ih ih' =>
      rw [node, ← e.flatMap_walk] at ih
      rw [List.filterMap_append, own_visit, visits_visit, List.flatMap_cons]
      exact (ih.append ih').trans (List.perm_append_comm_assoc _ _ _)

/-- The same for a whole tree. -/
theorem Element.filterMap_directives {α : Type} {f : Directive → Option α}
    {g : Nat × Element → List α}
    (node : ∀ (e : Element) (live first : Nat),
      (Step.own (e.steps live first)).filterMap f = g (live, e)) (e : Element) :
    (e.directives.filterMap f).Perm ((e.walk 0).flatMap g) := by
  obtain ⟨next', given⟩ := e.directives_given
  have all := given.filterMap_perm node
  rwa [Step.own_visit, Step.own_nil, List.filterMap_nil, List.nil_append, Step.visits_visit,
    Step.visits_nil, List.flatMap_cons, List.flatMap_nil, List.append_nil] at all

/-- The exits of the code of a tree are those of the nodes that its walk meets. -/
theorem Element.exits_directives (e : Element) :
    (Directive.exits e.directives).Perm (e.exits 0) :=
  filterMap_directives (g := fun p => p.2.ownExits p.1) exits_steps e

end ExprCompiler
