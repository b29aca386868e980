/-
# What fragments of code do

One lemma for each instruction, and from these one for each fragment that a plan
or a conversion adds between the operands of a node: it does the operation of the
same name in `Evaluation`.  Instructions that move values about or branch come
last, with the places they are fetched from.
-/
import ExprCompiler.Proofs.Machine.Evaluation
import ExprCompiler.Proofs.Machine.Straight
import ExprCompiler.Proofs.Tree.Calls

namespace ExprCompiler

namespace Machine

variable {V T : Type} {M : Machine V T} {P : List (Option V) → Prop} {s : List V}

/-! ## Instructions -/

theorem does_push {op : OpCode} (effect : op.effect? = some .push) :
    M.Does P [.op op] s (M.push op) (· :: s) := by
  refine .one (fun _ => rfl) ?_
  intro slots o m _
  simp only [act, plain, effect]

theorem does_unary {op : OpCode} {v : V} (effect : op.effect? = some .unary) :
    M.Does P [.op op] (v :: s) (M.unary op v) (· :: s) := by
  refine .one (fun _ => rfl) ?_
  intro slots o m _
  simp only [act, plain, effect]

theorem does_binary {op : OpCode} {a b : V} (effect : op.effect? = some .binary) :
    M.Does P [.op op] (b :: a :: s) (M.binary op a b) (· :: s) := by
  refine .one (fun _ => rfl) ?_
  intro slots o m _
  simp only [act, plain, effect]

theorem does_constant (value : Constant) :
    M.Does P [.constant value] s (M.constant value) (· :: s) :=
  .one (fun _ => rfl) fun _ _ _ _ => rfl

theorem does_named {op : OpCode} {id : HostId} {v : V}
    (h : op ∈ [OpCode.getField, .box, .unbox, .castClass]) :
    M.Does P [.opId op id] (v :: s) (M.named op id v) (· :: s) := by
  refine .one (fun _ => rfl) ?_
  intro slots o m _
  simp only [List.mem_cons, List.not_mem_nil, or_false] at h
  rcases h with rfl | rfl | rfl | rfl <;> rfl

theorem does_static {id : HostId} :
    M.Does P [.opId .getStatic id] s (M.static id) (· :: s) :=
  .one (fun _ => rfl) fun _ _ _ _ => rfl

/-- Arguments lie on the stack with the last one on top. -/
theorem does_call {id : HostId} {argc : UInt8} (args : List V) (count : args.length = argc.toNat) :
    M.Does P [.call .call id argc] (args.reverse ++ s) (M.call id args) (· :: s) := by
  refine .one (fun _ => rfl) ?_
  intro slots o m _
  have length : argc.toNat = args.reverse.length := by rw [List.length_reverse, count]
  simp only [act, calling, length, List.take_left, List.drop_left, List.reverse_reverse,
    List.length_append, Nat.le_add_right, if_true]

theorem does_method {id : HostId} {argc : UInt8} {target : V} (args : List V)
    (count : args.length = argc.toNat) :
    M.Does P [.call .callMethod id argc] (args.reverse ++ target :: s) (M.method id target args)
      (· :: s) := by
  refine .one (fun _ => rfl) ?_
  intro slots o m _
  have length : argc.toNat = args.reverse.length := by rw [List.length_reverse, count]
  simp only [act, calling, length, List.take_left, List.drop_left, List.reverse_reverse,
    List.length_append, Nat.le_add_right, if_true]

theorem does_getLocal {place : UInt8} {v : V}
    (held : ∀ slots, P slots → slots[place.toNat]? = some (some v)) :
    M.Does P [.opByte .getLocal place] s (.ok v) (· :: s) := by
  refine .one (fun _ => rfl) ?_
  intro slots o m holds
  simp only [act, slot, held slots holds]
  rfl

/-- A value and itself. -/
theorem does_square {op : OpCode} {v : V} (effect : op.effect? = some .binary) :
    M.Does P [.op .dup, .op op] (v :: s) (M.binary op v v) (· :: s) :=
  .step (fun _ => rfl) (fun _ _ _ _ => rfl) (does_binary effect)

theorem does_nothing {v : V} : M.Does P [] (v :: s) (.ok v : Except T V) (· :: s) :=
  .result rfl

/-! ## Conversions -/

theorem does_unaries {ops : List OpCode} (h : ∀ op ∈ ops, op.effect? = some .unary) {v : V} :
    M.Does P (ops.map .op) (v :: s) (M.unaries ops v) (· :: s) := by
  induction ops generalizing v with
  | nil => exact does_nothing
  | cons op ops ih =>
      rw [unaries, List.foldlM_cons]
      exact (does_unary (h op List.mem_cons_self)).bind fun v =>
        ih fun op hop => h op (List.mem_cons_of_mem _ hop)

theorem effect_implicitOps (source target : NumericKind) :
    ∀ op ∈ source.implicitOps target, op.effect? = some .unary := by
  cases source <;> cases target <;> decide

theorem effect_explicitOps (source target : NumericKind) (checked : Bool) :
    ∀ op ∈ source.explicitOps target checked, op.effect? = some .unary := by
  cases source <;> cases target <;> cases checked <;> decide

theorem does_convert {c : Conversion} {v : V} :
    M.Does P c.directives (v :: s) (M.convert c v) (· :: s) := by
  unfold Conversion.directives convert
  cases c.kind with
  | identity => exact does_nothing
  | nullReference => exact does_nothing
  | upcast target => exact does_nothing
  | numeric source target => exact does_unaries (effect_implicitOps source target)
  | boxing value => exact does_named (by decide)
  | user method => exact does_call [v] rfl

theorem does_cast {plan : CastPlan} {v : V} :
    M.Does P plan.directives (v :: s) (M.cast plan v) (· :: s) := by
  cases plan with
  | identity => exact does_nothing
  | implicit c => exact does_convert
  | numeric source target checked => exact does_unaries (effect_explicitOps source target checked)
  | user method => exact does_call [v] rfl
  | castClass target => exact does_named (by decide)
  | unbox target => exact does_named (by decide)

theorem does_literal {v : Literal} : M.Does P v.directives s (M.literal v) (· :: s) := by
  cases v with
  | bool b =>
      cases b with
      | true => exact does_push rfl
      | false => exact does_push rfl
  | null => exact does_push rfl
  | _ => exact does_constant _

/-! ## Powers -/

theorem effect_arithmetic (op : ArithmeticOp) (checked unsigned : Bool) :
    (op.opcode checked unsigned).effect? = some .binary := by
  cases op <;> cases checked <;> cases unsigned <;> rfl

/-- The base of a power is read from its slot again and again. -/
theorem does_power {place : UInt8} {kind : NumericKind} {times : OpCode} {base : V} (n : Nat)
    (effect : times.effect? = some .binary)
    (held : ∀ slots, P slots → slots[place.toNat]? = some (some base)) :
    M.Does P (powerDirectives place kind times n) s (M.power kind times base n) (· :: s) := by
  fun_induction powerDirectives place kind times n with
  | case1 =>
      rw [power, if_pos rfl]
      exact does_constant _
  | case2 _ =>
      rw [power, if_neg Nat.one_ne_zero, if_pos rfl]
      exact does_getLocal held
  | case3 n zero one even ih =>
      rw [power, if_neg zero, if_neg one, if_pos even]
      exact ih.bind fun root => does_square effect
  | case4 n zero one odd ih =>
      rw [power, if_neg zero, if_neg one, if_neg odd]
      exact ih.bind fun rest => (does_getLocal held).bind fun _ => does_binary effect

theorem does_narrow {kind : NumericKind} {checked : Bool} {v : V} :
    M.Does P (narrowPower kind checked) (v :: s) (M.narrow kind checked v) (· :: s) := by
  unfold narrowPower narrow
  split
  · exact does_unaries (effect_explicitOps _ _ _)
  · exact does_nothing

/-! ## Comparisons, shifts and calls -/

theorem does_negated {negate : Bool} {ds : List Directive} {before : List V} {x : Except T V}
    (first : M.Does P ds before x (· :: s)) :
    M.Does P (ds ++ if negate then [.op .not] else []) before (M.negated negate x) (· :: s) := by
  refine first.bind ?_
  intro v
  cases negate with
  | false => exact does_nothing
  | true => exact does_unary rfl

theorem does_compareNumbers {op : CompareOp} {unsigned floating : Bool} {a b : V} :
    M.Does P ((op.opcodes unsigned floating).map .op) (b :: a :: s)
      (M.compareNumbers op unsigned floating a b) (· :: s) := by
  have turned {code : OpCode} (effect : code.effect? = some .binary) :
      M.Does P ([code, .not].map .op) (b :: a :: s) (M.negated true (M.binary code a b))
        (· :: s) := by
    show M.Does P ([.op code] ++ if true then [.op .not] else []) _ _ _
    exact does_negated (does_binary effect)
  cases op with
  | eq => exact does_binary rfl
  | ne => exact turned rfl
  | lt => exact does_binary (by cases unsigned <;> rfl)
  | gt => exact does_binary (by cases unsigned <;> rfl)
  | le => exact turned (by cases unsigned <;> cases floating <;> rfl)
  | ge => exact turned (by cases unsigned <;> cases floating <;> rfl)

/-- A call of a member on a target, or of a static one. -/
theorem does_invoke {call : CallTarget} {target : Option V} (args : List V)
    (same : call.isStatic = target.isNone) (count : call.conversions.length = args.length)
    (small : call.conversions.length < 256) :
    M.Does P call.directives (args.reverse ++ (target.toList ++ s))
      (M.invoke call.method target args) (· :: s) := by
  have argc : args.length = call.conversions.length.toUInt8.toNat := by
    rw [Nat.toUInt8_eq, UInt8.toNat_ofNat', Nat.mod_eq_of_lt small, count]
  simp only [CallTarget.directives]
  simp only [if_pos small, same]
  cases target with
  | none => exact does_call args argc
  | some v => exact does_method args argc

/-- An overload is a static member with as many parameters as operands. -/
theorem does_overload {call : CallTarget} (args : List V) (static : call.isStatic = true)
    (count : call.conversions.length = args.length) (small : args.length < 256) :
    M.Does P call.directives (args.reverse ++ s) (M.call call.method args) (· :: s) := by
  show M.Does P call.directives (args.reverse ++ ((none : Option V).toList ++ s))
    (M.invoke call.method none args) _
  exact does_invoke args static count (count ▸ small)

theorem does_compare {op : CompareOp} {plan : ComparePlan} {a b : V} (usable : plan.Usable) :
    M.Does P (plan.directives op) (b :: a :: s) (M.compare op plan a b) (· :: s) := by
  have turned : op.negation = if decide (op = .ne) then [.op .not] else [] := by
    simp only [CompareOp.negation, decide_eq_true_eq]
  have equal : M.Does P (.op .eq :: op.negation) (b :: a :: s)
      (M.negated (op = .ne) (M.binary .eq a b)) (· :: s) := by
    rw [turned]
    exact does_negated (does_binary rfl)
  cases plan with
  | operator call negate =>
      obtain ⟨static, count⟩ := usable call negate rfl
      exact does_negated (does_overload [a, b] static count (by simp))
  | numeric kind l r => exact does_compareNumbers
  | enum kind => exact does_compareNumbers
  | string mode =>
      simp only [ComparePlan.directives]
      rw [turned]
      refine (does_constant _).bind ?_
      intro mode
      exact does_negated (does_call [a, b, mode] rfl)
  | boolean => exact equal
  | reference => exact equal

theorem does_shift {op : ShiftOp} {kind : NumericKind} {a b : V} :
    M.Does P (op.directives kind) (b :: a :: s) (do
      let mask ← M.constant (.int32 (if kind.isWide then 0x3f else 0x1f))
      let count ← M.binary .and b mask
      M.binary (op.opcode kind.isUnsigned) a count) (· :: s) := by
  have effect : (op.opcode kind.isUnsigned).effect? = some .binary := by
    cases op <;> cases kind.isUnsigned <;> rfl
  refine (does_constant _).bind ?_
  intro mask
  exact (does_binary rfl).bind fun count => does_binary effect

theorem does_read {access : ValueAccess} {member : HostId} {target : Option V} {isStatic : Bool}
    (same : isStatic = target.isNone) :
    M.Does P [access.directive isStatic member] (target.toList ++ s)
      (M.read access member target) (· :: s) := by
  subst same
  cases access with
  | field =>
      cases target with
      | none => exact does_static
      | some v => exact does_named (by decide)
  | property =>
      cases target with
      | none => exact does_call [] rfl
      | some v => exact does_method [] rfl

/-! ## Moving values and branching -/

variable {em : Emission} {o m : Nat} {slots : List (Option V)}

theorem reaches_setLocal {place : UInt8} {v : V}
    (fetched : em.fetch? o = some (.slot .setLocal place, m))
    (room : place.toNat < slots.length) :
    M.Reaches em ⟨o, v :: s, slots⟩ ⟨m, s, slots.set place.toNat (some v)⟩ := by
  refine .one ?_
  simp only [step, fetched, act, slot, if_pos room]

theorem reaches_dup {v : V} (fetched : em.fetch? o = some (.plain .dup, m)) :
    M.Reaches em ⟨o, v :: s, slots⟩ ⟨m, v :: v :: s, slots⟩ := by
  refine .one ?_
  simp only [step, fetched]
  rfl

theorem reaches_pop {v : V} (fetched : em.fetch? o = some (.plain .pop, m)) :
    M.Reaches em ⟨o, v :: s, slots⟩ ⟨m, s, slots⟩ := by
  refine .one ?_
  simp only [step, fetched]
  rfl

theorem reaches_jump {target : Nat} (fetched : em.fetch? o = some (.branch .always target, m)) :
    M.Reaches em ⟨o, s, slots⟩ ⟨target, s, slots⟩ := by
  refine .one ?_
  simp only [step, fetched]
  rfl

theorem reaches_ifFalse {target : Nat} {v : V}
    (fetched : em.fetch? o = some (.branch .ifFalse target, m)) :
    M.Reaches em ⟨o, v :: s, slots⟩ ⟨if M.truth v then m else target, s, slots⟩ := by
  refine .one ?_
  simp only [step, fetched]
  rfl

theorem reaches_ifTrue {target : Nat} {v : V}
    (fetched : em.fetch? o = some (.branch .ifTrue target, m)) :
    M.Reaches em ⟨o, v :: s, slots⟩ ⟨if M.truth v then target else m, s, slots⟩ := by
  refine .one ?_
  simp only [step, fetched]
  rfl

end Machine

end ExprCompiler
