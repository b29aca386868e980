/-
# Calls match their arguments

A node that was built calls members with as many arguments as it converts, and on
a target exactly if the member is not static.  Operator overloads are called
without a target whatever the member says, so for those being static is a
condition, and what follows from it is `Context.Rule.runnable`.
-/
import ExprCompiler.Proofs.Tree.Rules

namespace ExprCompiler

/-- An overload that can be called on some operands. -/
structure CallTarget.Usable (call : CallTarget) (operands : Nat) : Prop where
  static : call.isStatic = true
  count : call.conversions.length = operands

/-- The overload that a comparison calls. -/
def ComparePlan.operators : ComparePlan → List CallTarget
  | .operator call _ => [call]
  | _ => []

/-- If a comparison uses an overload, then one on two operands. -/
def ComparePlan.Usable (plan : ComparePlan) : Prop :=
  ∀ call negate, plan = .operator call negate → call.Usable 2

namespace Element

/-- The operator overloads that a node calls. -/
def operators : Element → List CallTarget
  | arithmetic _ _ (.operator target) _ _ | shift _ _ (.operator target) _ _
  | unary _ _ (.operator target) _ | logical _ _ (.operator target) _ _ => [target]
  | compare _ _ plan _ _ => plan.operators
  | inList _ _ items => items.flatMap (·.1.operators)
  | _ => []

/-- A node below the root whose calls match what they are called on. -/
def Runnable : Element → Prop
  | arithmetic _ _ plan _ _ => ∀ target, plan = .operator target → target.Usable 2
  | compare _ _ plan _ _ => plan.Usable
  | shift _ _ plan _ _ => ∀ target, plan = .operator target → target.Usable 2
  | unary _ _ plan _ => ∀ target, plan = .operator target → target.Usable 1
  | logical _ _ plan _ _ => ∀ target, plan = .operator target → target.Usable 2
  | inList _ _ items => ∀ item ∈ items, item.1.Usable
  | call _ target receiver args =>
    target.conversions.length = args.length ∧ target.isStatic = receiver.isStatic
  | root _ _ _ => False
  | _ => True

end Element

namespace Context

variable {ctx : Context}

theorem Overload.usable {op : Operator} {args : List Ty} {c : Candidate}
    (h : ctx.Overload op args c) (static : (CallTarget.ofCandidate c).isStatic = true) :
    (CallTarget.ofCandidate c).Usable args.length := by
  obtain ⟨owner, chosen⟩ := h
  exact ⟨static, chosen.toFits.length⟩

theorem Compares.usable {op : CompareOp} {left right : Ty} {plan : ComparePlan}
    (h : ctx.Compares op left right plan)
    (static : ∀ call ∈ plan.operators, call.isStatic = true) : plan.Usable := by
  intro call negate same
  subst same
  have here := static call List.mem_cons_self
  cases h with
  | operator overload => exact overload.usable here
  | negated _ overload => exact overload.usable here

theorem builtinUnary?_builtin {op : UnaryOp} {t type : Ty} {call : CallTarget} :
    ctx.builtinUnary? op t ≠ some (.operator call, type) := by
  cases op with
  | not => simp [builtinUnary?]
  | _ => simp [builtinUnary?, Option.bind_eq_some_iff]

theorem builtinLogical?_builtin {op : LogicalOp} {left right type : Ty} {call : CallTarget} :
    builtinLogical? op left right ≠ some (.operator call, type) := by
  simp only [builtinLogical?]
  split
  · split <;> simp
  · simp [Option.bind_eq_some_iff]

theorem isStatic_receiverOf (m : Member) (target : Option Element) :
    (receiverOf m target).isStatic = m.isStatic := by
  simp only [receiverOf]
  cases static : m.isStatic with
  | true => rfl
  | false => cases target <;> rfl

/-- What building records about a node suffices to run it. -/
theorem Rule.runnable {e : Element} (rule : ctx.Rule e)
    (static : ∀ call ∈ e.operators, call.isStatic = true) (inner : e.isRoot = false) :
    e.Runnable := by
  cases rule with
  | arithmeticOperator overload =>
      rintro target ⟨⟩
      exact overload.usable (static _ List.mem_cons_self)
  | arithmetic => rintro target ⟨⟩
  | concat => rintro target ⟨⟩
  | power => rintro target ⟨⟩
  | powerCall => rintro target ⟨⟩
  | compare compares => exact compares.usable static
  | shiftOperator overload =>
      rintro target ⟨⟩
      exact overload.usable (static _ List.mem_cons_self)
  | shift => rintro target ⟨⟩
  | unaryOperator overload =>
      rintro target ⟨⟩
      exact overload.usable (static _ List.mem_cons_self)
  | unary found =>
      rintro target rfl
      exact absurd found builtinUnary?_builtin
  | logicalOperator overload =>
      rintro target ⟨⟩
      exact overload.usable (static _ List.mem_cons_self)
  | logical found =>
      rintro target rfl
      exact absurd found builtinLogical?_builtin
  | inList _ compares =>
      intro item hi
      exact (compares item hi).usable fun call hc =>
        static call (List.mem_flatMap.mpr ⟨item, hi, hc⟩)
  | call _ _ fits =>
      refine ⟨?_, (isStatic_receiverOf _ _).symm⟩
      exact fits.length.trans (List.length_map _)
  | root => cases inner
  | rootAs => cases inner
  | literal => trivial
  | cast => trivial
  | conditionalTrue => trivial
  | conditionalFalse => trivial
  | inCollection => trivial
  | read => trivial

end Context

end ExprCompiler
