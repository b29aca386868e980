/-
# The rules by which trees are built

Building decides a type, a plan and conversions for each node and records them.
`Context.Rule` lists every way in which a node comes about, as a typing rule: what
is known of the operand types on one side, what the node records on the other.

Main result: `Context.rule_of_built`, every node of a tree that was built is there
by one of the rules.  Proofs about built trees go by cases on the rule and do not
open the builder again.
-/
import Mathlib.Data.List.Basic
import ExprCompiler.Proofs.Tree.Candidates
import ExprCompiler.Tree.Build

namespace ExprCompiler

namespace Element

/-- A property of every node of a tree. -/
inductive All (P : Element → Prop) : Element → Prop
  | node {e : Element} : P e → (∀ c ∈ e.children, All P c) → All P e

namespace All

variable {P Q : Element → Prop} {e : Element}

theorem here (h : e.All P) : P e := by
  cases h with
  | node here _ => exact here

theorem child (h : e.All P) : ∀ c ∈ e.children, c.All P := by
  cases h with
  | node _ below => exact below

theorem of_forall (here : P e) (below : e.children.Forall (All P)) : e.All P :=
  .node here (List.forall_iff_forall_mem.mp below)

theorem and (h : e.All P) (h' : e.All Q) : e.All (fun x => P x ∧ Q x) := by
  induction h with
  | node here _ ih => exact .node ⟨here, h'.here⟩ (fun c hc => ih c hc (h'.child c hc))

theorem imp (h : e.All P) (step : ∀ x, P x → Q x) : e.All Q := by
  induction h with
  | node here _ ih => exact .node (step _ here) ih

end All

theorem forall_two {P : Element → Prop} {l r : Element} (h : ∀ c ∈ [l, r], P c) : P l ∧ P r :=
  ⟨h l List.mem_cons_self, h r (List.mem_cons_of_mem _ List.mem_cons_self)⟩

theorem forall_three {P : Element → Prop} {c t f : Element} (h : ∀ x ∈ [c, t, f], P x) :
    P c ∧ P t ∧ P f :=
  ⟨h c List.mem_cons_self, forall_two fun x hx => h x (List.mem_cons_of_mem _ hx)⟩

end Element

namespace Context

/-- How two types are compared. -/
inductive Compares (ctx : Context) (op : CompareOp) (left right : Ty) : ComparePlan → Prop
  | operator {c : Candidate} : ctx.Overload (.binary (.compare op)) [left, right] c →
      Compares ctx op left right (.operator (.ofCandidate c) false)
  | negated {c : Candidate} : op = .ne →
      ctx.Overload (.binary (.compare .eq)) [left, right] c →
      Compares ctx op left right (.operator (.ofCandidate c) true)
  | numeric {a b kind : NumericKind} : left.numericKind? = some a →
      right.numericKind? = some b → a.meet? b = some kind →
      Compares ctx op left right (.numeric kind (.operand a kind) (.operand b kind))
  | enum {kind : NumericKind} : left.isEnum = true → left = right →
      (ctx.entry? left.id).bind (·.underlying) = some kind →
      Compares ctx op left right (.enum kind)
  | string : op.isRelational = false → left.isString = true → right.isString = true →
      Compares ctx op left right (.string ctx.options.stringComparison)
  | boolean : op.isRelational = false → left.isBool = true → right.isBool = true →
      Compares ctx op left right .boolean
  | reference : op.isRelational = false → left.isReference = true →
      right.isReference = true → Compares ctx op left right .reference

/-- A member that a name can stand for. -/
def Knows (ctx : Context) (m : Member) : Prop :=
  m ∈ ctx.registry.members ∨ ∃ space, (space, m) ∈ ctx.registry.functions

/-- How a node comes about. -/
inductive Rule (ctx : Context) : Element → Prop
  | literal {span : Span} {v : Literal} : Rule ctx (.literal ⟨v.type, span⟩ v)
  | arithmeticOperator {span : Span} {op : ArithmeticOp} {l r : Element} {c : Candidate} :
      ctx.Overload (.binary (.arithmetic op)) [l.type, r.type] c →
      Rule ctx (.arithmetic ⟨c.member.returns, span⟩ op (.operator (.ofCandidate c)) l r)
  | arithmetic {span : Span} {op : ArithmeticOp} {l r : Element} {a b kind : NumericKind} :
      l.type.numericKind? = some a → r.type.numericKind? = some b → a.meet? b = some kind →
      Rule ctx (.arithmetic ⟨Ty.numeric kind, span⟩ op (ctx.numericPlan kind a b) l r)
  | concat {span : Span} {l r : Element} {helper : HostId} :
      helper = (if l.type.isString && r.type.isString then Helper.stringConcat
        else Helper.stringConcatObject) →
      l.type.isVoid = false → r.type.isVoid = false →
      Rule ctx (.arithmetic ⟨Ty.string, span⟩ .add
        (.concat helper (.toText l.type) (.toText r.type)) l r)
  | power {span : Span} {l r : Element} {base : NumericKind} {n : Nat} :
      l.type.numericKind? = some base →
      Rule ctx (.arithmetic ⟨l.type, span⟩ .pow
        (.powerUnrolled n base (ctx.options.checked && base.isIntegral)) l r)
  | powerCall {span : Span} {l r : Element} {a b : NumericKind} :
      l.type.numericKind? = some a → r.type.numericKind? = some b →
      Rule ctx (.arithmetic ⟨Ty.numeric .float64, span⟩ .pow
        (.powerCall (.operand a .float64) (.operand b .float64)) l r)
  | compare {span : Span} {op : CompareOp} {l r : Element} {plan : ComparePlan} :
      ctx.Compares op l.type r.type plan →
      Rule ctx (.compare ⟨Ty.bool, span⟩ op plan l r)
  | shiftOperator {span : Span} {op : ShiftOp} {l r : Element} {c : Candidate} :
      ctx.Overload (.binary (.shift op)) [l.type, r.type] c →
      Rule ctx (.shift ⟨c.member.returns, span⟩ op (.operator (.ofCandidate c)) l r)
  | shift {span : Span} {op : ShiftOp} {l r : Element} {value : NumericKind}
      {count : Conversion} :
      l.type.integralKind? = some value →
      ctx.conversion? r.type (Ty.numeric .int32) = some count →
      Rule ctx (.shift ⟨Ty.numeric value.promote, span⟩ op
        (.numeric value.promote (.operand value value.promote) count) l r)
  | unaryOperator {span : Span} {op : UnaryOp} {e : Element} {c : Candidate} :
      ctx.Overload (.unary op) [e.type] c →
      Rule ctx (.unary ⟨c.member.returns, span⟩ op (.operator (.ofCandidate c)) e)
  | unary {span : Span} {op : UnaryOp} {e : Element} {plan : UnaryPlan} {type : Ty} :
      ctx.builtinUnary? op e.type = some (plan, type) →
      Rule ctx (.unary ⟨type, span⟩ op plan e)
  | logicalOperator {span : Span} {op : LogicalOp} {l r : Element} {c : Candidate} :
      ctx.Overload (.binary (.logical op)) [l.type, r.type] c →
      Rule ctx (.logical ⟨c.member.returns, span⟩ op (.operator (.ofCandidate c)) l r)
  | logical {span : Span} {op : LogicalOp} {l r : Element} {plan : LogicalPlan} {type : Ty} :
      builtinLogical? op l.type r.type = some (plan, type) →
      Rule ctx (.logical ⟨type, span⟩ op plan l r)
  | cast {span at_ : Span} {e : Element} {target : Ty} {plan : CastPlan} :
      ctx.castPlan e.type target at_ = .ok plan → Rule ctx (.cast ⟨target, span⟩ plan e)
  | conditionalTrue {span : Span} {c t f : Element} {k : Conversion} :
      c.type.isBool = true → ctx.conversion? f.type t.type = some k →
      Rule ctx (.conditional ⟨t.type, span⟩ .identity k c t f)
  | conditionalFalse {span : Span} {c t f : Element} {k : Conversion} :
      c.type.isBool = true → ctx.conversion? t.type f.type = some k →
      Rule ctx (.conditional ⟨f.type, span⟩ k .identity c t f)
  | inList {span : Span} {probe : Element} {items : List (ComparePlan × Element)} :
      items ≠ [] → (∀ item ∈ items, ctx.Compares .eq probe.type item.2.type item.1) →
      Rule ctx (.inList ⟨Ty.bool, span⟩ probe items)
  | inCollection {span : Span} {probe collection : Element}
      {interface : CollectionInterface} {k : Conversion} :
      ctx.registry.collectionInterface? collection.type.id = some interface →
      ctx.conversion? probe.type interface.element = some k →
      Rule ctx (.inCollection ⟨Ty.bool, span⟩ k interface.contains probe collection)
  | read {span : Span} {m : Member} {target : Option Element} :
      ctx.Knows m → m.isValue = true → Rule ctx (readMember m target span)
  | call {span : Span} {c : Candidate} {target : Option Element} {args : List Element} :
      ctx.Knows c.member → c.member.kind = .method → ctx.Fits (args.map (·.type)) c →
      Rule ctx (.call ⟨c.member.returns, span⟩ (.ofCandidate c) (receiverOf c.member target) args)
  | root {span : Span} {e : Element} :
      e.type.isVoid = false → Rule ctx (.root ⟨e.type, span⟩ .identity e)
  | rootAs {span : Span} {e : Element} {target : Ty} {k : Conversion} :
      e.type.isVoid = false → ctx.conversion? e.type target = some k →
      Rule ctx (.root ⟨target, span⟩ k e)

/-- A node made by a rule out of some operands. -/
def Made (ctx : Context) (operands : List Element) (e : Element) : Prop :=
  ctx.Rule e ∧ ∀ c ∈ e.children, c ∈ operands

variable {ctx : Context} {span : Span} {e : Element}

theorem power_made {l r : Element} (h : ctx.power l r span = .ok e) : ctx.Made [l, r] e := by
  simp only [power] at h
  split at h
  · next base exponent hl hr =>
      split at h
      · cases h
        exact ⟨.power hl, fun c hc => hc⟩
      · cases h
        exact ⟨.powerCall hl hr, fun c hc => hc⟩
  · cases h

theorem concat_made {l r : Element} (h : ctx.concat l r span = .ok e) : ctx.Made [l, r] e := by
  unfold concat at h
  simp only at h
  split at h
  · cases h
  · next noVoid =>
      rw [Bool.or_eq_true, not_or, Bool.not_eq_true, Bool.not_eq_true] at noVoid
      cases h
      exact ⟨.concat rfl noVoid.1 noVoid.2, fun c hc => hc⟩

theorem arithmetic_made {op : ArithmeticOp} {l r : Element}
    (h : ctx.arithmetic op l r span = .ok e) : ctx.Made [l, r] e := by
  simp only [arithmetic] at h
  obtain ⟨found, overload, h⟩ := bind_eq_ok h
  split at h
  · cases h
    exact ⟨.arithmeticOperator (findOperator_overload overload), fun c hc => hc⟩
  · split at h
    · exact power_made h
    · unfold builtinArithmetic at h
      simp only at h
      split at h
      · next a b hl hr =>
          split at h
          · next kind meet =>
              cases h
              exact ⟨.arithmetic hl hr meet, fun c hc => hc⟩
          · cases h
      · split at h
        · exact concat_made h
        · cases h

theorem compareOverload_compares {op : CompareOp} {left right : Ty} {plan : ComparePlan}
    (h : ctx.compareOverload op left right span = .ok (some plan)) :
    ctx.Compares op left right plan := by
  simp only [compareOverload] at h
  obtain ⟨found, overload, h⟩ := bind_eq_ok h
  split at h
  · cases h
    exact .operator (findOperator_overload overload)
  · split at h
    · next negates =>
        obtain ⟨found, overload, h⟩ := bind_eq_ok h
        split at h
        · cases h
          exact .negated negates (findOperator_overload overload)
        · cases h
    · cases h

theorem builtinComparison_compares {op : CompareOp} {left right : Ty} {plan : ComparePlan}
    (h : ctx.builtinComparison op left right span = .ok plan) :
    ctx.Compares op left right plan := by
  simp only [builtinComparison] at h
  split at h
  · next a b hl hr =>
      split at h
      · next kind meet =>
          cases h
          exact .numeric hl hr meet
      · cases h
  · split at h
    · next one =>
        rw [Bool.and_eq_true, decide_eq_true_eq] at one
        split at h
        · next kind underlying =>
            cases h
            exact .enum one.1 one.2 underlying
        · cases h
    · simp only [builtinEquality] at h
      split at h
      · cases h
      · next equality =>
          rw [Bool.not_eq_true] at equality
          split at h
          · next strings =>
              rw [Bool.and_eq_true] at strings
              cases h
              exact .string equality strings.1 strings.2
          · split at h
            · next booleans =>
                rw [Bool.and_eq_true] at booleans
                cases h
                exact .boolean equality booleans.1 booleans.2
            · split at h
              · next references =>
                  rw [Bool.and_eq_true, Bool.and_eq_true] at references
                  cases h
                  exact .reference equality references.1.1 references.1.2
              · cases h

theorem comparePlan_compares {op : CompareOp} {left right : Ty} {plan : ComparePlan}
    (h : ctx.comparePlan op left right span = .ok plan) : ctx.Compares op left right plan := by
  simp only [comparePlan] at h
  obtain ⟨found, overload, h⟩ := bind_eq_ok h
  split at h
  · cases h
    exact compareOverload_compares overload
  · exact builtinComparison_compares h

theorem compare_made {op : CompareOp} {l r : Element}
    (h : ctx.compare op l r span = .ok e) : ctx.Made [l, r] e := by
  simp only [compare] at h
  obtain ⟨plan, compares, h⟩ := bind_eq_ok h
  cases h
  exact ⟨.compare (comparePlan_compares compares), fun c hc => hc⟩

theorem shift_made {op : ShiftOp} {l r : Element}
    (h : ctx.shift op l r span = .ok e) : ctx.Made [l, r] e := by
  simp only [shift] at h
  obtain ⟨found, overload, h⟩ := bind_eq_ok h
  split at h
  · cases h
    exact ⟨.shiftOperator (findOperator_overload overload), fun c hc => hc⟩
  · split at h
    · next value count hl hr =>
        cases h
        exact ⟨.shift hl hr, fun c hc => hc⟩
    · cases h

theorem logical_made {op : LogicalOp} {l r : Element}
    (h : ctx.logical op l r span = .ok e) : ctx.Made [l, r] e := by
  simp only [logical] at h
  obtain ⟨found, overload, h⟩ := bind_eq_ok h
  split at h
  · cases h
    exact ⟨.logicalOperator (findOperator_overload overload), fun c hc => hc⟩
  · split at h
    · next plan type builtin =>
        cases h
        exact ⟨.logical builtin, fun c hc => hc⟩
    · cases h

theorem unary_made {op : UnaryOp} {x : Element}
    (h : ctx.unary op x span = .ok e) : ctx.Made [x] e := by
  simp only [unary] at h
  obtain ⟨found, overload, h⟩ := bind_eq_ok h
  split at h
  · cases h
    exact ⟨.unaryOperator (findUnaryOperator_overload overload), fun c hc => hc⟩
  · split at h
    · next plan type builtin =>
        cases h
        exact ⟨.unary builtin, fun c hc => hc⟩
    · cases h

theorem cast_made {x : Element} {target : Ty} (h : ctx.cast x target span = .ok e) :
    ctx.Made [x] e := by
  simp only [cast] at h
  obtain ⟨plan, planned, h⟩ := bind_eq_ok h
  cases h
  exact ⟨.cast planned, fun c hc => hc⟩

theorem conditional_made {c t f : Element} (h : ctx.conditional c t f span = .ok e) :
    ctx.Made [c, t, f] e := by
  unfold conditional at h
  simp only at h
  split at h
  · cases h
  · next isBool =>
      rw [Bool.not_eq_true, Bool.not_eq_false'] at isBool
      split at h
      · next k converts =>
          cases h
          exact ⟨.conditionalTrue isBool converts, fun c hc => hc⟩
      · split at h
        · next k converts =>
            cases h
            exact ⟨.conditionalFalse isBool converts, fun c hc => hc⟩
        · cases h

theorem root_made {x : Element} {expected : Option Ty} (h : ctx.root x expected span = .ok e) :
    ctx.Made [x] e := by
  simp only [root] at h
  split at h
  · cases h
  · next value =>
      rw [Bool.not_eq_true] at value
      split at h
      · cases h
        exact ⟨.root value, fun c hc => hc⟩
      · split at h
        · next k converts =>
            cases h
            exact ⟨.rootAs value converts, fun c hc => hc⟩
        · cases h

theorem itemPlan_compares {probe x : Element} {item : ComparePlan × Element}
    (h : ctx.itemPlan probe x = .ok item) :
    item.2 = x ∧ ctx.Compares .eq probe.type item.2.type item.1 := by
  simp only [itemPlan] at h
  split at h
  · next plan planned =>
      cases h
      exact ⟨rfl, comparePlan_compares planned⟩
  · cases h
  · cases h

theorem inList_made {probe : Element} {items : List Element} (filled : items ≠ [])
    (h : ctx.inList probe items span = .ok e) : ctx.Made (probe :: items) e := by
  simp only [inList] at h
  obtain ⟨plans, planned, h⟩ := bind_eq_ok h
  cases h
  have each := mapM_eq_ok planned
  have both : plans.map (·.2) = items
      ∧ ∀ item ∈ plans, ctx.Compares .eq probe.type item.2.type item.1 := by
    clear planned h filled
    induction each with
    | nil => exact ⟨rfl, fun _ hi => absurd hi List.not_mem_nil⟩
    | cons first _ ih =>
        obtain ⟨same, compares⟩ := itemPlan_compares first
        exact ⟨by rw [List.map_cons, same, ih.1], List.forall_mem_cons.mpr ⟨compares, ih.2⟩⟩
  refine ⟨.inList ?_ both.2, fun c hc => ?_⟩
  · rintro rfl
    exact filled both.1.symm
  · rw [← both.1]
    exact hc

theorem inCollection_made {probe collection : Element}
    (h : ctx.inCollection probe collection span = .ok e) : ctx.Made [probe, collection] e := by
  simp only [inCollection] at h
  split at h
  · cases h
  · next interface found =>
      split at h
      · cases h
      · next k converts =>
          cases h
          exact ⟨.inCollection found converts, fun c hc => hc⟩

/-! ## Members -/

theorem knows_of_resolve {name : String} {scope : Scope} {ignoreCase : Bool} {m : Member}
    (h : m ∈ ctx.registry.resolve name scope ignoreCase) : ctx.Knows m := by
  cases scope with
  | type id =>
      obtain ⟨owner, -, declared⟩ := List.mem_flatMap.mp (List.mem_filter.mp h).1
      exact Or.inl (Registry.mem_members_iff.mpr ⟨owner, declared⟩)
  | space space =>
      exact Or.inr ⟨space, Registry.mem_functions_iff.mpr (List.mem_filter.mp h).1⟩

theorem knows_of_membersOf {id : HostId} {name : String} {m : Member}
    (h : m ∈ ctx.membersOf id name) : ctx.Knows m :=
  knows_of_resolve h

theorem knows_of_lookUp {name : String} {target : Option Element} {m : Member}
    (h : m ∈ (ctx.lookUp name target).1) : ctx.Knows m := by
  cases target with
  | some e => exact knows_of_membersOf h
  | none =>
      have h : m ∈ ctx.bareMembers name := h
      simp only [bareMembers] at h
      cases owner : ctx.options.owner with
      | none =>
          rw [owner] at h
          simp only [List.isEmpty_nil, if_true] at h
          exact knows_of_resolve h
      | some id =>
          rw [owner] at h
          simp only at h
          split at h
          · exact knows_of_resolve h
          · exact knows_of_membersOf h

/-- Only the target of a member is its operand. -/
theorem mem_receiverOf {m : Member} {target : Option Element} {c : Element}
    (h : c ∈ Element.receiverChildren (receiverOf m target)) : target = some c := by
  simp only [receiverOf] at h
  split at h
  · exact absurd h List.not_mem_nil
  · cases target with
    | none => exact absurd h List.not_mem_nil
    | some e => exact congrArg some (List.mem_singleton.mp h).symm

theorem callMember_made {name : String} {members : List Member} {target : Option Element}
    {args : List Element} (known : ∀ m ∈ members, ctx.Knows m)
    (h : ctx.callMember name members target args span = .ok e) :
    ctx.Made (target.toList ++ args) e := by
  simp only [callMember] at h
  split at h
  · cases h
  · obtain ⟨c, resolved, h⟩ := bind_eq_ok h
    cases h
    have chosen := resolveOverload_chosen resolved
    obtain ⟨mem, method⟩ := List.mem_filter.mp chosen.member
    refine ⟨.call (known _ mem) (eq_of_beq method) chosen.toFits, ?_⟩
    intro c hc
    rcases List.mem_append.mp hc with hc | hc
    · rw [mem_receiverOf hc]
      exact List.mem_cons_self
    · exact List.mem_append_right _ hc

theorem member_made {name : String} {target : Option Element} {args : List Element}
    {isCall : Bool} (h : ctx.member name target args isCall span = .ok e) :
    ctx.Made (target.toList ++ args) e := by
  simp only [member] at h
  split at h
  · cases h
  · next members scope _ found =>
      have known : ∀ m ∈ members, ctx.Knows m := fun m hm =>
        knows_of_lookUp (by rw [found]; exact hm)
      split at h
      · exact callMember_made known h
      · split at h
        · next m chosen =>
            cases h
            refine ⟨.read (known m (List.mem_of_find?_eq_some chosen))
              (List.find?_some chosen), fun c hc => ?_⟩
            rw [mem_receiverOf hc]
            exact List.mem_cons_self
        · cases h

/-! ## Whole trees -/

theorem binary_made {op : BinaryOp} {l r : Element} (h : ctx.binary op l r span = .ok e) :
    ctx.Made [l, r] e := by
  cases op with
  | arithmetic op => exact arithmetic_made h
  | compare op => exact compare_made h
  | shift op => exact shift_made h
  | logical op => exact logical_made h

theorem integer_made (v : UInt64) : ctx.Made [] (ctx.integer v span) := by
  simp only [integer]
  split <;> exact ⟨.literal, fun _ hc => hc⟩

theorem real_made (bits : UInt64) : ctx.Made [] (ctx.real bits span) := by
  simp only [real]
  split <;> exact ⟨.literal, fun _ hc => hc⟩

theorem node_made {tag : Tag} {operands : List Element}
    (h : ctx.node tag operands span = .ok e) : ctx.Made operands e := by
  simp only [node] at h
  split at h
  · cases h
    exact integer_made _
  · cases h
    exact real_made _
  · cases h
    exact ⟨.literal, fun _ hc => hc⟩
  · exact binary_made h
  · exact unary_made h
  · exact cast_made h
  · exact conditional_made h
  · split at h
    · cases h
    · split at h
      · cases h
      · next filled => exact inList_made (fun empty => filled (empty ▸ rfl)) h
  · exact inCollection_made h
  · split at h
    · cases h
    · split at h
      · exact member_made h
      · exact member_made h
  · exact root_made h
  · cases h

/-- A node is made only if its operands can be counted. -/
theorem reduce_eq_ok_iff {tag : Tag} {operands : List Element} :
    ctx.reduce tag operands span = .ok e
      ↔ tag.isCountable = true ∧ ctx.node tag operands span = .ok e := by
  rw [reduce]
  by_cases countable : tag.isCountable = true
  · rw [if_pos countable, mapError_eq_ok_iff]
    exact ⟨fun h => ⟨countable, h⟩, fun h => h.2⟩
  · rw [if_neg countable]
    exact ⟨nofun, fun h => absurd h.1 countable⟩

theorem reduce_made {tag : Tag} {operands : List Element}
    (h : ctx.reduce tag operands span = .ok e) : ctx.Made operands e :=
  node_made (reduce_eq_ok_iff.mp h).2

/-- Elements that are built, node by node. -/
inductive Built (ctx : Context) : Element → Prop
  | reduce {tag : Tag} {operands : List Element} {span : Span} {e : Element} :
      (∀ x ∈ operands, Built ctx x) → ctx.reduce tag operands span = .ok e → Built ctx e

/-- Every node of an element that is built is there by a rule. -/
theorem rule_of_built (h : ctx.Built e) : e.All ctx.Rule := by
  induction h with
  | reduce _ made ih =>
      obtain ⟨rule, children⟩ := reduce_made made
      exact .node rule (fun c hc => ih c (children c hc))

theorem takeOperands?_mem {n : Nat} {taken stack operands rest : List Element}
    (h : takeOperands? n taken stack = some (operands, rest)) :
    (∀ x ∈ operands, x ∈ taken ∨ x ∈ stack) ∧ ∀ x ∈ rest, x ∈ stack := by
  fun_induction takeOperands? n taken stack with
  | case1 =>
      cases h
      exact ⟨fun x hx => Or.inl hx, fun x hx => hx⟩
  | case2 => cases h
  | case3 taken n x stack ih =>
      obtain ⟨ops, remaining⟩ := ih h
      refine ⟨fun y hy => ?_, fun y hy => List.mem_cons_of_mem _ (remaining y hy)⟩
      rcases ops y hy with old | later
      · rcases List.mem_cons.mp old with rfl | old
        · exact Or.inr List.mem_cons_self
        · exact Or.inl old
      · exact Or.inr (List.mem_cons_of_mem _ later)

/-- An event that goes through takes its operands and puts its node there. -/
theorem push_eq_ok {stack stack' : List Element} {event : Event}
    (h : ctx.push stack event = .ok stack') :
    ∃ operands rest e, takeOperands? event.tag.arity [] stack = some (operands, rest)
      ∧ ctx.reduce event.tag operands event.span = .ok e ∧ stack' = e :: rest := by
  simp only [push] at h
  split at h
  · cases h
  · split at h
    · cases h
    · next operands rest taken =>
        obtain ⟨e, made, h⟩ := bind_eq_ok h
        cases h
        exact ⟨operands, rest, e, taken, made, rfl⟩

theorem push_built {stack stack' : List Element} {event : Event}
    (before : ∀ x ∈ stack, ctx.Built x) (h : ctx.push stack event = .ok stack') :
    ∀ x ∈ stack', ctx.Built x := by
  obtain ⟨operands, rest, e, taken, made, rfl⟩ := push_eq_ok h
  obtain ⟨ops, remaining⟩ := takeOperands?_mem taken
  refine List.forall_mem_cons.mpr ⟨.reduce (fun x hx => ?_) made,
    fun x hx => before x (remaining x hx)⟩
  exact before x ((ops x hx).resolve_left List.not_mem_nil)

theorem pushAll_built {events : List Event} {stack stack' : List Element}
    (before : ∀ x ∈ stack, ctx.Built x) (h : ctx.pushAll stack events = .ok stack') :
    ∀ x ∈ stack', ctx.Built x := by
  induction events generalizing stack with
  | nil =>
      cases h
      exact before
  | cons event events ih =>
      simp only [pushAll] at h
      split at h
      · next stack₁ pushed => exact ih (push_built before pushed) h
      · cases h

/-- A stream with a tree runs through and leaves what can be closed. -/
theorem build_eq_ok {events : List Event} {tree : Element} (h : ctx.build events = .ok tree) :
    ∃ stack, ctx.pushAll [] events = .ok stack ∧ ctx.close stack = .ok tree := by
  rw [build] at h
  obtain ⟨stack, pushed, closed⟩ := bind_eq_ok h
  exact ⟨stack, pushed, mapError_eq_ok_iff.mp closed⟩

/-- The tree of a stream of events is built. -/
theorem built_of_build {events : List Event} {tree : Element}
    (h : ctx.build events = .ok tree) : ctx.Built tree := by
  obtain ⟨stack, pushed, closed⟩ := build_eq_ok h
  have each := pushAll_built (fun _ hx => absurd hx List.not_mem_nil) pushed
  simp only [close] at closed
  split at closed
  · cases closed
  · next e =>
      have built := each e List.mem_cons_self
      split at closed
      · cases closed
        exact built
      · have reduced : ctx.reduce (.root none) [e] e.span = .ok tree :=
          reduce_eq_ok_iff.mpr ⟨rfl, closed⟩
        exact .reduce (List.forall_mem_singleton.mpr built) reduced
  · cases closed

end Context

end ExprCompiler
