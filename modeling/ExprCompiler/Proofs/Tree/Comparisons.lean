/-
# Who answers a comparison, and with what

A comparison is a truth value to the tree that holds it: its node is typed `bool`, the answer
to `!=` may be that of `==` turned round, and a membership test branches on each answer.
Numbers, enums, strings and references are compared by instructions that leave one.  An
overload is taken as the host declares it, and what it returns plays no part in the choice
(`Answers`):

* the best overload of the operator on both operand types together, and none if a type has a
  tie for the best;
* for `!=`, if no overload of it accepts the operands, that of `==`, turned round.

So an answer is a truth value exactly if this overload returns one.  Nothing checks it, neither
when the member is registered nor here.  It is up to the host (`Truthful`), and one that
declares every comparison to return `bool` gets trees in which no answer is anything else.

Main result: `Context.comparePlan_answers`.
-/
import ExprCompiler.Proofs.Overload.Operators
import ExprCompiler.Proofs.Tree.Calls

namespace ExprCompiler

/-- A comparison is typed `bool`, and so is what the overloads return whose answers it takes. -/
def Element.AnswersBool : Element → Prop
  | .compare info _ plan _ _ => info.type = Ty.bool
    ∧ ∀ call ∈ plan.operators, call.returns = Ty.bool
  | .inList info _ items => info.type = Ty.bool
    ∧ ∀ item ∈ items, ∀ call ∈ item.1.operators, call.returns = Ty.bool
  | _ => True

namespace Context

/-! ## Which overload answers -/

/-- The overloads of an operator on both operand types that accept the operands. -/
def applicable (ctx : Context) (op : Operator) (left right : Ty) : Set Candidate :=
  ctx.overloads op left.id [left, right] ∪ ctx.overloads op right.id [left, right]

/-- The overload that an operator means: it scores below the others of both types, and on
neither type two are tied. -/
structure Means (ctx : Context) (op : Operator) (left right : Ty) (c : Candidate) : Prop where
  foremost : Foremost (ctx.applicable op left right) c
  onLeft : ¬ Contested (ctx.overloads op left.id [left, right])
  onRight : ¬ Contested (ctx.overloads op right.id [left, right])

/-- The overload that answers a comparison, and whether its answer is turned round. -/
inductive Answers (ctx : Context) (op : CompareOp) (left right : Ty) : Bool → Candidate → Prop
  | direct {c : Candidate} : ctx.Means (.binary (.compare op)) left right c →
      Answers ctx op left right false c
  | turned {c : Candidate} : op = .ne →
      ctx.applicable (.binary (.compare .ne)) left right = ∅ →
      ctx.Means (.binary (.compare .eq)) left right c → Answers ctx op left right true c

variable {ctx : Context} {op : CompareOp} {left right : Ty} {span : Span} {call : CallTarget}
  {negate : Bool} {plan : ComparePlan} {m : Member} {owner : HostId}

theorem means_iff (recorded : ctx.registry.Recorded) {op : Operator} {c : Candidate} :
    ctx.findOperator op left right span = .ok (some c) ↔ ctx.Means op left right c := by
  rw [findOperator_eq_some_iff recorded rfl rfl]
  exact ⟨fun h => ⟨h.1, h.2.1, h.2.2⟩, fun h => ⟨h.foremost, h.onLeft, h.onRight⟩⟩

/-- A comparison without an overload calls none. -/
theorem builtinComparison_ne_operator :
    ctx.builtinComparison op left right span ≠ .ok (.operator call negate) := by
  intro h
  rw [builtinComparison] at h
  split at h
  · split at h <;> cases h
  · split at h
    · split at h <;> cases h
    · rw [builtinEquality] at h
      split at h
      · cases h
      split at h
      · cases h
      split at h
      · cases h
      split at h <;> cases h

theorem comparePlan_eq_operator_iff :
    ctx.comparePlan op left right span = .ok (.operator call negate)
      ↔ ctx.compareOverload op left right span = .ok (some (.operator call negate)) := by
  constructor
  · intro h
    rw [comparePlan] at h
    obtain ⟨found, overload, h⟩ := bind_eq_ok h
    cases found with
    | some plan =>
        cases h
        exact overload
    | none => exact absurd h builtinComparison_ne_operator
  · intro h
    rw [comparePlan, h]
    rfl

theorem compareOverload_eq_none
    (none_ : ctx.findOperator (.binary (.compare op)) left right span = .ok none)
    (straight : op ≠ .ne) : ctx.compareOverload op left right span = .ok none := by
  rw [compareOverload, none_]
  exact if_neg straight

/-- Where `!=` is not overloaded the answer is that of `==`, turned round. -/
theorem compareOverload_ne
    (none_ : ctx.findOperator (.binary (.compare .ne)) left right span = .ok none) :
    ctx.compareOverload .ne left right span
      = (ctx.findOperator (.binary (.compare .eq)) left right span).map
        (·.map fun c => .operator (.ofCandidate c) true) := by
  rw [compareOverload, none_]
  rcases ctx.findOperator (.binary (.compare .eq)) left right span with e | _ | c
  all_goals rfl

/-- The operator itself is looked up first, and for `!=` then `==`. -/
theorem compareOverload_eq_some_iff :
    ctx.compareOverload op left right span = .ok (some plan)
      ↔ ∃ c, (ctx.findOperator (.binary (.compare op)) left right span = .ok (some c)
          ∧ plan = .operator (.ofCandidate c) false)
        ∨ (op = .ne ∧ ctx.findOperator (.binary (.compare .ne)) left right span = .ok none
          ∧ ctx.findOperator (.binary (.compare .eq)) left right span = .ok (some c)
          ∧ plan = .operator (.ofCandidate c) true) := by
  constructor
  · intro h
    cases own : ctx.findOperator (.binary (.compare op)) left right span with
    | error e =>
        rw [compareOverload, own] at h
        cases h
    | ok found =>
        cases found with
        | some c =>
            rw [compareOverload, own] at h
            cases h
            exact ⟨c, Or.inl ⟨rfl, rfl⟩⟩
        | none =>
            by_cases turns : op = .ne
            · subst turns
              rw [compareOverload_ne own] at h
              obtain ⟨found, other, h⟩ := map_eq_ok h
              obtain ⟨c, rfl, rfl⟩ := Option.map_eq_some_iff.mp h
              exact ⟨c, Or.inr ⟨rfl, own, other, rfl⟩⟩
            · rw [compareOverload_eq_none own turns] at h
              cases h
  · rintro ⟨c, ⟨own, rfl⟩ | ⟨rfl, own, other, rfl⟩⟩
    · rw [compareOverload, own]
      rfl
    · rw [compareOverload_ne own, other]
      rfl

/-- A comparison calls the overload that answers it, and no other. -/
theorem comparePlan_operator_iff (recorded : ctx.registry.Recorded) :
    ctx.comparePlan op left right span = .ok (.operator call negate)
      ↔ ∃ c, call = .ofCandidate c ∧ ctx.Answers op left right negate c := by
  rw [comparePlan_eq_operator_iff, compareOverload_eq_some_iff]
  refine exists_congr fun c => ?_
  constructor
  · rintro (⟨own, same⟩ | ⟨rfl, own, other, same⟩)
    · cases same
      exact ⟨rfl, .direct ((means_iff recorded).mp own)⟩
    · cases same
      exact ⟨rfl, .turned rfl ((findOperator_eq_none_iff recorded rfl rfl).mp own)
        ((means_iff recorded).mp other)⟩
  · rintro ⟨rfl, means | ⟨rfl, quiet, means⟩⟩
    · exact Or.inl ⟨(means_iff recorded).mpr means, rfl⟩
    · exact Or.inr ⟨rfl, (findOperator_eq_none_iff recorded rfl rfl).mpr quiet,
        (means_iff recorded).mpr means, rfl⟩

/-- An item of a list is compared by `==`, and nothing is turned round. -/
theorem itemPlan_operator_iff (recorded : ctx.registry.Recorded) {probe item e : Element} :
    ctx.itemPlan probe item = .ok (.operator call negate, e)
      ↔ e = item ∧ negate = false
        ∧ ∃ c, call = .ofCandidate c ∧ ctx.Answers .eq probe.type item.type false c := by
  have planned : ctx.itemPlan probe item = .ok (.operator call negate, e)
      ↔ e = item ∧ ctx.comparePlan .eq probe.type item.type item.span
        = .ok (.operator call negate) := by
    constructor
    · intro h
      rw [itemPlan] at h
      split at h
      · next plan found =>
          cases h
          exact ⟨rfl, found⟩
      · cases h
      · cases h
    · rintro ⟨rfl, found⟩
      rw [itemPlan, found]
  rw [planned, comparePlan_operator_iff recorded]
  refine and_congr_right fun _ => ?_
  constructor
  · rintro ⟨c, same, answers⟩
    cases answers with
    | direct means => exact ⟨rfl, c, same, .direct means⟩
    | turned turns => cases turns
  · rintro ⟨rfl, found⟩
    exact found

/-! ## Hosts that keep to truth values -/

/-- A member that overloads a comparison. -/
def OverloadsComparison (ctx : Context) (m : Member) : Prop :=
  m.kind = .operator ∧ m.params.length = 2 ∧ ∃ op ∈ CompareOp.all,
    Registry.nameMatches ctx.options.ignoreCase (Operator.binary (.compare op)).methodName m.name
      = true

instance (ctx : Context) (m : Member) : Decidable (ctx.OverloadsComparison m) :=
  inferInstanceAs (Decidable (_ ∧ _ ∧ ∃ op ∈ CompareOp.all, _))

/-- All overloads of comparisons return truth values. -/
def Truthful (ctx : Context) : Prop :=
  ∀ m ∈ ctx.registry.members, ctx.OverloadsComparison m → m.returns = Ty.bool

/-- For this it is enough that every member is declared so. -/
theorem truthful_made {regs : List Registration} {options : Options}
    (declared : ∀ m, .member m ∈ regs → OverloadsComparison ⟨.made regs, options⟩ m →
      m.returns = Ty.bool) : Truthful ⟨.made regs, options⟩ := by
  intro m held overloads
  obtain ⟨reg, hreg, own⟩ := Registry.mem_members_made held
  have operator := overloads.1
  cases reg with
  | member m' =>
      cases own
      exact declared m hreg overloads
  -- the others are no operators
  | primitives =>
      cases own
      cases operator
  | collection =>
      cases own
      cases operator
  | _ => cases own

namespace Truthful

theorem of_offers (h : ctx.Truthful) (offers : ctx.Offers (.binary (.compare op)) owner m) :
    m.returns = Ty.bool := by
  obtain ⟨ancestor, -, declared⟩ := offers.inherited
  have listed : op ∈ CompareOp.all := by cases op <;> decide
  exact h m (Registry.mem_members_iff.mpr ⟨ancestor, declared⟩)
    ⟨offers.kind, offers.arity, op, listed, offers.named⟩

theorem of_overload (h : ctx.Truthful) {args : List Ty} {c : Candidate}
    (overload : ctx.Overload (.binary (.compare op)) args c) : c.member.returns = Ty.bool := by
  obtain ⟨owner, chosen⟩ := overload
  exact h.of_offers (mem_operatorsOn_iff.mp chosen.member)

theorem of_compares (h : ctx.Truthful) (compares : ctx.Compares op left right plan) :
    ∀ call ∈ plan.operators, call.returns = Ty.bool := by
  cases compares with
  | operator overload => exact List.forall_mem_singleton.mpr (h.of_overload overload)
  | negated _ overload => exact List.forall_mem_singleton.mpr (h.of_overload overload)
  | _ => exact fun _ hc => absurd hc List.not_mem_nil

/-- However a node comes about. -/
theorem of_rule (h : ctx.Truthful) {e : Element} (rule : ctx.Rule e) : e.AnswersBool := by
  cases rule with
  | compare compares => exact ⟨rfl, h.of_compares compares⟩
  | inList _ compares => exact ⟨rfl, fun item hi => h.of_compares (compares item hi)⟩
  | _ => trivial

end Truthful

/-- In every registry: a comparison, of two operands or with an item of a list, calls the
overload that answers it, whatever that one is declared to return.  If no overload of a
comparison is declared to return anything but `bool`, then all answers are truth values, in
every tree. -/
theorem comparePlan_answers (regs : List Registration) (options : Options) :
    let ctx : Context := ⟨.made regs, options⟩
    (∀ op left right span call negate,
        ctx.comparePlan op left right span = .ok (.operator call negate)
          ↔ ∃ c, call = .ofCandidate c ∧ ctx.Answers op left right negate c)
      ∧ (∀ probe item call negate e,
        ctx.itemPlan probe item = .ok (.operator call negate, e)
          ↔ e = item ∧ negate = false
            ∧ ∃ c, call = .ofCandidate c ∧ ctx.Answers .eq probe.type item.type false c)
      ∧ (ctx.Truthful →
        (∀ op left right span call negate,
          ctx.comparePlan op left right span = .ok (.operator call negate) →
            call.returns = Ty.bool)
        ∧ ∀ events tree, ctx.build events = .ok tree → tree.All Element.AnswersBool) := by
  intro ctx
  have recorded : ctx.registry.Recorded := Registry.recorded_made regs
  refine ⟨?_, ?_, ?_⟩
  · intro op left right span call negate
    exact comparePlan_operator_iff recorded
  · intro probe item call negate e
    exact itemPlan_operator_iff recorded
  · intro truthful
    refine ⟨?_, ?_⟩
    · intro op left right span call negate planned
      exact truthful.of_compares (comparePlan_compares planned) call List.mem_cons_self
    · intro events tree built
      exact (rule_of_built (built_of_build built)).imp fun _ => truthful.of_rule

/-- Two sums of money are compared by a member that returns some type. -/
def equalMoney (returns : Ty) : Member :=
  Member.operator money.id "opEquals" [money, money] returns

/-- A cart with a total. -/
def cart : Member := Member.field (HostId.ofName "Cart") "total" money

/-- Formulas over a cart, where money is compared by this member. -/
def shop (returns : Ty) : Context :=
  ⟨.made [.primitives, .struct "Money", .refClass "Cart" none [] .empty, .member cart,
    .member (equalMoney returns)], { owner := some cart.owner }⟩

/-- `total != total`. -/
def differs : List Event :=
  [⟨.member "total" false none, default⟩, ⟨.member "total" false none, default⟩,
    ⟨.binary (.compare .ne), default⟩]

/-- The overload called on two sums of money as they are. -/
def equalCall (returns : Ty) : CallTarget :=
  ⟨(equalMoney returns).id, true, returns, [.identity, .identity]⟩

/-- Where money is compared by a truth value, the tree of `total != total` turns one round. -/
theorem comparePlan_answers_bool :
    (shop Ty.bool).comparePlan .ne money money default
        = .ok (.operator (equalCall Ty.bool) true)
      ∧ (equalCall Ty.bool).returns = Ty.bool
      ∧ ∃ tree, (shop Ty.bool).build differs = .ok tree ∧ tree.All Element.AnswersBool := by
  have truthful : (shop Ty.bool).Truthful := by
    refine truthful_made ?_
    intro m hm overloads
    simp only [List.mem_cons, reduceCtorEq, false_or, Registration.member.injEq,
      List.not_mem_nil, or_false] at hm
    rcases hm with rfl | rfl
    · cases overloads.1
    · rfl
  have planned : (shop Ty.bool).comparePlan .ne money money default
      = .ok (.operator (equalCall Ty.bool) true) := by decide +kernel
  have builds : ((shop Ty.bool).build differs).isOk = true := by decide +kernel
  obtain ⟨-, -, keeps⟩ := comparePlan_answers _ _
  obtain ⟨returns, trees⟩ := keeps truthful
  refine ⟨planned, returns _ _ _ _ _ _ planned, ?_⟩
  cases built : (shop Ty.bool).build differs with
  | error e =>
      rw [built] at builds
      cases builds
  | ok tree => exact ⟨tree, rfl, trees differs tree built⟩

/-- The total of the cart that a formula is about. -/
def total : Element := readMember cart none default

/-- Where it is compared by a text, the text is the answer to `==`, and it is what is turned
round for `!=` and branched on in a list.  The node is typed `bool` all the same. -/
theorem comparePlan_answers_string :
    (equalCall Ty.string).returns ≠ Ty.bool
      ∧ (shop Ty.string).comparePlan .eq money money default
        = .ok (.operator (equalCall Ty.string) false)
      ∧ (shop Ty.string).comparePlan .ne money money default
        = .ok (.operator (equalCall Ty.string) true)
      ∧ (shop Ty.string).itemPlan total total = .ok (.operator (equalCall Ty.string) false, total)
      ∧ ∃ tree, (shop Ty.string).build differs = .ok tree ∧ tree.type = Ty.bool := by
  have equal : (shop Ty.string).comparePlan .eq money money default
      = .ok (.operator (equalCall Ty.string) false) := by decide +kernel
  have item : (shop Ty.string).comparePlan .eq total.type total.type total.span
      = .ok (.operator (equalCall Ty.string) false) := equal
  have builds : ((shop Ty.string).build differs).map Element.type = .ok Ty.bool := by
    decide +kernel
  obtain ⟨tree, built, type⟩ := map_eq_ok builds
  refine ⟨by decide, equal, by decide +kernel, ?_, tree, built, type⟩
  rw [itemPlan, item]

end Context

end ExprCompiler
