/-
# Emitted code computes the value of its tree

For every machine, every tree that was built with its root on top and with static
operator overloads, and every plan under which its code is emitted: running the
code comes to the value, or the trap, of evaluating the tree, and to nothing else
(`Element.yields_iff_eval`).

The proof follows the tree.  The block of a node carries out the evaluation of
the node (`Performs`), given that the blocks of its operands do; where a block
ends is known from `Placed`, so no offset is ever computed.
-/
import ExprCompiler.Host.Registration
import ExprCompiler.Proofs.Code.Nodes
import ExprCompiler.Proofs.Machine.Operations
import ExprCompiler.Proofs.Tree.Rules

namespace ExprCompiler

namespace Machine

variable {V T : Type} {M : Machine V T} {em : Emission}

/-- The block of an element carries out its evaluation. -/
def Performs (M : Machine V T) (em : Emission) (x : Element) : Prop :=
  ∀ {live next o next' e : Nat} {s : List V} {slots : List (Option V)},
    em.Block live next o x next' e → slots.length = em.localCount →
      M.Carries em live o s slots e (x.eval M) (· :: s)

variable {live next o next' e : Nat} {s : List V} {slots : List (Option V)}

/-! ## Operands -/

theorem performs_both {l r : Element} {cs : Conversion × Conversion} {ds : List Directive}
    {k : V → V → Except T V} (left : M.Performs em l) (right : M.Performs em r)
    (placed : em.Placed next o (Step.binary live l r cs ds) next' e)
    (room : slots.length = em.localCount)
    (last : ∀ {m a b} {slots' : List (Option V)}, em.Laid m ds e →
      M.Carries em live m (b :: a :: s) slots' e (k a b) (· :: s)) :
    M.Carries em live o s slots e (M.both cs (l.eval M) (r.eval M) k) (· :: s) := by
  simp only [Step.binary] at placed
  rw [List.append_assoc] at placed
  obtain ⟨n₁, m₁, m₁', block₁, laid₁, rest⟩ := placed.operand_inv
  obtain ⟨n₂, m₂, m₂', block₂, laid₂, rest⟩ := rest.operand_inv
  obtain ⟨-, laid⟩ := rest.emits_end
  refine (left block₁ room).bind ?_
  intro a slots₁ kept₁
  refine (does_convert.carries laid₁).bind ?_
  intro a' slots₂ kept₂
  refine (right block₂ ?_).bind fun b slots₃ _ => ?_
  · rw [kept₂.length, kept₁.length, room]
  · refine (does_convert.carries laid₂).bind ?_
    intro b' slots₄ _
    exact last laid

theorem performs_overload {l r : Element} {call : CallTarget} (usable : call.Usable 2)
    (left : M.Performs em l) (right : M.Performs em r)
    (placed : em.Placed next o
      (Step.binary live l r (Step.callConversions call) call.directives) next' e)
    (room : slots.length = em.localCount) :
    M.Carries em live o s slots e (M.overload call (l.eval M) (r.eval M)) (· :: s) := by
  refine performs_both left right placed room fun {m a b slots'} laid => ?_
  exact (does_overload [a, b] usable.static usable.count (by simp)).carries laid

/-! ## Nodes without control flow -/

theorem performs_arithmetic {op : ArithmeticOp} {plan : ArithmeticPlan} {l r : Element}
    (usable : ∀ call, plan = .operator call → call.Usable 2)
    (left : M.Performs em l) (right : M.Performs em r)
    (placed : em.Placed next o (Step.arithmetic live op plan l r) next' e)
    (room : slots.length = em.localCount) :
    M.Carries em live o s slots e (M.arithmetic op plan (l.eval M) (r.eval M)) (· :: s) := by
  have called {helper : HostId} {a b : V} {m : Nat} {slots : List (Option V)}
      (laid : em.Laid m [.call .call helper 2] e) :
      M.Carries em live m (b :: a :: s) slots e (M.call helper [a, b]) (· :: s) :=
    (does_call [a, b] rfl).carries laid
  cases plan with
  | operator call => exact performs_overload (usable call rfl) left right placed room
  | numeric kind checked unsigned cl cr =>
      refine performs_both left right placed room fun laid => ?_
      exact (does_binary (effect_arithmetic op checked unsigned)).carries laid
  | concat helper cl cr => exact performs_both left right placed room called
  | powerUnrolled exponent kind checked =>
      obtain ⟨n, m, block, rest⟩ := placed.visit_inv
      obtain ⟨-, laid⟩ := rest.emits_end
      obtain ⟨m', fetched, laid, same, bound⟩ := laid.storeTemporary_inv
      refine (left block room).bind ?_
      intro base slots₁ kept₁
      have inside : live < slots₁.length := by rw [kept₁.length, room]; exact bound
      have stored := reaches_setLocal (M := M) (s := s) (v := base) fetched
        (by rw [same]; exact inside)
      rw [same] at stored
      refine .of_reaches stored (.set live slots₁ base) (.outside ?_)
      refine ((does_power exponent (effect_arithmetic .mul checked kind.isUnsigned) ?_).bind
        fun v => does_narrow).carries laid
      rintro _ rfl
      rw [same, List.getElem?_set_self inside]
  | powerCall cl cr => exact performs_both left right placed room called

theorem performs_shift {op : ShiftOp} {plan : ShiftPlan} {l r : Element}
    (usable : ∀ call, plan = .operator call → call.Usable 2)
    (left : M.Performs em l) (right : M.Performs em r)
    (placed : em.Placed next o (Step.shift live op plan l r) next' e)
    (room : slots.length = em.localCount) :
    M.Carries em live o s slots e (M.shift op plan (l.eval M) (r.eval M)) (· :: s) := by
  cases plan with
  | operator call => exact performs_overload (usable call rfl) left right placed room
  | numeric kind cl cr => exact performs_both left right placed room does_shift.carries

theorem performs_unary {plan : UnaryPlan} {x : Element}
    (usable : ∀ call, plan = .operator call → call.Usable 1)
    (operand : M.Performs em x) (placed : em.Placed next o (Step.unary live plan x) next' e)
    (room : slots.length = em.localCount) :
    M.Carries em live o s slots e (M.unaryNode plan (x.eval M)) (· :: s) := by
  have after {c : Conversion} {op : OpCode} {k : V → Except T V} {before : List V} {o : Nat}
      {slots : List (Option V)} (room : slots.length = em.localCount)
      (placed : em.Placed next o (Step.operand live x c ++ [Step.emit (.op op)]) next' e)
      (does : ∀ {v} {slots : List (Option V)},
        M.Does (· = slots) [.op op] (v :: before) (k v) (· :: s)) :
      M.Carries em live o before slots e (do
        let v ← x.eval M
        let v ← M.convert c v
        k v) (· :: s) := by
    obtain ⟨n, m, m', block, laid, rest⟩ := placed.operand_inv
    refine (operand block room).bind ?_
    intro v slots₁ _
    exact (does_convert.carries laid).bind fun v slots₂ _ =>
      does.carries rest.emit_end.2
  cases plan with
  | operator call =>
      obtain ⟨n, m, m', block, laid, rest⟩ := placed.operand_inv
      obtain ⟨-, called⟩ := rest.emits_end
      refine (operand block room).bind ?_
      intro v slots₁ _
      refine (does_convert.carries laid).bind ?_
      intro v slots₂ _
      exact (does_overload [v] (usable call rfl).static (usable call rfl).count
        (by simp)).carries called
  | negate kind checked c =>
      cases checked with
      | true =>
          obtain ⟨m, zero, rest⟩ := placed.emit_inv
          refine ((does_constant _).carries zero).bind ?_
          intro zero slots₁ kept
          exact after (kept.length.trans room) rest (does_binary rfl)
      | false => exact after room placed (does_unary rfl)
  | plus c =>
      obtain ⟨m, block, laid⟩ := placed.operand_end
      exact (operand block room).bind fun v slots₁ _ => does_convert.carries laid
  | not =>
      obtain ⟨n, m, block, rest⟩ := placed.visit_inv
      exact (operand block room).bind fun v slots₁ _ =>
        (does_unary rfl).carries rest.emit_end.2
  | complement kind c => exact after room placed (does_unary rfl)

/-! ## Nodes that branch -/

/-- A short circuit keeps the left value if it decides. -/
theorem performs_shortCircuit {info : NodeInfo} {op : LogicalOp} {l r : Element}
    (left : M.Performs em l) (right : M.Performs em r)
    (block : em.Block live next o (.logical info op .shortCircuit l r) next' e)
    (room : slots.length = em.localCount) :
    M.Carries em live o s slots e (M.logical op .shortCircuit (l.eval M) (r.eval M))
      (· :: s) := by
  obtain ⟨n, m₁, m₂, m₃, m₄, block₁, dup, skip, pop, block₂⟩ := block.shortCircuit_inv
  refine (left block₁ room).bind ?_
  intro a slots₁ kept
  have skips : M.Reaches em ⟨m₁, a :: s, slots₁⟩
      ⟨if M.decides op a then e else m₃, a :: s, slots₁⟩ := by
    have turned : (if !M.truth a then e else m₃) = if M.truth a then m₃ else e := by
      cases M.truth a <;> rfl
    refine (reaches_dup dup).trans ?_
    cases op with
    | or => exact reaches_ifTrue skip
    | and =>
        show M.Reaches em _ ⟨if !M.truth a then e else m₃, _, _⟩
        rw [turned]
        exact reaches_ifFalse skip
    | xor =>
        show M.Reaches em _ ⟨if !M.truth a then e else m₃, _, _⟩
        rw [turned]
        exact reaches_ifFalse skip
  refine .of_reaches skips (.refl _ _) ?_
  cases M.decides op a with
  | true => exact .pure
  | false =>
      exact .of_reaches (reaches_pop pop) (.refl _ _) (right block₂ (kept.length.trans room))

theorem performs_logical {info : NodeInfo} {op : LogicalOp} {plan : LogicalPlan} {l r : Element}
    (usable : ∀ call, plan = .operator call → call.Usable 2)
    (left : M.Performs em l) (right : M.Performs em r)
    (block : em.Block live next o (.logical info op plan l r) next' e)
    (room : slots.length = em.localCount) :
    M.Carries em live o s slots e (M.logical op plan (l.eval M) (r.eval M)) (· :: s) := by
  cases plan with
  | operator call => exact performs_overload (usable call rfl) left right block room
  | shortCircuit => exact performs_shortCircuit left right block room
  | boolXor =>
      obtain ⟨n₁, m₁, block₁, rest⟩ := Emission.Placed.visit_inv block
      obtain ⟨n₂, m₂, block₂, rest⟩ := rest.visit_inv
      refine (left block₁ room).bind ?_
      intro a slots₁ kept
      refine (right block₂ (kept.length.trans room)).bind ?_
      intro b slots₂ _
      exact (does_binary rfl).carries rest.emit_end.2
  | bitwise kind cl cr =>
      refine performs_both left right block room fun laid => ?_
      exact (does_binary (by cases op <;> rfl)).carries laid

/-- A conditional runs one branch and jumps over the other. -/
theorem performs_conditional {info : NodeInfo} {onTrue onFalse : Conversion} {c t f : Element}
    (condition : M.Performs em c) (whenTrue : M.Performs em t) (whenFalse : M.Performs em f)
    (block : em.Block live next o (.conditional info onTrue onFalse c t f) next' e)
    (room : slots.length = em.localCount) :
    M.Carries em live o s slots e ((Element.conditional info onTrue onFalse c t f).eval M)
      (· :: s) := by
  obtain ⟨n, n', m₁, m₂, m₃, m₄, m₅, m₆, block₁, test, block₂, laid₂, jump, block₃, laid₃⟩ :=
    block.conditional_inv
  rw [Element.eval]
  refine (condition block₁ room).bind ?_
  intro a slots₁ kept₁
  have room₁ := kept₁.length.trans room
  refine .of_reaches (reaches_ifFalse test) (.refl _ _) ?_
  cases M.truth a with
  | true =>
      refine Carries.andThen (m := m₄) ?_ fun v slots₂ _ => reaches_jump jump
      exact (whenTrue block₂ room₁).bind fun v slots₂ _ => does_convert.carries laid₂
  | false => exact (whenFalse block₃ room₁).bind fun v slots₂ _ => does_convert.carries laid₃

/-- Items are compared with the probe in its slot until one is a hit. -/
theorem performs_items {place : UInt8} {probe : V} {list : List (ComparePlan × Element)}
    {hit target o' : Nat} (items : ∀ item ∈ list, M.Performs em item.2)
    (usable : ∀ item ∈ list, item.1.Usable)
    (placed : em.Placed next o (Step.items live hit place list) next' o')
    (known : em.labels[hit]? = some target) (below : place.toNat < live)
    (held : slots[place.toNat]? = some (some probe)) (room : slots.length = em.localCount)
    (onHit : ∀ {slots' : List (Option V)},
      M.Carries em live target s slots' e (M.push .pushTrue) (· :: s))
    (onMiss : ∀ {slots' : List (Option V)},
      M.Carries em live o' s slots' e (M.push .pushFalse) (· :: s)) :
    M.Carries em live o s slots e (Element.evalItems M probe list) (· :: s) := by
  induction list generalizing next o slots with
  | nil =>
      obtain ⟨-, rfl⟩ := placed.nil_inv
      rw [Element.evalItems]
      exact onMiss
  | cons item list ih =>
      obtain ⟨plan, x⟩ := item
      obtain ⟨n, m₁, m₂, m₃, m₄, m₅, m₆, load, laid₁, block, laid₂, compare, test, rest⟩ :=
        placed.item_inv known
      rw [Element.evalItems]
      have compared : M.Carries em live o s slots m₅
          (M.both plan.operandConversions (.ok probe) (x.eval M) (M.compare .eq plan))
          (· :: s) := by
        refine ((does_getLocal (by rintro _ rfl; exact held)).carries load).bind
          fun p slots₀ kept₀ => ?_
        refine (does_convert.carries laid₁).bind ?_
        intro a slots₁ kept₁
        refine (items _ List.mem_cons_self block ((kept₀.trans kept₁).length.trans room)).bind
          fun b slots₂ _ => ?_
        refine (does_convert.carries laid₂).bind ?_
        intro b' slots₃ _
        exact (does_compare (usable _ List.mem_cons_self)).carries compare
      refine compared.bind ?_
      intro answer slots₁ kept₁
      refine .of_reaches (reaches_ifTrue test) (.refl _ _) ?_
      cases M.truth answer with
      | true => exact onHit
      | false =>
          exact ih (fun item hi => items item (List.mem_cons_of_mem _ hi))
            (fun item hi => usable item (List.mem_cons_of_mem _ hi)) rest
            ((kept₁.below _ below).trans held) (kept₁.length.trans room)

theorem performs_inList {info : NodeInfo} {probe : Element} {list : List (ComparePlan × Element)}
    (probed : M.Performs em probe) (items : ∀ item ∈ list, M.Performs em item.2)
    (usable : ∀ item ∈ list, item.1.Usable)
    (block : em.Block live next o (.inList info probe list) next' e)
    (room : slots.length = em.localCount) :
    M.Carries em live o s slots e ((Element.inList info probe list).eval M) (· :: s) := by
  obtain ⟨n, m₁, m₂, m₃, m₄, hit, block₁, store, placed, known, no, jump, yes⟩ :=
    block.inList_inv
  obtain ⟨m, fetched, rest, same, bound⟩ := store.storeTemporary_inv
  cases rest.nil_inv
  rw [Element.eval]
  refine (probed block₁ room).bind ?_
  intro p slots₁ kept
  have room₁ := kept.length.trans room
  have inside : live < slots₁.length := room₁ ▸ bound
  have stored := reaches_setLocal (M := M) (s := s) (v := p) fetched (by rw [same]; exact inside)
  rw [same] at stored
  refine .of_reaches stored (.set live slots₁ p) (.outside ?_)
  refine performs_items items usable placed known ?_ ?_ ?_ ?_ ?_
  · rw [same]
    exact Nat.lt_succ_self live
  · rw [same, List.getElem?_set_self inside]
  · rw [List.length_set, room₁]
  · exact (does_push rfl).carries yes
  · exact ((does_push rfl).carries no).andThen fun v slots' _ => reaches_jump jump

/-! ## Members -/

theorem performs_receiver {source : Receiver Element}
    (target : ∀ x ∈ Element.receiverChildren source, M.Performs em x)
    (placed : em.Placed next o (Step.receiver live source) next' e)
    (room : slots.length = em.localCount) :
    M.Carries em live o s slots e (Element.evalReceiver M source) (fun t => t.toList ++ s) := by
  cases source with
  | target x =>
      obtain ⟨n, m, block, rest⟩ := placed.visit_inv
      obtain ⟨-, rfl⟩ := rest.nil_inv
      rw [Element.evalReceiver]
      exact (target x List.mem_cons_self block room).bind fun v slots' _ => .result rfl
  | owner =>
      rw [Element.evalReceiver]
      exact ((does_push rfl).carries placed.emit_end.2).bind fun v slots' _ => .result rfl
  | static =>
      obtain ⟨-, rfl⟩ := placed.nil_inv
      rw [Element.evalReceiver]
      exact .result rfl

/-- A member has a target exactly if it is not static. -/
theorem isNone_of_evalReceiver {source : Receiver Element} {target : Option V}
    (h : Element.evalReceiver M source = .ok target) : source.isStatic = target.isNone := by
  cases source with
  | target x =>
      obtain ⟨v, -, same⟩ := bind_eq_ok h
      cases same
      rfl
  | owner =>
      obtain ⟨v, -, same⟩ := bind_eq_ok h
      cases same
      rfl
  | static =>
      cases h
      rfl

theorem performs_arguments {args : List Element} {conversions : List Conversion}
    (each : ∀ x ∈ args, M.Performs em x)
    (placed : em.Placed next o (Step.arguments live args conversions) next' e)
    (room : slots.length = em.localCount) :
    M.Carries em live o s slots e (Element.evalArguments M args conversions)
      (fun values => values.reverse ++ s) := by
  induction args generalizing conversions next o s slots with
  | nil =>
      obtain ⟨-, rfl⟩ := placed.nil_inv
      rw [Element.evalArguments]
      exact .result rfl
  | cons x args ih =>
      obtain ⟨n, m, m', block, laid, rest⟩ := placed.operand_inv
      rw [Element.evalArguments]
      refine (each x List.mem_cons_self block room).bind ?_
      intro v slots₁ kept₁
      refine (does_convert.carries laid).bind ?_
      intro v' slots₂ kept₂
      refine (ih (fun x hx => each x (List.mem_cons_of_mem _ hx)) rest
        (kept₂.length.trans (kept₁.length.trans room))).bind fun values slots₃ _ => ?_
      refine .result ?_
      rw [List.reverse_cons, List.append_assoc]
      rfl

theorem length_of_evalArguments {args : List Element} {conversions : List Conversion}
    {values : List V} (h : Element.evalArguments M args conversions = .ok values) :
    values.length = args.length := by
  induction args generalizing conversions values with
  | nil =>
      cases h
      rfl
  | cons x args ih =>
      rw [Element.evalArguments] at h
      obtain ⟨v, -, h⟩ := bind_eq_ok h
      obtain ⟨v', -, h⟩ := bind_eq_ok h
      obtain ⟨rest, later, h⟩ := bind_eq_ok h
      cases h
      rw [List.length_cons, List.length_cons, ih later]

theorem performs_read {info : NodeInfo} {access : ValueAccess} {member : HostId}
    {source : Receiver Element} (target : ∀ x ∈ Element.receiverChildren source, M.Performs em x)
    (block : em.Block live next o (.read info access member source) next' e)
    (room : slots.length = em.localCount) :
    M.Carries em live o s slots e ((Element.read info access member source).eval M)
      (· :: s) := by
  obtain ⟨n, m, first, rest⟩ := Emission.Placed.append_inv block
  rw [Element.eval]
  refine (performs_receiver target first room).bind_of ?_
  intro t slots' found _
  exact (does_read (isNone_of_evalReceiver found)).carries rest.emit_end.2

/-- The target comes before the arguments, and the call takes all of them. -/
theorem performs_call {info : NodeInfo} {call : CallTarget} {source : Receiver Element}
    {args : List Element} (count : call.conversions.length = args.length)
    (same : call.isStatic = source.isStatic)
    (target : ∀ x ∈ Element.receiverChildren source, M.Performs em x)
    (each : ∀ x ∈ args, M.Performs em x)
    (block : em.Block live next o (.call info call source args) next' e)
    (room : slots.length = em.localCount) :
    M.Carries em live o s slots e ((Element.call info call source args).eval M) (· :: s) := by
  simp only [Emission.Block] at block
  simp only [Element.body, List.append_assoc] at block
  obtain ⟨n, m, first, rest⟩ := block.append_inv
  obtain ⟨n', m', middle, rest⟩ := rest.append_inv
  obtain ⟨-, laid⟩ := rest.emits_end
  rw [Element.eval]
  refine (performs_receiver target first room).bind_of ?_
  intro t slots₁ found kept
  refine (performs_arguments each middle (kept.length.trans room)).bind_of
    fun values slots₂ given _ => ?_
  refine (does_invoke values ?_ ?_ (laid.call_small)).carries laid
  · rw [same, isNone_of_evalReceiver found]
  · rw [count, length_of_evalArguments given]

/-- A collection lies below the probe that is looked for in it. -/
theorem performs_inCollection {info : NodeInfo} {c : Conversion} {contains : HostId}
    {probe collection : Element} (probed : M.Performs em probe)
    (searched : M.Performs em collection)
    (block : em.Block live next o (.inCollection info c contains probe collection) next' e)
    (room : slots.length = em.localCount) :
    M.Carries em live o s slots e
      ((Element.inCollection info c contains probe collection).eval M) (· :: s) := by
  obtain ⟨n, m, block₁, rest⟩ := Emission.Placed.visit_inv block
  obtain ⟨n', m₁, m₂, block₂, laid, rest⟩ := rest.operand_inv
  rw [Element.eval]
  refine (searched block₁ room).bind ?_
  intro target slots₁ kept
  refine (probed block₂ (kept.length.trans room)).bind ?_
  intro p slots₂ _
  refine (does_convert.carries laid).bind ?_
  intro p' slots₃ _
  exact (does_method [p'] rfl).carries rest.emit_end.2

/-! ## Whole trees -/

/-- By induction on the tree, the block of each node carries out its evaluation. -/
theorem performs_of_runnable {x : Element} (h : x.All Element.Runnable) : M.Performs em x := by
  induction h with
  | @node x runnable below ih =>
      intro live next o next' e s slots block room
      cases x with
      | literal info v => exact does_literal.carries (Emission.Placed.emits_end block).2
      | arithmetic info op plan l r =>
          obtain ⟨left, right⟩ := Element.forall_two ih
          rw [Element.eval]
          exact performs_arithmetic runnable left right block room
      | compare info op plan l r =>
          obtain ⟨left, right⟩ := Element.forall_two ih
          rw [Element.eval]
          exact performs_both left right block room (does_compare runnable).carries
      | shift info op plan l r =>
          obtain ⟨left, right⟩ := Element.forall_two ih
          rw [Element.eval]
          exact performs_shift runnable left right block room
      | unary info op plan x =>
          rw [Element.eval]
          exact performs_unary runnable (ih x List.mem_cons_self) block room
      | logical info op plan l r =>
          obtain ⟨left, right⟩ := Element.forall_two ih
          rw [Element.eval]
          exact performs_logical runnable left right block room
      | cast info plan x =>
          obtain ⟨n, m, block₁, rest⟩ := Emission.Placed.visit_inv block
          rw [Element.eval]
          refine (ih x List.mem_cons_self block₁ room).bind ?_
          intro v slots₁ _
          exact does_cast.carries rest.emits_end.2
      | conditional info onTrue onFalse c t f =>
          obtain ⟨condition, whenTrue, whenFalse⟩ := Element.forall_three ih
          exact performs_conditional condition whenTrue whenFalse block room
      | inList info probe items =>
          refine performs_inList (ih probe List.mem_cons_self) (fun item hi => ?_)
            runnable block room
          exact ih item.2 (List.mem_cons_of_mem _ (List.mem_map_of_mem hi))
      | inCollection info c contains probe collection =>
          obtain ⟨probed, searched⟩ := Element.forall_two ih
          exact performs_inCollection probed searched block room
      | read info access member source => exact performs_read ih block room
      | call info target source args =>
          obtain ⟨receiver, each⟩ := List.forall_mem_append.mp ih
          exact performs_call runnable.1 runnable.2 receiver each block room
      | root info c child => exact runnable.elim

/-- Before the return, the conversion of a root is carried out like any other. -/
theorem carries_root {info : NodeInfo} {c : Conversion} {child : Element} {em : Emission}
    (below : child.All Element.Runnable) (block : em.Block 0 next o (.root info c child) next' e)
    (room : slots.length = em.localCount) :
    ∃ m, em.fetch? m = some (.plain .ret, e)
      ∧ M.Carries em 0 o [] slots m ((Element.root info c child).eval M) (· :: []) := by
  obtain ⟨n, m, m', block₁, laid, rest⟩ := Emission.Placed.operand_inv block
  refine ⟨m', rest.emit_end.2.op_inv, ?_⟩
  rw [Element.eval_root]
  exact (performs_of_runnable below block₁ room).bind fun v slots₁ _ => does_convert.carries laid

/-- Code that carries out a computation up to a return comes to its outcome. -/
theorem yields_of_carries {x : Except T V} {m : Nat}
    (carried : M.Carries em 0 0 [] (List.replicate em.localCount none) m x (· :: []))
    (fetched : em.fetch? m = some (.plain .ret, e)) : M.Yields em x := by
  cases x with
  | ok v =>
      obtain ⟨slots, -, reached⟩ := carried
      refine run_of_reaches reached ?_
      simp only [step, fetched]
      rfl
  | error t =>
      obtain ⟨c, reached, trapped⟩ := carried
      exact run_of_reaches reached trapped

end Machine

/-! ## Trees that were built -/

/-- Running the code of a tree comes to what evaluating the tree gives, a value or
a trap, on every machine. -/
theorem Element.yields_iff_eval {V T : Type} {ctx : Context} {events : List Event}
    {tree : Element} {plan : BranchPlan} {em : Emission}
    (built : ctx.build events = .ok tree)
    (single : ∀ c ∈ tree.children, c.All (·.isRoot = false))
    (static : tree.All fun e => ∀ call ∈ e.operators, call.isStatic = true)
    (emitted : tree.emit plan = .ok em) (M : Machine V T) (outcome : Except T V) :
    M.Yields em outcome ↔ outcome = tree.eval M := by
  have rules := Context.rule_of_built (Context.built_of_build built)
  obtain ⟨next', block⟩ := tree.block_emit emitted
  have root := (emit_ok emitted).1
  cases tree with
  | root info c child =>
      have below : child.All Element.Runnable := by
        have node := ((rules.child child List.mem_cons_self).and
          (static.child child List.mem_cons_self)).and (single child List.mem_cons_self)
        exact node.imp fun x hx => hx.1.1.runnable hx.1.2 hx.2
      obtain ⟨m, fetched, carried⟩ := Machine.carries_root below block List.length_replicate
      have yields := M.yields_of_carries carried fetched
      constructor
      · rintro ⟨n, ran⟩
        obtain ⟨n', ran'⟩ := yields
        exact Machine.run_unique ran ran'
      · rintro rfl
        exact yields
  | _ => cases root

/-! ## An example: a purchase

    price + fee < limit and size in (small, large) and size in stock ? 2 ** 3 : 0L
-/

namespace Purchase

def money : Ty := ⟨HostId.ofName "Money", .struct⟩

def size : Ty := ⟨HostId.ofName "Size", .enum⟩

def stock : Ty := ⟨HostId.ofName "Stock", .refClass⟩

def order : HostId := HostId.ofName "Order"

def sum : Member := Member.operator money.id "opAdd" [money, money] money

def less : Member := Member.operator money.id "opLess" [money, money] Ty.bool

/-- The search of a stock. -/
def contains : Member :=
  Member.method stock.id CollectionKind.collection.searchMethod [size] Ty.bool

def price : Member := Member.field order "price" money

def fee : Member := Member.field order "fee" money

def limit : Member := Member.property order "limit" money

def wanted : Member := Member.field order "size" size

def small : Member := Member.field order "small" size

def large : Member := Member.field order "large" size

def shelf : Member := Member.field order "stock" stock

/-- Sums of money have operators of their own, sizes are an enum, and a stock is searched for
them. -/
def host : List Registration :=
  [.struct "Money", .enum "Size" .int64, .refClass "Stock" none [] .empty,
    .collection stock.id .collection size, .refClass "Order" none [] .empty]
  ++ [sum, less, price, fee, limit, wanted, small, large, shelf].map .member

/-- Formulas about an order. -/
def context : Context :=
  ⟨host.foldl Registry.after .withPrimitives, { owner := some order }⟩

def events : List Event :=
  let get (name : String) : Tag := .member name false none
  [get "price", get "fee", .binary (.arithmetic .add), get "limit", .binary (.compare .lt),
    get "size", get "small", get "large", .inList 2, .binary (.logical .and),
    get "size", get "stock", .inCollection, .binary (.logical .and),
    .integer 2, .integer 3, .binary (.arithmetic .pow), .literal (.long 0), .conditional].map
      (⟨·, .unknown⟩)

def node (type : Ty) : NodeInfo := ⟨type, .unknown⟩

def get (access : ValueAccess) (m : Member) : Element :=
  .read (node m.returns) access m.id .owner

def call (m : Member) : CallTarget := ⟨m.id, true, m.returns, [.identity, .identity]⟩

def literal (v : Literal) : Element := .literal (node v.type) v

def both (left right : Element) : Element :=
  .logical (node Ty.bool) .and .shortCircuit left right

def total : Element :=
  .arithmetic (node money) .add (.operator (call sum)) (get .field price) (get .field fee)

def affordable : Element :=
  .compare (node Ty.bool) .lt (.operator (call less) false) total (get .property limit)

def sold : Element :=
  .inList (node Ty.bool) (get .field wanted)
    [(.enum .int64, get .field small), (.enum .int64, get .field large)]

def available : Element :=
  .inCollection (node Ty.bool) .identity contains.id (get .field wanted) (get .field shelf)

def cube : Element :=
  .arithmetic (node (Ty.numeric .int32)) .pow (.powerUnrolled 3 .int32 false)
    (literal (.int 2)) (literal (.int 3))

def tree : Element :=
  .root (node (Ty.numeric .int64)) .identity
    (.conditional (node (Ty.numeric .int64)) (.operand .int32 .int64) .identity
      (both (both affordable sold) available) cube (literal (.long 0)))

theorem built : context.build events = .ok tree := by
  -- sorting the overloads is not a recursion that reduces by itself
  set_option maxRecDepth 1024 in with_unfolding_all rfl

/-- The types that nodes of the tree have. -/
def types : List Ty :=
  [money, size, stock, Ty.bool, Ty.numeric .int32, Ty.numeric .int64]

/-- Below its top the tree has no root, calls static operators only, and has few types. -/
theorem nodes {P : Element → Prop} (h : ∀ e : Element, e.isRoot = false →
    (∀ call ∈ e.operators, call.isStatic = true) → e.type ∈ types → P e) :
    ∀ c ∈ tree.children, c.All P := by
  have plain (e : Element) (inner : e.isRoot = false) (quiet : e.operators = [])
      (typed : e.type ∈ types) : P e :=
    h e inner (fun _ called => absurd (quiet ▸ called) List.not_mem_nil) typed
  have calling (e : Element) (m : Member) (inner : e.isRoot = false)
      (calls : e.operators = [call m]) (typed : e.type ∈ types) : P e :=
    h e inner (fun _ called => List.eq_of_mem_singleton (calls ▸ called) ▸ rfl) typed
  have constant (v : Literal) (typed : v.type ∈ types) : (literal v).All P :=
    .of_forall (plain _ rfl rfl typed) trivial
  have member (access : ValueAccess) (m : Member) (typed : m.returns ∈ types) :
      (get access m).All P :=
    .of_forall (plain _ rfl rfl typed) trivial
  have summed : total.All P :=
    .of_forall (calling _ sum rfl rfl (by decide))
      ⟨member .field price (by decide), member .field fee (by decide)⟩
  have first : affordable.All P :=
    .of_forall (calling _ less rfl rfl (by decide))
      ⟨summed, member .property limit (by decide)⟩
  have second : sold.All P :=
    .of_forall (plain _ rfl rfl (by decide)) ⟨member .field wanted (by decide),
      member .field small (by decide), member .field large (by decide)⟩
  have third : available.All P :=
    .of_forall (plain _ rfl rfl (by decide))
      ⟨member .field wanted (by decide), member .field shelf (by decide)⟩
  have condition : (both (both affordable sold) available).All P :=
    .of_forall (plain _ rfl rfl (by decide))
      ⟨.of_forall (plain _ rfl rfl (by decide)) ⟨first, second⟩, third⟩
  have power : cube.All P :=
    .of_forall (plain _ rfl rfl (by decide))
      ⟨constant (.int 2) (by decide), constant (.int 3) (by decide)⟩
  exact List.forall_iff_forall_mem.mp (.of_forall (plain _ rfl rfl (by decide))
    ⟨condition, power, constant (.long 0) (by decide)⟩)

/-- All seven branches fit a short jump. -/
theorem emits : ∃ em, tree.emit ⟨.replicate 7 false, [], 0⟩ = .ok em := by
  refine tree.emits_of_within _ 128 rfl ?_
  simp only [Emission.ofDirectives, Writer.run_eq_foldlM, Writer.step.eq_def,
    Writer.writeWith.eq_def, ConstantPool.operand, ConstantPool.add,
    ConstantPool.indexOf?_eq_idxOf?]
  decide +kernel

/-- Integers without bounds, zero for false.  Money is counted, and sizes are numbered. -/
def machine : Machine Int Unit where
  constant
    | .int32 v => .ok v.toInt
    | .int64 v => .ok v.toInt
    | _ => .error ()
  push
    | .pushTrue => .ok 1
    | .pushFalse | .getOwner => .ok 0
    | _ => .error ()
  unary
    | .toI64, v => .ok v
    | _, _ => .error ()
  binary
    | .mul, a, b => .ok (a * b)
    | .eq, a, b => .ok (if a = b then 1 else 0)
    | _, _, _ => .error ()
  named
    | .getField, id, _ =>
      ([(price, 3), (fee, 2), (wanted, 1), (small, 0), (large, 1), (shelf, 4)].find?
        (·.1.id = id)).elim (.error ()) fun (_, v) => .ok v
    | _, _, _ => .error ()
  static _ := .error ()
  call id args :=
    match args with
    | [a, b] =>
      if id = sum.id then .ok (a + b)
      else if id = less.id then .ok (if a < b then 1 else 0)
      else .error ()
    | _ => .error ()
  method id target args :=
    match args with
    | [] => if id = limit.id then .ok 6 else .error ()
    | [v] => if id = contains.id then .ok (if v < target then 1 else 0) else .error ()
    | _ => .error ()
  truth v := v ≠ 0

end Purchase

/-- The order can be paid and met, and the power is computed in the slot that the probe of
the list had. -/
theorem Element.yields_iff_eval_purchase :
    ∃ em, Purchase.tree.emit ⟨.replicate 7 false, [], 0⟩ = .ok em
      ∧ Purchase.machine.Yields em (.ok 8) := by
  obtain ⟨em, emitted⟩ := Purchase.emits
  have outcome : Purchase.tree.eval Purchase.machine = .ok 8 := by decide +kernel
  refine ⟨em, emitted, (Element.yields_iff_eval Purchase.built
    (Purchase.nodes fun _ inner _ _ => inner)
    (.node (List.forall_mem_nil _) (Purchase.nodes fun _ _ static _ => static))
    emitted _ _).mpr outcome.symm⟩

end ExprCompiler
