/-
# Emitted code is sound on categories

By induction on the tree: the code of a node is passed through safely and leaves
one value, of the category of the node's type (`Signature.Types`).  Each typing rule
of the builder is one case, and in each the categories of operands, conversions and
operations fit together by `Typing`.

Main result: `Element.emit_categories`, the code of a tree is verified to have a
result of the category of the tree's type.
-/
import ExprCompiler.Proofs.Category.Regions
import ExprCompiler.Proofs.Category.Signatures
import ExprCompiler.Proofs.Code.Nodes
import ExprCompiler.Proofs.Machine.Correctness

namespace ExprCompiler

open Machine (Kept)

namespace Signature

/-- The block of an element leaves a value of the category of its type. -/
def Types (sig : Signature) (ctx : Context) (em : Emission) (result : Category) (x : Element) :
    Prop :=
  ∀ {live next o next' e : Nat} {s : List Category} {base : List (Option Category)},
    em.Block live next o x next' e → base.length = em.localCount →
      sig.Flows em result live base o s e (ctx.category x.type :: s)

variable {sig : Signature} {ctx : Context} {em : Emission} {result : Category}
  {live next o next' m e : Nat} {s s' : List Category} {base : List (Option Category)}

theorem flows_convert {k : Conversion} {a b : Category}
    (h : sig.machine.convert k a = .ok b) (laid : em.Laid o k.directives e) :
    sig.Flows em result live base o (a :: s) e (b :: s) :=
  flows_of_does Machine.does_convert h laid

/-! ## Operands -/

theorem flows_both {l r : Element} {cs : Conversion × Conversion} {ds : List Directive}
    {a b c : Category} {x : Except Unit Category} (left : sig.Types ctx em result l)
    (right : sig.Types ctx em result r)
    (placed : em.Placed next o (Step.binary live l r cs ds) next' e)
    (room : base.length = em.localCount)
    (first : sig.machine.convert cs.1 (ctx.category l.type) = .ok a)
    (second : sig.machine.convert cs.2 (ctx.category r.type) = .ok b)
    (last : sig.machine.Does (Kept live base) ds (b :: a :: s) x (· :: s)) (value : x = .ok c) :
    sig.Flows em result live base o s e (c :: s) := by
  simp only [Step.binary] at placed
  rw [List.append_assoc] at placed
  obtain ⟨n₁, m₁, m₁', block₁, laid₁, rest⟩ := placed.operand_inv
  obtain ⟨n₂, m₂, m₂', block₂, laid₂, rest⟩ := rest.operand_inv
  refine ((left block₁ room).seq (flows_convert first laid₁)).seq ?_
  refine ((right block₂ room).seq (flows_convert second laid₂)).seq ?_
  exact flows_of_does last value rest.emits_end.2

theorem flows_overload (truth : sig.Describes ctx) {op : Operator} {l r : Element}
    {c : Candidate} (overload : ctx.Overload op [l.type, r.type] c)
    (usable : (CallTarget.ofCandidate c).Usable 2) (sized : sig.Sizes ctx l.type)
    (sized' : sig.Sizes ctx r.type) (left : sig.Types ctx em result l)
    (right : sig.Types ctx em result r)
    (placed : em.Placed next o (Step.binary live l r (Step.callConversions (.ofCandidate c))
      (CallTarget.ofCandidate c).directives) next' e)
    (room : base.length = em.localCount) :
    sig.Flows em result live base o s e (ctx.category c.member.returns :: s) := by
  obtain ⟨a, b, first, second, called⟩ := call_of_overload_two truth sized sized' overload
  exact flows_both left right placed room first second
    (Machine.does_overload [a, b] usable.static usable.count (by simp)) called

theorem flows_overload_one (truth : sig.Describes ctx) {op : Operator} {x : Element}
    {c : Candidate} (overload : ctx.Overload op [x.type] c)
    (usable : (CallTarget.ofCandidate c).Usable 1) (sized : sig.Sizes ctx x.type)
    (operand : sig.Types ctx em result x)
    (placed : em.Placed next o (Step.unary live (.operator (.ofCandidate c)) x) next' e)
    (room : base.length = em.localCount) :
    sig.Flows em result live base o s e (ctx.category c.member.returns :: s) := by
  obtain ⟨a, converts, called⟩ := call_of_overload_one truth sized overload
  obtain ⟨n, m, m', block, laid, rest⟩ := Emission.Placed.operand_inv placed
  refine ((operand block room).seq (flows_convert converts laid)).seq ?_
  exact flows_of_does (Machine.does_overload [a] usable.static usable.count (by simp)) called
    rest.emits_end.2

/-! ## Arithmetic -/

theorem convert_toText {t : Ty} (sized : sig.Sizes ctx t) (value : t.isVoid = false) :
    sig.machine.convert (.toText t) (ctx.category t) = .ok .reference := by
  simp only [Conversion.toText]
  split
  · next isString => rw [Context.category_of_isString isString]; rfl
  · split
    · next isValue =>
        rw [← sized isValue]
        show given (if sig.value t.id = sig.value t.id then _ else none) = _
        rw [if_pos rfl]
        rfl
    · next notValue =>
        -- neither a value nor nothing: a reference
        have held : ctx.category t = .reference := by
          obtain ⟨id, k⟩ := t
          cases k <;> first | rfl | exact absurd rfl notValue
        rw [held]
        split <;> rfl

/-- A power with a known exponent keeps the category of its base. -/
theorem flows_power {info : NodeInfo} {l r : Element} {kind : NumericKind} {checked : Bool}
    {n : Nat} (hl : l.type.numericKind? = some kind) (hc : checked = true → kind.isIntegral = true)
    (left : sig.Types ctx em result l)
    (block : em.Block live next o (.arithmetic info .pow (.powerUnrolled n kind checked) l r)
      next' e)
    (room : base.length = em.localCount) :
    sig.Flows em result live base o s e (ctx.category l.type :: s) := by
  obtain ⟨n₁, m₁, block, rest⟩ := Emission.Placed.visit_inv block
  obtain ⟨m₂, laid, held, stored⟩ := flows_store rest.emits_end.2 room
  refine (left block room).seq (stored ?_)
  refine flows_of_does ((Machine.does_power n
    (Machine.effect_arithmetic .mul checked kind.isUnsigned) held).bind
      fun v => Machine.does_narrow) ?_ laid
  rw [Context.category_of_numericKind? hl, power_category n hc]
  exact narrow_category kind checked

/-! ## Shifts and unary operators -/

theorem numericKind?_of_integralKind? {t : Ty} {kind : NumericKind}
    (h : t.integralKind? = some kind) : t.numericKind? = some kind ∧ kind.isIntegral = true :=
  Option.filter_eq_some_iff.mp h

theorem isIntegral_promote {k : NumericKind} (h : k.isIntegral = true) :
    k.promote.isIntegral = true := by
  cases k <;> first | rfl | cases h

/-- The count of a shift is cut down as an `int`, whatever is shifted. -/
theorem shift_category {op : ShiftOp} {kind : NumericKind} (integral : kind.isIntegral = true) :
    (do
      let mask ← sig.machine.constant (.int32 (if kind.isWide then 0x3f else 0x1f))
      let count ← sig.machine.binary .and .int32 mask
      sig.machine.binary (op.opcode kind.isUnsigned) kind.category count)
        = .ok kind.category := by
  have shifted {code : OpCode} (h : code ∈ [OpCode.shl, .shr, .shrUnsigned]) :
      sig.machine.binary code kind.category .int32 = .ok kind.category := by
    have fits : (kind.category.isIntegral && Category.int32 = .int32) = true := by
      rw [NumericKind.isIntegral_category integral]
      rfl
    simp only [List.mem_cons, List.not_mem_nil, or_false] at h
    rcases h with rfl | rfl | rfl <;> exact congrArg given (if_pos fits)
  show sig.machine.binary (op.opcode kind.isUnsigned) kind.category .int32 = _
  cases op <;> cases kind.isUnsigned <;> exact shifted (by decide)

/-- An operand, a conversion and one operation on it. -/
theorem flows_operand {x : Element} {k : Conversion} {op : OpCode} {a b : Category}
    {before : List Category} {r : Except Unit Category} (operand : sig.Types ctx em result x)
    (placed : em.Placed next o (Step.operand live x k ++ [Step.emit (.op op)]) next' e)
    (room : base.length = em.localCount)
    (converts : sig.machine.convert k (ctx.category x.type) = .ok a)
    (does : sig.machine.Does (Kept live base) [.op op] (a :: before) r (· :: s))
    (value : r = .ok b) : sig.Flows em result live base o before e (b :: s) := by
  obtain ⟨n, m, m', block, laid, rest⟩ := placed.operand_inv
  refine ((operand block room).seq (flows_convert converts laid)).seq ?_
  exact flows_of_does does value rest.emit_end.2

theorem flows_unary {op : UnaryOp} {x : Element} {plan : UnaryPlan} {type : Ty}
    (h : ctx.builtinUnary? op x.type = some (plan, type)) (operand : sig.Types ctx em result x)
    (placed : em.Placed next o (Step.unary live plan x) next' e)
    (room : base.length = em.localCount) :
    sig.Flows em result live base o s e (ctx.category type :: s) := by
  cases op with
  | not =>
      simp only [Context.builtinUnary?] at h
      split at h
      · next isBool =>
          cases h
          obtain ⟨n, m, block, rest⟩ := placed.visit_inv
          refine (operand block room).seq (flows_of_does (Machine.does_unary rfl) ?_
            rest.emit_end.2)
          rw [Context.category_of_isBool isBool]
          rfl
      · cases h
  | neg =>
      simp only [Context.builtinUnary?, Option.bind_eq_bind, Option.bind_eq_some_iff] at h
      obtain ⟨k, hk, kind, meet, same⟩ := h
      cases same
      have converts : sig.machine.convert (.operand k kind) (ctx.category x.type)
          = .ok kind.category :=
        convert_operand_of hk (NumericKind.widens_of_meet? meet).1
      cases checked : ctx.options.checked && kind.isIntegral with
      | true =>
          rw [checked] at placed
          have integral := NumericKind.isIntegral_category (Bool.and_eq_true_iff.mp checked).2
          obtain ⟨m, zero, rest⟩ := placed.emit_inv
          refine (flows_of_does (Machine.does_constant _) (constant_ofNat kind 0) zero).seq ?_
          refine flows_operand operand rest room converts (Machine.does_binary rfl) ?_
          exact congrArg given (if_pos (by rw [integral]; simp))
      | false =>
          rw [checked] at placed
          refine flows_operand operand placed room converts (Machine.does_unary rfl) ?_
          exact congrArg given (if_pos kind.isNumeric_category)
  | plus =>
      simp only [Context.builtinUnary?, Option.bind_eq_bind, Option.bind_eq_some_iff] at h
      obtain ⟨k, hk, same⟩ := h
      cases same
      obtain ⟨m, block, laid⟩ := placed.operand_end
      exact (operand block room).seq (flows_convert (convert_operand_of hk k.widens_promote) laid)
  | complement =>
      simp only [Context.builtinUnary?, Option.bind_eq_bind, Option.bind_eq_some_iff] at h
      obtain ⟨k, hk, same⟩ := h
      cases same
      obtain ⟨hk, integral⟩ := numericKind?_of_integralKind? hk
      refine flows_operand operand placed room (convert_operand_of hk k.widens_promote)
        (Machine.does_unary rfl) ?_
      exact congrArg given (if_pos (NumericKind.isIntegral_category (isIntegral_promote integral)))

/-! ## Nodes that branch -/

/-- Both ways through a short circuit leave one truth value. -/
theorem flows_shortCircuit {info : NodeInfo} {op : LogicalOp} {l r : Element}
    (hl : l.type.isBool = true) (hr : r.type.isBool = true) (left : sig.Types ctx em result l)
    (right : sig.Types ctx em result r)
    (block : em.Block live next o (.logical info op .shortCircuit l r) next' e)
    (room : base.length = em.localCount) :
    sig.Flows em result live base o s e (.int32 :: s) := by
  obtain ⟨n, m₁, m₂, m₃, m₄, block₁, dup, skip, pop, block₂⟩ := block.shortCircuit_inv
  have first := left (s := s) block₁ room
  have second := right (s := s) block₂ room
  rw [Context.category_of_isBool hl] at first
  rw [Context.category_of_isBool hr] at second
  have doubled : sig.Flows em result live base m₁ (.int32 :: s) m₂ (.int32 :: .int32 :: s) :=
    flows_one dup nofun fun _ _ => rfl
  have dropped : sig.Flows em result live base m₃ (.int32 :: s) m₄ s :=
    flows_one pop nofun fun _ _ => rfl
  have tests : op.skipKind ≠ .always := by cases op <;> nofun
  have rest := dropped.seq second
  refine first.seq (doubled.seq ⟨?_, ?_⟩)
  · exact (passes_test skip tests).into rest.passes fun _ hc => hc
  · refine (Emission.Covers.one skip ?_).trans rest.covers
    rw [Instruction.leads_test tests]
    exact List.mem_cons_self

/-- Both branches of a conditional leave a value of one category. -/
theorem flows_conditional {info : NodeInfo} {onTrue onFalse : Conversion} {c t f : Element}
    {d : Category} (isBool : c.type.isBool = true)
    (ht : sig.machine.convert onTrue (ctx.category t.type) = .ok d)
    (hf : sig.machine.convert onFalse (ctx.category f.type) = .ok d)
    (condition : sig.Types ctx em result c) (whenTrue : sig.Types ctx em result t)
    (whenFalse : sig.Types ctx em result f)
    (block : em.Block live next o (.conditional info onTrue onFalse c t f) next' e)
    (room : base.length = em.localCount) :
    sig.Flows em result live base o s e (d :: s) := by
  obtain ⟨n, n', m₁, m₂, m₃, m₄, m₅, m₆, block₁, test, block₂, laid₂, jump, block₃, laid₃⟩ :=
    block.conditional_inv
  have first := condition (s := s) block₁ room
  rw [Context.category_of_isBool isBool] at first
  have one : sig.Flows em result live base m₂ s m₄ (d :: s) :=
    (whenTrue block₂ room).seq (flows_convert ht laid₂)
  have other : sig.Flows em result live base m₅ s e (d :: s) :=
    (whenFalse block₃ room).seq (flows_convert hf laid₃)
  refine ⟨first.passes.seq ((passes_test test nofun).seq ?_), ?_⟩
  · exact (one.passes.seq (passes_jump jump)).join other.passes (fun _ hc => Or.inr hc)
      fun _ hc => hc
  · have tested := Emission.Covers.one test List.mem_cons_self
    refine ((first.covers.trans tested).trans one.covers).past jump ?_ other.covers
    exact first.covers.links.trans (.one test (List.mem_cons_of_mem _ List.mem_cons_self))

/-- Each item of a list is compared with the probe in its slot; the run leaves at a
hit or at the end of the list. -/
theorem passes_items (truth : sig.Describes ctx) (orderly : ctx.Orderly) {place : UInt8}
    {probe : Ty} {list : List (ComparePlan × Element)} {hit target o' : Nat}
    (sized : sig.Sizes ctx probe) (sizes : ∀ item ∈ list, sig.Sizes ctx item.2.type)
    (compares : ∀ item ∈ list, ctx.Compares .eq probe item.2.type item.1)
    (usable : ∀ item ∈ list, item.1.Usable)
    (items : ∀ item ∈ list, sig.Types ctx em result item.2)
    (placed : em.Placed next o (Step.items live hit place list) next' o')
    (known : em.labels[hit]? = some target)
    (held : ∀ slots, Kept live base slots →
      slots[place.toNat]? = some (some (ctx.category probe)))
    (room : base.length = em.localCount) :
    sig.Passes em result o o' (Config.At live base o s)
        (fun c => Config.At live base o' s c ∨ Config.At live base target s c)
      ∧ em.Covers o o' ∧ (list ≠ [] → em.Links o target) := by
  induction list generalizing next o with
  | nil =>
      obtain ⟨-, rfl⟩ := placed.nil_inv
      exact ⟨.refl _ fun _ hc => Or.inl hc, .refl _, fun some => absurd rfl some⟩
  | cons item list ih =>
      obtain ⟨plan, x⟩ := item
      obtain ⟨n, m₁, m₂, m₃, m₄, m₅, m₆, load, laid₁, block, laid₂, compare, test, rest⟩ :=
        placed.item_inv known
      rw [List.forall_mem_cons] at sizes compares usable items
      obtain ⟨a, b, first, second, compared⟩ :=
        compare_category truth orderly sized sizes.1 compares.1
      have tested : sig.Flows em result live base o s m₅ (.int32 :: s) := by
        refine (flows_of_does (Machine.does_getLocal held) rfl load).seq ?_
        refine (flows_convert first laid₁).seq ((items.1 block room).seq ?_)
        refine (flows_convert second laid₂).seq ?_
        exact flows_of_does (Machine.does_compare usable.1) compared compare
      obtain ⟨later, covered, -⟩ := ih sizes.2 compares.2 usable.2 items.2 rest
      refine ⟨tested.passes.seq ((passes_test test nofun).into later fun _ hc => ?_), ?_,
        fun _ => ?_⟩
      · exact hc.imp_right Or.inr
      · exact (tested.covers.trans (.one test List.mem_cons_self)).trans covered
      · exact tested.covers.links.trans (.one test (List.mem_cons_of_mem _ List.mem_cons_self))

theorem flows_inList (truth : sig.Describes ctx) (orderly : ctx.Orderly) {info : NodeInfo}
    {probe : Element} {list : List (ComparePlan × Element)} (filled : list ≠ [])
    (sized : sig.Sizes ctx probe.type) (sizes : ∀ item ∈ list, sig.Sizes ctx item.2.type)
    (compares : ∀ item ∈ list, ctx.Compares .eq probe.type item.2.type item.1)
    (usable : ∀ item ∈ list, item.1.Usable) (probed : sig.Types ctx em result probe)
    (items : ∀ item ∈ list, sig.Types ctx em result item.2)
    (block : em.Block live next o (.inList info probe list) next' e)
    (room : base.length = em.localCount) :
    sig.Flows em result live base o s e (.int32 :: s) := by
  obtain ⟨n, m₁, m₂, m₃, m₄, hit, block₁, store, placed, known, no, jump, yes⟩ :=
    block.inList_inv
  obtain ⟨m, rest, held, stored⟩ := flows_store store room
  cases rest.nil_inv
  refine (probed block₁ room).seq (stored ?_)
  obtain ⟨searched, covered, hits⟩ := passes_items (s := s) truth orderly sized sizes compares
    usable items placed known held (by rw [List.length_set, room])
  refine ⟨searched.seq (.join (m := hit) ?_ ?_ (fun _ hc => Or.inr hc) fun _ hc => hc), ?_⟩
  · exact (flows_of_does (Machine.does_push rfl) rfl no).passes.seq (passes_jump jump)
  · exact (flows_of_does (Machine.does_push rfl) rfl yes).passes
  · have missed := covered.trans (.one no.op_inv List.mem_cons_self)
    exact missed.past jump (hits filled) (.one yes.op_inv List.mem_cons_self)

/-! ## Members -/

/-- What a member belongs to is one value, or nothing if it is static. -/
theorem flows_receiver {source : Receiver Element}
    (target : ∀ x ∈ Element.receiverChildren source, sig.Types ctx em result x)
    (placed : em.Placed next o (Step.receiver live source) next' e)
    (room : base.length = em.localCount) :
    ∃ t : Option Category, source.isStatic = t.isNone
      ∧ sig.Flows em result live base o s e (t.toList ++ s) := by
  cases source with
  | target x =>
      obtain ⟨n, m, block, rest⟩ := placed.visit_inv
      obtain ⟨-, rfl⟩ := rest.nil_inv
      exact ⟨some _, rfl, target x List.mem_cons_self block room⟩
  | owner =>
      exact ⟨some .reference, rfl, flows_of_does (Machine.does_push rfl) rfl placed.emit_end.2⟩
  | static =>
      obtain ⟨-, rfl⟩ := placed.nil_inv
      exact ⟨none, rfl, .refl _ _⟩

theorem flows_arguments (truth : sig.Describes ctx) {args : List Element} {params : List Ty}
    {cs : List Conversion} (sizes : ∀ x ∈ args, sig.Sizes ctx x.type)
    (each : ∀ x ∈ args, sig.Types ctx em result x)
    (converted : ctx.convertAll? (args.map (·.type)) params = some cs)
    (placed : em.Placed next o (Step.arguments live args cs) next' e)
    (room : base.length = em.localCount) :
    sig.Flows em result live base o s e ((params.map ctx.category).reverse ++ s) := by
  induction args generalizing params cs next o s with
  | nil =>
      obtain ⟨-, rfl⟩ := placed.nil_inv
      cases params with
      | nil => exact .refl _ _
      | cons => cases converted
  | cons x args ih =>
      cases params with
      | nil => cases converted
      | cons p params =>
          simp only [List.map_cons, Context.convertAll?, Option.bind_eq_bind,
            Option.bind_eq_some_iff] at converted
          obtain ⟨k, first, rest, others, same⟩ := converted
          cases same
          obtain ⟨n, m, m', block, laid, placed⟩ := placed.operand_inv
          rw [List.forall_mem_cons] at sizes each
          have here := convert_of_conversion? truth sizes.1 first
          have later := ih (s := ctx.category p :: s) sizes.2 each.2 others placed
          refine ((each.1 block room).seq (flows_convert here laid)).seq ?_
          rw [List.map_cons, List.reverse_cons, List.append_assoc]
          exact later

theorem flows_read (truth : sig.Describes ctx) {m : Member} {target : Option Element}
    {span : Span} (known : ctx.Knows m) (value : m.isValue = true)
    (below : ∀ x ∈ (Context.readMember m target span).children, sig.Types ctx em result x)
    (block : em.Block live next o (Context.readMember m target span) next' e)
    (room : base.length = em.localCount) :
    sig.Flows em result live base o s e (ctx.category m.returns :: s) := by
  obtain ⟨n, m₁, first, rest⟩ := Emission.Placed.append_inv block
  obtain ⟨t, same, received⟩ := flows_receiver (s := s) below first room
  refine received.seq (flows_of_does (Machine.does_read same) ?_ rest.emit_end.2)
  unfold Member.isValue Member.isCallable at value
  cases kind : m.kind with
  | field =>
      have described := congrArg given (truth.field m known kind)
      cases t <;> exact described
  | property =>
      have described := congrArg given (truth.property m known kind)
      cases t <;> exact described
  | _ =>
      rw [kind] at value
      cases value

theorem flows_call (truth : sig.Describes ctx) {info : NodeInfo} {c : Candidate}
    {target : Option Element} {args : List Element} (known : ctx.Knows c.member)
    (method : c.member.kind = .method) (fits : ctx.Fits (args.map (·.type)) c)
    (sizes : ∀ x ∈ args, sig.Sizes ctx x.type)
    (receiver : ∀ x ∈ Element.receiverChildren (Context.receiverOf c.member target),
      sig.Types ctx em result x)
    (each : ∀ x ∈ args, sig.Types ctx em result x)
    (block : em.Block live next o (.call info (.ofCandidate c)
      (Context.receiverOf c.member target) args) next' e)
    (room : base.length = em.localCount) :
    sig.Flows em result live base o s e (ctx.category c.member.returns :: s) := by
  simp only [Emission.Block] at block
  simp only [Element.body, List.append_assoc] at block
  obtain ⟨n, m₁, first, rest⟩ := block.append_inv
  obtain ⟨n', m₂, middle, rest⟩ := rest.append_inv
  obtain ⟨-, laid⟩ := rest.emits_end
  obtain ⟨params, form, converted⟩ := fits.form
  obtain ⟨t, same, received⟩ := flows_receiver (s := s) receiver first room
  have callable : c.member.isCallable = true := by rw [Member.isCallable, method]
  have called := call_of_form truth known callable form
  refine received.seq ((flows_arguments truth sizes each converted middle room).seq ?_)
  refine flows_of_does (Machine.does_invoke (params.map ctx.category) ?_ ?_ laid.call_small) ?_ laid
  · rw [← same, Context.isStatic_receiverOf]
    rfl
  · have sized : ∀ t ∈ args.map (·.type), sig.Sizes ctx t := List.forall_mem_map.mpr sizes
    rw [List.length_map, (convert_of_convertAll? truth sized converted).1]
    exact fits.length
  · cases t <;> exact called

theorem flows_inCollection (truth : sig.Describes ctx) {info : NodeInfo}
    {probe collection : Element} {interface : CollectionInterface} {k : Conversion}
    (found : ctx.registry.collectionInterface? collection.type.id = some interface)
    (converts : ctx.conversion? probe.type interface.element = some k)
    (sized : sig.Sizes ctx probe.type) (probed : sig.Types ctx em result probe)
    (searched : sig.Types ctx em result collection)
    (block : em.Block live next o (.inCollection info k interface.contains probe collection)
      next' e)
    (room : base.length = em.localCount) :
    sig.Flows em result live base o s e (.int32 :: s) := by
  obtain ⟨n, m₁, block₁, rest⟩ := Emission.Placed.visit_inv block
  obtain ⟨n', m₂, m₃, block₂, laid, rest⟩ := rest.operand_inv
  have called : sig.machine.call interface.contains [ctx.category interface.element]
      = .ok .int32 := congrArg given (truth.contains _ interface found)
  refine (searched block₁ room).seq ((probed block₂ room).seq ?_)
  refine (flows_convert (convert_of_conversion? truth sized converts) laid).seq ?_
  exact flows_of_does (Machine.does_method [ctx.category interface.element] rfl) called
    rest.emit_end.2

/-! ## Typing rules -/

theorem literal_category (v : Literal) : sig.machine.literal v = .ok (ctx.category v.type) := by
  cases v with
  | bool b => cases b <;> rfl
  | _ => rfl

theorem flows_logical {info : NodeInfo} {op : LogicalOp} {plan : LogicalPlan} {l r : Element}
    {type : Ty} (h : Context.builtinLogical? op l.type r.type = some (plan, type))
    (left : sig.Types ctx em result l) (right : sig.Types ctx em result r)
    (block : em.Block live next o (.logical info op plan l r) next' e)
    (room : base.length = em.localCount) :
    sig.Flows em result live base o s e (ctx.category type :: s) := by
  simp only [Context.builtinLogical?] at h
  split at h
  · next bools =>
      rw [Bool.and_eq_true] at bools
      cases h
      by_cases xor : op = .xor
      · rw [if_pos xor] at block
        obtain ⟨n₁, m₁, block₁, rest⟩ := Emission.Placed.visit_inv block
        obtain ⟨n₂, m₂, block₂, rest⟩ := rest.visit_inv
        refine (left block₁ room).seq ((right block₂ room).seq ?_)
        refine flows_of_does (Machine.does_binary rfl) ?_ rest.emit_end.2
        rw [Context.category_of_isBool bools.1, Context.category_of_isBool bools.2]
        rfl
      · rw [if_neg xor] at block
        exact flows_shortCircuit bools.1 bools.2 left right block room
  · simp only [Option.bind_eq_bind, Option.bind_eq_some_iff] at h
    obtain ⟨a, ha, b, hb, kind, meet, same⟩ := h
    cases same
    obtain ⟨ha, ia⟩ := numericKind?_of_integralKind? ha
    obtain ⟨hb, ib⟩ := numericKind?_of_integralKind? hb
    obtain ⟨wa, wb⟩ := NumericKind.widens_of_meet? meet
    have integral : kind.isIntegral = true := by
      revert ia ib
      cases a <;> cases b <;> cases meet <;> decide
    refine flows_both left right block room (convert_operand_of ha wa) (convert_operand_of hb wb)
      (Machine.does_binary (by cases op <;> rfl)) ?_
    have fits : (kind.category = kind.category && kind.category.isIntegral) = true := by
      rw [NumericKind.isIntegral_category integral]
      simp
    cases op <;> exact congrArg given (if_pos fits)

/-- Whatever rule a node is there by, its code leaves the category of its type if
that of its operands does. -/
theorem types_of_rule (truth : sig.Describes ctx) (orderly : ctx.Orderly) {x : Element}
    (rule : ctx.Rule x) (runnable : x.Runnable) (sized : sig.Sizes ctx x.type)
    (sizes : ∀ c ∈ x.children, sig.Sizes ctx c.type)
    (below : ∀ c ∈ x.children, sig.Types ctx em result c) : sig.Types ctx em result x := by
  intro live next o next' e s base block room
  cases rule with
  | literal =>
      exact flows_of_does Machine.does_literal (literal_category _)
        (Emission.Placed.emits_end block).2
  | arithmeticOperator overload =>
      obtain ⟨left, right⟩ := Element.forall_two below
      obtain ⟨sl, sr⟩ := Element.forall_two sizes
      exact flows_overload truth overload (runnable _ rfl) sl sr left right block room
  | @arithmetic span op l r a b kind hl hr meet =>
      obtain ⟨left, right⟩ := Element.forall_two below
      obtain ⟨wl, wr⟩ := NumericKind.widens_of_meet? meet
      refine flows_both left right block room (convert_operand_of hl wl) (convert_operand_of hr wr)
        (Machine.does_binary (Machine.effect_arithmetic op _ _)) (binary_opcode ?_ ?_)
      · exact fun h => (Bool.and_eq_true_iff.mp h).2
      · intro h
        rw [Bool.and_eq_true] at h
        exact NumericKind.isIntegral_of_meet? meet h.1 h.2
  | concat same hl hr =>
      obtain ⟨left, right⟩ := Element.forall_two below
      obtain ⟨sl, sr⟩ := Element.forall_two sizes
      refine flows_both left right block room (convert_toText sl hl) (convert_toText sr hr)
        (Machine.does_call [Category.reference, .reference] rfl) ?_
      subst same
      split
      · exact congrArg given truth.concat
      · exact congrArg given truth.concatObject
  | @power span l r kind n hl =>
      obtain ⟨left, -⟩ := Element.forall_two below
      exact flows_power (l := l) hl (fun h => (Bool.and_eq_true_iff.mp h).2) left block room
  | @powerCall span l r a b hl hr =>
      obtain ⟨left, right⟩ := Element.forall_two below
      exact flows_both left right block room (convert_operand_of hl a.widens_float64)
        (convert_operand_of hr b.widens_float64) (Machine.does_call [Category.double, .double] rfl)
        (congrArg given truth.pow)
  | compare compares =>
      obtain ⟨left, right⟩ := Element.forall_two below
      obtain ⟨sl, sr⟩ := Element.forall_two sizes
      obtain ⟨a, b, first, second, compared⟩ := compare_category truth orderly sl sr compares
      exact flows_both left right block room first second (Machine.does_compare runnable) compared
  | shiftOperator overload =>
      obtain ⟨left, right⟩ := Element.forall_two below
      obtain ⟨sl, sr⟩ := Element.forall_two sizes
      exact flows_overload truth overload (runnable _ rfl) sl sr left right block room
  | @shift span op l r value count hl hr =>
      obtain ⟨left, right⟩ := Element.forall_two below
      obtain ⟨-, sr⟩ := Element.forall_two sizes
      obtain ⟨hl, integral⟩ := numericKind?_of_integralKind? hl
      exact flows_both left right block room (convert_operand_of hl value.widens_promote)
        (convert_of_conversion? truth sr hr) Machine.does_shift
        (shift_category (isIntegral_promote integral))
  | unaryOperator overload =>
      exact flows_overload_one truth overload (runnable _ rfl) (sizes _ List.mem_cons_self)
        (below _ List.mem_cons_self) block room
  | unary found => exact flows_unary found (below _ List.mem_cons_self) block room
  | logicalOperator overload =>
      obtain ⟨left, right⟩ := Element.forall_two below
      obtain ⟨sl, sr⟩ := Element.forall_two sizes
      exact flows_overload truth overload (runnable _ rfl) sl sr left right block room
  | logical found =>
      obtain ⟨left, right⟩ := Element.forall_two below
      exact flows_logical found left right block room
  | cast planned =>
      obtain ⟨n, m, block, rest⟩ := Emission.Placed.visit_inv block
      refine (below _ List.mem_cons_self block room).seq ?_
      exact flows_of_does Machine.does_cast
        (cast_of_castPlan truth (sizes _ List.mem_cons_self) sized planned) rest.emits_end.2
  | conditionalTrue isBool converts =>
      obtain ⟨condition, whenTrue, whenFalse⟩ := Element.forall_three below
      obtain ⟨-, -, sf⟩ := Element.forall_three sizes
      exact flows_conditional isBool rfl (convert_of_conversion? truth sf converts) condition
        whenTrue whenFalse block room
  | conditionalFalse isBool converts =>
      obtain ⟨condition, whenTrue, whenFalse⟩ := Element.forall_three below
      obtain ⟨-, st, -⟩ := Element.forall_three sizes
      exact flows_conditional isBool (convert_of_conversion? truth st converts) rfl condition
        whenTrue whenFalse block room
  | inList filled compares =>
      obtain ⟨sp, si⟩ := List.forall_mem_cons.mp sizes
      obtain ⟨probed, items⟩ := List.forall_mem_cons.mp below
      exact flows_inList truth orderly filled sp
        (fun item hi => si item.2 (List.mem_map_of_mem hi)) compares runnable probed
        (fun item hi => items item.2 (List.mem_map_of_mem hi)) block room
  | inCollection found converts =>
      obtain ⟨probed, searched⟩ := Element.forall_two below
      obtain ⟨sp, -⟩ := Element.forall_two sizes
      exact flows_inCollection truth found converts sp probed searched block room
  | read known value => exact flows_read truth known value below block room
  | call known method fits =>
      obtain ⟨receiver, each⟩ := List.forall_mem_append.mp below
      obtain ⟨-, sizes⟩ := List.forall_mem_append.mp sizes
      exact flows_call truth known method fits sizes receiver each block room
  | root => exact runnable.elim
  | rootAs => exact runnable.elim

/-- A node of a tree that was built, below its root, of a type whose category the
signature knows. -/
structure Sound (sig : Signature) (ctx : Context) (x : Element) : Prop where
  rule : ctx.Rule x
  inner : x.isRoot = false
  sized : sig.Sizes ctx x.type

theorem types_of_sound (truth : sig.Describes ctx) (orderly : ctx.Orderly) {x : Element}
    (h : x.All (sig.Sound ctx)) : sig.Types ctx em result x := by
  induction h with
  | node here below ih =>
      have runnable := here.rule.runnable (here.rule.static orderly) here.inner
      intro live next o next' e s base block room
      exact types_of_rule truth orderly here.rule runnable here.sized
        (fun c hc => (below c hc).here.sized) ih block room

/-! ## Whole trees -/

/-- Behind the value of a root there is only the return. -/
theorem passes_root {info : NodeInfo} {k : Conversion} {child : Element}
    (types : sig.Types ctx em result child)
    (converts : sig.machine.convert k (ctx.category child.type) = .ok result)
    (block : em.Block 0 next 0 (.root info k child) next' e) :
    sig.Passes em result 0 e (Config.At 0 (List.replicate em.localCount none) 0 [])
        (fun _ => False)
      ∧ ∃ ps, em.Lists 0 ps e ∧ ∀ p ∈ ps, em.Links 0 p := by
  obtain ⟨n, m, m', block, laid, rest⟩ := Emission.Placed.operand_inv block
  have fetched := rest.emit_end.2.op_inv
  have flows : sig.Flows em result 0 (List.replicate em.localCount none) 0 [] m' [result] :=
    (types block List.length_replicate).seq (flows_convert converts laid)
  refine ⟨flows.passes.seq (passes_ret fetched), ?_⟩
  obtain ⟨ps, listed, through, each⟩ := flows.covers
  refine ⟨ps ++ [m'], listed.append (.cons fetched (.nil e)), ?_⟩
  intro p hp
  rcases List.mem_append.mp hp with hp | hp
  · exact each p hp
  · rw [List.mem_singleton.mp hp]
    exact through

/-- In code that never fails to go on, a run gets wherever control can get. -/
theorem reaches_of_links
    (safe : ∀ c, sig.Reaches em result c → ∃ cs, sig.successors em result c = some cs)
    (links : em.Links o e) {c : Config Category} (reached : sig.Reaches em result c)
    (here : c.pc = o) : ∃ c', sig.Reaches em result c' ∧ c'.pc = e := by
  induction links generalizing c with
  | refl o => exact ⟨c, reached, here⟩
  | @step o m o' e i fetched leads _ ih =>
      obtain ⟨cs, found⟩ := safe c reached
      have follows : sig.follow result i m c = some cs := by
        rw [← found, successors, here, fetched]
      rw [← leads_of_follow follows] at leads
      obtain ⟨c', mem, there⟩ := List.mem_map.mp leads
      exact ih (.step reached found mem) there

theorem stack_of_ret {c : Config Category} {cs : List (Config Category)}
    (fetched : em.fetch? c.pc = some (.plain .ret, m))
    (found : sig.successors em result c = some cs) : c.stack = [result] := by
  have found : (if c.stack = [result] then some [] else none) = some cs := by
    rw [← found, successors, fetched]
    rfl
  split at found
  · next same => exact same
  · cases found

end Signature

/-- Run on categories, both ways at each conditional branch, the code of a tree
is verified to have a result of the category of the tree's type. -/
theorem Element.emit_categories {ctx : Context} {events : List Event} {tree : Element}
    {plan : BranchPlan} {em : Emission} {sig : Signature} (orderly : ctx.Orderly)
    (truth : sig.Describes ctx) (built : ctx.build events = .ok tree)
    (single : ∀ c ∈ tree.children, c.All (·.isRoot = false))
    (sized : tree.All fun e => sig.Sizes ctx e.type) (emitted : tree.emit plan = .ok em) :
    sig.Verifies em (ctx.category tree.type) := by
  have rules := Context.rule_of_built (Context.built_of_build built)
  obtain ⟨next', block⟩ := tree.block_emit emitted
  have root := (emit_ok emitted).1
  have passes : sig.Passes em (ctx.category tree.type) 0 em.chunk.size
        (Config.At 0 (List.replicate em.localCount none) 0 []) (fun _ => False)
      ∧ ∃ ps, em.Lists 0 ps em.chunk.size ∧ ∀ p ∈ ps, em.Links 0 p := by
    cases tree with
    | root info k child =>
        have sound : child.All (sig.Sound ctx) := by
          have node := ((rules.child child List.mem_cons_self).and
            (sized.child child List.mem_cons_self)).and (single child List.mem_cons_self)
          exact node.imp fun x hx => ⟨hx.1.1, hx.2, hx.1.2⟩
        refine Signature.passes_root (Signature.types_of_sound truth orderly sound) ?_ block
        cases rules.here with
        | root => rfl
        | rootAs _ converts =>
            exact Signature.convert_of_conversion? truth
              (sized.child child List.mem_cons_self).here converts
    | _ => cases root
  obtain ⟨passes, ps, listed, links⟩ := passes
  have starts : Config.At 0 (List.replicate em.localCount none) 0 []
      (Machine.init em : Config Category) := ⟨rfl, rfl, .refl _ _⟩
  have safe c (reached : sig.Reaches em (ctx.category tree.type) c) :
      ∃ cs, sig.successors em (ctx.category tree.type) c = some cs :=
    (passes.safe starts reached reached).1
  refine ⟨safe, fun c c' reached reached' => (passes.safe starts reached reached').2,
    fun o ho => ?_, fun c next reached fetched => ?_⟩
  · rw [listed.instructions] at ho
    exact Signature.reaches_of_links safe (links o ho) .init rfl
  · obtain ⟨cs, found⟩ := safe c reached
    exact Signature.stack_of_ret fetched found

/-! ## An example: a purchase -/

namespace Purchase

theorem orderly : context.Orderly := Context.orderly_of_known (by decide +kernel)

theorem plain : context.Plain where
  fixed := by decide +kernel
  bare := by decide +kernel
  apart := by decide +kernel
  helpers := by decide +kernel
  searched := by decide +kernel

theorem sizes : ∀ t ∈ types, context.signature.Sizes context t := by
  have registered : ∀ t ∈ types, ∃ e ∈ context.entry? t.id, e.type = t := by decide +kernel
  exact fun t typed => Context.signature_sizes (registered t typed)

end Purchase

/-- Sums of money are references, sizes are compared as the numbers they are made of, and
either way there is a 64-bit number in the end. -/
theorem Element.emit_categories_purchase :
    ∃ em, Purchase.tree.emit ⟨.replicate 7 false, [], 0⟩ = .ok em
      ∧ Purchase.context.signature.Verifies em .int64 := by
  obtain ⟨em, emitted⟩ := Purchase.emits
  exact ⟨em, emitted, Element.emit_categories Purchase.orderly Purchase.plain.describes
    Purchase.built (Purchase.nodes fun _ inner _ _ => inner)
    (.node (Purchase.sizes _ (by decide))
      (Purchase.nodes fun _ _ _ typed => Purchase.sizes _ typed)) emitted⟩

end ExprCompiler
