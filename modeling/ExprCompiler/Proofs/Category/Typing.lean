/-
# Plans and conversions keep categories

The builder decides conversions and plans by types; the code that stands for them
works on categories.  Here the two meet: evaluated on the machine of categories, a
conversion between two types takes the category of one to that of the other, and
the operation of a plan leaves the category of the type that the node records.

What is assumed of the host is gathered in `Signature.Describes`, and what is
assumed of the registry in `Context.Orderly`.
-/
import ExprCompiler.Proofs.Category.Execution
import ExprCompiler.Proofs.Machine.Evaluation
import ExprCompiler.Proofs.Tree.Calls

namespace ExprCompiler

/-- A registry whose operators are what they are taken for. -/
structure Context.Orderly (ctx : Context) : Prop where
  /-- Operators are static. -/
  static : ∀ m, ctx.Knows m → m.kind = .operator → m.isStatic = true
  /-- Overloads of comparisons answer with a truth value. -/
  comparison : ∀ op owner m, m ∈ ctx.operatorsOn (.binary (.compare op)) owner →
    m.returns.isBool = true

namespace Signature

/-- A signature that agrees with a registry on its members, in each of their forms,
and with the runtime on its helpers. -/
structure Describes (sig : Signature) (ctx : Context) : Prop where
  called : ∀ m params, ctx.Knows m → m.isCallable = true → ctx.Form m params →
    sig.call m.id (params.map ctx.category) = some (ctx.category m.returns)
  property : ∀ m, ctx.Knows m → m.kind = .property →
    sig.call m.id [] = some (ctx.category m.returns)
  field : ∀ m, ctx.Knows m → m.kind = .field → sig.field m.id = some (ctx.category m.returns)
  /-- The search method of a collection takes an element and answers with a truth
  value. -/
  contains : ∀ id interface, ctx.registry.collectionInterface? id = some interface →
    sig.call interface.contains [ctx.category interface.element] = some .int32
  concat : sig.call Helper.stringConcat [.reference, .reference] = some .reference
  concatObject : sig.call Helper.stringConcatObject [.reference, .reference] = some .reference
  equals : sig.call Helper.stringEquals [.reference, .reference, .int32] = some .int32
  pow : sig.call Helper.mathPow [.double, .double] = some .double

/-- A signature that knows the category of a type if it is one of values. -/
def Sizes (sig : Signature) (ctx : Context) (t : Ty) : Prop :=
  t.isValue = true → sig.value t.id = ctx.category t

end Signature

/-! ## Categories of types -/

namespace Context

variable {ctx : Context} {t : Ty}

theorem category_of_numericKind? {kind : NumericKind} (h : t.numericKind? = some kind) :
    ctx.category t = kind.category := by
  obtain ⟨id, k⟩ := t
  cases k with
  | numeric k =>
      cases h
      rfl
  | _ => cases h

theorem category_of_isReference (h : t.isReference = true) : ctx.category t = .reference := by
  obtain ⟨id, k⟩ := t
  cases k <;> first | rfl | cases h

theorem category_of_isBool (h : t.isBool = true) : ctx.category t = .int32 := by
  obtain ⟨id, k⟩ := t
  cases k <;> first | rfl | cases h

theorem category_of_isString (h : t.isString = true) : ctx.category t = .reference := by
  obtain ⟨id, k⟩ := t
  cases k <;> first | rfl | cases h

theorem category_of_numericView? {kind : NumericKind} (h : ctx.numericView? t = some kind) :
    ctx.category t = kind.category := by
  simp only [numericView?] at h
  split at h
  · next isEnum =>
      obtain ⟨id, k⟩ := t
      cases k with
      | enum =>
          have made : (ctx.entry? id).bind (·.underlying) = some kind := h
          show ((ctx.entry? id).bind (·.underlying)).elim Category.reference NumericKind.category
            = kind.category
          rw [made]
          rfl
      | _ => cases isEnum
  · exact category_of_numericKind? h

end Context

/-! ## Numbers -/

namespace NumericKind

/-- Operands widen to the kind they meet in. -/
theorem widens_of_meet? {a b kind : NumericKind} (h : a.meet? b = some kind) :
    a.widens kind = true ∧ b.widens kind = true := by
  cases a <;> cases b <;> cases h <;> decide

theorem widens_promote (k : NumericKind) : k.widens k.promote = true := by
  cases k <;> rfl

theorem widens_float64 (k : NumericKind) : k.widens .float64 = true := by
  cases k <;> rfl

theorem onOne?_implicitOps {source target : NumericKind} (h : source.widens target = true) :
    (source.implicitOps target).foldlM (fun c op => op.onOne? c) source.category
      = some target.category := by
  cases source <;> cases target <;> first | rfl | cases h

theorem onOne?_explicitOps (source target : NumericKind) (checked : Bool) :
    (source.explicitOps target checked).foldlM (fun c op => op.onOne? c) source.category
      = some target.category := by
  cases source <;> cases target <;> cases checked <;> rfl

theorem isNumeric_category (k : NumericKind) : k.category.isNumeric = true := by
  cases k <;> rfl

theorem isIntegral_category {k : NumericKind} (h : k.isIntegral = true) :
    k.category.isIntegral = true := by
  cases k <;> first | rfl | cases h

theorem isIntegral_of_isUnsigned {k : NumericKind} (h : k.isUnsigned = true) :
    k.isIntegral = true := by
  cases k <;> first | rfl | cases h

/-- Unsigned operands meet in an integral kind. -/
theorem isIntegral_of_meet? {a b kind : NumericKind} (h : a.meet? b = some kind)
    (ha : a.isUnsigned = true) (hb : b.isUnsigned = true) : kind.isIntegral = true := by
  revert ha hb
  cases a <;> cases b <;> cases h <;> decide

end NumericKind

namespace Signature

variable {sig : Signature} {ctx : Context}

theorem unaries_eq (ops : List OpCode) (c : Category) :
    sig.machine.unaries ops c = given (ops.foldlM (fun c op => op.onOne? c) c) := by
  induction ops generalizing c with
  | nil => rfl
  | cons op ops ih =>
      rw [Machine.unaries, List.foldlM_cons, List.foldlM_cons]
      show given (op.onOne? c) >>= _ = _
      cases op.onOne? c with
      | none => rfl
      | some c' => exact ih c'

theorem convert_operand {source target : NumericKind} (h : source.widens target = true) :
    sig.machine.convert (.operand source target) source.category = .ok target.category := by
  simp only [Conversion.operand]
  split
  · next same =>
      subst same
      rfl
  · show sig.machine.unaries (source.implicitOps target) source.category = _
    rw [unaries_eq, NumericKind.onOne?_implicitOps h]
    rfl

theorem convert_operand_of {t : Ty} {source target : NumericKind}
    (h : t.numericKind? = some source) (widens : source.widens target = true) :
    sig.machine.convert (.operand source target) (ctx.category t) = .ok target.category := by
  rw [Context.category_of_numericKind? h]
  exact convert_operand widens

/-! ## Conversions -/

/-- A conversion to a reference starts from a reference, which it leaves alone, or
boxes a value. -/
theorem directReference?_kind {r : Registry} {source target : Ty} {k : Conversion}
    (h : r.directReference? source target = some k) :
    target.isReference = true ∧ ((source.isReference = true ∧ ∀ c, sig.machine.convert k c = .ok c)
      ∨ (source.isValue = true ∧ k = .boxing source)) := by
  simp only [Registry.directReference?] at h
  split at h
  · cases h
  · next reference =>
      rw [Bool.or_eq_true, not_or, Bool.not_eq_true', Bool.not_eq_false] at reference
      refine ⟨reference.1, ?_⟩
      split at h
      · next isNull =>
          cases h
          refine Or.inl ⟨?_, fun c => rfl⟩
          rw [Ty.isNull, beq_iff_eq] at isNull
          rw [Ty.isReference, isNull]
      · split at h
        · next value =>
            simp only [Registry.boxing?] at h
            split at h
            · cases h
              exact Or.inr ⟨value, rfl⟩
            · cases h
        · split at h
          · next held =>
              refine Or.inl ⟨held, ?_⟩
              simp only [Registry.directUpcast?] at h
              split at h
              · cases h
                exact fun c => rfl
              · split at h
                · cases h
                  exact fun c => rfl
                · split at h
                  · cases h
                    exact fun c => rfl
                  · cases h
          · cases h

theorem referenceConversion?_kind {r : Registry} {source target : Ty} {k : Conversion}
    (h : r.referenceConversion? source target = some k) :
    target.isReference = true ∧ ((source.isReference = true ∧ ∀ c, sig.machine.convert k c = .ok c)
      ∨ (source.isValue = true ∧ k = .boxing source)) := by
  have array {t : Ty} (h : t.isArray = true) : t.isReference = true := by
    rw [Ty.isArray, beq_iff_eq] at h
    rw [Ty.isReference, h]
  simp only [Registry.referenceConversion?] at h
  unfold Registry.referenceSearch Registry.elementBudget at h
  simp only at h
  split at h
  · next direct =>
      cases h
      exact directReference?_kind direct
  · split at h
    · next arrays =>
        rw [Bool.and_eq_true] at arrays
        -- whatever the elements do, the array itself is left alone
        split at h
        · cases h
        · next a b _ =>
            cases found : r.referenceSearch ((r.typeCount + 1) * (r.typeCount + 1)) a b with
            | none =>
                rw [found] at h
                cases h
            | some result =>
                rw [found] at h
                simp only [Option.map_some, Option.getD_some] at h
                split at h
                · cases h
                  exact ⟨array arrays.2, Or.inl ⟨array arrays.1, fun c => rfl⟩⟩
                · cases h
    · cases h

theorem mem_of_distinctMembers {m : Member} {members : List Member}
    (h : m ∈ Context.distinctMembers members) : m ∈ members := by
  have kept (found : List Member)
      (mem : m ∈ members.foldl
        (fun found m => if found.any (fun f => f.id == m.id) then found else found ++ [m]) found) :
      m ∈ found ∨ m ∈ members := by
    clear h
    induction members generalizing found with
    | nil => exact Or.inl mem
    | cons n members ih =>
        rw [List.foldl_cons] at mem
        rcases ih _ mem with old | later
        · split at old
          · exact Or.inl old
          · rcases List.mem_append.mp old with old | new
            · exact Or.inl old
            · exact Or.inr (List.mem_cons.mpr (Or.inl (List.mem_singleton.mp new)))
        · exact Or.inr (List.mem_cons_of_mem _ later)
  exact (kept [] h).resolve_left List.not_mem_nil

/-- A conversion member is called on a value of its source type and leaves one of
its target type. -/
theorem call_of_conversionsNamed (truth : sig.Describes ctx) {name : String} {source target : Ty}
    {m : Member} (h : m ∈ ctx.conversionsNamed name source target) :
    sig.machine.call m.id [ctx.category source] = .ok (ctx.category target) := by
  obtain ⟨mem, exactly⟩ := List.mem_filter.mp (mem_of_distinctMembers h)
  obtain ⟨owner, -, found⟩ := List.mem_flatMap.mp mem
  have known := Context.knows_of_membersOf found
  simp only [Context.convertsExactly] at exactly
  split at exactly
  · next implicit kind =>
      rw [Bool.and_eq_true, beq_iff_eq, beq_iff_eq] at exactly
      have callable : m.isCallable = true := by rw [Member.isCallable, kind]
      have form : ctx.Form m [source] := by
        simp only [Context.Form]
        split
        · exact exactly.1.symm
        · exact Or.inr ⟨0, by rw [exactly.1]; rfl⟩
      show given (sig.call m.id [ctx.category source]) = _
      have described := truth.called m [source] known callable form
      rw [List.map_singleton, exactly.2] at described
      rw [described]
      rfl
  · cases exactly

/-- A conversion between two types takes the category of one to that of the other. -/
theorem convert_of_conversion? (truth : sig.Describes ctx) {source target : Ty} {k : Conversion}
    (sized : sig.Sizes ctx source) (h : ctx.conversion? source target = some k) :
    sig.machine.convert k (ctx.category source) = .ok (ctx.category target) := by
  simp only [Context.conversion?] at h
  split at h
  · next same =>
      cases h
      rw [same]
      rfl
  · split at h
    · next s t hs ht =>
        obtain ⟨cost, widens, rfl⟩ := Option.map_eq_some_iff.mp h
        have widens : s.widens t = true := by
          simp only [NumericKind.widenCost?] at widens
          split at widens
          · next w => exact w
          · cases widens
        rw [Context.category_of_numericKind? hs, Context.category_of_numericKind? ht]
        show sig.machine.unaries (s.implicitOps t) s.category = _
        rw [unaries_eq, NumericKind.onOne?_implicitOps widens]
        rfl
    · split at h
      · next c found =>
          cases h
          obtain ⟨reference, kept | boxed⟩ := referenceConversion?_kind found
          · rw [kept.2, Context.category_of_isReference kept.1,
              Context.category_of_isReference reference]
          · obtain ⟨value, rfl⟩ := boxed
            rw [Context.category_of_isReference reference, ← sized value]
            show given (if sig.value source.id = sig.value source.id then _ else none) = _
            rw [if_pos rfl]
            rfl
      · obtain ⟨m, found, rfl⟩ := Option.map_eq_some_iff.mp h
        exact call_of_conversionsNamed truth (List.mem_of_mem_head? found)

/-! ## Casts -/

theorem cast_of_numericCast {source target : NumericKind} :
    sig.machine.cast (ctx.numericCast source target) source.category = .ok target.category := by
  simp only [Context.numericCast]
  split
  · next same =>
      rw [same]
      rfl
  · show sig.machine.unaries (source.explicitOps target ctx.options.checked) source.category = _
    rw [unaries_eq, NumericKind.onOne?_explicitOps]
    rfl

theorem cast_of_referenceCast? {source target : Ty} {plan : CastPlan}
    (sized : sig.Sizes ctx target) (h : ctx.referenceCast? source target = some plan) :
    sig.machine.cast plan (ctx.category source) = .ok (ctx.category target) := by
  simp only [Context.referenceCast?] at h
  split at h
  · next down =>
      rw [Bool.and_eq_true, Bool.and_eq_true] at down
      cases h
      rw [Context.category_of_isReference down.1.1, Context.category_of_isReference down.1.2]
      rfl
  · split at h
    · next unboxes =>
        rw [Bool.and_eq_true] at unboxes
        cases h
        have held : source.isReference = true := by
          obtain ⟨value, can⟩ := unboxes
          simp only [Context.canUnbox] at can
          rw [Bool.or_eq_true, Bool.and_eq_true, Ty.isObject, Ty.isInterface, beq_iff_eq,
            beq_iff_eq] at can
          rcases can with object | interface
          · rw [Ty.isReference, object]
          · rw [Ty.isReference, interface.1]
        rw [Context.category_of_isReference held, ← sized unboxes.1]
        rfl
    · cases h

theorem cast_of_castPlan (truth : sig.Describes ctx) {source target : Ty} {plan : CastPlan}
    {span : Span} (sized : sig.Sizes ctx source) (sized' : sig.Sizes ctx target)
    (h : ctx.castPlan source target span = .ok plan) :
    sig.machine.cast plan (ctx.category source) = .ok (ctx.category target) := by
  simp only [Context.castPlan] at h
  split at h
  · next same =>
      cases h
      rw [same]
      rfl
  · split at h
    · next c converts =>
        cases h
        exact convert_of_conversion? truth sized converts
    · split at h
      · next s t hs ht =>
          cases h
          rw [Context.category_of_numericView? hs, Context.category_of_numericView? ht]
          exact cast_of_numericCast
      · split at h
        · cases h
        · next m found =>
            cases h
            simp only [Context.explicitConversion?] at found
            split at found
            · cases found
            · next only =>
                cases found
                have mem : m ∈ ctx.conversionsNamed Member.explicitName source target
                    ++ ctx.conversionsNamed Member.implicitName source target := by
                  rw [only]
                  exact List.mem_cons_self
                rcases List.mem_append.mp mem with mem | mem
                · exact call_of_conversionsNamed truth mem
                · exact call_of_conversionsNamed truth mem
            · cases found
        · split at h
          · next plan' found =>
              cases h
              exact cast_of_referenceCast? sized' found
          · cases h

/-! ## Operators on numbers -/

theorem binary_opcode {op : ArithmeticOp} {checked unsigned : Bool} {kind : NumericKind}
    (hc : checked = true → kind.isIntegral = true)
    (hu : unsigned = true → kind.isIntegral = true) :
    sig.machine.binary (op.opcode checked unsigned) kind.category kind.category
      = .ok kind.category := by
  have numeric : (kind.category = kind.category && kind.category.isNumeric) = true := by
    rw [kind.isNumeric_category]
    simp
  have integral (h : kind.isIntegral = true) :
      (kind.category = kind.category && kind.category.isIntegral) = true := by
    rw [NumericKind.isIntegral_category h]
    simp
  have done {code : OpCode} (h : code.onTwo? kind.category kind.category = some kind.category) :
      sig.machine.binary code kind.category kind.category = .ok kind.category := by
    show given (code.onTwo? kind.category kind.category) = _
    rw [h]
    rfl
  apply done
  cases checked with
  | true => cases op <;> cases unsigned <;> first
      | exact if_pos (integral (hc rfl))
      | exact if_pos numeric
  | false => cases op <;> cases unsigned <;> first
      | exact if_pos numeric
      | exact if_pos (integral (hu rfl))

theorem constant_ofNat (kind : NumericKind) (n : Nat) :
    sig.machine.constant (.ofNat kind n) = .ok kind.category := by
  cases kind <;> rfl

theorem power_category {kind : NumericKind} {checked : Bool} (n : Nat)
    (hc : checked = true → kind.isIntegral = true) :
    sig.machine.power kind (ArithmeticOp.mul.opcode checked kind.isUnsigned) kind.category n
      = .ok kind.category := by
  have times : sig.machine.binary (ArithmeticOp.mul.opcode checked kind.isUnsigned)
      kind.category kind.category = .ok kind.category :=
    binary_opcode hc NumericKind.isIntegral_of_isUnsigned
  fun_induction Machine.power sig.machine kind (ArithmeticOp.mul.opcode checked kind.isUnsigned)
    kind.category n with
  | case1 => exact constant_ofNat kind 1
  | case2 => rfl
  | case3 n _ _ _ ih =>
      rw [ih]
      exact times
  | case4 n _ _ _ ih =>
      rw [ih]
      exact times

theorem narrow_category (kind : NumericKind) (checked : Bool) :
    sig.machine.narrow kind checked kind.category = .ok kind.category := by
  simp only [Machine.narrow]
  split
  · next small =>
      have slot : kind.category = NumericKind.int32.category := by
        cases kind <;> first | rfl | exact absurd small (by decide)
      rw [unaries_eq]
      conv_lhs => rw [slot]
      rw [NumericKind.onOne?_explicitOps]
      rfl
  · rfl

theorem negated_category {negate : Bool} {x : Except Unit Category} (h : x = .ok .int32) :
    sig.machine.negated negate x = .ok .int32 := by
  subst h
  cases negate <;> rfl

theorem eq_category (c : Category) : sig.machine.binary .eq c c = .ok .int32 := by
  show given (if c = c then some .int32 else none) = _
  rw [if_pos rfl]
  rfl

theorem compareNumbers_category {op : CompareOp} {unsigned floating : Bool} (kind : NumericKind) :
    sig.machine.compareNumbers op unsigned floating kind.category kind.category = .ok .int32 := by
  have ordered {code : OpCode} (h : code ∈ [OpCode.lt, .gt, .ltUnsigned, .gtUnsigned]) :
      sig.machine.binary code kind.category kind.category = .ok .int32 := by
    have numeric : (kind.category = kind.category && kind.category.isNumeric) = true := by
      rw [kind.isNumeric_category]
      simp
    simp only [List.mem_cons, List.not_mem_nil, or_false] at h
    rcases h with rfl | rfl | rfl | rfl <;> exact congrArg given (if_pos numeric)
  cases op with
  | eq => exact eq_category _
  | ne => exact negated_category (eq_category _)
  | lt => cases unsigned <;> exact ordered (by decide)
  | gt => cases unsigned <;> exact ordered (by decide)
  | le => cases unsigned <;> cases floating <;> exact negated_category (ordered (by decide))
  | ge => cases unsigned <;> cases floating <;> exact negated_category (ordered (by decide))

/-! ## Overloads -/

theorem call_of_form (truth : sig.Describes ctx) {m : Member} {params : List Ty}
    (known : ctx.Knows m) (callable : m.isCallable = true) (form : ctx.Form m params) :
    sig.machine.call m.id (params.map ctx.category) = .ok (ctx.category m.returns) := by
  show given (sig.call m.id (params.map ctx.category)) = _
  rw [truth.called m params known callable form]
  rfl

theorem known_of_overload {op : Operator} {args : List Ty} {c : Candidate}
    (h : ctx.Overload op args c) : ctx.Knows c.member ∧ c.member.kind = .operator := by
  obtain ⟨owner, chosen⟩ := h
  obtain ⟨mem, operator⟩ := List.mem_filter.mp chosen.member
  rw [Bool.and_eq_true, beq_iff_eq] at operator
  exact ⟨Context.knows_of_membersOf mem, operator.1⟩

/-- The conversions of arguments lead to the parameters, place by place. -/
theorem convert_of_convertAll? (truth : sig.Describes ctx) {args params : List Ty}
    {cs : List Conversion} (sized : ∀ t ∈ args, sig.Sizes ctx t)
    (h : ctx.convertAll? args params = some cs) :
    params.length = args.length ∧ ∀ (i : Nat) t p, args[i]? = some t → params[i]? = some p →
      sig.machine.convert ((cs[i]?).getD .identity) (ctx.category t) = .ok (ctx.category p) := by
  fun_induction Context.convertAll? ctx args params generalizing cs with
  | case1 => exact ⟨rfl, fun i t p ht _ => by cases ht⟩
  | case2 a args p params ih =>
      simp only [Option.bind_eq_bind, Option.bind_eq_some_iff] at h
      obtain ⟨k, first, rest, others, same⟩ := h
      cases same
      obtain ⟨length, later⟩ := ih (fun t ht => sized t (List.mem_cons_of_mem _ ht)) others
      refine ⟨by rw [List.length_cons, List.length_cons, length], ?_⟩
      intro i t q ht hq
      cases i with
      | zero =>
          cases ht
          cases hq
          exact convert_of_conversion? truth (sized _ List.mem_cons_self) first
      | succ i => exact later i t q ht hq
  | case3 => cases h

/-- The operands of an overload convert to its parameters, on which it is called. -/
theorem call_of_overload (truth : sig.Describes ctx) {op : Operator} {args : List Ty}
    {c : Candidate} (sized : ∀ t ∈ args, sig.Sizes ctx t) (h : ctx.Overload op args c) :
    ∃ params : List Ty, params.length = args.length
      ∧ (∀ (i : Nat) t p, args[i]? = some t → params[i]? = some p →
        sig.machine.convert ((CallTarget.ofCandidate c).conversion i) (ctx.category t)
          = .ok (ctx.category p))
      ∧ sig.machine.call c.member.id (params.map ctx.category)
        = .ok (ctx.category c.member.returns) := by
  obtain ⟨known, operator⟩ := known_of_overload h
  obtain ⟨owner, chosen⟩ := h
  obtain ⟨params, form, converted⟩ := chosen.form
  obtain ⟨length, converts⟩ := convert_of_convertAll? truth sized converted
  have callable : c.member.isCallable = true := by rw [Member.isCallable, operator]
  exact ⟨params, length, converts, call_of_form truth known callable form⟩

/-- An overload on two operands. -/
theorem call_of_overload_two (truth : sig.Describes ctx) {op : Operator} {l r : Ty}
    {c : Candidate} (sized : sig.Sizes ctx l) (sized' : sig.Sizes ctx r)
    (h : ctx.Overload op [l, r] c) :
    ∃ a b, sig.machine.convert ((CallTarget.ofCandidate c).conversion 0) (ctx.category l) = .ok a
      ∧ sig.machine.convert ((CallTarget.ofCandidate c).conversion 1) (ctx.category r) = .ok b
      ∧ sig.machine.call c.member.id [a, b] = .ok (ctx.category c.member.returns) := by
  have both : ∀ t ∈ [l, r], sig.Sizes ctx t :=
    List.forall_mem_cons.mpr ⟨sized, List.forall_mem_singleton.mpr sized'⟩
  obtain ⟨params, length, converts, called⟩ := call_of_overload truth both h
  obtain ⟨p, q, rfl⟩ := List.length_eq_two.mp length
  exact ⟨_, _, converts 0 l p rfl rfl, converts 1 r q rfl rfl, called⟩

theorem call_of_overload_one (truth : sig.Describes ctx) {op : Operator} {t : Ty} {c : Candidate}
    (sized : sig.Sizes ctx t) (h : ctx.Overload op [t] c) :
    ∃ a, sig.machine.convert ((CallTarget.ofCandidate c).conversion 0) (ctx.category t) = .ok a
      ∧ sig.machine.call c.member.id [a] = .ok (ctx.category c.member.returns) := by
  obtain ⟨params, length, converts, called⟩ :=
    call_of_overload truth (List.forall_mem_singleton.mpr sized) h
  obtain ⟨p, rfl⟩ := List.length_eq_one_iff.mp length
  exact ⟨_, converts 0 t p rfl rfl, called⟩

theorem bool_of_overload (orderly : ctx.Orderly) {op : CompareOp} {args : List Ty} {c : Candidate}
    (h : ctx.Overload (.binary (.compare op)) args c) :
    ctx.category c.member.returns = .int32 := by
  obtain ⟨owner, chosen⟩ := h
  exact Context.category_of_isBool (orderly.comparison op owner c.member chosen.member)

/-- A comparison converts its operands to what it compares, and leaves a truth
value. -/
theorem compare_category (truth : sig.Describes ctx) (orderly : ctx.Orderly) {op : CompareOp}
    {l r : Ty} {plan : ComparePlan} (sized : sig.Sizes ctx l) (sized' : sig.Sizes ctx r)
    (h : ctx.Compares op l r plan) :
    ∃ a b, sig.machine.convert plan.operandConversions.1 (ctx.category l) = .ok a
      ∧ sig.machine.convert plan.operandConversions.2 (ctx.category r) = .ok b
      ∧ sig.machine.compare op plan a b = .ok .int32 := by
  cases h with
  | operator overload =>
      obtain ⟨a, b, first, second, called⟩ := call_of_overload_two truth sized sized' overload
      rw [bool_of_overload orderly overload] at called
      exact ⟨a, b, first, second, negated_category called⟩
  | negated _ overload =>
      obtain ⟨a, b, first, second, called⟩ := call_of_overload_two truth sized sized' overload
      rw [bool_of_overload orderly overload] at called
      exact ⟨a, b, first, second, negated_category called⟩
  | numeric hl hr meet =>
      obtain ⟨left, right⟩ := NumericKind.widens_of_meet? meet
      rw [Context.category_of_numericKind? hl, Context.category_of_numericKind? hr]
      exact ⟨_, _, convert_operand left, convert_operand right, compareNumbers_category _⟩
  | @enum kind isEnum same underlying =>
      subst same
      have view : ctx.numericView? l = some kind := by
        rw [Context.numericView?, if_pos isEnum]
        exact underlying
      rw [Context.category_of_numericView? view]
      exact ⟨_, _, rfl, rfl, compareNumbers_category _⟩
  | string _ hl hr =>
      rw [Context.category_of_isString hl, Context.category_of_isString hr]
      refine ⟨_, _, rfl, rfl, negated_category ?_⟩
      exact congrArg given truth.equals
  | boolean _ hl hr =>
      rw [Context.category_of_isBool hl, Context.category_of_isBool hr]
      exact ⟨_, _, rfl, rfl, negated_category (eq_category _)⟩
  | reference _ hl hr =>
      rw [Context.category_of_isReference hl, Context.category_of_isReference hr]
      exact ⟨_, _, rfl, rfl, negated_category (eq_category _)⟩

end Signature

/-! ## Static overloads -/

namespace Context

variable {ctx : Context}

theorem Overload.static (orderly : ctx.Orderly) {op : Operator} {args : List Ty} {c : Candidate}
    (h : ctx.Overload op args c) : ∀ call ∈ [CallTarget.ofCandidate c], call.isStatic = true := by
  obtain ⟨known, operator⟩ := Signature.known_of_overload h
  exact List.forall_mem_singleton.mpr (orderly.static c.member known operator)

theorem Compares.static (orderly : ctx.Orderly) {op : CompareOp} {left right : Ty}
    {plan : ComparePlan} (h : ctx.Compares op left right plan) :
    ∀ call ∈ plan.operators, call.isStatic = true := by
  cases h with
  | operator overload => exact overload.static orderly
  | negated _ overload => exact overload.static orderly
  | _ => exact fun _ hc => absurd hc List.not_mem_nil

/-- Where operators are static, the overloads that a node calls are. -/
theorem Rule.static (orderly : ctx.Orderly) {e : Element} (rule : ctx.Rule e) :
    ∀ call ∈ e.operators, call.isStatic = true := by
  cases rule with
  | arithmeticOperator overload => exact overload.static orderly
  | shiftOperator overload => exact overload.static orderly
  | unaryOperator overload => exact overload.static orderly
  | logicalOperator overload => exact overload.static orderly
  | compare compares => exact compares.static orderly
  | inList _ compares =>
      intro call hc
      obtain ⟨item, hi, hc⟩ := List.mem_flatMap.mp hc
      exact (compares item hi).static orderly call hc
  | @unary span op e plan type found =>
      cases plan with
      | operator call => exact absurd found builtinUnary?_builtin
      | _ => exact fun _ hc => absurd hc List.not_mem_nil
  | @logical span op l r plan type found =>
      cases plan with
      | operator call => exact absurd found builtinLogical?_builtin
      | _ => exact fun _ hc => absurd hc List.not_mem_nil
  | _ => exact fun _ hc => absurd hc List.not_mem_nil

end Context

end ExprCompiler
