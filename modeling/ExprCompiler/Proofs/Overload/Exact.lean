/-
# An exact overload wins

Between two types that are known apart, every conversion costs something: a step on the
numeric ladder, a step along the base classes, or one of the flat costs.  So a member whose
parameters are exactly the types of the arguments scores zero, nothing else does, and it is
chosen whatever else accepts the arguments.

Main result: `Context.resolve_exact`.  It is stated for exact scores and for rounded ones.

"Known apart" has to be asked for.  A type is an identity with a kind, and nothing stops a
host from using one identity with two kinds, or the kind of an integer with an identity of
its own.  The first converts along a chain of no steps and the second along a ladder of no
steps, for nothing in both cases.  `Coherent` excludes both for the types in use.

The other members are scored as well.  If that takes a search which goes round in circles
(`Context.searches_end_iff`), the call has no outcome, and what is said of it here is said
of a search that gives up.
-/
import ExprCompiler.Proofs.Overload.Scores

namespace ExprCompiler

/-! ## What a conversion costs -/

/-- Widening goes up the ladder. -/
theorem NumericKind.rank_lt_of_widens {a b : NumericKind} (widens : a.widens b = true)
    (other : a ≠ b) : a.rank < b.rank := by
  revert widens other
  cases a <;> cases b <;> decide

theorem NumericKind.rank_le (k : NumericKind) : k.rank ≤ 10 := by
  cases k <;> decide

namespace Registry

variable {r : Registry} {source target : Ty} {cost : Nat} {c : Conversion}

/-- Only from a type to itself there is no step. -/
theorem eq_of_inheritanceDistance?_zero {derived base : HostId}
    (h : r.inheritanceDistance? derived base = some 0) : derived = base := by
  rw [inheritanceDistance?, baseChain, baseChainFrom, List.idxOf?_cons] at h
  split at h
  · next same => exact eq_of_beq same
  · obtain ⟨depth, -, next⟩ := Option.map_eq_some_iff.mp h
    cases next

/-- The costs that a conversion can have, by the way it goes. -/
inductive Priced (r : Registry) (source target : Ty) : Nat → Prop
  | same (same : source = target) : Priced r source target 0
  | ladder {a b : NumericKind} (sourceKind : source.numericKind? = some a)
      (targetKind : target.numericKind? = some b) (widens : a.widens b = true) :
      Priced r source target (b.rank - a.rank)
  | chain {depth : Nat} (distance : r.inheritanceDistance? source.id target.id = some depth) :
      Priced r source target depth
  | flat {cost : Nat} (listed : cost ∈ [1, 5, 8]) : Priced r source target cost

theorem priced_of_directReference? (h : r.directReference? source target = some c) :
    r.Priced source target c.cost := by
  simp only [directReference?] at h
  split at h
  · cases h
  split at h
  · cases h
    exact .flat (by decide)
  split at h
  · simp only [boxing?] at h
    split at h
    · cases h
      exact .flat (show Conversion.boxingCost ∈ [1, 5, 8] by decide)
    · cases h
  split at h
  · simp only [directUpcast?] at h
    split at h
    · next depth distance =>
        cases h
        rw [Conversion.upcast, Conversion.stepCost, Nat.mul_one]
        exact .chain distance
    · split at h
      · cases h
        exact .flat (show Conversion.stepCost ∈ [1, 5, 8] by decide)
      · split at h
        · cases h
          exact .flat (show Conversion.interfaceCost ∈ [1, 5, 8] by decide)
        · cases h
  · cases h

theorem priced_of_referenceConversion? (h : r.referenceConversion? source target = some c) :
    r.Priced source target c.cost := by
  rw [referenceConversion?, elementBudget, referenceSearch] at h
  split at h
  · next found direct =>
      cases h
      exact priced_of_directReference? direct
  · split at h
    · split at h
      · cases h
      · -- an array that upcasts by its elements costs one step
        next a b _ =>
          cases found : r.referenceSearch ((r.typeCount + 1) * (r.typeCount + 1)) a b with
          | none =>
              rw [found] at h
              cases h
          | some inner =>
              rw [found, Option.map_some, Option.getD_some] at h
              split at h
              · cases h
                exact .flat (show Conversion.stepCost ∈ [1, 5, 8] by decide)
              · cases h
    · cases h

end Registry

theorem Context.priced_of_conversion? {ctx : Context} {source target : Ty} {c : Conversion}
    (h : ctx.conversion? source target = some c) : ctx.registry.Priced source target c.cost := by
  simp only [conversion?] at h
  split at h
  · next same =>
      cases h
      exact .same same
  split at h
  · next a b sourceKind targetKind =>
      obtain ⟨cost, widened, rfl⟩ := Option.map_eq_some_iff.mp h
      rw [NumericKind.widenCost?] at widened
      split at widened
      · next widens =>
          cases widened
          exact .ladder sourceKind targetKind widens
      · cases widened
  split at h
  · next found reference =>
      cases h
      exact Registry.priced_of_referenceConversion? reference
  · obtain ⟨method, -, rfl⟩ := Option.map_eq_some_iff.mp h
    exact .flat (show Conversion.userCost ∈ [1, 5, 8] by decide)

/-! ## Types known apart -/

/-- No identity has two kinds, and the kinds of numbers belong to the built-in types. -/
structure Coherent (types : Ty → Prop) : Prop where
  oneKind : ∀ s t, types s → types t → s.id = t.id → s.kind = t.kind
  builtin : ∀ t k, types t → t.numericKind? = some k → t.id = k.id

namespace Coherent

variable {types : Ty → Prop} {s t : Ty}

theorem eq_of_id (h : Coherent types) (hs : types s) (ht : types t) (same : s.id = t.id) :
    s = t := by
  have kind := h.oneKind s t hs ht same
  cases s
  cases t
  cases same
  cases kind
  rfl

theorem eq_of_free {r : Registry} (h : Coherent types) (hs : types s) (ht : types t)
    {cost : Nat} (priced : r.Priced s t cost) (free : cost = 0) : s = t := by
  cases priced with
  | same same => exact same
  | @ladder a b sourceKind targetKind widens =>
      have kinds : a = b := by
        by_contra other
        have above := NumericKind.rank_lt_of_widens widens other
        omega
      subst kinds
      have sourceId : s.id = a.id := h.builtin s a hs sourceKind
      have targetId : t.id = a.id := h.builtin t a ht targetKind
      exact h.eq_of_id hs ht (sourceId.trans targetId.symm)
  | chain distance =>
      rw [free] at distance
      exact h.eq_of_id hs ht (Registry.eq_of_inheritanceDistance?_zero distance)
  | flat listed =>
      rw [free] at listed
      exact absurd listed (by decide)

/-- Between types that are known apart, only the conversion of a type to itself is free. -/
theorem eq_of_conversion? {ctx : Context} (h : Coherent types) (hs : types s) (ht : types t)
    {c : Conversion} (found : ctx.conversion? s t = some c) (free : c.cost = 0) : s = t :=
  h.eq_of_free hs ht (Context.priced_of_conversion? found) free

end Coherent

namespace Context

variable {ctx : Context} {m : Member} {args : List Ty} {c : Candidate}

/-! ## Exact forms -/

/-- The parameter types of a member in the form that spells nothing out. -/
def directTypes (ctx : Context) (m : Member) : List Ty :=
  m.params ++ (m.variadic.map ctx.arrayType).toList

/-- A member called with exactly its parameter types. -/
def exactForm (m : Member) (args : List Ty) : Candidate where
  member := m
  conversions := args.map (fun _ => .identity)
  score := .zero
  expanded := false

theorem takes_direct_iff (ctx : Context) (m : Member) (count : Nat) :
    m.Takes false count ↔ count = (ctx.directTypes m).length := by
  rw [directTypes, List.length_append]
  cases variadic : m.variadic with
  | none =>
      rw [Member.takes_of_plain variadic]
      simp
  | some element =>
      rw [Member.takes_of_variadic variadic]
      simp

theorem parameter?_direct {i : Nat} (here : i < (ctx.directTypes m).length) :
    ctx.parameter? m false i = (ctx.directTypes m)[i]? := by
  rw [directTypes] at here ⊢
  by_cases fixed : i < m.params.length
  · rw [parameter?_fixed fixed, List.getElem?_append_left fixed]
  · have past := Nat.not_lt.mp fixed
    rw [List.getElem?_append_right past]
    cases variadic : m.variadic with
    | none =>
        rw [variadic, List.length_append] at here
        exact absurd here fixed
    | some element =>
        rw [variadic, List.length_append, Option.map_some, Option.toList_some,
          List.length_singleton] at here
        have last : i - m.params.length = 0 := by omega
        rw [parameter?_trailing variadic past, Option.map_some, Option.toList_some, last]
        rfl

theorem faultless_exactForm (m : Member) (args : List Ty) : (exactForm m args).Faultless where
  direct := rfl
  free x hx := by
    obtain ⟨a, -, rfl⟩ := List.mem_map.mp hx
    rfl

theorem accepts_exactForm (exact : ctx.directTypes m = args) :
    ctx.Accepts m args (exactForm m args) where
  member := rfl
  takes := (ctx.takes_direct_iff m _).mpr (congrArg List.length exact.symm)
  length := List.length_map _
  converts i a here := by
    have inside : i < (ctx.directTypes m).length := by
      rw [exact]
      exact (List.getElem?_eq_some_iff.mp here).1
    refine ⟨a, .identity, ?_, if_pos rfl, ?_⟩
    · rw [← here, ← exact]
      exact parameter?_direct inside
    · show (args.map (fun _ => Conversion.identity))[i]? = some .identity
      rw [List.getElem?_map, here, Option.map_some]
  score := (faultless_exactForm m args).formScore_eq.symm

/-- A form without a fault is exact. -/
theorem directTypes_of_faultless {types : Ty → Prop} (coherent : Coherent types)
    (arguments : ∀ a ∈ args, types a) (parameters : ∀ p ∈ ctx.directTypes m, types p)
    (accepts : ctx.Accepts m args c) (faultless : c.Faultless) : ctx.directTypes m = args := by
  have takes := accepts.takes
  rw [faultless.direct, ctx.takes_direct_iff] at takes
  refine List.ext_getElem? fun i => ?_
  cases here : args[i]? with
  | none => rw [List.getElem?_eq_none (takes ▸ List.getElem?_eq_none_iff.mp here)]
  | some a =>
      have inside : i < (ctx.directTypes m).length := takes ▸ (List.getElem?_eq_some_iff.mp here).1
      obtain ⟨p, conversion, parameter, converts, listed⟩ := accepts.converts i a here
      rw [faultless.direct, parameter?_direct inside] at parameter
      have free := faultless.free conversion (List.mem_of_getElem? listed)
      have same : a = p := coherent.eq_of_conversion? (arguments a (List.mem_of_getElem? here))
        (parameters p (List.mem_of_getElem? parameter)) converts free
      rw [parameter, same]

/-- Whatever candidates are compared by, an exact one leads if forms with a fault are valued
higher than those without. -/
theorem leads_exactForm {σ : Type} [LinearOrder σ] {value : Candidate → σ} {types : Ty → Prop}
    {before after : List Member} (coherent : Coherent types) (arguments : ∀ a ∈ args, types a)
    (parameters : ∀ o ∈ before ++ after, ∀ p ∈ ctx.directTypes o, types p)
    (exact : ctx.directTypes m = args) (alone : ∀ o ∈ before ++ after, ctx.directTypes o ≠ args)
    (higher : ∀ o d, ctx.Accepts o args d → ¬ d.Faultless →
      value (exactForm m args) < value d) :
    Leads value (ctx.competing value (before ++ m :: after) args) (exactForm m args) := by
  have accepts := accepts_exactForm exact
  have scored : ctx.ScoredBy value m args (exactForm m args) := by
    refine ⟨accepts, ?_, fun _ _ expanded => absurd expanded Bool.false_ne_true⟩
    intro d hd
    cases form : d.expanded with
    | false => rw [hd.unique accepts form]
    | true =>
        refine (higher m d hd fun faultless => ?_).le
        rw [faultless.direct] at form
        cases form
  refine leads_competing_iff.mpr ⟨m, before ++ after, List.perm_middle, scored, ?_⟩
  intro o ho d hd
  refine higher o d hd.toAccepts fun faultless => ?_
  exact alone o ho (directTypes_of_faultless coherent arguments (parameters o ho)
    hd.toAccepts faultless)

/-- Among types that are known apart only the conversion of a type to itself is free.  So if
the types of the arguments are exactly those that one member takes without spelling out a
parameter array, that member is chosen with a score of zero and nothing is converted,
whatever the others are, as long as the searches for the conversions they need have an end
(`searches_end_iff`).  With rounded scores this holds for every number of arguments that a
machine can count. -/
theorem resolve_exact {types : Ty → Prop} (coherent : Coherent types) (ctx : Context) :
    (∀ s t c, types s → types t → ctx.conversion? s t = some c → c.cost = 0 → s = t)
      ∧ ∀ (name : String) (before : List Member) (m : Member) (after : List Member)
        (args : List Ty) (span : Span), (∀ a ∈ args, types a) →
        (∀ o ∈ before ++ after, ∀ p ∈ ctx.directTypes o, types p) →
        ctx.directTypes m = args → (∀ o ∈ before ++ after, ctx.directTypes o ≠ args) →
        ∃ c, c.member = m ∧ c.conversions = args.map (fun _ => .identity) ∧ c.expanded = false
          ∧ c.exactScore = 0 ∧ c.score = .zero
          ∧ ctx.resolveBy Candidate.exactScore name (before ++ m :: after) args span = .ok c
          ∧ (args.length ≤ 2 ^ 64 →
            ctx.resolveOverload name (before ++ m :: after) args span = .ok c) := by
  refine ⟨fun s t c hs ht => coherent.eq_of_conversion? hs ht, ?_⟩
  intro name before m after args span arguments parameters exact alone
  have faultless := faultless_exactForm m args
  refine ⟨exactForm m args, rfl, rfl, rfl, faultless.exactScore_eq, rfl, ?_, ?_⟩
  · refine resolveBy_eq_ok_iff.mpr
      (leads_exactForm coherent arguments parameters exact alone ?_)
    intro o d _ fault
    exact faultless.exactScore_lt fault
  · intro few
    rw [← resolveBy_score]
    refine resolveBy_eq_ok_iff.mpr
      (leads_exactForm coherent arguments parameters exact alone ?_)
    intro o d accepts fault
    rw [(accepts_exactForm exact).score, accepts.score]
    exact faultless.formScore_lt fault (accepts.length.trans_le few)

/-- A function of two doubles. -/
def greaterDouble : Member :=
  Member.free "" "max" [Ty.numeric .float64, Ty.numeric .float64] (Ty.numeric .float64)

/-- A function of two ints. -/
def greaterInt : Member :=
  Member.free "" "max" [Ty.numeric .int32, Ty.numeric .int32] (Ty.numeric .int32)

/-- A function of any number of ints. -/
def greatestInt : Member :=
  { Member.free "" "max" [] (Ty.numeric .int32) with variadic := some (Ty.numeric .int32) }

/-- The built-in types and the array of ints. -/
def intsInUse (t : Ty) : Prop :=
  t ∈ builtins.arrayType (Ty.numeric .int32) :: Ty.builtins.map (·.2)

theorem coherent_intsInUse : Coherent intsInUse where
  oneKind := by
    have apart : ∀ s ∈ builtins.arrayType (Ty.numeric .int32) :: Ty.builtins.map (·.2),
        ∀ t ∈ builtins.arrayType (Ty.numeric .int32) :: Ty.builtins.map (·.2),
          s.id = t.id → s.kind = t.kind := by decide +kernel
    exact fun s t hs ht => apart s hs t ht
  builtin := by
    have numbers : ∀ t ∈ builtins.arrayType (Ty.numeric .int32) :: Ty.builtins.map (·.2),
        ∀ k ∈ t.numericKind?, t.id = k.id := by decide +kernel
    exact fun t k ht found => numbers t ht k found

/-- Two ints are taken as they are, although doubles and an array of ints would do. -/
theorem resolve_exact_ints :
    Coherent intsInUse ∧ ∃ c, c.member = greaterInt ∧ c.score = .zero
      ∧ builtins.resolveOverload "max" [greaterDouble, greaterInt, greatestInt]
        [Ty.numeric .int32, Ty.numeric .int32] .unknown = .ok c := by
  have others : ∀ o ∈ [greaterDouble] ++ [greatestInt], ∀ p ∈ builtins.directTypes o,
      p ∈ builtins.arrayType (Ty.numeric .int32) :: Ty.builtins.map (·.2) := by decide +kernel
  have arguments : ∀ a ∈ [Ty.numeric .int32, Ty.numeric .int32],
      a ∈ builtins.arrayType (Ty.numeric .int32) :: Ty.builtins.map (·.2) := by decide +kernel
  obtain ⟨c, member, -, -, -, score, -, chosen⟩ := (resolve_exact coherent_intsInUse builtins).2
    "max" [greaterDouble] greaterInt [greatestInt] [Ty.numeric .int32, Ty.numeric .int32]
    .unknown arguments others rfl (by decide +kernel)
  exact ⟨coherent_intsInUse, c, member, score, chosen (by decide)⟩

end Context

end ExprCompiler
