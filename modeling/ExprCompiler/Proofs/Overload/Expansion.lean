/-
# When a parameter array is spelled out

Spelling out a parameter array costs a penalty of 1000, which is meant to make it the last
resort.  It is: a form that spells one out is chosen only if every other form that accepts
the arguments has an average cost above the penalty (`Context.lt_of_expanded`).  Averages
that high are not excluded, though.  A conversion costs one for each base class on the way,
and classes can derive from each other as deeply as a host likes.

Main results: `Context.expanded_only_past_penalty`, with what it means for hierarchies of a
limited depth, and `Context.expanded_past_penalty`, a hierarchy of 1001 classes in which a
member that could be called as it is loses to one that has to be spelled out.
-/
import ExprCompiler.Proofs.Host.Ancestors
import ExprCompiler.Proofs.Overload.Exact

namespace ExprCompiler

/-! ## Costs of a limited depth -/

theorem Registry.Priced.le {r : Registry} {source target : Ty} {cost bound : Nat}
    (priced : r.Priced source target cost) (ladder : 10 ≤ bound)
    (depth : ∀ depth, r.inheritanceDistance? source.id target.id = some depth → depth ≤ bound) :
    cost ≤ bound := by
  cases priced with
  | same => exact Nat.zero_le _
  | @ladder a b =>
      have top := b.rank_le
      omega
  | chain distance => exact depth _ distance
  | flat listed =>
      simp only [List.mem_cons, List.not_mem_nil, or_false] at listed
      omega

/-- No way along the base classes is longer than there are types. -/
theorem Registry.inheritanceDistance?_le {r : Registry} {derived base : HostId} {depth : Nat}
    (h : r.inheritanceDistance? derived base = some depth) : depth ≤ r.typeCount := by
  have inside : depth < (r.baseChain derived).length := (List.idxOf?_eq_some_iff.mp h).1
  exact Nat.le_of_lt_succ (inside.trans_le (r.length_baseChainFrom_le _ _))

namespace Context

variable {σ : Type} [LinearOrder σ] {ctx : Context} {value : Candidate → σ} {name : String}
  {members : List Member} {m n : Member} {args : List Ty} {span : Span} {c d : Candidate}

theorem Accepts.cost_le {bound : Nat} (accepts : ctx.Accepts m args d) (ladder : 10 ≤ bound)
    (depth : ∀ s t depth, ctx.registry.inheritanceDistance? s t = some depth → depth ≤ bound) :
    ∀ x ∈ d.conversions, x.cost ≤ bound := by
  intro x hx
  obtain ⟨i, here⟩ := List.mem_iff_getElem?.mp hx
  have inside : i < args.length := accepts.length ▸ (List.getElem?_eq_some_iff.mp here).1
  obtain ⟨p, y, -, found, listed⟩ :=
    accepts.converts i args[i] (List.getElem?_eq_getElem inside)
  rw [here] at listed
  cases listed
  exact (priced_of_conversion? found).le ladder (depth _ _)

/-! ## What spelling out has to beat -/

/-- An array that is not one argument is spelled out. -/
theorem Accepts.expanded_of_length {element : Ty} (accepts : ctx.Accepts m args d)
    (variadic : m.variadic = some element) (count : args.length ≠ m.params.length + 1) :
    d.expanded = true := by
  have takes := (Member.takes_of_variadic variadic).mp accepts.takes
  by_contra form
  rw [if_neg form] at takes
  exact count takes

/-- What is chosen and spelled out is below every form that is not. -/
theorem lt_of_expanded (chosen : ctx.resolveBy value name members args span = .ok c)
    (expanded : c.expanded = true) (listed : m ∈ members) (accepts : ctx.Accepts m args d)
    (direct : d.expanded = false) : value c < value d := by
  have leads := resolveBy_eq_ok_iff.mp chosen
  obtain ⟨e, scored⟩ := (exists_scoredBy_iff value).mpr ⟨d, accepts⟩
  by_cases same : e = c
  · -- it is a form of the same member, which would rather be called directly
    subst same
    exact scored.direct d accepts expanded direct
  · have competes := mem_competing_iff.mpr ⟨m, listed, scored⟩
    exact (leads.lt competes same).trans_le (scored.least d accepts)

/-- A parameter array is spelled out only if every form that does not costs more than the
penalty on average, in exact scores as in rounded ones.  If no class is more than 1000 steps
below another, that does not happen, with rounded scores for as many arguments as can be
summed up without rounding.  As for every call, the searches for the conversions have to
have an end (`searches_end_iff`). -/
theorem expanded_only_past_penalty (ctx : Context) (name : String) (members : List Member)
    (args : List Ty) (span : Span) :
    (∀ c, ctx.resolveBy Candidate.exactScore name members args span = .ok c →
        c.expanded = true → ∀ m ∈ members, ∀ d, ctx.Accepts m args d → d.expanded = false →
          1000 < Candidate.exactAverage d.conversions)
      ∧ (∀ c, ctx.resolveOverload name members args span = .ok c →
        c.expanded = true → ∀ m ∈ members, ∀ d, ctx.Accepts m args d → d.expanded = false →
          Candidate.expansionPenalty < Candidate.averageCost d.conversions)
      ∧ ((∀ s t depth, ctx.registry.inheritanceDistance? s t = some depth → depth ≤ 1000) →
        (∃ m ∈ members, ∃ d, ctx.Accepts m args d ∧ d.expanded = false) →
        (∀ c, ctx.resolveBy Candidate.exactScore name members args span = .ok c →
            c.expanded = false)
          ∧ (args.length ≤ 16777 → ∀ c, ctx.resolveOverload name members args span = .ok c →
            c.expanded = false)) := by
  have exact : ∀ c, ctx.resolveBy Candidate.exactScore name members args span = .ok c →
      c.expanded = true → ∀ m ∈ members, ∀ d, ctx.Accepts m args d → d.expanded = false →
        1000 < Candidate.exactAverage d.conversions := by
    intro c chosen expanded m listed d accepts direct
    rw [← Candidate.exactScore_of_direct direct]
    exact (Candidate.penalty_le_exactScore expanded).trans_lt
      (lt_of_expanded chosen expanded listed accepts direct)
  have rounded : ∀ c, ctx.resolveOverload name members args span = .ok c →
      c.expanded = true → ∀ m ∈ members, ∀ d, ctx.Accepts m args d → d.expanded = false →
        Candidate.expansionPenalty < Candidate.averageCost d.conversions := by
    intro c chosen expanded m listed d accepts direct
    rw [← resolveBy_score] at chosen
    have less := lt_of_expanded chosen expanded listed accepts direct
    obtain ⟨o, -, scored⟩ := mem_competing_iff.mp (resolveBy_eq_ok_iff.mp chosen).mem
    rw [scored.score, expanded, accepts.score, direct] at less
    exact (Candidate.expansionPenalty_le_formScore _).trans_lt less
  refine ⟨exact, rounded, ?_⟩
  rintro depth ⟨m, listed, d, accepts, direct⟩
  have costs := accepts.cost_le (by decide) depth
  refine ⟨?_, ?_⟩
  · intro c chosen
    by_contra expanded
    have past := exact c chosen (Bool.not_eq_false _ ▸ expanded) m listed d accepts direct
    exact absurd (Candidate.exactAverage_le costs) (not_le.mpr past)
  · intro few c chosen
    by_contra expanded
    have past := rounded c chosen (Bool.not_eq_false _ ▸ expanded) m listed d accepts direct
    exact absurd (Candidate.averageCost_le_expansionPenalty costs (accepts.length ▸ few))
      (not_le.mpr past)

/-- Two ints become doubles, although an array of ints would take them as they are. -/
theorem expanded_only_past_penalty_ints :
    ∃ c, builtins.resolveOverload "max" [greatestInt, greaterDouble]
        [Ty.numeric .int32, Ty.numeric .int32] .unknown = .ok c
      ∧ c.member = greaterDouble ∧ c.expanded = false := by
  have double : ∃ c, builtins.candidateBy? Candidate.score greaterDouble
      [Ty.numeric .int32, Ty.numeric .int32] = some c
      ∧ c.member = greaterDouble ∧ c.score = Single.ofNat 5 ∧ c.expanded = false :=
    ⟨_, rfl, rfl, by decide +kernel, rfl⟩
  obtain ⟨c, found, member, score, direct⟩ := double
  have scored := candidateBy?_eq_some_iff.mp found
  have chosen : builtins.resolveOverload "max" [greatestInt, greaterDouble]
      [Ty.numeric .int32, Ty.numeric .int32] .unknown = .ok c := by
    rw [← resolveBy_score]
    refine resolveBy_eq_ok_iff.mpr
      (leads_competing_iff.mpr ⟨greaterDouble, [greatestInt], .swap _ _ _, scored, ?_⟩)
    intro o ho d hd
    cases List.mem_singleton.mp ho
    have expanded : d.expanded = true := hd.expanded_of_length rfl (by decide)
    rw [score, hd.score, expanded]
    exact lt_of_lt_of_le (by decide +kernel) (Candidate.expansionPenalty_le_formScore _)
  have shallow : ∀ s t depth, builtins.registry.inheritanceDistance? s t = some depth →
      depth ≤ 1000 := by
    intro s t depth distance
    exact (Registry.inheritanceDistance?_le distance).trans (by decide +kernel)
  have last := (expanded_only_past_penalty builtins "max" [greatestInt, greaterDouble]
    [Ty.numeric .int32, Ty.numeric .int32] .unknown).2.2 shallow
    ⟨greaterDouble, by decide, c, scored.toAccepts, direct⟩
  exact ⟨c, chosen, member, last.2 (by decide) c chosen⟩

end Context

/-! ## A chain of classes -/

namespace Registry

/-- The identity of the class with a number.  Before the first comes the root class. -/
def linkId : Nat → HostId
  | 0 => Ty.object.id
  | i + 1 => ⟨UInt64.ofNat (i + 1)⟩

/-- One class of a chain, which derives from the one before. -/
def link (i : Nat) : TypeEntry :=
  { TypeEntry.plain (String.ofList (List.replicate (i + 1) 'C')) ⟨linkId (i + 1), .refClass⟩ with
    base := some (linkId i) }

/-- The registrations of a chain. -/
def links (n : Nat) : List Registration := (List.range n).map (fun i => .type (link i))

theorem toNat_linkId {i : Nat} (hi : i < 2 ^ 32) : (linkId (i + 1)).value.toNat = i + 1 :=
  UInt64.toNat_ofNat_of_lt' (lt_trans (Nat.succ_lt_succ hi) (by decide))

theorem linkId_inj {i j : Nat} (hi : i < 2 ^ 32) (hj : j < 2 ^ 32)
    (same : linkId (i + 1) = linkId (j + 1)) : i = j := by
  have values := congrArg (fun id => id.value.toNat) same
  simp only [toNat_linkId hi, toNat_linkId hj] at values
  exact Nat.succ.inj values

theorem link_name_inj {i j : Nat} (same : (link i).name = (link j).name) : i = j := by
  have lengths := congrArg (fun name => name.toList.length) same
  simpa [link, TypeEntry.plain] using lengths

/-- No class of a chain is built in, by identity or by name. -/
theorem builtin_apart {id : HostId} {e : TypeEntry} (built : withPrimitives.entry? id = some e)
    {i : Nat} (hi : i < 2 ^ 32) : id ≠ linkId (i + 1) ∧ e.name ≠ (link i).name := by
  have rows : ∀ row ∈ withPrimitives.types.rows,
      2 ^ 33 < row.1.value.toNat ∧ row.2.name.toList.head? ≠ some 'C' := by decide +kernel
  obtain ⟨large, initial⟩ := rows (id, e) (Table.find?_eq_some_iff.mp built)
  refine ⟨?_, ?_⟩
  · rintro rfl
    rw [toNat_linkId hi] at large
    omega
  · intro same
    rw [same] at initial
    exact initial (by simp [link, TypeEntry.plain, List.replicate_succ])

/-- A registry holds what is built in and the first classes of a chain. -/
def Linked (r : Registry) (n : Nat) : Prop :=
  ∀ id e, r.entry? id = some e ↔
    withPrimitives.entry? id = some e ∨ ∃ i < n, id = linkId (i + 1) ∧ e = link i

namespace Linked

variable {r : Registry} {n : Nat}

theorem has_linkId (h : r.Linked n) {i : Nat} (hi : i ≤ n) : r.has (linkId i) = true := by
  cases i with
  | zero =>
      have root : withPrimitives.has (linkId 0) = true := by decide +kernel
      obtain ⟨e, built⟩ := has_iff.mp root
      exact has_iff.mpr ⟨e, (h _ _).mpr (Or.inl built)⟩
  | succ i => exact has_iff.mpr ⟨link i, (h _ _).mpr (Or.inr ⟨i, hi, rfl, rfl⟩)⟩

/-- The next class of a chain is accepted. -/
theorem after_link (h : r.Linked n) (ordered : r.Ordered) (few : n < 2 ^ 32) :
    (r.after (.type (link n))).Linked (n + 1) := by
  have absent : r.entry? (link n).id = none := by
    rw [Option.eq_none_iff_forall_ne_some]
    intro e held
    rcases (h _ _).mp held with built | ⟨i, hi, same, rfl⟩
    · exact (builtin_apart built few).1 rfl
    · exact absurd (linkId_inj few (by omega) same) (by omega)
  have unnamed : r.names.find? (link n).name = none := by
    rw [Option.eq_none_iff_forall_ne_some]
    intro id held
    obtain ⟨e, found, same⟩ := (ordered.index _ _).mp held
    rcases (h _ _).mp found with built | ⟨i, hi, -, rfl⟩
    · exact (builtin_apart built few).2 same
    · exact absurd (link_name_inj same) (by omega)
  have derives : ∀ p ∈ (link n).parents, r.has p = true := by
    intro p hp
    cases List.mem_singleton.mp hp
    exact h.has_linkId (Nat.le_refl n)
  rw [after_type unnamed absent derives]
  intro id e
  rw [entry?_insertEntry]
  split
  · next here =>
      subst here
      rw [Option.some.injEq]
      constructor
      · rintro rfl
        exact Or.inr ⟨n, Nat.lt_succ_self n, rfl, rfl⟩
      · rintro (built | ⟨i, hi, same, rfl⟩)
        · exact absurd rfl (builtin_apart built few).1
        · rw [linkId_inj few (by omega) same]
  · next other =>
      rw [h id e]
      constructor
      · rintro (built | ⟨i, hi, rfl, rfl⟩)
        · exact Or.inl built
        · exact Or.inr ⟨i, by omega, rfl, rfl⟩
      · rintro (built | ⟨i, hi, rfl, rfl⟩)
        · exact Or.inl built
        · have before : i ≠ n := by
            rintro rfl
            exact other rfl
          exact Or.inr ⟨i, by omega, rfl, rfl⟩

end Linked

theorem linked_reached (n : Nat) (few : n ≤ 2 ^ 32) : (reached (links n)).Linked n := by
  induction n with
  | zero =>
      intro id e
      simp [links, reached]
  | succ n ih =>
      have next : reached (links (n + 1)) = (reached (links n)).after (.type (link n)) := by
        rw [links, List.range_succ, List.map_append, reached, List.foldl_append]
        rfl
      rw [next]
      exact (ih (by omega)).after_link (sound_reached _).ordered (by omega)

/-- The root class is as many steps away as a class has before it. -/
theorem inheritanceDistance?_linkId {n : Nat} (few : n ≤ 2 ^ 32) {i : Nat} (hi : i ≤ n) :
    (reached (links n)).inheritanceDistance? (linkId i) Ty.object.id = some i := by
  have linked := linked_reached n few
  induction i with
  | zero => exact inheritanceDistance?_self _ _
  | succ i ih =>
      have based : (reached (links n)).base? (linkId (i + 1)) = some (linkId i) := by
        have found := (linked (linkId (i + 1)) (link i)).mpr (Or.inr ⟨i, hi, rfl, rfl⟩)
        rw [base?, found]
        rfl
      have other : linkId (i + 1) ≠ Ty.object.id := by
        have root : ∃ e, withPrimitives.entry? Ty.object.id = some e :=
          has_iff.mp (by decide +kernel)
        obtain ⟨e, built⟩ := root
        exact (builtin_apart built (by omega)).1.symm
      rw [(sound_reached _).ordered.grounded.inheritanceDistance?_base based other,
        ih (by omega)]
      rfl

end Registry

namespace Context

variable {σ : Type} [LinearOrder σ]

/-- A class converts to the root class at the length of the way. -/
theorem conversion?_root {ctx : Context} {id : HostId} {depth : Nat}
    (distance : ctx.registry.inheritanceDistance? id Ty.object.id = some depth) :
    ctx.conversion? ⟨id, .refClass⟩ Ty.object = some (.upcast Ty.object depth) := by
  have upcast : ctx.registry.directReference? ⟨id, .refClass⟩ Ty.object
      = some (.upcast Ty.object depth) := by
    show ctx.registry.directUpcast? ⟨id, .refClass⟩ Ty.object = _
    simp only [Registry.directUpcast?, distance, Conversion.stepCost, Nat.mul_one]
  have reference : ctx.registry.referenceConversion? ⟨id, .refClass⟩ Ty.object
      = some (.upcast Ty.object depth) := by
    rw [Registry.referenceConversion?, Registry.elementBudget, Registry.referenceSearch, upcast]
    rfl
  rw [conversion?, if_neg (by simp [Ty.object]), reference]
  rfl

/-- A chain of classes. -/
def chain (n : Nat) : Context := ⟨Registry.reached (Registry.links n), {}⟩

/-- The class at its end. -/
def deepest (n : Nat) : Ty := ⟨Registry.linkId n, .refClass⟩

/-- A function of two objects. -/
def ofObjects : Member := Member.free "" "meet" [Ty.object, Ty.object] Ty.object

/-- A function of any number of values of the class at the end. -/
def ofDeepest (n : Nat) : Member :=
  { Member.free "" "meet" [] Ty.object with variadic := some (deepest n) }

/-- The call that spells nothing out. -/
def asObjects (n : Nat) : Candidate where
  member := ofObjects
  conversions := [.upcast Ty.object n, .upcast Ty.object n]
  score := Candidate.formScore [.upcast Ty.object n, .upcast Ty.object n] false
  expanded := false

/-- The call that spells the array out. -/
def asElements (n : Nat) : Candidate where
  member := ofDeepest n
  conversions := [.identity, .identity]
  score := Candidate.formScore [.identity, .identity] true
  expanded := true

theorem accepts_asObjects {n : Nat} (few : n ≤ 2 ^ 32) :
    (chain n).Accepts ofObjects [deepest n, deepest n] (asObjects n) where
  member := rfl
  takes := (Member.takes_of_plain rfl).mpr ⟨rfl, rfl⟩
  length := rfl
  converts i a here := by
    have distance := Registry.inheritanceDistance?_linkId few (Nat.le_refl n)
    have converts : (chain n).conversion? (deepest n) Ty.object = some (.upcast Ty.object n) :=
      conversion?_root distance
    match i with
    | 0 =>
        cases here
        exact ⟨Ty.object, _, rfl, converts, rfl⟩
    | 1 =>
        cases here
        exact ⟨Ty.object, _, rfl, converts, rfl⟩
    | i + 2 => cases here
  score := rfl

theorem accepts_asElements (n : Nat) :
    (chain n).Accepts (ofDeepest n) [deepest n, deepest n] (asElements n) where
  member := rfl
  takes := (Member.takes_of_variadic rfl).mpr (Nat.zero_le _)
  length := rfl
  converts i a here := by
    match i with
    | 0 =>
        cases here
        exact ⟨deepest n, .identity, rfl, if_pos rfl, rfl⟩
    | 1 =>
        cases here
        exact ⟨deepest n, .identity, rfl, if_pos rfl, rfl⟩
    | i + 2 => cases here
  score := rfl

/-- Whatever puts the elements below the objects chooses them. -/
theorem leads_asElements {n : Nat} (few : n ≤ 2 ^ 32) {value : Candidate → σ}
    (less : value (asElements n) < value (asObjects n)) :
    Leads value ((chain n).competing value [ofObjects, ofDeepest n] [deepest n, deepest n])
      (asElements n) := by
  have elements : (chain n).ScoredBy value (ofDeepest n) [deepest n, deepest n] (asElements n) := by
    refine (accepts_asElements n).scoredBy fun d hd => ?_
    exact hd.expanded_of_length rfl (show 2 ≠ 1 by decide)
  refine leads_competing_iff.mpr ⟨ofDeepest n, [ofObjects], .swap _ _ _, elements, ?_⟩
  intro o ho d hd
  cases List.mem_singleton.mp ho
  have form := ((Member.takes_of_plain (m := ofObjects) rfl).mp hd.takes).1
  rw [hd.toAccepts.unique (accepts_asObjects few) form]
  exact less

/-- At the end of a chain of 1001 classes, a member that could be called as it is loses to one
that has to be spelled out, by exact scores and by rounded ones. -/
theorem expanded_past_penalty :
    ∃ c d, d.expanded = false ∧ c.expanded = true
      ∧ (chain 1001).Accepts ofObjects [deepest 1001, deepest 1001] d
      ∧ (chain 1001).resolveBy Candidate.exactScore "meet" [ofObjects, ofDeepest 1001]
        [deepest 1001, deepest 1001] .unknown = .ok c
      ∧ (chain 1001).resolveOverload "meet" [ofObjects, ofDeepest 1001]
        [deepest 1001, deepest 1001] .unknown = .ok c := by
  have few : 1001 ≤ 2 ^ 32 := by norm_num
  have exact : (asElements 1001).exactScore < (asObjects 1001).exactScore := by
    norm_num [Candidate.exactScore, Candidate.exactAverage, asElements, asObjects,
      Conversion.identity, Conversion.upcast]
  have rounded : (asElements 1001).score < (asObjects 1001).score := by decide +kernel
  refine ⟨asElements 1001, asObjects 1001, rfl, rfl, accepts_asObjects few,
    resolveBy_eq_ok_iff.mpr (leads_asElements few exact), ?_⟩
  rw [← resolveBy_score]
  exact resolveBy_eq_ok_iff.mpr (leads_asElements few rounded)

end Context

end ExprCompiler
