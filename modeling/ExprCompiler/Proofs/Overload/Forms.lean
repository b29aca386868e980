/-
# When a member accepts arguments

A member with a parameter array can be called in two forms, and scoring tries both.
`Accepts` says what a form has to provide without saying how it is found: the count of
the arguments fits, and the argument at each place converts to the parameter there.
`ScoredBy` then says which of its forms a member competes with: the one of least value,
and of two equal ones the one that passes the array as it is.

Main statement: `candidateBy?_eq_some_iff`.  It holds whatever the forms are compared by;
compared by their rounded scores, they are what `candidate?` finds (`candidateBy?_score`).

An argument converts if `Context.conversion?` has an answer, and that one counts its steps.
A host can declare arrays between which the search for a conversion goes round in circles.
It has no end then, and neither has a call that leads to it, although here it counts as a
search that finds nothing.  `Context.searches_end_iff` says for which two types that is.
-/
import Mathlib.Order.Lattice
import ExprCompiler.Proofs.Tree.Candidates

namespace ExprCompiler

/-- Scores are ordered as their patterns. -/
instance : LinearOrder Single where
  le_refl x := Nat.le_refl x.bits
  le_trans _ _ _ := Nat.le_trans
  le_antisymm x y hxy hyx := by
    obtain ⟨a⟩ := x
    obtain ⟨b⟩ := y
    exact congrArg Single.mk (Nat.le_antisymm hxy hyx)
  le_total x y := Nat.le_total x.bits y.bits
  lt_iff_le_not_ge x y := Nat.lt_iff_le_and_not_ge
  toDecidableLE := inferInstance
  toDecidableLT := inferInstance
  toDecidableEq := inferInstance

/-- Whether a member in a form takes so many arguments: one for each fixed parameter, and
one for the array or any number for its elements. -/
def Member.Takes (m : Member) (expanded : Bool) (count : Nat) : Prop :=
  match m.variadic with
  | none => expanded = false ∧ count = m.params.length
  | some _ => if expanded then m.params.length ≤ count else count = m.params.length + 1

namespace Member

variable {m : Member} {expanded : Bool} {count : Nat}

theorem takes_of_plain (plain : m.variadic = none) :
    m.Takes expanded count ↔ expanded = false ∧ count = m.params.length := by
  unfold Takes
  rw [plain]

theorem takes_of_variadic {element : Ty} (variadic : m.variadic = some element) :
    m.Takes expanded count
      ↔ if expanded then m.params.length ≤ count else count = m.params.length + 1 := by
  unfold Takes
  rw [variadic]

end Member

namespace Context

variable {ctx : Context} {m : Member} {args : List Ty} {c d : Candidate}

/-- The type of the parameter at a place: a fixed one, or else the array or its element. -/
def parameter? (ctx : Context) (m : Member) (expanded : Bool) (i : Nat) : Option Ty :=
  m.params[i]?.or
    (m.variadic.map (fun element => if expanded then element else ctx.arrayType element))

/-- A candidate is a member in a form that fits the arguments, with the conversion of
each argument to the parameter at its place. -/
structure Accepts (ctx : Context) (m : Member) (args : List Ty) (c : Candidate) : Prop where
  member : c.member = m
  takes : m.Takes c.expanded args.length
  length : c.conversions.length = args.length
  converts : ∀ (i : Nat) a, args[i]? = some a → ∃ p conversion,
    ctx.parameter? m c.expanded i = some p ∧ ctx.conversion? a p = some conversion
      ∧ c.conversions[i]? = some conversion
  score : c.score = Candidate.formScore c.conversions c.expanded

/-- The form that a member competes with. -/
structure ScoredBy {σ : Type} [LinearOrder σ] (ctx : Context) (value : Candidate → σ)
    (m : Member) (args : List Ty) (c : Candidate) : Prop extends ctx.Accepts m args c where
  least : ∀ d, ctx.Accepts m args d → value c ≤ value d
  /-- The array is spelled out only for less. -/
  direct : ∀ d, ctx.Accepts m args d → c.expanded = true → d.expanded = false → value c < value d

/-! ## One form -/

/-- Converting place by place. -/
theorem convertAll?_eq_some_iff {params : List Ty} {cs : List Conversion} :
    ctx.convertAll? args params = some cs ↔
      params.length = args.length ∧ cs.length = args.length
        ∧ ∀ (i : Nat) a, args[i]? = some a → ∃ p conversion,
          params[i]? = some p ∧ ctx.conversion? a p = some conversion
            ∧ cs[i]? = some conversion := by
  fun_induction convertAll? ctx args params generalizing cs with
  | case1 => simp [eq_comm]
  | case2 a args p params ih =>
      simp only [Option.bind_eq_bind, Option.bind_eq_some_iff, Option.some.injEq, ih,
        List.length_cons, Nat.add_right_cancel_iff]
      constructor
      · rintro ⟨c, first, rest, ⟨counts, same, places⟩, rfl⟩
        refine ⟨counts, congrArg (· + 1) same, ?_⟩
        intro i b here
        cases i with
        | zero =>
            cases here
            exact ⟨p, c, rfl, first, rfl⟩
        | succ i => exact places i b here
      · rintro ⟨counts, same, places⟩
        cases cs with
        | nil => cases same
        | cons c rest =>
            obtain ⟨_, _, hp, first, hc⟩ := places 0 a rfl
            cases hp
            cases hc
            exact ⟨c, first, rest, ⟨counts, Nat.succ.inj same, fun i => places (i + 1)⟩, rfl⟩
  | case3 args params mixed empty =>
      constructor
      · intro none
        cases none
      · rintro ⟨counts, -, -⟩
        cases args with
        | nil => exact absurd (List.length_eq_zero_iff.mp counts) (mixed rfl)
        | cons a args =>
            cases params with
            | nil => cases counts
            | cons p params => exact absurd rfl (empty a args p params rfl)

theorem parameter?_fixed {expanded : Bool} {i : Nat} (fixed : i < m.params.length) :
    ctx.parameter? m expanded i = m.params[i]? := by
  rw [parameter?, List.getElem?_eq_getElem fixed, Option.some_or]

theorem parameter?_trailing {element : Ty} {expanded : Bool} {i : Nat}
    (variadic : m.variadic = some element) (past : m.params.length ≤ i) :
    ctx.parameter? m expanded i
      = some (if expanded then element else ctx.arrayType element) := by
  rw [parameter?, List.getElem?_eq_none past, Option.none_or, variadic, Option.map_some]

/-- A list of parameter types stands for a form if it has the parameters of that form in
their places whenever it has the right length. -/
theorem scoreForm?_eq_some_iff {params : List Ty} {expanded : Bool}
    (takes : params.length = args.length ↔ m.Takes expanded args.length)
    (places : params.length = args.length →
      ∀ i < args.length, params[i]? = ctx.parameter? m expanded i) :
    ctx.scoreForm? m args params expanded = some c
      ↔ ctx.Accepts m args c ∧ c.expanded = expanded := by
  rw [scoreForm?, Option.map_eq_some_iff]
  constructor
  · rintro ⟨conversions, converted, rfl⟩
    obtain ⟨counts, length, converts⟩ := convertAll?_eq_some_iff.mp converted
    refine ⟨⟨rfl, takes.mp counts, length, ?_, rfl⟩, rfl⟩
    intro i a here
    obtain ⟨p, conversion, there, rest⟩ := converts i a here
    rw [places counts i (List.getElem?_eq_some_iff.mp here).1] at there
    exact ⟨p, conversion, there, rest⟩
  · rintro ⟨accepts, rfl⟩
    have counts := takes.mpr accepts.takes
    refine ⟨c.conversions, convertAll?_eq_some_iff.mpr ⟨counts, accepts.length, ?_⟩, ?_⟩
    · intro i a here
      rw [places counts i (List.getElem?_eq_some_iff.mp here).1]
      exact accepts.converts i a here
    · rw [← accepts.member, ← accepts.score]

theorem plainForm?_eq_some_iff (plain : m.variadic = none) :
    ctx.scoreForm? m args m.params false = some c ↔ ctx.Accepts m args c := by
  have form : ctx.Accepts m args c → c.expanded = false := by
    intro accepts
    exact ((Member.takes_of_plain plain).mp accepts.takes).1
  rw [scoreForm?_eq_some_iff]
  · exact and_iff_left_of_imp form
  · rw [Member.takes_of_plain plain]
    simp [eq_comm]
  · intro _ i _
    rw [parameter?, plain, Option.map_none, Option.or_none]

theorem arrayForm?_eq_some_iff {element : Ty} (variadic : m.variadic = some element) :
    ctx.arrayForm? m element args = some c ↔ ctx.Accepts m args c ∧ c.expanded = false := by
  refine scoreForm?_eq_some_iff ?_ ?_
  · rw [Member.takes_of_variadic variadic]
    simp [eq_comm]
  · intro counts i here
    rw [← counts, List.length_append, List.length_singleton] at here
    by_cases fixed : i < m.params.length
    · rw [parameter?_fixed fixed, List.getElem?_append_left fixed]
    · obtain rfl : i = m.params.length := by omega
      rw [parameter?_trailing variadic (Nat.le_refl _), List.getElem?_concat_length]
      rfl

theorem expandedForm?_eq_some_iff {element : Ty} (variadic : m.variadic = some element) :
    ctx.expandedForm? m element args = some c ↔ ctx.Accepts m args c ∧ c.expanded = true := by
  rw [expandedForm?]
  split
  · next few =>
      constructor
      · intro none
        cases none
      · rintro ⟨accepts, form⟩
        have takes := (Member.takes_of_variadic variadic).mp accepts.takes
        rw [form, if_pos rfl] at takes
        exact absurd few (Nat.not_lt.mpr takes)
  · next enough =>
      refine scoreForm?_eq_some_iff ?_ ?_
      · rw [Member.takes_of_variadic variadic, if_pos rfl, List.length_append,
          List.length_replicate]
        omega
      · intro _ i here
        by_cases fixed : i < m.params.length
        · rw [parameter?_fixed fixed, List.getElem?_append_left fixed]
        · have past := Nat.not_lt.mp fixed
          rw [parameter?_trailing variadic past, List.getElem?_append_right past,
            List.getElem?_replicate_of_lt (by omega)]
          rfl

/-- In each form a member accepts arguments in one way only. -/
theorem Accepts.unique (hc : ctx.Accepts m args c) (hd : ctx.Accepts m args d)
    (form : c.expanded = d.expanded) : c = d := by
  have conversions : c.conversions = d.conversions := by
    refine List.ext_getElem? fun i => ?_
    cases here : args[i]? with
    | none =>
        have past : args.length ≤ i := List.getElem?_eq_none_iff.mp here
        rw [List.getElem?_eq_none (hc.length ▸ past), List.getElem?_eq_none (hd.length ▸ past)]
    | some a =>
        obtain ⟨p, x, hp, hx, cx⟩ := hc.converts i a here
        obtain ⟨q, y, hq, hy, dy⟩ := hd.converts i a here
        rw [form, hq] at hp
        cases hp
        rw [hx] at hy
        rw [cx, dy, hy]
  obtain ⟨member, converted, score, expanded⟩ := c
  obtain ⟨member', converted', score', expanded'⟩ := d
  cases form
  cases conversions
  cases hc.member.trans hd.member.symm
  cases hc.score.trans hd.score.symm
  rfl

/-! ## The better form -/

section

variable {σ : Type} [LinearOrder σ] {value : Candidate → σ}

/-- A member as a candidate, its forms compared by a value of any kind. -/
def candidateBy? (ctx : Context) (value : Candidate → σ) (m : Member) (args : List Ty) :
    Option Candidate :=
  match m.variadic with
  | none => ctx.scoreForm? m args m.params false
  | some element =>
    match ctx.arrayForm? m element args, ctx.expandedForm? m element args with
    | some direct, some expanded =>
      if value expanded < value direct then some expanded else some direct
    | some direct, none => some direct
    | none, expanded => expanded

/-- Scoring compares the rounded scores. -/
theorem candidateBy?_score (ctx : Context) : ctx.candidateBy? Candidate.score = ctx.candidate? :=
  rfl

theorem ScoredBy.unique (hc : ctx.ScoredBy value m args c) (hd : ctx.ScoredBy value m args d) :
    c = d := by
  refine hc.toAccepts.unique hd.toAccepts ?_
  cases formc : c.expanded with
  | false =>
      cases formd : d.expanded with
      | false => rfl
      | true =>
          have less := hd.direct c hc.toAccepts formd formc
          exact absurd (hc.least d hd.toAccepts) (not_le.mpr less)
  | true =>
      cases formd : d.expanded with
      | false =>
          have less := hc.direct d hd.toAccepts formc formd
          exact absurd (hd.least c hc.toAccepts) (not_le.mpr less)
      | true => rfl

/-- A member that accepts the arguments in one form only competes with that form. -/
theorem Accepts.scoredBy (hc : ctx.Accepts m args c)
    (only : ∀ d, ctx.Accepts m args d → d.expanded = c.expanded) :
    ctx.ScoredBy value m args c where
  toAccepts := hc
  least d hd := by rw [hd.unique hc (only d hd)]
  direct d hd form form' := by
    rw [only d hd, form] at form'
    cases form'

theorem scoredBy_of_candidateBy? (h : ctx.candidateBy? value m args = some c) :
    ctx.ScoredBy value m args c := by
  rw [candidateBy?] at h
  split at h
  · next plain =>
      have accepts := (plainForm?_eq_some_iff plain).mp h
      refine accepts.scoredBy fun d hd => ?_
      rw [((Member.takes_of_plain plain).mp accepts.takes).1,
        ((Member.takes_of_plain plain).mp hd.takes).1]
  · next element variadic =>
      split at h
      · next direct expanded foundDirect foundExpanded =>
          obtain ⟨hd, formd⟩ := (arrayForm?_eq_some_iff variadic).mp foundDirect
          obtain ⟨he, forme⟩ := (expandedForm?_eq_some_iff variadic).mp foundExpanded
          -- every form is one of the two
          have both : ∀ x, ctx.Accepts m args x → x = direct ∨ x = expanded := by
            intro x hx
            cases form : x.expanded with
            | false => exact Or.inl (hx.unique hd (form.trans formd.symm))
            | true => exact Or.inr (hx.unique he (form.trans forme.symm))
          split at h
          · next less =>
              cases h
              refine ⟨he, ?_, ?_⟩
              · intro x hx
                rcases both x hx with rfl | rfl
                · exact less.le
                · exact le_rfl
              · intro x hx _ form
                rcases both x hx with rfl | rfl
                · exact less
                · rw [forme] at form
                  cases form
          · next more =>
              cases h
              refine ⟨hd, ?_, ?_⟩
              · intro x hx
                rcases both x hx with rfl | rfl
                · exact le_rfl
                · exact not_lt.mp more
              · intro x _ form
                rw [formd] at form
                cases form
      · next direct foundDirect missing =>
          cases h
          obtain ⟨hd, formd⟩ := (arrayForm?_eq_some_iff variadic).mp foundDirect
          refine hd.scoredBy fun x hx => ?_
          cases form : x.expanded with
          | false => exact formd.symm
          | true =>
              have found := (expandedForm?_eq_some_iff variadic).mpr ⟨hx, form⟩
              rw [missing] at found
              cases found
      · next found missing =>
          obtain ⟨he, forme⟩ := (expandedForm?_eq_some_iff variadic).mp h
          refine he.scoredBy fun x hx => ?_
          cases form : x.expanded with
          | false =>
              have found := (arrayForm?_eq_some_iff variadic).mpr ⟨hx, form⟩
              rw [missing] at found
              cases found
          | true => exact forme.symm

/-- Nothing that accepts the arguments is passed over. -/
theorem exists_candidateBy? (value : Candidate → σ) (h : ctx.Accepts m args c) :
    ∃ d, ctx.candidateBy? value m args = some d := by
  rw [candidateBy?]
  split
  · next plain => exact ⟨c, (plainForm?_eq_some_iff plain).mpr h⟩
  · next element variadic =>
      split
      · split
        · exact ⟨_, rfl⟩
        · exact ⟨_, rfl⟩
      · exact ⟨_, rfl⟩
      · next missing =>
          cases form : c.expanded with
          | false =>
              have found := (arrayForm?_eq_some_iff variadic).mpr ⟨h, form⟩
              rw [missing] at found
              cases found
          | true => exact ⟨c, (expandedForm?_eq_some_iff variadic).mpr ⟨h, form⟩⟩

/-- A member is a candidate exactly in the form it competes with. -/
theorem candidateBy?_eq_some_iff :
    ctx.candidateBy? value m args = some c ↔ ctx.ScoredBy value m args c := by
  refine ⟨scoredBy_of_candidateBy?, fun h => ?_⟩
  obtain ⟨d, found⟩ := exists_candidateBy? value h.toAccepts
  rw [found, (scoredBy_of_candidateBy? found).unique h]

/-- A member competes if it accepts the arguments in any form. -/
theorem exists_scoredBy_iff (value : Candidate → σ) :
    (∃ c, ctx.ScoredBy value m args c) ↔ ∃ c, ctx.Accepts m args c := by
  constructor
  · rintro ⟨c, h⟩
    exact ⟨c, h.toAccepts⟩
  · rintro ⟨c, h⟩
    obtain ⟨d, found⟩ := exists_candidateBy? value h
    exact ⟨d, scoredBy_of_candidateBy? found⟩

end

end Context

end ExprCompiler
