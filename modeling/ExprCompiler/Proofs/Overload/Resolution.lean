/-
# What overload resolution decides

Resolution scores the members that accept the arguments, sorts them and compares the
first two.  None of that shows in the outcome: a member is chosen if it scores strictly
below every other one that accepts the arguments, the call is ambiguous if the least score
is shared, and a mismatch if nobody accepts.  So the order of the members can only show in
the wording of an ambiguity.

Main result: `Context.resolveOverload_outcomes`.

Members may be listed twice, so "every other" is about places and not about members.  It
is said by permuting the list: `x` leads `xs` if `xs` is `x` and some others in some order.

Up to the main result the value that candidates are compared by is any function into a
linear order.  `resolveBy` is resolution by such a value and `resolveOverload` is the case
of rounded scores (`resolveBy_score`); another case is that of exact averages.
-/
import Mathlib.Data.List.Perm.Basic
import ExprCompiler.Host.Registration
import ExprCompiler.Proofs.Overload.Forms

namespace ExprCompiler

/-! ## The least of a list -/

section

variable {α β σ : Type} [LinearOrder σ] {value : α → σ} {xs ys : List α} {x y : α}

/-- An element is below all others. -/
def Leads (value : α → σ) (xs : List α) (x : α) : Prop :=
  ∃ others, xs.Perm (x :: others) ∧ ∀ y ∈ others, value x < value y

/-- Two elements share the least value. -/
def Tied (value : α → σ) (xs : List α) : Prop :=
  ∃ x y others, xs.Perm (x :: y :: others) ∧ value x = value y
    ∧ ∀ z ∈ others, value x ≤ value z

namespace Leads

theorem mem (h : Leads value xs x) : x ∈ xs := by
  obtain ⟨others, split, -⟩ := h
  exact split.mem_iff.mpr List.mem_cons_self

theorem lt (h : Leads value xs x) (hy : y ∈ xs) (other : y ≠ x) : value x < value y := by
  obtain ⟨others, split, below⟩ := h
  exact below y (List.mem_of_ne_of_mem other (split.mem_iff.mp hy))

theorem unique (hx : Leads value xs x) (hy : Leads value xs y) : x = y := by
  by_contra other
  exact lt_asymm (hx.lt hy.mem (Ne.symm other)) (hy.lt hx.mem other)

theorem perm (h : Leads value xs x) (same : xs.Perm ys) : Leads value ys x := by
  obtain ⟨others, split, below⟩ := h
  exact ⟨others, same.symm.trans split, below⟩

theorem not_tied (h : Leads value xs x) : ¬ Tied value xs := by
  rintro ⟨a, b, others, split, same, least⟩
  have ha : a ∈ xs := split.mem_iff.mpr List.mem_cons_self
  have hb : b ∈ xs := split.mem_iff.mpr (List.mem_cons_of_mem _ List.mem_cons_self)
  by_cases first : a = x
  · -- one of the two leads, so the other is above it
    subst first
    obtain ⟨rest, split', below⟩ := h
    have tail : (b :: others).Perm rest := (split.symm.trans split').cons_inv
    exact absurd same (below b (tail.mem_iff.mp List.mem_cons_self)).ne
  · have below : value x < value a := h.lt ha first
    rcases List.mem_cons.mp (split.mem_iff.mp h.mem) with rfl | hx
    · exact first rfl
    · rcases List.mem_cons.mp hx with rfl | hx
      · exact below.ne same.symm
      · exact absurd (least x hx) (not_le.mpr below)

end Leads

theorem Tied.perm (h : Tied value xs) (same : xs.Perm ys) : Tied value ys := by
  obtain ⟨a, b, others, split, equal, least⟩ := h
  exact ⟨a, b, others, same.symm.trans split, equal, least⟩

theorem Tied.ne_nil (h : Tied value xs) : xs ≠ [] := by
  obtain ⟨a, b, others, split, -, -⟩ := h
  rintro rfl
  exact List.cons_ne_nil _ _ split.symm.eq_nil

theorem pairwise_mergeSort_value (value : α → σ) (xs : List α) :
    (xs.mergeSort (fun a b => decide (value a ≤ value b))).Pairwise
      (fun a b => value a ≤ value b) := by
  have sorted : (xs.mergeSort (fun a b => decide (value a ≤ value b))).Pairwise
      (fun a b => decide (value a ≤ value b) = true) := by
    refine List.pairwise_mergeSort ?_ ?_ xs
    · intro a b c hab hbc
      rw [decide_eq_true_eq] at hab hbc ⊢
      exact hab.trans hbc
    · intro a b
      rw [Bool.or_eq_true, decide_eq_true_eq, decide_eq_true_eq]
      exact le_total _ _
  exact sorted.imp of_decide_eq_true

/-- What is left of a list if everything but one element is dropped on the way. -/
theorem filterMap_perm_cons_iff {f : α → Option β} {b : β} {rest : List β} :
    (xs.filterMap f).Perm (b :: rest) ↔
      ∃ x others, xs.Perm (x :: others) ∧ f x = some b ∧ (others.filterMap f).Perm rest := by
  constructor
  · intro split
    obtain ⟨x, hx, found⟩ := List.mem_filterMap.mp (split.mem_iff.mpr List.mem_cons_self)
    obtain ⟨before, after, rfl⟩ := List.append_of_mem hx
    have moved : (before ++ x :: after).Perm (x :: (before ++ after)) := List.perm_middle
    refine ⟨x, before ++ after, moved, found, ?_⟩
    have mapped := moved.filterMap f
    rw [List.filterMap_cons_some found] at mapped
    exact (mapped.symm.trans split).cons_inv
  · rintro ⟨x, others, split, found, left⟩
    have mapped := split.filterMap f
    rw [List.filterMap_cons_some found] at mapped
    exact mapped.trans (left.cons b)

end

/-! ## Resolution by a value -/

namespace Context

variable {σ : Type} [LinearOrder σ] {ctx : Context} {value : Candidate → σ} {name : String}
  {viable : List Candidate} {members members' : List Member} {args : List Ty} {span : Span}
  {c : Candidate}

/-- The candidate of least value. -/
def bestCandidateBy (ctx : Context) (value : Candidate → σ) (name : String)
    (viable : List Candidate) (span : Span) : Except CompileError Candidate :=
  match viable.mergeSort (fun a b => decide (value a ≤ value b)) with
  | [] => .error (.internal (.noCandidates name))
  | [only] => .ok only
  | best :: second :: _ =>
    if value best = value second then
      .error (.ambiguous
        (.overload name (ctx.describeMember best.member) (ctx.describeMember second.member))
        span)
    else .ok best

/-- The member that a call means, if forms and candidates are compared by a value. -/
def resolveBy (ctx : Context) (value : Candidate → σ) (name : String) (members : List Member)
    (args : List Ty) (span : Span) : Except CompileError Candidate :=
  match members.filterMap (fun m => ctx.candidateBy? value m args) with
  | [] => .error (.mismatch (.noOverload name (args.map ctx.typeName)) span)
  | found => ctx.bestCandidateBy value name found span

theorem bestCandidateBy_score (ctx : Context) :
    ctx.bestCandidateBy Candidate.score = ctx.bestCandidate := rfl

/-- Calls are resolved by the rounded scores. -/
theorem resolveBy_score (ctx : Context) :
    ctx.resolveBy Candidate.score = ctx.resolveOverload := by
  funext name members args span
  rw [resolveBy, candidateBy?_score, bestCandidateBy_score]
  rfl

/-- One candidate leads, or two are tied. -/
theorem bestCandidateBy_cases (ctx : Context) (value : Candidate → σ) (name : String)
    (span : Span) (found : viable ≠ []) :
    (∃ c, Leads value viable c ∧ ctx.bestCandidateBy value name viable span = .ok c)
      ∨ Tied value viable
        ∧ ∃ cause, ctx.bestCandidateBy value name viable span
          = .error (.ambiguous cause span) := by
  have split := (List.mergeSort_perm viable (fun a b => decide (value a ≤ value b))).symm
  have sorted := pairwise_mergeSort_value value viable
  simp only [bestCandidateBy]
  cases order : viable.mergeSort (fun a b => decide (value a ≤ value b)) with
  | nil =>
      rw [order] at split
      exact absurd split.eq_nil found
  | cons best rest =>
      rw [order] at split sorted
      obtain ⟨least, sorted⟩ := List.pairwise_cons.mp sorted
      cases rest with
      | nil => exact Or.inl ⟨best, ⟨[], split, fun _ h => absurd h List.not_mem_nil⟩, rfl⟩
      | cons second rest =>
          obtain ⟨next, -⟩ := List.pairwise_cons.mp sorted
          have first : value best ≤ value second := least second List.mem_cons_self
          by_cases same : value best = value second
          · refine Or.inr ⟨⟨best, second, rest, split, same, ?_⟩, _, if_pos same⟩
            intro c hc
            exact first.trans (next c hc)
          · refine Or.inl ⟨best, ⟨second :: rest, split, ?_⟩, if_neg same⟩
            have less : value best < value second := lt_of_le_of_ne first same
            intro c hc
            rcases List.mem_cons.mp hc with rfl | hc
            · exact less
            · exact less.trans_le (next c hc)

/-- The candidates that compete. -/
def competing (ctx : Context) (value : Candidate → σ) (members : List Member)
    (args : List Ty) : List Candidate :=
  members.filterMap (fun m => ctx.candidateBy? value m args)

theorem resolveBy_of_some (found : ctx.competing value members args ≠ []) :
    ctx.resolveBy value name members args span
      = ctx.bestCandidateBy value name (ctx.competing value members args) span := by
  unfold resolveBy
  rw [← competing]
  split
  · next none => exact absurd none found
  · rfl

/-- Nobody competes, one leads, or two are tied. -/
theorem resolveBy_cases (ctx : Context) (value : Candidate → σ) (name : String)
    (members : List Member) (args : List Ty) (span : Span) :
    (ctx.competing value members args = []
        ∧ ∃ cause, ctx.resolveBy value name members args span = .error (.mismatch cause span))
      ∨ (∃ c, Leads value (ctx.competing value members args) c
        ∧ ctx.resolveBy value name members args span = .ok c)
      ∨ Tied value (ctx.competing value members args)
        ∧ ∃ cause, ctx.resolveBy value name members args span
          = .error (.ambiguous cause span) := by
  by_cases found : ctx.competing value members args = []
  · refine Or.inl ⟨found, .noOverload name (args.map ctx.typeName), ?_⟩
    rw [competing] at found
    rw [resolveBy, found]
  · rw [resolveBy_of_some found]
    exact Or.inr (ctx.bestCandidateBy_cases value name span found)

theorem not_leads_nil : ¬ Leads value [] c := fun h => absurd h.mem List.not_mem_nil

/-- A candidate is chosen exactly if it leads. -/
theorem resolveBy_eq_ok_iff :
    ctx.resolveBy value name members args span = .ok c
      ↔ Leads value (ctx.competing value members args) c := by
  rcases ctx.resolveBy_cases value name members args span with
    ⟨none, cause, h⟩ | ⟨d, leads, h⟩ | ⟨tied, cause, h⟩
  · rw [h, none]
    exact ⟨nofun, fun leads => absurd leads not_leads_nil⟩
  · rw [h, Except.ok.injEq]
    constructor
    · rintro rfl
      exact leads
    · exact leads.unique
  · rw [h]
    exact ⟨nofun, fun leads => absurd tied leads.not_tied⟩

theorem resolveBy_ambiguous_iff :
    (∃ cause, ctx.resolveBy value name members args span = .error (.ambiguous cause span))
      ↔ Tied value (ctx.competing value members args) := by
  rcases ctx.resolveBy_cases value name members args span with
    ⟨none, cause, h⟩ | ⟨d, leads, h⟩ | ⟨tied, cause, h⟩
  · rw [h]
    exact ⟨nofun, fun tied => absurd none tied.ne_nil⟩
  · rw [h]
    exact ⟨nofun, fun tied => absurd tied leads.not_tied⟩
  · exact ⟨fun _ => tied, fun _ => ⟨cause, h⟩⟩

theorem resolveBy_mismatch_iff :
    (∃ cause, ctx.resolveBy value name members args span = .error (.mismatch cause span))
      ↔ ctx.competing value members args = [] := by
  rcases ctx.resolveBy_cases value name members args span with
    ⟨none, cause, h⟩ | ⟨d, leads, h⟩ | ⟨tied, cause, h⟩
  · exact ⟨fun _ => none, fun _ => ⟨cause, h⟩⟩
  · rw [h]
    refine ⟨nofun, fun none => ?_⟩
    rw [none] at leads
    exact absurd leads not_leads_nil
  · rw [h]
    exact ⟨nofun, fun none => absurd none tied.ne_nil⟩

/-! ## Members in place of candidates -/

theorem mem_competing_iff :
    c ∈ ctx.competing value members args ↔ ∃ m ∈ members, ctx.ScoredBy value m args c := by
  simp only [competing, List.mem_filterMap, candidateBy?_eq_some_iff]

theorem competing_eq_nil_iff :
    ctx.competing value members args = [] ↔ ∀ m ∈ members, ∀ c, ¬ ctx.Accepts m args c := by
  rw [List.eq_nil_iff_forall_not_mem]
  constructor
  · intro none m hm c accepts
    obtain ⟨d, scored⟩ := (exists_scoredBy_iff value).mpr ⟨c, accepts⟩
    exact none d (mem_competing_iff.mpr ⟨m, hm, scored⟩)
  · intro none c hc
    obtain ⟨m, hm, scored⟩ := mem_competing_iff.mp hc
    exact none m hm c scored.toAccepts

theorem leads_competing_iff :
    Leads value (ctx.competing value members args) c ↔
      ∃ m others, members.Perm (m :: others) ∧ ctx.ScoredBy value m args c
        ∧ ∀ o ∈ others, ∀ d, ctx.ScoredBy value o args d → value c < value d := by
  constructor
  · rintro ⟨rest, split, below⟩
    obtain ⟨m, others, moved, found, left⟩ := filterMap_perm_cons_iff.mp split
    refine ⟨m, others, moved, candidateBy?_eq_some_iff.mp found, ?_⟩
    intro o ho d scored
    exact below d (left.mem_iff.mp (mem_competing_iff.mpr ⟨o, ho, scored⟩))
  · rintro ⟨m, others, moved, scored, below⟩
    refine ⟨ctx.competing value others args, filterMap_perm_cons_iff.mpr
      ⟨m, others, moved, candidateBy?_eq_some_iff.mpr scored, .refl _⟩, ?_⟩
    intro d hd
    obtain ⟨o, ho, scored⟩ := mem_competing_iff.mp hd
    exact below o ho d scored

theorem tied_competing_iff :
    Tied value (ctx.competing value members args) ↔
      ∃ m n others c d, members.Perm (m :: n :: others)
        ∧ ctx.ScoredBy value m args c ∧ ctx.ScoredBy value n args d ∧ value c = value d
        ∧ ∀ o ∈ others, ∀ e, ctx.ScoredBy value o args e → value c ≤ value e := by
  constructor
  · rintro ⟨c, d, rest, split, same, least⟩
    obtain ⟨m, members', moved, foundm, left⟩ := filterMap_perm_cons_iff.mp split
    obtain ⟨n, others, moved', foundn, left⟩ := filterMap_perm_cons_iff.mp left
    refine ⟨m, n, others, c, d, moved.trans (moved'.cons m),
      candidateBy?_eq_some_iff.mp foundm, candidateBy?_eq_some_iff.mp foundn, same, ?_⟩
    intro o ho e scored
    exact least e (left.mem_iff.mp (mem_competing_iff.mpr ⟨o, ho, scored⟩))
  · rintro ⟨m, n, others, c, d, moved, scoredm, scoredn, same, least⟩
    refine ⟨c, d, ctx.competing value others args, ?_, same, ?_⟩
    · exact filterMap_perm_cons_iff.mpr ⟨m, n :: others, moved,
        candidateBy?_eq_some_iff.mpr scoredm, filterMap_perm_cons_iff.mpr
          ⟨n, others, .refl _, candidateBy?_eq_some_iff.mpr scoredn, .refl _⟩⟩
    · intro e he
      obtain ⟨o, ho, scored⟩ := mem_competing_iff.mp he
      exact least o ho e scored

/-- The order of the members shows in the wording of an ambiguity only. -/
theorem resolveBy_perm (same : members'.Perm members) :
    (ctx.resolveBy value name members' args span).mapError CompileError.sort
      = (ctx.resolveBy value name members args span).mapError CompileError.sort := by
  have competing : (ctx.competing value members' args).Perm (ctx.competing value members args) :=
    same.filterMap _
  rcases ctx.resolveBy_cases value name members args span with
    ⟨none, cause, h⟩ | ⟨c, leads, h⟩ | ⟨tied, cause, h⟩
  · rw [none] at competing
    obtain ⟨cause', h'⟩ := resolveBy_mismatch_iff.mpr competing.eq_nil
    rw [h, h']
    rfl
  · rw [h, resolveBy_eq_ok_iff.mpr (leads.perm competing.symm)]
  · obtain ⟨cause', h'⟩ := resolveBy_ambiguous_iff.mpr (tied.perm competing.symm)
    rw [h, h']
    rfl

/-! ## Resolution by score -/

/-- A call means the member that scores strictly below every other one that accepts its
arguments.  It is ambiguous if the least score is shared, and a mismatch if nobody
accepts.  The order of the members does not matter.  What is chosen comes with one
conversion for each argument: to the fixed parameter at its place, or else to the
parameter array or its element.

A search for a conversion that goes round in circles (`searches_end_iff`) counts as one
without an answer; a call that has to wait for it has no outcome at all. -/
theorem resolveOverload_outcomes (ctx : Context) (name : String) (members : List Member)
    (args : List Ty) (span : Span) :
    (∀ c, ctx.resolveOverload name members args span = .ok c ↔
        ∃ m others, members.Perm (m :: others) ∧ ctx.ScoredBy Candidate.score m args c
          ∧ ∀ o ∈ others, ∀ d, ctx.ScoredBy Candidate.score o args d → c.score < d.score)
      ∧ ((∃ cause, ctx.resolveOverload name members args span = .error (.ambiguous cause span)) ↔
        ∃ m n others c d, members.Perm (m :: n :: others)
          ∧ ctx.ScoredBy Candidate.score m args c ∧ ctx.ScoredBy Candidate.score n args d
          ∧ c.score = d.score
          ∧ ∀ o ∈ others, ∀ e, ctx.ScoredBy Candidate.score o args e → c.score ≤ e.score)
      ∧ ((∃ cause, ctx.resolveOverload name members args span = .error (.mismatch cause span)) ↔
        ∀ m ∈ members, ∀ c, ¬ ctx.Accepts m args c)
      ∧ (∀ members' : List Member, members'.Perm members →
        (ctx.resolveOverload name members' args span).mapError CompileError.sort
          = (ctx.resolveOverload name members args span).mapError CompileError.sort)
      ∧ ∀ c, ctx.resolveOverload name members args span = .ok c →
        c.conversions.length = args.length
          ∧ ∀ (i : Nat) a, args[i]? = some a → ∃ p conversion,
            ctx.parameter? c.member c.expanded i = some p
              ∧ ctx.conversion? a p = some conversion
              ∧ c.conversions[i]? = some conversion := by
  rw [← resolveBy_score]
  refine ⟨?_, ?_, ?_, ?_, ?_⟩
  · intro c
    rw [resolveBy_eq_ok_iff, leads_competing_iff]
  · rw [resolveBy_ambiguous_iff, tied_competing_iff]
  · rw [resolveBy_mismatch_iff, competing_eq_nil_iff]
  · intro members' same
    exact resolveBy_perm same
  · intro c chosen
    obtain ⟨m, -, scored⟩ := mem_competing_iff.mp (resolveBy_eq_ok_iff.mp chosen).mem
    obtain rfl := scored.member
    exact ⟨scored.length, scored.converts⟩

/-- The built-in types and the default options. -/
def builtins : Context := ⟨.withPrimitives, {}⟩

/-- Two functions of one argument: one takes a double, the other a long. -/
def roundings : List Member :=
  [Member.free "" "round" [Ty.numeric .float64] (Ty.numeric .float64),
    Member.free "" "round" [Ty.numeric .int64] (Ty.numeric .int64)]

/-- An int is nearer to a long than to a double, in whatever order the two are given. -/
theorem resolveOverload_outcomes_roundings :
    ∃ c, builtins.resolveOverload "round" roundings
        [Ty.numeric .int32] .unknown = .ok c
      ∧ c.conversions = [⟨.numeric .int32 .int64, 2⟩]
      ∧ builtins.resolveOverload "round" roundings.reverse
        [Ty.numeric .int32] .unknown = .ok c := by
  have double : ∃ d, builtins.candidate?
      (Member.free "" "round" [Ty.numeric .float64] (Ty.numeric .float64)) [Ty.numeric .int32]
        = some d ∧ d.score = Single.ofNat 5 := ⟨_, rfl, by decide +kernel⟩
  have long : ∃ c, builtins.candidate?
      (Member.free "" "round" [Ty.numeric .int64] (Ty.numeric .int64)) [Ty.numeric .int32]
        = some c ∧ c.score = Single.ofNat 2 ∧ c.conversions = [⟨.numeric .int32 .int64, 2⟩] :=
    ⟨_, rfl, by decide +kernel, rfl⟩
  obtain ⟨d, founddouble, scored⟩ := double
  obtain ⟨c, foundlong, scorec, conversions⟩ := long
  have below : ∀ o ∈ [Member.free "" "round" [Ty.numeric .float64] (Ty.numeric .float64)],
      ∀ e, builtins.ScoredBy Candidate.score o [Ty.numeric .int32] e →
        c.score < e.score := by
    intro o ho e he
    cases List.mem_singleton.mp ho
    rw [he.unique (candidateBy?_eq_some_iff.mp founddouble), scorec, scored]
    decide +kernel
  refine ⟨c, ?_, conversions, ?_⟩
  · exact ((resolveOverload_outcomes _ _ _ _ _).1 c).mpr
      ⟨_, _, .swap _ _ _, candidateBy?_eq_some_iff.mp foundlong, below⟩
  · exact ((resolveOverload_outcomes _ _ _ _ _).1 c).mpr
      ⟨_, _, .refl _, candidateBy?_eq_some_iff.mp foundlong, below⟩

end Context

end ExprCompiler
