/-
# Which overload an operator means

A binary operator is looked up on the types of both operands.  Each side is resolved on its
own, and then the two winners are compared.  Put together that is resolution among the
overloads of both sides, each counted once however many ways lead to it, but for one thing:
a tie on one side ends the search, also if the other side has an overload that scores below
the tied ones.

Main result: `Context.findOperator_outcomes`.  `Context.findOperator_contested_side` has two
types for which the exception matters.

What a side offers is said without the walk over the ancestors (`Context.Offers`): members
declared on the type or on anything it derives from.  No two members of a registry share an
identity, whatever was registered, so counting by identity is counting members.
-/
import Mathlib.Data.Set.Function
import ExprCompiler.Proofs.Host.Ancestors
import ExprCompiler.Proofs.Overload.Resolution

namespace ExprCompiler

/-! ## The best of a set -/

/-- A candidate scores below all others. -/
def Foremost (among : Set Candidate) (c : Candidate) : Prop :=
  c ∈ among ∧ ∀ d ∈ among, d.member.id ≠ c.member.id → c.score < d.score

/-- Two members share the lowest score. -/
def Contested (among : Set Candidate) : Prop :=
  ∃ c ∈ among, ∃ d ∈ among, c.member.id ≠ d.member.id ∧ c.score = d.score
    ∧ ∀ e ∈ among, c.score ≤ e.score

/-- Each member stands once in a set. -/
def CountedOnce (among : Set Candidate) : Prop :=
  Set.InjOn (fun c : Candidate => c.member.id) among

section

variable {among left right : Set Candidate} {c d : Candidate}

theorem Contested.ne_empty (h : Contested among) : among ≠ ∅ := by
  obtain ⟨c, hc, -⟩ := h
  exact Set.nonempty_iff_ne_empty.mp ⟨c, hc⟩

theorem union_ne_empty_of_contested
    (h : Contested (left ∪ right) ∨ Contested left ∨ Contested right) : left ∪ right ≠ ∅ := by
  intro none
  obtain ⟨noLeft, noRight⟩ := Set.union_empty_iff.mp none
  rcases h with tied | tied | tied
  · exact tied.ne_empty none
  · exact tied.ne_empty noLeft
  · exact tied.ne_empty noRight

theorem Leads.foremost {found : List Candidate} (h : Leads Candidate.score found c) :
    Foremost {d | d ∈ found} c := by
  refine ⟨h.mem, ?_⟩
  intro d hd apart
  exact h.lt hd (fun same => apart (congrArg (·.member.id) same))

theorem Tied.contested {found : List Candidate} (h : Tied Candidate.score found)
    (distinct : (found.map (·.member.id)).Nodup) : Contested {d | d ∈ found} := by
  obtain ⟨c, d, rest, split, same, least⟩ := h
  have first : c ∈ found := split.mem_iff.mpr List.mem_cons_self
  have second : d ∈ found := split.mem_iff.mpr (List.mem_cons_of_mem c List.mem_cons_self)
  have apart : c.member.id ≠ d.member.id := by
    intro equal
    have ids := (split.map (·.member.id)).nodup_iff.mp distinct
    exact (List.nodup_cons.mp ids).1 (List.mem_map.mpr ⟨d, List.mem_cons_self, equal.symm⟩)
  refine ⟨c, first, d, second, apart, same, ?_⟩
  intro e he
  rcases List.mem_cons.mp (split.mem_iff.mp he) with rfl | he
  · exact le_rfl
  · rcases List.mem_cons.mp he with rfl | he
    · exact same.le
    · exact least e he

namespace Foremost

theorem ne_empty (h : Foremost among c) : among ≠ ∅ :=
  Set.nonempty_iff_ne_empty.mp ⟨c, h.1⟩

theorem le (h : Foremost among c) (once : CountedOnce among) (hd : d ∈ among) :
    c.score ≤ d.score := by
  by_cases same : d.member.id = c.member.id
  · rw [once hd h.1 same]
  · exact (h.2 d hd same).le

theorem unique (hc : Foremost among c) (hd : Foremost among d) (once : CountedOnce among) :
    c = d := by
  by_contra other
  have apart : c.member.id ≠ d.member.id := fun same => other (once hc.1 hd.1 same)
  exact lt_asymm (hc.2 d hd.1 apart.symm) (hd.2 c hc.1 apart)

theorem not_contested (h : Foremost among c) : ¬ Contested among := by
  rintro ⟨a, ha, b, hb, apart, same, least⟩
  have lowest := least c h.1
  by_cases first : a.member.id = c.member.id
  · have below := h.2 b hb (fun second => apart (first.trans second.symm))
    exact absurd lowest (not_le.mpr (same ▸ below))
  · exact absurd lowest (not_le.mpr (h.2 a ha first))

theorem untied (h : Foremost (left ∪ right) c) (onLeft : ¬ Contested left)
    (onRight : ¬ Contested right) :
    ¬ (Contested (left ∪ right) ∨ Contested left ∨ Contested right) := by
  rintro (tied | tied | tied)
  · exact h.not_contested tied
  · exact onLeft tied
  · exact onRight tied

/-- What is below the other side, too, is below both. -/
theorem union (h : Foremost left c)
    (below : ∀ d ∈ right, d.member.id ≠ c.member.id → c.score < d.score) :
    Foremost (left ∪ right) c := by
  refine ⟨Set.mem_union_left _ h.1, ?_⟩
  rintro d (hd | hd) apart
  · exact h.2 d hd apart
  · exact below d hd apart

theorem union_of_lt (hc : Foremost left c) (hd : Foremost right d) (once : CountedOnce right)
    (less : c.score < d.score) : Foremost (left ∪ right) c :=
  hc.union fun _ he _ => less.trans_le (hd.le once he)

/-- Equally good winners share the lowest score. -/
theorem contested_union (hc : Foremost left c) (hd : Foremost right d)
    (onceLeft : CountedOnce left) (onceRight : CountedOnce right)
    (apart : c.member.id ≠ d.member.id) (same : c.score = d.score) :
    Contested (left ∪ right) := by
  refine ⟨c, Set.mem_union_left _ hc.1, d, Set.mem_union_right _ hd.1, apart, same, ?_⟩
  rintro e (he | he)
  · exact hc.le onceLeft he
  · exact same ▸ hd.le onceRight he

end Foremost

end

namespace Context

variable {ctx : Context} {op : Operator} {owner : HostId} {m : Member} {args : List Ty}
  {span : Span} {left right : Ty} {c d : Candidate}

/-! ## What a type offers -/

/-- An overload of an operator that is declared on a type or on what it derives from. -/
structure Offers (ctx : Context) (op : Operator) (owner : HostId) (m : Member) : Prop where
  inherited : ∃ ancestor, Relation.ReflTransGen ctx.registry.Derives owner ancestor
    ∧ m ∈ ctx.registry.declared ancestor
  named : Registry.nameMatches ctx.options.ignoreCase op.methodName m.name = true
  kind : m.kind = .operator
  arity : m.params.length = op.arity

/-- The overloads of a type that accept the operands, with their scores. -/
def overloads (ctx : Context) (op : Operator) (owner : HostId) (args : List Ty) :
    Set Candidate :=
  {c | ctx.Offers op owner c.member ∧ ctx.ScoredBy Candidate.score c.member args c}

theorem mem_operatorsOn_iff : m ∈ ctx.operatorsOn op owner ↔ ctx.Offers op owner m := by
  simp only [operatorsOn, membersOf, Registry.resolve, List.mem_filter, List.mem_flatMap,
    Registry.mem_lineage_iff, Bool.and_eq_true, beq_iff_eq]
  constructor
  · rintro ⟨⟨inherited, named⟩, kind, arity⟩
    exact ⟨inherited, named, kind, arity⟩
  · rintro ⟨inherited, named, kind, arity⟩
    exact ⟨⟨inherited, named⟩, kind, arity⟩

theorem mem_viable_iff :
    c ∈ ctx.viable (ctx.operatorsOn op owner) args ↔ c ∈ ctx.overloads op owner args := by
  have competes : c ∈ ctx.competing Candidate.score (ctx.operatorsOn op owner) args ↔ _ :=
    mem_competing_iff
  constructor
  · intro hc
    obtain ⟨m, hm, scored⟩ := competes.mp hc
    obtain rfl := scored.member
    exact ⟨mem_operatorsOn_iff.mp hm, scored⟩
  · rintro ⟨offers, scored⟩
    exact competes.mpr ⟨c.member, mem_operatorsOn_iff.mpr offers, scored⟩

theorem overloads_eq {found : List Candidate}
    (h : ctx.viable (ctx.operatorsOn op owner) args = found) :
    ctx.overloads op owner args = {c | c ∈ found} := by
  ext c
  rw [← mem_viable_iff, h]
  exact Iff.rfl

theorem sublist_competing {σ : Type} [LinearOrder σ] (ctx : Context) (value : Candidate → σ)
    (members : List Member) (args : List Ty) :
    ((ctx.competing value members args).map (·.member)).Sublist members := by
  rw [competing]
  induction members with
  | nil => exact .slnil
  | cons m members ih =>
      cases found : ctx.candidateBy? value m args with
      | none =>
          simp only [List.filterMap_cons, found]
          exact ih.cons m
      | some c =>
          simp only [List.filterMap_cons, found, List.map_cons,
            (candidateBy?_eq_some_iff.mp found).member]
          exact ih.cons_cons m

section

variable (recorded : ctx.registry.Recorded)

include recorded

/-- No two overloads that are compared share an identity. -/
theorem nodup_viable (op : Operator) (owner : HostId) (args : List Ty) :
    ((ctx.viable (ctx.operatorsOn op owner) args).map (·.member.id)).Nodup := by
  have all := recorded.nodup_declared (ctx.registry.nodup_lineage owner)
  have fewer : (ctx.operatorsOn op owner).Sublist
      ((ctx.registry.lineage owner).flatMap ctx.registry.declared) :=
    List.filter_sublist.trans List.filter_sublist
  have fitting := ctx.sublist_competing Candidate.score (ctx.operatorsOn op owner) args
  have ids := all.sublist ((fitting.trans fewer).map (·.id))
  rw [List.map_map] at ids
  exact ids

theorem eq_of_member_id {other : HostId} (hc : c ∈ ctx.overloads op owner args)
    (hd : d ∈ ctx.overloads op other args) (same : c.member.id = d.member.id) : c = d := by
  obtain ⟨offersc, scoredc⟩ := hc
  obtain ⟨offersd, scoredd⟩ := hd
  obtain ⟨a, -, ha⟩ := offersc.inherited
  obtain ⟨b, -, hb⟩ := offersd.inherited
  have equal := recorded.eq_of_id (Registry.mem_members_iff.mpr ⟨a, ha⟩)
    (Registry.mem_members_iff.mpr ⟨b, hb⟩) same
  rw [← equal] at scoredd
  exact scoredc.unique scoredd

theorem countedOnce_union (op : Operator) (one other : HostId) (args : List Ty) :
    CountedOnce (ctx.overloads op one args ∪ ctx.overloads op other args) := by
  rintro c (hc | hc) d (hd | hd) same
  all_goals exact eq_of_member_id recorded hc hd same

/-! ## One side -/

/-- A type offers nothing that fits, it has a winner, or its best overloads are tied. -/
theorem bestOn_cases (op : Operator) (owner : HostId) (args : List Ty) (span : Span) :
    (ctx.overloads op owner args = ∅ ∧ ctx.bestOn op owner args span = .ok none)
      ∨ (∃ c, Foremost (ctx.overloads op owner args) c
        ∧ ctx.bestOn op owner args span = .ok (some c))
      ∨ Contested (ctx.overloads op owner args)
        ∧ ∃ cause, ctx.bestOn op owner args span = .error (.ambiguous cause span) := by
  have distinct := nodup_viable recorded op owner args
  rw [overloads_eq rfl]
  cases found : ctx.viable (ctx.operatorsOn op owner) args with
  | nil =>
      refine Or.inl ⟨Set.eq_empty_of_forall_notMem fun _ => List.not_mem_nil, ?_⟩
      rw [bestOn, found]
  | cons first rest =>
      rw [found] at distinct
      have best : ctx.bestOn op owner args span
          = (ctx.bestCandidate op.methodName (first :: rest) span).map some := by
        rw [bestOn, found]
      refine Or.inr ?_
      rcases ctx.bestCandidateBy_cases Candidate.score op.methodName span
        (List.cons_ne_nil first rest) with ⟨c, leads, chosen⟩ | ⟨tied, cause, chosen⟩
      · refine Or.inl ⟨c, leads.foremost, ?_⟩
        rw [best, ← bestCandidateBy_score, chosen]
        rfl
      · refine Or.inr ⟨tied.contested distinct, cause, ?_⟩
        rw [best, ← bestCandidateBy_score, chosen]
        rfl

end

/-! ## Both sides -/

/-- The better of two winners is the best of both sides. -/
theorem betterOperator_cases (ctx : Context) (op : Operator) {onLeft onRight : Set Candidate}
    (l : Foremost onLeft c) (r : Foremost onRight d) (once : CountedOnce (onLeft ∪ onRight))
    (span : Span) :
    (∃ e, Foremost (onLeft ∪ onRight) e ∧ ctx.betterOperator op c d span = .ok e)
      ∨ Contested (onLeft ∪ onRight)
        ∧ ∃ cause, ctx.betterOperator op c d span = .error (.ambiguous cause span) := by
  have onceLeft : CountedOnce onLeft := once.mono Set.subset_union_left
  have onceRight : CountedOnce onRight := once.mono Set.subset_union_right
  rw [betterOperator]
  split
  · next same =>
      -- both sides found the same overload
      obtain rfl := once (Set.mem_union_left _ l.1) (Set.mem_union_right _ r.1) same
      exact Or.inl ⟨c, l.union r.2, rfl⟩
  · next apart =>
      split
      · next less => exact Or.inl ⟨c, l.union_of_lt r onceRight less, rfl⟩
      · next notLess =>
          split
          · next less =>
              refine Or.inl ⟨d, ?_, rfl⟩
              rw [Set.union_comm]
              exact r.union_of_lt l onceLeft less
          · next notMore =>
              have same := le_antisymm (not_lt.mp notMore) (not_lt.mp notLess)
              exact Or.inr ⟨l.contested_union r onceLeft onceRight apart same, _, rfl⟩

theorem findOperator_same (same : left.id = right.id) :
    ctx.findOperator op left right span = ctx.bestOn op left.id [left, right] span := by
  rw [findOperator]
  cases ctx.bestOn op left.id [left, right] span with
  | error e => rfl
  | ok found => exact if_pos same

theorem findOperator_apart {found : Option Candidate} (apart : left.id ≠ right.id)
    (onLeft : ctx.bestOn op left.id [left, right] span = .ok found) :
    ctx.findOperator op left right span
      = (do
        let other ← ctx.bestOn op right.id [left, right] span
        match found, other with
        | some l, some r => (ctx.betterOperator op l r span).map some
        | some l, none => return some l
        | none, other => return other) := by
  rw [findOperator, onLeft]
  exact if_neg apart

/-- Nothing fits, one overload of both sides wins, or the best ones of both sides or of one
are tied. -/
theorem findOperator_cases (recorded : ctx.registry.Recorded) {onLeft onRight : Set Candidate}
    (hl : ctx.overloads op left.id [left, right] = onLeft)
    (hr : ctx.overloads op right.id [left, right] = onRight) (span : Span) :
    (onLeft ∪ onRight = ∅ ∧ ctx.findOperator op left right span = .ok none)
      ∨ (∃ c, Foremost (onLeft ∪ onRight) c ∧ ¬ Contested onLeft ∧ ¬ Contested onRight
        ∧ ctx.findOperator op left right span = .ok (some c))
      ∨ (Contested (onLeft ∪ onRight) ∨ Contested onLeft ∨ Contested onRight)
        ∧ ∃ cause, ctx.findOperator op left right span = .error (.ambiguous cause span) := by
  have leftSide := bestOn_cases recorded op left.id [left, right] span
  have rightSide := bestOn_cases recorded op right.id [left, right] span
  rw [hl] at leftSide
  rw [hr] at rightSide
  by_cases same : left.id = right.id
  · -- one type is searched once
    have equal : onRight = onLeft := by rw [← hl, ← hr, same]
    rw [findOperator_same same, equal, Set.union_self]
    rcases leftSide with none | ⟨c, best, found⟩ | ⟨tied, ambiguous⟩
    · exact Or.inl none
    · exact Or.inr (Or.inl ⟨c, best, best.not_contested, best.not_contested, found⟩)
    · exact Or.inr (Or.inr ⟨Or.inl tied, ambiguous⟩)
  rcases leftSide with ⟨none, found⟩ | ⟨c, best, found⟩ | ⟨tied, cause, found⟩
  · rw [findOperator_apart same found, none, Set.empty_union]
    rcases rightSide with ⟨none', found'⟩ | ⟨d, best', found'⟩ | ⟨tied, cause, found'⟩
    · rw [found']
      exact Or.inl ⟨none', rfl⟩
    · rw [found']
      have untied : ¬ Contested ∅ := fun tied => tied.ne_empty rfl
      exact Or.inr (Or.inl ⟨d, best', untied, best'.not_contested, rfl⟩)
    · rw [found']
      exact Or.inr (Or.inr ⟨Or.inl tied, cause, rfl⟩)
  · rw [findOperator_apart same found]
    rcases rightSide with ⟨none', found'⟩ | ⟨d, best', found'⟩ | ⟨tied, cause, found'⟩
    · rw [found', none', Set.union_empty]
      have untied : ¬ Contested ∅ := fun tied => tied.ne_empty rfl
      exact Or.inr (Or.inl ⟨c, best, best.not_contested, untied, rfl⟩)
    · have once : CountedOnce (onLeft ∪ onRight) := by
        rw [← hl, ← hr]
        exact countedOnce_union recorded op left.id right.id [left, right]
      rw [found']
      rcases ctx.betterOperator_cases op best best' once span with
        ⟨e, foremost, chosen⟩ | ⟨tied, cause, chosen⟩
      · refine Or.inr (Or.inl ⟨e, foremost, best.not_contested, best'.not_contested, ?_⟩)
        exact congrArg (Except.map some) chosen
      · refine Or.inr (Or.inr ⟨Or.inl tied, cause, ?_⟩)
        exact congrArg (Except.map some) chosen
    · rw [found']
      exact Or.inr (Or.inr ⟨Or.inr (Or.inr tied), cause, rfl⟩)
  · refine Or.inr (Or.inr ⟨Or.inr (Or.inl tied), cause, ?_⟩)
    rw [findOperator, found]
    rfl

section

variable (recorded : ctx.registry.Recorded) {onLeft onRight : Set Candidate}
  (hl : ctx.overloads op left.id [left, right] = onLeft)
  (hr : ctx.overloads op right.id [left, right] = onRight)

include recorded hl hr

theorem findOperator_eq_none_iff :
    ctx.findOperator op left right span = .ok none ↔ onLeft ∪ onRight = ∅ := by
  rcases findOperator_cases recorded hl hr span with
    ⟨none, h⟩ | ⟨c, best, -, -, h⟩ | ⟨tied, cause, h⟩
  · exact ⟨fun _ => none, fun _ => h⟩
  · rw [h]
    exact ⟨nofun, fun none => absurd none best.ne_empty⟩
  · rw [h]
    exact ⟨nofun, fun none => absurd none (union_ne_empty_of_contested tied)⟩

theorem findOperator_eq_some_iff :
    ctx.findOperator op left right span = .ok (some c)
      ↔ Foremost (onLeft ∪ onRight) c ∧ ¬ Contested onLeft ∧ ¬ Contested onRight := by
  rcases findOperator_cases recorded hl hr span with
    ⟨none, h⟩ | ⟨d, best, onlyLeft, onlyRight, h⟩ | ⟨tied, cause, h⟩
  · rw [h]
    exact ⟨nofun, fun best => absurd none best.1.ne_empty⟩
  · rw [h, Except.ok.injEq, Option.some.injEq]
    constructor
    · rintro rfl
      exact ⟨best, onlyLeft, onlyRight⟩
    · rintro ⟨best', -, -⟩
      have once := countedOnce_union recorded op left.id right.id [left, right]
      rw [hl, hr] at once
      exact best.unique best' once
  · rw [h]
    refine ⟨nofun, ?_⟩
    rintro ⟨best, onlyLeft, onlyRight⟩
    exact absurd tied (best.untied onlyLeft onlyRight)

theorem findOperator_ambiguous_iff :
    (∃ cause, ctx.findOperator op left right span = .error (.ambiguous cause span))
      ↔ Contested (onLeft ∪ onRight) ∨ Contested onLeft ∨ Contested onRight := by
  rcases findOperator_cases recorded hl hr span with
    ⟨none, h⟩ | ⟨c, best, onlyLeft, onlyRight, h⟩ | ⟨tied, cause, h⟩
  · rw [h]
    exact ⟨nofun, fun tied => absurd none (union_ne_empty_of_contested tied)⟩
  · rw [h]
    exact ⟨nofun, fun tied => absurd tied (best.untied onlyLeft onlyRight)⟩
  · exact ⟨fun _ => tied, fun _ => ⟨cause, h⟩⟩

end

/-- With the overloads of both operand types taken together, each member once, an operator
means nothing if none of them fits.  It means an overload if that one scores below all the
others and no side has a tie of its own.  It is ambiguous if the lowest score of both sides
is shared, or the lowest one of a side.  There is no other outcome, unless a conversion is
searched for in circles (`searches_end_iff`), and then there is none. -/
theorem findOperator_outcomes (regs : List Registration) (options : Options) (op : Operator)
    (left right : Ty) (span : Span) :
    let ctx : Context := ⟨.made regs, options⟩
    let onLeft := ctx.overloads op left.id [left, right]
    let onRight := ctx.overloads op right.id [left, right]
    (ctx.findOperator op left right span = .ok none ↔ onLeft ∪ onRight = ∅)
      ∧ (∀ c, ctx.findOperator op left right span = .ok (some c)
        ↔ Foremost (onLeft ∪ onRight) c ∧ ¬ Contested onLeft ∧ ¬ Contested onRight)
      ∧ ((∃ cause, ctx.findOperator op left right span = .error (.ambiguous cause span))
        ↔ Contested (onLeft ∪ onRight) ∨ Contested onLeft ∨ Contested onRight)
      ∧ (ctx.findOperator op left right span = .ok none
        ∨ (∃ c, ctx.findOperator op left right span = .ok (some c))
        ∨ ∃ cause, ctx.findOperator op left right span = .error (.ambiguous cause span)) := by
  intro ctx onLeft onRight
  have recorded : ctx.registry.Recorded := Registry.recorded_made regs
  refine ⟨findOperator_eq_none_iff recorded rfl rfl,
    fun c => findOperator_eq_some_iff recorded rfl rfl,
    findOperator_ambiguous_iff recorded rfl rfl, ?_⟩
  rcases findOperator_cases recorded rfl rfl span with
    ⟨-, h⟩ | ⟨c, -, -, -, h⟩ | ⟨-, cause, h⟩
  · exact Or.inl h
  · exact Or.inr (Or.inl ⟨c, h⟩)
  · exact Or.inr (Or.inr ⟨cause, h⟩)

def money : Ty := ⟨.ofName "Money", .struct⟩

def euro : Ty := ⟨.ofName "Euro", .struct⟩

/-- Money can be added to anything. -/
def moneyAny : Member := Member.operator money.id "opAdd" [money, Ty.object] money

/-- A euro can be added to money. -/
def moneyEuro : Member := Member.operator euro.id "opAdd" [money, euro] euro

/-- Two types with an overload each, and more if wanted. -/
def currencies (more : List Registration) : Context :=
  ⟨.made ([.primitives, .struct "Money", .struct "Euro", .member moneyAny, .member moneyEuro]
    ++ more), {}⟩

def plus : Operator := .binary (.arithmetic .add)

/-- Money plus a euro, as money and an object. -/
def boxedEuro : Candidate := ⟨moneyAny, [.identity, .boxing euro], .ofNat 4, false⟩

/-- Money plus a euro, as they are. -/
def asTheyAre : Candidate := ⟨moneyEuro, [.identity, .identity], .zero, false⟩

/-- The overload of euros wins, since it takes both operands as they are. -/
theorem findOperator_outcomes_euro :
    (currencies []).findOperator plus money euro .unknown = .ok (some asTheyAre) := by
  have onLeft : (currencies []).overloads plus money.id [money, euro] = {c | c ∈ [boxedEuro]} :=
    overloads_eq (by decide +kernel)
  have onRight : (currencies []).overloads plus euro.id [money, euro] = {c | c ∈ [asTheyAre]} :=
    overloads_eq (by decide +kernel)
  have below : ∀ d ∈ [boxedEuro] ++ [asTheyAre], d.member.id ≠ asTheyAre.member.id →
      asTheyAre.score < d.score := by decide +kernel
  have alone : ∀ c : Candidate, ¬ Contested {d | d ∈ [c]} := by
    rintro c ⟨d, hd, e, he, apart, -⟩
    exact apart (by rw [List.mem_singleton.mp hd, List.mem_singleton.mp he])
  refine ((findOperator_outcomes _ _ _ _ _ _).2.1 asTheyAre).mpr ?_
  show Foremost ((currencies []).overloads _ _ _ ∪ (currencies []).overloads _ _ _) _
    ∧ ¬ Contested ((currencies []).overloads _ _ _) ∧ ¬ Contested ((currencies []).overloads _ _ _)
  rw [onLeft, onRight]
  refine ⟨⟨Or.inr List.mem_cons_self, ?_⟩, alone _, alone _⟩
  intro d hd
  exact below d (List.mem_append.mpr hd)

/-- Anything can be added to a euro. -/
def anyEuro : Member := Member.operator money.id "opAdd" [Ty.object, euro] money

/-- Money plus a euro, as an object and a euro. -/
def boxedMoney : Candidate := ⟨anyEuro, [.boxing money, .identity], .ofNat 4, false⟩

/-- With one more overload of money, two of them tie.  The one of euros is still the best of
all, but it does not come up any more. -/
theorem findOperator_contested_side :
    Foremost ((currencies [.member anyEuro]).overloads plus money.id [money, euro]
        ∪ (currencies [.member anyEuro]).overloads plus euro.id [money, euro]) asTheyAre
      ∧ ∃ cause, (currencies [.member anyEuro]).findOperator plus money euro .unknown
        = .error (.ambiguous cause .unknown) := by
  have onLeft : (currencies [.member anyEuro]).overloads plus money.id [money, euro]
      = {c | c ∈ [boxedEuro, boxedMoney]} := overloads_eq (by decide +kernel)
  have onRight : (currencies [.member anyEuro]).overloads plus euro.id [money, euro]
      = {c | c ∈ [asTheyAre]} := overloads_eq (by decide +kernel)
  have below : ∀ d ∈ [boxedEuro, boxedMoney] ++ [asTheyAre],
      d.member.id ≠ asTheyAre.member.id → asTheyAre.score < d.score := by decide +kernel
  have apart : boxedEuro.member.id ≠ boxedMoney.member.id := by decide +kernel
  have lowest : ∀ e ∈ [boxedEuro, boxedMoney], boxedEuro.score ≤ e.score := by decide +kernel
  have tied : Contested {c | c ∈ [boxedEuro, boxedMoney]} :=
    ⟨boxedEuro, List.mem_cons_self, boxedMoney, List.mem_cons_of_mem _ List.mem_cons_self, apart,
      rfl, lowest⟩
  refine ⟨?_, (findOperator_ambiguous_iff (Registry.recorded_made _) onLeft onRight).mpr
    (Or.inr (Or.inl tied))⟩
  rw [onLeft, onRight]
  refine ⟨Or.inr List.mem_cons_self, ?_⟩
  intro d hd
  exact below d (List.mem_append.mpr hd)

end Context

end ExprCompiler
