/-
# What overload resolution chooses

Resolution scores, sorts and compares, but what it returns is always one of the
members it was given, in one of its forms, with one implicit conversion for each
argument.  Later proofs need no more than that, so scores never come up again.
-/
import ExprCompiler.Overload.Resolve
import ExprCompiler.Proofs.Results

namespace ExprCompiler

namespace Context

variable {ctx : Context}

/-- The parameter types of a member in one of its forms. -/
def Form (ctx : Context) (m : Member) (params : List Ty) : Prop :=
  match m.variadic with
  | none => params = m.params
  | some element =>
    params = m.params ++ [ctx.arrayType element]
      ∨ ∃ n, params = m.params ++ List.replicate n element

/-- A candidate is a form of a member with a conversion for each argument. -/
structure Fits (ctx : Context) (args : List Ty) (c : Candidate) : Prop where
  form : ∃ params, ctx.Form c.member params ∧ ctx.convertAll? args params = some c.conversions

/-- A candidate for a member among some. -/
structure Chosen (ctx : Context) (members : List Member) (args : List Ty) (c : Candidate) :
    Prop extends ctx.Fits args c where
  member : c.member ∈ members

theorem convertAll?_length {args params : List Ty} {cs : List Conversion}
    (h : ctx.convertAll? args params = some cs) : cs.length = args.length := by
  fun_induction convertAll? ctx args params generalizing cs with
  | case1 =>
      cases h
      rfl
  | case2 a args p params ih =>
      simp only [Option.bind_eq_bind, Option.bind_eq_some_iff] at h
      obtain ⟨c, -, rest, found, h⟩ := h
      cases h
      rw [List.length_cons, List.length_cons, ih found]
  | case3 => cases h

theorem Fits.length {args : List Ty} {c : Candidate} (h : ctx.Fits args c) :
    c.conversions.length = args.length := by
  obtain ⟨params, -, converted⟩ := h.form
  exact convertAll?_length converted

theorem scoreForm?_ok {m : Member} {args params : List Ty} {expanded : Bool} {c : Candidate}
    (h : ctx.scoreForm? m args params expanded = some c) :
    c.member = m ∧ ctx.convertAll? args params = some c.conversions := by
  obtain ⟨conversions, found, rfl⟩ := Option.map_eq_some_iff.mp h
  exact ⟨rfl, found⟩

theorem arrayForm?_fits {m : Member} {element : Ty} {args : List Ty} {c : Candidate}
    (variadic : m.variadic = some element) (h : ctx.arrayForm? m element args = some c) :
    c.member = m ∧ ctx.Fits args c := by
  obtain ⟨rfl, converted⟩ := scoreForm?_ok h
  refine ⟨rfl, _, ?_, converted⟩
  simp only [Form]
  rw [variadic]
  exact Or.inl rfl

theorem expandedForm?_fits {m : Member} {element : Ty} {args : List Ty} {c : Candidate}
    (variadic : m.variadic = some element) (h : ctx.expandedForm? m element args = some c) :
    c.member = m ∧ ctx.Fits args c := by
  simp only [expandedForm?] at h
  split at h
  · cases h
  · obtain ⟨rfl, converted⟩ := scoreForm?_ok h
    refine ⟨rfl, _, ?_, converted⟩
    simp only [Form]
    rw [variadic]
    exact Or.inr ⟨_, rfl⟩

theorem candidate?_fits {m : Member} {args : List Ty} {c : Candidate}
    (h : ctx.candidate? m args = some c) : c.member = m ∧ ctx.Fits args c := by
  simp only [candidate?] at h
  split at h
  · next plain =>
      obtain ⟨rfl, converted⟩ := scoreForm?_ok h
      refine ⟨rfl, _, ?_, converted⟩
      unfold Form
      rw [plain]
  · next element variadic =>
      split at h
      · next direct expanded foundDirect foundExpanded =>
          split at h
          · cases h
            exact expandedForm?_fits variadic foundExpanded
          · cases h
            exact arrayForm?_fits variadic foundDirect
      · next direct foundDirect _ =>
          cases h
          exact arrayForm?_fits variadic foundDirect
      · next found _ => exact expandedForm?_fits variadic h

theorem chosen_of_viable {members : List Member} {args : List Ty} {c : Candidate}
    (h : c ∈ ctx.viable members args) : ctx.Chosen members args c := by
  obtain ⟨m, mem, found⟩ := List.mem_filterMap.mp h
  obtain ⟨rfl, fits⟩ := candidate?_fits found
  exact ⟨fits, mem⟩

theorem bestCandidate_mem {name : String} {viable : List Candidate} {span : Span}
    {c : Candidate} (h : ctx.bestCandidate name viable span = .ok c) : c ∈ viable := by
  have first {best : Candidate} {rest : List Candidate}
      (sorted : viable.mergeSort (fun a b => decide (a.score ≤ b.score)) = best :: rest) :
      best ∈ viable := by
    have mem : best ∈ viable.mergeSort (fun a b => decide (a.score ≤ b.score)) := by
      rw [sorted]
      exact List.mem_cons_self
    exact List.mem_mergeSort.mp mem
  simp only [bestCandidate] at h
  split at h
  · cases h
  · next sorted =>
      cases h
      exact first sorted
  · next sorted =>
      split at h
      · cases h
      · cases h
        exact first sorted

theorem resolveOverload_chosen {name : String} {members : List Member} {args : List Ty}
    {span : Span} {c : Candidate} (h : ctx.resolveOverload name members args span = .ok c) :
    ctx.Chosen members args c := by
  simp only [resolveOverload] at h
  split at h
  · cases h
  · exact chosen_of_viable (bestCandidate_mem h)

/-! ## Operators -/

/-- An overload of an operator for operand types. -/
def Overload (ctx : Context) (op : Operator) (args : List Ty) (c : Candidate) : Prop :=
  ∃ owner, ctx.Chosen (ctx.operatorsOn op owner) args c

theorem bestOn_overload {op : Operator} {owner : HostId} {args : List Ty} {span : Span}
    {c : Candidate} (h : ctx.bestOn op owner args span = .ok (some c)) :
    ctx.Overload op args c := by
  simp only [bestOn] at h
  split at h
  · cases h
  · obtain ⟨found, best, same⟩ := map_eq_ok h
    cases same
    exact ⟨owner, chosen_of_viable (bestCandidate_mem best)⟩

theorem betterOperator_overload {op : Operator} {args : List Ty} {l r c : Candidate}
    {span : Span} (hl : ctx.Overload op args l) (hr : ctx.Overload op args r)
    (h : ctx.betterOperator op l r span = .ok c) : ctx.Overload op args c := by
  simp only [betterOperator] at h
  split at h
  · cases h
    exact hl
  · split at h
    · cases h
      exact hl
    · split at h
      · cases h
        exact hr
      · cases h

theorem findOperator_overload {op : Operator} {left right : Ty} {span : Span} {c : Candidate}
    (h : ctx.findOperator op left right span = .ok (some c)) :
    ctx.Overload op [left, right] c := by
  simp only [findOperator] at h
  obtain ⟨onLeft, foundLeft, h⟩ := bind_eq_ok h
  split at h
  · cases h
    exact bestOn_overload foundLeft
  · obtain ⟨onRight, foundRight, h⟩ := bind_eq_ok h
    split at h
    · obtain ⟨better, found, same⟩ := map_eq_ok h
      cases same
      exact betterOperator_overload (bestOn_overload foundLeft) (bestOn_overload foundRight) found
    · cases h
      exact bestOn_overload foundLeft
    · cases h
      exact bestOn_overload foundRight

theorem findUnaryOperator_overload {op : Operator} {operand : Ty} {span : Span} {c : Candidate}
    (h : ctx.findUnaryOperator op operand span = .ok (some c)) :
    ctx.Overload op [operand] c :=
  bestOn_overload h

end Context

end ExprCompiler
