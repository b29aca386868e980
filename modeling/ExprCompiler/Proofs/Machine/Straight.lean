/-
# Code without control flow

What a list of directives does to a stack, with no offsets in it.  `Machine.Does`
is to directives what `Machine.Carries` is to places in code: the directives carry
out a computation on the stack.  The slots stay as they are, and all that is used
of them is a property `P`.

Fragments are proved once against this relation.  Where they are laid in code, it
gives the run of a machine (`Does.carries`).
-/
import ExprCompiler.Proofs.Machine.Running

namespace ExprCompiler.Machine

variable {V T α β : Type} {M : Machine V T} {P : List (Option V) → Prop}

/-- Directives take a stack to another or to a trap, one instruction after the
other. -/
inductive Executes (M : Machine V T) (P : List (Option V) → Prop) :
    List Directive → List V → Except T (List V) → Prop
  | nil (s : List V) : Executes M P [] s (.ok s)
  | step {d : Directive} {i : Instruction} {ds : List Directive} {s s' : List V}
      {r : Except T (List V)} : (∀ labels, d.instruction? labels = some i) →
      (∀ slots o m, P slots → M.act i m ⟨o, s, slots⟩ = .running ⟨m, s', slots⟩) →
      Executes M P ds s' r → Executes M P (d :: ds) s r
  | trap {d : Directive} {i : Instruction} {ds : List Directive} {s : List V} {t : T} :
      (∀ labels, d.instruction? labels = some i) →
      (∀ slots o m, P slots → M.act i m ⟨o, s, slots⟩ = .done (.error t)) →
      Executes M P (d :: ds) s (.error t)

namespace Executes

variable {ds ds' : List Directive} {s s' : List V} {r : Except T (List V)}

theorem append (h : M.Executes P ds s (.ok s')) (h' : M.Executes P ds' s' r) :
    M.Executes P (ds ++ ds') s r := by
  generalize same : (.ok s' : Except T (List V)) = r' at h
  induction h with
  | nil s =>
      cases same
      exact h'
  | step asked acts _ ih => exact .step asked acts (ih same)
  | trap => cases same

theorem append_error {t : T} (h : M.Executes P ds s (.error t)) :
    M.Executes P (ds ++ ds') s (.error t) := by
  generalize same : (.error t : Except T (List V)) = r' at h
  induction h with
  | nil s => cases same
  | step asked acts _ ih => exact .step asked acts (ih same)
  | trap asked acts =>
      cases same
      exact .trap asked acts

theorem carries {em : Emission} {live o e : Nat} {slots : List (Option V)}
    (h : M.Executes (· = slots) ds s r) (laid : em.Laid o ds e) :
    M.Carries em live o s slots e r id := by
  induction h generalizing o with
  | nil s =>
      cases laid.nil_inv
      exact .result rfl
  | @step d i ds s s' r asked acts _ ih =>
      obtain ⟨m, fetched, rest, -⟩ := laid.instruction_inv (asked em.labels)
      have stepped : M.step em ⟨o, s, slots⟩ = .running ⟨m, s', slots⟩ := by
        rw [Machine.step, fetched]
        exact acts slots o m rfl
      exact .of_reaches (.one stepped) (.refl live slots) (ih rest)
  | @trap d i ds s t asked acts =>
      obtain ⟨m, fetched, -, -⟩ := laid.instruction_inv (asked em.labels)
      refine ⟨⟨o, s, slots⟩, .refl _, ?_⟩
      rw [Machine.step, fetched]
      exact acts slots o m rfl

end Executes

/-- Directives carry out a computation and leave what `post` makes of its result. -/
def Does (M : Machine V T) (P : List (Option V) → Prop) (ds : List Directive) (before : List V)
    (x : Except T α) (post : α → List V) : Prop :=
  M.Executes P ds before (x.map post)

namespace Does

variable {ds ds' : List Directive} {before : List V}

theorem result {a : α} {post : α → List V} (same : before = post a) :
    M.Does P [] before (.ok a) post := by
  subst same
  exact .nil _

theorem bind {x : Except T α} {k : α → Except T β} {post : α → List V} {post' : β → List V}
    (first : M.Does P ds before x post) (rest : ∀ a, M.Does P ds' (post a) (k a) post') :
    M.Does P (ds ++ ds') before (x >>= k) post' := by
  cases x with
  | ok a => exact Executes.append first (rest a)
  | error t => exact Executes.append_error first

/-- One instruction carries out what its operation computes. -/
theorem one {d : Directive} {i : Instruction} {x : Except T V} {post : V → List V}
    (asked : ∀ labels, d.instruction? labels = some i)
    (acts : ∀ slots o m, P slots →
      M.act i m ⟨o, before, slots⟩ = .after x fun v => ⟨m, post v, slots⟩) :
    M.Does P [d] before x post := by
  cases x with
  | ok v => exact .step asked acts (.nil _)
  | error t => exact .trap asked acts

/-- Where directives are laid, running carries out what they do. -/
theorem carries {em : Emission} {live o e : Nat} {slots : List (Option V)} {x : Except T α}
    {post : α → List V} (h : M.Does (· = slots) ds before x post) (laid : em.Laid o ds e) :
    M.Carries em live o before slots e x post := by
  have ran : M.Carries em live o before slots e (x.map post) id := Executes.carries h laid
  cases x with
  | ok a => exact ran
  | error t => exact ran

end Does

end ExprCompiler.Machine
