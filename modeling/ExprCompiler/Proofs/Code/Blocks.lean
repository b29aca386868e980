/-
# What a walk over a tree gives

`flatten` works off a list of steps with an accumulator.  Proofs want the code of
a node as one block, between the code of what comes before and after it; that is
`Step.Gives`.  It has one rule for each kind of step, and every list of steps
gives exactly one list of directives (`Step.flatten_gives`).

What holds of all directives of a tree is then a matter of one node:

* each directive is proper (`Element.directives_proper`);
* each label is marked once (`Element.marks_directives`);
* each branch stands before the mark of its label (`Element.directives_forward`).
-/
import ExprCompiler.Code.Walk
import ExprCompiler.Proofs.Code.Fragments

namespace ExprCompiler

namespace Step

/-- The directives of a list of steps, from a first free label to the next one. -/
inductive Gives : Nat → List Step → List Directive → Nat → Prop
  | nil (next : Nat) : Gives next [] [] next
  | emit {next next' : Nat} {d : Directive} {ts : List Step} {ds : List Directive} :
      Gives next ts ds next' → Gives next (.emit d :: ts) (d :: ds) next'
  | visit {next middle next' live : Nat} {e : Element} {ts : List Step}
      {ds ds' : List Directive} :
      Gives (next + e.ownLabels) (e.steps live next) ds middle → Gives middle ts ds' next' →
      Gives next (.visit live e :: ts) (ds ++ ds') next'

/-- Steps give directives, and these are what working the steps off adds. -/
theorem flatten_gives (next : Nat) (ts : List Step) :
    ∃ ds next', Gives next ts ds next' ∧ ∀ done rest,
      flatten next done (ts ++ rest) = flatten next' (done ++ ds) rest := by
  match ts with
  | [] => exact ⟨[], next, .nil next, fun done rest => by simp⟩
  | .emit d :: ts =>
      obtain ⟨ds, next', given, adds⟩ := flatten_gives next ts
      refine ⟨d :: ds, next', .emit given, ?_⟩
      intro done rest
      rw [List.cons_append, flatten, adds]
      exact congrArg (flatten next' · rest) (Array.ext' (by simp))
  | .visit live e :: ts =>
      obtain ⟨ds, middle, given, adds⟩ :=
        flatten_gives (next + e.ownLabels) (e.steps live next)
      obtain ⟨ds', next', given', adds'⟩ := flatten_gives middle ts
      refine ⟨ds ++ ds', next', .visit given given', ?_⟩
      intro done rest
      rw [List.cons_append, flatten, adds, adds']
      exact congrArg (flatten next' · rest) (Array.ext' (by simp))
termination_by (weight ts, ts.length)
decreasing_by
  · simp [weight, Prod.lex_def]
  · have := e.weight_steps_lt live next
    simp only [weight, Prod.lex_def]
    omega
  · have := e.weight_steps_lt live next
    simp only [weight, Prod.lex_def]
    omega

theorem Gives.le {next next' : Nat} {ts : List Step} {ds : List Directive}
    (h : Gives next ts ds next') : next ≤ next' := by
  induction h with
  | nil next => exact Nat.le_refl next
  | emit _ ih => exact ih
  | visit _ _ ih ih' => omega

theorem Gives.append_inv {next next' : Nat} {ts us : List Step} {ds : List Directive}
    (h : Gives next (ts ++ us) ds next') :
    ∃ middle front back, ds = front ++ back ∧ Gives next ts front middle
      ∧ Gives middle us back next' := by
  induction ts generalizing next ds with
  | nil => exact ⟨next, [], ds, rfl, .nil next, h⟩
  | cons t ts ih =>
      cases h with
      | emit rest =>
          obtain ⟨middle, front, back, rfl, given, given'⟩ := ih rest
          exact ⟨middle, _, back, rfl, .emit given, given'⟩
      | visit first rest =>
          obtain ⟨middle, front, back, rfl, given, given'⟩ := ih rest
          exact ⟨middle, _, back, (List.append_assoc ..).symm, .visit first given, given'⟩

/-- What holds of the directives that nodes emit themselves holds of all. -/
theorem Gives.forall {P : Directive → Prop}
    (node : ∀ (e : Element) (live next : Nat) (d : Directive), .emit d ∈ e.steps live next → P d)
    {next next' : Nat} {ts : List Step} {ds : List Directive} (h : Gives next ts ds next')
    (own : ∀ d, .emit d ∈ ts → P d) : ∀ d ∈ ds, P d := by
  induction h with
  | nil next => exact fun d hd => absurd hd List.not_mem_nil
  | emit _ ih =>
      intro d hd
      rcases List.mem_cons.mp hd with rfl | later
      · exact own d List.mem_cons_self
      · exact ih (fun d hd => own d (List.mem_cons_of_mem _ hd)) d later
  | visit _ _ ih ih' =>
      intro d hd
      rcases List.mem_append.mp hd with inside | later
      · exact ih (fun d hd => node _ _ _ d hd) d inside
      · exact ih' (fun d hd => own d (List.mem_cons_of_mem _ hd)) d later

end Step

/-! ## Control flow inside one node

Most nodes have none: their own directives are straight. -/

namespace Step

/-- All directives of the steps themselves, visits apart, have a property. -/
structure Each (P : Directive → Prop) (ts : List Step) : Prop where
  each : ∀ d, .emit d ∈ ts → P d

/-- Steps without control flow of their own. -/
abbrev Calm (ts : List Step) : Prop := Each Directive.Straight ts

section Each

variable {P : Directive → Prop} {ts us : List Step}

theorem each_append (h : Each P ts) (h' : Each P us) : Each P (ts ++ us) := by
  refine ⟨?_⟩
  intro d hd
  rcases List.mem_append.mp hd with hd | hd
  · exact h.each d hd
  · exact h'.each d hd

theorem each_nil : Each P [] := ⟨fun _ hd => absurd hd List.not_mem_nil⟩

theorem each_visit {live : Nat} {e : Element} (h : Each P ts) :
    Each P (.visit live e :: ts) := by
  refine ⟨?_⟩
  intro d hd
  rcases List.mem_cons.mp hd with hd | hd
  · cases hd
  · exact h.each d hd

theorem each_emit {d : Directive} (hd : P d) (h : Each P ts) : Each P (.emit d :: ts) := by
  refine ⟨?_⟩
  intro d' hd'
  rcases List.mem_cons.mp hd' with same | hd'
  · cases same
    exact hd
  · exact h.each d' hd'

theorem each_emits {ds : List Directive} (h : ∀ d ∈ ds, P d) : Each P (emits ds) := by
  refine ⟨?_⟩
  intro d hd
  obtain ⟨d', hd', same⟩ := List.mem_map.mp hd
  cases same
  exact h d hd'

theorem Calm.proper (h : Calm ts) : Each Directive.Proper ts :=
  ⟨fun d hd => (h.each d hd).proper⟩

end Each

theorem calm_operand (live : Nat) (e : Element) (c : Conversion) : Calm (operand live e c) :=
  each_visit (each_emits c.straight_directives)

theorem calm_binary (live : Nat) (left right : Element) (cs : Conversion × Conversion)
    {ds : List Directive} (h : ∀ d ∈ ds, d.Straight) :
    Calm (binary live left right cs ds) :=
  each_append (each_append (calm_operand ..) (calm_operand ..)) (each_emits h)

theorem calm_arithmetic (live : Nat) (op : ArithmeticOp) (plan : ArithmeticPlan)
    (left right : Element) : Calm (arithmetic live op plan left right) := by
  cases plan with
  | operator call => exact calm_binary _ _ _ _ call.straight_directives
  | numeric kind checked unsigned l r =>
      exact calm_binary _ _ _ _ (Directive.straight_singleton (op.operandSize_opcode _ _))
  | concat helper l r =>
      exact calm_binary _ _ _ _ (Directive.straight_singleton (Or.inl rfl))
  | powerUnrolled exponent kind checked =>
      refine each_visit (each_emits (Directive.straight_append ?_ ?_))
      · exact Directive.straight_cons (storeTemporary_straight live)
          (powerDirectives_straight (ArithmeticOp.mul.operandSize_opcode _ _) exponent)
      · exact narrowPower_straight kind checked
  | powerCall l r =>
      exact calm_binary _ _ _ _ (Directive.straight_singleton (Or.inl rfl))

theorem calm_shift (live : Nat) (op : ShiftOp) (plan : ShiftPlan) (left right : Element) :
    Calm (shift live op plan left right) := by
  cases plan with
  | operator call => exact calm_binary _ _ _ _ call.straight_directives
  | numeric kind l r => exact calm_binary _ _ _ _ (op.straight_directives kind)

theorem calm_unary (live : Nat) (plan : UnaryPlan) (e : Element) :
    Calm (unary live plan e) := by
  cases plan with
  | operator call =>
      exact each_append (calm_operand ..) (each_emits call.straight_directives)
  | negate kind checked c =>
      cases checked with
      | true =>
          exact each_emit trivial (each_append (calm_operand ..) (each_emit rfl each_nil))
      | false => exact each_append (calm_operand ..) (each_emit rfl each_nil)
  | plus c => exact calm_operand ..
  | not => exact each_visit (each_emit rfl each_nil)
  | complement kind c => exact each_append (calm_operand ..) (each_emit rfl each_nil)

theorem calm_logical (live first : Nat) (op : LogicalOp) {plan : LogicalPlan}
    (left right : Element) (h : plan ≠ .shortCircuit) :
    Calm (logical live first op plan left right) := by
  have plain : op.opcode.operandSize = 0 := by cases op <;> rfl
  cases plan with
  | operator call => exact calm_binary _ _ _ _ call.straight_directives
  | shortCircuit => exact absurd rfl h
  | boolXor => exact each_visit (each_visit (each_emit rfl each_nil))
  | bitwise kind l r => exact calm_binary _ _ _ _ (Directive.straight_singleton plain)

theorem calm_receiver (live : Nat) (source : Receiver Element) : Calm (receiver live source) := by
  cases source with
  | target e => exact each_visit each_nil
  | owner => exact each_emit rfl each_nil
  | static => exact each_nil

theorem calm_arguments (live : Nat) (args : List Element) (conversions : List Conversion) :
    Calm (arguments live args conversions) := by
  induction args generalizing conversions with
  | nil => exact each_nil
  | cons e args ih => exact each_append (calm_operand ..) (ih conversions.tail)

end Step

/-- A node without labels of its own has no control flow of its own. -/
theorem Element.calm_steps {e : Element} (h : e.ownLabels = 0) (live first : Nat) :
    Step.Calm (e.steps live first) := by
  refine Step.each_emit trivial ?_
  cases e with
  | literal info v => exact Step.each_emits v.straight_directives
  | arithmetic info op plan left right => exact Step.calm_arithmetic ..
  | compare info op plan left right =>
      exact Step.calm_binary _ _ _ _ (plan.straight_directives op)
  | shift info op plan left right => exact Step.calm_shift ..
  | unary info op plan e => exact Step.calm_unary ..
  | logical info op plan left right =>
      refine Step.calm_logical live first op left right ?_
      rintro rfl
      exact absurd h (by simp [ownLabels])
  | cast info plan e => exact Step.each_visit (Step.each_emits plan.straight_directives)
  | conditional => exact absurd h (by simp [ownLabels])
  | inList => exact absurd h (by simp [ownLabels])
  | inCollection info conversion contains probe collection =>
      refine Step.each_visit (Step.each_append (Step.calm_operand ..) ?_)
      exact Step.each_emit (Or.inr rfl) Step.each_nil
  | read info access member source =>
      refine Step.each_append (Step.calm_receiver ..) ?_
      exact Step.each_emit (access.straight_directive ..) Step.each_nil
  | call info target source args =>
      refine Step.each_append (Step.each_append (Step.calm_receiver ..) ?_) ?_
      · exact Step.calm_arguments ..
      · exact Step.each_emits target.straight_directives
  | root info conversion child =>
      exact Step.each_append (Step.calm_operand ..) (Step.each_emit rfl Step.each_nil)

/-! ## Labels

A node marks its own labels once each, in order, and its own branches come
before the marks they go to.  Both carry over from nodes to trees, because the
labels of operands are numbered after those of the node. -/

/-- The label that a directive branches to. -/
def Directive.branch? : Directive → Option Nat
  | .branch _ label => some label
  | _ => none

/-- Every branch stands before the mark of its label. -/
def Directive.Forward : List Directive → Prop
  | [] => True
  | d :: ds => (∀ k, d.branch? = some k → k ∈ marks ds) ∧ Forward ds

namespace Step

def mark? : Step → Option Nat
  | .emit d => d.mark?
  | .visit _ _ => none

/-- The labels that steps mark themselves. -/
def marks (ts : List Step) : List Nat := ts.filterMap mark?

def branch? : Step → Option Nat
  | .emit d => d.branch?
  | .visit _ _ => none

/-- The labels that steps branch to themselves. -/
def branches (ts : List Step) : List Nat := ts.filterMap branch?

/-- Every branch of the steps themselves stands before the mark of its label. -/
def Forward : List Step → Prop
  | [] => True
  | t :: ts => (∀ k, t.branch? = some k → k ∈ marks ts) ∧ Forward ts

theorem marks_append (ts us : List Step) : marks (ts ++ us) = marks ts ++ marks us :=
  List.filterMap_append

theorem branches_append (ts us : List Step) :
    branches (ts ++ us) = branches ts ++ branches us :=
  List.filterMap_append

theorem Calm.marks {ts : List Step} (h : Calm ts) : marks ts = [] := by
  refine List.filterMap_eq_nil_iff.mpr ?_
  intro t ht
  cases t with
  | visit live e => rfl
  | emit d =>
      have straight := h.each d ht
      cases d with
      | mark label => exact straight.elim
      | _ => rfl

theorem Calm.branches {ts : List Step} (h : Calm ts) : branches ts = [] := by
  refine List.filterMap_eq_nil_iff.mpr ?_
  intro t ht
  cases t with
  | visit live e => rfl
  | emit d =>
      have straight := h.each d ht
      cases d with
      | branch kind label => exact straight.elim
      | _ => rfl

theorem forward_append {ts us : List Step} (h : ∀ k ∈ branches ts, k ∈ marks us)
    (hu : Forward us) : Forward (ts ++ us) := by
  induction ts with
  | nil => exact hu
  | cons t ts ih =>
      refine ⟨fun k hk => ?_, ih (fun k hk => h k ?_)⟩
      · show k ∈ marks (ts ++ us)
        rw [marks_append]
        exact List.mem_append_right _ (h k (List.mem_filterMap.mpr ⟨t, List.mem_cons_self, hk⟩))
      · obtain ⟨t', ht', hk⟩ := List.mem_filterMap.mp hk
        exact List.mem_filterMap.mpr ⟨t', List.mem_cons_of_mem _ ht', hk⟩

theorem forward_of_branches {ts : List Step} (h : branches ts = []) : Forward ts := by
  rw [← List.append_nil ts]
  refine forward_append (fun k hk => ?_) trivial
  rw [h] at hk
  cases hk

theorem marks_items (live hit : Nat) (slot : UInt8) (list : List (ComparePlan × Element)) :
    marks (items live hit slot list) = [] := by
  induction list with
  | nil => rfl
  | cons item rest ih =>
      obtain ⟨plan, e⟩ := item
      have load : Calm (emits (.opByte .getLocal slot :: plan.operandConversions.1.directives)) :=
        each_emits (Directive.straight_cons (Or.inl rfl) (Conversion.straight_directives _))
      have test : marks (emits (plan.directives .eq ++ [Directive.branch .ifTrue hit])) = [] := by
        rw [emits, List.map_append, marks_append]
        have : marks (emits (plan.directives .eq)) = [] :=
          Calm.marks (each_emits (plan.straight_directives .eq))
        exact List.append_eq_nil_iff.mpr ⟨this, rfl⟩
      rw [items, marks_append, marks_append, marks_append, load.marks,
        (calm_operand ..).marks, test, ih]
      rfl

theorem branches_items (live hit : Nat) (slot : UInt8) (list : List (ComparePlan × Element)) :
    ∀ k ∈ branches (items live hit slot list), k = hit := by
  induction list with
  | nil => exact fun k hk => absurd hk List.not_mem_nil
  | cons item rest ih =>
      obtain ⟨plan, e⟩ := item
      have load : Calm (emits (.opByte .getLocal slot :: plan.operandConversions.1.directives)) :=
        each_emits (Directive.straight_cons (Or.inl rfl) (Conversion.straight_directives _))
      have test : branches (emits (plan.directives .eq ++ [Directive.branch .ifTrue hit]))
              = [hit] := by
        rw [emits, List.map_append, branches_append]
        have : branches (emits (plan.directives .eq)) = [] :=
          Calm.branches (each_emits (plan.straight_directives .eq))
        rw [emits] at this
        rw [this]
        rfl
      rw [items, branches_append, branches_append, branches_append, load.branches,
        (calm_operand ..).branches, test]
      intro k hk
      rcases List.mem_append.mp hk with here | later
      · exact List.mem_singleton.mp here
      · exact ih k later

theorem proper_items (live hit : Nat) (slot : UInt8) (list : List (ComparePlan × Element)) :
    Each Directive.Proper (items live hit slot list) := by
  induction list with
  | nil => exact each_nil
  | cons item rest ih =>
      obtain ⟨plan, e⟩ := item
      refine each_append (each_append (each_append ?_ ?_) ?_) ih
      · exact each_emit (Or.inl rfl)
          (Calm.proper (each_emits (Conversion.straight_directives _)))
      · exact Calm.proper (calm_operand ..)
      · refine each_emits ?_
        intro d hd
        rcases List.mem_append.mp hd with hd | hd
        · exact (plan.straight_directives .eq d hd).proper
        · rw [List.mem_singleton.mp hd]
          exact trivial

end Step

namespace Element

/-- Steps that branch ahead and steps that mark, one after the other. -/
theorem labels_append {ts us : List Step} {labels : List Nat} (noMarks : Step.marks ts = [])
    (marks : Step.marks us = labels) (ahead : ∀ k ∈ Step.branches ts, k ∈ labels)
    (noBranches : Step.branches us = []) :
    Step.marks (ts ++ us) = labels ∧ Step.Forward (ts ++ us) := by
  refine ⟨by rw [Step.marks_append, noMarks, marks]; rfl, Step.forward_append ?_ ?_⟩
  · rw [marks]
    exact ahead
  · exact Step.forward_of_branches noBranches

theorem labels_conditional (info : NodeInfo) (onTrue onFalse : Conversion)
    (condition whenTrue whenFalse : Element) (live first : Nat) :
    Step.marks ((conditional info onTrue onFalse condition whenTrue whenFalse).steps live first)
        = [first, first + 1]
      ∧ Step.Forward
        ((conditional info onTrue onFalse condition whenTrue whenFalse).steps live first) := by
  have shape : (conditional info onTrue onFalse condition whenTrue whenFalse).steps live first
      = ([.emit (.line info.span.line), .visit live condition,
            .emit (.branch .ifFalse first)] ++ Step.operand live whenTrue onTrue
          ++ [Step.emit (.branch .always (first + 1))])
        ++ ([.emit (.mark first)] ++ Step.operand live whenFalse onFalse
          ++ [Step.emit (.mark (first + 1))]) := by
    simp [steps, body, span, Element.info]
  have calmTrue := Step.calm_operand live whenTrue onTrue
  have calmFalse := Step.calm_operand live whenFalse onFalse
  rw [shape]
  refine labels_append ?_ ?_ ?_ ?_
  · rw [Step.marks_append, Step.marks_append, calmTrue.marks]
    rfl
  · rw [Step.marks_append, Step.marks_append, calmFalse.marks]
    rfl
  · rw [Step.branches_append, Step.branches_append, calmTrue.branches]
    exact fun k hk => hk
  · rw [Step.branches_append, Step.branches_append, calmFalse.branches]
    rfl

theorem labels_inList (info : NodeInfo) (probe : Element) (list : List (ComparePlan × Element))
    (live first : Nat) :
    Step.marks ((inList info probe list).steps live first) = [first, first + 1]
      ∧ Step.Forward ((inList info probe list).steps live first) := by
  have shape : (inList info probe list).steps live first
      = ([.emit (.line info.span.line), .visit live probe, .emit (storeTemporary live)]
          ++ Step.items (live + 1) first (UInt8.ofNat live) list
          ++ [Step.emit (.op .pushFalse), .emit (.branch .always (first + 1))])
        ++ [Step.emit (.mark first), .emit (.op .pushTrue), .emit (.mark (first + 1))] := by
    simp [steps, body, span, Element.info, Step.emits]
  have calm : Step.Calm [.emit (.line info.span.line), .visit live probe,
      .emit (storeTemporary live)] :=
    Step.each_emit trivial (Step.each_visit
      (Step.each_emit (storeTemporary_straight live) Step.each_nil))
  rw [shape]
  refine labels_append ?_ rfl ?_ rfl
  · rw [Step.marks_append, Step.marks_append, calm.marks, Step.marks_items]
    rfl
  · rw [Step.branches_append, Step.branches_append, calm.branches, List.nil_append]
    intro k hk
    rcases List.mem_append.mp hk with hk | hk
    · rw [Step.branches_items _ _ _ _ k hk]
      exact List.mem_cons_self
    · exact List.mem_cons_of_mem _ hk

/-- A node marks its own labels in order and branches forward to them. -/
theorem labels_steps (e : Element) (live first : Nat) :
    Step.marks (e.steps live first) = List.range' first e.ownLabels
      ∧ Step.Forward (e.steps live first) := by
  have calm (h : e.ownLabels = 0) : Step.marks (e.steps live first) = List.range' first e.ownLabels
      ∧ Step.Forward (e.steps live first) := by
    have := e.calm_steps h live first
    rw [h]
    exact ⟨this.marks, Step.forward_of_branches this.branches⟩
  cases e with
  | logical info op plan left right =>
      cases plan with
      | shortCircuit =>
          exact @labels_append [_, _, _, _, _, _] [_] _ rfl rfl (fun k hk => hk) rfl
      | _ => exact calm rfl
  | conditional info onTrue onFalse condition whenTrue whenFalse =>
      exact labels_conditional ..
  | inList info probe list => exact labels_inList ..
  | _ => exact calm rfl

/-- What a node emits itself is proper. -/
theorem proper_steps (e : Element) (live first : Nat) :
    Step.Each Directive.Proper (e.steps live first) := by
  have calm (h : e.ownLabels = 0) : Step.Each Directive.Proper (e.steps live first) :=
    Step.Calm.proper (e.calm_steps h live first)
  have operand (live : Nat) (x : Element) (c : Conversion) :
      Step.Each Directive.Proper (Step.operand live x c) :=
    Step.Calm.proper (Step.calm_operand live x c)
  cases e with
  | logical info op plan left right =>
      cases plan with
      | shortCircuit =>
          exact Step.each_emit trivial (Step.each_visit (Step.each_emit rfl
            (Step.each_emit trivial (Step.each_emit rfl (Step.each_visit
              (Step.each_emit trivial Step.each_nil))))))
      | _ => exact calm rfl
  | conditional info onTrue onFalse condition whenTrue whenFalse =>
      refine Step.each_emit trivial (Step.each_append (Step.each_append (Step.each_append ?_ ?_)
        (operand ..)) (Step.each_emit trivial Step.each_nil))
      · exact Step.each_visit (Step.each_emit trivial (operand ..))
      · exact Step.each_emit trivial (Step.each_emit trivial Step.each_nil)
  | inList info probe list =>
      refine Step.each_emit trivial (Step.each_append (Step.each_visit (Step.each_emit
        (storeTemporary_straight live).proper (Step.proper_items ..))) ?_)
      exact Step.each_emit rfl (Step.each_emit trivial (Step.each_emit trivial
        (Step.each_emit rfl (Step.each_emit trivial Step.each_nil))))
  | _ => exact calm rfl

end Element

/-! ## Trees -/

theorem Directive.Forward.append {ds ds' : List Directive} (h : Forward ds) (h' : Forward ds') :
    Forward (ds ++ ds') := by
  induction ds with
  | nil => exact h'
  | cons d ds ih =>
      refine ⟨fun k hk => ?_, ih h.2⟩
      show k ∈ marks (ds ++ ds')
      rw [marks_append]
      exact List.mem_append_left _ (h.1 k hk)

namespace Step

theorem marks_emit (d : Directive) (ts : List Step) :
    marks (.emit d :: ts) = d.mark?.toList ++ marks ts := by
  simp only [marks]
  rw [List.filterMap_cons, mark?]
  cases d.mark? <;> rfl

/-- A label is marked as often as the steps mark it themselves, and once if it
belongs to a node among them. -/
theorem Gives.count_marks {next next' : Nat} {ts : List Step} {ds : List Directive}
    (h : Gives next ts ds next') (k : Nat) :
    (Directive.marks ds).count k
      = (marks ts).count k + if next ≤ k ∧ k < next' then 1 else 0 := by
  induction h with
  | nil next =>
      rw [if_neg (by omega)]
      rfl
  | @emit next next' d ts ds given ih =>
      rw [Directive.marks_cons, marks_emit, List.count_append, List.count_append, ih]
      omega
  | @visit next middle next' live e ts ds ds' given given' ih ih' =>
      have low := given.le
      have high := given'.le
      have skip : marks (.visit live e :: ts) = marks ts := rfl
      rw [Directive.marks_append, List.count_append, ih, ih', skip,
        (e.labels_steps live next).1, (List.nodup_range' 1 (by decide)).count]
      simp only [List.mem_range'_1]
      -- the node's own labels, then those inside it, then those after it
      split <;> split <;> split <;> split <;> omega

/-- Nodes branch forward, so trees do. -/
theorem Gives.forward {next next' : Nat} {ts : List Step} {ds : List Directive}
    (h : Gives next ts ds next') (own : Forward ts) : Directive.Forward ds := by
  induction h with
  | nil next => exact trivial
  | emit given ih =>
      refine ⟨fun k hk => ?_, ih own.2⟩
      have marked := own.1 k hk
      refine List.count_pos_iff.mp ?_
      rw [given.count_marks k]
      exact Nat.lt_of_lt_of_le (List.count_pos_iff.mpr marked) (Nat.le_add_right _ _)
  | visit given given' ih ih' => exact (ih (Element.labels_steps _ _ _).2).append (ih' own.2)

end Step

namespace Element

theorem directives_given (e : Element) :
    ∃ next', Step.Gives 0 [.visit 0 e] e.directives next' := by
  obtain ⟨ds, next', given, adds⟩ := Step.flatten_gives 0 [.visit 0 e]
  have all := adds #[] []
  rw [List.append_nil, flatten] at all
  have same : e.directives = ds := by
    rw [directives, all]
    simp
  exact ⟨next', same ▸ given⟩

theorem directives_proper (e : Element) : ∀ d ∈ e.directives, d.Proper := by
  obtain ⟨next', given⟩ := e.directives_given
  exact given.forall (fun e live next d hd => (e.proper_steps live next).each d hd)
    (fun d hd => by simp at hd)

/-- No label is marked twice. -/
theorem marks_directives (e : Element) : (Directive.marks e.directives).Nodup := by
  obtain ⟨next', given⟩ := e.directives_given
  refine List.nodup_iff_count.mpr ?_
  intro k
  rw [given.count_marks k]
  show 0 + _ ≤ 1
  split <;> omega

theorem directives_forward (e : Element) : Directive.Forward e.directives := by
  obtain ⟨next', given⟩ := e.directives_given
  exact given.forward ⟨nofun, trivial⟩

/-- The code of a root ends with a return. -/
theorem directives_root {e : Element} (h : e.isRoot) :
    ∃ ds, e.directives = ds ++ [Directive.op .ret] := by
  obtain ⟨next', given⟩ := e.directives_given
  cases e with
  | root info conversion child =>
      generalize (root info conversion child).directives = all at given ⊢
      cases given with
      | visit inside after =>
          cases after
          have shape : (root info conversion child).steps 0 0
              = (.emit (.line info.span.line) :: Step.operand 0 child conversion)
                ++ [Step.emit (.op .ret)] := rfl
          rw [shape] at inside
          obtain ⟨middle, front, back, rfl, -, last⟩ := inside.append_inv
          cases last with
          | emit rest =>
              cases rest
              exact ⟨front, List.append_nil _⟩
  | _ => cases h

end Element

end ExprCompiler
