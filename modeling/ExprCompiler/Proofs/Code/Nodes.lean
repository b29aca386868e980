/-
# The code of a node

`Emission.Placed` puts the two views of code together: the steps of a node, whose
visits stand for blocks of their own, and the offsets at which those blocks lie.
Whoever reasons about the code of a node takes its steps one after the other
(`emits_inv`, `operand_inv`, `append_inv`) and meets every operand as the code of
a node again (`Emission.Block`).
-/
import ExprCompiler.Compile
import ExprCompiler.Proofs.Code.Blocks
import ExprCompiler.Proofs.Code.Placement

namespace ExprCompiler

namespace Emission

/-- The code of a list of steps, from a first free label and an offset to the
next free label and offset. -/
inductive Placed (em : Emission) : Nat → Nat → List Step → Nat → Nat → Prop
  | nil (next o : Nat) : Placed em next o [] next o
  | emit {next next' o m e : Nat} {d : Directive} {ts : List Step} :
      em.Laid o [d] m → Placed em next m ts next' e → Placed em next o (.emit d :: ts) next' e
  | visit {next middle next' o m e live : Nat} {x : Element} {ts : List Step} :
      Placed em (next + x.ownLabels) o (x.steps live next) middle m →
      Placed em middle m ts next' e → Placed em next o (.visit live x :: ts) next' e

/-- The code of a node whose first own label is `next`, with `live` temporary
slots in use around it. -/
def Block (em : Emission) (live next o : Nat) (x : Element) (next' e : Nat) : Prop :=
  em.Placed (next + x.ownLabels) o (x.body live next) next' e

namespace Placed

variable {em : Emission} {next next' o e : Nat} {ts us : List Step}

theorem of_gives {ds : List Directive} (given : Step.Gives next ts ds next')
    (laid : em.Laid o ds e) : em.Placed next o ts next' e := by
  induction given generalizing o e with
  | nil next =>
      cases laid.nil_inv
      exact .nil next o
  | @emit next next' d ts ds _ ih =>
      rw [← List.singleton_append] at laid
      obtain ⟨m, first, rest⟩ := laid.append_inv
      exact .emit first (ih rest)
  | visit _ _ ih ih' =>
      obtain ⟨m, inside, after⟩ := laid.append_inv
      exact .visit (ih inside) (ih' after)

theorem append_inv (h : em.Placed next o (ts ++ us) next' e) :
    ∃ middle m, em.Placed next o ts middle m ∧ em.Placed middle m us next' e := by
  induction ts generalizing next o with
  | nil => exact ⟨next, o, .nil next o, h⟩
  | cons t ts ih =>
      cases h with
      | emit first rest =>
          obtain ⟨middle, m, left, right⟩ := ih rest
          exact ⟨middle, m, .emit first left, right⟩
      | visit inside rest =>
          obtain ⟨middle, m, left, right⟩ := ih rest
          exact ⟨middle, m, .visit inside left, right⟩

theorem nil_inv (h : em.Placed next o [] next' e) : next' = next ∧ e = o := by
  cases h
  exact ⟨rfl, rfl⟩

theorem visit_inv {live : Nat} {x : Element} (h : em.Placed next o (.visit live x :: ts) next' e) :
    ∃ middle m, em.Block live next o x middle m ∧ em.Placed middle m ts next' e := by
  cases h with
  | visit inside rest =>
      cases inside with
      | emit line body =>
          cases line.line_inv.nil_inv
          exact ⟨_, _, body, rest⟩

theorem emit_inv {d : Directive} (h : em.Placed next o (.emit d :: ts) next' e) :
    ∃ m, em.Laid o [d] m ∧ em.Placed next m ts next' e := by
  cases h with
  | emit first rest => exact ⟨_, first, rest⟩

theorem emits_inv {ds : List Directive} (h : em.Placed next o (Step.emits ds ++ ts) next' e) :
    ∃ m, em.Laid o ds m ∧ em.Placed next m ts next' e := by
  induction ds generalizing o with
  | nil => exact ⟨o, .nil o, h⟩
  | cons d ds ih =>
      obtain ⟨m, first, rest⟩ := emit_inv h
      obtain ⟨m', later, after⟩ := ih rest
      exact ⟨m', first.append later, after⟩

/-- The last directives of a list of steps. -/
theorem emits_end {ds : List Directive} (h : em.Placed next o (Step.emits ds) next' e) :
    next' = next ∧ em.Laid o ds e := by
  rw [← List.append_nil (Step.emits ds)] at h
  obtain ⟨m, laid, rest⟩ := emits_inv h
  obtain ⟨rfl, rfl⟩ := rest.nil_inv
  exact ⟨rfl, laid⟩

theorem operand_inv {live : Nat} {x : Element} {c : Conversion}
    (h : em.Placed next o (Step.operand live x c ++ ts) next' e) :
    ∃ middle m m', em.Block live next o x middle m ∧ em.Laid m c.directives m'
      ∧ em.Placed middle m' ts next' e := by
  obtain ⟨middle, m, block, rest⟩ := visit_inv h
  obtain ⟨m', laid, after⟩ := emits_inv rest
  exact ⟨middle, m, m', block, laid, after⟩

/-- The last operand of a list of steps. -/
theorem operand_end {live : Nat} {x : Element} {c : Conversion}
    (h : em.Placed next o (Step.operand live x c) next' e) :
    ∃ m, em.Block live next o x next' m ∧ em.Laid m c.directives e := by
  obtain ⟨middle, m, block, rest⟩ := visit_inv h
  obtain ⟨rfl, laid⟩ := emits_end rest
  exact ⟨m, block, laid⟩

/-- The last directive of a list of steps. -/
theorem emit_end {d : Directive} (h : em.Placed next o [.emit d] next' e) :
    next' = next ∧ em.Laid o [d] e := by
  obtain ⟨m, laid, rest⟩ := emit_inv h
  obtain ⟨rfl, rfl⟩ := rest.nil_inv
  exact ⟨rfl, laid⟩

end Placed

/-! ## Blocks that branch

Where the branches of a node lead, by the offsets of its operands. -/

namespace Block

variable {em : Emission} {live first o next' e : Nat} {info : NodeInfo}

theorem shortCircuit_inv {op : LogicalOp} {l r : Element}
    (h : em.Block live first o (.logical info op .shortCircuit l r) next' e) :
    ∃ n m₁ m₂ m₃ m₄, em.Block live (first + 1) o l n m₁
      ∧ em.fetch? m₁ = some (.plain .dup, m₂)
      ∧ em.fetch? m₂ = some (.branch op.skipKind e, m₃)
      ∧ em.fetch? m₃ = some (.plain .pop, m₄) ∧ em.Block live n m₄ r next' e := by
  obtain ⟨n, m₁, left, rest⟩ := Placed.visit_inv h
  obtain ⟨m₂, dup, rest⟩ := rest.emit_inv
  obtain ⟨m₃, skip, rest⟩ := rest.emit_inv
  obtain ⟨m₄, pop, rest⟩ := rest.emit_inv
  obtain ⟨n', m₅, right, rest⟩ := rest.visit_inv
  obtain ⟨m₆, mark, rest⟩ := rest.emit_inv
  obtain ⟨rfl, rfl⟩ := rest.nil_inv
  obtain ⟨placed, rfl⟩ := mark.mark_end
  exact ⟨n, m₁, m₂, m₃, m₄, left, dup.op_inv, skip.branch_to placed, pop.op_inv, right⟩

theorem conditional_inv {onTrue onFalse : Conversion} {c t f : Element}
    (h : em.Block live first o (.conditional info onTrue onFalse c t f) next' e) :
    ∃ n n' m₁ m₂ m₃ m₄ m₅ m₆, em.Block live (first + 2) o c n m₁
      ∧ em.fetch? m₁ = some (.branch .ifFalse m₅, m₂)
      ∧ em.Block live n m₂ t n' m₃ ∧ em.Laid m₃ onTrue.directives m₄
      ∧ em.fetch? m₄ = some (.branch .always e, m₅)
      ∧ em.Block live n' m₅ f next' m₆ ∧ em.Laid m₆ onFalse.directives e := by
  simp only [Block] at h
  simp only [Element.body, List.cons_append, List.append_assoc] at h
  obtain ⟨n, m₁, condition, rest⟩ := Placed.visit_inv h
  obtain ⟨m₂, test, rest⟩ := rest.emit_inv
  obtain ⟨n', m₃, m₄, whenTrue, convTrue, rest⟩ := rest.operand_inv
  obtain ⟨m₅, jump, rest⟩ := rest.emit_inv
  obtain ⟨m, markFalse, rest⟩ := rest.emit_inv
  obtain ⟨n'', m₆, m₇, whenFalse, convFalse, rest⟩ := rest.operand_inv
  obtain ⟨m₈, markEnd, rest⟩ := rest.emit_inv
  obtain ⟨rfl, rfl⟩ := rest.nil_inv
  obtain ⟨placedFalse, rfl⟩ := markFalse.mark_end
  obtain ⟨placedEnd, rfl⟩ := markEnd.mark_end
  exact ⟨n, n', m₁, m₂, m₃, m₄, m, m₆, condition, test.branch_to placedFalse, whenTrue, convTrue,
    jump.branch_to placedEnd, whenFalse, convFalse⟩

/-- A list is searched in between storing the probe and pushing the answer. -/
theorem inList_inv {probe : Element} {list : List (ComparePlan × Element)}
    (h : em.Block live first o (.inList info probe list) next' e) :
    ∃ n m₁ m₂ m₃ m₄ hit, em.Block live (first + 2) o probe n m₁
      ∧ em.Laid m₁ [storeTemporary live] m₂
      ∧ em.Placed n m₂ (Step.items (live + 1) first (UInt8.ofNat live) list) next' m₃
      ∧ em.labels[first]? = some hit ∧ em.Laid m₃ [.op .pushFalse] m₄
      ∧ em.fetch? m₄ = some (.branch .always e, hit)
      ∧ em.Laid hit [.op .pushTrue] e := by
  simp only [Block] at h
  simp only [Element.body, List.cons_append] at h
  obtain ⟨n, m₁, probed, rest⟩ := Placed.visit_inv h
  obtain ⟨m₂, store, rest⟩ := rest.emit_inv
  obtain ⟨n', m₃, items, rest⟩ := rest.append_inv
  obtain ⟨m₄, no, rest⟩ := rest.emit_inv
  obtain ⟨m₅, jump, rest⟩ := rest.emit_inv
  obtain ⟨hit, markHit, rest⟩ := rest.emit_inv
  obtain ⟨m₆, yes, rest⟩ := rest.emit_inv
  obtain ⟨m₇, markEnd, rest⟩ := rest.emit_inv
  obtain ⟨rfl, rfl⟩ := rest.nil_inv
  obtain ⟨placedHit, rfl⟩ := markHit.mark_end
  obtain ⟨placedEnd, rfl⟩ := markEnd.mark_end
  exact ⟨n, m₁, m₂, m₃, m₄, hit, probed, store, items, placedHit, no,
    jump.branch_to placedEnd, yes⟩

end Block

/-- One item of a list: load the probe, compare, and branch on a hit. -/
theorem Placed.item_inv {em : Emission} {live hit target next o next' e : Nat} {slot : UInt8}
    {plan : ComparePlan} {x : Element} {rest : List (ComparePlan × Element)}
    (h : em.Placed next o (Step.items live hit slot ((plan, x) :: rest)) next' e)
    (known : em.labels[hit]? = some target) :
    ∃ n m₁ m₂ m₃ m₄ m₅ m₆, em.Laid o [.opByte .getLocal slot] m₁
      ∧ em.Laid m₁ plan.operandConversions.1.directives m₂ ∧ em.Block live next m₂ x n m₃
      ∧ em.Laid m₃ plan.operandConversions.2.directives m₄
      ∧ em.Laid m₄ (plan.directives .eq) m₅
      ∧ em.fetch? m₅ = some (.branch .ifTrue target, m₆)
      ∧ em.Placed n m₆ (Step.items live hit slot rest) next' e := by
  simp only [Step.items, List.append_assoc] at h
  obtain ⟨m, load, after⟩ := h.emits_inv
  rw [← List.singleton_append] at load
  obtain ⟨m₁, fetched, convProbe⟩ := load.append_inv
  obtain ⟨n, m₃, m₄, block, convItem, after⟩ := after.operand_inv
  obtain ⟨m', test, after⟩ := after.emits_inv
  obtain ⟨m₅, compare, branch⟩ := test.append_inv
  exact ⟨n, m₁, m, m₃, m₄, m₅, m', fetched, convProbe, block, convItem, compare,
    branch.branch_to known, after⟩

end Emission

namespace Element

theorem liftFault_ok {α : Type} {x : Except Fault α} {a : α} (h : liftFault x = .ok a) :
    x = .ok a := by
  cases x with
  | error fault => cases h
  | ok b =>
      cases h
      rfl

/-- Only roots have a program. -/
theorem program_ok {tree : Element} {α : Type} {f : List Directive → Except Fault α} {a : α}
    (h : liftFault (tree.program.bind f) = .ok a) :
    tree.isRoot = true ∧ f tree.directives = .ok a := by
  have h := liftFault_ok h
  simp only [program] at h
  cases root : tree.isRoot with
  | false =>
      rw [root] at h
      cases h
  | true =>
      rw [root] at h
      exact ⟨rfl, h⟩

theorem emit_ok {tree : Element} {plan : BranchPlan} {em : Emission}
    (h : tree.emit plan = .ok em) :
    tree.isRoot = true ∧ Emission.ofDirectives plan tree.directives = .ok em :=
  program_ok h

theorem layout_ok {tree : Element} {l : Layout} (h : tree.layout = .ok l) :
    tree.isRoot = true ∧ Layout.ofDirectives tree.directives = .ok l :=
  program_ok h

theorem emit_eq {tree : Element} (root : tree.isRoot = true) (plan : BranchPlan) :
    tree.emit plan = liftFault (Emission.ofDirectives plan tree.directives) := by
  rw [emit, program, root]
  rfl

/-- The directives of a tree lie in its code from its start to its end. -/
theorem laid_emit {tree : Element} {plan : BranchPlan} {em : Emission}
    (h : tree.emit plan = .ok em) : em.Laid 0 tree.directives em.chunk.size :=
  Emission.laid_ofDirectives (emit_ok h).2 tree.directives_proper tree.marks_directives

/-- The code of a tree is the block of its root. -/
theorem block_emit {tree : Element} {plan : BranchPlan} {em : Emission}
    (h : tree.emit plan = .ok em) :
    ∃ next', em.Block 0 0 0 tree next' em.chunk.size := by
  obtain ⟨next', given⟩ := tree.directives_given
  obtain ⟨middle, m, block, rest⟩ := (Emission.Placed.of_gives given (laid_emit h)).visit_inv
  obtain ⟨rfl, rfl⟩ := rest.nil_inv
  exact ⟨_, block⟩

end Element

/-! ## Trees that are given

`flatten` recurses on what is left to visit and does not reduce by itself, and neither
does a look into the index of a pool.  For a tree that is given, so many steps of the
one and a search through the constants for the other do
(`ConstantPool.indexOf?_eq_idxOf?`). -/

namespace Step

/-- Works off all steps, if they are not more than a bound. -/
def flattenWithin : Nat → Nat → Array Directive → List Step → Option (Array Directive)
  | _, _, done, [] => some done
  | 0, _, _, _ :: _ => none
  | bound + 1, next, done, .emit d :: rest => flattenWithin bound next (done.push d) rest
  | bound + 1, next, done, .visit live e :: rest =>
    flattenWithin bound (next + e.ownLabels) done (e.steps live next ++ rest)

theorem flatten_of_within {bound next : Nat} {done ds : Array Directive} {ts : List Step}
    (h : flattenWithin bound next done ts = some ds) : flatten next done ts = ds := by
  induction bound generalizing next done ts with
  | zero =>
      cases ts with
      | nil =>
          rw [flatten]
          exact Option.some.inj h
      | cons t ts => cases h
  | succ bound ih =>
      cases ts with
      | nil =>
          rw [flatten]
          exact Option.some.inj h
      | cons t rest =>
          cases t with
          | emit d =>
              rw [flatten]
              exact ih h
          | visit live e =>
              rw [flatten]
              exact ih h

end Step

theorem Writer.run_eq_foldlM (w : Writer) (ds : List Directive) :
    w.run ds = ds.foldlM (fun w d =>
      match w.step d with
      | (w', none) => .ok w'
      | (_, some fault) => .error fault) w := by
  induction ds generalizing w with
  | nil => rfl
  | cons d ds ih =>
      rw [run, List.foldlM_cons]
      rcases w.step d with ⟨w', _ | fault⟩
      · exact ih w'
      · rfl

namespace Element

/-- What the directives of a given tree pass can be computed. -/
theorem passes_of_within (tree : Element) (test : List Directive → Bool) (bound : Nat)
    (h : (Step.flattenWithin bound 0 #[] [.visit 0 tree]).any (test ·.toList) = true) :
    test tree.directives = true := by
  obtain ⟨ds, flat, passed⟩ := (Option.any_eq_true _ _).mp h
  rw [directives, Step.flatten_of_within flat]
  exact passed

theorem emits_of_within (tree : Element) (plan : BranchPlan) (bound : Nat)
    (root : tree.isRoot = true)
    (h : (Step.flattenWithin bound 0 #[] [.visit 0 tree]).any
      (fun ds => (Emission.ofDirectives plan ds.toList).isOk) = true) :
    ∃ em, tree.emit plan = .ok em := by
  have ok := tree.passes_of_within (fun ds => (Emission.ofDirectives plan ds).isOk) bound h
  rw [emit_eq root]
  cases done : Emission.ofDirectives plan tree.directives with
  | error fault =>
      rw [done] at ok
      cases ok
  | ok em => exact ⟨em, rfl⟩

end Element

end ExprCompiler
