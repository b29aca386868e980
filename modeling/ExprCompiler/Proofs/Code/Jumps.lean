/-
# Jumps of emitted code

Reading the code of a tree from its start, one instruction after the other, meets
exactly the instructions that the walk over the tree asked for, in its order, and
stops exactly at the end.  Every branch leads to the place of its label, which is
the start of an instruction met on the way, and lies ahead.  Nothing is assumed
of the plan: one made for another tree either fails or gives code of which all
this is true (`Element.emit_jumps`).

The argument follows the directives from left to right.  `Laid` says what is
fetched at each of them; what is left is that reading in sequence follows the
same offsets, and that a label marked among the directives to come is the offset
of an instruction to come, since a return stands last.
-/
import Mathlib.Data.List.Forall2
import ExprCompiler.Proofs.Code.Nodes

namespace ExprCompiler

/-- Whether a directive asks for an instruction. -/
def Directive.isInstruction : Directive → Bool
  | .line _ | .mark _ | .refuse _ => false
  | _ => true

theorem Directive.isInstruction_of_instruction? {d : Directive} {labels : List Nat}
    {i : Instruction} (h : d.instruction? labels = some i) : d.isInstruction = true := by
  cases d with
  | line n => cases h
  | mark label => cases h
  | refuse fault => cases h
  | _ => rfl

namespace Emission

/-- Where an instruction is, and its operation. -/
abbrev Site := Nat × OpCode

/-- A site holds what a directive asks for; if that is a branch, it leads ahead,
to its label, which is one of the `visited` offsets. -/
structure Issued (em : Emission) (visited : List Nat) (site : Site) (d : Directive) : Prop where
  fetched : ∃ i, d.instruction? em.labels = some i
    ∧ em.fetch? site.1 = some (i, site.1 + site.2.size)
  branches : site.2.isBranch = true → ∃ kind label target, d = .branch kind label
    ∧ em.labels[label]? = some target ∧ em.chunk.branchTarget? site.1 = some target
    ∧ target ∈ visited ∧ site.1 + site.2.size ≤ target

/-- A branch is fetched with the place it goes to, and only branches are. -/
theorem operands?_isBranch {em : Emission} {o : Nat} {op : OpCode} {i : Instruction}
    (h : em.operands? o op = some i) (branch : op.isBranch = true) :
    ∃ kind target, i = .branch kind target ∧ em.chunk.branchTarget? o = some target := by
  have found {kind : BranchKind}
      (h : (em.chunk.branchTarget? o).map (Instruction.branch kind) = some i) :
      ∃ kind target, i = .branch kind target ∧ em.chunk.branchTarget? o = some target := by
    obtain ⟨target, known, rfl⟩ := Option.map_eq_some_iff.mp h
    exact ⟨kind, target, rfl, known⟩
  cases op with
  | jump => exact found h
  | jumpLong => exact found h
  | jumpIfFalse => exact found h
  | jumpIfFalseLong => exact found h
  | jumpIfTrue => exact found h
  | jumpIfTrueLong => exact found h
  | _ => cases branch

theorem Issued.mono {em : Emission} {visited visited' : List Nat} {site : Site} {d : Directive}
    (h : em.Issued visited site d) (sub : visited ⊆ visited') : em.Issued visited' site d := by
  refine ⟨h.fetched, ?_⟩
  intro branch
  obtain ⟨kind, label, target, hd, known, leads, seen, ahead⟩ := h.branches branch
  exact ⟨kind, label, target, hd, known, leads, sub seen, ahead⟩

/-- What reading on from the offset `o` meets, where `ds` are laid. -/
structure Reads (em : Emission) (o : Nat) (ds : List Directive) (sites : List Site) : Prop where
  /-- Reading in sequence gives the sites. -/
  walk : ∀ found, em.chunk.instructionsFrom o found = found ++ sites
  issued : List.Forall₂ (em.Issued (sites.map (·.1))) sites (ds.filter (·.isInstruction))
  /-- The first site is here. -/
  starts : ∀ site ∈ sites.head?, site.1 = o
  /-- Labels that are still to be marked lie ahead, at sites. -/
  marked : ∀ k ∈ Directive.marks ds, ∃ target, em.labels[k]? = some target ∧ o ≤ target
    ∧ target ∈ sites.map (·.1)
  /-- A return is read last, at the end of the code. -/
  ends : ∃ at_, sites.getLast? = some (at_, .ret) ∧ at_ + OpCode.ret.size = em.chunk.size

namespace Reads

variable {em : Emission} {o m : Nat} {ds : List Directive} {sites : List Site}

theorem ret (fetched : em.fetch? o = some (.plain .ret, m)) (size : m = em.chunk.size) :
    em.Reads o [.op .ret] [(o, .ret)] := by
  obtain ⟨op, read, operands, next⟩ := fetch?_ok fetched
  cases eq_of_operands?_plain operands
  refine ⟨fun found => ?_, ?_, ?_, ?_, o, rfl, next.symm.trans size⟩
  · rw [Chunk.instructionsFrom_of_readOp? read, ← next, Chunk.instructionsFrom,
      if_neg (by omega)]
    exact Array.ext' (by simp)
  · exact .cons ⟨⟨_, rfl, by rw [fetched, next]⟩, fun branch => by cases branch⟩ .nil
  · exact fun site hsite => by cases hsite; rfl
  · exact fun k hk => absurd hk List.not_mem_nil

theorem line (h : em.Reads o ds sites) (n : Nat) : em.Reads o (.line n :: ds) sites where
  walk := h.walk
  issued := h.issued
  starts := h.starts
  marked := h.marked
  ends := h.ends

/-- A label is marked where the next instruction is. -/
theorem mark {label : Nat} (h : em.Reads o ds sites) (placed : em.labels[label]? = some o) :
    em.Reads o (.mark label :: ds) sites where
  walk := h.walk
  issued := h.issued
  starts := h.starts
  marked := by
    intro k hk
    rcases List.mem_cons.mp hk with rfl | later
    · obtain ⟨at_, last, -⟩ := h.ends
      cases sites with
      | nil => cases last
      | cons site sites =>
          have here := h.starts site rfl
          exact ⟨o, placed, Nat.le_refl o, here ▸ List.mem_cons_self⟩
    · exact h.marked k later
  ends := h.ends

theorem instruction {d : Directive} {i : Instruction} (h : em.Reads m ds sites)
    (asked : d.instruction? em.labels = some i) (fetched : em.fetch? o = some (i, m))
    (ahead : ∀ k, d.branch? = some k → k ∈ Directive.marks ds) :
    ∃ op, em.Reads o (d :: ds) ((o, op) :: sites) := by
  obtain ⟨op, read, operands, rfl⟩ := fetch?_ok fetched
  have tail : sites.map (·.1) ⊆ ((o, op) :: sites).map (·.1) := fun _ hx =>
    List.mem_cons_of_mem _ hx
  refine ⟨op, fun found => ?_, ?_, ?_, ?_, ?_⟩
  · rw [Chunk.instructionsFrom_of_readOp? read, h.walk]
    exact Array.ext' (by simp)
  · rw [List.filter_cons, if_pos (Directive.isInstruction_of_instruction? asked)]
    refine .cons ⟨⟨i, asked, fetched⟩, fun branch => ?_⟩ (h.issued.imp fun _ _ hi => hi.mono tail)
    obtain ⟨kind, target, rfl, leads⟩ := operands?_isBranch operands branch
    cases d with
    | branch kind' label =>
        obtain ⟨target', known, same⟩ := Option.map_eq_some_iff.mp asked
        cases same
        obtain ⟨target'', known', after, seen⟩ := h.marked label (ahead label rfl)
        rw [known] at known'
        cases known'
        exact ⟨kind, label, target, rfl, known, leads, tail seen, after⟩
    | _ => cases asked
  · exact fun site hsite => by cases hsite; rfl
  · intro k hk
    have later : k ∈ Directive.marks ds := by
      rw [Directive.marks_cons] at hk
      rcases List.mem_append.mp hk with here | later
      · cases d with
        | mark label => cases asked
        | _ => cases here
      · exact later
    obtain ⟨target, known, after, seen⟩ := h.marked k later
    have : 0 < op.size := Nat.lt_of_lt_of_le Nat.one_pos (Nat.le_add_right 1 op.operandSize)
    exact ⟨target, known, by omega, tail seen⟩
  · obtain ⟨at_, last, size⟩ := h.ends
    refine ⟨at_, ?_, size⟩
    cases sites with
    | nil => cases last
    | cons site sites => exact last

end Reads

/-- Directives that branch forward and end with a return are read in sequence. -/
theorem Laid.reads {em : Emission} {o e : Nat} {ds : List Directive}
    (h : em.Laid o (ds ++ [Directive.op .ret]) e) (size : e = em.chunk.size)
    (forward : Directive.Forward (ds ++ [Directive.op .ret])) :
    ∃ sites, em.Reads o (ds ++ [Directive.op .ret]) sites := by
  induction ds generalizing o with
  | nil =>
      obtain ⟨m, fetched, rest, -⟩ := h.instruction_inv rfl
      cases rest.nil_inv
      exact ⟨_, .ret fetched size⟩
  | cons d ds ih =>
      cases h with
      | line rest =>
          obtain ⟨sites, reads⟩ := ih rest forward.2
          exact ⟨sites, reads.line _⟩
      | mark placed rest =>
          obtain ⟨sites, reads⟩ := ih rest forward.2
          exact ⟨sites, reads.mark placed⟩
      | instruction asked fetched _ rest =>
          obtain ⟨sites, reads⟩ := ih rest forward.2
          obtain ⟨op, reads'⟩ := reads.instruction asked fetched forward.1
          exact ⟨_, reads'⟩

end Emission

/-- Whatever the plan, the instructions of emitted code are those that were asked
for, up to a return at the very end, and each branch leads forward to its label,
where an instruction starts. -/
theorem Element.emit_jumps {tree : Element} {plan : BranchPlan} {em : Emission}
    (h : tree.emit plan = .ok em) :
    List.Forall₂ (em.Issued (em.chunk.instructions.map (·.1))) em.chunk.instructions
        (tree.directives.filter (·.isInstruction))
      ∧ ∃ last, em.chunk.instructions.getLast? = some (last, .ret)
        ∧ last + OpCode.ret.size = em.chunk.size := by
  obtain ⟨ds, hds⟩ := directives_root (emit_ok h).1
  have laid := laid_emit h
  have forward := tree.directives_forward
  rw [hds] at laid forward ⊢
  obtain ⟨sites, reads⟩ := laid.reads rfl forward
  have same : em.chunk.instructions = sites := by
    rw [Chunk.instructions, reads.walk #[]]
    simp
  rw [same]
  exact ⟨reads.issued, reads.ends⟩

/-- `true ? 1 : 2`. -/
def Element.choice : Element :=
  let number (v : Int32) : Element := .literal ⟨Ty.numeric .int32, .unknown⟩ (.int v)
  .root ⟨Ty.numeric .int32, .unknown⟩ .identity
    (.conditional ⟨Ty.numeric .int32, .unknown⟩ .identity .identity
      (.literal ⟨Ty.bool, .unknown⟩ (.bool true)) (number 1) (number 2))

/-- A plan that relaxation never makes, a long branch over three bytes, will do. -/
theorem Element.emit_jumps_choice :
    ∃ em, Element.choice.emit ⟨#[true, false], [], 0⟩ = .ok em
      ∧ List.Forall₂ (em.Issued (em.chunk.instructions.map (·.1))) em.chunk.instructions
        (Element.choice.directives.filter (·.isInstruction))
      ∧ ∃ last, em.chunk.instructions.getLast? = some (last, .ret)
        ∧ last + OpCode.ret.size = em.chunk.size := by
  have emits : ∃ em, Element.choice.emit ⟨#[true, false], [], 0⟩ = .ok em := by
    refine Element.choice.emits_of_within _ 32 rfl ?_
    simp only [Emission.ofDirectives, Writer.run_eq_foldlM, Writer.step.eq_def,
      Writer.writeWith.eq_def, ConstantPool.operand, ConstantPool.add,
      ConstantPool.indexOf?_eq_idxOf?]
    decide +kernel
  obtain ⟨em, emitted⟩ := emits
  exact ⟨em, emitted, Element.emit_jumps emitted⟩

end ExprCompiler
