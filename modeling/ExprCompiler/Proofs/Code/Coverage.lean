/-
# Code without dead instructions

Where control may go is a matter of instructions alone: to the next one, to the
target of a branch, or to both.  A stretch of code is covered if each instruction in
it, read in sequence, can be reached from its start, and so can its end.  Stretches
that follow one another are covered together, and the branching nodes are, since
each place behind an unconditional jump is the target of a branch before it.
-/
import ExprCompiler.Proofs.Code.Bytes
import ExprCompiler.Proofs.Code.Instruction

namespace ExprCompiler

/-- The offsets at which a run may go on after an instruction. -/
def Instruction.leads (next : Nat) : Instruction → List Nat
  | .branch .always target => [target]
  | .branch _ target => [next, target]
  | .plain .ret => []
  | _ => [next]

theorem Instruction.leads_plain {i : Instruction} {next : Nat}
    (plain : ∀ kind target, i ≠ .branch kind target) (goes : i ≠ .plain .ret) :
    i.leads next = [next] := by
  simp only [leads]
  split
  · exact absurd rfl (plain _ _)
  · exact absurd rfl (plain _ _)
  · exact absurd rfl goes
  · rfl

theorem Instruction.leads_test {kind : BranchKind} (h : kind ≠ .always) (next target : Nat) :
    (Instruction.branch kind target).leads next = [next, target] := by
  cases kind with
  | always => exact absurd rfl h
  | _ => rfl

namespace Emission

variable {em : Emission} {o m e : Nat} {i : Instruction}

/-- Control can get from one offset to another. -/
inductive Links (em : Emission) : Nat → Nat → Prop
  | refl (o : Nat) : Links em o o
  | step {o m o' e : Nat} {i : Instruction} : em.fetch? o = some (i, m) → o' ∈ i.leads m →
      Links em o' e → Links em o e

theorem Links.trans {o' : Nat} (h : em.Links o o') (h' : em.Links o' e) : em.Links o e := by
  induction h with
  | refl o => exact h'
  | step fetched leads _ ih => exact .step fetched leads (ih h')

theorem Links.one (fetched : em.fetch? o = some (i, m)) (leads : e ∈ i.leads m) : em.Links o e :=
  .step fetched leads (.refl e)

/-- The offsets of instructions read in sequence. -/
inductive Lists (em : Emission) : Nat → List Nat → Nat → Prop
  | nil (o : Nat) : Lists em o [] o
  | cons {o m e : Nat} {i : Instruction} {ps : List Nat} : em.fetch? o = some (i, m) →
      Lists em m ps e → Lists em o (o :: ps) e

theorem Lists.append {ps ps' : List Nat} (h : em.Lists o ps m) (h' : em.Lists m ps' e) :
    em.Lists o (ps ++ ps') e := by
  induction h with
  | nil o => exact h'
  | cons fetched _ ih => exact .cons fetched (ih h')

/-- Reading a chunk lists all its instructions. -/
theorem Lists.instructions {ps : List Nat} (h : em.Lists 0 ps em.chunk.size) :
    em.chunk.instructions.map (·.1) = ps := by
  have reads {o e : Nat} {ps : List Nat} (h : em.Lists o ps e) (size : e = em.chunk.size)
      (found : Array (Nat × OpCode)) :
      (em.chunk.instructionsFrom o found).toList.map (·.1) = found.toList.map (·.1) ++ ps := by
    induction h generalizing found with
    | nil o =>
        rw [Chunk.instructionsFrom, if_neg (by omega), List.append_nil]
    | cons fetched _ ih =>
        obtain ⟨op, read, -, rfl⟩ := fetch?_ok fetched
        rw [Chunk.instructionsFrom_of_readOp? read, ih size]
        simp
  exact reads h rfl #[]

/-- Each instruction between two offsets can be reached from the first one, and so
can the second. -/
def Covers (em : Emission) (o e : Nat) : Prop :=
  ∃ ps, em.Lists o ps e ∧ em.Links o e ∧ ∀ p ∈ ps, em.Links o p

namespace Covers

theorem links (h : em.Covers o e) : em.Links o e := by
  obtain ⟨ps, -, through, -⟩ := h
  exact through

theorem refl (o : Nat) : em.Covers o o :=
  ⟨[], .nil o, .refl o, fun _ hp => absurd hp List.not_mem_nil⟩

theorem trans (h : em.Covers o m) (h' : em.Covers m e) : em.Covers o e := by
  obtain ⟨ps, listed, through, each⟩ := h
  obtain ⟨ps', listed', through', each'⟩ := h'
  refine ⟨ps ++ ps', listed.append listed', through.trans through', ?_⟩
  intro p hp
  rcases List.mem_append.mp hp with hp | hp
  · exact each p hp
  · exact through.trans (each' p hp)

/-- An instruction that may go on to the next one. -/
theorem one (fetched : em.fetch? o = some (i, m)) (falls : m ∈ i.leads m) : em.Covers o m := by
  refine ⟨[o], .cons fetched (.nil m), .one fetched falls, ?_⟩
  intro p hp
  rw [List.mem_singleton.mp hp]
  exact .refl o

/-- Code, a jump over code, and that code, which something leads to. -/
theorem past {m₁ m₂ : Nat} (first : em.Covers o m₁)
    (jump : em.fetch? m₁ = some (.branch .always e, m₂)) (enters : em.Links o m₂)
    (second : em.Covers m₂ e) : em.Covers o e := by
  obtain ⟨ps, listed, through, each⟩ := first
  obtain ⟨ps', listed', -, each'⟩ := second
  refine ⟨ps ++ m₁ :: ps', listed.append (.cons jump listed'),
    through.trans (.one jump List.mem_cons_self), fun p hp => ?_⟩
  rcases List.mem_append.mp hp with hp | hp
  · exact each p hp
  · rcases List.mem_cons.mp hp with rfl | hp
    · exact through
    · exact enters.trans (each' p hp)

end Covers

end Emission

end ExprCompiler
