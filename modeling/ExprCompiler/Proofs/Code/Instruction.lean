/-
# Instructions as a machine reads them

A machine that runs an emission sees bytes and a pool.  `Emission.fetch?` is all
it does before it acts: decode the operation at an offset, read its operands
(high byte first), look constants up in the pool, and resolve a branch to the
offset it goes to.

`Emission.Laid em o ds e` says that the directives `ds` stand in the code from
offset `o` to offset `e`: each one that asks for an instruction is fetched back
as that instruction, each mark is where its label ended up, and every temporary
slot that is written is one the emission declares.  Proofs about running code
are made against this relation and never look at bytes.
-/
import ExprCompiler.Code.Emission

namespace ExprCompiler

/-- An instruction with its operands resolved. -/
inductive Instruction
  /-- An operation without operands. -/
  | plain (op : OpCode)
  /-- An operation on a temporary slot. -/
  | slot (op : OpCode) (place : UInt8)
  | push (value : Constant)
  /-- An operation on an identity of the host. -/
  | named (op : OpCode) (id : HostId)
  | call (op : OpCode) (id : HostId) (argc : UInt8)
  | branch (kind : BranchKind) (target : Nat)
  deriving DecidableEq, Repr

namespace Emission

/-- The identity that a two-byte operand names. -/
def identity? (em : Emission) (offset : Nat) : Option HostId := do
  let index ← em.chunk.readU16? offset
  match ← em.pool.get? index.toNat with
  | .id id => some id
  | _ => none

/-- An operation at an offset together with its operands. -/
def operands? (em : Emission) (offset : Nat) (op : OpCode) : Option Instruction :=
  match op with
  | .constant => do
    let index ← em.chunk.readByte? (offset + 1)
    (em.pool.get? index.toNat).map .push
  | .constantWide => do
    let index ← em.chunk.readU16? (offset + 1)
    (em.pool.get? index.toNat).map .push
  | .getLocal | .setLocal => (em.chunk.readByte? (offset + 1)).map (.slot op)
  | .getField | .getStatic | .box | .unbox | .castClass =>
    (em.identity? (offset + 1)).map (.named op)
  | .call | .callMethod => do
    let id ← em.identity? (offset + 1)
    (em.chunk.readByte? (offset + 3)).map (.call op id)
  | .jump | .jumpLong => (em.chunk.branchTarget? offset).map (.branch .always)
  | .jumpIfFalse | .jumpIfFalseLong => (em.chunk.branchTarget? offset).map (.branch .ifFalse)
  | .jumpIfTrue | .jumpIfTrueLong => (em.chunk.branchTarget? offset).map (.branch .ifTrue)
  | _ => some (.plain op)

/-- The instruction at an offset, and the offset after it. -/
def fetch? (em : Emission) (offset : Nat) : Option (Instruction × Nat) := do
  let op ← em.chunk.readOp? offset
  let instruction ← em.operands? offset op
  some (instruction, offset + op.size)

theorem fetch?_of_readOp? {em : Emission} {offset : Nat} {op : OpCode} {i : Instruction}
    (hop : em.chunk.readOp? offset = some op) (hi : em.operands? offset op = some i) :
    em.fetch? offset = some (i, offset + op.size) := by
  simp only [fetch?, hop, hi, Option.bind_eq_bind, Option.bind_some]

theorem fetch?_ok {em : Emission} {o m : Nat} {i : Instruction}
    (h : em.fetch? o = some (i, m)) :
    ∃ op, em.chunk.readOp? o = some op ∧ em.operands? o op = some i ∧ m = o + op.size := by
  simp only [fetch?] at h
  cases read : em.chunk.readOp? o with
  | none => rw [read] at h; cases h
  | some op =>
      rw [read] at h
      cases operands : em.operands? o op with
      | none =>
          simp only [Option.bind_eq_bind, Option.bind_some, operands] at h
          cases h
      | some i' =>
          simp only [Option.bind_eq_bind, Option.bind_some, operands] at h
          cases h
          exact ⟨op, rfl, operands, rfl⟩

/-- An operation without operands is fetched as itself. -/
theorem eq_of_operands?_plain {em : Emission} {o : Nat} {op op' : OpCode}
    (h : em.operands? o op = some (.plain op')) : op = op' := by
  have mapped {α : Type} {x : Option α} {f : α → Instruction} (h : x.map f = some (.plain op'))
      (other : ∀ a, f a ≠ .plain op') : op = op' := by
    obtain ⟨a, -, same⟩ := Option.map_eq_some_iff.mp h
    exact absurd same (other a)
  simp only [operands?] at h
  split at h
  case h_18 => cases h; rfl
  all_goals first
    | exact mapped h (by simp)
    | obtain ⟨_, -, h⟩ := Option.bind_eq_some_iff.mp h
      exact mapped h (by simp)

theorem lt_of_fetch? {em : Emission} {o m : Nat} {i : Instruction}
    (h : em.fetch? o = some (i, m)) : o < m := by
  obtain ⟨op, -, -, rfl⟩ := fetch?_ok h
  exact Nat.lt_add_of_pos_right (Nat.lt_of_lt_of_le Nat.one_pos (Nat.le_add_right 1 _))

end Emission

namespace Directive

/-- The instruction that a directive asks for, once labels have offsets. -/
def instruction? (labels : List Nat) : Directive → Option Instruction
  | .op code => some (.plain code)
  | .opByte code place => some (.slot code place)
  | .constant value => some (.push value)
  | .opId code id => some (.named code id)
  | .call code id argc => some (.call code id argc)
  | .branch kind label => (labels[label]?).map (.branch kind)
  | .line _ | .mark _ | .refuse _ => none

/-- The operation that a directive is written with: constants by the width of
their place in the pool, branches by the size they are planned in. -/
def opcode? (pool : ConstantPool) (long : Bool) : Directive → Option OpCode
  | .op code | .opByte code _ | .opId code _ | .call code _ _ => some code
  | .constant value =>
    some (if (pool.indexOf? value).any (· < 256) then .constant else .constantWide)
  | .branch kind _ => some (if long then kind.longOp else kind.shortOp)
  | .line _ | .mark _ | .refuse _ => none

/-- Operations are used with the operands they have: none, a slot, an identity,
or an identity and a count. -/
def Proper : Directive → Prop
  | .op code => code.operandSize = 0
  | .opByte code _ => code = .getLocal ∨ code = .setLocal
  | .opId code _ => code ∈ [.getField, .getStatic, .box, .unbox, .castClass]
  | .call code _ _ => code = .call ∨ code = .callMethod
  | _ => True

/-- The label that a directive marks. -/
def mark? : Directive → Option Nat
  | .mark label => some label
  | _ => none

/-- The labels that directives mark, in order. -/
def marks (ds : List Directive) : List Nat := ds.filterMap mark?

theorem marks_cons (d : Directive) (ds : List Directive) :
    marks (d :: ds) = d.mark?.toList ++ marks ds := by
  simp only [marks]
  rw [List.filterMap_cons]
  cases d.mark? <;> rfl

theorem marks_append (ds ds' : List Directive) : marks (ds ++ ds') = marks ds ++ marks ds' :=
  List.filterMap_append

end Directive

namespace Emission

/-- Directives stand in the code between two offsets. -/
inductive Laid (em : Emission) : Nat → List Directive → Nat → Prop
  | nil (o : Nat) : Laid em o [] o
  | line {o e n : Nat} {ds : List Directive} :
      Laid em o ds e → Laid em o (.line n :: ds) e
  | mark {o e label : Nat} {ds : List Directive} :
      em.labels[label]? = some o → Laid em o ds e → Laid em o (.mark label :: ds) e
  | instruction {o m e : Nat} {d : Directive} {i : Instruction} {ds : List Directive} :
      d.instruction? em.labels = some i → em.fetch? o = some (i, m) →
      (∀ place, i = .slot .setLocal place → place.toNat < em.localCount) →
      Laid em m ds e → Laid em o (d :: ds) e

namespace Laid

variable {em : Emission} {o e : Nat} {ds : List Directive}

theorem append_inv {ds' : List Directive} (h : em.Laid o (ds ++ ds') e) :
    ∃ m, em.Laid o ds m ∧ em.Laid m ds' e := by
  induction ds generalizing o with
  | nil => exact ⟨o, .nil o, h⟩
  | cons d ds ih =>
      cases h with
      | line rest =>
          obtain ⟨m, left, right⟩ := ih rest
          exact ⟨m, .line left, right⟩
      | mark placed rest =>
          obtain ⟨m, left, right⟩ := ih rest
          exact ⟨m, .mark placed left, right⟩
      | instruction asked fetched slots rest =>
          obtain ⟨m, left, right⟩ := ih rest
          exact ⟨m, .instruction asked fetched slots left, right⟩

theorem append {m : Nat} {ds' : List Directive} (h : em.Laid o ds m) (h' : em.Laid m ds' e) :
    em.Laid o (ds ++ ds') e := by
  induction h with
  | nil o => exact h'
  | line _ ih => exact .line (ih h')
  | mark placed _ ih => exact .mark placed (ih h')
  | instruction asked fetched slots _ ih => exact .instruction asked fetched slots (ih h')

theorem nil_inv (h : em.Laid o [] e) : e = o := by
  cases h
  rfl

theorem line_inv {n : Nat} (h : em.Laid o (.line n :: ds) e) : em.Laid o ds e := by
  cases h with
  | line rest => exact rest
  | instruction asked => cases asked

theorem mark_inv {label : Nat} (h : em.Laid o (.mark label :: ds) e) :
    em.labels[label]? = some o ∧ em.Laid o ds e := by
  cases h with
  | mark placed rest => exact ⟨placed, rest⟩
  | instruction asked => cases asked

theorem refuse_inv {fault : Fault} (h : em.Laid o (.refuse fault :: ds) e) : False := by
  cases h with
  | instruction asked => cases asked

theorem instruction_inv {d : Directive} {i : Instruction} (h : em.Laid o (d :: ds) e)
    (asked : d.instruction? em.labels = some i) :
    ∃ m, em.fetch? o = some (i, m) ∧ em.Laid m ds e
      ∧ ∀ place, i = .slot .setLocal place → place.toNat < em.localCount := by
  cases h with
  | line => cases asked
  | mark => cases asked
  | instruction asked' fetched slots rest =>
      rw [asked] at asked'
      cases asked'
      exact ⟨_, fetched, rest, slots⟩

/-- An operation without operands at the end. -/
theorem op_inv {op : OpCode} (h : em.Laid o [.op op] e) :
    em.fetch? o = some (.plain op, e) := by
  obtain ⟨m, fetched, rest, -⟩ := h.instruction_inv rfl
  cases rest.nil_inv
  exact fetched

theorem branch_inv {kind : BranchKind} {label : Nat}
    (h : em.Laid o (.branch kind label :: ds) e) :
    ∃ target m, em.labels[label]? = some target
      ∧ em.fetch? o = some (.branch kind target, m) ∧ em.Laid m ds e := by
  cases h with
  | instruction asked fetched _ rest =>
      simp only [Directive.instruction?, Option.map_eq_some_iff] at asked
      obtain ⟨target, known, rfl⟩ := asked
      exact ⟨target, _, known, fetched, rest⟩

/-- A branch at the end, to a label whose place is known. -/
theorem branch_to {kind : BranchKind} {label target : Nat} (h : em.Laid o [.branch kind label] e)
    (known : em.labels[label]? = some target) :
    em.fetch? o = some (.branch kind target, e) := by
  obtain ⟨target', m, known', fetched, rest⟩ := h.branch_inv
  cases rest.nil_inv
  rw [known] at known'
  cases known'
  exact fetched

/-- A mark at the end. -/
theorem mark_end {label : Nat} (h : em.Laid o [.mark label] e) :
    em.labels[label]? = some o ∧ e = o := by
  obtain ⟨placed, rest⟩ := h.mark_inv
  exact ⟨placed, rest.nil_inv⟩

end Laid

end Emission

end ExprCompiler
