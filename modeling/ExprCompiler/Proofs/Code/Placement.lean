/-
# Where directives end up in the code

The emission pass writes each directive once, at the end of what is there, and
later only fills in branch offsets.  So what the finished code holds can be read
off the pass while it runs: `Writer.Ends w em` says that every byte written so
far, apart from branch operands, is a byte of the finished emission `em`, that
the pool of `w` is the start of its pool, and that every branch noted so far
leads where its label is.  This holds of the last state of the pass
(`Ends.of_finish`) and passes from each state to the one before it
(`Ends.back`), hence of every state on the way.

Main result: `Emission.laid_ofDirectives`, directives that are proper and mark
no label twice are laid out in the finished code from its start to its end.
-/
import ExprCompiler.Proofs.Code.Instruction
import ExprCompiler.Proofs.Code.Labels
import ExprCompiler.Proofs.Code.Patching
import ExprCompiler.Proofs.Code.Pool

namespace ExprCompiler

namespace Writer

/-! ## What one step writes -/

theorem bytes_write (w : Writer) (op : OpCode) (operands : List UInt8) :
    (w.write op operands).chunk.bytes = w.chunk.bytes ++ op.toByte :: operands := by
  simp only [write, Chunk.bytes_writeBytes, Chunk.writeOp, Chunk.bytes_writeByte,
    List.append_assoc, List.singleton_append]

theorem offset_write (w : Writer) (op : OpCode) (operands : List UInt8) :
    (w.write op operands).offset = w.offset + (1 + operands.length) := by
  simp only [offset, Chunk.size_eq_length, bytes_write, List.length_append, List.length_cons]
  omega

/-- An instruction that names a constant is written against a pool that holds it. -/
theorem writeWith_ok {w w' : Writer} {c : Constant} {f : UInt16 → OpCode × List UInt8}
    (h : w.writeWith c f = (w', none)) :
    ∃ index pool, w.pool.operand c = (.ok index, pool)
      ∧ w' = ({ w with pool := pool } : Writer).write (f index).1 (f index).2 := by
  obtain ⟨plan, chunk, pool, branchIndex, patches, labels, line⟩ := w
  simp only [writeWith] at h
  cases found : pool.operand c with
  | mk result pool' =>
      rw [found] at h
      cases result with
      | error fault => simp at h
      | ok index =>
          simp only [Prod.mk.injEq, and_true] at h
          exact ⟨index, pool', rfl, h.symm⟩

/-- The patch that a branch leaves behind. -/
def branchPatch (w : Writer) (label : Nat) : Patch where
  operand := w.offset + 1
  finish := w.offset + 1 + if w.plan.isLong w.branchIndex then 4 else 1
  label := label
  long := w.plan.isLong w.branchIndex

/-- The operation of a branch in the size its plan gives it. -/
def branchOp (w : Writer) (kind : BranchKind) : OpCode :=
  if w.plan.isLong w.branchIndex then kind.longOp else kind.shortOp

theorem size_branchOp (w : Writer) (kind : BranchKind) :
    (w.branchOp kind).size = 1 + if w.plan.isLong w.branchIndex then 4 else 1 := by
  simp only [branchOp]
  cases kind <;> cases w.plan.isLong w.branchIndex <;> rfl

theorem writeBranch_eq (w : Writer) (kind : BranchKind) (label : Nat) :
    w.writeBranch kind label =
      { w.write (w.branchOp kind)
          (List.replicate (if w.plan.isLong w.branchIndex then 4 else 1) 0) with
        branchIndex := w.branchIndex + 1
        patches := w.patches.push (w.branchPatch label) } :=
  rfl

/-! ## Growth

Every step extends code, pool and patches, and a new patch lies in what is new. -/

structure Grows (w w' : Writer) : Prop where
  plan : w'.plan = w.plan
  pool : w.pool.Within w'.pool
  bytes : ∃ bs, w'.chunk.bytes = w.chunk.bytes ++ bs
  patches : ∃ ps, w'.patches.toList = w.patches.toList ++ ps ∧ ∀ p ∈ ps, w.offset < p.operand

theorem Grows.of_write {w w' : Writer} {op : OpCode} {operands : List UInt8}
    (plan : w'.plan = w.plan) (pool : w.pool.Within w'.pool)
    (chunk : w'.chunk = (w.write op operands).chunk)
    (patches : w'.patches = w.patches) : w.Grows w' where
  plan := plan
  pool := pool
  bytes := ⟨op.toByte :: operands, by rw [chunk, bytes_write]⟩
  patches := ⟨[], by rw [patches, List.append_nil], fun _ h => absurd h List.not_mem_nil⟩

theorem Grows.of_still {w w' : Writer} (plan : w'.plan = w.plan) (pool : w'.pool = w.pool)
    (chunk : w'.chunk = w.chunk) (patches : w'.patches = w.patches) : w.Grows w' where
  plan := plan
  pool := pool ▸ ConstantPool.Within.refl _
  bytes := ⟨[], by rw [chunk, List.append_nil]⟩
  patches := ⟨[], by rw [patches, List.append_nil], fun _ h => absurd h List.not_mem_nil⟩

theorem Grows.of_writeWith {w w' : Writer} {c : Constant} {f : UInt16 → OpCode × List UInt8}
    (h : w.writeWith c f = (w', none)) : w.Grows w' := by
  obtain ⟨index, pool, found, rfl⟩ := writeWith_ok h
  exact .of_write rfl (ConstantPool.operand_ok found).2 rfl rfl

theorem grows_step {w w' : Writer} {d : Directive} (h : w.step d = (w', none)) : w.Grows w' := by
  cases d with
  | line n => cases h; exact .of_still rfl rfl rfl rfl
  | op code => cases h; exact .of_write rfl (.refl _) rfl rfl
  | opByte code operand => cases h; exact .of_write rfl (.refl _) rfl rfl
  | constant c => exact .of_writeWith h
  | opId code id => rw [step] at h; exact .of_writeWith h
  | call code id argc => rw [step] at h; exact .of_writeWith h
  | branch kind label =>
      cases h
      refine ⟨rfl, .refl _, ⟨_, bytes_write w _ _⟩, [w.branchPatch label], ?_, ?_⟩
      · simp only [writeBranch_eq, Array.toList_push]
      · intro p hp
        rw [List.mem_singleton.mp hp]
        exact Nat.lt_succ_self _
  | mark label => cases h; exact .of_still rfl rfl rfl rfl
  | refuse fault => cases h

/-- A step splits off a run. -/
theorem run_cons {w w' : Writer} {d : Directive} {ds : List Directive}
    (h : w.run (d :: ds) = .ok w') :
    ∃ w₁, w.step d = (w₁, none) ∧ w₁.run ds = .ok w' := by
  simp only [run] at h
  cases taken : w.step d with
  | mk w₁ fault =>
      rw [taken] at h
      cases fault with
      | none => exact ⟨w₁, rfl, h⟩
      | some fault => cases h

/-! ## Patches stand apart -/

/-- Branches noted so far lie inside the code, one after the other. -/
structure Apart (w : Writer) : Prop where
  ends : ∀ p ∈ w.patches.toList, p.finish = p.operand + p.width
  inside : ∀ p ∈ w.patches.toList, p.finish ≤ w.offset
  apart : w.patches.toList.Pairwise (fun p q => p.finish ≤ q.operand)

theorem Apart.start (plan : BranchPlan) : (Writer.start plan).Apart where
  ends := fun _ h => absurd h List.not_mem_nil
  inside := fun _ h => absurd h List.not_mem_nil
  apart := List.Pairwise.nil

theorem Apart.of_still {w w' : Writer} (h : w.Apart) (patches : w'.patches = w.patches)
    (offset : w.offset ≤ w'.offset) : w'.Apart where
  ends := patches ▸ h.ends
  inside := patches ▸ fun p hp => Nat.le_trans (h.inside p hp) offset
  apart := patches ▸ h.apart

theorem Apart.of_writeWith {w w' : Writer} {c : Constant} {f : UInt16 → OpCode × List UInt8}
    (a : w.Apart) (h : w.writeWith c f = (w', none)) : w'.Apart := by
  obtain ⟨index, pool, -, rfl⟩ := writeWith_ok h
  exact a.of_still rfl (Nat.le_trans (Nat.le_add_right _ _) (Nat.le_of_eq (offset_write ..).symm))

theorem Apart.step {w w' : Writer} {d : Directive} (a : w.Apart) (h : w.step d = (w', none)) :
    w'.Apart := by
  cases d with
  | line n => cases h; exact a.of_still rfl (Nat.le_refl _)
  | op code => cases h; exact a.of_still rfl (by rw [offset_write]; omega)
  | opByte code operand => cases h; exact a.of_still rfl (by rw [offset_write]; omega)
  | constant c => exact a.of_writeWith h
  | opId code id => rw [Writer.step] at h; exact a.of_writeWith h
  | call code id argc => rw [Writer.step] at h; exact a.of_writeWith h
  | branch kind label =>
      cases h
      have list : (w.writeBranch kind label).patches.toList
          = w.patches.toList ++ [w.branchPatch label] := by
        simp only [writeBranch_eq, Array.toList_push]
      have size : (w.writeBranch kind label).offset = (w.branchPatch label).finish := by
        show (w.write _ _).offset = _
        rw [offset_write, List.length_replicate]
        simp only [branchPatch]
        omega
      refine ⟨?_, ?_, ?_⟩
      · rw [list]
        intro p hp
        rcases List.mem_append.mp hp with old | new
        · exact a.ends p old
        · rw [List.mem_singleton.mp new]
          rfl
      · rw [list, size]
        intro p hp
        rcases List.mem_append.mp hp with old | new
        · have := a.inside p old
          simp only [branchPatch]
          omega
        · cases List.mem_singleton.mp new
          exact Nat.le_refl _
      · rw [list, List.pairwise_append]
        refine ⟨a.apart, List.pairwise_singleton _ _, ?_⟩
        intro p hp q hq
        rw [List.mem_singleton.mp hq]
        exact Nat.le_trans (a.inside p hp) (Nat.le_succ _)
  | mark label => cases h; exact a.of_still rfl (Nat.le_refl _)
  | refuse fault => cases h

theorem Apart.run {ds : List Directive} {w w' : Writer} (a : w.Apart)
    (h : w.run ds = .ok w') : w'.Apart := by
  induction ds generalizing w with
  | nil => cases h; exact a
  | cons d ds ih =>
      obtain ⟨w₁, taken, rest⟩ := run_cons h
      exact ih (a.step taken) rest

/-! ## The finished code, seen from the pass -/

/-- What has been written so far is part of the finished emission. -/
structure Ends (w : Writer) (em : Emission) : Prop where
  bytes : ∀ o b, w.chunk.readByte? o = some b → (∀ p ∈ w.patches.toList, p.Clear o) →
    em.chunk.readByte? o = some b
  pool : w.pool.Within em.pool
  branches : ∀ p ∈ w.patches.toList, ∃ target, em.labels[p.label]? = some target
    ∧ p.distance? em.chunk = some ((target : Int) - p.finish)

theorem Ends.back {w w' : Writer} {em : Emission} (g : w.Grows w') (h : w'.Ends em) :
    w.Ends em := by
  obtain ⟨bs, hbytes⟩ := g.bytes
  obtain ⟨ps, hpatches, later⟩ := g.patches
  refine ⟨?_, g.pool.trans h.pool, ?_⟩
  · intro o b hb clear
    have inside : o < w.offset := Chunk.lt_size_of_readByte? hb
    apply h.bytes o b
    · rw [Chunk.readByte?_eq_getElem?, hbytes,
        List.getElem?_append_left (Chunk.size_eq_length w.chunk ▸ inside),
        ← Chunk.readByte?_eq_getElem?]
      exact hb
    · rw [hpatches]
      intro p hp
      rcases List.mem_append.mp hp with old | new
      · exact clear p old
      · exact Or.inl (Nat.lt_trans inside (later p new))
  · intro p hp
    exact h.branches p (hpatches ▸ List.mem_append_left _ hp)

theorem Ends.back_run {ds : List Directive} {w w' : Writer} {em : Emission}
    (run : w.run ds = .ok w') (h : w'.Ends em) : w.Ends em := by
  induction ds generalizing w with
  | nil => cases run; exact h
  | cons d ds ih =>
      obtain ⟨w₁, taken, rest⟩ := run_cons run
      exact (ih rest).back (grows_step taken)

/-- Finishing checks the number of branches and completes the labels. -/
theorem finish_ok {w : Writer} {em : Emission} {n : Nat} (h : w.finish n = .ok em) :
    w.branchIndex = w.plan.count ∧ w.labels.complete = .ok em.labels
      ∧ w.patches.toList.foldlM (patch em.labels.toArray) w.chunk = .ok em.chunk
      ∧ em.pool = w.pool ∧ em.localCount = n := by
  simp only [finish] at h
  by_cases count : w.branchIndex = w.plan.count
  · simp only [count, ne_eq, not_true_eq_false, if_false, bind, Except.bind, pure,
      Except.pure] at h
    cases complete : w.labels.complete with
    | error fault => rw [complete] at h; cases h
    | ok labels =>
        rw [complete] at h
        simp only [← Array.foldlM_toList] at h
        cases patched : w.patches.toList.foldlM (patch labels.toArray) w.chunk with
        | error fault => rw [patched] at h; cases h
        | ok chunk =>
            rw [patched] at h
            cases h
            exact ⟨count, rfl, patched, rfl, rfl⟩
  · simp only [count, ne_eq, not_false_eq_true, if_true] at h
    cases h

theorem Ends.of_finish {w : Writer} {em : Emission} {n : Nat} (a : w.Apart)
    (h : w.finish n = .ok em) : w.Ends em ∧ em.chunk.size = w.offset := by
  obtain ⟨-, -, patched, pool, -⟩ := finish_ok h
  obtain ⟨size, same, distances⟩ := foldlM_patch patched a.ends a.inside a.apart
  refine ⟨⟨?_, pool ▸ .refl _, ?_⟩, size⟩
  · intro o b hb clear
    rw [same o clear]
    exact hb
  · intro p hp
    obtain ⟨target, known, distance⟩ := distances p hp
    exact ⟨target, by rw [← List.getElem?_toArray]; exact known, distance⟩

/-! ## Reading back what a step wrote -/

theorem Ends.holds {w w' : Writer} {em : Emission} {bs : List UInt8} (a : w.Apart)
    (bytes : w'.chunk.bytes = w.chunk.bytes ++ bs) (patches : w'.patches = w.patches)
    (h : w'.Ends em) : em.chunk.Holds w.offset bs := by
  intro i b hb
  apply h.bytes
  · rw [Chunk.readByte?_eq_getElem?, bytes, offset, Chunk.size_eq_length,
      List.getElem?_append_right (Nat.le_add_right _ _), Nat.add_sub_cancel_left]
    exact hb
  · rw [patches]
    intro p hp
    exact Or.inr (Nat.le_trans (a.inside p hp) (Nat.le_add_right _ _))

theorem Ends.holds_write {w : Writer} {em : Emission} {op : OpCode} {operands : List UInt8}
    (a : w.Apart) (h : (w.write op operands).Ends em) :
    em.chunk.Holds w.offset (op.toByte :: operands) :=
  h.holds a (bytes_write w op operands) rfl

end Writer

namespace Emission

theorem readOp?_of_holds {c : Chunk} {o : Nat} {op : OpCode} {operands : List UInt8}
    (h : c.Holds o (op.toByte :: operands)) : c.readOp? o = some op := by
  simp only [Chunk.readOp?, h.head, Option.bind_some, OpCode.ofByte?_toByte]

/-- An instruction is in the code between two offsets, as the directive asks. -/
structure Written (em : Emission) (o e : Nat) (d : Directive) (op : OpCode) : Prop where
  readOp : em.chunk.readOp? o = some op
  next : e = o + op.size
  asked : ∃ i, d.instruction? em.labels = some i ∧ em.operands? o op = some i

theorem Written.fetch {em : Emission} {o e : Nat} {d : Directive} {op : OpCode}
    (h : em.Written o e d op) :
    ∃ i, d.instruction? em.labels = some i ∧ em.fetch? o = some (i, e) := by
  obtain ⟨i, asked, read⟩ := h.asked
  exact ⟨i, asked, by rw [h.next, fetch?_of_readOp? h.readOp read]⟩

theorem operands?_plain {em : Emission} {o : Nat} {op : OpCode} (h : op.operandSize = 0) :
    em.operands? o op = some (.plain op) := by
  cases op <;> first | rfl | exact absurd h (by decide)

theorem identity?_of_holds {em : Emission} {o : Nat} {index : UInt16} {id : HostId}
    (held : em.chunk.Holds o (Chunk.wordBytes index))
    (known : em.pool.get? index.toNat = some (.id id)) : em.identity? o = some id := by
  simp only [identity?, Chunk.readU16?_of_holds held, known, Option.bind_eq_bind,
    Option.bind_some]

theorem operands?_named {em : Emission} {o : Nat} {op : OpCode} {id : HostId}
    (h : op ∈ [OpCode.getField, .getStatic, .box, .unbox, .castClass])
    (known : em.identity? (o + 1) = some id) : em.operands? o op = some (.named op id) := by
  simp only [List.mem_cons, List.not_mem_nil, or_false] at h
  rcases h with rfl | rfl | rfl | rfl | rfl <;> simp only [operands?, known, Option.map_some]

theorem operands?_branch {em : Emission} {o target : Nat} {kind : BranchKind} {long : Bool}
    (h : em.chunk.branchTarget? o = some target) :
    em.operands? o (if long then kind.longOp else kind.shortOp)
      = some (.branch kind target) := by
  cases kind <;> cases long <;>
    simp only [if_true, Bool.false_eq_true, if_false, BranchKind.longOp, BranchKind.shortOp,
      operands?, h, Option.map_some]

/-- A patched branch leads to its label. -/
theorem branchTarget?_of_distance {c : Chunk} {o target : Nat} {kind : BranchKind}
    {long : Bool} {p : Patch} (operand : p.operand = o + 1) (hlong : p.long = long)
    (finish : p.finish = p.operand + p.width)
    (read : c.readOp? o = some (if long then kind.longOp else kind.shortOp))
    (distance : p.distance? c = some ((target : Int) - p.finish)) :
    c.branchTarget? o = some target := by
  simp only [Patch.distance?] at distance
  simp only [Patch.width] at finish
  rw [hlong, operand] at distance finish
  simp only [Chunk.branchTarget?]
  cases long with
  | true =>
      have branch : kind.longOp.isBranch = true := by cases kind <;> rfl
      have operands : kind.longOp.operandSize = 4 := by cases kind <;> rfl
      simp only [if_true] at read distance finish
      simp only [read, branch, operands, OpCode.size, distance, finish, Option.bind_eq_bind,
        Option.bind_some, if_true, Nat.reduceEqDiff, if_false]
      rw [if_pos (by omega)]
      exact congrArg some (by omega)
  | false =>
      have branch : kind.shortOp.isBranch = true := by cases kind <;> rfl
      have operands : kind.shortOp.operandSize = 1 := by cases kind <;> rfl
      simp only [Bool.false_eq_true, if_false] at read distance finish
      simp only [read, branch, operands, OpCode.size, distance, finish, Option.bind_eq_bind,
        Option.bind_some, if_true]
      rw [if_pos (by omega)]
      exact congrArg some (by omega)

end Emission

namespace Writer

variable {w w' : Writer} {em : Emission}

/-- An instruction that names a constant stands in the code with the place that
the constant has in the finished pool. -/
theorem holds_writeWith {c : Constant} {f : UInt16 → OpCode × List UInt8} (a : w.Apart)
    (h : w.writeWith c f = (w', none)) (ends : w'.Ends em) :
    ∃ index : UInt16, em.pool.get? index.toNat = some c
      ∧ em.chunk.Holds w.offset ((f index).1.toByte :: (f index).2)
      ∧ w'.offset = w.offset + (1 + (f index).2.length) := by
  obtain ⟨index, pool, found, rfl⟩ := writeWith_ok h
  have bytes := bytes_write { w with pool := pool } (f index).1 (f index).2
  exact ⟨index, ends.pool _ _ (ConstantPool.operand_ok found).1, ends.holds a bytes rfl,
    offset_write ..⟩

theorem written_constant {c : Constant} (a : w.Apart) (h : w.step (.constant c) = (w', none))
    (ends : w'.Ends em) :
    ∃ op, Directive.opcode? em.pool (w.plan.isLong w.branchIndex) (.constant c) = some op
      ∧ em.Written w.offset w'.offset (.constant c) op := by
  rw [step] at h
  obtain ⟨index, known, bytes, next⟩ := holds_writeWith a h ends
  have place : em.pool.indexOf? c = some index.toNat :=
    ConstantPool.indexOf?_eq_some_iff.mpr known
  have narrow : index < 256 ↔ index.toNat < 256 := UInt16.lt_iff_toNat_lt
  simp only [Directive.opcode?, place, Option.any_some, decide_eq_true_eq]
  rw [next]
  by_cases small : index < 256
  · rw [pushConstant, if_pos small] at bytes
    rw [pushConstant, if_pos small, if_pos (narrow.mp small)]
    have byte : index.toUInt8.toNat = index.toNat := by
      rw [UInt16.toNat_toUInt8]
      exact Nat.mod_eq_of_lt (narrow.mp small)
    refine ⟨_, rfl, Emission.readOp?_of_holds bytes, rfl, _, rfl, ?_⟩
    simp only [Emission.operands?, bytes.tail.head, byte, known, Option.bind_eq_bind,
      Option.bind_some, Option.map_some]
  · rw [pushConstant, if_neg small] at bytes
    rw [pushConstant, if_neg small, if_neg (fun h => small (narrow.mpr h))]
    refine ⟨_, rfl, Emission.readOp?_of_holds bytes, rfl, _, rfl, ?_⟩
    simp only [Emission.operands?, Chunk.readU16?_of_holds bytes.tail, known,
      Option.bind_eq_bind, Option.bind_some, Option.map_some]

theorem written_opId {code : OpCode} {id : HostId} (a : w.Apart)
    (proper : (Directive.opId code id).Proper) (h : w.step (.opId code id) = (w', none))
    (ends : w'.Ends em) : em.Written w.offset w'.offset (.opId code id) code := by
  rw [step] at h
  obtain ⟨index, known, bytes, next⟩ := holds_writeWith a h ends
  have operands : code.operandSize = 2 := by
    simp only [Directive.Proper, List.mem_cons, List.not_mem_nil, or_false] at proper
    rcases proper with rfl | rfl | rfl | rfl | rfl <;> rfl
  refine ⟨Emission.readOp?_of_holds bytes, ?_, _, rfl, ?_⟩
  · rw [next, OpCode.size, operands]
    rfl
  · exact Emission.operands?_named proper (Emission.identity?_of_holds bytes.tail known)

theorem written_call {code : OpCode} {id : HostId} {argc : UInt8} (a : w.Apart)
    (proper : (Directive.call code id argc).Proper)
    (h : w.step (.call code id argc) = (w', none)) (ends : w'.Ends em) :
    em.Written w.offset w'.offset (.call code id argc) code := by
  rw [step] at h
  obtain ⟨index, known, bytes, next⟩ := holds_writeWith a h ends
  have named := Emission.identity?_of_holds (Chunk.Holds.left bytes.tail) known
  have count : em.chunk.readByte? (w.offset + 3) = some argc := bytes 3 argc rfl
  refine ⟨Emission.readOp?_of_holds bytes, ?_, _, rfl, ?_⟩
  · rw [next]
    rcases proper with rfl | rfl <;> rfl
  · rcases proper with rfl | rfl <;>
      simp only [Emission.operands?, named, count, Option.bind_eq_bind, Option.bind_some,
        Option.map_some]

theorem written_branch {kind : BranchKind} {label : Nat} (a : w.Apart)
    (h : w.step (.branch kind label) = (w', none)) (ends : w'.Ends em) :
    em.Written w.offset w'.offset (.branch kind label) (w.branchOp kind) := by
  cases h
  have new : w.branchPatch label ∈ (w.writeBranch kind label).patches.toList := by
    simp only [writeBranch_eq, Array.toList_push, List.mem_append, List.mem_singleton, or_true]
  obtain ⟨target, known, distance⟩ := ends.branches _ new
  have byte : em.chunk.readByte? w.offset = some (w.branchOp kind).toByte := by
    apply ends.bytes
    · rw [Chunk.readByte?_eq_getElem?, writeBranch_eq]
      show (w.write _ _).chunk.bytes[w.offset]? = _
      rw [bytes_write, offset, Chunk.size_eq_length,
        List.getElem?_append_right (Nat.le_refl _), Nat.sub_self, List.getElem?_cons_zero]
    · intro p hp
      simp only [writeBranch_eq, Array.toList_push, List.mem_append, List.mem_singleton] at hp
      rcases hp with old | rfl
      · exact Or.inr (a.inside p old)
      · exact Or.inl (Nat.lt_succ_self _)
  have read : em.chunk.readOp? w.offset = some (w.branchOp kind) := by
    simp only [Chunk.readOp?, byte, Option.bind_some, OpCode.ofByte?_toByte]
  refine ⟨read, ?_, .branch kind target, ?_, ?_⟩
  · show (w.write _ _).offset = _
    rw [offset_write, size_branchOp, List.length_replicate]
  · exact congrArg (Option.map (Instruction.branch kind)) known
  · exact Emission.operands?_branch
      (Emission.branchTarget?_of_distance (p := w.branchPatch label) rfl rfl rfl read distance)

/-- A step that asks for an instruction writes it, and any other writes nothing. -/
theorem step_writes {d : Directive} (a : w.Apart) (proper : d.Proper)
    (h : w.step d = (w', none)) (ends : w'.Ends em) :
    match d.opcode? em.pool (w.plan.isLong w.branchIndex) with
    | some op => em.Written w.offset w'.offset d op
    | none => w'.offset = w.offset := by
  cases d with
  | line n => cases h; rfl
  | op code =>
      cases h
      have bytes := ends.holds_write a
      refine ⟨Emission.readOp?_of_holds bytes, ?_, _, rfl, Emission.operands?_plain proper⟩
      rw [offset_write, OpCode.size, proper]
      rfl
  | opByte code place =>
      cases h
      have bytes := ends.holds_write a
      have read : em.chunk.readByte? (w.offset + 1) = some place := bytes.tail.head
      refine ⟨Emission.readOp?_of_holds bytes, ?_, _, rfl, ?_⟩
      · rw [offset_write]
        rcases proper with rfl | rfl <;> rfl
      · rcases proper with rfl | rfl <;> simp only [Emission.operands?, read, Option.map_some]
  | constant c =>
      obtain ⟨op, chosen, written⟩ := written_constant a h ends
      rw [chosen]
      exact written
  | opId code id => exact written_opId a proper h ends
  | call code id argc => exact written_call a proper h ends
  | branch kind label => exact written_branch a h ends
  | mark label => cases h; rfl
  | refuse fault => cases h

/-! ## Labels through a run -/

theorem at?_step {d : Directive} {k : Nat} (h : w.step d = (w', none)) (other : d ≠ .mark k) :
    w'.labels.at? k = w.labels.at? k := by
  cases d with
  | line n => cases h; rfl
  | op code => cases h; rfl
  | opByte code operand => cases h; rfl
  | constant c =>
      obtain ⟨index, pool, -, rfl⟩ := writeWith_ok h
      rfl
  | opId code id =>
      rw [step] at h
      obtain ⟨index, pool, -, rfl⟩ := writeWith_ok h
      rfl
  | call code id argc =>
      rw [step] at h
      obtain ⟨index, pool, -, rfl⟩ := writeWith_ok h
      rfl
  | branch kind label => cases h; rfl
  | mark label =>
      cases h
      rw [LabelTable.at?_mark, if_neg (fun same => other (congrArg Directive.mark same.symm))]
  | refuse fault => cases h

/-- A label that is not marked again stays where it is. -/
theorem at?_run {ds : List Directive} {k : Nat} (h : w.run ds = .ok w')
    (unmarked : k ∉ Directive.marks ds) : w'.labels.at? k = w.labels.at? k := by
  induction ds generalizing w with
  | nil => cases h; rfl
  | cons d ds ih =>
      obtain ⟨w₁, taken, rest⟩ := run_cons h
      have other : d ≠ .mark k := by
        rintro rfl
        exact unmarked List.mem_cons_self
      have later : k ∉ Directive.marks ds := fun hk => unmarked (by
        rw [Directive.marks_cons]
        exact List.mem_append_right _ hk)
      rw [ih rest later, at?_step taken other]

/-! ## The layout of a run -/

theorem laid_run {ds : List Directive} (a : w.Apart) (run : w.run ds = .ok w')
    (ends : w'.Ends em) (proper : ∀ d ∈ ds, d.Proper) (once : (Directive.marks ds).Nodup)
    (labels : ∀ k o, w'.labels.at? k = some o → em.labels[k]? = some o)
    (slots : ∀ place, .opByte .setLocal place ∈ ds → place.toNat < em.localCount) :
    em.Laid w.offset ds w'.offset := by
  induction ds generalizing w with
  | nil => cases run; exact .nil _
  | cons d ds ih =>
      obtain ⟨w₁, taken, rest⟩ := run_cons run
      have ends₁ : w₁.Ends em := ends.back_run rest
      have later (once' : (Directive.marks ds).Nodup) : em.Laid w₁.offset ds w'.offset :=
        ih (a.step taken) rest (fun d hd => proper d (List.mem_cons_of_mem _ hd)) once'
          (fun place hp => slots place (List.mem_cons_of_mem _ hp))
      have writes := step_writes a (proper d List.mem_cons_self) taken ends₁
      cases d with
      | line n => cases taken; exact .line (later once)
      | mark label =>
          cases taken
          obtain ⟨fresh, once'⟩ := List.nodup_cons.mp once
          refine .mark (labels label w.offset ?_) (later once')
          rw [at?_run rest fresh, LabelTable.at?_mark, if_pos rfl]
      | refuse fault => cases taken
      | opByte code place =>
          obtain ⟨i, asked, fetched⟩ := writes.fetch
          cases asked
          refine .instruction rfl fetched ?_ (later once)
          intro place' same
          cases same
          exact slots place List.mem_cons_self
      | op code =>
          obtain ⟨i, asked, fetched⟩ := writes.fetch
          cases asked
          exact .instruction rfl fetched (fun _ h => nomatch h) (later once)
      | constant c =>
          obtain ⟨i, asked, fetched⟩ := writes.fetch
          cases asked
          exact .instruction rfl fetched (fun _ h => nomatch h) (later once)
      | opId code id =>
          obtain ⟨i, asked, fetched⟩ := writes.fetch
          cases asked
          exact .instruction rfl fetched (fun _ h => nomatch h) (later once)
      | call code id argc =>
          obtain ⟨i, asked, fetched⟩ := writes.fetch
          cases asked
          exact .instruction rfl fetched (fun _ h => nomatch h) (later once)
      | branch kind label =>
          obtain ⟨i, asked, fetched⟩ := writes.fetch
          refine .instruction asked fetched ?_ (later once)
          rintro place rfl
          simp only [Directive.instruction?, Option.map_eq_some_iff] at asked
          obtain ⟨_, _, h⟩ := asked
          cases h

end Writer

namespace Directive

/-- How many temporary slots a directive needs for itself. -/
def slots : Directive → Nat
  | .opByte .setLocal place => place.toNat + 1
  | _ => 0

theorem localCount_eq_foldl (ds : List Directive) :
    localCount ds = ds.foldl (fun n d => max n d.slots) 0 := by
  simp only [localCount]
  congr 1
  funext n d
  split
  · rfl
  · next other =>
      have none : d.slots = 0 := by
        unfold slots
        split
        · exact absurd rfl (other _)
        · rfl
      rw [none, Nat.max_zero]

theorem slots_le_foldl (ds : List Directive) (n : Nat) :
    n ≤ ds.foldl (fun n d => max n d.slots) n
      ∧ ∀ d ∈ ds, d.slots ≤ ds.foldl (fun n d => max n d.slots) n := by
  induction ds generalizing n with
  | nil => exact ⟨Nat.le_refl n, fun _ h => absurd h List.not_mem_nil⟩
  | cons d ds ih =>
      obtain ⟨start, each⟩ := ih (max n d.slots)
      refine ⟨Nat.le_trans (Nat.le_max_left n d.slots) start, ?_⟩
      intro d' hd
      rcases List.mem_cons.mp hd with rfl | later
      · exact Nat.le_trans (Nat.le_max_right n _) start
      · exact each d' later

/-- Every slot that directives write to is counted. -/
theorem lt_localCount {ds : List Directive} {place : UInt8}
    (h : .opByte .setLocal place ∈ ds) : place.toNat < localCount ds := by
  rw [localCount_eq_foldl]
  exact (slots_le_foldl ds 0).2 _ h

end Directive

/-- An emission comes from a run of the pass and its last step. -/
theorem Emission.ofDirectives_ok {plan : BranchPlan} {ds : List Directive} {em : Emission}
    (h : Emission.ofDirectives plan ds = .ok em) :
    ∃ w, (Writer.start plan).run ds = .ok w ∧ w.finish (Directive.localCount ds) = .ok em := by
  simp only [Emission.ofDirectives] at h
  cases run : (Writer.start plan).run ds with
  | error fault => rw [run] at h; cases h
  | ok w => rw [run] at h; exact ⟨w, rfl, h⟩

/-- Directives are laid out in the code that comes of them. -/
theorem Emission.laid_ofDirectives {plan : BranchPlan} {ds : List Directive} {em : Emission}
    (h : Emission.ofDirectives plan ds = .ok em) (proper : ∀ d ∈ ds, d.Proper)
    (once : (Directive.marks ds).Nodup) : em.Laid 0 ds em.chunk.size := by
  obtain ⟨w, run, finished⟩ := ofDirectives_ok h
  have apart := (Writer.Apart.start plan).run run
  obtain ⟨ends, size⟩ := Writer.Ends.of_finish apart finished
  obtain ⟨-, complete, -, -, locals⟩ := Writer.finish_ok finished
  rw [size]
  refine Writer.laid_run (.start plan) run ends proper once ?_ ?_
  · intro k o known
    rw [← LabelTable.at?_of_complete complete]
    exact known
  · intro place hp
    rw [locals]
    exact Directive.lt_localCount hp

end ExprCompiler
