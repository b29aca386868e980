/-
# Code is read back as it was written

An instruction is an operation byte and the operand bytes that the operation
asks for, and nothing in a chunk marks where one ends.  A list of instructions
(`RawInstruction`) is written one word at a time, each word for a line of its
own; then the operands of some branches are patched, in any order and as often
as one likes.  What a reader finds is stated against the list alone: the
operations at the sums of the sizes before them, the operands last put there,
the line of every byte, and for a patched branch the place it leads to.

The idea is that a patch is invisible: patching a branch of written code gives
the very chunk that writing the code with that branch's operand changed would
have given (`patch_ofCode`).  So every fact about reading is proved of written
code only.
-/
import ExprCompiler.Proofs.Code.Bytes

namespace ExprCompiler

/-! ## Instructions as they are written -/

/-- The operands of an instruction by the words they are written in, each word
with the line it is written for. -/
inductive Operands
  | none
  | byte (value : UInt8) (line : Nat)
  | word (value : UInt16) (line : Nat)
  | wordByte (value : UInt16) (line : Nat) (count : UInt8) (countLine : Nat)
  | short (distance : Int8) (line : Nat)
  | long (distance : Int32) (line : Nat)
  deriving DecidableEq, Repr

/-- The distance that a patch puts into a short or a long branch. -/
inductive Displacement
  | short (distance : Int8)
  | long (distance : Int32)
  deriving DecidableEq, Repr

namespace Displacement

def size : Displacement → Nat
  | short _ => 1
  | long _ => 4

def toInt : Displacement → Int
  | short distance => distance.toInt
  | long distance => distance.toInt

def patch (c : Chunk) (place : Nat) : Displacement → Chunk
  | short distance => c.patchI8 place distance
  | long distance => c.patchI32 place distance

/-- The distance is what the operand at an offset reads as. -/
def ReadAt (c : Chunk) (o : Nat) : Displacement → Prop
  | short distance => (c.readByte? o).map UInt8.toInt8 = some distance
  | long distance => c.readI32? o = some distance

end Displacement

namespace Operands

def size : Operands → Nat
  | none => 0
  | byte .. => 1
  | word .. => 2
  | wordByte .. => 3
  | short .. => 1
  | long .. => 4

def write (c : Chunk) : Operands → Chunk
  | none => c
  | byte value line => c.writeByte value line
  | word value line => c.writeU16 value line
  | wordByte value line count countLine => (c.writeU16 value line).writeByte count countLine
  | short distance line => c.writeByte distance.toUInt8 line
  | long distance line => c.writeI32 distance line

def bytes : Operands → List UInt8
  | none => []
  | byte value _ => [value]
  | word value _ => Chunk.wordBytes value
  | wordByte value _ count _ => Chunk.wordBytes value ++ [count]
  | short distance _ => [distance.toUInt8]
  | long distance _ => Chunk.offsetBytes distance

/-- The line of each byte. -/
def lines : Operands → List Nat
  | none => []
  | byte _ line => [line]
  | word _ line => [line, line]
  | wordByte _ line _ countLine => [line, line, countLine]
  | short _ line => [line]
  | long _ line => [line, line, line, line]

/-- The operands are what the words from an offset on read as. -/
def ReadAt (c : Chunk) (o : Nat) : Operands → Prop
  | none => True
  | byte value _ => c.readByte? o = some value
  | word value _ => c.readU16? o = some value
  | wordByte value _ count _ => c.readU16? o = some value ∧ c.readByte? (o + 2) = some count
  | short distance _ => (c.readByte? o).map UInt8.toInt8 = some distance
  | long distance _ => c.readI32? o = some distance

/-- The operands of a branch with another distance, on the lines they are on. -/
def redirect : Operands → Displacement → Operands
  | byte _ line, .short distance => short distance line
  | short _ line, .short distance => short distance line
  | long _ line, .long distance => long distance line
  | operands, _ => operands

theorem size_redirect (operands : Operands) (d : Displacement) :
    (operands.redirect d).size = operands.size := by
  cases operands <;> cases d <;> rfl

theorem lines_redirect (operands : Operands) (d : Displacement) :
    (operands.redirect d).lines = operands.lines := by
  cases operands <;> cases d <;> rfl

theorem length_bytes (operands : Operands) : operands.bytes.length = operands.size := by
  cases operands <;> rfl

/-- Operands whose bytes are held are read back. -/
theorem readAt_of_holds {operands : Operands} {c : Chunk} {o : Nat}
    (h : c.Holds o operands.bytes) : operands.ReadAt c o := by
  cases operands with
  | none => trivial
  | byte => exact h.head
  | word => exact Chunk.readU16?_of_holds h
  | wordByte value line count countLine =>
      exact ⟨Chunk.readU16?_of_holds h.left, h 2 count rfl⟩
  | short distance =>
      show (c.readByte? o).map UInt8.toInt8 = some distance
      rw [h.head, Option.map_some, Int8.toInt8_toUInt8]
  | long => exact Chunk.readI32?_of_holds h

/-- Redirected operands read as the new distance. -/
theorem readAt_of_redirect {operands : Operands} {d : Displacement} {c : Chunk} {o : Nat}
    (fits : d.size = operands.size) (h : (operands.redirect d).ReadAt c o) : d.ReadAt c o := by
  cases operands <;> cases d <;> first | exact h | cases fits

end Operands

/-- An operation with operands of exactly the size it asks for, and the line that
its own byte is written for. -/
structure RawInstruction where
  op : OpCode
  line : Nat
  operands : Operands
  fits : operands.size = op.operandSize

namespace RawInstruction

def write (c : Chunk) (i : RawInstruction) : Chunk :=
  i.operands.write (c.writeOp i.op i.line)

def bytes (i : RawInstruction) : List UInt8 := i.op.toByte :: i.operands.bytes

def lines (i : RawInstruction) : List Nat := i.line :: i.operands.lines

def redirect (i : RawInstruction) (d : Displacement) : RawInstruction where
  op := i.op
  line := i.line
  operands := i.operands.redirect d
  fits := (i.operands.size_redirect d).trans i.fits

theorem length_bytes (i : RawInstruction) : i.bytes.length = i.op.size := by
  rw [bytes, List.length_cons, Operands.length_bytes, i.fits, OpCode.size, Nat.add_comm]

theorem lines_redirect (i : RawInstruction) (d : Displacement) :
    (i.redirect d).lines = i.lines := by
  simp only [lines, redirect, Operands.lines_redirect]

end RawInstruction

/-! ## Offsets -/

namespace OpCode

/-- How many bytes the instructions of these operations take. -/
def extent : List OpCode → Nat
  | [] => 0
  | op :: ops => op.size + extent ops

/-- Where the instruction at a place of the list starts. -/
def start (ops : List OpCode) (k : Nat) : Nat := extent (ops.take k)

/-- The operations with their offsets, the first at `o`. -/
def sitesFrom (o : Nat) : List OpCode → List (Nat × OpCode)
  | [] => []
  | op :: ops => (o, op) :: sitesFrom (o + op.size) ops

theorem extent_append (ops ops' : List OpCode) :
    extent (ops ++ ops') = extent ops + extent ops' := by
  induction ops with
  | nil => exact (Nat.zero_add _).symm
  | cons op ops ih => rw [List.cons_append, extent, extent, ih, Nat.add_assoc]

end OpCode

/-! ## Chunks by their bytes and lines -/

namespace Chunk

/-- The lines of the bytes. -/
def lines (c : Chunk) : List Nat := c.cells.toList.map (·.line)

theorem lineAt?_eq_getElem? (c : Chunk) (o : Nat) : c.lineAt? o = c.lines[o]? := by
  simp only [lineAt?, lines, List.getElem?_map, Array.getElem?_toList]

theorem length_lines (c : Chunk) : c.lines.length = c.size := by
  simp only [lines, size, List.length_map, Array.length_toList]

theorem eq_of_bytes_lines {c c' : Chunk} (bytes : c.bytes = c'.bytes)
    (lines : c.lines = c'.lines) : c = c' := by
  have cells (c : Chunk) : c.cells.toList = List.zipWith Cell.mk c.bytes c.lines := by
    simp only [Chunk.bytes, Chunk.lines, List.zipWith_map, List.zipWith_self, List.map_id']
  have same : c.cells.toList = c'.cells.toList := by
    rw [cells c, cells c', bytes, lines]
  cases c
  cases c'
  exact congrArg Chunk.mk (Array.toList_inj.mp same)

theorem lines_writeByte (c : Chunk) (b : UInt8) (line : Nat) :
    (c.writeByte b line).lines = c.lines ++ [line] := by
  simp only [writeByte, lines, Array.toList_push, List.map_append, List.map_cons, List.map_nil]

theorem lines_writeBytes (c : Chunk) (bs : List UInt8) (line : Nat) :
    (c.writeBytes bs line).lines = c.lines ++ List.replicate bs.length line := by
  simp only [writeBytes]
  induction bs generalizing c with
  | nil => exact (List.append_nil _).symm
  | cons b bs ih =>
      rw [List.foldl_cons, ih, lines_writeByte, List.append_assoc, List.singleton_append,
        List.length_cons, List.replicate_succ]

theorem lines_setByte (c : Chunk) (place : Nat) (b : UInt8) :
    (c.setByte place b).lines = c.lines := by
  apply List.ext_getElem?
  intro i
  simp only [← lineAt?_eq_getElem?, lineAt?, setByte, Array.getElem?_modify]
  split
  · rw [Option.map_map]
    rfl
  · rfl

theorem lines_setBytes (c : Chunk) (place : Nat) (bs : List UInt8) :
    (c.setBytes place bs).lines = c.lines := by
  induction bs generalizing c place with
  | nil => rfl
  | cons b bs ih => rw [setBytes, ih, lines_setByte]

/-- Bytes patched over as many others. -/
theorem bytes_setBytes {c : Chunk} {before old after bs : List UInt8}
    (split : c.bytes = before ++ old ++ after) (same : bs.length = old.length) :
    (c.setBytes before.length bs).bytes = before ++ bs ++ after := by
  induction bs generalizing c before old with
  | nil =>
      cases List.length_eq_zero_iff.mp same.symm
      exact split
  | cons b bs ih =>
      obtain ⟨first, old, rfl⟩ := List.exists_cons_of_length_eq_add_one same.symm
      have patched : (c.setByte before.length b).bytes = (before ++ [b]) ++ old ++ after := by
        rw [bytes_setByte, split]
        simp
      have rest := ih patched (Nat.succ.inj same)
      rw [List.length_append, List.length_singleton] at rest
      rw [setBytes, rest]
      simp

theorem holds_of_bytes {c : Chunk} {before bs after : List UInt8}
    (split : c.bytes = before ++ bs ++ after) : c.Holds before.length bs := by
  intro i b hb
  have inside : i < bs.length := (List.getElem?_eq_some_iff.mp hb).1
  rw [readByte?_eq_getElem?, split, List.append_assoc, List.getElem?_append_right (by omega),
    Nat.add_sub_cancel_left, List.getElem?_append_left inside, hb]

end Chunk

theorem Displacement.lines_patch (d : Displacement) (c : Chunk) (place : Nat) :
    (d.patch c place).lines = c.lines := by
  cases d with
  | short => exact Chunk.lines_setByte _ _ _
  | long => exact Chunk.lines_setBytes _ _ _

theorem Operands.bytes_write (operands : Operands) (c : Chunk) :
    (operands.write c).bytes = c.bytes ++ operands.bytes := by
  cases operands with
  | none => exact (List.append_nil _).symm
  | byte => exact Chunk.bytes_writeByte _ _ _
  | word => exact Chunk.bytes_writeBytes _ _ _
  | wordByte =>
      rw [write, Chunk.bytes_writeByte, Chunk.writeU16, Chunk.bytes_writeBytes, bytes,
        List.append_assoc]
  | short => exact Chunk.bytes_writeByte _ _ _
  | long => exact Chunk.bytes_writeBytes _ _ _

theorem Operands.lines_write (operands : Operands) (c : Chunk) :
    (operands.write c).lines = c.lines ++ operands.lines := by
  cases operands with
  | none => exact (List.append_nil _).symm
  | byte => exact Chunk.lines_writeByte _ _ _
  | word => exact Chunk.lines_writeBytes _ _ _
  | wordByte =>
      rw [write, Chunk.lines_writeByte, Chunk.writeU16, Chunk.lines_writeBytes, lines,
        List.append_assoc]
      rfl
  | short => exact Chunk.lines_writeByte _ _ _
  | long => exact Chunk.lines_writeBytes _ _ _

/-! ## Written code -/

namespace Chunk

/-- Code written from its start. -/
def ofCode (code : List RawInstruction) : Chunk := code.foldl RawInstruction.write empty

theorem bytes_ofCode (code : List RawInstruction) :
    (ofCode code).bytes = code.flatMap RawInstruction.bytes := by
  have written (c : Chunk) : (code.foldl RawInstruction.write c).bytes =
      c.bytes ++ code.flatMap RawInstruction.bytes := by
    induction code generalizing c with
    | nil => exact (List.append_nil _).symm
    | cons i code ih =>
        rw [List.foldl_cons, ih, RawInstruction.write, Operands.bytes_write, writeOp,
          bytes_writeByte, List.flatMap_cons, RawInstruction.bytes]
        simp
  exact written empty

theorem lines_ofCode (code : List RawInstruction) :
    (ofCode code).lines = code.flatMap RawInstruction.lines := by
  have written (c : Chunk) : (code.foldl RawInstruction.write c).lines =
      c.lines ++ code.flatMap RawInstruction.lines := by
    induction code generalizing c with
    | nil => exact (List.append_nil _).symm
    | cons i code ih =>
        rw [List.foldl_cons, ih, RawInstruction.write, Operands.lines_write, writeOp,
          lines_writeByte, List.flatMap_cons, RawInstruction.lines]
        simp
  exact written empty

theorem length_flatMap_bytes (code : List RawInstruction) :
    (code.flatMap RawInstruction.bytes).length = OpCode.extent (code.map (·.op)) := by
  induction code with
  | nil => rfl
  | cons i code ih =>
      rw [List.flatMap_cons, List.length_append, ih, RawInstruction.length_bytes, List.map_cons,
        OpCode.extent]

theorem size_ofCode (code : List RawInstruction) :
    (ofCode code).size = OpCode.extent (code.map (·.op)) := by
  rw [size_eq_length, bytes_ofCode, length_flatMap_bytes]

/-- Every instruction stands at the end of those before it. -/
theorem holds_ofCode (before : List RawInstruction) (i : RawInstruction)
    (after : List RawInstruction) :
    (ofCode (before ++ i :: after)).Holds (OpCode.extent (before.map (·.op))) i.bytes := by
  have split : (ofCode (before ++ i :: after)).bytes =
      before.flatMap RawInstruction.bytes ++ i.bytes ++ after.flatMap RawInstruction.bytes := by
    rw [bytes_ofCode, List.flatMap_append, List.flatMap_cons, List.append_assoc]
  rw [← length_flatMap_bytes before]
  exact holds_of_bytes split

theorem readOp?_of_holds {c : Chunk} {o : Nat} {i : RawInstruction} (h : c.Holds o i.bytes) :
    c.readOp? o = some i.op := by
  rw [readOp?, Holds.head h, Option.bind_some, OpCode.ofByte?_toByte]

/-- Reading from an instruction on finds it and the rest. -/
theorem instructionsFrom_ofCode (before rest : List RawInstruction)
    (found : Array (Nat × OpCode)) :
    ((ofCode (before ++ rest)).instructionsFrom (OpCode.extent (before.map (·.op))) found).toList =
      found.toList
        ++ OpCode.sitesFrom (OpCode.extent (before.map (·.op))) (rest.map (·.op)) := by
  induction rest generalizing before found with
  | nil =>
      have atEnd : ¬ OpCode.extent (before.map (·.op)) < (ofCode (before ++ [])).size := by
        rw [List.append_nil, size_ofCode]
        exact Nat.lt_irrefl _
      rw [instructionsFrom, if_neg atEnd]
      exact (List.append_nil _).symm
  | cons i rest ih =>
      have next : OpCode.extent ((before ++ [i]).map (·.op)) =
          OpCode.extent (before.map (·.op)) + i.op.size := by
        rw [List.map_append, OpCode.extent_append]
        rfl
      have later := ih (before ++ [i]) (found.push (OpCode.extent (before.map (·.op)), i.op))
      rw [List.append_assoc, List.singleton_append, next] at later
      rw [instructionsFrom_of_readOp? (readOp?_of_holds (holds_ofCode before i rest)), later,
        Array.toList_push, List.map_cons, OpCode.sitesFrom, List.append_assoc,
        List.singleton_append]

theorem instructions_ofCode (code : List RawInstruction) :
    (ofCode code).instructions = OpCode.sitesFrom 0 (code.map (·.op)) :=
  instructionsFrom_ofCode [] code #[]

/-- An instruction of written code, at its offset. -/
theorem holds_ofCode_start {code : List RawInstruction} {k : Nat} {i : RawInstruction}
    (found : code[k]? = some i) :
    (ofCode code).Holds (OpCode.start (code.map (·.op)) k) i.bytes := by
  obtain ⟨inside, rfl⟩ := List.getElem?_eq_some_iff.mp found
  have split : code = code.take k ++ code[k] :: code.drop (k + 1) := by
    rw [← List.drop_eq_getElem_cons inside, List.take_append_drop]
  have held := holds_ofCode (code.take k) code[k] (code.drop (k + 1))
  rw [← split, List.map_take] at held
  exact held

theorem readAt_ofCode {code : List RawInstruction} {k : Nat} {i : RawInstruction}
    (found : code[k]? = some i) :
    i.operands.ReadAt (ofCode code) (OpCode.start (code.map (·.op)) k + 1) :=
  Operands.readAt_of_holds (holds_ofCode_start found).tail

/-- A branch leads as far from its own end as its operand says. -/
theorem branchTarget?_of_readAt {c : Chunk} {o : Nat} {op : OpCode} {d : Displacement}
    (read : c.readOp? o = some op) (branch : op.isBranch = true)
    (fits : d.size = op.operandSize) (distance : d.ReadAt c (o + 1)) :
    c.branchTarget? o =
      if 0 ≤ ((o + op.size : Nat) : Int) + d.toInt
        then some (((o + op.size : Nat) : Int) + d.toInt).toNat else none := by
  simp only [branchTarget?, read, Option.bind_eq_bind, Option.bind_some, branch, if_true]
  cases d with
  | short d =>
      obtain ⟨b, hb, rfl⟩ := Option.map_eq_some_iff.mp distance
      have one : op.operandSize = 1 := fits.symm
      simp only [one, if_true, hb, Option.map_some, Option.bind_some]
      rfl
  | long d =>
      have four : op.operandSize = 4 := fits.symm
      have word : c.readI32? (o + 1) = some d := distance
      simp only [four, word, Option.map_some, Option.bind_some, Nat.reduceEqDiff, if_false]
      rfl

/-! ## Patched code -/

/-- A patch of the branch at a place of the code. -/
structure Redirection where
  place : Nat
  distance : Displacement

namespace Redirection

/-- The patch names a branch whose operand it fills. -/
def Fits (code : List RawInstruction) (t : Redirection) : Prop :=
  ∃ i, code[t.place]? = some i ∧ i.op.isBranch = true ∧ t.distance.size = i.op.operandSize

/-- Patches the operand in a chunk with these operations. -/
def patch (ops : List OpCode) (c : Chunk) (t : Redirection) : Chunk :=
  t.distance.patch c (OpCode.start ops t.place + 1)

/-- Changes the operand in the code itself. -/
def apply (code : List RawInstruction) (t : Redirection) : List RawInstruction :=
  code.modify t.place (·.redirect t.distance)

/-- The distance that the last patch of a branch gives, if it is patched at all. -/
def latest? (k : Nat) : List Redirection → Option Displacement
  | [] => none
  | t :: later => (latest? k later).or (if t.place = k then some t.distance else none)

end Redirection

/-- Written code with patches made in turn. -/
def patched (code : List RawInstruction) (patches : List Redirection) : Chunk :=
  patches.foldl (Redirection.patch (code.map (·.op))) (ofCode code)

theorem getElem?_apply (code : List RawInstruction) (t : Redirection) (k : Nat) :
    (t.apply code)[k]? =
      if t.place = k then (code[k]?).map (·.redirect t.distance) else code[k]? := by
  rw [Redirection.apply, List.getElem?_modify]
  by_cases here : t.place = k
  · simp [here]
  · simp [here]

/-- A redirection keeps whatever it keeps of each instruction. -/
theorem map_apply {α : Type} {f : RawInstruction → α} (kept : ∀ i d, f (i.redirect d) = f i)
    (code : List RawInstruction) (t : Redirection) : (t.apply code).map f = code.map f := by
  apply List.ext_getElem?
  intro k
  rw [List.getElem?_map, List.getElem?_map, getElem?_apply]
  by_cases here : t.place = k
  · have same : f ∘ (·.redirect t.distance) = f := funext fun i => kept i t.distance
    rw [if_pos here, Option.map_map, same]
  · rw [if_neg here]

theorem map_foldl_apply {α : Type} {f : RawInstruction → α} (kept : ∀ i d, f (i.redirect d) = f i)
    (patches : List Redirection) (code : List RawInstruction) :
    (patches.foldl Redirection.apply code).map f = code.map f := by
  induction patches generalizing code with
  | nil => rfl
  | cons t patches ih => rw [List.foldl_cons, ih, map_apply kept]

/-- A list taken apart at one of its instructions. -/
theorem flatMap_at {α : Type} {code : List RawInstruction} {k : Nat} (inside : k < code.length)
    (f : RawInstruction → List α) :
    code.flatMap f =
      (code.take k).flatMap f ++ f code[k] ++ (code.drop (k + 1)).flatMap f := by
  have split : code.take k ++ code[k] :: code.drop (k + 1) = code := by
    rw [← List.drop_eq_getElem_cons inside, List.take_append_drop]
  calc code.flatMap f = (code.take k ++ code[k] :: code.drop (k + 1)).flatMap f := by rw [split]
    _ = _ := by rw [List.flatMap_append, List.flatMap_cons, List.append_assoc]

/-- The bytes of a redirected branch differ in the operand only. -/
theorem bytes_redirect {i : RawInstruction} {d : Displacement}
    (fits : d.size = i.op.operandSize) :
    ∃ bs, bs.length = d.size ∧ i.operands.bytes.length = d.size ∧
      (i.redirect d).bytes = i.op.toByte :: bs ∧
      ∀ (c : Chunk) (place : Nat), d.patch c place = c.setBytes place bs := by
  have same : d.size = i.operands.size := fits.trans i.fits.symm
  obtain ⟨op, line, operands, _⟩ := i
  cases d with
  | short d =>
      refine ⟨[d.toUInt8], rfl, (Operands.length_bytes _).trans same.symm, ?_, fun _ _ => rfl⟩
      cases operands <;> first | rfl | cases same
  | long d =>
      refine ⟨offsetBytes d, rfl, (Operands.length_bytes _).trans same.symm, ?_, fun _ _ => rfl⟩
      cases operands <;> first | rfl | cases same

/-- Patching written code is writing the code with that branch redirected. -/
theorem patch_ofCode {code : List RawInstruction} {t : Redirection} (fits : t.Fits code) :
    t.patch (code.map (·.op)) (ofCode code) = ofCode (t.apply code) := by
  obtain ⟨k, d⟩ := t
  obtain ⟨i, found, -, size⟩ := fits
  obtain ⟨inside, rfl⟩ := List.getElem?_eq_some_iff.mp found
  obtain ⟨bs, newLength, oldLength, redirected, patches⟩ := bytes_redirect size
  have apply_eq : Redirection.apply code ⟨k, d⟩ =
      code.take k ++ code[k].redirect d :: code.drop (k + 1) :=
    List.modify_eq_take_cons_drop inside
  apply eq_of_bytes_lines
  · have split : (ofCode code).bytes =
        ((code.take k).flatMap RawInstruction.bytes ++ [code[k].op.toByte])
          ++ code[k].operands.bytes ++ (code.drop (k + 1)).flatMap RawInstruction.bytes := by
      rw [bytes_ofCode, flatMap_at inside, RawInstruction.bytes]
      simp
    have place : OpCode.start (code.map (·.op)) k + 1 =
        ((code.take k).flatMap RawInstruction.bytes ++ [code[k].op.toByte]).length := by
      rw [List.length_append, length_flatMap_bytes, OpCode.start, List.map_take]
      rfl
    rw [Redirection.patch, patches, place, bytes_setBytes split (newLength.trans oldLength.symm),
      bytes_ofCode, apply_eq, List.flatMap_append, List.flatMap_cons, redirected]
    simp
  · rw [Redirection.patch, Displacement.lines_patch, lines_ofCode, lines_ofCode, apply_eq,
      flatMap_at inside, List.flatMap_append, List.flatMap_cons, RawInstruction.lines_redirect,
      List.append_assoc]

theorem fits_apply {code : List RawInstruction} {u : Redirection} (h : u.Fits code)
    (t : Redirection) : u.Fits (t.apply code) := by
  obtain ⟨i, found, branch, size⟩ := h
  rw [Redirection.Fits, getElem?_apply, found]
  by_cases here : t.place = u.place
  · exact ⟨i.redirect t.distance, if_pos here, branch, size⟩
  · exact ⟨i, if_neg here, branch, size⟩

/-- Patches made in turn give the chunk of the code with its branches redirected in turn. -/
theorem patched_eq {code : List RawInstruction} {patches : List Redirection}
    (fits : ∀ t ∈ patches, t.Fits code) :
    patched code patches = ofCode (patches.foldl Redirection.apply code) := by
  simp only [patched]
  induction patches generalizing code with
  | nil => rfl
  | cons t patches ih =>
      have fits' : ∀ u ∈ patches, u.Fits (t.apply code) :=
        fun u hu => fits_apply (fits u (List.mem_cons_of_mem _ hu)) t
      have rest := ih fits'
      rw [map_apply (fun _ _ => rfl)] at rest
      rw [List.foldl_cons, List.foldl_cons, patch_ofCode (fits t List.mem_cons_self), rest]

/-- What redirections in turn leave at a place: the instruction that was there, or
one with the distance of the last of them. -/
theorem getElem?_foldl_apply {code : List RawInstruction} {k : Nat} {i : RawInstruction}
    (found : code[k]? = some i) (patches : List Redirection) :
    ∃ j : RawInstruction, (patches.foldl Redirection.apply code)[k]? = some j ∧ j.op = i.op ∧
      (Redirection.latest? k patches = none → j = i) ∧
      ∀ d, Redirection.latest? k patches = some d →
        ∃ i' : RawInstruction, i'.op = i.op ∧ j = i'.redirect d := by
  induction patches generalizing code i with
  | nil => exact ⟨i, found, rfl, fun _ => rfl, fun d h => by cases h⟩
  | cons t patches ih =>
      rw [List.foldl_cons]
      by_cases here : t.place = k
      · have next : (t.apply code)[k]? = some (i.redirect t.distance) := by
          rw [getElem?_apply, if_pos here, found, Option.map_some]
        obtain ⟨j, left, op, same, last⟩ := ih next
        refine ⟨j, left, op, ?_, ?_⟩
        · intro none
          simp [Redirection.latest?, here] at none
        · intro d hd
          simp only [Redirection.latest?, here, if_true] at hd
          cases later : Redirection.latest? k patches with
          | some d' =>
              rw [later, Option.some_or] at hd
              cases hd
              exact last d later
          | none =>
              rw [later, Option.none_or] at hd
              cases hd
              exact ⟨i, rfl, same later⟩
      · have next : (t.apply code)[k]? = some i := by
          rw [getElem?_apply, if_neg here, found]
        have skip : Redirection.latest? k (t :: patches) = Redirection.latest? k patches := by
          simp only [Redirection.latest?, here, if_false, Option.or_none]
        rw [skip]
        exact ih next

theorem fits_of_latest? {code : List RawInstruction} {k : Nat} {d : Displacement}
    {patches : List Redirection} (fits : ∀ t ∈ patches, t.Fits code)
    (h : Redirection.latest? k patches = some d) : Redirection.Fits code ⟨k, d⟩ := by
  induction patches with
  | nil => cases h
  | cons t patches ih =>
      simp only [Redirection.latest?] at h
      rcases Option.or_eq_some_iff.mp h with later | ⟨-, here⟩
      · exact ih (fun u hu => fits u (List.mem_cons_of_mem _ hu)) later
      · split at here
        · next same =>
            cases here
            cases same
            exact fits t List.mem_cons_self
        · cases here

/-- A patch leaves every byte outside its operand alone. -/
theorem readByte?_patch_outside {ops : List OpCode} {t : Redirection} {i : RawInstruction}
    (size : t.distance.size = i.op.operandSize) (c : Chunk) {o : Nat}
    (outside : o ≤ OpCode.start ops t.place ∨ OpCode.start ops t.place + i.op.size ≤ o) :
    (t.patch ops c).readByte? o = c.readByte? o := by
  obtain ⟨bs, length, -, -, patches⟩ := bytes_redirect size
  rw [Redirection.patch, patches]
  apply readByte?_setBytes_outside
  rw [length, size]
  rw [OpCode.size] at outside
  omega

/-- Code is read back as it was written and patched.  Whatever branches are patched,
in any order, the instructions are found where the sizes before them put them; every
byte keeps the line it was written for; operands read as they were written or last
patched, each patch changing those of its own branch only; and a patched branch leads
as far from its end as its last patch says. -/
theorem patched_read_back (code : List RawInstruction) (patches : List Redirection)
    (fits : ∀ t ∈ patches, t.Fits code) :
    (patched code patches).instructions = OpCode.sitesFrom 0 (code.map (·.op)) ∧
    (∀ o, (patched code patches).lineAt? o = (code.flatMap RawInstruction.lines)[o]?) ∧
    (∀ o, ((patched code patches).lineAt? o).isSome ↔ o < (patched code patches).size) ∧
    (∀ before t after, patches = before ++ t :: after → ∀ i o, code[t.place]? = some i →
      (o ≤ OpCode.start (code.map (·.op)) t.place ∨
        OpCode.start (code.map (·.op)) t.place + i.op.size ≤ o) →
      (patched code (before ++ [t])).readByte? o = (patched code before).readByte? o) ∧
    ∀ k i, code[k]? = some i →
      (Redirection.latest? k patches = none →
        i.operands.ReadAt (patched code patches) (OpCode.start (code.map (·.op)) k + 1)) ∧
      ∀ d, Redirection.latest? k patches = some d →
        d.ReadAt (patched code patches) (OpCode.start (code.map (·.op)) k + 1) ∧
        (patched code patches).branchTarget? (OpCode.start (code.map (·.op)) k) =
          if 0 ≤ ((OpCode.start (code.map (·.op)) k + i.op.size : Nat) : Int) + d.toInt
            then some (((OpCode.start (code.map (·.op)) k + i.op.size : Nat) : Int)
              + d.toInt).toNat
            else none := by
  have whole := patched_eq fits
  have ops : (patches.foldl Redirection.apply code).map (·.op) = code.map (·.op) :=
    map_foldl_apply (fun _ _ => rfl) patches code
  have lines : (patched code patches).lines = code.flatMap RawInstruction.lines := by
    rw [whole, lines_ofCode, List.flatMap_def, List.flatMap_def,
      map_foldl_apply RawInstruction.lines_redirect]
  refine ⟨?_, ?_, ?_, ?_, ?_⟩
  · rw [whole, instructions_ofCode, ops]
  · intro o
    rw [lineAt?_eq_getElem?, lines]
  · intro o
    rw [lineAt?_eq_getElem?, ← length_lines, isSome_getElem?]
  · rintro before t after rfl i o found outside
    obtain ⟨i', found', -, size⟩ := fits t (List.mem_append_right _ List.mem_cons_self)
    rw [found] at found'
    cases found'
    rw [patched, List.foldl_append]
    exact readByte?_patch_outside size _ outside
  · intro k i found
    obtain ⟨j, left, op, same, last⟩ := getElem?_foldl_apply found patches
    have read := readAt_ofCode left
    have at_ := readOp?_of_holds (holds_ofCode_start left)
    rw [ops, ← whole] at read at_
    refine ⟨fun none => same none ▸ read, ?_⟩
    intro d hd
    obtain ⟨i', found', branch, size⟩ := fits_of_latest? fits hd
    rw [found] at found'
    cases found'
    obtain ⟨from_, op', rfl⟩ := last d hd
    have distance := Operands.readAt_of_redirect
      ((size.trans (congrArg OpCode.operandSize op'.symm)).trans from_.fits.symm) read
    rw [op] at at_
    exact ⟨distance, branchTarget?_of_readAt at_ branch size distance⟩

/-- A call between a short branch that is patched twice and a long one that leads back. -/
theorem patched_read_back_branches :
    ∃ (code : List RawInstruction) (patches : List Redirection),
      code = [⟨.pushTrue, 1, .none, rfl⟩, ⟨.jumpIfFalse, 1, .byte 0 2, rfl⟩,
        ⟨.call, 3, .wordByte 0x1234 3 2 4, rfl⟩, ⟨.jumpLong, 5, .long 0 5, rfl⟩,
        ⟨.ret, 6, .none, rfl⟩] ∧
      patches = [⟨1, .short 9⟩, ⟨3, .long (-9)⟩, ⟨1, .short (-3)⟩] ∧
      (∀ t ∈ patches, t.Fits code) ∧
      (patched code patches).instructions =
        [(0, .pushTrue), (1, .jumpIfFalse), (3, .call), (7, .jumpLong), (12, .ret)] ∧
      (patched code patches).lineAt? 6 = some 4 ∧
      (patched code patches).readU16? 4 = some 0x1234 ∧
      (patched code patches).branchTarget? 1 = some 0 ∧
      (patched code patches).branchTarget? 7 = some 3 := by
  refine ⟨_, _, rfl, rfl, ?_⟩
  have fits : ∀ t ∈ ([⟨1, .short 9⟩, ⟨3, .long (-9)⟩, ⟨1, .short (-3)⟩] : List Redirection),
      t.Fits [⟨.pushTrue, 1, .none, rfl⟩, ⟨.jumpIfFalse, 1, .byte 0 2, rfl⟩,
        ⟨.call, 3, .wordByte 0x1234 3 2 4, rfl⟩, ⟨.jumpLong, 5, .long 0 5, rfl⟩,
        ⟨.ret, 6, .none, rfl⟩] := by
    refine List.forall_mem_cons.mpr ⟨⟨_, rfl, rfl, rfl⟩, List.forall_mem_cons.mpr
      ⟨⟨_, rfl, rfl, rfl⟩, List.forall_mem_cons.mpr ⟨⟨_, rfl, rfl, rfl⟩, ?_⟩⟩⟩
    exact fun t ht => absurd ht List.not_mem_nil
  obtain ⟨instructions, lines, -, -, operands⟩ := patched_read_back _ _ fits
  exact ⟨fits, instructions, lines 6, ((operands 2 _ rfl).1 rfl).1,
    ((operands 1 _ rfl).2 _ rfl).2, ((operands 3 _ rfl).2 _ rfl).2⟩

end Chunk

end ExprCompiler
