/-
# Code chunks

A chunk is a sequence of bytes, each with the source line it was written for.
Words are stored with the high byte first.  Instructions are read back from the
start: a byte that is no operation is skipped on its own.
-/
import ExprCompiler.Code.OpCode
import ExprCompiler.Text

namespace ExprCompiler

/-- A byte of code and its source line. -/
structure Cell where
  byte : UInt8
  line : Nat
  deriving DecidableEq, Repr, Inhabited

/-- Code bytes with their lines. -/
structure Chunk where
  cells : Array Cell
  deriving DecidableEq, Repr, Inhabited

namespace Chunk

def empty : Chunk := ⟨#[]⟩

/-- The number of bytes, which is the offset of the next one. -/
def size (c : Chunk) : Nat := c.cells.size

def isEmpty (c : Chunk) : Bool := c.cells.isEmpty

/-- The bytes of the code. -/
def bytes (c : Chunk) : List UInt8 := c.cells.toList.map (·.byte)

/-! ## Writing -/

def writeByte (c : Chunk) (byte : UInt8) (line : Nat) : Chunk :=
  ⟨c.cells.push ⟨byte, line⟩⟩

def writeBytes (c : Chunk) (bytes : List UInt8) (line : Nat) : Chunk :=
  bytes.foldl (fun c b => c.writeByte b line) c

def writeOp (c : Chunk) (op : OpCode) (line : Nat) : Chunk :=
  c.writeByte op.toByte line

/-- The bytes of a 16-bit word, high byte first. -/
def wordBytes (value : UInt16) : List UInt8 :=
  [(value >>> 8).toUInt8, value.toUInt8]

/-- The bytes of a 32-bit word, high byte first. -/
def offsetBytes (value : Int32) : List UInt8 :=
  let w := value.toUInt32
  [(w >>> 24).toUInt8, (w >>> 16).toUInt8, (w >>> 8).toUInt8, w.toUInt8]

def writeU16 (c : Chunk) (value : UInt16) (line : Nat) : Chunk :=
  c.writeBytes (wordBytes value) line

def writeI32 (c : Chunk) (value : Int32) (line : Nat) : Chunk :=
  c.writeBytes (offsetBytes value) line

/-! ## Patching -/

/-- Replaces a byte and keeps its line. -/
def setByte (c : Chunk) (place : Nat) (byte : UInt8) : Chunk :=
  ⟨c.cells.modify place (fun cell => { cell with byte := byte })⟩

/-- Replaces the bytes from a place on. -/
def setBytes (c : Chunk) : Nat → List UInt8 → Chunk
  | _, [] => c
  | place, b :: bs => (c.setByte place b).setBytes (place + 1) bs

def patchI8 (c : Chunk) (place : Nat) (offset : Int8) : Chunk :=
  c.setByte place offset.toUInt8

def patchI32 (c : Chunk) (place : Nat) (offset : Int32) : Chunk :=
  c.setBytes place (offsetBytes offset)

/-! ## Reading -/

def readByte? (c : Chunk) (offset : Nat) : Option UInt8 :=
  (c.cells[offset]?).map (·.byte)

/-- The line a byte was written for. -/
def lineAt? (c : Chunk) (offset : Nat) : Option Nat :=
  (c.cells[offset]?).map (·.line)

def readU16? (c : Chunk) (offset : Nat) : Option UInt16 := do
  let high ← c.readByte? offset
  let low ← c.readByte? (offset + 1)
  some ((high.toUInt16 <<< 8) ||| low.toUInt16)

def readI32? (c : Chunk) (offset : Nat) : Option Int32 := do
  let b3 ← c.readByte? offset
  let b2 ← c.readByte? (offset + 1)
  let b1 ← c.readByte? (offset + 2)
  let b0 ← c.readByte? (offset + 3)
  some ((b3.toUInt32 <<< 24) ||| (b2.toUInt32 <<< 16) ||| (b1.toUInt32 <<< 8)
    ||| b0.toUInt32).toInt32

def readOp? (c : Chunk) (offset : Nat) : Option OpCode :=
  (c.readByte? offset).bind OpCode.ofByte?

/-- The instructions from an offset on, after those found already. -/
def instructionsFrom (c : Chunk) (offset : Nat) (found : Array (Nat × OpCode)) :
    Array (Nat × OpCode) :=
  if offset < c.size then
    match c.readOp? offset with
    | some op => c.instructionsFrom (offset + op.size) (found.push (offset, op))
    | none => c.instructionsFrom (offset + 1) found
  else found
termination_by c.size - offset
decreasing_by
  · simp only [OpCode.size]; omega
  · omega

/-- Every instruction with its offset. -/
def instructions (c : Chunk) : List (Nat × OpCode) :=
  (c.instructionsFrom 0 #[]).toList

def opcodes (c : Chunk) : List OpCode := c.instructions.map (·.2)

/-- Where the branch at an offset goes, if there is one and it does not go
before the start. -/
def branchTarget? (c : Chunk) (offset : Nat) : Option Nat := do
  let op ← c.readOp? offset
  if op.isBranch then
    let relative ←
      if op.operandSize = 1 then (c.readByte? (offset + 1)).map (fun b => b.toInt8.toInt)
      else (c.readI32? (offset + 1)).map Int32.toInt
    let target : Int := ((offset + op.size : Nat) : Int) + relative
    if 0 ≤ target then some target.toNat else none
  else none

/-! ## Listings -/

/-- The operands of an instruction in a listing. -/
def operandText (c : Chunk) (offset : Nat) (op : OpCode) : String :=
  if op.isBranch then
    match c.branchTarget? offset with
    | some target => " -> " ++ Text.decimal 4 target
    | none => ""
  else
    match op.operandSize with
    | 1 => " " ++ toString ((c.readByte? (offset + 1)).getD 0).toNat
    | 2 => " #" ++ toString ((c.readU16? (offset + 1)).getD 0).toNat
    | 3 =>
      " #" ++ toString ((c.readU16? (offset + 1)).getD 0).toNat
        ++ " argc=" ++ toString ((c.readByte? (offset + 3)).getD 0).toNat
    | _ => ""

/-- A listing so far and the line it is at. -/
structure Listing where
  text : String
  line : Option Nat

/-- One more instruction; a change of line gets a heading. -/
def Listing.instruction (c : Chunk) (l : Listing) (i : Nat × OpCode) : Listing :=
  let line := c.lineAt? i.1
  let heading :=
    if line = l.line then ""
    else match line with
      | some n => "; line " ++ toString n ++ "\n"
      | none => ""
  { text := l.text ++ heading ++ Text.decimal 4 i.1 ++ " " ++ i.2.name
      ++ c.operandText i.1 i.2 ++ "\n"
    line := line }

/-- All instructions as text, one a line. -/
def listing (c : Chunk) : String :=
  (c.instructions.foldl (Listing.instruction c) ⟨"", none⟩).text

/-- What is wrong if the operations are not the expected ones. -/
def opcodeMismatch? (c : Chunk) (expected : List OpCode) : Option String :=
  if c.opcodes = expected then none
  else
    some ("Bytecode mismatch.\nExpected: " ++ Text.quoteList (expected.map OpCode.name)
      ++ "\nActual:   " ++ Text.quoteList (c.opcodes.map OpCode.name) ++ "\n" ++ c.listing)

/-- Puts a line in front of runs of equal lines. -/
def extendRuns (line : Nat) : List (Nat × Nat) → List (Nat × Nat)
  | (l, n) :: runs => if l = line then (l, n + 1) :: runs else (line, 1) :: (l, n) :: runs
  | [] => [(line, 1)]

/-- The lines of all bytes as runs of a line and a count. -/
def lineRuns (c : Chunk) : List (Nat × Nat) :=
  c.cells.foldr (fun cell runs => extendRuns cell.line runs) []

end Chunk

end ExprCompiler
