/-
# Source positions

Where a node came from in the formula text.  Positions are only copied onto
nodes and errors; nothing is decided by them except the line an instruction
is listed under.
-/

namespace ExprCompiler

/-- A stretch of text: line and column count from one, `len` is in bytes. -/
structure Span where
  line : Nat
  col : Nat
  len : Nat
  deriving DecidableEq, Repr, Inhabited

namespace Span

/-- The position of what has none. -/
def unknown : Span := ⟨0, 0, 0⟩

/-- An empty stretch. -/
def point (line col : Nat) : Span := ⟨line, col, 0⟩

def isEmpty (s : Span) : Bool := s.len == 0

/-- The least stretch over both; stretches on different lines keep the first
position and add their lengths. -/
def merge (a b : Span) : Span :=
  if a.line = b.line then
    let start := min a.col b.col
    ⟨a.line, start, max (a.col + a.len) (b.col + b.len) - start⟩
  else ⟨a.line, a.col, a.len + b.len⟩

/-- Line and column. -/
def text (s : Span) : String :=
  toString s.line ++ ":" ++ toString s.col

end Span

end ExprCompiler
