/-
# Branch relaxation

A short branch reaches 127 bytes forward; a long one, three bytes larger,
reaches anything.  Starting from a layout in which all branches are short, one
pass from the last branch to the first decides which have to be long: a branch
only grows by the long branches between it and its target, and those come after
it.  A branch that does not go forward is long.
-/
import ExprCompiler.Code.Layout

namespace ExprCompiler

/-- Which branches are long, and where labels and the end fall then. -/
structure BranchPlan where
  long : Array Bool
  labels : List Nat
  size : Nat
  deriving DecidableEq, Repr, Inhabited

namespace BranchPlan

/-- Whether a branch is long; branches past the plan are short. -/
def isLong (p : BranchPlan) (i : Nat) : Bool := (p.long[i]?).getD false

/-- The number of branches planned for. -/
def count (p : BranchPlan) : Nat := p.long.size

def isEmpty (p : BranchPlan) : Bool := p.long.isEmpty

def longCount (p : BranchPlan) : Nat := p.long.count true

end BranchPlan

namespace Layout

/-- How far a short branch reaches. -/
def shortReach : Nat := 127

/-- What a long branch adds to a short one. -/
def longDelta : Nat := 3

/-- How many of the branches decided on are long and start before an offset. -/
def longBefore (decided : List (BranchRecord × Bool)) (offset : Nat) : Nat :=
  decided.countP (fun d => d.2 && d.1.start < offset)

/-- Whether a branch has to be long, given the decisions on all later ones. -/
def needsLong (b : BranchRecord) (later : List (BranchRecord × Bool)) : Bool :=
  if b.target ≤ b.start then true
  else
    shortReach
      < b.target - (b.start + shortBranchSize) + longDelta * longBefore later b.target

/-- The decision on every branch, last to first. -/
def decisions (branches : List BranchRecord) : List (BranchRecord × Bool) :=
  branches.foldr (fun b later => (b, needsLong b later) :: later) []

/-- Where an offset of the layout falls, once long branches have grown. -/
def shifted (decided : List (BranchRecord × Bool)) (offset : Nat) : Nat :=
  offset + longDelta * longBefore decided offset

/-- The branch plan of a layout. -/
def relax (l : Layout) : BranchPlan :=
  let decided := decisions l.branches
  { long := (decided.map (·.2)).toArray
    labels := l.labels.map (shifted decided)
    size := shifted decided l.size }

end Layout

end ExprCompiler
