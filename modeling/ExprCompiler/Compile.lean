/-
# Compilation

A tree is laid out on trial, its branches are relaxed, and its code is emitted
under the plan.  The emitted labels and size have to be those of the plan.
-/
import ExprCompiler.Code.Emission
import ExprCompiler.Code.Walk
import ExprCompiler.Tree.Build

namespace ExprCompiler

/-- Compiled code and the type of its value. -/
structure Compiled where
  code : Emission
  type : Ty

namespace Element

/-- A fault as a compilation error. -/
def liftFault (result : Except Fault α) : Except CompileError α :=
  result.mapError .internal

/-- The directives of a whole expression. -/
def program (tree : Element) : Except Fault (List Directive) :=
  if tree.isRoot then .ok tree.directives else .error .noRoot

/-- The trial layout of a tree. -/
def layout (tree : Element) : Except CompileError Layout :=
  liftFault (tree.program.bind Layout.ofDirectives)

/-- The code of a tree under a branch plan. -/
def emit (tree : Element) (plan : BranchPlan) : Except CompileError Emission :=
  liftFault (tree.program.bind (Emission.ofDirectives plan))

/-- The plan is kept: labels and size are as planned. -/
def checkPlan (plan : BranchPlan) (code : Emission) : Except Fault Unit :=
  if code.labels ≠ plan.labels then .error (.labelsDiffer code.labels plan.labels)
  else if code.chunk.size ≠ plan.size then .error (.sizeDiffers code.chunk.size plan.size)
  else .ok ()

/-- The code of a tree. -/
def compile (tree : Element) : Except CompileError Compiled := do
  let layout ← tree.layout
  let plan := layout.relax
  let code ← tree.emit plan
  liftFault (checkPlan plan code)
  return ⟨code, tree.type⟩

end Element

/-- The code of a stream of events. -/
def Context.compileEvents (ctx : Context) (events : List Event) :
    Except Stop Compiled := do
  let tree ← ctx.build events
  tree.compile.mapError .refused

end ExprCompiler
