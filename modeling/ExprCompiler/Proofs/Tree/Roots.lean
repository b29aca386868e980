/-
# Roots and returns

A root is written with a return.  It is an event like any other, though: nothing
stops a stream from putting a root below other nodes, and then the code returns in
its middle and what stands behind is never run.  So what can be said of every tree
is a count, one return for each root that the walk meets and the last one at the end
(`Element.opcodes_emit`).  There is exactly one if no event but the last makes a
root, because then no node below the top is one (`Context.rootless_of_build`).

Main result: `Context.returns_of_build`.
-/
import ExprCompiler.Host.Registration
import ExprCompiler.Proofs.Code.Exits
import ExprCompiler.Proofs.Code.Nodes

namespace ExprCompiler

/-! ## Returns in code -/

namespace Emission

/-- Where a directive is fetched, a return is read exactly if one was asked for. -/
theorem count_ret_fetched {em : Emission} {o : Nat} {d : Directive} {i : Instruction}
    {op : OpCode} (asked : d.instruction? em.labels = some i)
    (operands : em.operands? o op = some i) :
    [op].count .ret = d.exit?.toList.count .returns := by
  by_cases ret : op = .ret
  · subst ret
    have plain : i = .plain .ret := (Option.some.inj operands).symm
    subst plain
    cases d with
    | op code =>
        cases asked
        rfl
    | branch kind label =>
        simp only [Directive.instruction?, Option.map_eq_some_iff] at asked
        obtain ⟨target, -, same⟩ := asked
        cases same
    | _ => cases asked
  · rw [List.count_singleton, if_neg (by simpa using ret)]
    cases d with
    | op code =>
        cases asked
        cases eq_of_operands?_plain operands
        rw [Directive.exit?_op ret]
        rfl
    | refuse fault => cases asked
    | _ => rfl

/-- Reading on over directives meets a return for each one they ask for. -/
theorem Laid.reads_returns {em : Emission} {o e : Nat} {ds : List Directive}
    (h : em.Laid o ds e) :
    ∃ sites : List (Nat × OpCode),
      (∀ found, em.chunk.instructionsFrom o found = em.chunk.instructionsFrom e (found ++ sites))
        ∧ (sites.map (·.2)).count .ret = (Directive.exits ds).count .returns := by
  induction h with
  | nil o => exact ⟨[], fun found => by simp, rfl⟩
  | line _ ih => exact ih
  | mark _ _ ih => exact ih
  | @instruction o m e d i ds asked fetched _ _ ih =>
      obtain ⟨op, read, operands, rfl⟩ := fetch?_ok fetched
      obtain ⟨sites, walk, count⟩ := ih
      refine ⟨(o, op) :: sites, ?_, ?_⟩
      · intro found
        rw [Chunk.instructionsFrom_of_readOp? read, walk]
        exact congrArg _ (Array.ext' (by simp))
      · rw [Directive.exits_cons, List.count_append, ← count_ret_fetched asked operands, ← count,
          ← List.count_append]
        rfl

end Emission

namespace Element

theorem count_returns (nodes : List (Nat × Element)) :
    (nodes.flatMap (fun p => p.2.ownExits p.1)).count .returns
      = nodes.countP (·.2.isRoot) := by
  have calls (list : List CallTarget) : (list.flatMap CallTarget.exits).count .returns = 0 := by
    induction list with
    | nil => rfl
    | cons call list ih =>
        rw [List.flatMap_cons, List.count_append, ih, CallTarget.exits]
        split <;> rfl
  induction nodes with
  | nil => rfl
  | cons p nodes ih =>
      have own : (p.2.ownExits p.1).count .returns = if p.2.isRoot then 1 else 0 := by
        rw [ownExits, List.count_append, List.count_append, calls]
        split <;> split <;> rfl
      rw [List.flatMap_cons, List.count_append, ih, own, List.countP_cons, Nat.add_comm]

/-- Code ends with a return, and before that it returns once for every root that is
met below the top. -/
theorem opcodes_emit {tree : Element} {plan : BranchPlan} {em : Emission}
    (h : tree.emit plan = .ok em) :
    ∃ before, em.chunk.opcodes = before ++ [.ret]
      ∧ before.count .ret = (tree.walk 0).tail.countP (·.2.isRoot) := by
  have root := (emit_ok h).1
  obtain ⟨ds, hds⟩ := directives_root root
  have laid := laid_emit h
  have exits := tree.exits_directives.count_eq .returns
  rw [hds] at laid exits
  rw [Element.exits, count_returns, walk_eq, List.countP_cons, if_pos root,
    Directive.exits_append, List.count_append] at exits
  obtain ⟨m, front, last⟩ := laid.append_inv
  obtain ⟨op, read, operands, size⟩ := Emission.fetch?_ok last.op_inv
  cases Emission.eq_of_operands?_plain operands
  obtain ⟨sites, walk, count⟩ := front.reads_returns
  refine ⟨sites.map (·.2), ?_, ?_⟩
  · have whole : em.chunk.instructions = sites ++ [(m, .ret)] := by
      rw [Chunk.instructions, walk, Chunk.instructionsFrom_of_readOp? read, ← size,
        Chunk.instructionsFrom, if_neg (Nat.lt_irrefl _)]
      simp
    rw [Chunk.opcodes, whole, List.map_append]
    rfl
  · rw [count, walk_eq]
    exact Nat.add_right_cancel exits

end Element

/-! ## Roots in trees -/

/-- Whether an event makes a root. -/
def Tag.isRoot : Tag → Bool
  | root _ => true
  | _ => false

namespace Context

variable {ctx : Context} {span : Span} {e : Element}

theorem power_isRoot {l r : Element} (h : ctx.power l r span = .ok e) : e.isRoot = false := by
  grind [power, Element.isRoot]

theorem builtinArithmetic_isRoot {op : ArithmeticOp} {l r : Element}
    (h : ctx.builtinArithmetic op l r span = .ok e) : e.isRoot = false := by
  grind [builtinArithmetic, concat, Element.isRoot]

theorem binary_isRoot {op : BinaryOp} {l r : Element} (h : ctx.binary op l r span = .ok e) :
    e.isRoot = false := by
  cases op with
  | arithmetic op =>
      simp only [binary, arithmetic] at h
      obtain ⟨found, -, h⟩ := bind_eq_ok h
      split at h
      · cases h
        rfl
      · split at h
        · exact power_isRoot h
        · exact builtinArithmetic_isRoot h
  | compare op =>
      simp only [binary, compare] at h
      obtain ⟨plan, -, h⟩ := bind_eq_ok h
      cases h
      rfl
  | shift op =>
      simp only [binary, shift] at h
      obtain ⟨found, -, h⟩ := bind_eq_ok h
      split at h
      · cases h
        rfl
      · split at h
        · cases h
          rfl
        · cases h
  | logical op =>
      simp only [binary, logical] at h
      obtain ⟨found, -, h⟩ := bind_eq_ok h
      split at h
      · cases h
        rfl
      · split at h
        · cases h
          rfl
        · cases h

theorem unary_isRoot {op : UnaryOp} {x : Element} (h : ctx.unary op x span = .ok e) :
    e.isRoot = false := by
  simp only [unary] at h
  obtain ⟨found, -, h⟩ := bind_eq_ok h
  split at h
  · cases h
    rfl
  · split at h
    · cases h
      rfl
    · cases h

theorem cast_isRoot {x : Element} {target : Ty} (h : ctx.cast x target span = .ok e) :
    e.isRoot = false := by
  simp only [cast] at h
  obtain ⟨plan, -, h⟩ := bind_eq_ok h
  cases h
  rfl

theorem conditional_isRoot {c t f : Element} (h : ctx.conditional c t f span = .ok e) :
    e.isRoot = false := by
  grind [conditional, Element.isRoot]

theorem inList_isRoot {probe : Element} {items : List Element}
    (h : ctx.inList probe items span = .ok e) : e.isRoot = false := by
  simp only [inList] at h
  obtain ⟨plans, -, h⟩ := bind_eq_ok h
  cases h
  rfl

theorem inCollection_isRoot {probe collection : Element}
    (h : ctx.inCollection probe collection span = .ok e) : e.isRoot = false := by
  grind [inCollection, Element.isRoot]

theorem member_isRoot {name : String} {target : Option Element} {args : List Element}
    {isCall : Bool} (h : ctx.member name target args isCall span = .ok e) :
    e.isRoot = false := by
  simp only [member] at h
  split at h
  · cases h
  · split at h
    · simp only [callMember] at h
      split at h
      · cases h
      · obtain ⟨c, -, h⟩ := bind_eq_ok h
        cases h
        rfl
    · split at h
      · cases h
        rfl
      · cases h

/-- Only the tag of a root makes a root. -/
theorem node_isRoot {tag : Tag} {operands : List Element} (other : tag.isRoot = false)
    (h : ctx.node tag operands span = .ok e) : e.isRoot = false := by
  simp only [node] at h
  split at h
  · cases h
    simp only [integer]
    split <;> rfl
  · cases h
    simp only [real]
    split <;> rfl
  · cases h
    rfl
  · exact binary_isRoot h
  · exact unary_isRoot h
  · exact cast_isRoot h
  · exact conditional_isRoot h
  · split at h
    · cases h
    · split at h
      · cases h
      · exact inList_isRoot h
  · exact inCollection_isRoot h
  · split at h
    · cases h
    · split at h
      · exact member_isRoot h
      · exact member_isRoot h
  · cases other
  · cases h

end Context

/-- An element without a root in it. -/
def Element.Rootless (e : Element) : Prop := e.All (fun x => x.isRoot = false)

namespace Context

variable {ctx : Context}

/-- Out of elements without roots, an event makes one without roots below its top, and
without any root if it does not make one itself. -/
theorem push_rootless {stack stack' : List Element} {event : Event}
    (before : ∀ x ∈ stack, x.Rootless) (h : ctx.push stack event = .ok stack') :
    (∀ x ∈ stack', ∀ c ∈ x.children, c.Rootless)
      ∧ (event.tag.isRoot = false → ∀ x ∈ stack', x.Rootless) := by
  obtain ⟨operands, rest, e, taken, made, rfl⟩ := push_eq_ok h
  have made := (reduce_eq_ok_iff.mp made).2
  obtain ⟨ops, remaining⟩ := takeOperands?_mem taken
  have below : ∀ c ∈ e.children, c.Rootless := fun c hc =>
    before c ((ops c ((node_made made).2 c hc)).resolve_left List.not_mem_nil)
  have others : ∀ x ∈ rest, x.Rootless := fun x hx => before x (remaining x hx)
  refine ⟨List.forall_mem_cons.mpr ⟨below, fun x hx => (others x hx).child⟩, ?_⟩
  intro other
  exact List.forall_mem_cons.mpr ⟨.node (node_isRoot other made) below, others⟩

theorem pushAll_rootless {events : List Event} {stack stack' : List Element}
    (others : ∀ event ∈ events, event.tag.isRoot = false)
    (before : ∀ x ∈ stack, x.Rootless) (h : ctx.pushAll stack events = .ok stack') :
    ∀ x ∈ stack', x.Rootless := by
  induction events generalizing stack with
  | nil =>
      cases h
      exact before
  | cons event events ih =>
      obtain ⟨other, others⟩ := List.forall_mem_cons.mp others
      simp only [pushAll] at h
      split at h
      · next stack₁ pushed => exact ih others ((push_rootless before pushed).2 other) h
      · cases h

theorem pushAll_append (stack : List Element) (events events' : List Event) :
    ctx.pushAll stack (events ++ events')
      = (do
        let middle ← ctx.pushAll stack events
        ctx.pushAll middle events') := by
  induction events generalizing stack with
  | nil => rfl
  | cons event events ih =>
      simp only [List.cons_append, pushAll]
      cases ctx.push stack event with
      | error e => rfl
      | ok stack' => exact ih stack'

/-- What is left of a stream has no root below its top, if no event but the last makes
one. -/
theorem pushAll_children_rootless {events : List Event} {stack : List Element}
    (inner : ∀ event ∈ events.dropLast, event.tag.isRoot = false)
    (h : ctx.pushAll [] events = .ok stack) : ∀ x ∈ stack, ∀ c ∈ x.children, c.Rootless := by
  rcases List.eq_nil_or_concat events with rfl | ⟨init, last, rfl⟩
  · cases h
    exact fun x hx => absurd hx List.not_mem_nil
  · rw [List.concat_eq_append] at h inner
    rw [List.dropLast_concat] at inner
    rw [pushAll_append] at h
    obtain ⟨middle, pushed, h⟩ := bind_eq_ok h
    have before := pushAll_rootless inner (fun _ hx => absurd hx List.not_mem_nil) pushed
    simp only [pushAll] at h
    split at h
    · next stack' pushedLast =>
        cases h
        exact (push_rootless before pushedLast).1
    · cases h

theorem root_isRoot {x e : Element} {expected : Option Ty} {span : Span}
    (h : ctx.root x expected span = .ok e) : e.isRoot = true := by
  cases expected <;> grind [root, Element.isRoot]

theorem isRoot_of_build {events : List Event} {tree : Element}
    (h : ctx.build events = .ok tree) : tree.isRoot = true := by
  obtain ⟨stack, -, closed⟩ := build_eq_ok h
  simp only [close] at closed
  split at closed
  · cases closed
  · split at closed
    · next isRoot =>
        cases closed
        exact isRoot
    · exact root_isRoot closed
  · cases closed

/-- A tree has no root below its top, if no event but the last makes one. -/
theorem rootless_of_build {events : List Event} {tree : Element}
    (inner : ∀ event ∈ events.dropLast, event.tag.isRoot = false)
    (h : ctx.build events = .ok tree) : ∀ c ∈ tree.children, c.Rootless := by
  obtain ⟨stack, pushed, closed⟩ := build_eq_ok h
  have below := pushAll_children_rootless inner pushed
  simp only [close] at closed
  split at closed
  · cases closed
  · next e =>
      have ofTop := below e List.mem_cons_self
      split at closed
      · cases closed
        exact ofTop
      · next other =>
          intro c hc
          cases List.mem_singleton.mp ((root_made closed).2 c hc)
          exact .node (Bool.not_eq_true _ ▸ other) ofTop
  · cases closed

end Context

namespace Element

/-- Only operands are walked. -/
theorem mem_children_of_operand {e : Element} : ∀ p ∈ e.operands, p.2 ∈ e.children := by
  cases e with
  | arithmetic info op plan l r => cases plan <;> simp [operands, children]
  | inList info probe items =>
      intro p hp
      rcases List.mem_cons.mp hp with rfl | hp
      · exact List.mem_cons_self
      · obtain ⟨item, hi, rfl⟩ := List.mem_map.mp hp
        exact List.mem_cons_of_mem _ (List.mem_map.mpr ⟨item, hi, rfl⟩)
  | call info target receiver args =>
      intro p hp
      obtain ⟨x, hx, rfl⟩ := List.mem_map.mp hp
      exact hx
  | _ => simp [operands, children]

theorem Rootless.walk {e : Element} (h : e.Rootless) (live : Nat) :
    ∀ p ∈ e.walk live, p.2.isRoot = false := by
  induction h generalizing live with
  | @node e here _ ih =>
      rw [walk_eq]
      intro p hp
      rcases List.mem_cons.mp hp with rfl | hp
      · exact here
      · obtain ⟨q, hq, hp⟩ := List.mem_flatMap.mp hp
        exact ih q.2 (mem_children_of_operand q hq) _ p hp

end Element

theorem Element.emit_of_compile {tree : Element} {compiled : Compiled}
    (h : tree.compile = .ok compiled) : ∃ plan, tree.emit plan = .ok compiled.code := by
  simp only [compile] at h
  obtain ⟨layout, -, h⟩ := bind_eq_ok h
  obtain ⟨code, emitted, h⟩ := bind_eq_ok h
  obtain ⟨-, -, h⟩ := bind_eq_ok h
  cases h
  exact ⟨layout.relax, emitted⟩

/-- A tree that was built is a root, and its code ends with a return.  The code returns
once more for each root that is met below the top.  If no event but the last makes a
root, there is none below the top, and the code returns only at its end. -/
theorem Context.returns_of_build {ctx : Context} {events : List Event} {tree : Element}
    (h : ctx.build events = .ok tree) :
    tree.isRoot = true
      ∧ (∀ compiled, tree.compile = .ok compiled →
        ∃ before, compiled.code.chunk.opcodes = before ++ [.ret]
          ∧ before.count .ret = (tree.walk 0).tail.countP (·.2.isRoot))
      ∧ ((∀ event ∈ events.dropLast, event.tag.isRoot = false) →
        (∀ c ∈ tree.children, c.Rootless)
          ∧ ∀ compiled, tree.compile = .ok compiled →
            ∃ before, compiled.code.chunk.opcodes = before ++ [.ret] ∧ .ret ∉ before) := by
  have returns : ∀ compiled, tree.compile = .ok compiled →
      ∃ before, compiled.code.chunk.opcodes = before ++ [.ret]
        ∧ before.count .ret = (tree.walk 0).tail.countP (·.2.isRoot) := by
    intro compiled done
    obtain ⟨plan, emitted⟩ := Element.emit_of_compile done
    exact Element.opcodes_emit emitted
  refine ⟨isRoot_of_build h, returns, ?_⟩
  intro inner
  have below := rootless_of_build inner h
  refine ⟨below, ?_⟩
  intro compiled done
  obtain ⟨before, opcodes, count⟩ := returns compiled done
  refine ⟨before, opcodes, List.count_eq_zero.mp ?_⟩
  rw [count, Element.walk_eq, List.tail_cons, List.countP_eq_zero]
  intro p hp
  obtain ⟨q, hq, hp⟩ := List.mem_flatMap.mp hp
  rw [Bool.not_eq_true]
  exact (below q.2 (Element.mem_children_of_operand q hq)).walk _ p hp

/-- `-1`, with a root in front of the sign if `inner`. -/
def Event.negated (inner : Bool) : List Event :=
  (if inner then [.integer 1, .root none, .unary .neg] else [.integer 1, .unary .neg]).map
    (⟨·, .unknown⟩)

def Element.negated (inner : Bool) : Element :=
  let int : NodeInfo := ⟨Ty.numeric .int32, .unknown⟩
  let one : Element := .literal int (.int 1)
  .root int .identity (.unary int .neg (.negate .int32 false .identity)
    (if inner then .root int .identity one else one))

/-- No event makes a root, and the code returns once. -/
theorem Context.returns_of_build_negated :
    (⟨.withPrimitives, {}⟩ : Context).build (Event.negated false) = .ok (Element.negated false)
      ∧ ∃ compiled, (Element.negated false).compile = .ok compiled
        ∧ ∃ before, compiled.code.chunk.opcodes = before ++ [.ret] ∧ .ret ∉ before := by
  have built : (⟨.withPrimitives, {}⟩ : Context).build (Event.negated false)
      = .ok (Element.negated false) := by rfl
  have program : (Element.negated false).program = .ok [.line 0, .line 0, .line 0,
      .constant (.int32 1), .op .neg, .op .ret] :=
    congrArg Except.ok
      (eq_of_beq ((Element.negated false).passes_of_within (· == _) 16 (by decide +kernel)))
  have ok : (Element.negated false).compile.isOk = true := by
    simp only [Element.compile, Element.layout, Element.emit, program, Except.bind,
      Layout.ofDirectives, Trial.run, Trial.step, Trial.reserveWith, Emission.ofDirectives,
      Writer.run, Writer.step, Writer.writeWith, ConstantPool.operand, ConstantPool.add,
      ConstantPool.indexOf?_eq_idxOf?]
    decide +kernel
  have inner : ∀ event ∈ (Event.negated false).dropLast, event.tag.isRoot = false := by decide
  refine ⟨built, ?_⟩
  cases done : (Element.negated false).compile with
  | error fault => rw [done] at ok; cases ok
  | ok compiled => exact ⟨compiled, rfl, ((returns_of_build built).2.2 inner).2 compiled done⟩

/-- With a root in front of the sign, the tree has a root below its top, and its code
returns before it negates. -/
theorem Context.build_root_below_top :
    (⟨.withPrimitives, {}⟩ : Context).build (Event.negated true) = .ok (Element.negated true)
      ∧ ¬ (∀ c ∈ (Element.negated true).children, c.Rootless)
      ∧ (Element.negated true).compile.map (·.code.chunk.opcodes)
        = .ok [.constant, .ret, .neg, .ret] := by
  refine ⟨by rfl, ?_, ?_⟩
  · intro rootless
    have sign := rootless _ List.mem_cons_self
    exact Bool.noConfusion (sign.child _ List.mem_cons_self).here
  · have program : (Element.negated true).program = .ok [.line 0, .line 0, .line 0, .line 0,
        .constant (.int32 1), .op .ret, .op .neg, .op .ret] :=
      congrArg Except.ok
        (eq_of_beq ((Element.negated true).passes_of_within (· == _) 16 (by decide +kernel)))
    simp only [Element.compile, Element.layout, Element.emit, program, Except.bind,
      Layout.ofDirectives, Trial.run, Trial.step, Trial.reserveWith, Emission.ofDirectives,
      Writer.run, Writer.step, Writer.writeWith, ConstantPool.operand, ConstantPool.add,
      ConstantPool.indexOf?_eq_idxOf?]
    decide +kernel

end ExprCompiler
