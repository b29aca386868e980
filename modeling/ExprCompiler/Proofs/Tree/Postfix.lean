/-
# Streams of events are trees in postorder

A stream is run over a stack, and what the stack holds in the middle is not a tree
but a row of trees that wait for an operator.  So everything is said about rows: a
stream that runs through is the postorder of exactly one row of trees, each node
with as many operands as its tag asks for, and the stack holds the elements of
that row, built bottom-up (`reads_of_pushAll`, `Reads.pushAll`).  A stream that
is accepted leaves a row of one tree.

Which row a stream is does not depend on whether anything can be reduced: the last
event is the top of the last tree, and its tag says how many trees before it are its
operands (`postorders_inj`).  That gives "the first event that fails" a meaning
without the stack: an event fails after the row before it if the row is too short,
or if its own operands can be built and it cannot.

All of this is about streams whose operands can be counted.  The list of most items
(`Tag.longestList`) takes one operand more than a machine word holds, and where a
stream gets to it, the program stops instead of reporting that operands are missing
(`Context.build_longestList`).  No other event does that.

Main result: `Context.build_iff_postorder`.
-/
import Mathlib.Data.List.Induction
import ExprCompiler.Proofs.Tree.Roots

namespace ExprCompiler

/-- The list of most items. -/
def Tag.longestList : Tag := .inList 0xffffffffffffffff

/-- Only the operands of the longest list cannot be counted. -/
theorem Tag.isCountable_eq_false_iff {tag : Tag} :
    tag.isCountable = false ↔ tag = .longestList := by
  have few : tag.isCountable = false ↔ UInt64.size ≤ tag.arity := by
    rw [isCountable, decide_eq_false_iff_not, Nat.not_lt]
  rw [few]
  cases tag with
  | inList count =>
      have last : (0xffffffffffffffff : UInt64).toNat + 1 = UInt64.size := rfl
      have bound : count.toNat < UInt64.size := count.toNat_lt
      rw [arity, longestList, Tag.inList.injEq, ← UInt64.toNat_inj]
      omega
  | member name hasTarget argc =>
      have target : hasTarget.toNat ≤ 1 := Bool.toNat_le hasTarget
      have arguments : (argc.map UInt8.toNat).getD 0 < 256 := by
        cases argc with
        | none => decide
        | some n => exact n.toNat_lt
      have small : (Tag.member name hasTarget argc).arity < UInt64.size := by
        rw [arity]
        exact Nat.lt_of_lt_of_le (Nat.add_lt_add_of_le_of_lt target arguments) (by decide)
      exact ⟨fun large => absurd small (Nat.not_lt_of_le large), nofun⟩
  | _ => exact ⟨fun large => absurd large (by rw [arity]; decide), nofun⟩

/-- An ordered tree with an event at each node. -/
inductive EventTree
  | node (event : Event) (operands : List EventTree)

namespace EventTree

/-- The event at the top. -/
def event : EventTree → Event
  | node event _ => event

mutual

/-- The events of a tree, each after those of its operands. -/
def postorder : EventTree → List Event
  | node event operands => postorders operands ++ [event]

/-- The events of a row of trees. -/
def postorders : List EventTree → List Event
  | [] => []
  | t :: row => postorder t ++ postorders row

end

/-- Each node has as many operands as its tag asks for. -/
inductive Ranked : EventTree → Prop
  | node {event : Event} {operands : List EventTree} :
      operands.length = event.tag.arity → (∀ t ∈ operands, Ranked t) →
      Ranked (.node event operands)

mutual

/-- The element of a tree: every node is reduced after its operands. -/
def construct (ctx : Context) : EventTree → Except Stop Element
  | node event operands => do
    let elements ← constructAll ctx operands
    ctx.reduce event.tag elements event.span

/-- The elements of a row of trees. -/
def constructAll (ctx : Context) : List EventTree → Except Stop (List Element)
  | [] => .ok []
  | t :: row => do
    let e ← construct ctx t
    let es ← constructAll ctx row
    return e :: es

end

/-! ## Rows -/

variable {ctx : Context}

theorem postorders_append (row row' : List EventTree) :
    postorders (row ++ row') = postorders row ++ postorders row' := by
  induction row with
  | nil => rfl
  | cons t row ih => rw [List.cons_append, postorders, postorders, ih, List.append_assoc]

/-- A row ends with the top of its last tree. -/
theorem postorders_concat (row : List EventTree) (event : Event) (operands : List EventTree) :
    postorders (row ++ [.node event operands]) = postorders (row ++ operands) ++ [event] := by
  rw [postorders_append, postorders_append, postorders, postorder, postorders,
    List.append_nil, List.append_assoc]

/-- A stream is the postorder of one row at most. -/
theorem postorders_inj {row row' : List EventTree} (ranked : ∀ t ∈ row, t.Ranked)
    (ranked' : ∀ t ∈ row', t.Ranked) (same : postorders row = postorders row') :
    row = row' := by
  generalize length : (postorders row).length = n
  induction n generalizing row row' with
  | zero =>
      have empty : ∀ {r : List EventTree}, postorders r = [] → r = [] := by
        intro r h
        rcases List.eq_nil_or_concat r with rfl | ⟨init, ⟨event, operands⟩, rfl⟩
        · rfl
        · rw [List.concat_eq_append, postorders_concat] at h
          exact absurd h (List.concat_ne_nil _ _)
      have none := List.length_eq_zero_iff.mp length
      rw [empty none, empty (same.symm.trans none)]
  | succ n ih =>
      rcases List.eq_nil_or_concat row with rfl | ⟨init, ⟨event, operands⟩, rfl⟩
      · cases length
      rcases List.eq_nil_or_concat row' with rfl | ⟨init', ⟨event', operands'⟩, rfl⟩
      · rw [same] at length
        cases length
      simp only [List.concat_eq_append] at *
      rw [postorders_concat, postorders_concat] at same
      rw [postorders_concat, List.length_append] at length
      obtain ⟨before, last⟩ := List.append_inj' same rfl
      cases last
      obtain ⟨front, top⟩ := List.forall_mem_append.mp ranked
      obtain ⟨front', top'⟩ := List.forall_mem_append.mp ranked'
      cases top _ List.mem_cons_self with
      | node count below =>
          cases top' _ List.mem_cons_self with
          | node count' below' =>
              -- without the last event, the operands stand in the row themselves
              have rows := ih (List.forall_mem_append.mpr ⟨front, below⟩)
                (List.forall_mem_append.mpr ⟨front', below'⟩) before (Nat.succ.inj length)
              obtain ⟨rfl, rfl⟩ := List.append_inj' rows (count.trans count'.symm)
              rfl

theorem constructAll_append (row row' : List EventTree) :
    constructAll ctx (row ++ row') = (do
      let es ← constructAll ctx row
      let es' ← constructAll ctx row'
      return es ++ es') := by
  induction row with
  | nil =>
      rw [List.nil_append, constructAll]
      cases constructAll ctx row' <;> rfl
  | cons t row ih =>
      rw [List.cons_append, constructAll, constructAll, ih]
      cases construct ctx t with
      | error e => rfl
      | ok x =>
          cases constructAll ctx row with
          | error e => rfl
          | ok es => cases constructAll ctx row' <;> rfl

theorem length_of_constructAll {row : List EventTree} {es : List Element}
    (h : constructAll ctx row = .ok es) : es.length = row.length := by
  induction row generalizing es with
  | nil =>
      cases h
      rfl
  | cons t row ih =>
      rw [constructAll] at h
      obtain ⟨x, -, h⟩ := bind_eq_ok h
      obtain ⟨rest, built, h⟩ := bind_eq_ok h
      cases h
      rw [List.length_cons, List.length_cons, ih built]

end EventTree

namespace Context

open EventTree

variable {ctx : Context}

/-! ## One event -/

theorem takeOperands?_eq (n : Nat) (taken stack : List Element) :
    takeOperands? n taken stack
      = if n ≤ stack.length then some ((stack.take n).reverse ++ taken, stack.drop n)
        else none := by
  fun_induction takeOperands? n taken stack with
  | case1 taken stack => rfl
  | case2 n taken => rfl
  | case3 n taken x stack ih =>
      rw [ih]
      simp only [List.length_cons, Nat.succ_le_succ_iff, List.take_succ_cons,
        List.drop_succ_cons, List.reverse_cons, List.append_assoc, List.singleton_append]

/-- Where the operands cannot be counted, the stack does not matter. -/
theorem push_of_uncountable {event : Event} (stack : List Element)
    (uncountable : event.tag.isCountable = false) : ctx.push stack event = .error .overflow := by
  rw [push, uncountable]
  rfl

/-- An event takes the elements on top of a stack that is high enough. -/
theorem push_of_operands {event : Event} (rest operands : List Element)
    (count : operands.length = event.tag.arity) :
    ctx.push (operands.reverse ++ rest) event
      = (ctx.reduce event.tag operands event.span).map (· :: rest) := by
  have length : operands.reverse.length = event.tag.arity := by rw [List.length_reverse, count]
  have taken : takeOperands? event.tag.arity [] (operands.reverse ++ rest)
      = some (operands, rest) := by
    rw [takeOperands?_eq, if_pos (by rw [List.length_append, length]; exact Nat.le_add_right _ _),
      ← length, List.take_left, List.drop_left, List.reverse_reverse, List.append_nil]
  cases countable : event.tag.isCountable with
  | false =>
      rw [push_of_uncountable _ countable, reduce, countable]
      rfl
  | true =>
      simp only [push, countable, taken, Bool.not_true, Bool.false_eq_true, if_false]
      cases ctx.reduce event.tag operands event.span <;> rfl

theorem push_of_missing {event : Event} {stack : List Element}
    (countable : event.tag.isCountable = true) (short : stack.length < event.tag.arity) :
    ctx.push stack event
      = .error (.refused (.malformed (.missingOperands event.tag stack.length) event.span)) := by
  have taken : takeOperands? event.tag.arity [] stack = none := by
    rw [takeOperands?_eq, if_neg (Nat.not_le_of_lt short)]
  simp only [push, countable, taken, Bool.not_true, Bool.false_eq_true, if_false]

theorem pushAll_singleton (stack : List Element) (event : Event) :
    ctx.pushAll stack [event] = ctx.push stack event := by
  simp only [pushAll]
  cases ctx.push stack event <;> rfl

/-! ## From trees to streams -/

theorem pushAll_row {row : List EventTree}
    (each : ∀ t ∈ row, ∀ stack,
      ctx.pushAll stack t.postorder = (t.construct ctx).map (· :: stack))
    (stack : List Element) :
    ctx.pushAll stack (postorders row)
      = (constructAll ctx row).map (fun es => es.reverse ++ stack) := by
  induction row generalizing stack with
  | nil => rfl
  | cons t row ih =>
      obtain ⟨first, rest⟩ := List.forall_mem_cons.mp each
      rw [postorders, constructAll, pushAll_append, first]
      cases t.construct ctx with
      | error e => rfl
      | ok x =>
          show ctx.pushAll (x :: stack) (postorders row) = _
          rw [ih rest]
          cases constructAll ctx row with
          | error e => rfl
          | ok es =>
              show Except.ok _ = Except.ok ((x :: es).reverse ++ stack)
              rw [List.reverse_cons, List.append_assoc]
              rfl

/-- Running the postorder of a tree puts the element of the tree on the stack, or
fails as its construction does. -/
theorem pushAll_postorder {t : EventTree} (h : t.Ranked) (stack : List Element) :
    ctx.pushAll stack t.postorder = (t.construct ctx).map (· :: stack) := by
  induction h generalizing stack with
  | @node event operands count _ ih =>
      rw [postorder, construct, pushAll_append, pushAll_row ih]
      cases built : constructAll ctx operands with
      | error e => rfl
      | ok es =>
          show ctx.pushAll (es.reverse ++ stack) [event] = _
          rw [pushAll_singleton, push_of_operands stack es
            ((length_of_constructAll built).trans count)]
          rfl

/-! ## From streams to trees -/

/-- A stream is the postorder of a row of trees, and these are the elements of the
row. -/
structure Reads (ctx : Context) (events : List Event) (row : List EventTree)
    (elements : List Element) : Prop where
  ranked : ∀ t ∈ row, t.Ranked
  order : postorders row = events
  built : constructAll ctx row = .ok elements

namespace Reads

variable {events : List Event} {row : List EventTree} {elements : List Element}

theorem length (h : ctx.Reads events row elements) : elements.length = row.length :=
  length_of_constructAll h.built

theorem pushAll (h : ctx.Reads events row elements) :
    ctx.pushAll [] events = .ok elements.reverse := by
  rw [← h.order, pushAll_row (fun t ht => pushAll_postorder (h.ranked t ht)), h.built]
  exact congrArg Except.ok (List.append_nil _)

/-- The operands that an event takes off a row, if there are enough. -/
theorem operands {n : Nat} (h : ctx.Reads events row elements) (enough : n ≤ row.length) :
    ∃ rest operands es es', row = rest ++ operands ∧ operands.length = n
      ∧ constructAll ctx rest = .ok es ∧ constructAll ctx operands = .ok es'
      ∧ elements = es ++ es' := by
  have split : row = row.take (row.length - n) ++ row.drop (row.length - n) :=
    (List.take_append_drop _ _).symm
  have built := h.built
  rw [split, constructAll_append] at built
  obtain ⟨es, front, built⟩ := bind_eq_ok built
  obtain ⟨es', back, built⟩ := bind_eq_ok built
  cases built
  refine ⟨_, _, es, es', split, ?_, front, back, rfl⟩
  rw [List.length_drop, Nat.sub_sub_self enough]

end Reads

/-- A stream that runs through is the postorder of a row. -/
theorem reads_of_pushAll {events : List Event} {stack : List Element}
    (h : ctx.pushAll [] events = .ok stack) : ∃ row, ctx.Reads events row stack.reverse := by
  induction events using List.reverseRecOn generalizing stack with
  | nil =>
      cases h
      exact ⟨[], fun _ ht => absurd ht List.not_mem_nil, rfl, rfl⟩
  | append_singleton events event ih =>
      rw [pushAll_append] at h
      obtain ⟨middle, before, h⟩ := bind_eq_ok h
      rw [pushAll_singleton] at h
      obtain ⟨row, read⟩ := ih before
      by_cases enough : event.tag.arity ≤ row.length
      · obtain ⟨rest, operands, es, es', rfl, count, front, back, elements⟩ :=
          read.operands enough
        have stacked : middle = es'.reverse ++ es.reverse := by
          rw [← List.reverse_append, ← elements, List.reverse_reverse]
        rw [stacked, push_of_operands _ _ ((length_of_constructAll back).trans count)] at h
        obtain ⟨e, made, rfl⟩ := map_eq_ok h
        obtain ⟨front', back'⟩ := List.forall_mem_append.mp read.ranked
        refine ⟨rest ++ [.node event operands], ?_, ?_, ?_⟩
        · exact List.forall_mem_append.mpr
            ⟨front', List.forall_mem_singleton.mpr (.node count back')⟩
        · rw [postorders_concat, read.order]
        · rw [constructAll_append, front, constructAll, construct, back]
          simp only [constructAll, bind, Except.bind, made, pure, Except.pure,
            List.reverse_cons, List.reverse_reverse]
      · have short : middle.length < event.tag.arity := by
          have length := read.length
          rw [List.length_reverse] at length
          omega
        cases countable : event.tag.isCountable with
        | false =>
            rw [push_of_uncountable middle countable] at h
            cases h
        | true =>
            rw [push_of_missing countable short] at h
            cases h

/-! ## The first event that fails -/

/-- An event fails after the events before it: its operands cannot be counted; or they
can, and the events before it are the postorder of a row that is too short; or its
operands can be built and it cannot. -/
inductive Fails (ctx : Context) (before : List Event) (event : Event) : Stop → Prop
  | overflow : event.tag.isCountable = false → Fails ctx before event .overflow
  | missing {row : List EventTree} : event.tag.isCountable = true → (∀ t ∈ row, t.Ranked) →
      postorders row = before → row.length < event.tag.arity →
      Fails ctx before event
        (.refused (.malformed (.missingOperands event.tag row.length) event.span))
  | reduction {rest operands : List EventTree} {elements : List Element} {stop : Stop} :
      (∀ t ∈ rest ++ operands, t.Ranked) → postorders (rest ++ operands) = before →
      operands.length = event.tag.arity → constructAll ctx operands = .ok elements →
      ctx.reduce event.tag elements event.span = .error stop → Fails ctx before event stop

/-- No event of a stream fails. -/
def Runs (ctx : Context) (events : List Event) : Prop :=
  ∀ before event after, events = before ++ event :: after → ∀ stop,
    ¬ ctx.Fails before event stop

/-- On the stack of the events before it, an event meets that with which it fails. -/
theorem Reads.fails_iff {before : List Event} {row : List EventTree} {elements : List Element}
    {event : Event} {stop : Stop} (h : ctx.Reads before row elements) :
    ctx.Fails before event stop ↔ ctx.push elements.reverse event = .error stop := by
  constructor
  · intro fails
    cases fails with
    | overflow uncountable => exact push_of_uncountable _ uncountable
    | @missing row' countable ranked order short =>
        cases postorders_inj ranked h.ranked (order.trans h.order.symm)
        rw [← h.length, ← List.length_reverse] at short ⊢
        exact push_of_missing countable short
    | @reduction rest operands es' _ ranked order count built failed =>
        cases postorders_inj ranked h.ranked (order.trans h.order.symm)
        have whole := h.built
        rw [constructAll_append, built] at whole
        obtain ⟨es, -, whole⟩ := bind_eq_ok whole
        cases whole
        rw [List.reverse_append,
          push_of_operands _ _ ((length_of_constructAll built).trans count), failed]
        rfl
  · intro failed
    by_cases enough : event.tag.arity ≤ row.length
    · obtain ⟨rest, operands, es, es', rfl, count, -, back, rfl⟩ := h.operands enough
      rw [List.reverse_append,
        push_of_operands _ _ ((length_of_constructAll back).trans count)] at failed
      cases made : ctx.reduce event.tag es' event.span with
      | ok e => rw [made] at failed; cases failed
      | error e =>
          rw [made] at failed
          cases failed
          exact .reduction h.ranked h.order count back made
    · have short : elements.reverse.length < event.tag.arity := by
        rw [List.length_reverse, h.length]
        exact Nat.lt_of_not_le enough
      cases countable : event.tag.isCountable with
      | false =>
          rw [push_of_uncountable _ countable] at failed
          cases failed
          exact .overflow countable
      | true =>
          rw [push_of_missing countable short, List.length_reverse, h.length] at failed
          cases failed
          exact .missing countable h.ranked h.order (Nat.lt_of_not_le enough)

/-- The stack a stream leaves, and an event that fails on it. -/
theorem push_eq_error_iff {before : List Event} {stack : List Element} {event : Event}
    {stop : Stop} (h : ctx.pushAll [] before = .ok stack) :
    ctx.push stack event = .error stop ↔ ctx.Fails before event stop := by
  obtain ⟨row, read⟩ := reads_of_pushAll h
  rw [read.fails_iff, List.reverse_reverse]

theorem runs_of_pushAll {events : List Event} {stack : List Element}
    (h : ctx.pushAll [] events = .ok stack) : ctx.Runs events := by
  rintro before event after rfl stop fails
  rw [pushAll_append] at h
  obtain ⟨middle, ran, h⟩ := bind_eq_ok h
  have failed := (push_eq_error_iff ran).mpr fails
  simp only [pushAll, failed] at h
  cases h

/-- A stream that does not run through has a first event that fails. -/
theorem fails_of_pushAll {events : List Event} {stop : Stop}
    (h : ctx.pushAll [] events = .error stop) :
    ∃ before event after, events = before ++ event :: after ∧ ctx.Runs before
      ∧ ctx.Fails before event stop := by
  induction events using List.reverseRecOn with
  | nil => cases h
  | append_singleton events event ih =>
      rw [pushAll_append] at h
      cases ran : ctx.pushAll [] events with
      | error e =>
          rw [ran] at h
          cases h
          obtain ⟨before, first, after, rfl, runs, fails⟩ := ih ran
          exact ⟨before, first, after ++ [event], by simp, runs, fails⟩
      | ok stack =>
          rw [ran] at h
          have failed : ctx.pushAll stack [event] = .error stop := h
          rw [pushAll_singleton] at failed
          exact ⟨events, event, [], rfl, runs_of_pushAll ran, (push_eq_error_iff ran).mp failed⟩

theorem exists_pushAll_of_runs {events : List Event} (h : ctx.Runs events) :
    ∃ stack, ctx.pushAll [] events = .ok stack := by
  cases ran : ctx.pushAll [] events with
  | ok stack => exact ⟨stack, rfl⟩
  | error e =>
      obtain ⟨before, event, after, split, -, fails⟩ := fails_of_pushAll ran
      exact absurd fails (h before event after split e)

/-- Running a stream ends as the first event that fails does. -/
theorem pushAll_eq_error_iff {events : List Event} {stop : Stop} :
    ctx.pushAll [] events = .error stop
      ↔ ∃ before event after, events = before ++ event :: after ∧ ctx.Runs before
        ∧ ctx.Fails before event stop := by
  refine ⟨fails_of_pushAll, ?_⟩
  rintro ⟨before, event, after, rfl, runs, fails⟩
  obtain ⟨stack, ran⟩ := exists_pushAll_of_runs runs
  have failed := (push_eq_error_iff ran).mpr fails
  rw [pushAll_append, ran]
  show ctx.pushAll stack (event :: after) = _
  simp only [pushAll, failed]

/-! ## The end of a stream -/

/-- Exactly the tag of a root makes a root. -/
theorem isRoot_of_reduce {tag : Tag} {operands : List Element} {span : Span} {e : Element}
    (h : ctx.reduce tag operands span = .ok e) : e.isRoot = tag.isRoot := by
  have h := (reduce_eq_ok_iff.mp h).2
  cases isRoot : tag.isRoot with
  | false => exact node_isRoot isRoot h
  | true =>
      cases tag with
      | root expected =>
          match operands, h with
          | [x], h => exact root_isRoot h
      | _ => cases isRoot

theorem isRoot_of_construct {t : EventTree} {e : Element} (h : t.construct ctx = .ok e) :
    e.isRoot = t.event.tag.isRoot := by
  cases t with
  | node event operands =>
      rw [construct] at h
      obtain ⟨es, -, made⟩ := bind_eq_ok h
      exact isRoot_of_reduce made

/-- An empty list is never reduced. -/
theorem ne_emptyList_of_reduce {tag : Tag} {operands : List Element} {span : Span} {e : Element}
    (h : ctx.reduce tag operands span = .ok e) : tag ≠ .inList 0 := by
  rintro rfl
  match operands, (reduce_eq_ok_iff.mp h).2 with
  | [probe], h => cases h
  | probe :: item :: items, h => cases h

theorem ne_emptyList_of_pushAll {events : List Event} {stack stack' : List Element}
    (h : ctx.pushAll stack events = .ok stack') : ∀ event ∈ events, event.tag ≠ .inList 0 := by
  induction events generalizing stack with
  | nil => exact fun _ h => absurd h List.not_mem_nil
  | cons event events ih =>
      simp only [pushAll] at h
      split at h
      · next stack₁ pushed =>
          obtain ⟨_, _, _, _, made, _⟩ := push_eq_ok pushed
          exact List.forall_mem_cons.mpr ⟨ne_emptyList_of_reduce made, ih h⟩
      · cases h

/-- A row that does not end in a root: there is no tree, or one that cannot be wrapped
in a root, or more than one. -/
inductive Unclosed (ctx : Context) : List EventTree → CompileError → Prop
  | empty : Unclosed ctx [] (.malformed .emptyExpression .unknown)
  | root {t : EventTree} {e : Element} {error : CompileError} : t.event.tag.isRoot = false →
      t.construct ctx = .ok e → ctx.root e none e.span = .error error → Unclosed ctx [t] error
  | leftOver {first last : EventTree} {middle : List EventTree} {e : Element} :
      last.construct ctx = .ok e →
      Unclosed ctx (first :: middle ++ [last])
        (.malformed (.leftOver (middle.length + 2)) e.span)

theorem Reads.last {events : List Event} {rest : List EventTree} {t : EventTree}
    {elements : List Element} (h : ctx.Reads events (rest ++ [t]) elements) :
    ∃ es top, t.construct ctx = .ok top ∧ elements = es ++ [top] ∧ es.length = rest.length := by
  have built := h.built
  rw [constructAll_append] at built
  obtain ⟨es, front, built⟩ := bind_eq_ok built
  obtain ⟨tops, back, built⟩ := bind_eq_ok built
  cases built
  rw [constructAll] at back
  obtain ⟨top, made, back⟩ := bind_eq_ok back
  cases back
  exact ⟨es, top, made, rfl, length_of_constructAll front⟩

/-- One tree is left, and it is the root or is wrapped in one. -/
theorem close_singleton {t : EventTree} {top : Element} (made : t.construct ctx = .ok top) :
    ctx.close [top] = if t.event.tag.isRoot then .ok top else ctx.root top none top.span := by
  rw [close, isRoot_of_construct made]

/-- More than one tree is left. -/
theorem close_many {top : Element} {es : List Element} {n : Nat} (length : es.length = n + 1) :
    ctx.close (top :: es.reverse) = .error (.malformed (.leftOver (n + 2)) top.span) := by
  rw [← List.length_reverse] at length
  match es.reverse, length with
  | x :: xs, length =>
      rw [close, length]
      intro isNil
      cases isNil

theorem Reads.close_eq_ok_iff {events : List Event} {row : List EventTree}
    {elements : List Element} {e : Element} (h : ctx.Reads events row elements) :
    ctx.close elements.reverse = .ok e
      ↔ ∃ t top, row = [t] ∧ t.construct ctx = .ok top
        ∧ if t.event.tag.isRoot then e = top else ctx.root top none top.span = .ok e := by
  have one : ∀ {t : EventTree} {top : Element}, t.construct ctx = .ok top →
      (ctx.close [top] = .ok e
        ↔ if t.event.tag.isRoot then e = top else ctx.root top none top.span = .ok e) := by
    intro t top made
    rw [close_singleton made]
    split
    · rw [Except.ok.injEq, eq_comm]
    · rfl
  constructor
  · intro closed
    rcases List.eq_nil_or_concat row with rfl | ⟨rest, t, rfl⟩
    · cases h.built
      cases closed
    · rw [List.concat_eq_append] at h
      obtain ⟨es, top, made, rfl, length⟩ := h.last
      rw [List.reverse_append] at closed
      cases rest with
      | nil =>
          cases List.length_eq_zero_iff.mp length
          exact ⟨t, top, rfl, made, (one made).mp closed⟩
      | cons first rest =>
          have closed : ctx.close (top :: es.reverse) = .ok e := closed
          rw [close_many length] at closed
          cases closed
  · rintro ⟨t, top, rfl, made, wrapped⟩
    have built := h.built
    rw [constructAll, made] at built
    cases built
    exact (one made).mpr wrapped

theorem Reads.close_eq_error_iff {events : List Event} {row : List EventTree}
    {elements : List Element} {error : CompileError} (h : ctx.Reads events row elements) :
    ctx.close elements.reverse = .error error ↔ ctx.Unclosed row error := by
  constructor
  · intro failed
    rcases List.eq_nil_or_concat row with rfl | ⟨rest, t, rfl⟩
    · cases h.built
      cases failed
      exact .empty
    · rw [List.concat_eq_append] at h ⊢
      obtain ⟨es, top, made, rfl, length⟩ := h.last
      rw [List.reverse_append] at failed
      cases rest with
      | nil =>
          cases List.length_eq_zero_iff.mp length
          have failed : ctx.close [top] = .error error := failed
          rw [close_singleton made] at failed
          split at failed
          · cases failed
          · next other => exact .root (Bool.not_eq_true _ ▸ other) made failed
      | cons first rest =>
          have failed : ctx.close (top :: es.reverse) = .error error := failed
          rw [close_many length] at failed
          cases failed
          exact .leftOver made
  · intro unclosed
    cases unclosed with
    | empty =>
        cases h.built
        rfl
    | @root t top _ other made failed =>
        have built := h.built
        rw [constructAll, made] at built
        cases built
        show ctx.close [top] = _
        rw [close_singleton made, other]
        exact failed
    | @leftOver first t rest top made =>
        obtain ⟨es, top', made', rfl, length⟩ := h.last
        cases made.symm.trans made'
        rw [List.reverse_append]
        show ctx.close (top :: es.reverse) = _
        rw [close_many length]

/-! ## Streams -/

theorem build_eq_ok_iff {events : List Event} {e : Element} :
    ctx.build events = .ok e
      ↔ ∃ row elements, ctx.Reads events row elements ∧ ctx.close elements.reverse = .ok e := by
  constructor
  · intro h
    obtain ⟨stack, ran, closed⟩ := build_eq_ok h
    obtain ⟨row, read⟩ := reads_of_pushAll ran
    exact ⟨row, stack.reverse, read, by rw [List.reverse_reverse]; exact closed⟩
  · rintro ⟨row, elements, read, closed⟩
    rw [build, read.pushAll]
    exact mapError_eq_ok_iff.mpr closed

theorem build_eq_error_iff {events : List Event} {stop : Stop} :
    ctx.build events = .error stop
      ↔ ctx.pushAll [] events = .error stop
        ∨ ∃ row elements error, ctx.Reads events row elements
          ∧ ctx.close elements.reverse = .error error ∧ stop = .refused error := by
  rw [build]
  constructor
  · intro h
    cases ran : ctx.pushAll [] events with
    | error e =>
        rw [ran] at h
        cases h
        exact Or.inl rfl
    | ok stack =>
        rw [ran] at h
        obtain ⟨row, read⟩ := reads_of_pushAll ran
        have h : (ctx.close stack).mapError Stop.refused = .error stop := h
        cases closed : ctx.close stack with
        | ok e =>
            rw [closed] at h
            cases h
        | error error =>
            rw [closed] at h
            cases h
            exact Or.inr ⟨row, stack.reverse, error, read,
              by rw [List.reverse_reverse]; exact closed, rfl⟩
  · rintro (stopped | ⟨row, elements, error, read, failed, rfl⟩)
    · rw [stopped]
      rfl
    · rw [read.pushAll]
      show (ctx.close elements.reverse).mapError Stop.refused = _
      rw [failed]
      rfl

/-- A reduction overflows only by the count of its operands. -/
theorem reduce_eq_overflow_iff {tag : Tag} {operands : List Element} {span : Span} :
    ctx.reduce tag operands span = .error .overflow ↔ tag.isCountable = false := by
  rw [reduce]
  cases tag.isCountable with
  | false => exact ⟨fun _ => rfl, fun _ => rfl⟩
  | true =>
      rw [if_pos rfl]
      refine ⟨?_, fun long => by cases long⟩
      intro overflow
      cases made : ctx.node tag operands span with
      | ok e => rw [made] at overflow; cases overflow
      | error e => rw [made] at overflow; cases overflow

theorem fails_overflow_iff {before : List Event} {event : Event} :
    ctx.Fails before event .overflow ↔ event.tag = .longestList := by
  rw [← Tag.isCountable_eq_false_iff]
  constructor
  · intro fails
    cases fails with
    | overflow uncountable => exact uncountable
    | reduction _ _ _ _ failed => exact reduce_eq_overflow_iff.mp failed
  · exact .overflow

/-- A stream is accepted exactly if it is the postorder of a tree in which every node
has the operands its tag asks for, no list is empty, every node can be reduced after
its operands, and the top is a root or can be wrapped in one.  There is only one such
tree, and the element is the one that is built from it bottom-up.  A stream that is
not accepted ends at the first event whose operands cannot be counted, that lacks
operands or cannot be reduced, and only if there is no such event it is refused for
what is left at its end.  It ends without a report exactly if that event is the
longest list. -/
theorem build_iff_postorder (ctx : Context) (events : List Event) :
    (∀ e, ctx.build events = .ok e
      ↔ ∃ t : EventTree, t.Ranked ∧ t.postorder = events
        ∧ (∀ event ∈ events, event.tag ≠ .inList 0)
        ∧ ∃ top, t.construct ctx = .ok top
          ∧ if t.event.tag.isRoot then e = top else ctx.root top none top.span = .ok e)
    ∧ (∀ t t' : EventTree, t.Ranked → t'.Ranked → t.postorder = events →
        t'.postorder = events → t = t')
    ∧ (∀ stop, ctx.build events = .error stop
      ↔ (∃ before event after, events = before ++ event :: after ∧ ctx.Runs before
          ∧ ctx.Fails before event stop)
        ∨ ctx.Runs events ∧ ∃ (row : List EventTree) (error : CompileError),
          (∀ t ∈ row, t.Ranked) ∧ postorders row = events ∧ ctx.Unclosed row error
          ∧ stop = .refused error)
    ∧ (ctx.build events = .error .overflow
      ↔ ∃ before span after, events = before ++ ⟨.longestList, span⟩ :: after
        ∧ ctx.Runs before) := by
  have single : ∀ t : EventTree, postorders [t] = t.postorder := fun t => List.append_nil _
  refine ⟨?_, ?_, ?_, ?_⟩
  · intro e
    rw [build_eq_ok_iff]
    constructor
    · rintro ⟨row, elements, read, closed⟩
      obtain ⟨t, top, rfl, made, wrapped⟩ := read.close_eq_ok_iff.mp closed
      exact ⟨t, read.ranked t List.mem_cons_self, (single t).symm.trans read.order,
        ne_emptyList_of_pushAll read.pushAll, top, made, wrapped⟩
    · rintro ⟨t, ranked, order, -, top, made, wrapped⟩
      have read : ctx.Reads events [t] [top] := by
        refine ⟨List.forall_mem_singleton.mpr ranked, (single t).trans order, ?_⟩
        rw [constructAll, made]
        rfl
      exact ⟨[t], [top], read, read.close_eq_ok_iff.mpr ⟨t, top, rfl, made, wrapped⟩⟩
  · intro t t' ranked ranked' order order'
    have rows : [t] = [t'] := by
      refine postorders_inj (List.forall_mem_singleton.mpr ranked)
        (List.forall_mem_singleton.mpr ranked') ?_
      rw [single, single, order, order']
    exact List.singleton_inj.mp rows
  · intro stop
    rw [build_eq_error_iff, pushAll_eq_error_iff]
    refine or_congr_right ?_
    constructor
    · rintro ⟨row, elements, error, read, failed, refused⟩
      exact ⟨runs_of_pushAll read.pushAll, row, error, read.ranked, read.order,
        read.close_eq_error_iff.mp failed, refused⟩
    · rintro ⟨runs, row, error, ranked, order, unclosed, refused⟩
      obtain ⟨stack, ran⟩ := exists_pushAll_of_runs runs
      obtain ⟨row', read⟩ := reads_of_pushAll ran
      cases postorders_inj ranked read.ranked (order.trans read.order.symm)
      exact ⟨row, stack.reverse, error, read, read.close_eq_error_iff.mpr unclosed, refused⟩
  · rw [build_eq_error_iff, pushAll_eq_error_iff]
    constructor
    · rintro (⟨before, ⟨tag, span⟩, after, split, runs, fails⟩ | ⟨_, _, _, _, _, refused⟩)
      · cases fails_overflow_iff.mp fails
        exact ⟨before, span, after, split, runs⟩
      · cases refused
    · rintro ⟨before, span, after, split, runs⟩
      exact Or.inl ⟨before, _, after, split, runs, fails_overflow_iff.mpr rfl⟩

end Context

/-! ## An example: `!(1 in (1, 2))` -/

def EventTree.negatedSearch : EventTree :=
  let number (v : UInt64) : EventTree := .node ⟨.integer v, .unknown⟩ []
  .node ⟨.unary .not, .unknown⟩ [.node ⟨.inList 2, .unknown⟩ [number 1, number 1, number 2]]

def Element.negatedSearch : Element :=
  let number (v : Int32) : Element := .literal ⟨Ty.numeric .int32, .unknown⟩ (.int v)
  let equal : ComparePlan := .numeric .int32 .identity .identity
  let bool : NodeInfo := ⟨Ty.bool, .unknown⟩
  .root bool .identity (.unary bool .not .not
    (.inList bool (number 1) [(equal, number 1), (equal, number 2)]))

/-- The tree is read back from its events and from no other tree, and a sum at the end
of the stream is refused since it lacks an operand. -/
theorem Context.build_iff_postorder_negatedSearch :
    EventTree.negatedSearch.Ranked
      ∧ (⟨.withPrimitives, {}⟩ : Context).build EventTree.negatedSearch.postorder
        = .ok Element.negatedSearch
      ∧ (∀ t : EventTree, t.Ranked → t.postorder = EventTree.negatedSearch.postorder →
        t = EventTree.negatedSearch)
      ∧ (⟨.withPrimitives, {}⟩ : Context).build
          (EventTree.negatedSearch.postorder ++ [⟨.binary (.arithmetic .add), .unknown⟩])
        = .error (.refused
          (.malformed (.missingOperands (.binary (.arithmetic .add)) 1) .unknown)) := by
  have ranked : EventTree.negatedSearch.Ranked := by
    have number (v : UInt64) : (EventTree.node ⟨.integer v, .unknown⟩ []).Ranked :=
      .node rfl fun _ h => absurd h List.not_mem_nil
    refine .node rfl (List.forall_mem_singleton.mpr (.node rfl ?_))
    exact List.forall_iff_forall_mem.mp ⟨number 1, number 1, number 2⟩
  have ran : ∃ stack, (⟨.withPrimitives, {}⟩ : Context).pushAll []
      EventTree.negatedSearch.postorder = .ok stack := ⟨_, rfl⟩
  obtain ⟨accepts, unique, -⟩ := Context.build_iff_postorder ⟨.withPrimitives, {}⟩
    EventTree.negatedSearch.postorder
  refine ⟨ranked, ?_, ?_, ?_⟩
  · refine (accepts _).mpr ⟨_, ranked, rfl, by decide, _, rfl, rfl⟩
  · intro t ranked' order
    exact unique t _ ranked' ranked order rfl
  · refine ((Context.build_iff_postorder _ _).2.2.1 _).mpr (Or.inl ⟨_, _, [], rfl, ?_, ?_⟩)
    · exact Context.runs_of_pushAll ran.choose_spec
    · exact .missing rfl (List.forall_mem_singleton.mpr ranked) (List.append_nil _) (by decide)

/-- The longest list alone lacks operands, as the postorder of no tree at all comes
before it, and still no missing operand is reported. -/
theorem Context.build_longestList :
    EventTree.postorders [] = [] ∧ 0 < Tag.longestList.arity
      ∧ (⟨.withPrimitives, {}⟩ : Context).build [⟨.longestList, .unknown⟩] = .error .overflow
      ∧ (⟨.withPrimitives, {}⟩ : Context).build [⟨.longestList, .unknown⟩]
        ≠ .error (.refused (.malformed (.missingOperands .longestList 0) .unknown)) := by
  have stops : (⟨.withPrimitives, {}⟩ : Context).build [⟨.longestList, .unknown⟩]
      = .error .overflow := by rfl
  refine ⟨rfl, by decide, stops, ?_⟩
  rw [stops]
  exact nofun

end ExprCompiler
