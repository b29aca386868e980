/-
# Which line an instruction is listed under

Every byte of code is listed under a source line, and every node has one.  A node
announces its line when the walk meets it, and never again: what it asks for after
an operand is written while the line of that operand, or of the last node met
inside it, is still the current one.  So the bytes of an instruction carry the
line of the node met last before it was asked for, which is the node itself or one
below it, and they carry the line of the node that asked exactly if those two lines
agree (`Element.lines_of_last_met`).  Only what a node writes before its first
operand is sure to be listed under its own line.

Signed directives (`Element.Signed`) say who asked.  The two halves meet in the
last announcement before an instruction: the walk says whose it is (`LastMet`,
`Step.Signs.last_met`), and the pass that writes bytes says that every byte takes
the line announced last and keeps it when branches are patched.
-/
import ExprCompiler.Proofs.Code.Authors
import ExprCompiler.Proofs.Code.Encoding
import ExprCompiler.Proofs.Code.Jumps
import ExprCompiler.Proofs.Machine.Slots

namespace ExprCompiler

namespace Directive

/-- The line that a directive announces. -/
def line? : Directive → Option Nat
  | .line n => some n
  | _ => none

theorem line?_eq_none {d : Directive} (h : d.isInstruction = true) : d.line? = none := by
  cases d with
  | line n => cases h
  | _ => rfl

theorem eq_line {d : Directive} {n : Nat} (h : d.line? = some n) : d = .line n := by
  cases d with
  | line m => cases h; rfl
  | _ => cases h

theorem line?_of_isPlain {d : Directive} (h : d.isPlain true = true) : d.line? = none := by
  cases d with
  | line n => cases h
  | _ => rfl

theorem line?_storeTemporary (slot : Nat) : (storeTemporary slot).line? = none := by
  simp only [storeTemporary]
  split <;> rfl

end Directive

open Directive

/-! ## Nodes -/

/-- A node announces its line, and no other. -/
theorem Element.lines_steps (e : Element) (live first : Nat) :
    (Step.own (e.steps live first)).filterMap line? = [e.span.line] := by
  have body : (Step.own (e.body live first)).filterMap line? = [] := by
    rw [filterMap_body (fun _ => line?_of_isPlain), line?_storeTemporary]
    split <;> rfl
  rw [steps, Step.own_emit, List.filterMap_cons, body]
  rfl

theorem Element.eq_line_of_mem_steps {e : Element} {live first n : Nat}
    (h : .emit (.line n) ∈ e.steps live first) : n = e.span.line := by
  have listed : .line n ∈ Step.own (e.steps live first) := List.mem_filterMap.mpr ⟨_, h, rfl⟩
  have announced : n ∈ (Step.own (e.steps live first)).filterMap line? :=
    List.mem_filterMap.mpr ⟨_, listed, rfl⟩
  rw [lines_steps] at announced
  exact List.mem_singleton.mp announced

/-- What a node visits is met on the walk of the node. -/
theorem Element.walk_subset {e : Element} {live first : Nat} {p : Nat × Element}
    (h : p ∈ Step.visits (e.steps live first)) : p.2.walk p.1 ⊆ e.walk live := by
  rw [visits_steps] at h
  obtain ⟨q, hq, rfl⟩ := List.mem_map.mp h
  intro x hx
  rw [e.walk_eq]
  exact List.mem_cons_of_mem _ (List.mem_flatMap.mpr ⟨q, hq, hx⟩)

/-! ## The node met last -/

/-- A node is another one or below it. -/
def Author.Within (a b : Author) : Prop := (a.live, a.node) ∈ b.node.walk b.live

theorem Author.within_self (a : Author) : a.Within a := by
  rw [Within, Element.walk_eq]
  exact List.mem_cons_self

/-- Of the signed directives so far, the last announcement is that of `latest`. -/
def LastMet (before : List Entry) (latest : Author) : Prop :=
  ∃ earlier later, before = earlier ++ (latest, .line latest.node.span.line) :: later ∧
    ∀ q ∈ later, q.2.line? = none

namespace LastMet

variable {before : List Entry} {latest : Author}

theorem mem (h : LastMet before latest) :
    (latest, .line latest.node.span.line) ∈ before := by
  obtain ⟨earlier, later, rfl, -⟩ := h
  exact List.mem_append_right _ List.mem_cons_self

theorem after (h : LastMet before latest) (first : List Entry) :
    LastMet (first ++ before) latest := by
  obtain ⟨earlier, later, rfl, silent⟩ := h
  exact ⟨first ++ earlier, later, (List.append_assoc ..).symm, silent⟩

theorem silence (h : LastMet before latest) {rest : List Entry}
    (silent' : ∀ q ∈ rest, q.2.line? = none) : LastMet (before ++ rest) latest := by
  obtain ⟨earlier, later, rfl, silent⟩ := h
  refine ⟨earlier, later ++ rest, ?_, ?_⟩
  · rw [List.append_assoc, List.cons_append]
  · intro q hq
    rcases List.mem_append.mp hq with hq | hq
    · exact silent q hq
    · exact silent' q hq

/-- Its line is the one that was announced last. -/
theorem getLast?_lines (h : LastMet before latest) :
    ((before.map (·.2)).filterMap line?).getLast? = some latest.node.span.line := by
  obtain ⟨earlier, later, rfl, silent⟩ := h
  have quiet : later.filterMap (fun q => q.2.line?) = [] := List.filterMap_eq_nil_iff.mpr silent
  rw [List.filterMap_map, List.filterMap_append]
  exact (congrArg (fun rest => (_ ++ _ :: rest).getLast?) quiet).trans List.getLast?_concat

/-- There is a last announcement if there is one at all. -/
theorem exists_or_silent (honest : ∀ q ∈ before, ∀ n, q.2 = .line n → n = q.1.node.span.line) :
    (∃ latest, LastMet before latest) ∨ ∀ q ∈ before, q.2.line? = none := by
  induction before with
  | nil => exact .inr fun q hq => absurd hq List.not_mem_nil
  | cons q before ih =>
      rcases ih fun r hr => honest r (List.mem_cons_of_mem _ hr) with ⟨latest, last⟩ | silent
      · exact .inl ⟨latest, last.after [q]⟩
      · cases announced : q.2.line? with
        | none => exact .inr (List.forall_mem_cons.mpr ⟨announced, silent⟩)
        | some n =>
            obtain ⟨author, d⟩ := q
            cases eq_line announced
            have mine : n = author.node.span.line := honest _ List.mem_cons_self n rfl
            subst mine
            exact .inl ⟨author, [], before, rfl, silent⟩

end LastMet

namespace Step.Signs

variable {me : Author} {fresh next fresh' next' : Nat} {ts : List Step} {script : List Entry}

/-- Every announcement is of the line of the node that makes it. -/
theorem honest (h : Signs me fresh next ts script fresh' next')
    (own : ∀ d, .emit d ∈ ts → ∃ first, .emit d ∈ me.node.steps me.live first) :
    ∀ q ∈ script, ∀ n, q.2 = .line n → n = q.1.node.span.line := by
  intro q hq n same
  obtain ⟨first, wrote⟩ := h.wrote own q hq
  rw [same] at wrote
  exact Element.eq_line_of_mem_steps wrote

/-- Whoever signs is the node or one below it. -/
theorem within (h : Signs me fresh next ts script fresh' next')
    (visited : ∀ p ∈ visits ts, p.2.walk p.1 ⊆ me.node.walk me.live) :
    ∀ q ∈ script, q.1.Within me := by
  induction h with
  | nil => exact fun q hq => absurd hq List.not_mem_nil
  | emit _ ih =>
      exact List.forall_mem_cons.mpr ⟨Author.within_self _, ih visited⟩
  | visit _ _ ih ih' =>
      intro q hq
      rcases List.mem_append.mp hq with inside | after
      · exact visited _ List.mem_cons_self (ih (fun p hp => Element.walk_subset hp) q inside)
      · exact ih' (fun p hp => visited p (List.mem_cons_of_mem _ hp)) q after

/-- The directives of a node start with its announcement. -/
theorem announces {e : Element} {live first : Nat}
    (h : Signs me fresh next (e.steps live first) script fresh' next') :
    ∃ rest, script = (me, .line e.span.line) :: rest := by
  cases h with
  | emit rest => exact ⟨_, rfl⟩

/-- The last announcement before a directive is of a node below the one that asks for
it, or there is none yet and the node itself asks. -/
theorem last_met (h : Signs me fresh next ts script fresh' next')
    (visited : ∀ p ∈ visits ts, p.2.walk p.1 ⊆ me.node.walk me.live)
    (own : ∀ d, .emit d ∈ ts → ∃ first, .emit d ∈ me.node.steps me.live first)
    {before after : List Entry} {author : Author} {d : Directive}
    (split : script = before ++ (author, d) :: after) (quiet : d.line? = none) :
    (∃ latest, LastMet before latest ∧ latest.Within author) ∨
      (∀ q ∈ before, q.2.line? = none) ∧ author = me := by
  induction h generalizing before after with
  | nil => exact absurd split.symm (List.append_ne_nil_of_right_ne_nil _ (List.cons_ne_nil _ _))
  | @emit me fresh next fresh' next' d' ts script _ ih =>
      cases before with
      | nil =>
          cases split
          exact .inr ⟨fun q hq => absurd hq List.not_mem_nil, rfl⟩
      | cons q before =>
          obtain ⟨rfl, rest⟩ := List.cons.inj split
          rcases ih visited (fun d hd => own d (List.mem_cons_of_mem _ hd)) rest with
            ⟨latest, last, below⟩ | ⟨silent, rfl⟩
          · exact .inl ⟨latest, last.after [_], below⟩
          · cases announced : d'.line? with
            | none => exact .inr ⟨List.forall_mem_cons.mpr ⟨announced, silent⟩, rfl⟩
            | some n =>
                cases eq_line announced
                obtain ⟨first, wrote⟩ := own _ List.mem_cons_self
                cases Element.eq_line_of_mem_steps wrote
                exact .inl ⟨author, ⟨[], before, rfl, silent⟩, author.within_self⟩
  | @visit me fresh next middle between fresh' next' live e ts inside after' signed signed'
      ih ih' =>
      obtain ⟨rest, starts⟩ := signed.announces
      have visited' := fun p hp => visited p (List.mem_cons_of_mem _ hp)
      have own' := fun d hd => own d (List.mem_cons_of_mem _ hd)
      -- after the operand, the last node met inside it is still the last one
      have past {mid : List Entry} (rest' : after' = mid ++ (author, d) :: after) :
          (∃ latest, LastMet (inside ++ mid) latest ∧ latest.Within author) ∨
            (∀ q ∈ inside ++ mid, q.2.line? = none) ∧ author = me := by
        rcases ih' visited' own' rest' with ⟨latest, last, below⟩ | ⟨silent, rfl⟩
        · exact .inl ⟨latest, last.after inside, below⟩
        · rcases LastMet.exists_or_silent (signed.honest fun d hd => ⟨_, hd⟩) with
            ⟨latest, last⟩ | none
          · have below := signed.within (fun p hp => Element.walk_subset hp) _ last.mem
            exact .inl ⟨latest, last.silence silent, visited _ List.mem_cons_self below⟩
          · rw [starts] at none
            cases none _ List.mem_cons_self
      rcases List.append_eq_append_iff.mp split with ⟨mid, rfl, rest'⟩ | ⟨mid, hinside, rest'⟩
      · exact past rest'
      · cases mid with
        | nil =>
            rw [List.append_nil] at hinside
            rw [← hinside, ← List.append_nil inside]
            exact past rest'.symm
        | cons q mid =>
            obtain ⟨rfl, -⟩ := List.cons.inj rest'
            rcases ih (fun p hp => Element.walk_subset hp) (fun d hd => ⟨_, hd⟩) hinside with
              found | ⟨silent, rfl⟩
            · exact .inl found
            · -- the operand itself asks, so it has announced its line
              rw [starts] at hinside
              cases before with
              | nil =>
                  cases hinside
                  cases quiet
              | cons q before =>
                  obtain ⟨rfl, -⟩ := List.cons.inj hinside
                  cases silent _ List.mem_cons_self

end Step.Signs

/-! ## The pass that writes bytes -/

/-- One directive among those that are laid. -/
theorem Emission.Laid.around {em : Emission} {o e : Nat} {d : Directive}
    {ds ds' : List Directive} (h : em.Laid o (ds ++ d :: ds') e) :
    ∃ m n, em.Laid o ds m ∧ em.Laid m [d] n ∧ em.Laid n ds' e := by
  obtain ⟨m, front, rest⟩ := h.append_inv
  rw [← List.singleton_append] at rest
  obtain ⟨n, one, back⟩ := rest.append_inv
  exact ⟨m, n, front, one, back⟩

namespace Writer

variable {w w' : Writer} {em : Emission} {d : Directive} {ds : List Directive}

theorem lines_write (w : Writer) (op : OpCode) (operands : List UInt8) :
    (w.write op operands).chunk.lines =
      w.chunk.lines ++ List.replicate (1 + operands.length) w.line := by
  rw [write, Chunk.lines_writeBytes, Chunk.writeOp, Chunk.lines_writeByte, List.append_assoc,
    Nat.add_comm, List.replicate_succ]
  rfl

/-- A step lists its bytes under the current line, and changes the line only if it
announces one. -/
theorem step_lines (h : w.step d = (w', none)) :
    (∃ n, w'.chunk.lines = w.chunk.lines ++ List.replicate n w.line) ∧
      w'.line = d.line?.getD w.line := by
  have named {c : Constant} {f : UInt16 → OpCode × List UInt8}
      (h : w.writeWith c f = (w', none)) :
      (∃ n, w'.chunk.lines = w.chunk.lines ++ List.replicate n w.line) ∧ w'.line = w.line := by
    obtain ⟨index, pool, -, rfl⟩ := writeWith_ok h
    exact ⟨⟨_, lines_write ..⟩, rfl⟩
  have still : w.chunk.lines = w.chunk.lines ++ List.replicate 0 w.line :=
    (List.append_nil _).symm
  cases d with
  | line n => cases h; exact ⟨⟨0, still⟩, rfl⟩
  | op code => cases h; exact ⟨⟨_, lines_write ..⟩, rfl⟩
  | opByte code operand => cases h; exact ⟨⟨_, lines_write ..⟩, rfl⟩
  | constant c => exact named h
  | opId code id => rw [step] at h; exact named h
  | call code id argc => rw [step] at h; exact named h
  | branch kind label => cases h; exact ⟨⟨_, lines_write w _ _⟩, rfl⟩
  | mark label => cases h; exact ⟨⟨0, still⟩, rfl⟩
  | refuse fault => cases h

theorem run_append {ds' : List Directive} (h : w.run (ds ++ ds') = .ok w') :
    ∃ m, w.run ds = .ok m ∧ m.run ds' = .ok w' := by
  induction ds generalizing w with
  | nil => exact ⟨w, rfl, h⟩
  | cons d ds ih =>
      obtain ⟨w₁, taken, rest⟩ := run_cons h
      obtain ⟨m, front, back⟩ := ih rest
      exact ⟨m, by rw [run, taken]; exact front, back⟩

theorem run_lines (h : w.run ds = .ok w') : w.chunk.lines <+: w'.chunk.lines := by
  induction ds generalizing w with
  | nil => cases h; exact List.prefix_refl _
  | cons d ds ih =>
      obtain ⟨w₁, taken, rest⟩ := run_cons h
      obtain ⟨⟨n, grown⟩, -⟩ := step_lines taken
      exact (grown ▸ List.prefix_append ..).trans (ih rest)

theorem run_line (h : w.run ds = .ok w') (silent : ∀ d ∈ ds, d.line? = none) :
    w'.line = w.line := by
  induction ds generalizing w with
  | nil => cases h; rfl
  | cons d ds ih =>
      obtain ⟨w₁, taken, rest⟩ := run_cons h
      obtain ⟨quiet, silent⟩ := List.forall_mem_cons.mp silent
      rw [ih rest silent, (step_lines taken).2, quiet, Option.getD_none]

/-- Patches keep lines. -/
theorem patch_lines {labels : Array Nat} {c c' : Chunk} {p : Patch}
    (h : patch labels c p = .ok c') : c'.lines = c.lines := by
  simp only [patch] at h
  cases known : labels[p.label]? with
  | none => rw [known] at h; cases h
  | some target =>
      rw [known] at h
      simp only at h
      split at h
      · split at h
        · cases h; exact Chunk.lines_setBytes ..
        · cases h
      · split at h
        · cases h; exact Chunk.lines_setByte ..
        · cases h

theorem foldlM_patch_lines {labels : Array Nat} {ps : List Patch} {c c' : Chunk}
    (h : ps.foldlM (patch labels) c = .ok c') : c'.lines = c.lines := by
  induction ps generalizing c with
  | nil => cases h; rfl
  | cons p ps ih =>
      rw [List.foldlM_cons] at h
      cases first : patch labels c p with
      | error fault => rw [first] at h; cases h
      | ok c₁ =>
          rw [first] at h
          rw [ih h, patch_lines first]

/-- Where directives are laid to is where the pass stands after them. -/
theorem offset_of_laid {e : Nat} (a : w.Apart) (run : w.run ds = .ok w') (ends : w'.Ends em)
    (proper : ∀ d ∈ ds, d.Proper) (laid : em.Laid w.offset ds e) : w'.offset = e := by
  induction ds generalizing w with
  | nil =>
      cases run
      exact laid.nil_inv.symm
  | cons d ds ih =>
      obtain ⟨w₁, taken, rest⟩ := run_cons run
      have later := ih (a.step taken) rest (fun d hd => proper d (List.mem_cons_of_mem _ hd))
      have writes := step_writes a (proper d List.mem_cons_self) taken (ends.back_run rest)
      have fetched {op : OpCode} (written : em.Written w.offset w₁.offset d op) :
          w'.offset = e := by
        obtain ⟨i, asked, fetched⟩ := written.fetch
        obtain ⟨m, fetched', after, -⟩ := laid.instruction_inv asked
        rw [fetched] at fetched'
        cases fetched'
        exact later after
      cases d with
      | line n => cases taken; exact later laid.line_inv
      | mark label => cases taken; exact later laid.mark_inv.2
      | refuse fault => cases taken
      | opByte code place => exact fetched writes
      | op code => exact fetched writes
      | constant c => exact fetched writes
      | opId code id => exact fetched writes
      | call code id argc => exact fetched writes
      | branch kind label => exact fetched writes

end Writer

/-- The bytes of an instruction are listed under the line announced last. -/
theorem Emission.lineAt?_of_laid {plan : BranchPlan} {em : Emission} {d : Directive}
    {earlier later after : List Directive} {n o e : Nat}
    (h : Emission.ofDirectives plan (earlier ++ .line n :: later ++ d :: after) = .ok em)
    (proper : ∀ x ∈ earlier ++ .line n :: later ++ d :: after, x.Proper)
    (silent : ∀ x ∈ later, x.line? = none)
    (before : em.Laid 0 (earlier ++ .line n :: later) o) (laid : em.Laid o [d] e) :
    ∀ k, o ≤ k → k < e → em.chunk.lineAt? k = some n := by
  obtain ⟨w, run, finished⟩ := ofDirectives_ok h
  have apart := Writer.Apart.start plan
  have ends := (Writer.Ends.of_finish (apart.run run) finished).1
  obtain ⟨-, -, patched, -, -⟩ := Writer.finish_ok finished
  obtain ⟨m, front, back⟩ := Writer.run_append run
  obtain ⟨m₁, taken, rest⟩ := Writer.run_cons back
  have endsFront : m.Ends em := ends.back_run back
  have proper' := fun x hx => proper x (List.mem_append_left _ hx)
  have start : m.offset = o := Writer.offset_of_laid apart front endsFront proper' before
  have one : m.run [d] = .ok m₁ := by
    rw [Writer.run, taken]
    rfl
  have stop : m₁.offset = e := by
    refine Writer.offset_of_laid (apart.run front) one (ends.back_run rest) ?_ (start ▸ laid)
    intro x hx
    cases List.mem_singleton.mp hx
    exact proper d (List.mem_append_right _ List.mem_cons_self)
  have current : m.line = n := by
    obtain ⟨m₂, -, announced⟩ := Writer.run_append front
    obtain ⟨m₃, heard, quiet⟩ := Writer.run_cons announced
    rw [Writer.run_line quiet silent, (Writer.step_lines heard).2]
    rfl
  obtain ⟨⟨width, grown⟩, -⟩ := Writer.step_lines taken
  obtain ⟨more, lines⟩ := Writer.run_lines rest
  intro k low high
  have size : m.chunk.lines.length = o := (Chunk.length_lines _).trans start
  have size' : o + width = e := by
    rw [← stop, ← size, Writer.offset, ← Chunk.length_lines, grown, List.length_append,
      List.length_replicate]
  rw [Chunk.lineAt?_eq_getElem?, Writer.foldlM_patch_lines patched, ← lines, grown,
    List.append_assoc, List.getElem?_append_right (by omega), List.getElem?_append_left
      (by rw [List.length_replicate]; omega), List.getElem?_replicate, if_pos (by omega), current]

/-- Every byte is listed under the line of the node met last.  The directives of a
tree, signed by the nodes that ask for them, are laid in its code one after the other;
the bytes of each instruction carry the line announced last before it, by the node that
asks for it or one below.  So they carry the line of the node that asks exactly if the
node met last lies on it too. -/
theorem Element.lines_of_last_met {tree : Element} {plan : BranchPlan} {em : Emission}
    (h : tree.emit plan = .ok em) :
    ∃ script, tree.Signed script ∧ script.map (·.2) = tree.directives ∧
      em.Laid 0 tree.directives em.chunk.size ∧
      ∀ before author d after, script = before ++ (author, d) :: after →
        d.isInstruction = true →
        ∃ o e latest, em.Laid 0 (before.map (·.2)) o ∧ em.Laid o [d] e ∧ o < e ∧
          LastMet before latest ∧ latest.Within author ∧
          (∀ k, o ≤ k → k < e → em.chunk.lineAt? k = some latest.node.span.line) ∧
          ((∀ k, o ≤ k → k < e → em.chunk.lineAt? k = some author.node.span.line) ↔
            latest.node.span.line = author.node.span.line) := by
  obtain ⟨script, signed, same⟩ := tree.exists_signed
  have laid := laid_emit h
  have written := (emit_ok h).2
  have proper := tree.directives_proper
  refine ⟨script, signed, same, laid, ?_⟩
  rintro before author d after rfl takes
  obtain ⟨fresh, next, signs⟩ := signed
  have quiet := line?_eq_none takes
  obtain ⟨latest, last, below⟩ : ∃ latest, LastMet before latest ∧ latest.Within author := by
    rcases signs.last_met (fun p hp => walk_subset hp) (fun d hd => ⟨_, hd⟩) rfl quiet with
      found | ⟨silent, rfl⟩
    · exact found
    · -- the root announces its line first of all
      obtain ⟨rest, starts⟩ := signs.announces
      cases before with
      | nil =>
          cases starts
          cases quiet
      | cons q before =>
          obtain ⟨rfl, -⟩ := List.cons.inj starts
          cases silent _ List.mem_cons_self
  obtain ⟨earlier, later, split, silent⟩ := last
  have ds : tree.directives = earlier.map (·.2) ++ .line latest.node.span.line :: later.map (·.2)
      ++ d :: after.map (·.2) := by
    rw [← same, split]
    simp
  have front : before.map (·.2) =
      earlier.map (·.2) ++ .line latest.node.span.line :: later.map (·.2) := by
    rw [split]
    simp
  rw [ds] at laid written proper
  obtain ⟨o, e, first, one, -⟩ := laid.around
  have silent' : ∀ x ∈ later.map (·.2), x.line? = none := by
    intro x hx
    obtain ⟨q, hq, rfl⟩ := List.mem_map.mp hx
    exact silent q hq
  have listed := Emission.lineAt?_of_laid written proper silent' first one
  have ahead : o < e := one.lt List.mem_cons_self takes
  refine ⟨o, e, latest, front ▸ first, one, ahead, ⟨earlier, later, split, silent⟩, below, listed,
    ?_⟩
  constructor
  · intro mine
    have read := listed o (Nat.le_refl o) ahead
    exact Option.some.inj (read.symm.trans (mine o (Nat.le_refl o) ahead))
  · intro agree k low high
    rw [← agree]
    exact listed k low high

namespace Element

/-- `1 + 2` with the operands on the first two lines and the operator on the third. -/
def sumOverLines : Element :=
  let onLine (line : Nat) : NodeInfo := ⟨Ty.numeric .int32, ⟨line, 1, 1⟩⟩
  .root (onLine 3) .identity
    (.arithmetic (onLine 3) .add (.numeric .int32 false false .identity .identity)
      (.literal (onLine 1) (.int 1)) (.literal (onLine 2) (.int 2)))

theorem directives_sumOverLines :
    sumOverLines.directives = [.line 3, .line 3, .line 1, .constant (.int32 1), .line 2,
      .constant (.int32 2), .op .add, .op .ret] :=
  eq_of_beq (sumOverLines.passes_of_within (· == _) 16 (by decide +kernel))

/-- A byte for each operation and each operand. -/
theorem emit_sumOverLines :
    ∃ em, sumOverLines.emit ⟨#[], [], 0⟩ = .ok em ∧ em.chunk.lines = [1, 1, 2, 2, 2, 2] := by
  have lines : (Emission.ofDirectives ⟨#[], [], 0⟩ sumOverLines.directives).map (·.chunk.lines)
      = .ok [1, 1, 2, 2, 2, 2] := by
    simp only [directives_sumOverLines, Emission.ofDirectives, Writer.run, Writer.step,
      Writer.writeWith, ConstantPool.operand, ConstantPool.add, ConstantPool.indexOf?_eq_idxOf?]
    decide +kernel
  rw [emit_eq rfl]
  cases done : Emission.ofDirectives ⟨#[], [], 0⟩ sumOverLines.directives with
  | error fault =>
      rw [done] at lines
      cases lines
  | ok em =>
      rw [done] at lines
      exact ⟨em, rfl, Except.ok.inj lines⟩

/-- The constants are listed under their own lines, and the addition and the return under
the line of the second operand. -/
theorem lines_of_last_met_sum :
    ∃ em, sumOverLines.emit ⟨#[], [], 0⟩ = .ok em ∧
      ∀ d line, (d, line) ∈ [(.constant (.int32 1), 1), (.constant (.int32 2), 2), (.op .add, 2),
          (.op .ret, 2)] →
        ∃ before after o e, sumOverLines.directives = before ++ d :: after ∧
          em.Laid 0 before o ∧ em.Laid o [d] e ∧ o < e ∧
          ∀ k, o ≤ k → k < e → em.chunk.lineAt? k = some line := by
  obtain ⟨em, emitted, -⟩ := emit_sumOverLines
  refine ⟨em, emitted, ?_⟩
  obtain ⟨script, -, same, -, listed⟩ := lines_of_last_met emitted
  -- the node met last is known by the line that was announced last
  have announced (i : Nat) (d : Directive) (line : Nat) (takes : d.isInstruction = true)
      (here : sumOverLines.directives = sumOverLines.directives.take i
        ++ d :: sumOverLines.directives.drop (i + 1))
      (heard : ((sumOverLines.directives.take i).filterMap line?).getLast? = some line) :
      ∃ before after o e, sumOverLines.directives = before ++ d :: after ∧
        em.Laid 0 before o ∧ em.Laid o [d] e ∧ o < e ∧
        ∀ k, o ≤ k → k < e → em.chunk.lineAt? k = some line := by
    rw [← same, List.map_eq_append_iff] at here
    obtain ⟨before, rest, rfl, front, back⟩ := here
    obtain ⟨⟨author, d'⟩, after, rfl, rfl, -⟩ := List.map_eq_cons_iff.mp back
    obtain ⟨o, e, latest, first, one, ahead, last, -, lines, -⟩ :=
      listed before author _ after rfl takes
    have met := last.getLast?_lines
    rw [front, same, heard] at met
    cases met
    exact ⟨_, _, o, e, by rw [← same, List.map_append, List.map_cons], first, one, ahead, lines⟩
  intro d line row
  simp only [List.mem_cons, List.not_mem_nil, or_false, Prod.mk.injEq] at row
  rw [directives_sumOverLines] at announced ⊢
  rcases row with ⟨rfl, rfl⟩ | ⟨rfl, rfl⟩ | ⟨rfl, rfl⟩ | ⟨rfl, rfl⟩
  · exact announced 3 _ _ rfl rfl rfl
  · exact announced 5 _ _ rfl rfl rfl
  · exact announced 6 _ _ rfl rfl rfl
  · exact announced 7 _ _ rfl rfl rfl

/-- The bytes of an instruction need not carry the line of the node that asks for it:
the addition comes after an operand on another line. -/
theorem not_lines_of_author :
    ¬ ∀ (tree : Element) (plan : BranchPlan) (em : Emission), tree.emit plan = .ok em →
      ∀ script, tree.Signed script → script.map (·.2) = tree.directives →
      ∀ before author d after, script = before ++ (author, d) :: after →
        d.isInstruction = true → ∀ o e, em.Laid 0 (before.map (·.2)) o → em.Laid o [d] e →
        ∀ k, o ≤ k → k < e → em.chunk.lineAt? k = some author.node.span.line := by
  intro claim
  obtain ⟨em, emitted, lines⟩ := emit_sumOverLines
  -- the addition is asked for by a node on line 3, and no byte is listed there
  obtain ⟨script, signed, same⟩ := sumOverLines.exists_signed
  obtain ⟨author, mine, mem⟩ : ∃ author : Author,
      author.node.span.line = 3 ∧ (author, Directive.op .add) ∈ script := by
    obtain ⟨fresh, next, signs⟩ := signed
    cases signs with
    | emit signs =>
        cases signs with
        | visit sum _ =>
            have asked := sum.mem_of_emit (.op .add) (by simp [steps, body, Step.arithmetic,
              Step.binary, Step.emits, ArithmeticOp.opcode])
            exact ⟨_, rfl, List.mem_cons_of_mem _ (List.mem_append_left _ asked)⟩
  obtain ⟨before, after, split⟩ := List.append_of_mem mem
  have laid := laid_emit emitted
  rw [← same, split, List.map_append, List.map_cons] at laid
  obtain ⟨o, e, first, one, -⟩ := laid.around
  have ahead : o < e := one.lt List.mem_cons_self rfl
  have listed := claim _ _ em emitted script signed same before author _ after split rfl o e
    first one o (Nat.le_refl o) ahead
  rw [mine, Chunk.lineAt?_eq_getElem?, lines] at listed
  exact absurd (List.mem_of_getElem? listed) (by decide)

end Element

end ExprCompiler
