/-
# Who asked for an instruction

The walk over a tree gives one list of directives.  Here each of them is signed by the
node that asked for it (`Step.Signs`).  Nodes are numbered in the order in which the
walk meets them, so two nodes that look the same are still told apart.

Leaving the signatures out gives back the directives (`Element.exists_signed`), and
what is signed is among the node's own steps (`Step.Signs.wrote`).
-/
import ExprCompiler.Proofs.Code.Exits

namespace ExprCompiler

/-- A node as the walk over a tree meets it. -/
structure Author where
  /-- How many nodes were met before. -/
  number : Nat
  /-- The number of temporary slots in use around the node. -/
  live : Nat
  node : Element

/-- A directive with the node that asked for it. -/
abbrev Entry := Author × Directive

namespace Step

/-- The signed directives of a list of steps, from the first free numbers of nodes and labels
to the next ones. -/
inductive Signs : Author → Nat → Nat → List Step → List Entry → Nat → Nat → Prop
  | nil (me : Author) (fresh next : Nat) : Signs me fresh next [] [] fresh next
  | emit {me : Author} {fresh next fresh' next' : Nat} {d : Directive} {ts : List Step}
      {script : List Entry} : Signs me fresh next ts script fresh' next' →
      Signs me fresh next (.emit d :: ts) ((me, d) :: script) fresh' next'
  | visit {me : Author} {fresh next middle between fresh' next' live : Nat} {e : Element}
      {ts : List Step} {inside after : List Entry} :
      Signs ⟨fresh, live, e⟩ (fresh + 1) (next + e.ownLabels) (e.steps live next) inside
        middle between →
      Signs me middle between ts after fresh' next' →
      Signs me fresh next (.visit live e :: ts) (inside ++ after) fresh' next'

/-- Whatever steps give can be signed. -/
theorem Gives.signs {next next' : Nat} {ts : List Step} {ds : List Directive}
    (h : Gives next ts ds next') (me : Author) (fresh : Nat) :
    ∃ script fresh', Signs me fresh next ts script fresh' next' ∧ script.map (·.2) = ds := by
  induction h generalizing me fresh with
  | nil next => exact ⟨[], fresh, .nil me fresh next, rfl⟩
  | @emit next next' d ts ds _ ih =>
      obtain ⟨script, fresh', signed, rfl⟩ := ih me fresh
      exact ⟨_, fresh', .emit signed, rfl⟩
  | @visit next middle next' live e ts ds ds' _ _ ih ih' =>
      obtain ⟨inside, between, signed, rfl⟩ := ih ⟨fresh, live, e⟩ (fresh + 1)
      obtain ⟨after, fresh', signed', rfl⟩ := ih' me between
      exact ⟨_, fresh', .visit signed signed', List.map_append⟩

namespace Signs

variable {me : Author} {fresh next fresh' next' : Nat} {ts : List Step} {script : List Entry}

theorem gives (h : Signs me fresh next ts script fresh' next') :
    Gives next ts (script.map (·.2)) next' := by
  induction h with
  | nil me fresh next => exact .nil next
  | emit _ ih => exact .emit ih
  | visit _ _ ih ih' =>
      rw [List.map_append]
      exact .visit ih ih'

theorem le (h : Signs me fresh next ts script fresh' next') : fresh ≤ fresh' := by
  induction h with
  | nil => exact Nat.le_refl _
  | emit _ ih => exact ih
  | visit _ _ ih ih' => omega

/-- The nodes below are numbered in order. -/
theorem number (h : Signs me fresh next ts script fresh' next') :
    ∀ q ∈ script, q.1.number = me.number ∨ fresh ≤ q.1.number ∧ q.1.number < fresh' := by
  induction h with
  | nil => exact fun q hq => absurd hq List.not_mem_nil
  | emit _ ih =>
      intro q hq
      rcases List.mem_cons.mp hq with rfl | later
      · exact .inl rfl
      · exact ih q later
  | visit signed signed' ih ih' =>
      intro q hq
      have low := signed.le
      have high := signed'.le
      rcases List.mem_append.mp hq with inside | after
      · have := ih q inside
        simp only at this
        omega
      · have := ih' q after
        omega

/-- A node signs its own directives. -/
theorem wrote (h : Signs me fresh next ts script fresh' next')
    (own : ∀ d, .emit d ∈ ts → ∃ first, .emit d ∈ me.node.steps me.live first) :
    ∀ q ∈ script, ∃ first, .emit q.2 ∈ q.1.node.steps q.1.live first := by
  induction h with
  | nil => exact fun q hq => absurd hq List.not_mem_nil
  | emit _ ih =>
      intro q hq
      rcases List.mem_cons.mp hq with rfl | later
      · exact own _ List.mem_cons_self
      · exact ih (fun d hd => own d (List.mem_cons_of_mem _ hd)) q later
  | visit _ _ ih ih' =>
      intro q hq
      rcases List.mem_append.mp hq with inside | after
      · exact ih (fun d hd => ⟨_, hd⟩) q inside
      · exact ih' (fun d hd => own d (List.mem_cons_of_mem _ hd)) q after

/-- What each node does at most once itself, it does once in all. -/
theorem countP_le_one {P : Directive → Bool}
    (once : ∀ (e : Element) (live first : Nat), (own (e.steps live first)).countP P ≤ 1)
    (h : Signs me fresh next ts script fresh' next') (earlier : me.number < fresh) (n : Nat) :
    script.countP (fun q => P q.2 && q.1.number = n)
      ≤ if n = me.number then (own ts).countP P else 1 := by
  have none {script : List Entry} (apart : ∀ q ∈ script, q.1.number ≠ n) :
      script.countP (fun q => P q.2 && q.1.number = n) = 0 := by
    refine List.countP_eq_zero.mpr ?_
    intro q hq
    simp [apart q hq]
  induction h with
  | nil => exact Nat.zero_le _
  | @emit me fresh next fresh' next' d ts script _ ih =>
      have rest := ih earlier
      rw [List.countP_cons]
      by_cases mine : n = me.number
      · subst mine
        simp only [if_true, own_emit, List.countP_cons, decide_true, Bool.and_true] at rest ⊢
        omega
      · have other : decide (me.number = n) = false := decide_eq_false (Ne.symm mine)
        simp only [other, Bool.and_false, if_neg mine, Bool.false_eq_true, if_false] at rest ⊢
        omega
  | @visit me fresh next middle between fresh' next' live e ts inside after signed signed' ih ih' =>
      have low := signed.le
      have first := ih (Nat.lt_succ_self fresh)
      have second := ih' (by omega)
      rw [List.countP_append, own_visit]
      by_cases below : fresh ≤ n ∧ n < middle
      · -- the node that is visited, or one below it
        have rest : after.countP (fun q => P q.2 && q.1.number = n) = 0 := by
          refine none ?_
          intro q hq same
          have := signed'.number q hq
          omega
        have bound := once e live next
        rw [rest, if_neg (by omega)]
        split at first
        · exact Nat.le_trans first bound
        · exact first
      · have before : inside.countP (fun q => P q.2 && q.1.number = n) = 0 := by
          refine none ?_
          intro q hq same
          have := signed.number q hq
          simp only at this
          omega
        rw [before, Nat.zero_add]
        exact second

end Signs

end Step

namespace Element

/-- The directives of a tree, each signed by its node. -/
def Signed (e : Element) (script : List Entry) : Prop :=
  ∃ fresh next, Step.Signs ⟨0, 0, e⟩ 1 e.ownLabels (e.steps 0 0) script fresh next

theorem exists_signed (e : Element) :
    ∃ script, e.Signed script ∧ script.map (·.2) = e.directives := by
  obtain ⟨next', given⟩ := e.directives_given
  generalize e.directives = ds at given
  cases given with
  | visit inside after =>
      cases after
      rw [Nat.zero_add] at inside
      obtain ⟨script, fresh', signed, same⟩ := inside.signs ⟨0, 0, e⟩ 1
      exact ⟨script, ⟨fresh', _, signed⟩, by rw [same, List.append_nil]⟩

end Element

end ExprCompiler
