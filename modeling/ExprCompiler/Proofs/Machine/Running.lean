/-
# Running straight through code

`Machine.Carries` says that running from one offset to another carries out a
computation: if the computation gives a value, the machine gets to the second
offset with that value left on the stack, and if it traps, the machine traps in
the same way.  Temporary slots below `live` belong to code around and are kept;
those above may be used.

A computation in two parts is carried out by two pieces of code, one after the
other (`Carries.bind`).
-/
import ExprCompiler.Proofs.Machine.Machine

namespace ExprCompiler.Machine

variable {V T α β : Type} {M : Machine V T} {em : Emission}

/-! ## Runs -/

/-- The machine gets from one state to another. -/
inductive Reaches (M : Machine V T) (em : Emission) : Config V → Config V → Prop
  | refl (c : Config V) : Reaches M em c c
  | step {c c' c'' : Config V} : M.step em c = .running c' → Reaches M em c' c'' →
      Reaches M em c c''

/-- The machine gets to a trap. -/
def Traps (M : Machine V T) (em : Emission) (c : Config V) (t : T) : Prop :=
  ∃ c', M.Reaches em c c' ∧ M.step em c' = .done (.error t)

theorem Reaches.trans {c c' c'' : Config V} (h : M.Reaches em c c') (h' : M.Reaches em c' c'') :
    M.Reaches em c c'' := by
  induction h with
  | refl c => exact h'
  | step first _ ih => exact .step first (ih h')

theorem Reaches.one {c c' : Config V} (h : M.step em c = .running c') : M.Reaches em c c' :=
  .step h (.refl c')

/-- What holds of a state and is kept by each step from a state that is reached, holds of every
state that is reached. -/
theorem Reaches.invariant {c c' : Config V} {P : Config V → Prop}
    (keeps : ∀ d d', M.Reaches em c d → P d → M.step em d = .running d' → P d') (start : P c)
    (h : M.Reaches em c c') : P c' := by
  suffices run : ∀ d, M.Reaches em d c' → M.Reaches em c d → P d → P c' from
    run c h (.refl c) start
  intro d later
  induction later with
  | refl d => exact fun _ here => here
  | step first _ ih =>
      intro reached here
      exact ih h (reached.trans (.one first)) (keeps _ _ reached here first)

theorem Traps.of_reaches {c c' : Config V} {t : T} (h : M.Reaches em c c')
    (h' : M.Traps em c' t) : M.Traps em c t := by
  obtain ⟨c'', later, trapped⟩ := h'
  exact ⟨c'', h.trans later, trapped⟩

/-- A state that is reached has the outcome of the state it is reached from. -/
theorem run_of_reaches {c c' : Config V} {outcome : Except T V} (h : M.Reaches em c c')
    (done : M.step em c' = .done outcome) : ∃ n, M.run em n c = some outcome := by
  induction h with
  | refl c => exact ⟨1, by rw [run, done]⟩
  | step first _ ih =>
      obtain ⟨n, ran⟩ := ih done
      exact ⟨n + 1, by rw [run, first]; exact ran⟩

/-- More steps change nothing. -/
theorem run_mono {n : Nat} {c : Config V} {outcome : Except T V}
    (h : M.run em n c = some outcome) (m : Nat) : M.run em (n + m) c = some outcome := by
  induction n generalizing c with
  | zero => cases h
  | succ n ih =>
      rw [Nat.add_right_comm]
      rw [run] at h ⊢
      cases taken : M.step em c with
      | running c' => rw [taken] at h; exact ih h
      | done r => rw [taken] at h; exact h
      | stuck => rw [taken] at h; cases h

/-- Code has one outcome at most. -/
theorem run_unique {n m : Nat} {c : Config V} {r r' : Except T V}
    (h : M.run em n c = some r) (h' : M.run em m c = some r') : r = r' := by
  have left := run_mono h m
  rw [Nat.add_comm, run_mono h' n] at left
  cases left
  rfl

/-- What an instruction does besides the stack: a branch goes somewhere else, a write changes a
slot, and everything else only goes on. -/
theorem act_cases {i : Instruction} {next : Nat} {c c' : Config V}
    (h : M.act i next c = .running c') :
    (∃ kind target, i = .branch kind target ∧ c'.slots = c.slots
        ∧ (c'.pc = next ∨ c'.pc = target))
      ∨ (∃ place v, i = .slot .setLocal place ∧ c.stack = v :: c'.stack
        ∧ place.toNat < c.slots.length ∧ c'.slots = c.slots.set place.toNat (some v)
        ∧ c'.pc = next)
      ∨ ((∀ place, i ≠ .slot .setLocal place) ∧ (∀ kind target, i ≠ .branch kind target)
        ∧ c'.slots = c.slots ∧ c'.pc = next) := by
  have after {x : Except T V} {k : V → Config V} (h : Next.after x k = .running c')
      (goes : ∀ v, (k v).slots = c.slots ∧ (k v).pc = next) :
      c'.slots = c.slots ∧ c'.pc = next := by
    cases x with
    | ok v =>
        cases h
        exact goes v
    | error t => cases h
  cases i with
  | plain op =>
      refine .inr (.inr ⟨nofun, nofun, ?_⟩)
      have h : M.plain op next c = .running c' := h
      simp only [Machine.plain] at h
      split at h
      · exact after h fun _ => ⟨rfl, rfl⟩
      · cases h
        exact ⟨rfl, rfl⟩
      · cases h
        exact ⟨rfl, rfl⟩
      · exact after h fun _ => ⟨rfl, rfl⟩
      · exact after h fun _ => ⟨rfl, rfl⟩
      · cases h
      · cases h
  | slot op place =>
      have h : slot op place.toNat next c = .running c' := h
      simp only [slot] at h
      split at h
      · split at h
        · cases h
          exact .inr (.inr ⟨nofun, nofun, rfl, rfl⟩)
        · cases h
      · next v rest top _ =>
          split at h
          · next inside =>
              cases h
              exact .inr (.inl ⟨place, v, rfl, top, inside, rfl, rfl⟩)
          · cases h
      · cases h
  | push value => exact .inr (.inr ⟨nofun, nofun, after h fun _ => ⟨rfl, rfl⟩⟩)
  | named op id =>
      refine .inr (.inr ⟨nofun, nofun, ?_⟩)
      have h : M.onIdentity op id next c = .running c' := h
      simp only [onIdentity] at h
      split at h
      · exact after h fun _ => ⟨rfl, rfl⟩
      · exact after h fun _ => ⟨rfl, rfl⟩
      · exact after h fun _ => ⟨rfl, rfl⟩
      · exact after h fun _ => ⟨rfl, rfl⟩
      · exact after h fun _ => ⟨rfl, rfl⟩
      · cases h
  | call op id argc =>
      refine .inr (.inr ⟨nofun, nofun, ?_⟩)
      have h : M.calling op id argc.toNat next c = .running c' := h
      unfold calling at h
      split at h
      · simp only at h
        split at h
        · exact after h fun _ => ⟨rfl, rfl⟩
        · exact after h fun _ => ⟨rfl, rfl⟩
        · cases h
      · cases h
  | branch kind target =>
      refine .inl ⟨kind, target, rfl, ?_⟩
      have h : M.branching kind target next c = .running c' := h
      simp only [branching] at h
      split at h
      · cases h
        exact ⟨rfl, .inr rfl⟩
      · cases h
        refine ⟨rfl, ?_⟩
        dsimp only
        split
        · exact .inl rfl
        · exact .inr rfl
      · cases h
        refine ⟨rfl, ?_⟩
        dsimp only
        split
        · exact .inr rfl
        · exact .inl rfl
      · cases h

/-- Only branches do anything but go on to the next instruction. -/
theorem pc_of_act {i : Instruction} {next : Nat} {c c' : Config V}
    (plain : ∀ kind target, i ≠ .branch kind target) (h : M.act i next c = .running c') :
    c'.pc = next := by
  rcases act_cases h with ⟨kind, target, rfl, -⟩ | ⟨place, v, -, -, -, -, goes⟩ | ⟨-, -, -, goes⟩
  · exact absurd rfl (plain kind target)
  · exact goes
  · exact goes

/-! ## Slots -/

/-- As many slots as the code declares, those below `live` unchanged. -/
structure Kept (live : Nat) (slots slots' : List (Option V)) : Prop where
  length : slots'.length = slots.length
  below : ∀ i, i < live → slots'[i]? = slots[i]?

theorem Kept.refl (live : Nat) (slots : List (Option V)) : Kept live slots slots :=
  ⟨rfl, fun _ _ => rfl⟩

theorem Kept.trans {live : Nat} {s s' s'' : List (Option V)} (h : Kept live s s')
    (h' : Kept live s' s'') : Kept live s s'' :=
  ⟨h'.length.trans h.length, fun i hi => (h'.below i hi).trans (h.below i hi)⟩

theorem Kept.mono {live live' : Nat} {s s' : List (Option V)} (h : Kept live s s')
    (le : live' ≤ live) : Kept live' s s' :=
  ⟨h.length, fun i hi => h.below i (Nat.lt_of_lt_of_le hi le)⟩

/-- Writing a slot keeps the ones below it. -/
theorem Kept.set (live : Nat) (s : List (Option V)) (v : V) :
    Kept live s (s.set live (some v)) :=
  ⟨List.length_set, fun _ hi => List.getElem?_set_ne (Nat.ne_of_gt hi)⟩

/-! ## Computations -/

/-- From an offset and a stack, running carries out a computation up to another
offset, and leaves what `post` makes of its result. -/
def Carries (M : Machine V T) (em : Emission) (live o : Nat) (before : List V)
    (slots : List (Option V)) (e : Nat) (x : Except T α) (post : α → List V) : Prop :=
  match x with
  | .ok a => ∃ slots', Kept live slots slots' ∧ M.Reaches em ⟨o, before, slots⟩ ⟨e, post a, slots'⟩
  | .error t => M.Traps em ⟨o, before, slots⟩ t

namespace Carries

variable {live o m e : Nat} {before : List V} {slots : List (Option V)}

/-- A result that the stack holds already needs no code. -/
theorem result {a : α} {post : α → List V} (same : before = post a) :
    M.Carries em live o before slots o (.ok a : Except T α) post := by
  subst same
  exact ⟨slots, .refl live slots, .refl _⟩

theorem pure {v : V} {s : List V} :
    M.Carries em live o (v :: s) slots o (.ok v : Except T V) (· :: s) :=
  .result rfl

theorem of_reaches {o' : Nat} {before' : List V} {slots' : List (Option V)} {x : Except T α}
    {post : α → List V} (first : M.Reaches em ⟨o, before, slots⟩ ⟨o', before', slots'⟩)
    (kept : Kept live slots slots') (rest : M.Carries em live o' before' slots' e x post) :
    M.Carries em live o before slots e x post := by
  cases x with
  | ok a =>
      obtain ⟨slots'', kept', later⟩ := rest
      exact ⟨slots'', kept.trans kept', first.trans later⟩
  | error t => exact Traps.of_reaches first rest

/-- One computation and then another that goes on with its result. -/
theorem bind_of {x : Except T α} {k : α → Except T β} {post : α → List V} {post' : β → List V}
    (first : M.Carries em live o before slots m x post)
    (rest : ∀ a slots', x = .ok a → Kept live slots slots' →
      M.Carries em live m (post a) slots' e (k a) post') :
    M.Carries em live o before slots e (x >>= k) post' := by
  cases x with
  | error t => exact first
  | ok a =>
      obtain ⟨slots', kept, reached⟩ := first
      exact of_reaches reached kept (rest a slots' rfl kept)

theorem bind {x : Except T α} {k : α → Except T β} {post : α → List V} {post' : β → List V}
    (first : M.Carries em live o before slots m x post)
    (rest : ∀ a slots', Kept live slots slots' →
      M.Carries em live m (post a) slots' e (k a) post') :
    M.Carries em live o before slots e (x >>= k) post' :=
  first.bind_of fun a slots' _ kept => rest a slots' kept

/-- Code that runs on from a computation without changing its result. -/
theorem andThen {x : Except T α} {post post' : α → List V}
    (first : M.Carries em live o before slots m x post)
    (rest : ∀ a slots', Kept live slots slots' →
      M.Reaches em ⟨m, post a, slots'⟩ ⟨e, post' a, slots'⟩) :
    M.Carries em live o before slots e x post' := by
  cases x with
  | error t => exact first
  | ok a =>
      obtain ⟨slots', kept, reached⟩ := first
      exact ⟨slots', kept, reached.trans (rest a slots' kept)⟩

/-- Code that keeps one slot more will do. -/
theorem outside {x : Except T α} {post : α → List V}
    (h : M.Carries em (live + 1) o before slots e x post) :
    M.Carries em live o before slots e x post := by
  cases x with
  | error t => exact h
  | ok a =>
      obtain ⟨slots', kept, reached⟩ := h
      exact ⟨slots', kept.mono (Nat.le_succ live), reached⟩

end Carries

end ExprCompiler.Machine
