/-
# What arrays are made of

A registration looks whether all that a type derives from is there.  Whether what an array is
made of is there, it looks only where the array type of an element type is asked for.  A type
that is described in full may be made of one that is missing, or of itself.

A registration that is accepted with such a type refers ahead (`Registration.RefersAhead`).
If none does, what an array is made of was there before it (`Registry.Layered`), and arrays are
not nested deeper than there are types.  That is so whether or not the built-in types come
first: what they are written over is made of nothing afterwards.

Main results: `Registry.Layered.foldl_after`, `Registry.Layered.depth_le`.
-/
import ExprCompiler.Proofs.Host.Derivation

namespace ExprCompiler

namespace Registry

/-- What a type is made of. -/
def element? (r : Registry) (id : HostId) : Option Ty := (r.entry? id).bind (·.element)

/-- What a type is made of is there, and was there before it. -/
structure Layered (r : Registry) : Prop where
  closed : ∀ id a, r.element? id = some a → r.has a.id = true
  layers : ∃ level : HostId → Nat, ∀ id a, r.element? id = some a → level a.id < level id

end Registry

/-- A registration is accepted that adds a type made of one which is not there. -/
def Registration.RefersAhead (reg : Registration) (r : Registry) : Prop :=
  (∃ e a, reg.adds? r = some e ∧ e.element = some a ∧ r.has a.id = false)
    ∧ ∃ answer r', (Registry.perform reg).run r = (.ok answer, r')

namespace Registry

variable {r r' : Registry} {e : TypeEntry} {a : Ty} {id : HostId}

theorem element?_eq_some_iff :
    r.element? id = some a ↔ ∃ e, r.entry? id = some e ∧ e.element = some a := by
  rw [element?, Option.bind_eq_some_iff]

theorem element?_insertEntry (r : Registry) (e : TypeEntry) (id : HostId) :
    (r.insertEntry e).element? id = if id = e.id then e.element else r.element? id := by
  rw [element?, entry?_insertEntry]
  split
  · rfl
  · rfl

theorem element?_of_outlines
    (outlines : (r'.entry? id).map TypeEntry.outline = (r.entry? id).map TypeEntry.outline) :
    r'.element? id = r.element? id := by
  have outlined : ∀ r : Registry,
      r.element? id = ((r.entry? id).map TypeEntry.outline).bind (·.element) := by
    intro r
    rw [element?, Option.bind_map]
    rfl
  rw [outlined r', outlined r, outlines]

/-- A built-in type is made of nothing. -/
theorem element?_builtinEntry (name : String) (type : Ty) :
    (builtinEntry name type).element = none := by
  rw [builtinEntry]
  split <;> rfl

/-- Only a type that is described in full can refer ahead: where the array type of an element
type is asked for, that type has to be there, and all other types are made of nothing. -/
theorem exists_type_of_refersAhead {reg : Registration} (ahead : reg.RefersAhead r) :
    ∃ e, reg = .type e := by
  obtain ⟨⟨e, a, adds, of, missing⟩, answer, r', accepted⟩ := ahead
  cases reg with
  | type e => exact ⟨e, rfl⟩
  | array element rank =>
      rw [Registration.adds?] at adds
      cases named : r.entryNamed? (arrayName (r.typeName element.id) rank) with
      | some present =>
          rw [named] at adds
          cases adds
      | none =>
          rw [named] at adds
          cases adds
          cases of
          have run := arrayOf_new named
          rw [missing] at run
          have refused : (perform (.array a rank)).run r = _ := Registering.run_bind_error run
          rw [refused] at accepted
          cases accepted
  | refClass =>
      cases adds
      cases of
  | struct =>
      cases adds
      cases of
  | interface =>
      cases adds
      cases of
  | enum =>
      cases adds
      cases of
  | primitives => cases adds
  | member => cases adds
  | function => cases adds
  | collection => cases adds

namespace Layered

theorem start : empty.Layered := ⟨nofun, fun _ => 0, nofun⟩

/-- More types that are made of nothing do not matter. -/
theorem mono (h : r.Layered) (kept : ∀ id, r.has id = true → r'.has id = true)
    (made : ∀ id a, r'.element? id = some a → r.element? id = some a) : r'.Layered := by
  obtain ⟨level, falls⟩ := h.layers
  exact ⟨fun id a of => kept a.id (h.closed id a (made id a of)), level,
    fun id a of => falls id a (made id a of)⟩

theorem registerPrimitives (h : r.Layered) : r.registerPrimitives.Layered := by
  refine h.mono (fun id there => (r.has_registerPrimitives id).mpr (Or.inr there)) ?_
  intro id a of
  obtain ⟨e, held, element⟩ := element?_eq_some_iff.mp of
  rcases r.entry?_registerPrimitives id with ⟨b, -, -, found⟩ | ⟨-, found⟩
  · cases held.symm.trans found
    rw [element?_builtinEntry] at element
    cases element
  · exact element?_eq_some_iff.mpr ⟨e, found.symm.trans held, element⟩

/-- A new type is above what it is made of, and nothing is made of it yet. -/
theorem insertEntry (h : r.Layered) (fresh : r.entry? e.id = none)
    (there : ∀ a, e.element = some a → r.has a.id = true) : (r.insertEntry e).Layered := by
  -- whatever is registered is not the new type
  have other : ∀ id, r.has id = true → id ≠ e.id := by
    intro id held
    obtain ⟨e', found⟩ := has_iff.mp held
    exact ne_of_fresh fresh found
  obtain ⟨level, falls⟩ := h.layers
  refine ⟨?_, fun id => if id = e.id then e.element.elim 0 (level ·.id + 1) else level id, ?_⟩
  · intro id a of
    rw [element?_insertEntry] at of
    rw [has_insertEntry]
    split at of
    · exact Or.inr (there a of)
    · exact Or.inr (h.closed id a of)
  · intro id a of
    rw [element?_insertEntry] at of
    simp only
    split at of
    · next own =>
        rw [if_pos own, if_neg (other a.id (there a of)), of]
        exact Nat.lt_succ_self (level a.id)
    · next own =>
        rw [if_neg own, if_neg (other a.id (h.closed id a of))]
        exact falls id a of

theorem after (h : r.Layered) {reg : Registration} (ahead : ¬ reg.RefersAhead r) :
    (r.after reg).Layered := by
  cases adds : reg.adds? r with
  | none =>
      rcases after_of_adds? adds with primitives | outlines
      · rw [primitives]
        exact h.registerPrimitives
      · refine h.mono (fun id => has_of_outlines (outlines id)) ?_
        intro id a of
        rw [← of]
        exact (element?_of_outlines (outlines id)).symm
  | some e =>
      rcases perform_of_adds? adds with ⟨error, run⟩ | ⟨⟨answer, run⟩, -, fresh, -⟩
      · rw [Registry.after, run]
        exact h
      · rw [Registry.after, run]
        refine h.insertEntry fresh ?_
        intro a of
        refine Bool.eq_true_of_not_eq_false fun missing => ahead ?_
        exact ⟨⟨e, a, adds, of, missing⟩, answer, _, run⟩

/-- A host that never refers ahead makes each array of what was there before it. -/
theorem foldl_after {regs : List Registration} (h : r.Layered)
    (ahead : ∀ before reg later, regs = before ++ reg :: later →
      ¬ reg.RefersAhead (before.foldl Registry.after r)) :
    (regs.foldl Registry.after r).Layered := by
  induction regs generalizing r with
  | nil => exact h
  | cons reg regs ih =>
      refine ih (h.after (ahead [] reg regs rfl)) ?_
      intro before reg' later split
      exact ahead (reg :: before) reg' later (congrArg (reg :: ·) split)

/-- Arrays are not nested deeper than there are types. -/
theorem depth_le (h : r.Layered) : ∃ depth : HostId → Nat, (∀ id, depth id ≤ r.typeCount)
    ∧ ∀ id a, r.element? id = some a → depth a.id < depth id := by
  obtain ⟨level, falls⟩ := h.layers
  have there : ∀ id x, (∃ a, r.element? id = some a ∧ a.id = x) → r.has x = true := by
    rintro id _ ⟨a, of, rfl⟩
    exact h.closed id a of
  have lower : ∀ id x, (∃ a, r.element? id = some a ∧ a.id = x) → level x < level id := by
    rintro id _ ⟨a, of, rfl⟩
    exact falls id a of
  obtain ⟨depth, bounded, deeper⟩ := exists_depth there lower
  exact ⟨depth, bounded, fun id a of => deeper id a.id ⟨a, of, rfl⟩⟩

end Layered

end Registry

end ExprCompiler
