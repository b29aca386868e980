/-
# Whether a type has an interface

The search of `implements` goes depth first.  What a type derives from is put in front of
what waits without a look at what has been seen or waits already, so the same type may
wait many times, and a host may describe types that derive from each other in a circle or
from types that were never registered.  Two things are shown, for all registries:

* the search ends.  A type that was seen is dropped, and one that was not puts down what
  it mentions, once and for all.  So the types that wait, together with all mentions by
  types not yet seen, are a bound on the steps to come (`implementsFrom_ends`);
* its answer is right.  What has been seen does not list the interface, and all that it
  derives from is seen or waits (`Cleared`); when nothing waits any more, nothing that
  can be reached lists the interface.

Main result: `Registry.implements_iff_lists`.
-/
import Mathlib.Data.List.Flatten
import ExprCompiler.Proofs.Host.Ancestors

namespace ExprCompiler

namespace Registry

variable {r : Registry} {interface id : HostId} {seen pending : List HostId} {fuel : Nat}

/-- A registered type has the interface among those it implements or extends directly. -/
def Lists (r : Registry) (id interface : HostId) : Prop :=
  ∃ e, r.entry? id = some e ∧ interface ∈ e.interfaces

/-- What the search puts down when it has looked at a type, in the order it is taken up. -/
def ahead (r : Registry) (id : HostId) : List HostId :=
  match r.entry? id with
  | some e => e.base.toList ++ e.interfaces.reverse
  | none => []

theorem ahead_perm (r : Registry) (id : HostId) : (r.ahead id).Perm (r.parents id) := by
  rw [ahead, parents]
  cases r.entry? id with
  | none => exact List.Perm.refl _
  | some e => exact (List.reverse_perm e.interfaces).append_left _

theorem mem_ahead {p : HostId} : p ∈ r.ahead id ↔ r.Derives id p := (r.ahead_perm id).mem_iff

/-! ## One step -/

/-- The three ways in which the search takes up a type. -/
theorem implementsFrom_cons (r : Registry) (interface : HostId) (fuel : Nat)
    (seen : List HostId) (id : HostId) (pending : List HostId) :
    (id ∈ seen ∧ r.implementsFrom interface (fuel + 1) seen (id :: pending)
        = r.implementsFrom interface fuel seen pending)
      ∨ (r.Lists id interface
        ∧ r.implementsFrom interface (fuel + 1) seen (id :: pending) = some true)
      ∨ (id ∉ seen ∧ ¬ r.Lists id interface
        ∧ r.implementsFrom interface (fuel + 1) seen (id :: pending)
          = r.implementsFrom interface fuel (id :: seen) (r.ahead id ++ pending)) := by
  rw [implementsFrom]
  by_cases known : id ∈ seen
  · rw [if_pos (List.contains_iff_mem.mpr known)]
    exact Or.inl ⟨known, rfl⟩
  · rw [if_neg (fun h => known (List.contains_iff_mem.mp h)), ahead]
    cases found : r.entry? id with
    | none =>
        refine Or.inr (Or.inr ⟨known, ?_, rfl⟩)
        rintro ⟨e, held, -⟩
        rw [found] at held
        cases held
    | some e =>
        simp only
        by_cases listed : interface ∈ e.interfaces
        · rw [if_pos (List.contains_iff_mem.mpr listed)]
          exact Or.inr (Or.inl ⟨⟨e, found, listed⟩, rfl⟩)
        · rw [if_neg (fun h => listed (List.contains_iff_mem.mp h))]
          refine Or.inr (Or.inr ⟨known, ?_, rfl⟩)
          rintro ⟨e', held, there⟩
          rw [found] at held
          cases held
          exact listed there

theorem implementsFrom_nil (r : Registry) (interface : HostId) (fuel : Nat)
    (seen : List HostId) : r.implementsFrom interface fuel seen [] = some false := by
  cases fuel <;> rfl

/-! ## The search ends -/

/-- What the types of a table mention, those apart that have been seen. -/
def unseenMentions (rows : List (HostId × TypeEntry)) (seen : List HostId) : List HostId :=
  (rows.filter (fun row => row.1 ∉ seen)).flatMap (·.2.parents)

/-- How many times types that have not been seen mention another. -/
def unseenCount (r : Registry) (seen : List HostId) : Nat :=
  (unseenMentions r.types.rows seen).length

theorem unseenCount_nil (r : Registry) : r.unseenCount [] = r.edgeCount := by
  have all : r.types.rows.filter (fun row => row.1 ∉ ([] : List HostId)) = r.types.rows :=
    List.filter_eq_self.mpr fun _ _ => decide_eq_true List.not_mem_nil
  rw [unseenCount, unseenMentions, all, edgeCount, Table.values, List.flatMap_map]

theorem unseenMentions_seen {row : HostId × TypeEntry} (rows : List (HostId × TypeEntry))
    (known : row.1 ∈ seen) :
    unseenMentions (row :: rows) seen = unseenMentions rows seen := by
  rw [unseenMentions, List.filter_cons_of_neg (by simpa using known), unseenMentions]

theorem unseenMentions_unseen {row : HostId × TypeEntry} (rows : List (HostId × TypeEntry))
    (unseen : row.1 ∉ seen) :
    unseenMentions (row :: rows) seen = row.2.parents ++ unseenMentions rows seen := by
  rw [unseenMentions, List.filter_cons_of_pos (by simpa using unseen), List.flatMap_cons,
    unseenMentions]

theorem length_unseenMentions_le (rows : List (HostId × TypeEntry)) (id : HostId)
    (seen : List HostId) :
    (unseenMentions rows (id :: seen)).length ≤ (unseenMentions rows seen).length := by
  refine (List.Sublist.flatMap (List.monotone_filter_right _ ?_) _).length_le
  intro row apart
  exact decide_eq_true fun h => of_decide_eq_true apart (List.mem_cons_of_mem _ h)

/-- The mentions of one type do not count any more once it has been seen. -/
theorem length_unseenMentions_cons {rows : List (HostId × TypeEntry)} {e : TypeEntry}
    (unseen : id ∉ seen) (held : (id, e) ∈ rows) :
    e.parents.length + (unseenMentions rows (id :: seen)).length
      ≤ (unseenMentions rows seen).length := by
  induction rows with
  | nil => exact absurd held List.not_mem_nil
  | cons row rows ih =>
      have fewer := length_unseenMentions_le rows id seen
      rcases List.mem_cons.mp held with rfl | later
      · rw [unseenMentions_seen rows List.mem_cons_self, unseenMentions_unseen rows unseen,
          List.length_append]
        exact Nat.add_le_add_left fewer _
      · have rest := ih later
        by_cases before : row.1 ∈ seen
        · rw [unseenMentions_seen rows before,
            unseenMentions_seen rows (List.mem_cons_of_mem _ before)]
          exact rest
        · rw [unseenMentions_unseen rows before, List.length_append]
          by_cases here : row.1 = id
          · rw [unseenMentions_seen rows (here ▸ List.mem_cons_self)]
            omega
          · rw [unseenMentions_unseen rows (fun h => (List.mem_cons.mp h).elim here before),
              List.length_append]
            omega

theorem unseenCount_cons (unseen : id ∉ seen) :
    (r.parents id).length + r.unseenCount (id :: seen) ≤ r.unseenCount seen := by
  cases found : r.entry? id with
  | none =>
      rw [parents, found, List.length_nil, Nat.zero_add]
      exact length_unseenMentions_le r.types.rows id seen
  | some e =>
      rw [parents_of_found found]
      exact length_unseenMentions_cons unseen (Table.find?_eq_some_iff.mp found)

/-- The types that wait, and the mentions by types not yet seen, bound the steps. -/
theorem implementsFrom_ends (interface : HostId)
    (enough : pending.length + r.unseenCount seen ≤ fuel) :
    ∃ answer, r.implementsFrom interface fuel seen pending = some answer := by
  induction fuel generalizing seen pending with
  | zero =>
      have none_waits : pending = [] := List.length_eq_zero_iff.mp (by omega)
      rw [none_waits]
      exact ⟨false, implementsFrom_nil r interface 0 seen⟩
  | succ fuel ih =>
      cases pending with
      | nil => exact ⟨false, implementsFrom_nil r interface _ seen⟩
      | cons id pending =>
          rw [List.length_cons] at enough
          rcases r.implementsFrom_cons interface fuel seen id pending with
            ⟨-, step⟩ | ⟨-, step⟩ | ⟨unseen, -, step⟩
          · rw [step]
            exact ih (by omega)
          · exact ⟨true, step⟩
          · rw [step]
            refine ih ?_
            have dropped := r.unseenCount_cons unseen
            rw [List.length_append, (r.ahead_perm id).length_eq]
            omega

/-! ## The answer is right -/

/-- Yes is said only of an interface that something listed. -/
theorem lists_of_implementsFrom
    (yes : r.implementsFrom interface fuel seen pending = some true) :
    ∃ first ∈ pending, ∃ last, Relation.ReflTransGen r.Derives first last
      ∧ r.Lists last interface := by
  induction fuel generalizing seen pending with
  | zero => cases pending <;> cases yes
  | succ fuel ih =>
      cases pending with
      | nil => cases yes
      | cons id pending =>
          rcases r.implementsFrom_cons interface fuel seen id pending with
            ⟨-, step⟩ | ⟨listed, -⟩ | ⟨-, -, step⟩
          · rw [step] at yes
            obtain ⟨first, waits, found⟩ := ih yes
            exact ⟨first, List.mem_cons_of_mem _ waits, found⟩
          · exact ⟨id, List.mem_cons_self, id, .refl, listed⟩
          · rw [step] at yes
            obtain ⟨first, waits, last, path, listed⟩ := ih yes
            rcases List.mem_append.mp waits with derived | waited
            · exact ⟨id, List.mem_cons_self, last, .head (mem_ahead.mp derived) path, listed⟩
            · exact ⟨first, List.mem_cons_of_mem _ waited, last, path, listed⟩

theorem seen_or_waits_of_known (known : id ∈ seen) {x : HostId}
    (h : x ∈ seen ∨ x ∈ id :: pending) : x ∈ seen ∨ x ∈ pending := by
  rcases h with there | waits
  · exact Or.inl there
  · rcases List.mem_cons.mp waits with rfl | later
    · exact Or.inl known
    · exact Or.inr later

theorem seen_or_waits_of_look {x : HostId} (h : x ∈ seen ∨ x ∈ id :: pending) :
    x ∈ id :: seen ∨ x ∈ r.ahead id ++ pending := by
  rcases h with there | waits
  · exact Or.inl (List.mem_cons_of_mem _ there)
  · rcases List.mem_cons.mp waits with rfl | later
    · exact Or.inl List.mem_cons_self
    · exact Or.inr (List.mem_append_right _ later)

/-- What has been seen does not list the interface, and what it derives from is seen or
waits. -/
structure Cleared (r : Registry) (interface : HostId) (seen pending : List HostId) : Prop where
  without : ∀ x ∈ seen, ¬ r.Lists x interface
  covered : ∀ x ∈ seen, ∀ p, r.Derives x p → p ∈ seen ∨ p ∈ pending

namespace Cleared

theorem start (r : Registry) (interface : HostId) (pending : List HostId) :
    r.Cleared interface [] pending :=
  ⟨fun _ h => absurd h List.not_mem_nil, fun _ h => absurd h List.not_mem_nil⟩

theorem drop (h : r.Cleared interface seen (id :: pending)) (known : id ∈ seen) :
    r.Cleared interface seen pending :=
  ⟨h.without, fun x hx p edge => seen_or_waits_of_known known (h.covered x hx p edge)⟩

theorem look (h : r.Cleared interface seen (id :: pending)) (unlisted : ¬ r.Lists id interface) :
    r.Cleared interface (id :: seen) (r.ahead id ++ pending) := by
  refine ⟨List.forall_mem_cons.mpr ⟨unlisted, h.without⟩, ?_⟩
  intro x hx p edge
  rcases List.mem_cons.mp hx with rfl | old
  · exact Or.inr (List.mem_append_left _ (mem_ahead.mpr edge))
  · exact seen_or_waits_of_look (h.covered x old p edge)

/-- When nothing waits, everything that can be reached has been seen. -/
theorem finish (h : r.Cleared interface seen []) {x y : HostId} (hx : x ∈ seen)
    (path : Relation.ReflTransGen r.Derives x y) : ¬ r.Lists y interface := by
  have reached : y ∈ seen := by
    induction path with
    | refl => exact hx
    | tail _ edge there => exact (h.covered _ there _ edge).resolve_right List.not_mem_nil
  exact h.without y reached

/-- No is said only if nothing that can be reached lists the interface. -/
theorem not_lists (h : r.Cleared interface seen pending)
    (no : r.implementsFrom interface fuel seen pending = some false) {first last : HostId}
    (there : first ∈ seen ∨ first ∈ pending)
    (path : Relation.ReflTransGen r.Derives first last) : ¬ r.Lists last interface := by
  induction fuel generalizing seen pending with
  | zero =>
      cases pending with
      | nil => exact h.finish (there.resolve_right List.not_mem_nil) path
      | cons id pending => cases no
  | succ fuel ih =>
      cases pending with
      | nil => exact h.finish (there.resolve_right List.not_mem_nil) path
      | cons id pending =>
          rcases r.implementsFrom_cons interface fuel seen id pending with
            ⟨known, step⟩ | ⟨-, step⟩ | ⟨-, unlisted, step⟩
          · rw [step] at no
            exact ih (h.drop known) no (seen_or_waits_of_known known there)
          · rw [step] at no
            cases no
          · rw [step] at no
            exact ih (h.look unlisted) no (seen_or_waits_of_look there)

end Cleared

/-- The answer of a search that has ended. -/
theorem implementsFrom_eq_some {answer : Bool}
    (ended : r.implementsFrom interface fuel [] [id] = some answer) :
    answer = true ↔ ∃ ancestor, Relation.ReflTransGen r.Derives id ancestor
      ∧ r.Lists ancestor interface := by
  cases answer with
  | true =>
      refine iff_of_true rfl ?_
      obtain ⟨first, waits, found⟩ := lists_of_implementsFrom ended
      cases List.mem_singleton.mp waits
      exact found
  | false =>
      refine iff_of_false Bool.false_ne_true ?_
      rintro ⟨ancestor, path, listed⟩
      exact (Cleared.start r interface [id]).not_lists ended (Or.inr List.mem_cons_self) path
        listed

theorem implementsFrom_enough (r : Registry) (id interface : HostId)
    (enough : r.edgeCount + 1 ≤ fuel) :
    ∃ answer, r.implementsFrom interface fuel [] [id] = some answer := by
  refine implementsFrom_ends interface ?_
  rw [unseenCount_nil, List.length_singleton]
  omega

/-- What a search from a type has to say. -/
theorem implements_iff :
    r.implements id interface = true ↔ ∃ ancestor, Relation.ReflTransGen r.Derives id ancestor
      ∧ r.Lists ancestor interface := by
  obtain ⟨answer, ended⟩ := r.implementsFrom_enough id interface (Nat.le_refl _)
  rw [implements, ended]
  exact implementsFrom_eq_some ended

/-- Depth first or breadth first, the same types are met. -/
theorem implements_eq_any (r : Registry) (id interface : HostId) :
    r.implements id interface = (r.lineage id).any (fun ancestor =>
      (r.entry? ancestor).any (·.interfaces.contains interface)) := by
  rw [Bool.eq_iff_iff, implements_iff, List.any_eq_true]
  refine exists_congr fun ancestor => and_congr mem_lineage_iff.symm ?_
  rw [Lists, Option.any_eq_true]
  simp only [List.contains_iff_mem]

/-- In a registry of any shape, with circles in it and with types that are mentioned but
not registered, the search for an interface ends, and says yes exactly if some registered
type that can be reached, in any number of steps over bases and interfaces, lists it. -/
theorem implements_iff_lists (r : Registry) (id interface : HostId) :
    (∀ fuel, r.edgeCount + 1 ≤ fuel →
        r.implementsFrom interface fuel [] [id] = some (r.implements id interface))
      ∧ (r.implements id interface = true ↔
        ∃ ancestor e, Relation.ReflTransGen r.Derives id ancestor
          ∧ r.entry? ancestor = some e ∧ interface ∈ e.interfaces) := by
  refine ⟨?_, ?_⟩
  · intro fuel enough
    obtain ⟨answer, ended⟩ := r.implementsFrom_enough id interface enough
    rw [ended, Option.some_inj, Bool.eq_iff_iff, implements_iff]
    exact implementsFrom_eq_some ended
  · rw [implements_iff]
    constructor
    · rintro ⟨ancestor, path, e, found, listed⟩
      exact ⟨ancestor, e, path, found, listed⟩
    · rintro ⟨ancestor, e, path, found, listed⟩
      exact ⟨ancestor, path, e, found, listed⟩

/-- Two classes, each the base of the other; one of them lists an interface, which is not
registered. -/
def circle : Registry :=
  let ring := HostId.ofName "Ring"
  let chain := HostId.ofName "Chain"
  (empty.insertEntry (classEntry "Ring" (some chain) [] .empty)).insertEntry
    (classEntry "Chain" (some ring) [HostId.ofName "Linked"] .empty)

theorem implements_iff_lists_circle :
    circle.edgeCount + 1 ≤ 9
      ∧ circle.implementsFrom (HostId.ofName "Linked") 9 [] [HostId.ofName "Ring"] = some true
      ∧ circle.implements (HostId.ofName "Ring") (HostId.ofName "Linked") = true
      ∧ circle.implements (HostId.ofName "Ring") (HostId.ofName "Chain") = false := by
  have bound : circle.edgeCount + 1 ≤ 9 := by decide +kernel
  obtain ⟨ends, yes⟩ :=
    implements_iff_lists circle (HostId.ofName "Ring") (HostId.ofName "Linked")
  have listed : circle.implements (HostId.ofName "Ring") (HostId.ofName "Linked") = true := by
    have derives : circle.Derives (HostId.ofName "Ring") (HostId.ofName "Chain") := by
      show HostId.ofName "Chain" ∈ circle.parents (HostId.ofName "Ring")
      decide +kernel
    refine yes.mpr ⟨HostId.ofName "Chain",
      classEntry "Chain" (some (HostId.ofName "Ring")) [HostId.ofName "Linked"] .empty,
      .single derives, ?_, List.mem_cons_self⟩
    decide +kernel
  refine ⟨bound, ?_, listed, by decide +kernel⟩
  rw [ends 9 bound, listed]

end Registry

end ExprCompiler
