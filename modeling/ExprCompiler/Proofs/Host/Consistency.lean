/-
# Registries stay consistent

A registry is five stores that nothing ties together but the registrations that
write to them.  Here it is shown that they never come apart: starting from the
built-in types, whatever is registered and whatever is refused on the way,

* a name stands for exactly the type that carries it, and a type is stored under
  its own identity;
* everything a type derives from is there, and no type derives from itself,
  however indirectly;
* the taken identities are exactly those of the stored members and functions, no
  two of which share one, and a member is stored under its owner;
* a refused registration changes nothing.

Main result: `Registry.consistent_reached`.

The absence of cycles is checked nowhere.  It follows from the order of
registration: a type may only derive from what is there, and nothing that is
there can mention an identity that is not.  So ranks can be given out as types
arrive (`Ordered.ranked`).  The built-in types are written without a check; that
they are still there as they were first written, their collections apart, is part
of the invariant (`Ordered.builtin`), so writing them again moves nothing.
-/
import Mathlib.Algebra.Order.BigOperators.Group.List
import Mathlib.Algebra.Order.Group.Nat
import Mathlib.Logic.Relation
import ExprCompiler.Proofs.Host.Growth

namespace ExprCompiler

/-- A description without its collections, which is all that a hierarchy depends
on. -/
def TypeEntry.outline (e : TypeEntry) : TypeEntry := { e with collections := [] }

theorem TypeEntry.eq_of_outline {e e' : TypeEntry} (h : e.outline = e'.outline) :
    e.name = e'.name ∧ e.id = e'.id ∧ e.parents = e'.parents := by
  have name : e.outline.name = e'.outline.name := by rw [h]
  have id : e.outline.id = e'.outline.id := by rw [h]
  have parents : e.outline.parents = e'.outline.parents := by rw [h]
  exact ⟨name, id, parents⟩

namespace Registry

open Registering

/-! ## What is kept -/

/-- One type lists another as its base or among its interfaces. -/
def Derives (r : Registry) (derived base : HostId) : Prop := base ∈ r.parents derived

/-- The identities of all members and functions, each as often as it is stored. -/
def storedIds (r : Registry) : List HostId :=
  r.members.map (·.id) ++ r.functions.map (·.2.id)

/-- The five stores agree. -/
structure Consistent (r : Registry) : Prop where
  /-- A name stands for the type that carries it. -/
  named : ∀ name e, r.entryNamed? name = some e ↔ (∃ id, r.entry? id = some e) ∧ e.name = name
  /-- A type is stored under its own identity. -/
  keyed : ∀ id e, r.entry? id = some e → e.id = id
  /-- What a type derives from is there. -/
  closed : ∀ id e, r.entry? id = some e → ∀ p ∈ e.parents, ∃ parent, r.entry? p = some parent
  /-- No type derives from itself. -/
  acyclic : ∀ id, ¬ Relation.TransGen r.Derives id id
  /-- The taken identities are those of what is stored. -/
  known : ∀ id, id ∈ r.memberIds ↔ id ∈ r.storedIds
  distinct : r.storedIds.Nodup
  /-- A member is stored under its owner, which is there. -/
  owned : ∀ owner, ∀ m ∈ r.declared owner,
    m.owner = owner ∧ ∃ e, r.entry? owner = some e

/-- The invariant of types and names. -/
structure Ordered (r : Registry) : Prop where
  index : ∀ name id, r.names.find? name = some id ↔ ∃ e, r.entry? id = some e ∧ e.name = name
  keyed : ∀ id e, r.entry? id = some e → e.id = id
  closed : ∀ id, ∀ p ∈ r.parents id, r.has p = true
  ranked : ∃ rank : HostId → Nat, ∀ id, ∀ p ∈ r.parents id, rank p < rank id
  builtin : ∀ b ∈ Ty.builtins,
    (r.entry? b.2.id).map TypeEntry.outline = some (builtinEntry b.1 b.2)

/-- The part of it that walks over a hierarchy rely on, which a registry has even if the
built-in types come late. -/
structure Grounded (r : Registry) : Prop where
  closed : ∀ id, ∀ p ∈ r.parents id, r.has p = true
  ranked : ∃ rank : HostId → Nat, ∀ id, ∀ p ∈ r.parents id, rank p < rank id

/-- The invariant of members and functions. -/
structure Recorded (r : Registry) : Prop where
  known : ∀ id, id ∈ r.memberIds ↔ id ∈ r.storedIds
  distinct : r.storedIds.Nodup
  owned : ∀ owner, ∀ m ∈ r.declared owner, m.owner = owner ∧ r.has owner = true

/-! ## Look-up after a change -/

theorem has_iff {r : Registry} {id : HostId} : r.has id = true ↔ ∃ e, r.entry? id = some e := by
  rw [has, Table.has, Option.isSome_iff_exists]
  rfl

theorem parents_of_found {r : Registry} {id : HostId} {e : TypeEntry}
    (h : r.entry? id = some e) : r.parents id = e.parents := by
  rw [parents, h]

theorem entry?_insertEntry (r : Registry) (e : TypeEntry) (id : HostId) :
    Registry.entry? (r.insertEntry e) id = if id = e.id then some e else r.entry? id :=
  Table.find?_put r.types e.id id e

/-- What is there is not stored under a fresh identity. -/
theorem ne_of_fresh {r : Registry} {e e' : TypeEntry} {id : HostId}
    (fresh : r.entry? e.id = none) (found : r.entry? id = some e') : id ≠ e.id := by
  rintro rfl
  rw [fresh] at found
  cases found

theorem names_insertEntry (r : Registry) (e : TypeEntry) (name : String) :
    (r.insertEntry e).names.find? name
      = if name = e.name then some e.id else r.names.find? name :=
  Table.find?_put r.names e.name name e.id

theorem entry?_updateEntry (r : Registry) (id j : HostId) (change : TypeEntry → TypeEntry) :
    Registry.entry? (r.updateEntry id change) j
      = if j = id then (r.entry? j).map change else r.entry? j :=
  Table.find?_adjust r.types id j change

theorem parents_insertEntry (r : Registry) (e : TypeEntry) (id : HostId) :
    (r.insertEntry e).parents id = if id = e.id then e.parents else r.parents id := by
  rw [parents, entry?_insertEntry]
  by_cases here : id = e.id
  · rw [if_pos here, if_pos here]
  · rw [if_neg here, if_neg here]
    rfl

theorem has_insertEntry (r : Registry) (e : TypeEntry) (id : HostId) :
    (r.insertEntry e).has id = true ↔ id = e.id ∨ r.has id = true := by
  rw [has_iff, has_iff, entry?_insertEntry]
  by_cases here : id = e.id
  · simp [here]
  · simp [here]

theorem id_builtinEntry (name : String) (type : Ty) : (builtinEntry name type).id = type.id := by
  rw [builtinEntry]
  split <;> rfl

theorem outline_builtinEntry (name : String) (type : Ty) :
    (builtinEntry name type).outline = builtinEntry name type := by
  rw [builtinEntry]
  split <;> rfl

theorem parents_builtinEntry {name : String} {type : Ty} {p : HostId}
    (h : p ∈ (builtinEntry name type).parents) : type = Ty.string ∧ p = Ty.object.id := by
  rw [builtinEntry] at h
  split at h
  · next string => exact ⟨string, List.mem_singleton.mp h⟩
  · exact absurd h List.not_mem_nil

/-- Of built-in types that are written one after the other, a look-up finds one with the
identity it asks for, or else what was there. -/
theorem entry?_foldl_builtinEntry (bs : List (String × Ty)) (r : Registry) (id : HostId) :
    (∃ b ∈ bs, b.2.id = id
        ∧ Registry.entry? (bs.foldl (fun r b => r.insertEntry (builtinEntry b.1 b.2)) r) id
          = some (builtinEntry b.1 b.2))
      ∨ (∀ b ∈ bs, b.2.id ≠ id)
        ∧ Registry.entry? (bs.foldl (fun r b => r.insertEntry (builtinEntry b.1 b.2)) r) id
          = r.entry? id := by
  induction bs generalizing r with
  | nil => exact Or.inr ⟨fun _ h => absurd h List.not_mem_nil, rfl⟩
  | cons b bs ih =>
      rcases ih (r.insertEntry (builtinEntry b.1 b.2)) with ⟨b', hb', same, found⟩ | ⟨others, found⟩
      · exact Or.inl ⟨b', List.mem_cons_of_mem _ hb', same, found⟩
      · rw [entry?_insertEntry, id_builtinEntry] at found
        by_cases here : id = b.2.id
        · rw [if_pos here] at found
          exact Or.inl ⟨b, List.mem_cons_self, here.symm, found⟩
        · rw [if_neg here] at found
          exact Or.inr ⟨List.forall_mem_cons.mpr ⟨Ne.symm here, others⟩, found⟩

/-- Only types are written. -/
theorem stores_foldl_builtinEntry (bs : List (String × Ty)) (r : Registry) :
    (bs.foldl (fun r b => r.insertEntry (builtinEntry b.1 b.2)) r).memberTable = r.memberTable
      ∧ (bs.foldl (fun r b => r.insertEntry (builtinEntry b.1 b.2)) r).functionTable
        = r.functionTable
      ∧ (bs.foldl (fun r b => r.insertEntry (builtinEntry b.1 b.2)) r).memberIds
        = r.memberIds := by
  induction bs generalizing r with
  | nil => exact ⟨rfl, rfl, rfl⟩
  | cons b bs ih => exact ih (r.insertEntry (builtinEntry b.1 b.2))

/-- In any registry: the built-in types are there afterwards, and the others as before. -/
theorem entry?_registerPrimitives (r : Registry) (id : HostId) :
    (∃ b ∈ Ty.builtins, b.2.id = id
        ∧ r.registerPrimitives.entry? id = some (builtinEntry b.1 b.2))
      ∨ (∀ b ∈ Ty.builtins, b.2.id ≠ id)
        ∧ r.registerPrimitives.entry? id = r.entry? id := by
  rw [registerPrimitives]
  split
  · exact entry?_foldl_builtinEntry Ty.builtins r id
  · exact entry?_foldl_builtinEntry Ty.builtins r id

theorem has_registerPrimitives (r : Registry) (id : HostId) :
    r.registerPrimitives.has id = true
      ↔ (∃ b ∈ Ty.builtins, b.2.id = id) ∨ r.has id = true := by
  rw [has_iff, has_iff]
  rcases r.entry?_registerPrimitives id with ⟨b, hb, same, found⟩ | ⟨others, found⟩
  · exact iff_of_true ⟨_, found⟩ (Or.inl ⟨b, hb, same⟩)
  · rw [found]
    exact (or_iff_right fun ⟨b, hb, same⟩ => others b hb same).symm

theorem outline_addCollection (r : Registry) (owner id : HostId) (c : CollectionInterface) :
    (Registry.entry? (r.updateEntry owner (·.addCollection c)) id).map TypeEntry.outline
      = (r.entry? id).map TypeEntry.outline := by
  rw [entry?_updateEntry]
  split
  · rw [Option.map_map]
    rfl
  · rfl

/-- A registration that adds no type writes the built-in types, or all types look as before. -/
theorem after_of_adds? {r : Registry} {reg : Registration} (adds : reg.adds? r = none) :
    r.after reg = r.registerPrimitives
      ∨ ∀ id, (Registry.entry? (r.after reg) id).map TypeEntry.outline
        = (r.entry? id).map TypeEntry.outline := by
  cases reg with
  | primitives => exact Or.inl rfl
  | array =>
      refine Or.inr fun id => ?_
      rw [after_array adds]
  | member m =>
      refine Or.inr fun id => ?_
      rw [after, perform, registry_map]
      rcases registerMember_cases m r with ⟨error, run⟩ | ⟨run, -⟩ <;> rw [run]
      rfl
  | function space name params returns =>
      refine Or.inr fun id => ?_
      rw [after, perform, registry_map]
      rcases registerFunction_cases space name params returns r with
        ⟨error, run⟩ | ⟨run, -⟩ <;> rw [run]
      rfl
  | collection owner kind element =>
      refine Or.inr fun id => ?_
      rw [after, perform, registry_map]
      rcases implementCollection_cases owner kind element r with
        ⟨error, run⟩ | ⟨⟨c, run⟩, -⟩ <;> rw [run]
      exact outline_addCollection _ owner id c
  | _ => cases adds

/-! ## Registries with the same outlines -/

section Outlines

variable {r r' : Registry}

theorem exists_of_outlines {id : HostId} {e : TypeEntry}
    (outlines : (r'.entry? id).map TypeEntry.outline = (r.entry? id).map TypeEntry.outline)
    (found : r.entry? id = some e) : ∃ e', r'.entry? id = some e' ∧ e'.outline = e.outline := by
  rw [found] at outlines
  exact Option.map_eq_some_iff.mp outlines

theorem has_of_outlines {id : HostId}
    (outlines : (r'.entry? id).map TypeEntry.outline = (r.entry? id).map TypeEntry.outline)
    (there : r.has id = true) : r'.has id = true := by
  obtain ⟨e, held⟩ := has_iff.mp there
  obtain ⟨e', found, -⟩ := exists_of_outlines outlines held
  exact has_iff.mpr ⟨e', found⟩

theorem parents_of_outlines {id : HostId}
    (outlines : (r'.entry? id).map TypeEntry.outline = (r.entry? id).map TypeEntry.outline) :
    r'.parents id = r.parents id := by
  cases found : r'.entry? id with
  | none =>
      rw [found] at outlines
      rw [Registry.parents, Registry.parents, found, Option.map_eq_none_iff.mp outlines.symm]
  | some e' =>
      obtain ⟨e, held, same⟩ := exists_of_outlines outlines.symm found
      rw [parents_of_found found, parents_of_found held]
      exact (TypeEntry.eq_of_outline same).2.2.symm

end Outlines

/-! ## Hierarchies -/

namespace Grounded

variable {r r' : Registry}

theorem start : empty.Grounded := by
  have nothing : ∀ id, ∀ p ∈ empty.parents id, False := fun _ _ => List.not_mem_nil
  exact ⟨fun id p hp => (nothing id p hp).elim, fun _ => 0, fun id p hp => (nothing id p hp).elim⟩

theorem congr (h : r.Grounded) (outlines : ∀ id, (r'.entry? id).map TypeEntry.outline
    = (r.entry? id).map TypeEntry.outline) : r'.Grounded := by
  refine ⟨?_, ?_⟩
  · intro id p hp
    rw [parents_of_outlines (outlines id)] at hp
    exact has_of_outlines (outlines p) (h.closed id p hp)
  · obtain ⟨rank, falls⟩ := h.ranked
    refine ⟨rank, ?_⟩
    intro id p hp
    rw [parents_of_outlines (outlines id)] at hp
    exact falls id p hp

/-- A new type comes after everything it derives from. -/
theorem insertEntry {e : TypeEntry} (h : r.Grounded) (id : r.entry? e.id = none)
    (parents : ∀ p ∈ e.parents, r.has p = true) : (r.insertEntry e).Grounded := by
  -- whatever is registered is not the new type
  have other : ∀ p, r.has p = true → p ≠ e.id := by
    intro p there
    obtain ⟨e', held⟩ := has_iff.mp there
    exact ne_of_fresh id held
  refine ⟨?_, ?_⟩
  · intro i p hp
    rw [has_insertEntry]
    rw [parents_insertEntry] at hp
    split at hp
    · exact Or.inr (parents p hp)
    · exact Or.inr (h.closed i p hp)
  · obtain ⟨rank, falls⟩ := h.ranked
    -- the new type ranks above all it derives from, and nothing derives from it
    refine ⟨fun i => if i = e.id then (e.parents.map rank).sum + 1 else rank i, ?_⟩
    intro i p hp
    simp only
    rw [parents_insertEntry] at hp
    split at hp
    · next own =>
        rw [if_pos own, if_neg (other p (parents p hp))]
        exact Nat.lt_succ_of_le (List.le_sum_of_mem (List.mem_map_of_mem hp))
    · next own =>
        rw [if_neg own, if_neg (other p (h.closed i p hp))]
        exact falls i p hp

/-- Where built-in types are written over others, all of them are written, and they derive
from each other only.  So they rank below everything else. -/
theorem registerPrimitives (h : r.Grounded) : r.registerPrimitives.Grounded := by
  obtain ⟨rank, falls⟩ := h.ranked
  have object : ∃ b ∈ Ty.builtins, b.2.id = Ty.object.id :=
    ⟨("object", Ty.object), by decide, rfl⟩
  have string : ∃ b ∈ Ty.builtins, b.2.id = Ty.string.id :=
    ⟨("string", Ty.string), by decide, rfl⟩
  have written : ∀ id, ∀ p ∈ r.registerPrimitives.parents id,
      (id = Ty.string.id ∧ p = Ty.object.id)
        ∨ (∀ b ∈ Ty.builtins, b.2.id ≠ id) ∧ p ∈ r.parents id := by
    intro id p hp
    rcases r.entry?_registerPrimitives id with ⟨b, -, same, found⟩ | ⟨others, found⟩
    · rw [parents_of_found found] at hp
      obtain ⟨string, root⟩ := parents_builtinEntry hp
      exact Or.inl ⟨string ▸ same.symm, root⟩
    · rw [parents, found] at hp
      exact Or.inr ⟨others, hp⟩
  refine ⟨?_, fun id => if ∃ b ∈ Ty.builtins, b.2.id = id then (if id = Ty.string.id then 1 else 0)
    else rank id + 2, ?_⟩
  · intro id p hp
    rw [has_registerPrimitives]
    rcases written id p hp with ⟨-, rfl⟩ | ⟨-, hp⟩
    · exact Or.inl object
    · exact Or.inr (h.closed id p hp)
  · intro id p hp
    simp only
    rcases written id p hp with ⟨rfl, rfl⟩ | ⟨others, hp⟩
    · rw [if_pos object, if_pos string, if_neg (by decide), if_pos rfl]
      exact Nat.zero_lt_one
    · have own : ¬ ∃ b ∈ Ty.builtins, b.2.id = id := fun ⟨b, hb, same⟩ => others b hb same
      have lower := falls id p hp
      rw [if_neg own]
      split
      · split <;> omega
      · omega

theorem grows (h : r.Grounded) (growth : r.Grows r') : r'.Grounded := by
  cases growth with
  | same => exact h
  | primitives => exact h.registerPrimitives
  | type _ id parents => exact h.insertEntry id parents
  | member _ _ => exact h.congr fun _ => rfl
  | function _ => exact h.congr fun _ => rfl
  | collection _ _ => exact h.congr (outline_addCollection _ _ · _)

/-- Nothing derives from itself, since ranks fall. -/
theorem acyclic (h : r.Grounded) (id : HostId) : ¬ Relation.TransGen r.Derives id id := by
  obtain ⟨rank, falls⟩ := h.ranked
  have below : ∀ {a b : HostId}, Relation.TransGen r.Derives a b → rank b < rank a := by
    intro a b path
    induction path with
    | single edge => exact falls _ _ edge
    | tail _ edge ih => exact Nat.lt_trans (falls _ _ edge) ih
  intro cycle
  exact Nat.lt_irrefl _ (below cycle)

end Grounded

/-! ## Types and names -/

namespace Ordered

variable {r r' : Registry}

theorem grounded (h : r.Ordered) : r.Grounded := ⟨h.closed, h.ranked⟩

/-- The invariant looks at names and outlines only. -/
theorem congr (h : r.Ordered) (names : ∀ name, r'.names.find? name = r.names.find? name)
    (outlines : ∀ id, (r'.entry? id).map TypeEntry.outline
      = (r.entry? id).map TypeEntry.outline) : r'.Ordered := by
  have back := fun id e' => exists_of_outlines (e := e') (outlines id).symm
  have forth := fun id e => exists_of_outlines (e := e) (outlines id)
  have kept := h.grounded.congr outlines
  refine ⟨?_, ?_, kept.closed, kept.ranked, ?_⟩
  · intro name id
    rw [names, h.index]
    constructor
    · rintro ⟨e, held, rfl⟩
      obtain ⟨e', found, same⟩ := forth id e held
      exact ⟨e', found, (TypeEntry.eq_of_outline same).1⟩
    · rintro ⟨e', found, rfl⟩
      obtain ⟨e, held, same⟩ := back id e' found
      exact ⟨e, held, (TypeEntry.eq_of_outline same).1⟩
  · intro id e' found
    obtain ⟨e, held, same⟩ := back id e' found
    rw [← (TypeEntry.eq_of_outline same).2.1]
    exact h.keyed id e held
  · intro b hb
    rw [outlines]
    exact h.builtin b hb

/-- A new type comes after everything it derives from. -/
theorem insertEntry {e : TypeEntry} (h : r.Ordered) (name : r.names.find? e.name = none)
    (id : r.entry? e.id = none) (parents : ∀ p ∈ e.parents, r.has p = true) :
    (r.insertEntry e).Ordered := by
  have grown := h.grounded.insertEntry id parents
  refine ⟨?_, ?_, grown.closed, grown.ranked, ?_⟩
  · intro n i
    rw [names_insertEntry, entry?_insertEntry]
    by_cases here : n = e.name
    · subst here
      rw [if_pos rfl]
      by_cases own : i = e.id
      · subst own
        simp
      · rw [if_neg own, ← h.index, name]
        simp [Ne.symm own]
    · rw [if_neg here, h.index]
      by_cases own : i = e.id
      · subst own
        rw [if_pos rfl, id]
        simp [Ne.symm here]
      · rw [if_neg own]
  · intro i e' found
    rw [entry?_insertEntry] at found
    split at found
    · next own =>
        cases found
        exact own.symm
    · exact h.keyed i e' found
  · intro b hb
    have held := h.builtin b hb
    obtain ⟨e', found, -⟩ := Option.map_eq_some_iff.mp held
    rw [entry?_insertEntry, if_neg (ne_of_fresh id found)]
    exact held

theorem acyclic (h : r.Ordered) (id : HostId) : ¬ Relation.TransGen r.Derives id id :=
  h.grounded.acyclic id

/-- A name stands for the type that carries it. -/
theorem named (h : r.Ordered) (name : String) (e : TypeEntry) :
    r.entryNamed? name = some e ↔ (∃ id, r.entry? id = some e) ∧ e.name = name := by
  rw [entryNamed?, Option.bind_eq_some_iff]
  constructor
  · rintro ⟨id, indexed, held⟩
    obtain ⟨e', held', rfl⟩ := (h.index name id).mp indexed
    rw [held] at held'
    cases held'
    exact ⟨⟨id, held⟩, rfl⟩
  · rintro ⟨⟨id, held⟩, rfl⟩
    exact ⟨id, (h.index e.name id).mpr ⟨e, held, rfl⟩, held⟩

end Ordered

/-! ## Members and functions -/

theorem members_insertMember (r : Registry) (m : Member) :
    (r.insertMember m).members.Perm (m :: r.members) :=
  (Table.listed_push r.memberTable m.owner m).map Prod.snd

theorem storedIds_insertMember (r : Registry) (m : Member) :
    (r.insertMember m).storedIds.Perm (m.id :: r.storedIds) :=
  ((members_insertMember r m).map (·.id)).append_right _

theorem storedIds_insertFunction (r : Registry) (space : String) (m : Member) :
    (r.insertFunction space m).storedIds.Perm (m.id :: r.storedIds) := by
  have stored : (r.insertFunction space m).functions.Perm ((space, m) :: r.functions) :=
    Table.listed_push r.functionTable space m
  exact ((stored.map (·.2.id)).append_left _).trans List.perm_middle

namespace Recorded

variable {r r' : Registry}

/-- A fresh identity is taken together with what is stored. -/
theorem take {id : HostId} (h : r.Recorded) (fresh : id ∉ r.memberIds)
    (ids : r'.memberIds = id :: r.memberIds) (stored : r'.storedIds.Perm (id :: r.storedIds)) :
    (∀ j, j ∈ r'.memberIds ↔ j ∈ r'.storedIds) ∧ r'.storedIds.Nodup := by
  refine ⟨?_, ?_⟩
  · intro j
    rw [ids, stored.mem_iff, List.mem_cons, List.mem_cons, h.known]
  · rw [stored.nodup_iff, List.nodup_cons]
    exact ⟨fun held => fresh ((h.known id).mpr held), h.distinct⟩

/-- The types may change under the members, as long as none goes. -/
theorem of_types (h : r.Recorded) (ids : r'.memberIds = r.memberIds)
    (members : r'.memberTable = r.memberTable) (functions : r'.functionTable = r.functionTable)
    (has : ∀ id, r.has id = true → r'.has id = true) : r'.Recorded := by
  have stored : r'.storedIds = r.storedIds := by
    rw [storedIds, storedIds, Registry.members, Registry.members, Registry.functions,
      Registry.functions, members, functions]
  refine ⟨?_, stored ▸ h.distinct, ?_⟩
  · intro id
    rw [ids, stored]
    exact h.known id
  · intro owner m hm
    rw [declared, members] at hm
    obtain ⟨own, there⟩ := h.owned owner m hm
    exact ⟨own, has owner there⟩

theorem insertMember {m : Member} (h : r.Recorded) (owner : r.has m.owner = true)
    (fresh : m.id ∉ r.memberIds) : (r.insertMember m).Recorded := by
  obtain ⟨known, distinct⟩ := h.take fresh rfl (storedIds_insertMember r m)
  refine ⟨known, distinct, ?_⟩
  intro o m' hm'
  have listed : (r.insertMember m).declared o
      = if o = m.owner then r.declared o ++ [m] else r.declared o :=
    Table.items_push r.memberTable m.owner o m
  rw [listed] at hm'
  by_cases here : o = m.owner
  · rw [if_pos here] at hm'
    rcases List.mem_append.mp hm' with old | new
    · exact h.owned o m' old
    · rw [List.mem_singleton.mp new]
      exact ⟨here.symm, here ▸ owner⟩
  · rw [if_neg here] at hm'
    exact h.owned o m' hm'

theorem insertFunction {space : String} {m : Member} (h : r.Recorded)
    (fresh : m.id ∉ r.memberIds) : (r.insertFunction space m).Recorded := by
  obtain ⟨known, distinct⟩ := h.take fresh rfl (storedIds_insertFunction r space m)
  exact ⟨known, distinct, h.owned⟩

theorem insertEntry (h : r.Recorded) (e : TypeEntry) : (r.insertEntry e).Recorded := by
  refine h.of_types rfl rfl rfl ?_
  intro p there
  exact (has_insertEntry r e p).mpr (Or.inr there)

theorem addCollection (h : r.Recorded) (owner : HostId) (c : CollectionInterface) :
    (r.updateEntry owner (·.addCollection c)).Recorded := by
  refine h.of_types rfl rfl rfl ?_
  intro id there
  obtain ⟨e, held⟩ := has_iff.mp there
  rw [has_iff, entry?_updateEntry, held]
  split
  · exact ⟨_, rfl⟩
  · exact ⟨e, rfl⟩

/-- The built-in types may be written at any time. -/
theorem registerPrimitives (h : r.Recorded) : r.registerPrimitives.Recorded := by
  have typed : ∀ (bs : List (String × Ty)) (r : Registry), r.Recorded →
      (bs.foldl (fun r b => r.insertEntry (builtinEntry b.1 b.2)) r).Recorded
        ∧ ∀ id, r.has id = true ∨ (∃ b ∈ bs, b.2.id = id) →
          (bs.foldl (fun r b => r.insertEntry (builtinEntry b.1 b.2)) r).has id = true := by
    intro bs
    induction bs with
    | nil =>
        intro r h
        refine ⟨h, ?_⟩
        rintro id (there | ⟨b, hb, -⟩)
        · exact there
        · exact absurd hb List.not_mem_nil
    | cons b bs ih =>
        intro r h
        obtain ⟨recorded, has⟩ := ih _ (h.insertEntry (builtinEntry b.1 b.2))
        refine ⟨recorded, ?_⟩
        rintro id (there | ⟨b', hb', rfl⟩)
        · exact has id (Or.inl ((has_insertEntry _ _ _).mpr (Or.inr there)))
        · rcases List.mem_cons.mp hb' with rfl | hb'
          · exact has _ (Or.inl ((has_insertEntry _ _ _).mpr (Or.inl (id_builtinEntry _ _).symm)))
          · exact has _ (Or.inr ⟨b', hb', rfl⟩)
  obtain ⟨recorded, has⟩ := typed Ty.builtins r h
  rw [Registry.registerPrimitives]
  split
  · exact recorded
  · next absent =>
      refine recorded.insertMember ?_ (fun held => absent (hasMember_iff.mpr held))
      exact has _ (Or.inr ⟨("string", Ty.string), by decide, rfl⟩)

/-- However a registry grows, no two members come to share an identity. -/
theorem grows (h : r.Recorded) (growth : r.Grows r') : r'.Recorded := by
  cases growth with
  | same => exact h
  | primitives => exact h.registerPrimitives
  | type _ _ _ => exact h.insertEntry _
  | member owner fresh => exact h.insertMember owner fresh
  | function fresh => exact h.insertFunction fresh
  | collection owner fresh => exact (h.insertMember owner fresh).addCollection _ _

end Recorded

/-! ## One registration -/

/-- Both invariants. -/
structure Sound (r : Registry) : Prop where
  ordered : r.Ordered
  recorded : r.Recorded

namespace Sound

variable {r r' : Registry}

theorem insertEntry {e : TypeEntry} (h : r.Sound) (name : r.names.find? e.name = none)
    (id : r.entry? e.id = none) (parents : ∀ p ∈ e.parents, r.has p = true) :
    (r.insertEntry e).Sound :=
  ⟨h.ordered.insertEntry name id parents, h.recorded.insertEntry e⟩

theorem insertMember {m : Member} (h : r.Sound) (owner : r.has m.owner = true)
    (fresh : m.id ∉ r.memberIds) : (r.insertMember m).Sound :=
  ⟨h.ordered.congr (fun _ => rfl) (fun _ => rfl), h.recorded.insertMember owner fresh⟩

theorem insertFunction {space : String} {m : Member} (h : r.Sound)
    (fresh : m.id ∉ r.memberIds) : (r.insertFunction space m).Sound :=
  ⟨h.ordered.congr (fun _ => rfl) (fun _ => rfl), h.recorded.insertFunction fresh⟩

theorem addCollection (h : r.Sound) (owner : HostId) (c : CollectionInterface) :
    (r.updateEntry owner (·.addCollection c)).Sound :=
  ⟨h.ordered.congr (fun _ => rfl) (outline_addCollection r owner · c),
    h.recorded.addCollection owner c⟩

/-- A built-in type that is written once more looks as before. -/
theorem outline_restore {b : String × Ty} (h : r.Sound) (hb : b ∈ Ty.builtins) (id : HostId) :
    (Registry.entry? (r.insertEntry (builtinEntry b.1 b.2)) id).map TypeEntry.outline
      = (r.entry? id).map TypeEntry.outline := by
  rw [entry?_insertEntry]
  split
  · next here =>
      rw [here, id_builtinEntry, h.ordered.builtin b hb, Option.map_some, outline_builtinEntry]
  · rfl

/-- A built-in type is written over itself. -/
theorem restore {b : String × Ty} (h : r.Sound) (hb : b ∈ Ty.builtins) :
    (r.insertEntry (builtinEntry b.1 b.2)).Sound := by
  obtain ⟨e, found, same⟩ := Option.map_eq_some_iff.mp (h.ordered.builtin b hb)
  rw [← outline_builtinEntry] at same
  refine ⟨h.ordered.congr ?_ (h.outline_restore hb), h.recorded.insertEntry _⟩
  intro name
  rw [names_insertEntry]
  split
  · next here =>
      rw [here, id_builtinEntry, eq_comm, h.ordered.index]
      exact ⟨e, found, (TypeEntry.eq_of_outline same).1⟩
  · rfl

theorem restoreAll {bs : List (String × Ty)} (sub : bs ⊆ Ty.builtins) (h : r.Sound) :
    (bs.foldl (fun r b => r.insertEntry (builtinEntry b.1 b.2)) r).Sound
      ∧ ∀ id, (Registry.entry?
          (bs.foldl (fun r b => r.insertEntry (builtinEntry b.1 b.2)) r) id).map
            TypeEntry.outline = (r.entry? id).map TypeEntry.outline := by
  induction bs generalizing r with
  | nil => exact ⟨h, fun _ => rfl⟩
  | cons b bs ih =>
      have here : b ∈ Ty.builtins := sub List.mem_cons_self
      obtain ⟨sound, outlines⟩ := ih (fun _ hx => sub (List.mem_cons_of_mem _ hx)) (h.restore here)
      exact ⟨sound, fun id => (outlines id).trans (h.outline_restore here id)⟩

theorem registerPrimitives (h : r.Sound) : r.registerPrimitives.Sound := by
  have sound := (h.restoreAll (fun _ hb => hb : Ty.builtins ⊆ Ty.builtins)).1
  rw [Registry.registerPrimitives]
  split
  · exact sound
  · next absent =>
      refine sound.insertMember ?_ (fun held => absent (hasMember_iff.mpr held))
      obtain ⟨e, found, -⟩ := Option.map_eq_some_iff.mp
        (sound.ordered.builtin ("string", Ty.string) (by decide))
      exact has_iff.mpr ⟨e, found⟩

/-- All types look as before when the built-in ones are written once more. -/
theorem outline_registerPrimitives (h : r.Sound) (id : HostId) :
    (r.registerPrimitives.entry? id).map TypeEntry.outline
      = (r.entry? id).map TypeEntry.outline := by
  have outlines := (h.restoreAll (fun _ hb => hb : Ty.builtins ⊆ Ty.builtins)).2
  rw [Registry.registerPrimitives]
  split
  · exact outlines id
  · exact outlines id

/-- All types look as before when something is registered that adds no type. -/
theorem outline_after (h : r.Sound) {reg : Registration} (adds : reg.adds? r = none)
    (id : HostId) : (Registry.entry? (r.after reg) id).map TypeEntry.outline
      = (r.entry? id).map TypeEntry.outline := by
  rcases after_of_adds? adds with primitives | same
  · rw [primitives]
    exact h.outline_registerPrimitives id
  · exact same id

/-- However a registry grows, its stores stay together. -/
theorem grows (h : r.Sound) (growth : r.Grows r') : r'.Sound := by
  cases growth with
  | same => exact h
  | primitives => exact h.registerPrimitives
  | type name id parents => exact h.insertEntry name id parents
  | member owner fresh => exact h.insertMember owner fresh
  | function fresh => exact h.insertFunction fresh
  | collection owner fresh => exact (h.insertMember owner fresh).addCollection _ _

theorem consistent (h : r.Sound) : r.Consistent where
  named := h.ordered.named
  keyed := h.ordered.keyed
  closed := by
    intro id e found p hp
    rw [← parents_of_found found] at hp
    exact has_iff.mp (h.ordered.closed id p hp)
  acyclic := h.ordered.acyclic
  known := h.recorded.known
  distinct := h.recorded.distinct
  owned := by
    intro owner m hm
    obtain ⟨own, there⟩ := h.recorded.owned owner m hm
    exact ⟨own, has_iff.mp there⟩

end Sound

/-! ## The built-in types -/

/-- The built-in types before their members. -/
def builtinTypes : Registry :=
  Ty.builtins.foldl (fun r b => r.insertEntry (builtinEntry b.1 b.2)) empty

theorem ordered_builtinTypes : builtinTypes.Ordered := by
  have indexed : builtinTypes.names.rows
      = builtinTypes.types.rows.map (fun row => (row.2.name, row.1)) := by decide +kernel
  have keyed : ∀ row ∈ builtinTypes.types.rows, row.2.id = row.1 := by decide +kernel
  have closed : ∀ row ∈ builtinTypes.types.rows, ∀ p ∈ row.2.parents,
      builtinTypes.has p = true := by decide +kernel
  -- only strings derive from anything
  have ranked : ∀ row ∈ builtinTypes.types.rows, ∀ p ∈ row.2.parents,
      (if p = Ty.string.id then 1 else 0) < (if row.1 = Ty.string.id then 1 else 0) := by
    decide +kernel
  have row : ∀ id, ∀ p ∈ builtinTypes.parents id,
      ∃ e, (id, e) ∈ builtinTypes.types.rows ∧ p ∈ e.parents := by
    intro id p hp
    cases found : builtinTypes.entry? id with
    | none =>
        rw [parents, found] at hp
        exact absurd hp List.not_mem_nil
    | some e =>
        rw [parents_of_found found] at hp
        exact ⟨e, Table.find?_eq_some_iff.mp found, hp⟩
  refine ⟨?_, ?_, ?_, ?_, ?_⟩
  · intro name id
    rw [Table.find?_eq_some_iff, indexed, List.mem_map]
    constructor
    · rintro ⟨⟨i, e⟩, held, same⟩
      cases same
      exact ⟨e, Table.find?_eq_some_iff.mpr held, rfl⟩
    · rintro ⟨e, found, rfl⟩
      exact ⟨(id, e), Table.find?_eq_some_iff.mp found, rfl⟩
  · intro id e found
    exact keyed (id, e) (Table.find?_eq_some_iff.mp found)
  · intro id p hp
    obtain ⟨e, held, hp⟩ := row id p hp
    exact closed (id, e) held p hp
  · refine ⟨fun id => if id = Ty.string.id then 1 else 0, ?_⟩
    intro id p hp
    obtain ⟨e, held, hp⟩ := row id p hp
    exact ranked (id, e) held p hp
  · decide +kernel

theorem sound_withPrimitives : withPrimitives.Sound := by
  have untaken : builtinTypes.memberIds = [] := rfl
  have typed : builtinTypes.Sound := by
    refine ⟨ordered_builtinTypes, ?_, ?_, ?_⟩
    · intro id
      exact Iff.rfl
    · exact List.nodup_nil
    · intro owner m hm
      exact absurd hm List.not_mem_nil
  have first : withPrimitives = builtinTypes.insertMember stringLength := by
    rw [withPrimitives, registerPrimitives]
    exact if_neg (by rw [hasMember_iff, ← builtinTypes, untaken]; exact List.not_mem_nil)
  rw [first]
  refine typed.insertMember ?_ (by rw [untaken]; exact List.not_mem_nil)
  decide +kernel

/-! ## All registrations -/

/-- The registry after a list of registrations, some of them perhaps refused. -/
def reached (regs : List Registration) : Registry := regs.foldl after withPrimitives

theorem sound_reached (regs : List Registration) : (reached regs).Sound := by
  refine List.foldlRecOn regs after sound_withPrimitives ?_
  intro r sound reg _
  exact sound.grows (grows_after r reg)

/-- The registry that a list of registrations makes from nothing, with or without the
built-in types. -/
def made (regs : List Registration) : Registry := regs.foldl after empty

theorem recorded_made (regs : List Registration) : (made regs).Recorded := by
  have start : empty.Recorded := by
    refine ⟨?_, List.nodup_nil, ?_⟩
    · intro id
      exact Iff.rfl
    · intro owner m hm
      exact absurd hm List.not_mem_nil
  refine List.foldlRecOn regs after start ?_
  intro r recorded reg _
  exact recorded.grows (grows_after r reg)

/-- A registration adds no member but its own. -/
theorem mem_members_after {r : Registry} {reg : Registration} {m : Member}
    (h : m ∈ (r.after reg).members) : m ∈ r.members ∨ reg.member? = some m := by
  have insert : ∀ {r' : Registry} {own : Member}, r'.memberTable = r.memberTable →
      m ∈ (r'.insertMember own).members → m ∈ r.members ∨ some own = some m := by
    intro r' own same hm
    rcases List.mem_cons.mp ((members_insertMember r' own).mem_iff.mp hm) with rfl | old
    · exact Or.inr rfl
    · rw [members, same] at old
      exact Or.inl old
  cases adds : reg.adds? r with
  | some e =>
      rw [after] at h
      rcases perform_of_adds? adds with ⟨error, run⟩ | ⟨⟨answer, run⟩, -⟩
      all_goals
        rw [run] at h
        exact Or.inl h
  | none =>
      cases reg with
      | primitives =>
          have typed := (stores_foldl_builtinEntry Ty.builtins r).1
          have h : m ∈ r.registerPrimitives.members := h
          rw [registerPrimitives] at h
          split at h
          · rw [members, typed] at h
            exact Or.inl h
          · exact insert typed h
      | array =>
          rw [after_array adds] at h
          exact Or.inl h
      | member own =>
          rw [after, perform, registry_map] at h
          rcases registerMember_cases own r with ⟨error, run⟩ | ⟨run, -⟩
          · rw [run] at h
            exact Or.inl h
          · rw [run] at h
            exact insert rfl h
      | function space name params returns =>
          rw [after, perform, registry_map] at h
          rcases registerFunction_cases space name params returns r with
            ⟨error, run⟩ | ⟨run, -⟩
          all_goals
            rw [run] at h
            exact Or.inl h
      | collection owner kind element =>
          rw [after, perform, registry_map] at h
          rcases implementCollection_cases owner kind element r with
            ⟨error, run⟩ | ⟨⟨c, run⟩, -⟩
          · rw [run] at h
            exact Or.inl h
          · rw [run] at h
            exact insert rfl h
      | _ => cases adds

/-- Every member comes from a registration. -/
theorem mem_members_made {regs : List Registration} {m : Member} (h : m ∈ (made regs).members) :
    ∃ reg ∈ regs, reg.member? = some m := by
  have origin : m ∈ (made regs).members → ∃ reg ∈ regs, reg.member? = some m := by
    refine List.foldlRecOn (motive := fun r => m ∈ Registry.members r → _) regs after
      (fun none => absurd none List.not_mem_nil) ?_
    intro r old reg hreg hm
    rcases mem_members_after hm with before | own
    · exact old before
    · exact ⟨reg, hreg, own⟩
  exact origin h

/-- Whatever has been registered or refused, the stores of a registry agree, and
the next registration, if it is refused, leaves all of them as they are. -/
theorem consistent_reached (regs : List Registration) :
    (reached regs).Consistent
      ∧ ∀ reg error r', (perform reg).run (reached regs) = (.error error, r') →
        r' = reached regs := by
  refine ⟨(sound_reached regs).consistent, ?_⟩
  intro reg error r' refused
  exact perform_error refused

/-- A class, registered twice. -/
theorem consistent_reached_twice :
    ∃ error r', (perform (.refClass "Color" none [] .empty)).run
        (reached [.refClass "Color" none [] .empty]) = (.error error, r')
      ∧ r' = reached [.refClass "Color" none [] .empty] ∧ r'.Consistent := by
  have refused : ((perform (.refClass "Color" none [] .empty)).run
      (reached [.refClass "Color" none [] .empty])).1 = .error (.duplicateType "Color") := by
    decide +kernel
  obtain ⟨consistent, unchanged⟩ := consistent_reached [.refClass "Color" none [] .empty]
  have ran := Prod.ext refused rfl
  have same := unchanged _ _ _ ran
  exact ⟨_, _, ran, same, same ▸ consistent⟩

end Registry

end ExprCompiler
