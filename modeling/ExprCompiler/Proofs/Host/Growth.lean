/-
# What a registration does

A registration checks first and writes afterwards.  So it ends in one of two ways
(`Does`): it is refused and the registry is the one it started from, or it is
accepted and the registry has grown in one of the ways of `Grows`, under the
conditions that were checked:

    a type          fresh name, fresh identity, everything it derives from is there
    a member        its owner is there, fresh identity
    a function      fresh identity
    a collection    as for a member, and the owner's description lists it
    the built-ins   written without a check
    nothing         an array type that was there already

What holds of all registries a host can make is proved along these ways, and no
other module opens the definitions of the registrations.
-/
import ExprCompiler.Host.Registration

namespace ExprCompiler

/-- The description of the type that a registration would add to a registry.  An array type
that is there already is not added again. -/
def Registration.adds? (reg : Registration) (r : Registry) : Option TypeEntry :=
  match reg with
  | .type e => some e
  | .refClass name base interfaces flags => some (Registry.classEntry name base interfaces flags)
  | .struct name => some (Registry.structEntry name)
  | .interface name parents => some (Registry.interfaceEntry name parents)
  | .enum name underlying => some (Registry.enumEntry name underlying)
  | .array element rank =>
      match r.entryNamed? (Registry.arrayName (r.typeName element.id) rank) with
      | some _ => none
      | none => some (Registry.arrayEntry (Registry.arrayName (r.typeName element.id) rank)
          element rank)
  | .primitives | .member _ | .function .. | .collection .. => none

/-- The search method of a collection. -/
def searchMember (owner : HostId) (kind : CollectionKind) (element : Ty) : Member :=
  Member.method owner kind.searchMethod [element] Ty.bool

/-- The member that a registration would add to a type. -/
def Registration.member? : Registration → Option Member
  | .member m => some m
  | .collection owner kind element => some (searchMember owner kind element)
  | .primitives => some Registry.stringLength
  | _ => none

namespace Registry

/-- What an accepted registration makes of a registry. -/
inductive Grows (r : Registry) : Registry → Prop
  | same : Grows r r
  | primitives : Grows r r.registerPrimitives
  | type {e : TypeEntry} : r.names.find? e.name = none → r.entry? e.id = none →
      (∀ p ∈ e.parents, r.has p = true) → Grows r (r.insertEntry e)
  | member {m : Member} : r.has m.owner = true → m.id ∉ r.memberIds →
      Grows r (r.insertMember m)
  | function {space : String} {m : Member} : m.id ∉ r.memberIds →
      Grows r (r.insertFunction space m)
  | collection {m : Member} {c : CollectionInterface} : r.has m.owner = true →
      m.id ∉ r.memberIds →
      Grows r ((r.insertMember m).updateEntry m.owner (·.addCollection c))

/-- How a registration ends: refused without a trace, or accepted. -/
inductive Does {α : Type} (r : Registry) : Except RegistrationError α × Registry → Prop
  | refused {error : RegistrationError} : Does r (.error error, r)
  | accepted {answer : α} {r' : Registry} : r.Grows r' → Does r (.ok answer, r')

end Registry

/-! ## Running a registration -/

namespace Registering

variable {α β : Type} {r : Registry}

theorem run_get (f : Registry → Registering α) : (get >>= f).run r = (f r).run r := rfl

/-- The second part runs on what the first one left. -/
theorem run_bind_ok {x : Registering α} {f : α → Registering β} {answer : α} {r' : Registry}
    (h : x.run r = (.ok answer, r')) : (x >>= f).run r = (f answer).run r' := by
  have shape : (x >>= f).run r = ((ExceptT.bindCont f (x.run r).1).run (x.run r).2) := rfl
  rw [shape, h]
  rfl

theorem run_bind_error {x : Registering α} {f : α → Registering β}
    {error : RegistrationError} {r' : Registry} (h : x.run r = (.error error, r')) :
    (x >>= f).run r = (.error error, r') := by
  have shape : (x >>= f).run r = ((ExceptT.bindCont f (x.run r).1).run (x.run r).2) := rfl
  rw [shape, h]
  rfl

/-- What is made of the answer does not matter to the registry. -/
theorem registry_map (f : α → β) (x : Registering α) : ((f <$> x).run r).2 = (x.run r).2 := by
  rcases outcome : x.run r with ⟨_ | answer, r'⟩
  · have run : (f <$> x).run r = _ := run_bind_error outcome
    rw [run]
  · have run : (f <$> x).run r = _ := run_bind_ok outcome
    rw [run]
    rfl

end Registering

namespace Registry

open Registering

/-- The answer does not matter. -/
theorem Does.map {α β : Type} {r : Registry} {x : Registering α} (f : α → β)
    (h : r.Does (x.run r)) : r.Does ((f <$> x).run r) := by
  generalize outcome : x.run r = end_ at h
  cases h with
  | refused =>
      have run : (f <$> x).run r = _ := run_bind_error outcome
      rw [run]
      exact .refused
  | accepted grows =>
      have run : (f <$> x).run r = _ := run_bind_ok outcome
      rw [run]
      exact .accepted grows

theorem find?_eq_none_of_has {κ ν : Type} [DecidableEq κ] {t : Table κ ν} {key : κ}
    (h : t.has key = false) : t.find? key = none := by
  simpa [Table.has] using h

theorem hasMember_iff {r : Registry} {id : HostId} :
    r.hasMember id = true ↔ id ∈ r.memberIds := by
  simp [hasMember]

/-- A type is refused, or it is new and everything it derives from is there. -/
theorem registerType_cases (e : TypeEntry) (r : Registry) :
    (∃ error, (registerType e).run r = (.error error, r))
      ∨ ((registerType e).run r = (.ok e.type, r.insertEntry e)
        ∧ r.names.find? e.name = none ∧ r.entry? e.id = none
        ∧ ∀ p ∈ e.parents, r.has p = true) := by
  rw [registerType, run_get]
  by_cases taken : (r.names.has e.name || r.has e.id) = true
  · rw [if_pos taken]
    exact Or.inl ⟨_, rfl⟩
  · rw [if_neg taken]
    rw [Bool.not_eq_true, Bool.or_eq_false_iff] at taken
    cases absent : e.parents.find? (fun p => !r.has p) with
    | some missing => exact Or.inl ⟨_, rfl⟩
    | none =>
        refine Or.inr ⟨rfl, find?_eq_none_of_has taken.1, find?_eq_none_of_has taken.2, ?_⟩
        intro p hp
        simpa using List.find?_eq_none.mp absent p hp

theorem registerType_does (e : TypeEntry) (r : Registry) :
    r.Does ((registerType e).run r) := by
  rcases registerType_cases e r with ⟨error, run⟩ | ⟨run, name, id, parents⟩
  · rw [run]
    exact .refused
  · rw [run]
    exact .accepted (.type name id parents)

/-- An array type that is there is found by its name. -/
theorem arrayOf_present {element : Ty} {rank : Nat} {r : Registry} {e : TypeEntry}
    (named : r.entryNamed? (arrayName (r.typeName element.id) rank) = some e) :
    (arrayOf element rank).run r = (.ok e.type, r) := by
  rw [arrayOf, run_get]
  simp only [named]
  rfl

/-- A new one is registered like any other type, if its element type is there. -/
theorem arrayOf_new {element : Ty} {rank : Nat} {r : Registry}
    (named : r.entryNamed? (arrayName (r.typeName element.id) rank) = none) :
    (arrayOf element rank).run r = if r.has element.id
      then (registerType (arrayEntry (arrayName (r.typeName element.id) rank) element rank)).run r
      else (.error (.unknownType (r.typeName element.id)), r) := by
  rw [arrayOf, run_get]
  simp only [named]
  split <;> rfl

/-- An array type is there, or its element type is missing, or it is registered. -/
theorem arrayOf_cases (element : Ty) (rank : Nat) (r : Registry) :
    (∃ e, (arrayOf element rank).run r = (.ok e, r))
      ∨ (∃ error, (arrayOf element rank).run r = (.error error, r))
      ∨ (r.has element.id = true ∧ (arrayOf element rank).run r
        = (registerType (arrayEntry (arrayName (r.typeName element.id) rank) element rank)).run
          r) := by
  cases named : r.entryNamed? (arrayName (r.typeName element.id) rank) with
  | some e => exact Or.inl ⟨_, arrayOf_present named⟩
  | none =>
      have run := arrayOf_new named
      split at run
      · next there => exact Or.inr (Or.inr ⟨there, run⟩)
      · exact Or.inr (Or.inl ⟨_, run⟩)

theorem arrayOf_does (element : Ty) (rank : Nat) (r : Registry) :
    r.Does ((arrayOf element rank).run r) := by
  rcases arrayOf_cases element rank r with ⟨e, run⟩ | ⟨error, run⟩ | ⟨-, run⟩
  · rw [run]
    exact .accepted .same
  · rw [run]
    exact .refused
  · rw [run]
    exact registerType_does _ r

/-- A member is refused, or its owner is there and its identity is fresh. -/
theorem registerMember_cases (m : Member) (r : Registry) :
    (∃ error, (registerMember m).run r = (.error error, r))
      ∨ ((registerMember m).run r = (.ok m.id, r.insertMember m) ∧ r.has m.owner = true
        ∧ m.id ∉ r.memberIds) := by
  rw [registerMember, run_get]
  cases owned : r.entry? m.owner with
  | none => exact Or.inl ⟨_, rfl⟩
  | some owner =>
      simp only
      by_cases known : r.hasMember m.id = true
      · rw [if_pos known]
        exact Or.inl ⟨_, rfl⟩
      · rw [if_neg known]
        refine Or.inr ⟨rfl, ?_, fun h => known (hasMember_iff.mpr h)⟩
        unfold Registry.entry? at owned
        rw [has, Table.has, owned]
        rfl

theorem registerMember_does (m : Member) (r : Registry) :
    r.Does ((registerMember m).run r) := by
  rcases registerMember_cases m r with ⟨error, run⟩ | ⟨run, owner, fresh⟩
  · rw [run]
    exact .refused
  · rw [run]
    exact .accepted (.member owner fresh)

/-- A function is refused, or its identity is fresh. -/
theorem registerFunction_cases (space name : String) (params : List Ty) (returns : Ty)
    (r : Registry) :
    (∃ error, (registerFunction space name params returns).run r = (.error error, r))
      ∨ ((registerFunction space name params returns).run r
          = (.ok (Member.free space name params returns).id,
            r.insertFunction space (Member.free space name params returns))
        ∧ (Member.free space name params returns).id ∉ r.memberIds) := by
  rw [registerFunction, run_get]
  by_cases known : r.hasMember (Member.free space name params returns).id = true
  · rw [if_pos known]
    exact Or.inl ⟨_, rfl⟩
  · rw [if_neg known]
    exact Or.inr ⟨rfl, fun h => known (hasMember_iff.mpr h)⟩

theorem registerFunction_does (space name : String) (params : List Ty) (returns : Ty)
    (r : Registry) : r.Does ((registerFunction space name params returns).run r) := by
  rcases registerFunction_cases space name params returns r with ⟨error, run⟩ | ⟨run, fresh⟩
  · rw [run]
    exact .refused
  · rw [run]
    exact .accepted (.function fresh)

/-- A collection is refused, or its search method is registered and its owner lists it. -/
theorem implementCollection_cases (owner : HostId) (kind : CollectionKind) (element : Ty)
    (r : Registry) :
    (∃ error, (implementCollection owner kind element).run r = (.error error, r))
      ∨ ((∃ c, (implementCollection owner kind element).run r
          = (.ok c, (r.insertMember (searchMember owner kind element)).updateEntry owner
            (·.addCollection c)))
        ∧ r.has owner = true ∧ (searchMember owner kind element).id ∉ r.memberIds) := by
  rw [implementCollection]
  -- the search method is registered first, and nothing is refused after it
  rcases registerMember_cases (searchMember owner kind element) r with
    ⟨error, run⟩ | ⟨run, there, fresh⟩
  · rw [← searchMember, run_bind_error run]
    exact Or.inl ⟨error, rfl⟩
  · rw [← searchMember, run_bind_ok run]
    exact Or.inr ⟨⟨_, rfl⟩, there, fresh⟩

theorem implementCollection_does (owner : HostId) (kind : CollectionKind) (element : Ty)
    (r : Registry) : r.Does ((implementCollection owner kind element).run r) := by
  rcases implementCollection_cases owner kind element r with
    ⟨error, run⟩ | ⟨⟨c, run⟩, there, fresh⟩
  · rw [run]
    exact .refused
  · rw [run]
    exact .accepted (.collection (m := searchMember owner kind element) there fresh)

theorem perform_does (reg : Registration) (r : Registry) : r.Does ((perform reg).run r) := by
  cases reg with
  | primitives => exact .accepted .primitives
  | type e => exact (registerType_does e r).map _
  | refClass name base interfaces flags => exact (registerType_does _ r).map _
  | struct name => exact (registerType_does _ r).map _
  | interface name parents => exact (registerType_does _ r).map _
  | enum name underlying => exact (registerType_does _ r).map _
  | array element rank => exact (arrayOf_does element rank r).map _
  | member m => exact (registerMember_does m r).map _
  | function space name params returns =>
      exact (registerFunction_does space name params returns r).map _
  | collection owner kind element => exact (implementCollection_does owner kind element r).map _

/-- Accepted or refused, a registration leaves a registry that has grown, or the
one that it found. -/
theorem grows_after (r : Registry) (reg : Registration) : r.Grows (r.after reg) := by
  have done := perform_does reg r
  rw [after]
  generalize (perform reg).run r = end_ at done
  cases done with
  | refused => exact .same
  | accepted grows => exact grows

/-- A registration that would add a type is refused, or it is accepted and adds it. -/
theorem perform_of_adds? {reg : Registration} {r : Registry} {e : TypeEntry}
    (adds : reg.adds? r = some e) :
    (∃ error, (perform reg).run r = (.error error, r))
      ∨ ((∃ answer, (perform reg).run r = (.ok answer, r.insertEntry e))
        ∧ r.names.find? e.name = none ∧ r.entry? e.id = none
        ∧ ∀ p ∈ e.parents, r.has p = true) := by
  have registered : ∀ {x : Registering Ty}, x.run r = (registerType e).run r →
      (∃ error, (Registered.type <$> x).run r = (.error error, r))
        ∨ ((∃ answer, (Registered.type <$> x).run r = (.ok answer, r.insertEntry e))
          ∧ r.names.find? e.name = none ∧ r.entry? e.id = none
          ∧ ∀ p ∈ e.parents, r.has p = true) := by
    intro x same
    rcases registerType_cases e r with ⟨error, run⟩ | ⟨run, fresh⟩
    · exact Or.inl ⟨error, run_bind_error (same.trans run)⟩
    · exact Or.inr ⟨⟨_, run_bind_ok (same.trans run)⟩, fresh⟩
  cases reg with
  | array element rank =>
      rw [Registration.adds?] at adds
      cases named : r.entryNamed? (arrayName (r.typeName element.id) rank) with
      | some present =>
          rw [named] at adds
          cases adds
      | none =>
          rw [named] at adds
          cases adds
          have run := arrayOf_new named
          split at run
          · exact registered run
          · exact Or.inl ⟨_, run_bind_error run⟩
  | primitives => cases adds
  | member => cases adds
  | function => cases adds
  | collection => cases adds
  | _ =>
      cases adds
      exact registered rfl

/-- An array type that is not added is there already. -/
theorem after_array {element : Ty} {rank : Nat} {r : Registry}
    (adds : (Registration.array element rank).adds? r = none) :
    r.after (.array element rank) = r := by
  rw [Registration.adds?] at adds
  cases named : r.entryNamed? (arrayName (r.typeName element.id) rank) with
  | some present => rw [after, perform, registry_map, arrayOf_present named]
  | none =>
      rw [named] at adds
      cases adds

/-- A new type is put down as it is described. -/
theorem after_type {r : Registry} {e : TypeEntry} (name : r.names.find? e.name = none)
    (id : r.entry? e.id = none) (parents : ∀ p ∈ e.parents, r.has p = true) :
    r.after (.type e) = r.insertEntry e := by
  have untaken : ¬ (r.names.has e.name || r.has e.id) = true := by
    unfold Registry.entry? at id
    rw [has, Table.has, Table.has, name, id]
    exact Bool.false_ne_true
  have present : e.parents.find? (fun p => !r.has p) = none := by
    refine List.find?_eq_none.mpr ?_
    intro p hp
    rw [parents p hp]
    exact Bool.false_ne_true
  have accepted : (registerType e).run r = (.ok e.type, r.insertEntry e) := by
    rw [registerType, run_get, if_neg untaken, present]
    rfl
  have run : (perform (.type e)).run r = _ := run_bind_ok accepted
  rw [after, run]
  rfl

/-- A refused registration leaves no trace. -/
theorem perform_error {r r' : Registry} {reg : Registration} {error : RegistrationError}
    (h : (perform reg).run r = (.error error, r')) : r' = r := by
  have done := perform_does reg r
  rw [h] at done
  cases done
  rfl

end Registry

end ExprCompiler
