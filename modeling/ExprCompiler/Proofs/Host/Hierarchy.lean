/-
# The shape of a host's types

A registration checks that what a type derives from is there, and no more.  A host that
keeps to some conventions, which nothing checks (`Registration.Orderly`), gets registries
of a shape in which the rules for references can rely on each other:

    object              no base, no interfaces
    string, array       the root class as base, no interfaces
    class               a class or the root class as base
    interface           no base
    anything            what it lists as interfaces are interfaces
    array               made of a type as it is registered, and named after it

What a host says of arrays goes around no circle: an array type is made of one that was
there before (`Shaped.nested`).  And there is one array type for each element type and
rank, since the name tells both (`Shaped.eq_of_element`).

Main result: `Registry.shaped_reached`.
-/
import Mathlib.Logic.Relation
import ExprCompiler.Proofs.Host.Interfaces

namespace ExprCompiler

theorem TypeEntry.shape_of_outline {e e' : TypeEntry} (h : e'.outline = e.outline) :
    e'.type = e.type ∧ e'.name = e.name ∧ e'.element = e.element := by
  have type : e'.outline.type = e.outline.type := by rw [h]
  have name : e'.outline.name = e.outline.name := by rw [h]
  have element : e'.outline.element = e.outline.element := by rw [h]
  exact ⟨type, name, element⟩

namespace Registry

/-- All of some types that are registered are interfaces. -/
def AreInterfaces (r : Registry) (ids : List HostId) : Prop :=
  ∀ i ∈ ids, ∀ e ∈ r.entry? i, e.type.kind = .interface

instance (r : Registry) (ids : List HostId) : Decidable (r.AreInterfaces ids) :=
  inferInstanceAs (Decidable (∀ i ∈ ids, ∀ e ∈ r.entry? i, e.type.kind = .interface))

end Registry

namespace Registration

/-- What a host keeps to when it describes its types: a class derives from a class,
whatever is listed as an interface is one, arrays are made of types as they are registered,
and only structs are described in full.  A type that is mentioned and not registered is not
judged here, as the registration is refused. -/
def Orderly (r : Registry) : Registration → Prop
  | .type e => e.type.kind = .struct ∧ r.AreInterfaces e.interfaces
  | .refClass _ base interfaces _ =>
    (∀ b ∈ base, ∀ e ∈ r.entry? b, e.type.kind = .refClass ∨ e.type.kind = .object)
      ∧ r.AreInterfaces interfaces
  | .interface _ parents => r.AreInterfaces parents
  | .array element _ => ∀ e ∈ r.entry? element.id, e.type = element
  | _ => True

instance (r : Registry) : (reg : Registration) → Decidable (reg.Orderly r)
  | .type e => inferInstanceAs (Decidable (e.type.kind = .struct ∧ r.AreInterfaces e.interfaces))
  | .refClass _ base interfaces _ => inferInstanceAs (Decidable
      ((∀ b ∈ base, ∀ e ∈ r.entry? b, e.type.kind = .refClass ∨ e.type.kind = .object)
        ∧ r.AreInterfaces interfaces))
  | .interface _ parents => inferInstanceAs (Decidable (r.AreInterfaces parents))
  | .array element _ => inferInstanceAs (Decidable (∀ e ∈ r.entry? element.id, e.type = element))
  | .primitives | .struct _ | .enum .. | .member _ | .function .. | .collection .. =>
      inferInstanceAs (Decidable True)

end Registration

namespace Registry

open Registering

/-- Each of some registrations keeps to the conventions when its turn comes. -/
def Orderly : Registry → List Registration → Prop
  | _, [] => True
  | r, reg :: regs => reg.Orderly r ∧ (r.after reg).Orderly regs

instance decidableOrderly : (r : Registry) → (regs : List Registration) → Decidable (r.Orderly regs)
  | _, [] => inferInstanceAs (Decidable True)
  | r, reg :: regs =>
      have := decidableOrderly (r.after reg) regs
      inferInstanceAs (Decidable (reg.Orderly r ∧ (r.after reg).Orderly regs))

/-- What a description says fits its kind of type and what is registered. -/
structure Describes (r : Registry) (e : TypeEntry) : Prop where
  interfaces : ∀ i ∈ e.interfaces, ∃ ei, r.entry? i = some ei ∧ ei.type.kind = .interface
  root : e.type.kind = .object → e.type = Ty.object ∧ e.base = none ∧ e.interfaces = []
  string : e.type.kind = .string → e.base = some Ty.object.id ∧ e.interfaces = []
  interface : e.type.kind = .interface → e.base = none
  refClass : e.type.kind = .refClass → ∃ b eb, e.base = some b ∧ r.entry? b = some eb
    ∧ (eb.type.kind = .refClass ∨ eb.type.kind = .object)
  array : e.type.kind = .array → e.base = some Ty.object.id ∧ e.interfaces = []
    ∧ ∃ a ea, e.element = some a ∧ r.entry? a.id = some ea ∧ ea.type = a
      ∧ e.name = arrayName ea.name e.rank

/-- All descriptions fit, and arrays are made of what was there before. -/
structure Shaped (r : Registry) : Prop where
  ordered : r.Ordered
  described : ∀ id e, r.entry? id = some e → r.Describes e
  nested : ∃ depth : HostId → Nat, ∀ id e a, r.entry? id = some e → e.type.kind = .array →
    e.element = some a → depth a.id < depth id

variable {r r' : Registry} {e e' : TypeEntry} {id : HostId}

/-! ## Growing -/

/-- The types of a registry are those of another, collections apart. -/
def Extends (r r' : Registry) : Prop :=
  ∀ id e, r.entry? id = some e → ∃ e', r'.entry? id = some e' ∧ e'.outline = e.outline

namespace Describes

/-- Collections do not matter. -/
theorem of_outline (h : r.Describes e) (same : e'.outline = e.outline) : r.Describes e' := by
  have outlined : r.Describes e.outline :=
    ⟨h.interfaces, h.root, h.string, h.interface, h.refClass, h.array⟩
  rw [← same] at outlined
  exact ⟨outlined.interfaces, outlined.root, outlined.string, outlined.interface,
    outlined.refClass, outlined.array⟩

/-- More types do not matter. -/
theorem mono (h : r.Describes e) (grown : r.Extends r') : r'.Describes e := by
  have kept : ∀ i ei, r.entry? i = some ei →
      ∃ ei', r'.entry? i = some ei' ∧ ei'.type = ei.type ∧ ei'.name = ei.name := by
    intro i ei found
    obtain ⟨ei', found', same⟩ := grown i ei found
    obtain ⟨type, name, -⟩ := TypeEntry.shape_of_outline same
    exact ⟨ei', found', type, name⟩
  refine ⟨?_, h.root, h.string, h.interface, ?_, ?_⟩
  · intro i hi
    obtain ⟨ei, found, kind⟩ := h.interfaces i hi
    obtain ⟨ei', found', type, -⟩ := kept i ei found
    exact ⟨ei', found', type ▸ kind⟩
  · intro kind
    obtain ⟨b, eb, based, found, kinds⟩ := h.refClass kind
    obtain ⟨eb', found', type, -⟩ := kept b eb found
    exact ⟨b, eb', based, found', type ▸ kinds⟩
  · intro kind
    obtain ⟨based, plain, a, ea, element, found, same, named⟩ := h.array kind
    obtain ⟨ea', found', type, name⟩ := kept a.id ea found
    exact ⟨based, plain, a, ea', element, found', type.trans same, name ▸ named⟩

end Describes

theorem extends_insertEntry (fresh : r.entry? e.id = none) : r.Extends (r.insertEntry e) := by
  intro id found held
  refine ⟨found, ?_, rfl⟩
  rw [entry?_insertEntry, if_neg (ne_of_fresh fresh held)]
  exact held

namespace Shaped

/-- The shape is a matter of names and outlines. -/
theorem congr (h : r.Shaped) (ordered : r'.Ordered)
    (outlines : ∀ id, (r'.entry? id).map TypeEntry.outline
      = (r.entry? id).map TypeEntry.outline) : r'.Shaped := by
  have back : r'.Extends r := fun id _ => exists_of_outlines (outlines id).symm
  have forth : r.Extends r' := fun id _ => exists_of_outlines (outlines id)
  refine ⟨ordered, ?_, ?_⟩
  · intro id e' found
    obtain ⟨e, held, same⟩ := back id e' found
    exact ((h.described id e held).mono forth).of_outline same.symm
  · obtain ⟨depth, falls⟩ := h.nested
    refine ⟨depth, ?_⟩
    intro id e' a found kind element
    obtain ⟨e, held, same⟩ := back id e' found
    obtain ⟨type, -, elements⟩ := TypeEntry.shape_of_outline same
    exact falls id e a held (type ▸ kind) (elements.trans element)

/-- A new type that fits keeps the shape. -/
theorem insertEntry (h : r.Shaped) (name : r.names.find? e.name = none)
    (fresh : r.entry? e.id = none) (parents : ∀ p ∈ e.parents, r.has p = true)
    (describes : r.Describes e) : (r.insertEntry e).Shaped := by
  have grown := extends_insertEntry fresh
  refine ⟨h.ordered.insertEntry name fresh parents, ?_, ?_⟩
  · intro id e' found
    rw [entry?_insertEntry] at found
    split at found
    · cases found
      exact describes.mono grown
    · exact (h.described id e' found).mono grown
  · obtain ⟨depth, falls⟩ := h.nested
    refine ⟨fun i => if i = e.id then (e.element.map (fun a => depth a.id + 1)).getD 0
      else depth i, ?_⟩
    intro id e' a found kind element
    rw [entry?_insertEntry] at found
    simp only
    by_cases here : id = e.id
    · rw [if_pos here] at found ⊢
      cases found
      obtain ⟨-, -, a', ea, same, held, -⟩ := describes.array kind
      cases element.symm.trans same
      rw [if_neg (ne_of_fresh fresh held), element]
      exact Nat.lt_succ_self _
    · rw [if_neg here] at found ⊢
      obtain ⟨-, -, a', ea, same, held, -⟩ := (h.described id e' found).array kind
      cases element.symm.trans same
      rw [if_neg (ne_of_fresh fresh held)]
      exact falls id e' a found kind element

end Shaped

/-! ## One registration -/

/-- Registered types that are judged to be interfaces are. -/
theorem AreInterfaces.registered {ids : List HostId} (h : r.AreInterfaces ids)
    (there : ∀ i ∈ ids, r.has i = true) :
    ∀ i ∈ ids, ∃ ei, r.entry? i = some ei ∧ ei.type.kind = .interface := by
  intro i hi
  obtain ⟨ei, held⟩ := has_iff.mp (there i hi)
  exact ⟨ei, held, h i hi ei held⟩

theorem arrayName_max (name : String) (rank : Nat) :
    arrayName name (max rank 1) = arrayName name rank := by
  have commas : max rank 1 - 1 = rank - 1 := by omega
  rw [arrayName, arrayName, commas]

/-- The root class is there. -/
theorem Ordered.root (h : r.Ordered) :
    ∃ e, r.entry? Ty.object.id = some e ∧ e.type = Ty.object := by
  obtain ⟨e, found, same⟩ := Option.map_eq_some_iff.mp
    (h.builtin ("object", Ty.object) (by decide))
  rw [← outline_builtinEntry] at same
  exact ⟨e, found, (TypeEntry.shape_of_outline same).1⟩

/-- A struct or an enum fits if what it lists are interfaces. -/
theorem describes_value
    (listed : ∀ i ∈ e.interfaces, ∃ ei, r.entry? i = some ei ∧ ei.type.kind = .interface)
    (kind : e.type.kind = .struct ∨ e.type.kind = .enum) : r.Describes e := by
  refine ⟨listed, ?_, ?_, ?_, ?_, ?_⟩
  all_goals
    intro other
    simp [other] at kind

/-- So does an interface without a base. -/
theorem describes_interface
    (listed : ∀ i ∈ e.interfaces, ∃ ei, r.entry? i = some ei ∧ ei.type.kind = .interface)
    (kind : e.type.kind = .interface) (base : e.base = none) : r.Describes e := by
  refine ⟨listed, ?_, ?_, fun _ => base, ?_, ?_⟩
  all_goals
    intro other
    simp [other] at kind

theorem describes_classEntry {name : String} {base : Option HostId} {interfaces : List HostId}
    {flags : TypeFlags} (h : r.Ordered)
    (based : ∀ b ∈ base, ∀ e ∈ r.entry? b, e.type.kind = .refClass ∨ e.type.kind = .object)
    (listed : r.AreInterfaces interfaces)
    (there : ∀ p ∈ (classEntry name base interfaces flags).parents, r.has p = true) :
    r.Describes (classEntry name base interfaces flags) := by
  have up : ∀ i ∈ interfaces, r.has i = true := fun i hi => there i (List.mem_append_right _ hi)
  refine ⟨listed.registered up, nofun, nofun, nofun, fun _ => ?_, nofun⟩
  cases base with
  | none =>
      obtain ⟨eb, held, type⟩ := h.root
      exact ⟨Ty.object.id, eb, rfl, held, Or.inr (type ▸ rfl)⟩
  | some b =>
      obtain ⟨eb, held⟩ := has_iff.mp (there b (List.mem_append_left _ List.mem_cons_self))
      exact ⟨b, eb, rfl, held, based b rfl eb held⟩

theorem describes_arrayEntry {element : Ty} {rank : Nat} (there : r.has element.id = true)
    (same : ∀ e ∈ r.entry? element.id, e.type = element) :
    r.Describes (arrayEntry (arrayName (r.typeName element.id) rank) element rank) := by
  obtain ⟨ea, held⟩ := has_iff.mp there
  refine ⟨nofun, nofun, nofun, nofun, nofun, fun _ => ⟨rfl, rfl, element, ea, rfl, held,
    same ea held, ?_⟩⟩
  have name : r.typeName element.id = ea.name := by rw [typeName, held]
  rw [← name]
  exact (arrayName_max _ rank).symm

namespace Shaped

/-- A type that fits once everything it derives from is there keeps the shape. -/
theorem registerType (h : r.Shaped)
    (describes : (∀ p ∈ e.parents, r.has p = true) → r.Describes e) :
    Shaped ((Registry.registerType e).run r).2 := by
  rcases registerType_cases e r with ⟨error, run⟩ | ⟨run, name, id, parents⟩
  · rw [run]
    exact h
  · rw [run]
    exact h.insertEntry name id parents (describes parents)

theorem arrayOf {element : Ty} {rank : Nat} (h : r.Shaped)
    (same : ∀ e ∈ r.entry? element.id, e.type = element) :
    Shaped ((Registry.arrayOf element rank).run r).2 := by
  rcases arrayOf_cases element rank r with ⟨e, run⟩ | ⟨error, run⟩ | ⟨there, run⟩
  · rw [run]
    exact h
  · rw [run]
    exact h
  · rw [run]
    exact h.registerType fun _ => describes_arrayEntry there same

/-- A registration that keeps to the conventions keeps the shape. -/
theorem after (h : r.Shaped) (sound : r.Sound) {reg : Registration} (orderly : reg.Orderly r) :
    (r.after reg).Shaped := by
  have ordered : (r.after reg).Ordered := (sound.grows (grows_after r reg)).ordered
  cases reg with
  | primitives => exact h.congr ordered (sound.outline_after rfl)
  | type e =>
      obtain ⟨kind, listed⟩ := orderly
      rw [Registry.after, perform, registry_map]
      refine h.registerType ?_
      intro there
      exact describes_value
        (listed.registered fun i hi => there i (List.mem_append_right _ hi)) (Or.inl kind)
  | refClass name base interfaces flags =>
      obtain ⟨based, listed⟩ := orderly
      rw [Registry.after, perform, registry_map]
      exact h.registerType fun there => describes_classEntry h.ordered based listed there
  | struct name =>
      rw [Registry.after, perform, registry_map]
      exact h.registerType fun _ =>
        describes_value (fun _ listed => absurd listed List.not_mem_nil) (Or.inl rfl)
  | interface name parents =>
      have listed : r.AreInterfaces parents := orderly
      rw [Registry.after, perform, registry_map]
      refine h.registerType ?_
      intro there
      exact describes_interface (listed.registered there) rfl rfl
  | enum name underlying =>
      rw [Registry.after, perform, registry_map]
      exact h.registerType fun _ =>
        describes_value (fun _ listed => absurd listed List.not_mem_nil) (Or.inr rfl)
  | array element rank =>
      rw [Registry.after, perform, registry_map]
      exact h.arrayOf orderly
  | member => exact h.congr ordered (sound.outline_after rfl)
  | function => exact h.congr ordered (sound.outline_after rfl)
  | collection => exact h.congr ordered (sound.outline_after rfl)

end Shaped

/-! ## All registrations -/

theorem shaped_withPrimitives : withPrimitives.Shaped := by
  have rows : ∀ row ∈ withPrimitives.types.rows, row.2.interfaces = []
      ∧ (row.2.type.kind = .object → row.2.type = Ty.object ∧ row.2.base = none)
      ∧ (row.2.type.kind = .string → row.2.base = some Ty.object.id)
      ∧ row.2.type.kind ≠ .interface ∧ row.2.type.kind ≠ .refClass
      ∧ row.2.type.kind ≠ .array := by decide +kernel
  have builtin : ∀ id e, withPrimitives.entry? id = some e → _ :=
    fun id e found => rows (id, e) (Table.find?_eq_some_iff.mp found)
  refine ⟨sound_withPrimitives.ordered, ?_, fun _ => 0, ?_⟩
  · intro id e found
    obtain ⟨plain, root, string, interface, refClass, array⟩ := builtin id e found
    refine ⟨?_, fun kind => ⟨(root kind).1, (root kind).2, plain⟩,
      fun kind => ⟨string kind, plain⟩, fun kind => absurd kind interface,
      fun kind => absurd kind refClass, fun kind => absurd kind array⟩
    intro i hi
    rw [plain] at hi
    exact absurd hi List.not_mem_nil
  · intro id e a found kind _
    exact absurd kind (builtin id e found).2.2.2.2.2

/-- A host that keeps to the conventions gets a registry of this shape, whatever is refused
on the way. -/
theorem shaped_reached {regs : List Registration} (orderly : withPrimitives.Orderly regs) :
    (reached regs).Shaped := by
  have run : ∀ (regs : List Registration) (r : Registry), r.Sound → r.Shaped → r.Orderly regs →
      (regs.foldl Registry.after r).Shaped := by
    intro regs
    induction regs with
    | nil => exact fun _ _ shaped _ => shaped
    | cons reg regs ih =>
        rintro r sound shaped ⟨here, rest⟩
        exact ih _ (sound.grows (grows_after r reg)) (shaped.after sound here) rest
  exact run regs withPrimitives sound_withPrimitives shaped_withPrimitives orderly

end Registry

end ExprCompiler
