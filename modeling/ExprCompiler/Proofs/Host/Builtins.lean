/-
# Writing the built-in types again

The built-in types are written without a check, each in place of whatever is stored under
its identity, and a host may ask for them at any time.  What is there by then is the same
type: nothing else can take the name or the identity of a built-in type, and all that a
registration can add to its description is a collection interface.  So a registry that
began with the built-in types is restored (`Restored`): it has the same names, members,
functions and identities, and the same descriptions but for those collection interfaces,
which the built-in types lose.

It is left as it was exactly if no built-in type implements a collection.  One that does
cannot even be mended: the search method stays behind with its identity, so to register the
interface once more is refused.

Main result: `Registry.primitives_restored`.
-/
import ExprCompiler.Proofs.Host.Bases
import ExprCompiler.Proofs.Host.Interfaces

namespace ExprCompiler

namespace Registry

variable {r r' : Registry} {id : HostId}

/-! ## What is kept -/

/-- The identities of the built-in types. -/
def builtinIds : List HostId := Ty.builtins.map (·.2.id)

/-- Nothing has changed but for collection interfaces that built-in types have lost. -/
structure Restored (r r' : Registry) : Prop where
  builtin : ∀ id ∈ builtinIds, r'.entry? id = (r.entry? id).map TypeEntry.outline
  others : ∀ id, id ∉ builtinIds → r'.entry? id = r.entry? id
  names : ∀ name, r'.names.find? name = r.names.find? name
  members : r'.memberTable = r.memberTable
  functions : r'.functionTable = r.functionTable
  ids : r'.memberIds = r.memberIds

theorem mem_builtinIds : id ∈ builtinIds ↔ ∃ b ∈ Ty.builtins, b.2.id = id := List.mem_map

/-- Where the length of strings is known, no member is added. -/
theorem registerPrimitives_of_hasMember (known : stringLength.id ∈ r.memberIds) :
    r.registerPrimitives
      = Ty.builtins.foldl (fun r b => r.insertEntry (builtinEntry b.1 b.2)) r := by
  rw [registerPrimitives]
  refine if_pos (hasMember_iff.mpr ?_)
  rw [(stores_foldl_builtinEntry Ty.builtins r).2.2]
  exact known

/-- An identity that is taken stays taken. -/
theorem Grows.mem_memberIds (growth : r.Grows r') (taken : id ∈ r.memberIds) :
    id ∈ r'.memberIds := by
  cases growth with
  | same => exact taken
  | primitives =>
      have kept := (stores_foldl_builtinEntry Ty.builtins r).2.2
      rw [registerPrimitives]
      split
      · rw [kept]
        exact taken
      · refine List.mem_cons_of_mem _ ?_
        rw [kept]
        exact taken
  | type _ _ _ => exact taken
  | member _ _ => exact List.mem_cons_of_mem _ taken
  | function _ => exact List.mem_cons_of_mem _ taken
  | collection _ _ => exact List.mem_cons_of_mem _ taken

theorem stringLength_mem_reached (regs : List Registration) :
    stringLength.id ∈ (reached regs).memberIds := by
  have first : stringLength.id ∈ withPrimitives.memberIds := by decide +kernel
  refine List.foldlRecOn (motive := fun r => stringLength.id ∈ r.memberIds) regs after first ?_
  intro r known reg _
  exact (grows_after r reg).mem_memberIds known

/-- Names follow from the descriptions. -/
theorem Ordered.names_eq (h : r.Ordered) (h' : r'.Ordered)
    (outlines : ∀ id, (r'.entry? id).map TypeEntry.outline
      = (r.entry? id).map TypeEntry.outline) (name : String) :
    r'.names.find? name = r.names.find? name := by
  have carried : ∀ {r r' : Registry}, (∀ id, (r'.entry? id).map TypeEntry.outline
      = (r.entry? id).map TypeEntry.outline) → ∀ id, (∃ e, r.entry? id = some e ∧ e.name = name) →
      ∃ e, r'.entry? id = some e ∧ e.name = name := by
    rintro r r' outlines id ⟨e, found, rfl⟩
    obtain ⟨e', found', same⟩ := exists_of_outlines (outlines id) found
    exact ⟨e', found', (TypeEntry.eq_of_outline same).1⟩
  refine Option.ext fun id => ?_
  rw [h.index, h'.index]
  exact ⟨carried (fun id => (outlines id).symm) id, carried outlines id⟩

theorem Sound.restored (h : r.Sound) (known : stringLength.id ∈ r.memberIds) :
    r.Restored r.registerPrimitives := by
  have outlines := h.outline_registerPrimitives
  obtain ⟨members, functions, ids⟩ := stores_foldl_builtinEntry Ty.builtins r
  rw [← registerPrimitives_of_hasMember known] at members functions ids
  refine ⟨?_, ?_, h.ordered.names_eq h.registerPrimitives.ordered outlines, members, functions,
    ids⟩
  · intro id builtin
    rcases r.entry?_registerPrimitives id with ⟨b, hb, rfl, found⟩ | ⟨others, -⟩
    · rw [found, h.ordered.builtin b hb]
    · obtain ⟨b, hb, same⟩ := mem_builtinIds.mp builtin
      exact absurd same (others b hb)
  · intro id other
    rcases r.entry?_registerPrimitives id with ⟨b, hb, same, -⟩ | ⟨-, found⟩
    · exact absurd (mem_builtinIds.mpr ⟨b, hb, same⟩) other
    · exact found

/-! ## What is answered -/

section Answers

variable (outlines : ∀ id, (r'.entry? id).map TypeEntry.outline
  = (r.entry? id).map TypeEntry.outline)

include outlines

theorem typeName_of_outlines (id : HostId) : r'.typeName id = r.typeName id := by
  have named : ∀ r : Registry, r.typeName id
      = (((r.entry? id).map TypeEntry.outline).map (·.name)).getD id.text := by
    intro r
    rw [typeName]
    cases r.entry? id <;> rfl
  rw [named, named, outlines]

theorem base?_of_outlines (id : HostId) : r'.base? id = r.base? id := by
  have based : ∀ r : Registry, r.base? id
      = ((r.entry? id).map TypeEntry.outline).bind (·.base) := by
    intro r
    rw [base?]
    cases r.entry? id <;> rfl
  rw [based, based, outlines]

theorem lineage_of_outlines (id : HostId) : r'.lineage id = r.lineage id := by
  rw [lineage_eq (Nat.le_max_left (r'.edgeCount + 1) (r.edgeCount + 1)),
    lineage_eq (Nat.le_max_right (r'.edgeCount + 1) (r.edgeCount + 1))]
  exact lineageFrom_congr (P := fun _ => True) (fun _ _ _ _ => trivial)
    (fun x _ => parents_of_outlines (outlines x)) (fun _ _ => trivial)

theorem implements_of_outlines (id interface : HostId) :
    r'.implements id interface = r.implements id interface := by
  have listed : ∀ (r : Registry) (x : HostId),
      (r.entry? x).any (·.interfaces.contains interface)
        = ((r.entry? x).map TypeEntry.outline).any (·.interfaces.contains interface) := by
    intro r x
    cases r.entry? x <;> rfl
  rw [implements_eq_any, implements_eq_any, lineage_of_outlines outlines]
  simp only [listed, outlines]

theorem baseChain_of_outlines (h : r.Grounded) (id : HostId) :
    r'.baseChain id = r.baseChain id := by
  rw [(h.congr outlines).baseChain_eq (Nat.le_max_left (r'.typeCount + 1) (r.typeCount + 1)),
    h.baseChain_eq (Nat.le_max_right (r'.typeCount + 1) (r.typeCount + 1))]
  exact baseChainFrom_congr (P := fun _ => True) (fun _ _ _ _ => trivial)
    (fun x _ => base?_of_outlines outlines x) trivial

/-- The types are counted by their identities. -/
theorem typeCount_of_outlines : r'.typeCount = r.typeCount := by
  have key : ∀ (r : Registry) (x : HostId),
      x ∈ r.types.rows.map (·.1) ↔ ((r.entry? x).map TypeEntry.outline).isSome := by
    intro r x
    rw [Option.isSome_map, Option.isSome_iff_exists, List.mem_map]
    constructor
    · rintro ⟨row, held, rfl⟩
      exact ⟨row.2, Table.find?_eq_some_iff.mpr held⟩
    · rintro ⟨e, found⟩
      exact ⟨(x, e), Table.find?_eq_some_iff.mp found, rfl⟩
  have same : (r'.types.rows.map (·.1)).Perm (r.types.rows.map (·.1)) := by
    refine (List.perm_ext_iff_of_nodup r'.types.distinct r.types.distinct).mpr ?_
    intro x
    rw [key, key, outlines]
  have count := same.length_eq
  rw [List.length_map, List.length_map] at count
  exact count

end Answers

namespace Restored

theorem outlines (h : r.Restored r') (id : HostId) :
    (r'.entry? id).map TypeEntry.outline = (r.entry? id).map TypeEntry.outline := by
  by_cases builtin : id ∈ builtinIds
  · rw [h.builtin id builtin, Option.map_map]
    rfl
  · rw [h.others id builtin]

theorem resolve (h : r.Restored r') (name : String) (scope : Scope) (ignoreCase : Bool) :
    r'.resolve name scope ignoreCase = r.resolve name scope ignoreCase := by
  have declared : r'.declared = r.declared := by
    funext owner
    rw [Registry.declared, Registry.declared, h.members]
  cases scope with
  | type id => simp only [Registry.resolve, lineage_of_outlines h.outlines, declared]
  | space space => simp only [Registry.resolve, declaredIn, h.functions]

theorem ownCollections (h : r.Restored r') (id : HostId) :
    r'.ownCollections id = if id ∈ builtinIds then [] else r.ownCollections id := by
  rw [Registry.ownCollections]
  split
  · next builtin =>
      rw [h.builtin id builtin]
      cases r.entry? id <;> rfl
  · next other =>
      rw [h.others id other]
      rfl

/-- Where no built-in type implements a collection, nothing has changed. -/
theorem entry?_eq_iff (h : r.Restored r') :
    (∀ id, r'.entry? id = r.entry? id) ↔ ∀ id ∈ builtinIds, r.ownCollections id = [] := by
  constructor
  · intro same id builtin
    have kept := h.ownCollections id
    rw [if_pos builtin, Registry.ownCollections, same] at kept
    exact kept
  · intro without id
    by_cases builtin : id ∈ builtinIds
    · have none_own := without id builtin
      rw [h.builtin id builtin]
      rw [Registry.ownCollections] at none_own
      cases found : r.entry? id with
      | none => rfl
      | some e =>
          rw [found, Option.elim_some] at none_own
          rw [Option.map_some, TypeEntry.outline, ← none_own]
    · exact h.others id builtin

/-- Membership tests go on as before, but for those that come to a built-in type which
implements a collection. -/
theorem collectionInterface? (h : r.Restored r') (grounded : r.Grounded)
    (without : ∀ x ∈ r.baseChain id, x ∈ builtinIds → r.ownCollections x = []) :
    r'.collectionInterface? id = r.collectionInterface? id := by
  rw [Registry.collectionInterface?, Registry.collectionInterface?, flatMap_collections,
    flatMap_collections, baseChain_of_outlines h.outlines grounded]
  refine congrArg (List.foldl betterCollection none) (List.flatMap_congr ?_)
  intro x hx
  rw [h.ownCollections x]
  split
  · next builtin => exact (without x hx builtin).symm
  · rfl

end Restored

/-- In a registry that began with the built-in types, whatever has been registered or
refused since, to write them once more takes the collection interfaces from the built-in
types and leaves all else as it is: descriptions, names, members, functions and identities.
So all look-ups have the answers they had, but for collection interfaces, and the registry
is the same exactly if no built-in type implements a collection. -/
theorem primitives_restored (regs : List Registration) :
    let r := reached regs
    let r' := r.registerPrimitives
    r.Restored r'
      ∧ (∀ id, r'.typeName id = r.typeName id) ∧ r'.typeCount = r.typeCount
      ∧ (∀ id base, r'.inheritanceDistance? id base = r.inheritanceDistance? id base)
      ∧ (∀ id interface, r'.implements id interface = r.implements id interface)
      ∧ (∀ name scope ignoreCase,
        r'.resolve name scope ignoreCase = r.resolve name scope ignoreCase)
      ∧ (∀ id, (∀ x ∈ r.baseChain id, x ∈ builtinIds → r.ownCollections x = []) →
        r'.collectionInterface? id = r.collectionInterface? id)
      ∧ ((∀ id, r'.entry? id = r.entry? id) ↔ ∀ id ∈ builtinIds, r.ownCollections id = []) := by
  intro r r'
  have sound : r.Sound := sound_reached regs
  have grounded := sound.ordered.grounded
  have restored : r.Restored r' := sound.restored (stringLength_mem_reached regs)
  have outlines := restored.outlines
  refine ⟨restored, typeName_of_outlines outlines, typeCount_of_outlines outlines, ?_,
    implements_of_outlines outlines, restored.resolve,
    fun id => restored.collectionInterface? grounded, restored.entry?_eq_iff⟩
  intro id base
  rw [inheritanceDistance?, inheritanceDistance?, baseChain_of_outlines outlines grounded]

/-- A collection of characters on a class of the host, which is no built-in type. -/
def letters : List Registration :=
  [.refClass "Letters" none [] .empty,
    .collection (HostId.ofName "Letters") .collection (Ty.numeric .char)]

theorem primitives_restored_letters :
    (∀ x ∈ (reached letters).baseChain (HostId.ofName "Letters"), x ∈ builtinIds →
        (reached letters).ownCollections x = [])
      ∧ (reached letters).registerPrimitives.collectionInterface? (HostId.ofName "Letters")
        = (reached letters).collectionInterface? (HostId.ofName "Letters")
      ∧ ((reached letters).collectionInterface? (HostId.ofName "Letters")).isSome = true := by
  have without : ∀ x ∈ (reached letters).baseChain (HostId.ofName "Letters"),
      x ∈ builtinIds → (reached letters).ownCollections x = [] := by decide +kernel
  exact ⟨without, (primitives_restored letters).2.2.2.2.2.2.1 _ without, by decide +kernel⟩

/-- Strings, searched for characters. -/
def searchedStrings : List Registration :=
  [.collection Ty.string.id .collection (Ty.numeric .char)]

/-- Strings lose their collection interface, and it cannot be given back. -/
theorem primitives_drop_collection :
    Registry.entry? (reached searchedStrings).registerPrimitives Ty.string.id
        ≠ Registry.entry? (reached searchedStrings) Ty.string.id
      ∧ ((reached searchedStrings).ownCollections Ty.string.id).map (·.kind) = [.collection]
      ∧ (reached searchedStrings).registerPrimitives.ownCollections Ty.string.id = []
      ∧ ((perform (.collection Ty.string.id .collection (Ty.numeric .char))).run
          (reached searchedStrings).registerPrimitives).1
        = .error (.duplicateMember "contains" "string") := by
  refine ⟨?_, ?_, ?_, ?_⟩ <;> decide +kernel

end Registry

end ExprCompiler
