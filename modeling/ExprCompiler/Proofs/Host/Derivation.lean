/-
# What references derive from

In a registry of the right shape (`Shaped`) a path over bases and interfaces stays among
the reference types, and it runs in one way only: first up the classes, then, once it has
come to an interface, over interfaces.  So the two walks of a registry, along the base
classes and in search of an interface, between them find every path:

* to a type that is no interface the whole path is a chain of bases
  (`Shaped.inherits_of_derives`);
* to an interface the last step is one that lists it (`Shaped.implements_of_derives`).

At both ends there is little to find.  Nothing derives from a string or an array, and
those derive from the root class only (`Shaped.eq_of_derives`, `Shaped.derives_leaf`).

An array is known by what it is made of (`Shaped.array_eq`), and arrays are not nested
deeper than there are types (`Shaped.depth_le`).
-/
import Mathlib.Data.Finset.Card
import ExprCompiler.Proofs.Host.Hierarchy

namespace ExprCompiler

open Relation (ReflTransGen)

namespace Registry

/-- A type as it is registered. -/
def Knows (r : Registry) (t : Ty) : Prop := ∃ e, r.entry? t.id = some e ∧ e.type = t

/-- A registered type whose values are references, other than the type of null. -/
structure Reference (r : Registry) (t : Ty) : Prop where
  known : r.Knows t
  held : t.isReference = true
  notNull : t.isNull = false

/-- An array type made of some element type, with its number of dimensions. -/
structure ArrayOf (r : Registry) (t element : Ty) (rank : Nat) : Prop where
  kind : t.kind = .array
  entry : ∃ e, r.entry? t.id = some e ∧ e.type = t ∧ e.element = some element ∧ e.rank = rank

/-- The second class is among the bases of the first. -/
def Inherits (r : Registry) : HostId → HostId → Prop :=
  ReflTransGen fun derived base => r.base? derived = some base

variable {r : Registry} {s t u a b : Ty} {id x y : HostId} {rank rank' : Nat}

theorem knows_iff : r.Knows t ↔ (r.entry? t.id).map TypeEntry.type = some t :=
  Option.map_eq_some_iff.symm

instance : Decidable (r.Knows t) := decidable_of_iff _ knows_iff.symm

theorem reference_iff :
    r.Reference t ↔ r.Knows t ∧ t.isReference = true ∧ t.isNull = false :=
  ⟨fun h => ⟨h.known, h.held, h.notNull⟩, fun h => ⟨h.1, h.2.1, h.2.2⟩⟩

instance : Decidable (r.Reference t) := decidable_of_iff _ reference_iff.symm

theorem Knows.eq (hs : r.Knows s) (ht : r.Knows t) (same : s.id = t.id) :
    s = t := by
  obtain ⟨e, found, rfl⟩ := hs
  obtain ⟨e', found', rfl⟩ := ht
  rw [same, found'] at found
  cases found
  rfl

namespace ArrayOf

theorem known (h : r.ArrayOf t a rank) : r.Knows t := by
  obtain ⟨-, e, found, type, -⟩ := h
  exact ⟨e, found, type⟩

/-- An array has one element type and one rank. -/
theorem unique (ha : r.ArrayOf t a rank) (hb : r.ArrayOf t b rank') : a = b ∧ rank = rank' := by
  obtain ⟨-, e, found, -, element, rfl⟩ := ha
  obtain ⟨-, e', found', -, element', rfl⟩ := hb
  rw [found] at found'
  cases found'
  rw [element] at element'
  exact ⟨Option.some.inj element', rfl⟩

end ArrayOf

/-! ## Levels -/

/-- Levels that fall along a relation to registered types need not be more than there are
types. -/
theorem exists_depth {E : HostId → HostId → Prop} {level : HostId → Nat}
    (there : ∀ id x, E id x → r.has x = true) (falls : ∀ id x, E id x → level x < level id) :
    ∃ depth : HostId → Nat, (∀ id, depth id ≤ r.typeCount)
      ∧ ∀ id x, E id x → depth x < depth id := by
  -- how many types are on lower levels
  let keys := (r.types.rows.map (·.1)).toFinset
  refine ⟨fun id => (keys.filter (level · < level id)).card, ?_, ?_⟩
  · intro id
    refine (Finset.card_filter_le _ _).trans ((List.toFinset_card_le _).trans ?_)
    rw [List.length_map]
    exact Nat.le_refl _
  · intro id x edge
    have lower := falls id x edge
    obtain ⟨e, found⟩ := has_iff.mp (there id x edge)
    have key : x ∈ keys := List.mem_toFinset.mpr
      (List.mem_map.mpr ⟨(x, e), Table.find?_eq_some_iff.mp found, rfl⟩)
    refine Finset.card_lt_card (Finset.ssubset_iff_of_subset ?_ |>.mpr ⟨x, ?_, ?_⟩)
    · intro y hy
      obtain ⟨held, below⟩ := Finset.mem_filter.mp hy
      exact Finset.mem_filter.mpr ⟨held, below.trans lower⟩
    · exact Finset.mem_filter.mpr ⟨key, lower⟩
    · intro self
      exact Nat.lt_irrefl _ (Finset.mem_filter.mp self).2

/-! ## Along the base classes -/

theorem derives_of_base? (h : r.base? x = some y) : r.Derives x y := mem_parents_of_base? h

theorem Inherits.derives (h : r.Inherits x y) : ReflTransGen r.Derives x y :=
  ReflTransGen.mono (fun _ _ => derives_of_base?) _ _ h

theorem inherits_of_mem_baseChainFrom {fuel : Nat} (h : y ∈ r.baseChainFrom fuel x) :
    r.Inherits x y := by
  induction fuel generalizing x with
  | zero => exact absurd h List.not_mem_nil
  | succ fuel ih =>
      rw [baseChainFrom_succ] at h
      rcases List.mem_cons.mp h with rfl | above
      · exact .refl
      · cases based : r.base? x with
        | none =>
            rw [based] at above
            exact absurd above List.not_mem_nil
        | some base =>
            rw [based] at above
            exact (ih above).head based

/-- The chain of a type has all its bases. -/
theorem Grounded.mem_baseChain_iff (h : r.Grounded) : y ∈ r.baseChain x ↔ r.Inherits x y := by
  refine ⟨inherits_of_mem_baseChainFrom, ?_⟩
  intro path
  induction path using ReflTransGen.head_induction_on with
  | refl =>
      rw [baseChain, baseChainFrom_succ]
      exact List.mem_cons_self
  | head based _ ih =>
      rw [h.baseChain_base based]
      exact List.mem_cons_of_mem _ ih

/-- There is a distance to the bases and to nothing else. -/
theorem Grounded.isSome_inheritanceDistance? (h : r.Grounded) :
    (r.inheritanceDistance? x y).isSome ↔ r.Inherits x y := by
  rw [inheritanceDistance?, List.isSome_idxOf?, h.mem_baseChain_iff]

/-- Of two bases of one type, one is a base of the other. -/
theorem Inherits.total (hx : r.Inherits id x) (hy : r.Inherits id y) :
    r.Inherits x y ∨ r.Inherits y x :=
  hx.total_of_right_unique (fun _ _ _ h h' => Option.some.inj (h.symm.trans h')) hy

/-! ## Over bases and interfaces -/

/-- Two types that derive from each other are one. -/
theorem Ordered.derives_antisymm (h : r.Ordered) (up : ReflTransGen r.Derives x y)
    (down : ReflTransGen r.Derives y x) : x = y := by
  rcases Relation.reflTransGen_iff_eq_or_transGen.mp up with same | path
  · exact same.symm
  · exact absurd (path.trans_left down) (h.acyclic x)

namespace Shaped

theorem knows_type (h : r.Shaped) {e : TypeEntry} (found : r.entry? id = some e) :
    r.Knows e.type := by
  have keyed : e.type.id = id := h.ordered.keyed id e found
  exact ⟨e, keyed.symm ▸ found, rfl⟩

theorem root (h : r.Shaped) : r.Reference Ty.object := by
  obtain ⟨e, found, type⟩ := h.ordered.root
  exact ⟨⟨e, found, type⟩, rfl, rfl⟩

/-- The root class is the only type of its kind. -/
theorem eq_root (h : r.Shaped) (ht : r.Knows t) (kind : t.kind = .object) :
    t = Ty.object := by
  obtain ⟨e, found, rfl⟩ := ht
  exact ((h.described _ e found).root kind).1

/-- What a reference type lists as its base is a class or the root class, and it is no
interface itself. -/
theorem base_class (h : r.Shaped) (hs : r.Reference s) (based : r.base? s.id = some x) :
    s.kind ≠ .interface ∧ ∃ t, r.Reference t ∧ t.id = x
      ∧ (t = Ty.object ∨ s.kind = .refClass ∧ t.kind = .refClass) := by
  obtain ⟨⟨e, found, rfl⟩, held, notNull⟩ := hs
  have describes := h.described _ e found
  rw [base?, found, Option.bind_some] at based
  have toRoot : e.base = some Ty.object.id → ∃ t, r.Reference t ∧ t.id = x
      ∧ (t = Ty.object ∨ e.type.kind = .refClass ∧ t.kind = .refClass) := by
    intro rooted
    rw [rooted] at based
    exact ⟨Ty.object, h.root, Option.some.inj based, Or.inl rfl⟩
  cases kind : e.type.kind with
  | object =>
      rw [(describes.root kind).2.1] at based
      cases based
  | interface =>
      rw [describes.interface kind] at based
      cases based
  | string => exact ⟨nofun, kind ▸ toRoot (describes.string kind).1⟩
  | array => exact ⟨nofun, kind ▸ toRoot (describes.array kind).1⟩
  | refClass =>
      obtain ⟨b, eb, base, foundBase, kinds⟩ := describes.refClass kind
      rw [base] at based
      cases based
      have there := h.knows_type foundBase
      refine ⟨nofun, eb.type, ⟨there, ?_, ?_⟩, h.ordered.keyed _ eb foundBase, ?_⟩
      · rcases kinds with kindBase | kindBase <;> rw [Ty.isReference, kindBase]
      · rcases kinds with kindBase | kindBase <;> rw [Ty.isNull, kindBase] <;> rfl
      · rcases kinds with kindBase | kindBase
        · exact Or.inr ⟨rfl, kindBase⟩
        · exact Or.inl (h.eq_root there kindBase)
  | null => simp [Ty.isNull, kind] at notNull
  | void | bool | numeric | enum | struct => simp [Ty.isReference, kind] at held

/-- What a type lists as an interface is one. -/
theorem lists_interface (h : r.Shaped) (listed : r.Lists id x) :
    ∃ t, r.Reference t ∧ t.id = x ∧ t.kind = .interface := by
  obtain ⟨e, found, he⟩ := listed
  obtain ⟨ei, foundInterface, kind⟩ := (h.described id e found).interfaces x he
  refine ⟨ei.type, ⟨h.knows_type foundInterface, ?_, ?_⟩, h.ordered.keyed x ei foundInterface,
    kind⟩
  · rw [Ty.isReference, kind]
  · rw [Ty.isNull, kind]
    rfl

end Shaped

theorem derives_cases (h : r.Derives x y) : r.base? x = some y ∨ r.Lists x y := by
  cases found : r.entry? x with
  | none =>
      rw [Derives, parents, found] at h
      exact absurd h List.not_mem_nil
  | some e =>
      rw [Derives, parents_of_found found] at h
      rcases List.mem_append.mp h with base | listed
      · refine Or.inl ?_
        rw [base?, found, Option.bind_some]
        exact Option.mem_toList.mp base
      · exact Or.inr ⟨e, found, listed⟩

theorem derives_of_lists (h : r.Lists x y) : r.Derives x y := by
  obtain ⟨e, found, listed⟩ := h
  rw [Derives, parents_of_found found]
  exact List.mem_append_right _ listed

theorem derives_of_implements (h : r.implements x y = true) : ReflTransGen r.Derives x y := by
  obtain ⟨ancestor, path, listed⟩ := implements_iff.mp h
  exact path.tail (derives_of_lists listed)

namespace Shaped

/-- A path from a reference type leads to one. -/
theorem reference_of_derives (h : r.Shaped) (hs : r.Reference s)
    (path : ReflTransGen r.Derives s.id x) : ∃ t, r.Reference t ∧ t.id = x := by
  induction path with
  | refl => exact ⟨s, hs, rfl⟩
  | tail _ edge ih =>
      obtain ⟨t, ht, rfl⟩ := ih
      rcases derives_cases edge with based | listed
      · obtain ⟨-, u, hu, same, -⟩ := h.base_class ht based
        exact ⟨u, hu, same⟩
      · obtain ⟨u, hu, same, -⟩ := h.lists_interface listed
        exact ⟨u, hu, same⟩

/-- The last step of a path is to a base, which is a class, or to an interface that is
listed. -/
theorem derives_last (h : r.Shaped) (hs : r.Reference s) (ht : r.Reference t)
    (path : ReflTransGen r.Derives s.id t.id) : s = t ∨ ∃ u, r.Reference u
      ∧ ReflTransGen r.Derives s.id u.id
      ∧ (r.base? u.id = some t.id ∧ (t = Ty.object ∨ u.kind = .refClass ∧ t.kind = .refClass)
        ∨ r.Lists u.id t.id ∧ t.kind = .interface) := by
  rcases ReflTransGen.cases_tail path with same | ⟨y, path, edge⟩
  · exact Or.inl (hs.known.eq ht.known same.symm)
  · obtain ⟨u, hu, rfl⟩ := h.reference_of_derives hs path
    refine Or.inr ⟨u, hu, path, ?_⟩
    rcases derives_cases edge with based | listed
    · obtain ⟨-, b, hb, same, kinds⟩ := h.base_class hu based
      rw [hb.known.eq ht.known same] at kinds
      exact Or.inl ⟨based, kinds⟩
    · obtain ⟨i, hi, same, interface⟩ := h.lists_interface listed
      rw [hi.known.eq ht.known same] at interface
      exact Or.inr ⟨listed, interface⟩

/-- A path to anything but an interface is a chain of bases. -/
theorem inherits_of_derives (h : r.Shaped) (hs : r.Reference s) (ht : r.Reference t)
    (kind : t.kind ≠ .interface) (path : ReflTransGen r.Derives s.id t.id) :
    r.Inherits s.id t.id := by
  generalize target : t.id = x at path
  induction path generalizing t with
  | refl => exact .refl
  | tail path edge ih =>
      obtain ⟨u, hu, rfl⟩ := h.reference_of_derives hs path
      rcases derives_cases edge with based | listed
      · exact (ih hu (h.base_class hu based).1 rfl).tail based
      · obtain ⟨i, hi, same, interface⟩ := h.lists_interface listed
        rw [hi.known.eq ht.known (same.trans target.symm)] at interface
        exact absurd interface kind

/-- A path to an interface ends with a type that lists it. -/
theorem implements_of_derives (h : r.Shaped) (hs : r.Reference s) (ht : r.Reference t)
    (kind : t.kind = .interface) (path : ReflTransGen r.Derives s.id t.id) :
    s = t ∨ r.implements s.id t.id = true := by
  rcases h.derives_last hs ht path with same | ⟨u, -, path, ⟨-, rfl | ⟨-, class_⟩⟩ | ⟨listed, -⟩⟩
  · exact Or.inl same
  · exact absurd kind nofun
  · rw [kind] at class_
    cases class_
  · exact Or.inr (implements_iff.mpr ⟨u.id, path, listed⟩)

/-- Nothing but itself derives from a string or an array. -/
theorem eq_of_derives (h : r.Shaped) (hs : r.Reference s) (ht : r.Reference t)
    (kind : t.kind = .string ∨ t.kind = .array) (path : ReflTransGen r.Derives s.id t.id) :
    s = t := by
  rcases h.derives_last hs ht path with same | ⟨u, -, -, ⟨-, rfl | ⟨-, class_⟩⟩ | ⟨-, interface⟩⟩
  · exact same
  · simp [Ty.object] at kind
  · simp [class_] at kind
  · simp [interface] at kind

/-- The root class derives from itself only. -/
theorem derives_root (h : r.Shaped) (path : ReflTransGen r.Derives Ty.object.id x) :
    x = Ty.object.id := by
  rcases ReflTransGen.cases_head path with same | ⟨y, edge, -⟩
  · exact same.symm
  · obtain ⟨e, found, type⟩ := h.ordered.root
    obtain ⟨-, base, interfaces⟩ := (h.described _ e found).root (type ▸ rfl)
    rw [Derives, parents_of_found found, TypeEntry.parents, base, interfaces] at edge
    exact absurd edge List.not_mem_nil

/-- A string or an array derives from the root class only. -/
theorem derives_leaf (h : r.Shaped) (hs : r.Knows s)
    (kind : s.kind = .string ∨ s.kind = .array) (path : ReflTransGen r.Derives s.id x) :
    x = s.id ∨ x = Ty.object.id := by
  rcases ReflTransGen.cases_head path with same | ⟨y, edge, path⟩
  · exact Or.inl same.symm
  · obtain ⟨e, found, rfl⟩ := hs
    have describes := h.described _ e found
    have rooted : e.base = some Ty.object.id ∧ e.interfaces = [] := by
      rcases kind with string | array
      · exact describes.string string
      · exact ⟨(describes.array array).1, (describes.array array).2.1⟩
    rw [Derives, parents_of_found found, TypeEntry.parents, rooted.1, rooted.2] at edge
    cases List.mem_singleton.mp edge
    exact Or.inr (h.derives_root path)

/-! ## Arrays -/

/-- What an array is made of is there. -/
theorem exists_arrayOf (h : r.Shaped) (ht : r.Knows t) (kind : t.kind = .array) :
    ∃ a rank, r.ArrayOf t a rank ∧ r.Knows a := by
  obtain ⟨e, found, rfl⟩ := ht
  obtain ⟨-, -, a, ea, element, foundElement, type, -⟩ := (h.described _ e found).array kind
  exact ⟨a, e.rank, ⟨kind, e, found, rfl, element, rfl⟩, ea, foundElement, type⟩

theorem knows_of_arrayOf (h : r.Shaped) (array : r.ArrayOf t a rank) : r.Knows a := by
  obtain ⟨a', rank', made, there⟩ := h.exists_arrayOf array.known array.kind
  rw [(array.unique made).1]
  exact there

/-- There is one array type for each element type and rank. -/
theorem array_eq (h : r.Shaped) (arrayS : r.ArrayOf s a rank) (arrayT : r.ArrayOf t a rank) :
    s = t := by
  -- both are called after the element and the rank, and a name stands for one type
  have named : ∀ u, r.ArrayOf u a rank → ∃ ea, r.entry? a.id = some ea
      ∧ r.names.find? (arrayName ea.name rank) = some u.id := by
    rintro u ⟨kind, e, found, rfl, element, rfl⟩
    obtain ⟨-, -, a', ea, element', foundElement, -, name⟩ := (h.described _ e found).array kind
    cases element.symm.trans element'
    exact ⟨ea, foundElement, (h.ordered.index _ _).mpr ⟨e, found, name⟩⟩
  obtain ⟨ea, foundElement, nameS⟩ := named s arrayS
  obtain ⟨ea', foundElement', nameT⟩ := named t arrayT
  rw [foundElement] at foundElement'
  cases foundElement'
  exact arrayS.known.eq arrayT.known (Option.some.inj (nameS.symm.trans nameT))

/-- Arrays are not nested deeper than there are types. -/
theorem depth_le (h : r.Shaped) : ∃ depth : HostId → Nat, (∀ id, depth id ≤ r.typeCount)
    ∧ ∀ t a rank, r.ArrayOf t a rank → depth a.id < depth t.id := by
  obtain ⟨level, falls⟩ := h.nested
  have there : ∀ id x, (∃ t a rank, r.ArrayOf t a rank ∧ t.id = id ∧ a.id = x) →
      r.has x = true := by
    rintro _ _ ⟨t, a, rank, array, rfl, rfl⟩
    obtain ⟨ea, found, -⟩ := h.knows_of_arrayOf array
    exact has_iff.mpr ⟨ea, found⟩
  have lower : ∀ id x, (∃ t a rank, r.ArrayOf t a rank ∧ t.id = id ∧ a.id = x) →
      level x < level id := by
    rintro _ _ ⟨t, a, rank, ⟨kind, e, found, rfl, element, -⟩, rfl, rfl⟩
    exact falls _ e a found kind element
  obtain ⟨depth, bounded, deeper⟩ := exists_depth there lower
  exact ⟨depth, bounded, fun t a rank array => deeper t.id a.id ⟨t, a, rank, array, rfl, rfl⟩⟩

end Shaped

end Registry

end ExprCompiler
