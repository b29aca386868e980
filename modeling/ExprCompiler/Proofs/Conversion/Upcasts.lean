/-
# Upcasts form a partial order

Four rules decide whether one reference type upcasts to another: the chain of bases, the
root class, the search for an interface, and, for arrays, the same question asked of their
elements.  Each is computed in its own way.  Here they are brought under one relation that
nothing computes, `Sub`:

    s ≤ t         if a path over bases and interfaces leads from s to t
    s ≤ object
    s[] ≤ t[]     if s ≤ t, both are references, and the ranks are the same

In a registry of the right shape the upcasts are exactly this relation
(`Shaped.exists_upcast_iff_sub`), which is an order by induction on its last rule: an array
has nothing above it but the root class and arrays, and what is below it are arrays.

Main result: `Registry.widens_partialOrder`.
-/
import Mathlib.Order.Defs.Unbundled
import ExprCompiler.Proofs.Conversion.Descent

namespace ExprCompiler

open Relation (ReflTransGen)

namespace Registry

/-- One reference type is below another. -/
inductive Sub (r : Registry) : Ty → Ty → Prop
  /-- Over any path of bases and interfaces. -/
  | derives {s t : Ty} : ReflTransGen r.Derives s.id t.id → Sub r s t
  | root {s : Ty} : Sub r s Ty.object
  /-- Element by element. -/
  | array {s t a b : Ty} {rank : Nat} : r.ArrayOf s a rank → r.ArrayOf t b rank →
      r.Reference a → r.Reference b → Sub r a b → Sub r s t

/-- A type is another one or upcasts to it. -/
def Widens (r : Registry) (s t : Ty) : Prop :=
  s = t ∨ ∃ c, r.referenceConversion? s t = some c ∧ c.isUpcast = true

variable {r : Registry} {s t u a b : Ty} {c : Conversion} {rank : Nat}

/-! ## Without arrays -/

theorem Reference.isValue (h : r.Reference t) : t.isValue = false := by
  have held := h.held
  rw [Ty.isReference] at held
  rw [Ty.isValue]
  cases kind : t.kind <;> simp_all

theorem directReference?_eq (hs : r.Reference s) (ht : r.Reference t) :
    r.directReference? s t = r.directUpcast? s t := by
  rw [directReference?, ht.held, ht.notNull, hs.notNull, hs.isValue, hs.held]
  rfl

theorem isUpcast_directUpcast? (found : r.directUpcast? s t = some c) : c.isUpcast = true := by
  rw [directUpcast?] at found
  split at found
  · cases found
    rfl
  · split at found
    · cases found
      rfl
    · split at found
      · cases found
        rfl
      · cases found

/-- The rules for types other than arrays find every path, and the root class. -/
theorem Shaped.exists_directUpcast?_iff (h : r.Shaped) (hs : r.Reference s)
    (ht : r.Reference t) : (∃ c, r.directUpcast? s t = some c) ↔
      ReflTransGen r.Derives s.id t.id ∨ t = Ty.object := by
  have distance : (r.inheritanceDistance? s.id t.id).isSome ↔ r.Inherits s.id t.id :=
    h.ordered.grounded.isSome_inheritanceDistance?
  have object : t.isObject = true ↔ t = Ty.object := by
    rw [Ty.isObject, beq_iff_eq]
    exact ⟨h.eq_root ht.known, fun same => same ▸ rfl⟩
  rw [directUpcast?]
  cases steps : r.inheritanceDistance? s.id t.id with
  | some depth =>
      rw [steps] at distance
      exact ⟨fun _ => Or.inl (distance.mp rfl).derives, fun _ => ⟨_, rfl⟩⟩
  | none =>
      simp only
      by_cases root : t.isObject = true
      · rw [if_pos root]
        exact ⟨fun _ => Or.inr (object.mp root), fun _ => ⟨_, rfl⟩⟩
      · rw [if_neg root]
        by_cases listed : (t.isInterface && r.implements s.id t.id) = true
        · rw [if_pos listed]
          rw [Bool.and_eq_true] at listed
          exact ⟨fun _ => Or.inl (derives_of_implements listed.2), fun _ => ⟨_, rfl⟩⟩
        · rw [if_neg listed]
          -- neither walk finds the target, so there is no path to it
          refine ⟨fun ⟨_, found⟩ => absurd found nofun, ?_⟩
          rintro (path | same)
          · refine absurd ?_ listed
            by_cases kind : t.kind = .interface
            · rcases h.implements_of_derives hs ht kind path with rfl | found
              · rw [steps] at distance
                exact absurd (distance.mpr .refl) nofun
              · rw [found, Ty.isInterface, kind]
                rfl
            · rw [steps] at distance
              exact absurd (distance.mpr (h.inherits_of_derives hs ht kind path)) nofun
          · exact absurd (object.mpr same) root

/-! ## With arrays -/

theorem reference_of_array (known : r.Knows t) (kind : t.kind = .array) : r.Reference t := by
  refine ⟨known, ?_, ?_⟩
  · rw [Ty.isReference, kind]
  · rw [Ty.isNull, kind]
    rfl

/-- A conversion to a reference type, arrays apart, is that of null, a boxing or an upcast. -/
theorem directReference?_cases (found : r.directReference? s t = some c) :
    c = .nullReference ∨ s.isValue = true ∧ r.boxing? s t = some c
      ∨ (s.isReference = true ∧ s.isNull = false) ∧ (t.isReference = true ∧ t.isNull = false)
        ∧ r.directUpcast? s t = some c := by
  rw [directReference?] at found
  split at found
  · cases found
  · next target =>
      split at found
      · exact Or.inl (Option.some.inj found).symm
      · next source =>
          split at found
          · next isValue => exact Or.inr (Or.inl ⟨isValue, found⟩)
          · split at found
            · next held =>
                rw [Bool.or_eq_true, not_or, Bool.not_eq_true', Bool.not_eq_false] at target
                exact Or.inr (Or.inr ⟨⟨held, Bool.eq_false_iff.mpr source⟩,
                  ⟨target.1, Bool.eq_false_iff.mpr target.2⟩, found⟩)
            · cases found

/-- Values box into interfaces and the root class. -/
theorem boxing?_eq_some (found : r.boxing? s t = some c) :
    c = .boxing s ∧ (t.kind = .object ∨ t.kind = .interface) := by
  rw [boxing?] at found
  split at found
  · next target =>
      simp only [Bool.or_eq_true, Bool.and_eq_true, Ty.isObject, Ty.isInterface,
        beq_iff_eq] at target
      exact ⟨(Option.some.inj found).symm, target.imp_right And.left⟩
  · cases found

/-- Only references other than null upcast, and only to such. -/
theorem references_of_directReference? (found : r.directReference? s t = some c)
    (up : c.isUpcast = true) : (s.isReference = true ∧ s.isNull = false)
      ∧ t.isReference = true ∧ t.isNull = false := by
  rcases directReference?_cases found with rfl | ⟨-, boxed⟩ | ⟨source, target, -⟩
  · cases up
  · obtain ⟨rfl, -⟩ := boxing?_eq_some boxed
    cases up
  · exact ⟨source, target⟩

namespace Shaped

theorem references_of_upcast (h : r.Shaped) (hs : r.Knows s) (ht : r.Knows t)
    (found : r.referenceConversion? s t = some c) (up : c.isUpcast = true) :
    r.Reference s ∧ r.Reference t := by
  rcases h.referenceConversion?_cases hs ht found with
    direct | ⟨a, b, rank, c', arrayS, arrayT, -⟩
  · obtain ⟨source, target⟩ := references_of_directReference? direct up
    exact ⟨⟨hs, source.1, source.2⟩, ht, target.1, target.2⟩
  · exact ⟨reference_of_array hs arrayS.kind, reference_of_array ht arrayT.kind⟩

/-- What upcasts is below. -/
theorem sub_of_upcast (h : r.Shaped) (hs : r.Knows s) (ht : r.Knows t)
    (found : r.referenceConversion? s t = some c) (up : c.isUpcast = true) : r.Sub s t := by
  obtain ⟨depth, -, falls⟩ := h.depth_le
  generalize level : depth s.id = n
  induction n using Nat.strong_induction_on generalizing s t c with
  | h n ih =>
      obtain ⟨refS, refT⟩ := h.references_of_upcast hs ht found up
      rcases h.referenceConversion?_cases hs ht found with
        direct | ⟨a, b, rank, c', arrayS, arrayT, converted, upElement, -⟩
      · rw [directReference?_eq refS refT] at direct
        rcases (h.exists_directUpcast?_iff refS refT).mp ⟨c, direct⟩ with path | rfl
        · exact .derives path
        · exact .root
      · have ha := h.knows_of_arrayOf arrayS
        have hb := h.knows_of_arrayOf arrayT
        obtain ⟨refA, refB⟩ := h.references_of_upcast ha hb converted upElement
        exact .array arrayS arrayT refA refB
          (ih _ (level ▸ falls s a rank arrayS) ha hb converted upElement rfl)

theorem upcast_of_directUpcast? (h : r.Shaped) (hs : r.Reference s) (ht : r.Reference t)
    (found : ReflTransGen r.Derives s.id t.id ∨ t = Ty.object) :
    ∃ c, r.referenceConversion? s t = some c ∧ c.isUpcast = true := by
  obtain ⟨c, direct⟩ := (h.exists_directUpcast?_iff hs ht).mpr found
  refine ⟨c, ?_, isUpcast_directUpcast? direct⟩
  rw [h.referenceConversion?_eq hs.known ht.known, directReference?_eq hs ht, direct]

/-- What is below upcasts. -/
theorem upcast_of_sub (h : r.Shaped) (hs : r.Reference s) (ht : r.Reference t)
    (below : r.Sub s t) : ∃ c, r.referenceConversion? s t = some c ∧ c.isUpcast = true := by
  induction below with
  | derives path => exact h.upcast_of_directUpcast? hs ht (Or.inl path)
  | root => exact h.upcast_of_directUpcast? hs ht (Or.inr rfl)
  | array arrayS arrayT refA refB below ih =>
      obtain ⟨c, found, up⟩ := ih refA refB
      have pair := elementPair?_of_arrayOf arrayS arrayT refA refB
      have arrays := arrays_iff.mpr ⟨arrayS.kind, arrayT.kind⟩
      rw [h.referenceConversion?_eq hs.known ht.known, directReference?_eq hs ht]
      cases direct : r.directUpcast? _ _ with
      | some c' => exact ⟨c', rfl, isUpcast_directUpcast? direct⟩
      | none =>
          simp only
          rw [if_pos arrays, pair]
          simp only
          rw [found, Option.any_some, if_pos up]
          exact ⟨_, rfl, rfl⟩

/-- Among references, upcasts are what is below. -/
theorem exists_upcast_iff_sub (h : r.Shaped) (hs : r.Reference s) (ht : r.Reference t) :
    (∃ c, r.referenceConversion? s t = some c ∧ c.isUpcast = true) ↔ r.Sub s t :=
  ⟨fun ⟨_, found, up⟩ => h.sub_of_upcast hs.known ht.known found up,
    h.upcast_of_sub hs ht⟩

theorem widens_iff_sub (h : r.Shaped) (hs : r.Reference s) (ht : r.Reference t) :
    r.Widens s t ↔ r.Sub s t := by
  rw [Widens, h.exists_upcast_iff_sub hs ht, or_iff_right_iff_imp]
  rintro rfl
  exact .derives .refl

/-! ## The order -/

theorem sub_trans (h : r.Shaped) (hs : r.Reference s) (ht : r.Reference t) (hu : r.Reference u)
    (first : r.Sub s t) (second : r.Sub t u) : r.Sub s u := by
  induction first generalizing u with
  | derives path =>
      cases second with
      | derives path' => exact .derives (path.trans path')
      | root => exact .root
      | array arrayT arrayU refA refB below =>
          -- nothing but itself leads to an array
          cases h.eq_of_derives hs ht (Or.inr arrayT.kind) path
          exact .array arrayT arrayU refA refB below
  | root =>
      cases second with
      | derives path =>
          cases hu.known.eq h.root.known (h.derives_root path)
          exact .root
      | root => exact .root
      | array arrayT _ _ _ _ => exact absurd arrayT.kind nofun
  | array arrayS arrayT refA refB below ih =>
      cases second with
      | derives path =>
          rcases h.derives_leaf ht.known (Or.inr arrayT.kind) path with same | same
          · cases hu.known.eq ht.known same
            exact .array arrayS arrayT refA refB below
          · cases hu.known.eq h.root.known same
            exact .root
      | root => exact .root
      | array arrayT' arrayU refB' refC below' =>
          obtain ⟨rfl, rfl⟩ := arrayT.unique arrayT'
          exact .array arrayS arrayU refA refC (ih refA refB refC below')

theorem sub_antisymm (h : r.Shaped) (hs : r.Reference s) (ht : r.Reference t)
    (up : r.Sub s t) (down : r.Sub t s) : s = t := by
  induction up with
  | derives path =>
      cases down with
      | derives path' =>
          exact hs.known.eq ht.known (h.ordered.derives_antisymm path path')
      | root => exact (ht.known.eq h.root.known (h.derives_root path)).symm
      | array arrayT _ _ _ _ => exact h.eq_of_derives hs ht (Or.inr arrayT.kind) path
  | root =>
      cases down with
      | derives path => exact hs.known.eq h.root.known (h.derives_root path)
      | root => rfl
      | array arrayT _ _ _ _ => exact absurd arrayT.kind nofun
  | array arrayS arrayT refA refB _ ih =>
      cases down with
      | derives path => exact (h.eq_of_derives ht hs (Or.inr arrayS.kind) path).symm
      | root => exact absurd arrayS.kind nofun
      | array arrayT' arrayS' refB' refA' down =>
          obtain ⟨rfl, rfl⟩ := arrayT.unique arrayT'
          obtain ⟨rfl, -⟩ := arrayS.unique arrayS'
          cases ih refA refB down
          exact h.array_eq arrayS arrayT

end Shaped

/-- Whatever a host that keeps to the conventions registers, its reference types are
partially ordered by upcasts, and the order is the one that the descriptions of the types
suggest: along bases and interfaces, up to the root class, and element by element. -/
theorem widens_partialOrder {regs : List Registration} (orderly : withPrimitives.Orderly regs) :
    IsPartialOrder {t // (reached regs).Reference t} (fun s t => (reached regs).Widens s t)
      ∧ ∀ s t, (reached regs).Reference s → (reached regs).Reference t →
        ((reached regs).Widens s t ↔ (reached regs).Sub s t) := by
  have shaped := shaped_reached orderly
  refine ⟨{ refl := ?_, trans := ?_, antisymm := ?_ }, fun s t hs ht => shaped.widens_iff_sub hs ht⟩
  · intro t
    exact Or.inl rfl
  · rintro ⟨s, hs⟩ ⟨t, ht⟩ ⟨u, hu⟩ first second
    simp only [shaped.widens_iff_sub, hs, ht, hu] at first second ⊢
    exact shaped.sub_trans hs ht hu first second
  · rintro ⟨s, hs⟩ ⟨t, ht⟩ up down
    simp only [shaped.widens_iff_sub, hs, ht] at up down
    exact Subtype.ext (shaped.sub_antisymm hs ht up down)

/-! ### A kennel -/

namespace Kennel

def named : Ty := ⟨HostId.ofName "Named", .interface⟩
def pet : Ty := ⟨HostId.ofName "Pet", .interface⟩
def animal : Ty := ⟨HostId.ofName "Animal", .refClass⟩
def dog : Ty := ⟨HostId.ofName "Dog", .refClass⟩

/-- A row of arrays of dogs, pets and so on. -/
def pack (of : String) : Ty := ⟨HostId.ofName (of ++ "[][,]"), .array⟩

/-- Pets have names, animals are pets, and dogs, which nothing derives from, are animals.  Of
dogs, animals and names there are arrays of arrays. -/
def registrations : List Registration :=
  [.interface "Named" [], .interface "Pet" [named.id], .refClass "Animal" none [pet.id] {},
    .refClass "Dog" (some animal.id) [] { isSealed := true }]
  ++ [named, animal, dog].map (.array · 1)
  ++ ["Named[]", "Animal[]", "Dog[]"].map (fun row => .array ⟨HostId.ofName row, .array⟩ 2)

theorem orderly : withPrimitives.Orderly registrations := by decide +kernel

/-- What arrays of arrays of dogs are below. -/
theorem upcast_dogs : ∀ of ∈ ["Named", "Animal"],
    (reached registrations).Reference (pack of)
      ∧ (reached registrations).referenceConversion? (pack "Dog") (pack of)
        = some (.upcast (pack of) Conversion.stepCost) := by decide +kernel

theorem reference_dogs : (reached registrations).Reference (pack "Dog") := by decide +kernel

end Kennel

/-- In the kennel arrays of arrays of dogs are below those of names. -/
theorem widens_partialOrder_kennel :
    withPrimitives.Orderly Kennel.registrations
      ∧ IsPartialOrder {t // (reached Kennel.registrations).Reference t}
        (fun s t => (reached Kennel.registrations).Widens s t)
      ∧ (reached Kennel.registrations).Sub (Kennel.pack "Dog") (Kennel.pack "Named") := by
  obtain ⟨names, upcast⟩ := Kennel.upcast_dogs "Named" List.mem_cons_self
  obtain ⟨order, widens_iff⟩ := widens_partialOrder Kennel.orderly
  exact ⟨Kennel.orderly, order,
    (widens_iff _ _ Kennel.reference_dogs names).mp (Or.inr ⟨_, upcast, rfl⟩)⟩

end Registry

end ExprCompiler
