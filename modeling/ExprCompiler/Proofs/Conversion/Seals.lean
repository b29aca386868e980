/-
# Seals that registration does not guard

No class may derive from a sealed type, and checked casts count on it: an object of a sealed
class is of that class exactly, so a cast between the class and an interface that it does not
implement is refused.  But a registration only looks whether the base it is given is there.
Its modifiers it does not look at, so the seal is as good as the word of the host:

* a type that is sealed and has something derived from it (`SealBroken`) is one that some
  accepted registration named as the base of a new type (`BreaksSeal`), and every such
  registration leaves the seal broken for good (`Registry.sealBroken_reached_iff`);
* where no registration does, sealed classes are no bases, and no cast is refused between two
  types in which one type fits (`Context.castPlan_of_kept_seals`);
* while nothing derives from a sealed class, a refused cast could not have succeeded;
* once something does, it can be refused although an object of the class has the interface.

No seal is put on or taken off later.  So the first of these needs one step only: a registration
adds one type or leaves all descriptions as they are, collections apart.

Main result: `Context.sealed_casts`.
-/
import Mathlib.Data.List.Induction
import ExprCompiler.Proofs.Conversion.Downcasts
import ExprCompiler.Proofs.Host.Builtins

namespace ExprCompiler

namespace Registry

/-- A registered type that no class may derive from. -/
def Sealed (r : Registry) (id : HostId) : Prop :=
  ∃ e, r.entry? id = some e ∧ e.flags.isSealed = true

/-- A sealed type is the base of a registered one. -/
def SealBroken (r : Registry) (base : HostId) : Prop :=
  r.Sealed base ∧ ∃ derived, r.base? derived = some base

end Registry

/-- A registration is accepted that adds a type with a sealed base. -/
def Registration.BreaksSeal (reg : Registration) (r : Registry) (base : HostId) : Prop :=
  r.Sealed base ∧ (∃ e, reg.adds? r = some e ∧ e.base = some base)
    ∧ ∃ answer r', (Registry.perform reg).run r = (.ok answer, r')

namespace Registry

variable {r r' : Registry} {e : TypeEntry} {s i : Ty} {id base x : HostId}

theorem isSealed_iff : r.isSealed s = true ↔ r.Sealed s.id := by
  rw [isSealed, Option.any_eq_true]
  rfl

theorem base?_eq_some_iff :
    r.base? id = some base ↔ ∃ e, r.entry? id = some e ∧ e.base = some base := by
  rw [base?, Option.bind_eq_some_iff]

instance : Decidable (r.SealBroken base) :=
  decidable_of_iff ((∃ e ∈ r.entry? base, e.flags.isSealed = true)
      ∧ ∃ row ∈ r.types.rows, row.2.base = some base)
    (and_congr Iff.rfl ⟨fun ⟨row, held, based⟩ =>
        ⟨row.1, base?_eq_some_iff.mpr ⟨row.2, Table.find?_eq_some_iff.mpr held, based⟩⟩,
      fun ⟨id, based⟩ =>
        have ⟨e, found, above⟩ := base?_eq_some_iff.mp based
        ⟨(id, e), Table.find?_eq_some_iff.mp found, above⟩⟩)

/-! ## One registration -/

/-- Seals and bases are part of the outlines. -/
theorem sealBroken_of_outlines (outlines : ∀ id, (r'.entry? id).map TypeEntry.outline
    = (r.entry? id).map TypeEntry.outline) (base : HostId) :
    r'.SealBroken base ↔ r.SealBroken base := by
  have outlined : ∀ r : Registry, r.Sealed base
      ↔ ((r.entry? base).map TypeEntry.outline).any (·.flags.isSealed) = true := by
    intro r
    rw [Option.any_map, Option.any_eq_true]
    rfl
  rw [SealBroken, SealBroken, outlined r', outlined r, outlines base]
  simp only [base?_of_outlines outlines]

/-- A new type breaks the seal of its base, and of no other type: nothing derives from it, and
what was there keeps its modifiers. -/
theorem sealBroken_insertEntry (closed : ∀ id, ∀ p ∈ r.parents id, r.has p = true)
    (fresh : r.entry? e.id = none) (parents : ∀ p ∈ e.parents, r.has p = true) :
    (r.insertEntry e).SealBroken base
      ↔ r.SealBroken base ∨ r.Sealed base ∧ e.base = some base := by
  have kept : r.has base = true → ((r.insertEntry e).Sealed base ↔ r.Sealed base) := by
    intro there
    obtain ⟨e', held⟩ := has_iff.mp there
    rw [Sealed, Sealed, entry?_insertEntry, if_neg (ne_of_fresh fresh held)]
  have bases : ∀ id, (r.insertEntry e).base? id = if id = e.id then e.base else r.base? id := by
    intro id
    rw [base?, entry?_insertEntry]
    split
    · rfl
    · rfl
  have above : e.base = some base → r.has base = true := by
    intro based
    refine parents base ?_
    rw [TypeEntry.parents, based]
    exact List.mem_cons_self
  constructor
  · rintro ⟨isSealed, derived, based⟩
    rw [bases] at based
    split at based
    · exact Or.inr ⟨(kept (above based)).mp isSealed, based⟩
    · have there := closed derived base (mem_parents_of_base? based)
      exact Or.inl ⟨(kept there).mp isSealed, derived, based⟩
  · rintro (⟨isSealed, derived, based⟩ | ⟨isSealed, based⟩)
    · obtain ⟨e', found, -⟩ := base?_eq_some_iff.mp based
      refine ⟨(kept (closed derived base (mem_parents_of_base? based))).mpr isSealed, derived, ?_⟩
      rw [bases, if_neg (ne_of_fresh fresh found)]
      exact based
    · refine ⟨(kept (above based)).mpr isSealed, e.id, ?_⟩
      rw [bases, if_pos rfl]
      exact based

/-- After a registration the broken seals are those that were broken before and those that it
breaks. -/
theorem Sound.sealBroken_after_iff (h : r.Sound) (reg : Registration) (base : HostId) :
    (r.after reg).SealBroken base ↔ r.SealBroken base ∨ reg.BreaksSeal r base := by
  cases adds : reg.adds? r with
  | none =>
      rw [sealBroken_of_outlines (h.outline_after adds)]
      refine (or_iff_left ?_).symm
      rintro ⟨-, ⟨e, added, -⟩, -⟩
      rw [adds] at added
      cases added
  | some e =>
      rcases perform_of_adds? adds with ⟨error, refused⟩ | ⟨⟨answer, run⟩, -, fresh, parents⟩
      · have same : r.after reg = r := by rw [after, refused]
        rw [same]
        refine (or_iff_left ?_).symm
        rintro ⟨-, -, answer, r', accepted⟩
        rw [refused] at accepted
        cases accepted
      · have grown : r.after reg = r.insertEntry e := by rw [after, run]
        rw [grown, sealBroken_insertEntry h.ordered.closed fresh parents]
        refine or_congr_right (and_congr_right fun _ => ⟨fun based => ?_, ?_⟩)
        · exact ⟨⟨e, adds, based⟩, answer, _, run⟩
        · rintro ⟨⟨e', added, based⟩, -⟩
          cases adds.symm.trans added
          exact based

/-! ## All registrations -/

theorem not_sealBroken_withPrimitives : ¬ withPrimitives.SealBroken base := by
  have rows : ∀ row ∈ withPrimitives.types.rows, ∀ b ∈ row.2.base,
      ¬ ∃ e ∈ withPrimitives.entry? b, e.flags.isSealed = true := by decide +kernel
  rintro ⟨isSealed, derived, based⟩
  obtain ⟨e, found, above⟩ := base?_eq_some_iff.mp based
  exact rows (derived, e) (Table.find?_eq_some_iff.mp found) base above isSealed

theorem reached_concat (regs : List Registration) (reg : Registration) :
    reached (regs ++ [reg]) = (reached regs).after reg := List.foldl_concat ..

/-- The seals that are broken in the end are those that some registration broke. -/
theorem sealBroken_reached_iff (regs : List Registration) (base : HostId) :
    (reached regs).SealBroken base ↔ ∃ before reg later,
      regs = before ++ reg :: later ∧ reg.BreaksSeal (reached before) base := by
  induction regs using List.reverseRecOn with
  | nil =>
      refine iff_of_false not_sealBroken_withPrimitives ?_
      rintro ⟨before, reg, later, split, -⟩
      exact List.append_ne_nil_of_right_ne_nil before (List.cons_ne_nil reg later) split.symm
  | append_singleton regs last ih =>
      rw [reached_concat, (sound_reached regs).sealBroken_after_iff, ih]
      constructor
      · rintro (⟨before, reg, later, rfl, breaks⟩ | breaks)
        · exact ⟨before, reg, later ++ [last], List.append_assoc before (reg :: later) [last],
            breaks⟩
        · exact ⟨regs, last, [], rfl, breaks⟩
      · rintro ⟨before, reg, later, split, breaks⟩
        -- the one that breaks it is the last one, or one of those before
        rcases List.eq_nil_or_concat later with rfl | ⟨later, last', rfl⟩
        · obtain ⟨rfl, same⟩ := List.append_inj' split rfl
          cases same
          exact Or.inr breaks
        · rw [List.concat_eq_append, ← List.cons_append, ← List.append_assoc] at split
          obtain ⟨rfl, -⟩ := List.append_inj' split rfl
          exact Or.inl ⟨before, reg, later, rfl, breaks⟩

/-- A host that breaks no seal derives no class from a sealed one. -/
theorem unsealedBases_reached {regs : List Registration}
    (kept : ∀ before reg later base, regs = before ++ reg :: later →
      ¬ reg.BreaksSeal (reached before) base) : (reached regs).UnsealedBases := by
  intro id e found _ base based eb above
  refine Bool.eq_false_of_not_eq_true fun isSealed => ?_
  have broken : (reached regs).SealBroken base :=
    ⟨⟨eb, above, isSealed⟩, id, base?_eq_some_iff.mpr ⟨e, found, based⟩⟩
  obtain ⟨before, reg, later, split, breaks⟩ := (sealBroken_reached_iff regs base).mp broken
  exact kept before reg later base split breaks

/-- Only a sealed type itself has it among its bases, unless its seal is broken. -/
theorem eq_of_inherits_sealed (isSealed : r.Sealed base) (unbroken : ¬ r.SealBroken base)
    (inherits : r.Inherits x base) : x = base := by
  cases inherits with
  | refl => rfl
  | tail _ based => exact absurd ⟨isSealed, _, based⟩ unbroken

/-! ## From a class to its interfaces and back -/

theorem isReference_of_isClassLike (instances : isClassLike s = true) :
    s.isReference = true ∧ s.isNull = false ∧ s.isValue = false ∧ s.numericKind? = none := by
  rw [Ty.isReference, Ty.isNull, Ty.isValue, Ty.numericKind?]
  rcases isClassLike_iff.mp instances with kind | kind | kind
  all_goals
    rw [kind]
    exact ⟨rfl, rfl, rfl, rfl⟩

theorem isReference_of_interface (kind : i.kind = .interface) :
    i.isReference = true ∧ i.isNull = false := by
  rw [Ty.isReference, Ty.isNull, kind]
  exact ⟨rfl, rfl⟩

/-- A class is above the interfaces that it implements, at the cost of one or that of a base. -/
theorem referenceConversion?_of_implements (instances : isClassLike s = true)
    (kind : i.kind = .interface) (implements : r.implements s.id i.id = true) :
    ∃ c, r.referenceConversion? s i = some c := by
  obtain ⟨isReference, isNull, isValue, -⟩ := isReference_of_isClassLike instances
  obtain ⟨isReference', isNull'⟩ := isReference_of_interface kind
  have upcast : ∃ c, r.directUpcast? s i = some c := by
    rw [directUpcast?, isObject_of_interface kind, isInterface_of_kind kind, implements]
    cases r.inheritanceDistance? s.id i.id with
    | some depth => exact ⟨_, rfl⟩
    | none => exact ⟨_, rfl⟩
  obtain ⟨c, upcast⟩ := upcast
  have direct : r.directReference? s i = some c := by
    rw [directReference?, isReference', isNull', isNull, isValue, isReference, upcast]
    rfl
  refine ⟨c, ?_⟩
  rw [referenceConversion?, elementBudget, referenceSearch, direct]
  rfl

/-- From an interface a checked cast goes to every class that implements it. -/
theorem isDowncast_of_implements (instances : isClassLike s = true) (kind : i.kind = .interface)
    (implements : r.implements s.id i.id = true) : r.isDowncast i s = true := by
  obtain ⟨-, isNull, -⟩ := isReference_of_isClassLike instances
  obtain ⟨-, isNull'⟩ := isReference_of_interface kind
  have direct : r.directDowncast i s = true := by
    rw [directDowncast, isNull, isNull', isObject_of_interface kind,
      isClassLike_of_interface kind, instances, isInterface_of_kind kind, implements,
      Bool.or_true]
    rfl
  have apart : (i.isArray && s.isArray) = false := by
    rw [Ty.isArray, kind]
    rfl
  rw [isDowncast, elementBudget, downcastSearch, apart, direct]
  rfl

end Registry

/-! ## Refused casts -/

namespace Context

open Registry

variable {ctx : Context} {s t i : Ty} {span : Span}

/-- A cast is refused for its types only if they do not convert, and no reference between them
is checked or taken out of its box. -/
theorem castPlan_refused {source target : String} {place : Span}
    (refused : ctx.castPlan s t span = .error (.invalidCast source target place)) :
    ctx.conversion? s t = none ∧ ctx.referenceCast? s t = none := by
  rw [castPlan] at refused
  split at refused
  · cases refused
  split at refused
  · cases refused
  next converts =>
  refine ⟨converts, ?_⟩
  split at refused
  · cases refused
  split at refused
  · next failed =>
      -- two conversion members are an error of another kind
      obtain ⟨⟨details, at_, rfl⟩, -⟩ := explicitConversion?_error failed
      cases refused
  · cases refused
  split at refused
  · cases refused
  · next none_ => exact none_

/-- Between a class and an interface that it implements no cast is refused. -/
theorem not_implements_of_refused (instances : isClassLike s = true) (kind : i.kind = .interface)
    {source target : String} {place : Span}
    (refused : ctx.castPlan s i span = .error (.invalidCast source target place)
      ∨ ctx.castPlan i s span = .error (.invalidCast source target place)) :
    ctx.registry.implements s.id i.id = false := by
  refine Bool.eq_false_of_not_eq_true fun implements => ?_
  obtain ⟨isReference, -, -, numeric⟩ := isReference_of_isClassLike instances
  rcases refused with up | down
  · obtain ⟨c, found⟩ := referenceConversion?_of_implements instances kind implements
    have stuck := (castPlan_refused up).1
    rw [conversion?, numeric, found] at stuck
    split at stuck
    · cases stuck
    · cases stuck
  · have stuck := (castPlan_refused down).2
    rw [referenceCast?, (isReference_of_interface kind).1, isReference,
      isDowncast_of_implements instances kind implements] at stuck
    cases stuck

/-- Where no seal is broken, a cast between two reference types in which one type fits is not
refused for its types. -/
theorem castPlan_of_kept_seals {regs : List Registration}
    (orderly : withPrimitives.Orderly regs)
    (kept : ∀ before reg later base, regs = before ++ reg :: later →
      ¬ reg.BreaksSeal (reached before) base)
    (same : ctx.registry = reached regs) {x : Ty} (hx : (reached regs).Knows x)
    (hs : (reached regs).Reference s) (ht : (reached regs).Reference t)
    (toS : (reached regs).FitsIn x s) (toT : (reached regs).FitsIn x t)
    (source target : String) (place : Span) :
    ctx.castPlan s t span ≠ .error (.invalidCast source target place) := by
  have shaped := shaped_reached orderly
  have unsealed := unsealedBases_reached kept
  rw [← same] at hx hs ht toS toT shaped unsealed
  exact castPlan_ne_invalidCast shaped unsealed hx hs ht toS toT span source target place

/-- Whatever a host registers, the sealed types from which something derives are those that some
accepted registration has named as a base.  And as long as nothing derives from a sealed class,
a cast between it and an interface is refused only if neither the class nor anything derived
from it implements the interface. -/
theorem sealed_casts (regs : List Registration) :
    (∀ base, (reached regs).SealBroken base ↔ ∃ before reg later,
        regs = before ++ reg :: later ∧ reg.BreaksSeal (reached before) base)
      ∧ ∀ ctx : Context, ctx.registry = reached regs → ∀ s i, isClassLike s = true →
        i.kind = .interface → (reached regs).Sealed s.id → ¬ (reached regs).SealBroken s.id →
        ∀ span source target place,
          ctx.castPlan s i span = .error (.invalidCast source target place)
            ∨ ctx.castPlan i s span = .error (.invalidCast source target place) →
          ∀ x, (reached regs).Inherits x s.id → (reached regs).implements x i.id = false := by
  refine ⟨sealBroken_reached_iff regs, ?_⟩
  intro ctx same s i instances kind isSealed unbroken span source target place refused x inherits
  rw [eq_of_inherits_sealed isSealed unbroken inherits, ← same]
  exact not_implements_of_refused instances kind refused

/-- A sealed class, an interface that it does not implement, and one that it does. -/
def quarry : List Registration :=
  [.interface "Named" [], .interface "Priced" [],
    .refClass "Rock" none [HostId.ofName "Priced"] { isSealed := true }]

def rock : Ty := ⟨HostId.ofName "Rock", .refClass⟩

def named : Ty := ⟨HostId.ofName "Named", .interface⟩

/-- Rocks have no names, and nothing that is a rock has one. -/
theorem sealed_casts_rock :
    castPlan ⟨reached quarry, {}⟩ rock named default
        = .error (.invalidCast "Rock" "Named" default)
      ∧ ∀ x, (reached quarry).Inherits x rock.id →
        (reached quarry).implements x named.id = false := by
  have refused : castPlan ⟨reached quarry, {}⟩ rock named default
      = .error (.invalidCast "Rock" "Named" default) := by decide +kernel
  have isSealed : (reached quarry).isSealed rock = true := by decide +kernel
  have unbroken : ¬ (reached quarry).SealBroken rock.id := by decide +kernel
  exact ⟨refused, (sealed_casts quarry).2 ⟨reached quarry, {}⟩ rfl rock named rfl rfl
    (isSealed_iff.mp isSealed) unbroken default _ _ _ (Or.inl refused)⟩

/-- A pebble is a rock that has a name. -/
def pebble : Registration :=
  .refClass "Pebble" (some rock.id) [named.id] .empty

/-- The class of pebbles is accepted although rocks are sealed.  From then on a rock can have a
name, and still it cannot be asked for it. -/
theorem sealed_casts_pebble :
    (∃ answer r', (perform pebble).run (reached quarry) = (.ok answer, r'))
      ∧ (reached (quarry ++ [pebble])).SealBroken rock.id
      ∧ (reached (quarry ++ [pebble])).Inherits (HostId.ofName "Pebble") rock.id
      ∧ (reached (quarry ++ [pebble])).implements (HostId.ofName "Pebble") named.id = true
      ∧ castPlan ⟨reached (quarry ++ [pebble]), {}⟩ rock named default
        = .error (.invalidCast "Rock" "Named" default)
      ∧ castPlan ⟨reached (quarry ++ [pebble]), {}⟩ named rock default
        = .error (.invalidCast "Named" "Rock" default) := by
  have accepted : ((perform pebble).run (reached quarry)).1
      = .ok (.type ⟨HostId.ofName "Pebble", .refClass⟩) := by decide +kernel
  have based : (reached (quarry ++ [pebble])).base? (HostId.ofName "Pebble") = some rock.id := by
    decide +kernel
  refine ⟨⟨_, _, Prod.ext accepted rfl⟩, by decide +kernel, .single based, by decide +kernel,
    by decide +kernel, by decide +kernel⟩

end Context

end ExprCompiler
