/-
# New types leave old answers alone

What a formula means over a host type depends on the type's bases, its interfaces and
its inherited members.  A host may go on registering types after such a formula was
compiled, and none of these answers changes: nothing that is registered can mention a
type that is not, so a new type is out of reach of all walks that start from old ones.

Main result: `Registry.answers_kept`.
-/
import ExprCompiler.Proofs.Host.Interfaces

namespace ExprCompiler

/-- Whether a registration declares a type. -/
def Registration.declaresType : Registration → Bool
  | .type .. | .refClass .. | .struct .. | .interface .. | .enum .. | .array .. => true
  | _ => false

namespace Registry

variable {r r' : Registry}

/-! ## What declaring a type does -/

/-- The registered types are described as before, and members are where they were. -/
structure Keeps (r r' : Registry) : Prop where
  entries : ∀ id, r.has id = true → r'.entry? id = r.entry? id
  members : r'.memberTable = r.memberTable

theorem Keeps.refl (r : Registry) : r.Keeps r := ⟨fun _ _ => rfl, rfl⟩

theorem keeps_insertEntry {e : TypeEntry} (new : r.entry? e.id = none) :
    r.Keeps (r.insertEntry e) := by
  refine ⟨?_, rfl⟩
  intro id there
  obtain ⟨e', held⟩ := has_iff.mp there
  rw [entry?_insertEntry, if_neg (ne_of_fresh new held)]

/-- Declaring a type keeps what was there, and so does a declaration that is refused. -/
theorem keeps_after {reg : Registration} (types : reg.declaresType = true) (r : Registry) :
    r.Keeps (r.after reg) := by
  cases adds : reg.adds? r with
  | some e =>
      rw [after]
      rcases perform_of_adds? adds with ⟨error, run⟩ | ⟨⟨answer, run⟩, -, new, -⟩
      · rw [run]
        exact .refl r
      · rw [run]
        exact keeps_insertEntry new
  | none =>
      cases reg with
      | array =>
          rw [after_array adds]
          exact .refl r
      | primitives => cases types
      | member => cases types
      | function => cases types
      | collection => cases types
      | _ => cases adds

theorem keeps_of_perform {reg : Registration} {answer : Registered}
    (types : reg.declaresType = true) (h : (perform reg).run r = (.ok answer, r')) :
    r.Keeps r' := by
  have left : r.after reg = r' := by rw [after, h]
  rw [← left]
  exact keeps_after types r

/-! ## The answers -/

namespace Keeps

variable {id : HostId}

theorem parents (h : r.Keeps r') (there : r.has id = true) : r'.parents id = r.parents id := by
  rw [Registry.parents, Registry.parents, h.entries id there]

theorem base? (h : r.Keeps r') (there : r.has id = true) :
    Registry.base? r' id = Registry.base? r id := by
  rw [Registry.base?, Registry.base?, h.entries id there]

/-- The walks from a registered type stay among registered types.  The two registries
bound them differently, so both are compared with a walk that is long enough for
either. -/
theorem lineage (h : r.Keeps r') (ordered : r.Ordered) (there : r.has id = true) :
    r'.lineage id = r.lineage id := by
  rw [lineage_eq (Nat.le_max_left (r'.edgeCount + 1) (r.edgeCount + 1)),
    lineage_eq (Nat.le_max_right (r'.edgeCount + 1) (r.edgeCount + 1))]
  exact lineageFrom_congr (fun x _ => ordered.closed x) (fun _ => h.parents)
    (List.forall_mem_singleton.mpr there)

theorem baseChain (h : r.Keeps r') (ordered : r.Ordered) (ordered' : r'.Ordered)
    (there : r.has id = true) : r'.baseChain id = r.baseChain id := by
  rw [ordered'.grounded.baseChain_eq (Nat.le_max_left (r'.typeCount + 1) (r.typeCount + 1)),
    ordered.grounded.baseChain_eq (Nat.le_max_right (r'.typeCount + 1) (r.typeCount + 1))]
  exact baseChainFrom_congr (fun x _ => ordered.closed x) (fun _ => h.base?) there

theorem implements (h : r.Keeps r') (ordered : r.Ordered) (there : r.has id = true)
    (interface : HostId) : r'.implements id interface = r.implements id interface := by
  rw [implements_eq_any, implements_eq_any, h.lineage ordered there]
  have registered : ∀ x ∈ r.lineage id, r.has x = true :=
    forall_mem_lineageFrom (fun x _ => ordered.closed x)
      (fun _ hx => absurd hx List.not_mem_nil) (List.forall_mem_singleton.mpr there)
  rw [Bool.eq_iff_iff, List.any_eq_true, List.any_eq_true]
  refine exists_congr fun x => and_congr_right ?_
  intro hx
  rw [h.entries x (registered x hx)]

theorem resolve (h : r.Keeps r') (ordered : r.Ordered) (there : r.has id = true)
    (name : String) (ignoreCase : Bool) :
    r'.resolve name (.type id) ignoreCase = r.resolve name (.type id) ignoreCase := by
  have declared : r'.declared = r.declared := by
    funext owner
    rw [Registry.declared, Registry.declared, h.members]
  simp only [Registry.resolve, h.lineage ordered there, declared]

end Keeps

/-- Whatever has been registered before, declaring one more type changes none of the
answers about a type that is there: how far it is from a base, what it implements, and
which members it has under a name. -/
theorem answers_kept (regs : List Registration) {reg : Registration} {answer : Registered}
    {r' : Registry} (types : reg.declaresType = true)
    (accepted : (perform reg).run (reached regs) = (.ok answer, r')) {id : HostId}
    (there : (reached regs).has id = true) :
    (∀ k, r'.inheritanceDistance? id k = (reached regs).inheritanceDistance? id k)
      ∧ (∀ k, r'.implements id k = (reached regs).implements id k)
      ∧ ∀ name ignoreCase, r'.resolve name (.type id) ignoreCase
          = (reached regs).resolve name (.type id) ignoreCase := by
  have keeps := keeps_of_perform types accepted
  have sound := sound_reached regs
  have sound' : r'.Sound := by
    have grown := sound.grows (grows_after _ reg)
    rw [after, accepted] at grown
    exact grown
  refine ⟨?_, keeps.implements sound.ordered there, keeps.resolve sound.ordered there⟩
  intro k
  rw [inheritanceDistance?, inheritanceDistance?,
    keeps.baseChain sound.ordered sound'.ordered there]

/-- A class with a base, an interface and a member. -/
def shapes : List Registration :=
  [.interface "Drawable" [], .refClass "Shape" none [HostId.ofName "Drawable"] .empty,
    .member (Member.property (HostId.ofName "Shape") "area" (Ty.numeric .float64))]

/-- A class that derives from it comes later. -/
theorem answers_kept_shapes :
    ∃ answer r', (perform (.refClass "Circle" (some (HostId.ofName "Shape")) [] .empty)).run
        (reached shapes) = (.ok answer, r')
      ∧ r'.inheritanceDistance? (HostId.ofName "Shape") Ty.object.id = some 1
      ∧ r'.implements (HostId.ofName "Shape") (HostId.ofName "Drawable") = true
      ∧ (r'.resolve "area" (.type (HostId.ofName "Shape")) false).map (·.name) = ["area"] := by
  have accepted : ((perform (.refClass "Circle" (some (HostId.ofName "Shape")) [] .empty)).run
      (reached shapes)).1 = .ok (.type ⟨HostId.ofName "Circle", .refClass⟩) := by decide +kernel
  have there : (reached shapes).has (HostId.ofName "Shape") = true := by decide +kernel
  obtain ⟨distance, implements, resolve⟩ :=
    answers_kept shapes rfl (Prod.ext accepted rfl) there
  refine ⟨_, _, Prod.ext accepted rfl, ?_, ?_, ?_⟩
  · rw [distance]
    decide +kernel
  · rw [implements]
    decide +kernel
  · rw [resolve]
    decide +kernel

end Registry

end ExprCompiler
