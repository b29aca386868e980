/-
# A cast that is refused could never succeed

Whether a reference can be cast is decided from the static types alone, by rules that
mirror those for upcasts and are written down apart from them.  A cast may be refused only
if no value fits both types.  The values that fit a type are those of the types that equal
it, upcast to it, or box into it (`FitsIn`).  Let some type fit both `s` and `t`, and go
through the ways in which it can:

* it is a value, so both are interfaces or the root class, and any cast goes between these;
* both `s` and `t` are arrays with it, and the same holds of the elements;
* both are classes: one of the two is a base of the other, as a type has one chain of bases;
* one is an interface and the other a class: either the class is the type itself, and then
  it has the interface, or something derives from it.  Here it matters that nothing derives
  from a sealed class (`UnsealedBases`), which registration does not check;
* anything else is the root class, below which everything is.

So `s` upcasts to `t`, or the checked cast is there (`Shaped.sub_or_isDowncast`).  The rules
for numbers and for conversion members come earlier in a cast and do not refuse it for its
types; two conversion members that apply are an error of another kind.

Main result: `Context.castPlan_of_fitsIn`.
-/
import ExprCompiler.Conversion.Cast
import ExprCompiler.Proofs.Conversion.Upcasts
import ExprCompiler.Proofs.Host.Stability

namespace ExprCompiler

open Relation (ReflTransGen)

namespace Registry

/-- No class derives from a sealed class. -/
def UnsealedBases (r : Registry) : Prop :=
  ∀ id e, r.entry? id = some e → e.type.kind = .refClass →
    ∀ b ∈ e.base, ∀ eb, r.entry? b = some eb → eb.flags.isSealed = false

instance (r : Registry) : Decidable r.UnsealedBases :=
  decidable_of_iff (∀ row ∈ r.types.rows, row.2.type.kind = .refClass →
      ∀ b ∈ row.2.base, ∀ eb ∈ r.entry? b, eb.flags.isSealed = false)
    ⟨fun h id e found => h (id, e) (Table.find?_eq_some_iff.mp found),
      fun h row held => h row.1 row.2 (Table.find?_eq_some_iff.mpr held)⟩

/-- A type is another one, upcasts to it or boxes into it. -/
def FitsIn (r : Registry) (x t : Ty) : Prop :=
  x = t ∨ ∃ c, r.referenceConversion? x t = some c
    ∧ (c.isUpcast = true ∨ ∃ value, c.kind = .boxing value)

variable {r : Registry} {s t x : Ty} {c : Conversion}

/-! ## Values in boxes -/

/-- What boxes is a value, and what it boxes into is an interface or the root class. -/
theorem Shaped.value_of_boxing (h : r.Shaped) (hx : r.Knows x) (ht : r.Knows t)
    (found : r.referenceConversion? x t = some c) {value : HostId}
    (boxed : c.kind = .boxing value) :
    x.isValue = true ∧ (t.kind = .object ∨ t.kind = .interface) := by
  rcases h.referenceConversion?_cases hx ht found with
    direct | ⟨a, b, rank, c', -, -, -, -, rfl⟩
  · rcases directReference?_cases direct with rfl | ⟨isValue, boxing⟩ | ⟨-, -, upcast⟩
    · cases boxed
    · exact ⟨isValue, (boxing?_eq_some boxing).2⟩
    · have up := isUpcast_directUpcast? upcast
      rw [Conversion.isUpcast, boxed] at up
      cases up
  · cases boxed

/-- A reference fits in what is above it, and a value in interfaces and the root class. -/
theorem Shaped.sub_or_value (h : r.Shaped) (hx : r.Knows x) (ht : r.Reference t)
    (fits : r.FitsIn x t) : r.Reference x ∧ r.Sub x t
      ∨ x.isValue = true ∧ (t.kind = .object ∨ t.kind = .interface) := by
  rcases fits with rfl | ⟨c, found, up | ⟨value, boxed⟩⟩
  · exact Or.inl ⟨ht, .derives .refl⟩
  · exact Or.inl ⟨(h.references_of_upcast hx ht.known found up).1,
      h.sub_of_upcast hx ht.known found up⟩
  · exact Or.inr (h.value_of_boxing hx ht.known found boxed)

/-! ## Checked casts by kind -/

theorem isClassLike_iff : isClassLike t = true ↔
    t.kind = .refClass ∨ t.kind = .string ∨ t.kind = .array := by
  simp only [isClassLike, Ty.isClass, Ty.isString, Ty.isArray, Bool.or_eq_true, beq_iff_eq,
    or_assoc]

/-- Reference types are the root class, interfaces, and those whose values are instances of
one class. -/
theorem Reference.kinds (h : r.Reference t) :
    t.kind = .object ∨ t.kind = .interface ∨ isClassLike t = true := by
  have held := h.held
  have notNull := h.notNull
  rw [isClassLike_iff]
  rw [Ty.isReference] at held
  rw [Ty.isNull] at notNull
  cases kind : t.kind <;> simp_all

theorem isClassLike_of_interface (kind : t.kind = .interface) : isClassLike t = false := by
  rw [isClassLike, Ty.isClass, Ty.isString, Ty.isArray, kind]
  rfl

theorem isInterface_of_kind (kind : t.kind = .interface) : t.isInterface = true := by
  rw [Ty.isInterface, kind]
  rfl

theorem isObject_of_interface (kind : t.kind = .interface) : t.isObject = false := by
  rw [Ty.isObject, kind]
  rfl

theorem kind_of_isClassLike (instances : isClassLike t = true) : t.kind ≠ .interface := by
  intro kind
  rw [isClassLike_of_interface kind] at instances
  cases instances

theorem directDowncast_eq (hs : r.Reference s) (ht : r.Reference t) :
    r.directDowncast s t = if s.isObject then true
      else match isClassLike s, isClassLike t with
        | true, true => (r.inheritanceDistance? t.id s.id).isSome
        | true, false => t.isInterface && !r.isSealed s && !r.implements s.id t.id
        | false, true => s.isInterface && (!r.isSealed t || r.implements t.id s.id)
        | false, false => s.isInterface && t.isInterface := by
  rw [directDowncast, hs.notNull, ht.notNull]
  rfl

namespace Shaped

/-- Unless both are arrays, a checked cast looks at the types themselves. -/
theorem isDowncast_of_direct (h : r.Shaped) (hs : r.Reference s) (ht : r.Reference t)
    (apart : ¬ (s.kind = .array ∧ t.kind = .array)) (direct : r.directDowncast s t = true) :
    r.isDowncast s t = true := by
  rw [h.isDowncast_eq hs.known ht.known, if_neg]
  · exact direct
  · rw [arrays_iff]
    exact apart

/-- From the root class a cast to anything makes sense. -/
theorem isDowncast_root (h : r.Shaped) (ht : r.Reference t) :
    r.isDowncast Ty.object t = true := by
  refine h.isDowncast_of_direct h.root ht (fun arrays => absurd arrays.1 nofun) ?_
  rw [directDowncast_eq h.root ht]
  rfl

/-- So does one between interfaces. -/
theorem isDowncast_interfaces (h : r.Shaped) (hs : r.Reference s) (ht : r.Reference t)
    (kindS : s.kind = .interface) (kindT : t.kind = .interface) : r.isDowncast s t = true := by
  refine h.isDowncast_of_direct hs ht (fun arrays => absurd arrays.1 (kindS ▸ nofun)) ?_
  rw [directDowncast_eq hs ht, isObject_of_interface kindS, isClassLike_of_interface kindS,
    isClassLike_of_interface kindT, isInterface_of_kind kindS, isInterface_of_kind kindT]
  rfl

/-- From a class to an interface it does not have a cast makes sense unless the class is
sealed. -/
theorem isDowncast_to_interface (h : r.Shaped) (hs : r.Reference s) (ht : r.Reference t)
    (classS : isClassLike s = true) (kindT : t.kind = .interface)
    (unsealed : r.isSealed s = false) (without : r.implements s.id t.id = false) :
    r.isDowncast s t = true := by
  refine h.isDowncast_of_direct hs ht (fun arrays => absurd arrays.2 (kindT ▸ nofun)) ?_
  rw [directDowncast_eq hs ht, classS, isClassLike_of_interface kindT, unsealed, without,
    isInterface_of_kind kindT]
  exact ite_self true

/-- From an interface to a class a cast makes sense unless the class is sealed and does not
have the interface. -/
theorem isDowncast_from_interface (h : r.Shaped) (hs : r.Reference s) (ht : r.Reference t)
    (kindS : s.kind = .interface) (classT : isClassLike t = true)
    (open_ : r.isSealed t = false ∨ r.implements t.id s.id = true) :
    r.isDowncast s t = true := by
  refine h.isDowncast_of_direct hs ht (fun arrays => absurd arrays.1 (kindS ▸ nofun)) ?_
  rw [directDowncast_eq hs ht, isObject_of_interface kindS, isClassLike_of_interface kindS,
    classT, isInterface_of_kind kindS]
  rcases open_ with unsealed | implements
  · rw [unsealed]
    rfl
  · rw [implements, Bool.or_true]
    rfl

/-- From a base class to a class derived from it a cast makes sense. -/
theorem isDowncast_derived (h : r.Shaped) (hs : r.Reference s) (ht : r.Reference t)
    (apart : ¬ (s.kind = .array ∧ t.kind = .array)) (classS : isClassLike s = true)
    (classT : isClassLike t = true) (inherits : r.Inherits t.id s.id) :
    r.isDowncast s t = true := by
  refine h.isDowncast_of_direct hs ht apart ?_
  rw [directDowncast_eq hs ht, classS, classT]
  simp only
  rw [(h.ordered.grounded.isSome_inheritanceDistance?).mpr inherits]
  exact ite_self true

/-! ## Below a common type -/

/-- A class that something else derives from is not sealed. -/
theorem eq_or_unsealed (h : r.Shaped) (unsealed : r.UnsealedBases) (hx : r.Reference x)
    (ht : r.Reference t) (instances : isClassLike t = true)
    (path : ReflTransGen r.Derives x.id t.id) : x = t ∨ r.isSealed t = false := by
  rcases isClassLike_iff.mp instances with kind | leaf
  · rcases h.derives_last hx ht path with
      same | ⟨u, hu, -, ⟨based, rfl | ⟨class_, -⟩⟩ | ⟨-, interface⟩⟩
    · exact Or.inl same
    · exact absurd kind nofun
    · obtain ⟨eu, foundU, rfl⟩ := hu.known
      obtain ⟨et, foundT, rfl⟩ := ht.known
      rw [base?, foundU, Option.bind_some] at based
      refine Or.inr ?_
      rw [isSealed, foundT, Option.any_some]
      exact unsealed _ eu foundU class_ _ based et foundT
    · rw [kind] at interface
      cases interface
  · exact Or.inl (h.eq_of_derives hx ht leaf path)

/-- Of two types that one derives from the first is below the second, or a cast makes
sense. -/
theorem sub_or_isDowncast_of_derives (h : r.Shaped) (unsealed : r.UnsealedBases)
    (hx : r.Reference x) (hs : r.Reference s) (ht : r.Reference t)
    (toS : ReflTransGen r.Derives x.id s.id) (toT : ReflTransGen r.Derives x.id t.id) :
    r.Sub s t ∨ r.isDowncast s t = true := by
  rcases hs.kinds with rootS | interfaceS | classS
  · rw [h.eq_root hs.known rootS]
    exact Or.inr (h.isDowncast_root ht)
  · rcases ht.kinds with rootT | interfaceT | classT
    · rw [h.eq_root ht.known rootT]
      exact Or.inl .root
    · exact Or.inr (h.isDowncast_interfaces hs ht interfaceS interfaceT)
    · refine Or.inr (h.isDowncast_from_interface hs ht interfaceS classT ?_)
      rcases h.eq_or_unsealed unsealed hx ht classT toT with rfl | open_
      · rcases h.implements_of_derives hx hs interfaceS toS with rfl | implements
        · exact absurd interfaceS (kind_of_isClassLike classT)
        · exact Or.inr implements
      · exact Or.inl open_
  · rcases ht.kinds with rootT | interfaceT | classT
    · rw [h.eq_root ht.known rootT]
      exact Or.inl .root
    · rcases h.eq_or_unsealed unsealed hx hs classS toS with rfl | open_
      · exact Or.inl (.derives toT)
      · cases implements : r.implements s.id t.id with
        | true => exact Or.inl (.derives (derives_of_implements implements))
        | false => exact Or.inr (h.isDowncast_to_interface hs ht classS interfaceT open_ implements)
    · -- the bases of one type are in a line
      have basesS := h.inherits_of_derives hx hs (kind_of_isClassLike classS) toS
      have basesT := h.inherits_of_derives hx ht (kind_of_isClassLike classT) toT
      rcases basesS.total basesT with up | down
      · exact Or.inl (.derives up.derives)
      · by_cases arrays : s.kind = .array ∧ t.kind = .array
        · cases h.eq_of_derives hx hs (Or.inr arrays.1) toS
          exact Or.inl (.derives toT)
        · exact Or.inr (h.isDowncast_derived hs ht arrays classS classT down)

/-- An array is an array of its elements, as far as casts go. -/
theorem isDowncast_array (h : r.Shaped) {a b : Ty} {rank : Nat} (arrayS : r.ArrayOf s a rank)
    (arrayT : r.ArrayOf t b rank) (refA : r.Reference a) (refB : r.Reference b)
    (cast : r.isDowncast a b = true) : r.isDowncast s t = true := by
  have pair := elementPair?_of_arrayOf arrayS arrayT refA refB
  rw [h.isDowncast_eq arrayS.known arrayT.known,
    if_pos (arrays_iff.mpr ⟨arrayS.kind, arrayT.kind⟩), pair]
  simp only
  rw [cast]
  exact ite_self true

/-- Of two types above one the first is below the second, or a cast makes sense. -/
theorem sub_or_isDowncast (h : r.Shaped) (unsealed : r.UnsealedBases) (hx : r.Reference x)
    (hs : r.Reference s) (ht : r.Reference t) (toS : r.Sub x s) (toT : r.Sub x t) :
    r.Sub s t ∨ r.isDowncast s t = true := by
  induction toS generalizing t with
  | root => exact Or.inr (h.isDowncast_root ht)
  | derives path =>
      cases toT with
      | root => exact Or.inl .root
      | derives path' => exact h.sub_or_isDowncast_of_derives unsealed hx hs ht path path'
      | array arrayX arrayT refA refB below =>
          -- an array derives from itself and the root class only
          rcases h.derives_leaf hx.known (Or.inr arrayX.kind) path with same | same
          · cases hs.known.eq hx.known same
            exact Or.inl (.array arrayX arrayT refA refB below)
          · cases hs.known.eq h.root.known same
            exact Or.inr (h.isDowncast_root ht)
  | array arrayX arrayS refA refB below ih =>
      cases toT with
      | root => exact Or.inl .root
      | derives path =>
          rcases h.derives_leaf hx.known (Or.inr arrayX.kind) path with same | same
          · cases ht.known.eq hx.known same
            -- back to the array itself, so its elements are compared with themselves
            rcases ih refA refB refA (.derives .refl) with up | cast
            · exact Or.inl (.array arrayS arrayX refB refA up)
            · exact Or.inr (h.isDowncast_array arrayS arrayX refB refA cast)
          · cases ht.known.eq h.root.known same
            exact Or.inl .root
      | array arrayX' arrayT refA' refC below' =>
          obtain ⟨rfl, rfl⟩ := arrayX.unique arrayX'
          rcases ih refA refB refC below' with up | cast
          · exact Or.inl (.array arrayS arrayT refB refC up)
          · exact Or.inr (h.isDowncast_array arrayS arrayT refB refC cast)

/-- Of two types that one fits in the first is below the second, or a cast makes sense. -/
theorem sub_or_isDowncast_of_fitsIn (h : r.Shaped) (unsealed : r.UnsealedBases)
    (hx : r.Knows x) (hs : r.Reference s) (ht : r.Reference t) (toS : r.FitsIn x s)
    (toT : r.FitsIn x t) : r.Sub s t ∨ r.isDowncast s t = true := by
  rcases h.sub_or_value hx hs toS with ⟨refX, belowS⟩ | ⟨value, kindS⟩
  · rcases h.sub_or_value hx ht toT with ⟨-, belowT⟩ | ⟨value, -⟩
    · exact h.sub_or_isDowncast unsealed refX hs ht belowS belowT
    · rw [refX.isValue] at value
      cases value
  · rcases h.sub_or_value hx ht toT with ⟨refX, -⟩ | ⟨-, kindT⟩
    · rw [refX.isValue] at value
      cases value
    · rcases kindS with rootS | interfaceS
      · rw [h.eq_root hs.known rootS]
        exact Or.inr (h.isDowncast_root ht)
      · rcases kindT with rootT | interfaceT
        · rw [h.eq_root ht.known rootT]
          exact Or.inl .root
        · exact Or.inr (h.isDowncast_interfaces hs ht interfaceS interfaceT)

end Shaped

end Registry

/-! ## Casts -/

namespace Context

open Registry

variable {ctx : Context} {s t x : Ty} {span : Span} {e : CompileError}

theorem numericKind?_of_reference {r : Registry} (hs : r.Reference s) : s.numericKind? = none := by
  have held := hs.held
  rw [Ty.isReference] at held
  rw [Ty.numericKind?]
  cases kind : s.kind <;> simp_all

/-- What upcasts converts without a cast. -/
theorem exists_conversion?_of_upcast {c : Conversion} (hs : ctx.registry.Reference s)
    (found : ctx.registry.referenceConversion? s t = some c) :
    ∃ c', ctx.conversion? s t = some c' := by
  rw [conversion?, numericKind?_of_reference hs, found]
  split
  · exact ⟨_, rfl⟩
  · exact ⟨c, rfl⟩

/-- Conversion members stop a cast only if there is more than one. -/
theorem explicitConversion?_error (failed : ctx.explicitConversion? s t span = .error e) :
    (∃ details place, e = .ambiguous details place)
      ∧ ctx.conversionsNamed Member.explicitName s t
        ++ ctx.conversionsNamed Member.implicitName s t ≠ [] := by
  rw [explicitConversion?] at failed
  split at failed
  · cases failed
  · cases failed
  · next members =>
      cases failed
      rw [members]
      exact ⟨⟨_, _, rfl⟩, nofun⟩

/-- Between references that are below each other, or that a checked cast goes between, only
conversion members can stop a cast. -/
theorem castPlan_of_references (shaped : ctx.registry.Shaped) (hs : ctx.registry.Reference s)
    (ht : ctx.registry.Reference t)
    (allowed : ctx.registry.Sub s t ∨ ctx.registry.isDowncast s t = true) (span : Span) :
    (∃ plan, ctx.castPlan s t span = .ok plan)
      ∨ ∃ e, ctx.explicitConversion? s t span = .error e ∧ ctx.castPlan s t span = .error e := by
  rw [castPlan]
  by_cases same : s = t
  · rw [if_pos same]
    exact Or.inl ⟨_, rfl⟩
  rw [if_neg same]
  cases converts : ctx.conversion? s t with
  | some c => exact Or.inl ⟨_, rfl⟩
  | none =>
      simp only
      split
      · exact Or.inl ⟨_, rfl⟩
      · cases members : ctx.explicitConversion? s t span with
        | error e => exact Or.inr ⟨e, rfl, rfl⟩
        | ok member =>
            cases member with
            | some m => exact Or.inl ⟨_, rfl⟩
            | none =>
                -- nothing is left but the checked cast
                have down : ctx.registry.isDowncast s t = true := by
                  rcases allowed with up | down
                  · obtain ⟨c, found, -⟩ := shaped.upcast_of_sub hs ht up
                    obtain ⟨c', found'⟩ := exists_conversion?_of_upcast hs found
                    rw [converts] at found'
                    cases found'
                  · exact down
                have checked : ctx.referenceCast? s t = some (.castClass t.id) := by
                  rw [referenceCast?, hs.held, ht.held, down]
                  rfl
                simp only [checked]
                exact Or.inl ⟨_, rfl⟩

/-- A cast between two types in which one type fits is not refused for its types. -/
theorem castPlan_ne_invalidCast (shaped : ctx.registry.Shaped)
    (unsealed : ctx.registry.UnsealedBases) (hx : ctx.registry.Knows x)
    (hs : ctx.registry.Reference s) (ht : ctx.registry.Reference t)
    (toS : ctx.registry.FitsIn x s) (toT : ctx.registry.FitsIn x t) (span : Span)
    (source target : String) (place : Span) :
    ctx.castPlan s t span ≠ .error (.invalidCast source target place) := by
  intro refused
  have allowed := shaped.sub_or_isDowncast_of_fitsIn unsealed hx hs ht toS toT
  rcases castPlan_of_references shaped hs ht allowed span with ⟨plan, done⟩ | ⟨e, failed, ends⟩
  · rw [done] at refused
    cases refused
  · -- two conversion members are an error of another kind
    obtain ⟨⟨details, at_, rfl⟩, -⟩ := explicitConversion?_error failed
    rw [ends] at refused
    cases refused

end Context

/-! ## Without conversion members -/

namespace Registry

/-- A host that declares types only has the members of the built-in types. -/
theorem members_reached {regs : List Registration}
    (types : ∀ reg ∈ regs, reg.declaresType = true) : (reached regs).members = [stringLength] := by
  have kept : (reached regs).memberTable = withPrimitives.memberTable := by
    refine List.foldlRecOn (motive := fun r => Registry.memberTable r = withPrimitives.memberTable)
      regs after rfl ?_
    intro r same reg hreg
    exact (keeps_after (types reg hreg) r).members.trans same
  rw [members, kept]
  decide +kernel

end Registry

namespace Context

open Registry

/-- Without conversion members none applies. -/
theorem conversionsNamed_eq_nil {ctx : Context} {s t : Ty}
    (unfit : ∀ m ∈ ctx.registry.members, convertsExactly s t m = false) (name : String) :
    ctx.conversionsNamed name s t = [] := by
  rw [conversionsNamed]
  have empty : ∀ owners : List HostId, (owners.flatMap
      (fun owner => ctx.membersOf owner name)).filter (convertsExactly s t) = [] := by
    intro owners
    refine List.filter_eq_nil_iff.mpr ?_
    intro m hm
    obtain ⟨owner, -, found⟩ := List.mem_flatMap.mp hm
    obtain ⟨declared, -⟩ := List.mem_filter.mp found
    obtain ⟨ancestor, -, held⟩ := List.mem_flatMap.mp declared
    rw [unfit m (mem_members_iff.mpr ⟨ancestor, held⟩)]
    exact Bool.false_ne_true
  simp only [empty]
  rfl

/-- Let a host keep to the conventions, and derive no class from a sealed one.  If some type
fits in both of two reference types, a cast from one to the other is not refused for its
types.  An upcast is always undone by a cast, unless by conversion members there are too
many ways to do it. -/
theorem castPlan_of_fitsIn {regs : List Registration} (orderly : withPrimitives.Orderly regs)
    (unsealed : (reached regs).UnsealedBases) (ctx : Context)
    (same : ctx.registry = reached regs) (span : Span) :
    (∀ x s t, (reached regs).Knows x → (reached regs).Reference s →
        (reached regs).Reference t → (reached regs).FitsIn x s → (reached regs).FitsIn x t →
        ∀ source target place,
          ctx.castPlan s t span ≠ .error (.invalidCast source target place))
      ∧ ((∀ reg ∈ regs, reg.declaresType = true) → ∀ s t, (reached regs).Reference s →
        (reached regs).Reference t → (reached regs).Widens s t →
        ∃ plan, ctx.castPlan t s span = .ok plan) := by
  have shaped := shaped_reached orderly
  have members : (∀ reg ∈ regs, reg.declaresType = true) →
      ctx.registry.members = [stringLength] := fun types => same ▸ members_reached types
  rw [← same] at shaped unsealed ⊢
  refine ⟨?_, ?_⟩
  · intro x s t hx hs ht toS toT
    exact castPlan_ne_invalidCast shaped unsealed hx hs ht toS toT span
  · intro types s t hs ht up
    -- the derived type itself fits in both
    have fits : ctx.registry.FitsIn s t := up.imp_right fun ⟨c, found, isUpcast⟩ =>
      ⟨c, found, Or.inl isUpcast⟩
    have allowed := shaped.sub_or_isDowncast_of_fitsIn unsealed hs.known ht hs fits
      (Or.inl rfl)
    rcases castPlan_of_references shaped ht hs allowed span with done | ⟨e, failed, -⟩
    · exact done
    · obtain ⟨-, applicable⟩ := explicitConversion?_error failed
      have unfit : ∀ m ∈ ctx.registry.members, convertsExactly t s m = false := by
        rw [members types]
        exact List.forall_mem_singleton.mpr rfl
      rw [conversionsNamed_eq_nil unfit, conversionsNamed_eq_nil unfit] at applicable
      exact absurd rfl applicable

/-- In the kennel a dog can be behind a name and be an animal, in arrays of arrays too; and
what is seen as names of dogs can be seen as dogs again. -/
theorem castPlan_of_fitsIn_kennel :
    (∀ source target place, castPlan ⟨reached Kennel.registrations, {}⟩ (Kennel.pack "Named")
        (Kennel.pack "Animal") default ≠ .error (.invalidCast source target place))
      ∧ ∃ plan, castPlan ⟨reached Kennel.registrations, {}⟩ (Kennel.pack "Named")
        (Kennel.pack "Dog") default = .ok plan := by
  obtain ⟨names, upNames⟩ := Kennel.upcast_dogs "Named" List.mem_cons_self
  obtain ⟨animals, upAnimals⟩ := Kennel.upcast_dogs "Animal" (List.mem_cons_of_mem _
    List.mem_cons_self)
  have unsealed : (reached Kennel.registrations).UnsealedBases := by decide +kernel
  have types : ∀ reg ∈ Kennel.registrations, reg.declaresType = true := by decide +kernel
  have same : Context.registry ⟨reached Kennel.registrations, {}⟩
      = reached Kennel.registrations := by dsimp only
  obtain ⟨allowed, undone⟩ := castPlan_of_fitsIn Kennel.orderly unsealed _ same default
  exact ⟨allowed _ _ _ Kennel.reference_dogs.known names animals
      (Or.inr ⟨_, upNames, Or.inl rfl⟩) (Or.inr ⟨_, upAnimals, Or.inl rfl⟩),
    undone types _ _ Kennel.reference_dogs names (Or.inr ⟨_, upNames, rfl⟩)⟩

end Context

end ExprCompiler
