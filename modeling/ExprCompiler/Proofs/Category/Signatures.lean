/-
# The signature that a registry describes

Code is verified against a signature, and a signature has to agree with the registry that a
formula was built over.  A registry describes one itself: the category of each type, of what
each member is read as, and of what it takes and returns.  Where no two members share an
identity and none has a trailing array (`Context.Plain`), this one agrees with it, so that
nothing is left to assume of the host but what can be looked up.

Main result: `Context.Plain.describes`.
-/
import ExprCompiler.Proofs.Category.Typing
import ExprCompiler.Proofs.Host.Bases

namespace ExprCompiler

namespace Signature

/-- What the helpers of the runtime take and leave. -/
def helpers : List (HostId × List Category × Category) :=
  [(Helper.stringConcat, [.reference, .reference], .reference),
    (Helper.stringConcatObject, [.reference, .reference], .reference),
    (Helper.stringEquals, [.reference, .reference, .int32], .int32),
    (Helper.mathPow, [.double, .double], .double)]

def helper? (id : HostId) (args : List Category) : Option Category :=
  (helpers.find? fun row => row.1 = id ∧ row.2.1 = args).map (·.2.2)

end Signature

namespace Context

variable {ctx : Context} {m : Member} {t : Ty}

/-- All that a name can stand for. -/
def known (ctx : Context) : List Member :=
  ctx.registry.members ++ ctx.registry.functions.map (·.2)

theorem mem_known_iff : m ∈ ctx.known ↔ ctx.Knows m := by
  simp [known, Knows]

/-- Operators can be looked through one by one. -/
theorem orderly_of_known (each : ∀ m ∈ ctx.known, m.kind = .operator → m.isStatic = true
    ∧ ∀ op ∈ CompareOp.all, Registry.nameMatches ctx.options.ignoreCase
      (Operator.binary (.compare op)).methodName m.name = true → m.returns.isBool = true) :
    ctx.Orderly where
  static m knows operator := (each m (mem_known_iff.mpr knows) operator).1
  comparison op owner m offered := by
    obtain ⟨named, fits⟩ := List.mem_filter.mp offered
    have operator : m.kind = .operator := by
      rw [Bool.and_eq_true, beq_iff_eq] at fits
      exact fits.1
    have listed : op ∈ CompareOp.all := by cases op <;> decide
    have knows := mem_known_iff.mpr (knows_of_membersOf named)
    exact (each m knows operator).2 op listed (List.mem_filter.mp named).2

/-- The categories by which a registry describes its types and members. -/
def signature (ctx : Context) : Signature where
  value id := (ctx.entry? id).elim .reference fun e => ctx.category e.type
  field id := (ctx.known.find? (·.id = id)).map fun m => ctx.category m.returns
  call id args :=
    match ctx.known.find? (·.id = id) with
    | some m => if args = m.params.map ctx.category then some (ctx.category m.returns) else none
    | none => Signature.helper? id args

/-- Members are told apart by their identities, those that are read have no parameters and
none has a trailing array, and collections are searched by members. -/
structure Plain (ctx : Context) : Prop where
  fixed : ∀ m ∈ ctx.known, m.variadic = none
  bare : ∀ m ∈ ctx.known, m.kind = .property → m.params = []
  apart : ∀ m ∈ ctx.known, ctx.known.find? (·.id = m.id) = some m
  /-- No member is taken for a helper. -/
  helpers : ∀ id ∈ Signature.helpers.map (·.1), ctx.known.find? (·.id = id) = none
  searched : ∀ row ∈ ctx.registry.types.rows, ∀ c ∈ row.2.collections,
    ∃ m ∈ ctx.known, m.id = c.contains ∧ m.params = [c.element] ∧ m.returns.isBool = true

namespace Plain

theorem call (h : ctx.Plain) (knows : ctx.Knows m) :
    ctx.signature.call m.id (m.params.map ctx.category) = some (ctx.category m.returns) := by
  simp only [signature, h.apart m (mem_known_iff.mpr knows), if_true]

theorem helper (h : ctx.Plain) {id : HostId} (listed : id ∈ Signature.helpers.map (·.1))
    (args : List Category) : ctx.signature.call id args = Signature.helper? id args := by
  simp only [signature, h.helpers id listed]

/-- The signature of a registry agrees with it. -/
theorem describes (h : ctx.Plain) : ctx.signature.Describes ctx where
  called m params knows _ form := by
    rw [Form, h.fixed m (mem_known_iff.mpr knows)] at form
    rw [form]
    exact h.call knows
  property m knows property := by
    have called := h.call knows
    rw [h.bare m (mem_known_iff.mpr knows) property] at called
    exact called
  field m knows _ := by
    simp only [signature, h.apart m (mem_known_iff.mpr knows), Option.map_some]
  contains id interface found := by
    obtain ⟨-, first⟩ := Registry.foldl_betterCollection_some found
    obtain ⟨e, held, declared⟩ := List.mem_flatMap.mp (List.mem_of_find?_eq_some first)
    obtain ⟨id', -, entry⟩ := List.mem_filterMap.mp held
    obtain ⟨m, listed, same, params, bool⟩ :=
      h.searched (id', e) (Table.find?_eq_some_iff.mp entry) interface declared
    have called := h.call (mem_known_iff.mp listed)
    rw [same, params, category_of_isBool bool] at called
    exact called
  concat := (h.helper (by decide) _).trans rfl
  concatObject := (h.helper (by decide) _).trans rfl
  equals := (h.helper (by decide) _).trans rfl
  pow := (h.helper (by decide) _).trans rfl

end Plain

/-- A registered type has the category that the registry says. -/
theorem signature_sizes (known : ∃ e ∈ ctx.entry? t.id, e.type = t) :
    ctx.signature.Sizes ctx t := by
  obtain ⟨e, found, same⟩ := known
  intro _
  simp only [signature, Option.mem_def.mp found, Option.elim_some, same]

end Context

end ExprCompiler
