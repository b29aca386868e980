/-
# Searches that go round in circles

A conversion between two arrays is searched for between their elements, and a checked cast
too.  What an array is made of is whatever the host says, so the elements of two arrays may
lead back to the same two arrays, and a search that follows them has no end.

The searches of a registry count their steps, and run out of them in such a case.  Here is
what that stands for.  A search that needs no count is one that some number of steps is enough
for (`Context.conversionWithin`, `Context.castWithin`), and

* there is such a number exactly if the descent through the elements meets no pair of types
  twice (`Registry.Circles`): if it does it goes on for ever, and it cannot meet more pairs
  than can be made of the elements there are, which are fewer than the steps a search is given;
* then any number that is enough gives the answer that is given with those steps.

A host that never refers ahead makes no circle, and one step more than there are types is
always enough.  But a registration does not guard against it: two arrays, each of which is said
to be made of itself, are accepted, and from the one to the other the searches do not end.

Main result: `Context.searches_end_iff`.
-/
import Mathlib.Data.Finset.Prod
import ExprCompiler.Conversion.Cast
import ExprCompiler.Proofs.Conversion.Upcasts
import ExprCompiler.Proofs.Host.Elements

namespace ExprCompiler

namespace Registry

variable {r : Registry} {s t a b : Ty} {p q : Ty × Ty} {k m n : Nat}

/-! ## Descents -/

/-- The elements between which the search for a conversion goes on. -/
def descent? (r : Registry) (p : Ty × Ty) : Option (Ty × Ty) :=
  match r.directReference? p.1 p.2 with
  | some _ => none
  | none => if p.1.isArray && p.2.isArray then r.elementPair? p.1 p.2 else none

/-- The elements that so many steps of the search lead to. -/
def nthDescent? (r : Registry) : Nat → Ty × Ty → Option (Ty × Ty)
  | 0, p => some p
  | n + 1, p => (r.descent? p).bind (r.nthDescent? n)

/-- The search for a conversion meets a pair of types again. -/
def Circles (r : Registry) (s t : Ty) : Prop :=
  ∃ m n p, m < n ∧ r.nthDescent? m (s, t) = some p ∧ r.nthDescent? n (s, t) = some p

theorem descent?_eq_some_iff : r.descent? p = some q ↔ r.directReference? p.1 p.2 = none
    ∧ (p.1.isArray && p.2.isArray) = true ∧ r.elementPair? p.1 p.2 = some q := by
  rw [descent?]
  cases r.directReference? p.1 p.2 with
  | some c => simp
  | none => simp

theorem nthDescent?_add (r : Registry) (m n : Nat) (p : Ty × Ty) :
    r.nthDescent? (m + n) p = (r.nthDescent? m p).bind (r.nthDescent? n) := by
  induction m generalizing p with
  | zero => rw [Nat.zero_add, nthDescent?, Option.bind_some]
  | succ m ih =>
      rw [Nat.succ_add, nthDescent?, nthDescent?, Option.bind_assoc]
      exact Option.bind_congr fun q _ => ih q

theorem nthDescent?_isSome_of_le (fewer : m ≤ n) (led : (r.nthDescent? n p).isSome) :
    (r.nthDescent? m p).isSome := by
  rw [← Nat.add_sub_cancel' fewer, nthDescent?_add] at led
  cases there : r.nthDescent? m p with
  | some q => rfl
  | none =>
      rw [there] at led
      cases led

/-- A descent goes from types to what they are made of. -/
theorem element?_of_elementPair? (pair : r.elementPair? s t = some (a, b)) :
    r.element? s.id = some a ∧ r.element? t.id = some b := by
  simp only [elementPair?, Option.bind_eq_bind, Option.bind_eq_some_iff] at pair
  obtain ⟨es, foundS, et, foundT, a', elementS, b', elementT, kept⟩ := pair
  split at kept
  · cases kept
    exact ⟨element?_eq_some_iff.mpr ⟨es, foundS, elementS⟩,
      element?_eq_some_iff.mpr ⟨et, foundT, elementT⟩⟩
  · cases kept

/-! ## Circles -/

theorem nthDescent?_mul (round : r.nthDescent? k p = some p) (n : Nat) :
    r.nthDescent? (n * k) p = some p := by
  induction n with
  | zero => rw [Nat.zero_mul, nthDescent?]
  | succ n ih => rw [Nat.succ_mul, nthDescent?_add, ih, Option.bind_some, round]

/-- A descent that meets a pair again goes on for ever. -/
theorem Circles.isSome_nthDescent? (circles : r.Circles s t) (n : Nat) :
    (r.nthDescent? n (s, t)).isSome := by
  obtain ⟨m, m', p, before, first, again⟩ := circles
  have round : r.nthDescent? (m' - m) p = some p := by
    rw [← Nat.add_sub_cancel' (Nat.le_of_lt before), nthDescent?_add, first,
      Option.bind_some] at again
    exact again
  have later : r.nthDescent? (m + n * (m' - m)) (s, t) = some p := by
    rw [nthDescent?_add, first, Option.bind_some, nthDescent?_mul round]
  have far : n ≤ m + n * (m' - m) :=
    (Nat.le_mul_of_pos_right n (Nat.sub_pos_of_lt before)).trans (Nat.le_add_left _ m)
  refine nthDescent?_isSome_of_le far ?_
  rw [later]
  rfl

/-- All that types are made of. -/
def elements (r : Registry) : List Ty := r.types.values.filterMap (·.element)

theorem mem_elements {id : HostId} (of : r.element? id = some a) : a ∈ r.elements := by
  obtain ⟨e, found, element⟩ := element?_eq_some_iff.mp of
  exact List.mem_filterMap.mpr
    ⟨e, List.mem_map.mpr ⟨(id, e), Table.find?_eq_some_iff.mp found, rfl⟩, element⟩

theorem length_elements_le (r : Registry) : r.elements.length ≤ r.typeCount := by
  refine (List.length_filterMap_le _ _).trans ?_
  rw [Table.values, List.length_map]
  exact Nat.le_refl _

theorem mem_elements_of_nthDescent? (led : r.nthDescent? (n + 1) p = some (a, b)) :
    a ∈ r.elements ∧ b ∈ r.elements := by
  rw [nthDescent?_add, Option.bind_eq_some_iff] at led
  obtain ⟨q, -, last⟩ := led
  rw [nthDescent?, Option.bind_eq_some_iff] at last
  obtain ⟨q', down, same⟩ := last
  cases same
  obtain ⟨ofA, ofB⟩ := element?_of_elementPair? (descent?_eq_some_iff.mp down).2.2
  exact ⟨mem_elements ofA, mem_elements ofB⟩

/-- A descent that takes all the steps a search is given has met a pair twice: there are not so
many pairs of elements. -/
theorem circles_of_isSome (long : (r.nthDescent? r.elementBudget (s, t)).isSome) :
    r.Circles s t := by
  -- every step but the first starts from a pair of elements
  let reach : Nat → Ty × Ty := fun i => (r.nthDescent? (i + 1) (s, t)).getD (s, t)
  let steps := Finset.range ((r.typeCount + 1) * (r.typeCount + 1))
  let pairs := r.elements.toFinset ×ˢ r.elements.toFinset
  have led : ∀ i ∈ steps, r.nthDescent? (i + 1) (s, t) = some (reach i) := by
    intro i hi
    have short : i + 1 ≤ r.elementBudget := by
      have bound := Finset.mem_range.mp hi
      rw [elementBudget]
      omega
    obtain ⟨q, there⟩ := Option.isSome_iff_exists.mp (nthDescent?_isSome_of_le short long)
    simp only [reach, there, Option.getD_some]
  have fewer : pairs.card < steps.card := by
    have few : r.elements.toFinset.card < r.typeCount + 1 := Nat.lt_succ_of_le
      ((List.toFinset_card_le _).trans r.length_elements_le)
    rw [Finset.card_range, Finset.card_product]
    exact Nat.mul_lt_mul'' few few
  have within : ∀ i ∈ steps, reach i ∈ pairs := by
    intro i hi
    obtain ⟨inA, inB⟩ := mem_elements_of_nthDescent? (led i hi)
    exact Finset.mem_product.mpr ⟨List.mem_toFinset.mpr inA, List.mem_toFinset.mpr inB⟩
  obtain ⟨i, hi, j, hj, other, same⟩ :=
    Finset.exists_ne_map_eq_of_card_lt_of_maps_to fewer within
  rcases Nat.lt_or_gt_of_ne other with before | before
  · exact ⟨i + 1, j + 1, reach i, Nat.succ_lt_succ before, led i hi, same ▸ led j hj⟩
  · exact ⟨j + 1, i + 1, reach j, Nat.succ_lt_succ before, led j hj, same ▸ led i hi⟩

/-! ## The search for a conversion -/

theorem referenceSearch_of_descent (down : r.descent? (s, t) = some (a, b)) (n : Nat) :
    r.referenceSearch (n + 1) s t = (r.referenceSearch n a b).map (fun found =>
      if found.any (·.isUpcast) then some (.upcast t Conversion.stepCost) else none) := by
  obtain ⟨direct, arrays, pair⟩ := descent?_eq_some_iff.mp down
  simp only at direct arrays pair
  rw [referenceSearch, direct]
  simp only
  rw [if_pos arrays, pair]

/-- Where there is no descent the next step gives the answer. -/
theorem referenceSearch_of_descent_eq_none (end_ : r.descent? (s, t) = none) (n : Nat) :
    r.referenceSearch (n + 1) s t = some (r.directReference? s t) := by
  rw [referenceSearch]
  rw [descent?] at end_
  cases direct : r.directReference? s t with
  | some c => rfl
  | none =>
      rw [direct] at end_
      simp only at end_ ⊢
      split
      · next arrays =>
          rw [if_pos arrays] at end_
          rw [end_]
      · rfl

/-- A search runs out of steps exactly if the descent goes on for so many. -/
theorem referenceSearch_eq_none_iff :
    r.referenceSearch n s t = none ↔ (r.nthDescent? n (s, t)).isSome := by
  induction n generalizing s t with
  | zero => exact iff_of_true rfl rfl
  | succ n ih =>
      rw [nthDescent?]
      cases down : r.descent? (s, t) with
      | some q => rw [referenceSearch_of_descent down, Option.map_eq_none_iff, ih, Option.bind_some]
      | none =>
          rw [referenceSearch_of_descent_eq_none down]
          exact iff_of_false nofun nofun

/-- More steps do not change an answer. -/
theorem referenceSearch_mono {answer : Option Conversion} (more : n ≤ m)
    (found : r.referenceSearch n s t = some answer) : r.referenceSearch m s t = some answer := by
  induction n generalizing m s t answer with
  | zero => cases found
  | succ n ih =>
      obtain ⟨m, rfl⟩ := Nat.exists_eq_succ_of_ne_zero (Nat.ne_zero_of_lt more)
      cases down : r.descent? (s, t) with
      | none =>
          rw [referenceSearch_of_descent_eq_none down] at found ⊢
          exact found
      | some q =>
          rw [referenceSearch_of_descent down] at found ⊢
          obtain ⟨inner, answered, outer⟩ := Option.map_eq_some_iff.mp found
          rw [ih (Nat.le_of_succ_le_succ more) answered, Option.map_some, outer]

/-- Some number of steps is enough exactly if the search meets no pair of types twice. -/
theorem exists_isSome_referenceSearch_iff :
    (∃ n, (r.referenceSearch n s t).isSome) ↔ ¬ r.Circles s t := by
  constructor
  · rintro ⟨n, found⟩ circles
    rw [referenceSearch_eq_none_iff.mpr (circles.isSome_nthDescent? n)] at found
    cases found
  · intro straight
    refine ⟨r.elementBudget, Option.isSome_iff_ne_none.mpr fun out => ?_⟩
    exact straight (circles_of_isSome (referenceSearch_eq_none_iff.mp out))

/-- Whatever number of steps is enough, the answer is the one within the budget. -/
theorem referenceSearch_budget {answer : Option Conversion}
    (found : r.referenceSearch n s t = some answer) :
    r.referenceSearch r.elementBudget s t = some answer := by
  rcases Nat.le_total n r.elementBudget with fewer | more
  · exact referenceSearch_mono fewer found
  · have straight : ¬ r.Circles s t :=
      exists_isSome_referenceSearch_iff.mp ⟨n, Option.isSome_iff_exists.mpr ⟨answer, found⟩⟩
    cases ended : r.referenceSearch r.elementBudget s t with
    | none => exact absurd (circles_of_isSome (referenceSearch_eq_none_iff.mp ended)) straight
    | some answer' => exact (referenceSearch_mono more ended).symm.trans found

theorem referenceConversion?_of_search {answer : Option Conversion}
    (found : r.referenceSearch n s t = some answer) : r.referenceConversion? s t = answer := by
  rw [referenceConversion?, referenceSearch_budget found, Option.getD_some]

/-! ## The search for a checked cast -/

theorem isReference_of_isArray (array : s.isArray = true) :
    s.isReference = true ∧ s.isNull = false ∧ s.isValue = false ∧ s.numericKind? = none := by
  rw [Ty.isReference, Ty.isNull, Ty.isValue, Ty.numericKind?, isArray_iff.mp array]
  exact ⟨rfl, rfl, rfl, rfl⟩

/-- From an array nothing but an upcast is found. -/
theorem isUpcast_of_found {c : Conversion} (array : s.isArray = true)
    (found : r.referenceSearch n s t = some (some c)) : c.isUpcast = true := by
  cases n with
  | zero => cases found
  | succ n =>
      cases down : r.descent? (s, t) with
      | none =>
          obtain ⟨held, notNull, notValue, -⟩ := isReference_of_isArray array
          rw [referenceSearch_of_descent_eq_none down, Option.some_inj, directReference?, notNull,
            notValue, held] at found
          split at found
          · cases found
          · exact isUpcast_directUpcast? found
      | some q =>
          rw [referenceSearch_of_descent down] at found
          obtain ⟨inner, -, outer⟩ := Option.map_eq_some_iff.mp found
          split at outer
          · cases outer
            rfl
          · cases outer

theorem directReference?_eq_none_of_search (nothing : r.referenceSearch n s t = some none) :
    r.directReference? s t = none := by
  cases n with
  | zero => cases nothing
  | succ n =>
      cases direct : r.directReference? s t with
      | none => rfl
      | some c =>
          rw [referenceSearch, direct] at nothing
          cases nothing

/-- Where no conversion is found, the search for a checked cast ends no later. -/
theorem isSome_downcastSearch (nothing : r.referenceSearch n s t = some none) :
    (r.downcastSearch n s t).isSome := by
  induction n generalizing s t with
  | zero => cases nothing
  | succ n ih =>
      rw [downcastSearch]
      split
      · next arrays =>
          cases pair : r.elementPair? s t with
          | none => rfl
          | some q =>
              obtain ⟨a, b⟩ := q
              simp only
              split
              · rfl
              · have direct := directReference?_eq_none_of_search nothing
                have down : r.descent? (s, t) = some (a, b) :=
                  descent?_eq_some_iff.mpr ⟨direct, arrays, pair⟩
                rw [referenceSearch_of_descent down] at nothing
                obtain ⟨inner, answered, outer⟩ := Option.map_eq_some_iff.mp nothing
                cases inner with
                | none => exact ih answered
                | some c =>
                    -- the elements are not arrays, so this search ends with them
                    have apart : ¬ (a.isArray && b.isArray) = true := by
                      intro arrays'
                      rw [Bool.and_eq_true] at arrays'
                      rw [Option.any_some, isUpcast_of_found arrays'.1 answered] at outer
                      cases outer
                    cases n with
                    | zero => cases answered
                    | succ n =>
                        rw [downcastSearch, if_neg apart]
                        rfl
      · rfl

theorem downcastSearch_mono {answer : Bool} (more : n ≤ m)
    (found : r.downcastSearch n s t = some answer) : r.downcastSearch m s t = some answer := by
  induction n generalizing m s t answer with
  | zero => cases found
  | succ n ih =>
      obtain ⟨m, rfl⟩ := Nat.exists_eq_succ_of_ne_zero (Nat.ne_zero_of_lt more)
      rw [downcastSearch] at found ⊢
      split
      · next arrays =>
          rw [if_pos arrays] at found
          cases pair : r.elementPair? s t with
          | none =>
              rw [pair] at found
              exact found
          | some q =>
              obtain ⟨a, b⟩ := q
              rw [pair] at found
              simp only at found ⊢
              split
              · next same =>
                  rw [if_pos same] at found
                  exact found
              · next other =>
                  rw [if_neg other] at found
                  exact ih (Nat.le_of_succ_le_succ more) found
      · next arrays =>
          rw [if_neg arrays] at found
          exact found

/-- Where no conversion is found, the answer is the one within the budget. -/
theorem isDowncast_of_search {answer : Bool} (nothing : r.referenceSearch n s t = some none)
    (found : r.downcastSearch n s t = some answer) : r.isDowncast s t = answer := by
  obtain ⟨answer', within⟩ := Option.isSome_iff_exists.mp
    (isSome_downcastSearch (referenceSearch_budget nothing))
  have same : answer' = answer := by
    rcases Nat.le_total n r.elementBudget with fewer | more
    · exact Option.some.inj (within.symm.trans (downcastSearch_mono fewer found))
    · exact Option.some.inj ((downcastSearch_mono more within).symm.trans found)
  rw [isDowncast, within, Option.getD_some, same]

/-- Where arrays are made of what was there before them, there are no more steps than types. -/
theorem Layered.le_of_isSome_nthDescent? (h : r.Layered)
    (led : (r.nthDescent? n (s, t)).isSome) : n ≤ r.typeCount := by
  obtain ⟨depth, bounded, falls⟩ := h.depth_le
  have sinks : ∀ (n : Nat) (s t : Ty), (r.nthDescent? n (s, t)).isSome → n ≤ depth s.id := by
    intro n
    induction n with
    | zero => exact fun _ _ _ => Nat.zero_le _
    | succ n ih =>
        intro s t led
        rw [nthDescent?] at led
        cases down : r.descent? (s, t) with
        | none =>
            rw [down] at led
            cases led
        | some q =>
            obtain ⟨a, b⟩ := q
            rw [down, Option.bind_some] at led
            obtain ⟨of, -⟩ := element?_of_elementPair? (descent?_eq_some_iff.mp down).2.2
            exact (Nat.succ_le_succ (ih a b led)).trans (falls s.id a of)
  exact (sinks n s t led).trans (bounded s.id)

/-- No conversion of a type to itself is searched for, nor one between numbers. -/
theorem Circles.ne_and_not_numeric (circles : r.Circles s t) : s ≠ t ∧ s.numericKind? = none := by
  have down := circles.isSome_nthDescent? 1
  rw [nthDescent?] at down
  cases first : r.descent? (s, t) with
  | none =>
      rw [first] at down
      cases down
  | some q =>
      obtain ⟨direct, arrays, -⟩ := descent?_eq_some_iff.mp first
      simp only [Bool.and_eq_true] at direct arrays
      obtain ⟨held, notNull, notValue, notNumeric⟩ := isReference_of_isArray arrays.1
      refine ⟨?_, notNumeric⟩
      rintro rfl
      rw [directReference?, notNull, notValue, held, directUpcast?, inheritanceDistance?_self]
        at direct
      cases direct

end Registry

namespace Context

open Registry

variable {ctx : Context} {s t : Ty} {span : Span} {n : Nat}

/-! ## Conversions and casts -/

/-- The implicit conversion of one type to another, if it is decided within so many steps
through the elements of arrays. -/
def conversionWithin (ctx : Context) (n : Nat) (s t : Ty) : Option (Option Conversion) :=
  if s = t then some (some .identity)
  else
    match s.numericKind?, t.numericKind? with
    | some k, some k' => some (Conversion.widening? k k')
    | _, _ =>
      (ctx.registry.referenceSearch n s t).map fun found =>
        match found with
        | some c => some c
        | none => (ctx.userConversion? s t).map .user

/-- The cast between references or out of a box, if it is decided within so many steps. -/
def referenceCastWithin (ctx : Context) (n : Nat) (s t : Ty) : Option (Option CastPlan) :=
  (if s.isReference && t.isReference then ctx.registry.downcastSearch n s t else some false).map
    fun down =>
      if down then some (.castClass t.id)
      else if t.isValue && ctx.canUnbox s t then some (.unbox t.id)
      else none

/-- The plan of a cast, if it is decided within so many steps. -/
def castWithin (ctx : Context) (n : Nat) (s t : Ty) (span : Span) :
    Option (Except CompileError CastPlan) :=
  if s = t then some (.ok .identity)
  else
    (ctx.conversionWithin n s t).bind fun
      | some c => some (.ok (.implicit c))
      | none =>
        match ctx.numericView? s, ctx.numericView? t with
        | some k, some k' => some (.ok (ctx.numericCast k k'))
        | _, _ =>
          match ctx.explicitConversion? s t span with
          | .error e => some (.error e)
          | .ok (some m) => some (.ok (.user m.id))
          | .ok none =>
            (ctx.referenceCastWithin n s t).map fun
              | some plan => .ok plan
              | none => .error (.invalidCast (ctx.typeName s) (ctx.typeName t) span)

theorem conversion?_of_within {answer : Option Conversion}
    (decided : ctx.conversionWithin n s t = some answer) : ctx.conversion? s t = answer := by
  have searched : ((ctx.registry.referenceSearch n s t).map fun found =>
        match found with
        | some c => some c
        | none => (ctx.userConversion? s t).map .user) = some answer →
      (match ctx.registry.referenceConversion? s t with
        | some c => some c
        | none => (ctx.userConversion? s t).map .user) = answer := by
    intro mapped
    obtain ⟨found, searched, rfl⟩ := Option.map_eq_some_iff.mp mapped
    rw [referenceConversion?_of_search searched]
  rw [conversionWithin] at decided
  rw [conversion?]
  by_cases same : s = t
  · rw [if_pos same] at decided ⊢
    exact Option.some.inj decided
  rw [if_neg same] at decided ⊢
  -- a widening needs no search
  revert decided
  cases s.numericKind? with
  | none => exact searched
  | some k =>
      cases t.numericKind? with
      | none => exact searched
      | some k' => exact Option.some.inj

/-- Between references it is the search that has found nothing. -/
theorem referenceSearch_of_within (held : s.isReference = true)
    (nothing : ctx.conversionWithin n s t = some none) :
    ctx.registry.referenceSearch n s t = some none := by
  rw [conversionWithin] at nothing
  split at nothing
  · cases nothing
  split at nothing
  · next k k' kind _ =>
      rw [Ty.isReference] at held
      rw [Ty.numericKind?] at kind
      split at kind
      · next numeric =>
          rw [numeric] at held
          cases held
      · cases kind
  · obtain ⟨found, searched, none_⟩ := Option.map_eq_some_iff.mp nothing
    cases found with
    | none => exact searched
    | some c => cases none_

theorem referenceCastWithin_eq (nothing : ctx.conversionWithin n s t = some none) :
    ctx.referenceCastWithin n s t = some (ctx.referenceCast? s t) := by
  rw [referenceCastWithin, referenceCast?]
  by_cases held : (s.isReference && t.isReference) = true
  · have heldS : s.isReference = true := (Bool.and_eq_true_iff.mp held).1
    have searched := referenceSearch_of_within heldS nothing
    obtain ⟨down, found⟩ := Option.isSome_iff_exists.mp (isSome_downcastSearch searched)
    rw [if_pos held, found, held, isDowncast_of_search searched found]
    rfl
  · rw [if_neg held, Bool.eq_false_of_not_eq_true held]
    rfl

/-- A cast is decided within the steps that decide the conversion. -/
theorem castWithin_eq (ctx : Context) (n : Nat) (s t : Ty) (span : Span) :
    ctx.castWithin n s t span
      = (ctx.conversionWithin n s t).map fun _ => ctx.castPlan s t span := by
  rw [castWithin, castPlan]
  by_cases same : s = t
  · rw [if_pos same, if_pos same, conversionWithin, if_pos same]
    rfl
  rw [if_neg same, if_neg same]
  cases decided : ctx.conversionWithin n s t with
  | none => rfl
  | some answer =>
      rw [conversion?_of_within decided, Option.bind_some, Option.map_some]
      cases answer with
      | some c => rfl
      | none =>
          simp only
          rw [referenceCastWithin_eq decided]
          -- both ask the same questions in the same order
          rcases ctx.numericView? s with _ | k <;> rcases ctx.numericView? t with _ | k' <;>
            rcases ctx.explicitConversion? s t span with e | _ | m <;> rfl

theorem isSome_conversionWithin (searched : (ctx.registry.referenceSearch n s t).isSome) :
    (ctx.conversionWithin n s t).isSome := by
  rw [conversionWithin]
  split
  · rfl
  split
  · rfl
  · rw [Option.isSome_map]
    exact searched

theorem conversionWithin_of_circles (circles : ctx.registry.Circles s t) (n : Nat) :
    ctx.conversionWithin n s t = none := by
  obtain ⟨other, notNumeric⟩ := circles.ne_and_not_numeric
  rw [conversionWithin, if_neg other, notNumeric,
    referenceSearch_eq_none_iff.mpr (circles.isSome_nthDescent? n)]
  rfl

theorem exists_isSome_conversionWithin_iff :
    (∃ n, (ctx.conversionWithin n s t).isSome) ↔ ¬ ctx.registry.Circles s t := by
  constructor
  · rintro ⟨n, decided⟩ circles
    rw [conversionWithin_of_circles circles] at decided
    cases decided
  · intro straight
    obtain ⟨n, searched⟩ := exists_isSome_referenceSearch_iff.mpr straight
    exact ⟨n, isSome_conversionWithin searched⟩

/-- Where arrays are made of what was there before them, a step more than there are types is
enough. -/
theorem conversionWithin_of_layered (layered : ctx.registry.Layered)
    (enough : ctx.registry.typeCount < n) (s t : Ty) :
    ctx.conversionWithin n s t = some (ctx.conversion? s t) := by
  have searched : (ctx.registry.referenceSearch n s t).isSome := by
    refine Option.isSome_iff_ne_none.mpr fun out => ?_
    exact absurd (layered.le_of_isSome_nthDescent? (referenceSearch_eq_none_iff.mp out))
      (Nat.not_le_of_lt enough)
  obtain ⟨answer, decided⟩ := Option.isSome_iff_exists.mp (isSome_conversionWithin searched)
  rw [decided, conversion?_of_within decided]

/-- Whatever a host registers: the implicit conversion of a type to another is decided within
some number of steps exactly if the search for it meets no pair of types twice, and so is the
plan of a cast.  What is decided within any number of steps is the answer that is given.  And if
no registration has referred ahead, a step more than there are types is enough for both. -/
theorem searches_end_iff {start : List Registration → Registry}
    (host : start = made ∨ start = reached) {regs : List Registration} {ctx : Context}
    (built : ctx.registry = start regs) (s t : Ty) (span : Span) :
    ((∃ n, (ctx.conversionWithin n s t).isSome) ↔ ¬ ctx.registry.Circles s t)
      ∧ ((∃ n, (ctx.castWithin n s t span).isSome) ↔ ¬ ctx.registry.Circles s t)
      ∧ (∀ n answer, ctx.conversionWithin n s t = some answer → ctx.conversion? s t = answer)
      ∧ (∀ n plan, ctx.castWithin n s t span = some plan → ctx.castPlan s t span = plan)
      ∧ ((∀ before reg later, regs = before ++ reg :: later → ¬ reg.RefersAhead (start before)) →
        ∀ n, ctx.registry.typeCount < n →
          ctx.conversionWithin n s t = some (ctx.conversion? s t)
            ∧ ctx.castWithin n s t span = some (ctx.castPlan s t span)) := by
  refine ⟨exists_isSome_conversionWithin_iff, ?_, fun n answer => conversion?_of_within, ?_, ?_⟩
  · simp only [castWithin_eq, Option.isSome_map]
    exact exists_isSome_conversionWithin_iff
  · intro n plan decided
    rw [castWithin_eq] at decided
    obtain ⟨answer, -, same⟩ := Option.map_eq_some_iff.mp decided
    exact same
  · intro behind n enough
    have layered : ctx.registry.Layered := by
      rw [built]
      rcases host with rfl | rfl
      · exact Layered.start.foldl_after behind
      · exact Layered.start.registerPrimitives.foldl_after behind
    have decided := conversionWithin_of_layered layered enough s t
    exact ⟨decided, by rw [castWithin_eq, decided, Option.map_some]⟩

/-- In the kennel a table of dogs is one of animals, and a cast goes back. -/
theorem searches_end_iff_kennel :
    conversionWithin ⟨reached Kennel.registrations, {}⟩ 40 (Kennel.pack "Dog")
        (Kennel.pack "Animal") = some (some (.upcast (Kennel.pack "Animal") Conversion.stepCost))
      ∧ castWithin ⟨reached Kennel.registrations, {}⟩ 40 (Kennel.pack "Animal")
        (Kennel.pack "Dog") default = some (.ok (.castClass (Kennel.pack "Dog").id))
      ∧ ¬ (reached Kennel.registrations).Circles (Kennel.pack "Animal") (Kennel.pack "Dog") := by
  have host : reached = made ∨ reached = reached := Or.inr rfl
  have built : Context.registry ⟨reached Kennel.registrations, {}⟩
      = reached Kennel.registrations := by dsimp only
  have behind : ∀ before reg later, Kennel.registrations = before ++ reg :: later →
      ¬ reg.RefersAhead (reached before) := by
    intro before reg later split ahead
    obtain ⟨e, rfl⟩ := exists_type_of_refersAhead ahead
    have listed : Registration.type e ∈ Kennel.registrations :=
      split ▸ List.mem_append_right before List.mem_cons_self
    simp [Kennel.registrations] at listed
  have enough : (Context.registry ⟨reached Kennel.registrations, {}⟩).typeCount < 40 := by
    decide +kernel
  have up : conversion? ⟨reached Kennel.registrations, {}⟩ (Kennel.pack "Dog")
      (Kennel.pack "Animal") = some (.upcast (Kennel.pack "Animal") Conversion.stepCost) := by
    decide +kernel
  have down : castPlan ⟨reached Kennel.registrations, {}⟩ (Kennel.pack "Animal")
      (Kennel.pack "Dog") default = .ok (.castClass (Kennel.pack "Dog").id) := by decide +kernel
  obtain ⟨-, -, -, -, ends⟩ :=
    searches_end_iff host built (Kennel.pack "Dog") (Kennel.pack "Animal") default
  obtain ⟨straight, -, -, -, ends'⟩ :=
    searches_end_iff host built (Kennel.pack "Animal") (Kennel.pack "Dog") default
  rw [built] at straight
  obtain ⟨converted, -⟩ := ends behind 40 enough
  obtain ⟨converted', cast⟩ := ends' behind 40 enough
  refine ⟨converted.trans (congrArg some up), cast.trans (congrArg some down),
    straight.mp ⟨40, ?_⟩⟩
  rw [converted']
  rfl

/-- An array type that is made of itself. -/
def ring (name : String) : Ty := ⟨HostId.ofName name, .array⟩

/-- Two of them, each described in full. -/
def rings : List Registration :=
  ["A", "B"].map fun name =>
    .type { TypeEntry.plain name (ring name) with element := some (ring name), rank := 1 }

/-- Both are registered, and no number of steps decides whether one converts to the other, or
how to cast it. -/
theorem rings_undecided : (reached rings).Knows (ring "A") ∧ (reached rings).Knows (ring "B")
    ∧ ∀ options n span, conversionWithin ⟨reached rings, options⟩ n (ring "A") (ring "B") = none
      ∧ castWithin ⟨reached rings, options⟩ n (ring "A") (ring "B") span = none := by
  refine ⟨by decide +kernel, by decide +kernel, ?_⟩
  intro options n span
  have circles : (reached rings).Circles (ring "A") (ring "B") :=
    ⟨0, 1, (ring "A", ring "B"), Nat.zero_lt_one, rfl, by decide +kernel⟩
  have undecided : conversionWithin ⟨reached rings, options⟩ n (ring "A") (ring "B") = none :=
    conversionWithin_of_circles circles n
  exact ⟨undecided, by rw [castWithin_eq, undecided, Option.map_none]⟩

end Context

end ExprCompiler
