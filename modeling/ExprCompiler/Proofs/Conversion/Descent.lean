/-
# Descents through element types end

The searches for an upcast and for a checked cast count their steps, since a registry may
describe an array that is made of itself.  No host that keeps to the conventions makes such
a registry: what an array is made of was there before it.  So on registered types of a
registry of the right shape no search runs out of steps, and both answers satisfy the
equations that one would write down without a count (`Shaped.referenceConversion?_eq`,
`Shaped.isDowncast_eq`).  All that is proved of conversions and casts between references
starts from these two.
-/
import ExprCompiler.Conversion.Reference
import ExprCompiler.Proofs.Host.Derivation

namespace ExprCompiler

namespace Registry

variable {r : Registry} {s t a b : Ty}

theorem isArray_iff {t : Ty} : t.isArray = true ↔ t.kind = .array := by
  rw [Ty.isArray, beq_iff_eq]

/-- The elements that decide between two arrays: those of two arrays of one rank, if both
are held by reference. -/
theorem elementPair?_eq_some_iff (hs : r.Knows s) (ht : r.Knows t)
    (arrayS : s.kind = .array) (arrayT : t.kind = .array) :
    r.elementPair? s t = some (a, b) ↔ ∃ rank, r.ArrayOf s a rank ∧ r.ArrayOf t b rank
      ∧ a.isReference = true ∧ b.isReference = true := by
  obtain ⟨es, foundS, typeS⟩ := hs
  obtain ⟨et, foundT, typeT⟩ := ht
  rw [elementPair?, foundS, foundT]
  simp only [Option.bind_eq_bind, Option.bind_some, Option.bind_eq_some_iff]
  constructor
  · rintro ⟨a', elementS, b', elementT, kept⟩
    split at kept
    · next fits =>
        cases kept
        simp only [Bool.and_eq_true, decide_eq_true_eq] at fits
        obtain ⟨⟨ranks, heldA⟩, heldB⟩ := fits
        exact ⟨es.rank, ⟨arrayS, es, foundS, typeS, elementS, rfl⟩,
          ⟨arrayT, et, foundT, typeT, elementT, ranks.symm⟩, heldA, heldB⟩
    · cases kept
  · rintro ⟨rank, ⟨-, e, found, -, elementS, rankS⟩, ⟨-, e', found', -, elementT, rankT⟩,
      heldA, heldB⟩
    cases foundS.symm.trans found
    cases foundT.symm.trans found'
    refine ⟨a, elementS, b, elementT, if_pos ?_⟩
    rw [rankS, rankT, heldA, heldB, decide_eq_true rfl]
    rfl

theorem elementPair?_of_arrayOf {rank : Nat} (arrayS : r.ArrayOf s a rank)
    (arrayT : r.ArrayOf t b rank) (refA : r.Reference a) (refB : r.Reference b) :
    r.elementPair? s t = some (a, b) :=
  (elementPair?_eq_some_iff arrayS.known arrayT.known arrayS.kind arrayT.kind).mpr
    ⟨rank, arrayS, arrayT, refA.held, refB.held⟩

theorem arrays_iff : (s.isArray && t.isArray) = true ↔ s.kind = .array ∧ t.kind = .array := by
  rw [Bool.and_eq_true, isArray_iff, isArray_iff]

/-- A descent from two registered arrays goes on with registered types. -/
theorem Shaped.knows_of_elementPair? (h : r.Shaped) (hs : r.Knows s)
    (ht : r.Knows t) (arrays : (s.isArray && t.isArray) = true)
    (pair : r.elementPair? s t = some (a, b)) :
    r.Knows a ∧ r.Knows b ∧ ∃ rank, r.ArrayOf s a rank := by
  rw [arrays_iff] at arrays
  obtain ⟨rank, arrayA, arrayB, -⟩ :=
    (elementPair?_eq_some_iff hs ht arrays.1 arrays.2).mp pair
  exact ⟨h.knows_of_arrayOf arrayA, h.knows_of_arrayOf arrayB, rank, arrayA⟩

theorem typeCount_lt_elementBudget (r : Registry) : r.typeCount < r.elementBudget := by
  rw [elementBudget]
  have square : r.typeCount + 1 ≤ (r.typeCount + 1) * (r.typeCount + 1) :=
    Nat.le_mul_self _
  omega

/-! ## Counted searches -/

/-- Each step of a search gives an answer, or goes on from an array to its elements. -/
def Descending {α : Type} (r : Registry) (search : Nat → Ty → Ty → Option α) : Prop :=
  ∀ s t, r.Knows s → r.Knows t →
    (∃ answer, ∀ n, search (n + 1) s t = some answer)
      ∨ ∃ a b rank f, r.ArrayOf s a rank ∧ r.Knows a ∧ r.Knows b
        ∧ ∀ n, search (n + 1) s t = (search n a b).map f

/-- With more steps than there are types such a search ends, and it does not matter how many
more they are. -/
theorem Descending.ends {α : Type} {search : Nat → Ty → Ty → Option α}
    (step : r.Descending search) (h : r.Shaped) (hs : r.Knows s) (ht : r.Knows t) :
    ∃ answer, ∀ n, r.typeCount < n → search n s t = some answer := by
  obtain ⟨depth, bounded, falls⟩ := h.depth_le
  have nested : ∀ d s t, r.Knows s → r.Knows t → depth s.id < d →
      ∃ answer, ∀ n, d ≤ n → search n s t = some answer := by
    intro d
    induction d with
    | zero => exact fun _ _ _ _ low => absurd low (Nat.not_lt_zero _)
    | succ d ih =>
        intro s t hs ht low
        rcases step s t hs ht with ⟨answer, ended⟩ | ⟨a, b, rank, f, array, ha, hb, goesOn⟩
        · refine ⟨answer, ?_⟩
          intro n hn
          obtain ⟨n, rfl⟩ := Nat.exists_eq_succ_of_ne_zero (Nat.ne_zero_of_lt hn)
          exact ended n
        · obtain ⟨answer, ended⟩ := ih a b ha hb
            ((falls s a rank array).trans_le (Nat.le_of_lt_succ low))
          refine ⟨f answer, ?_⟩
          intro n hn
          obtain ⟨n, rfl⟩ := Nat.exists_eq_succ_of_ne_zero (Nat.ne_zero_of_lt hn)
          rw [goesOn n, ended n (Nat.le_of_succ_le_succ hn), Option.map_some]
  exact nested (r.typeCount + 1) s t hs ht (Nat.lt_succ_of_le (bounded s.id))

namespace Shaped

/-! ## Upcasts -/

theorem descending_referenceSearch (h : r.Shaped) : r.Descending r.referenceSearch := by
  intro s t hs ht
  cases direct : r.directReference? s t with
  | some c =>
      refine Or.inl ⟨some c, ?_⟩
      intro n
      rw [referenceSearch, direct]
  | none =>
      by_cases arrays : (s.isArray && t.isArray) = true
      · cases pair : r.elementPair? s t with
        | none =>
            refine Or.inl ⟨none, ?_⟩
            intro n
            rw [referenceSearch, direct]
            simp only
            rw [if_pos arrays, pair]
        | some elements =>
            obtain ⟨a, b⟩ := elements
            obtain ⟨ha, hb, rank, array⟩ := h.knows_of_elementPair? hs ht arrays pair
            refine Or.inr ⟨a, b, rank, fun found => if found.any (·.isUpcast) then
              some (.upcast t Conversion.stepCost) else none, array, ha, hb, ?_⟩
            intro n
            rw [referenceSearch, direct]
            simp only
            rw [if_pos arrays, pair]
      · refine Or.inl ⟨none, ?_⟩
        intro n
        rw [referenceSearch, direct]
        simp only
        rw [if_neg arrays]

/-- The conversion to a reference type is the answer of every search that may take more steps
than there are types. -/
theorem referenceSearch_eq (h : r.Shaped) (hs : r.Knows s) (ht : r.Knows t) {n : Nat}
    (enough : r.typeCount < n) : r.referenceSearch n s t = some (r.referenceConversion? s t) := by
  obtain ⟨answer, ended⟩ := h.descending_referenceSearch.ends h hs ht
  rw [ended n enough, referenceConversion?, ended _ r.typeCount_lt_elementBudget]
  rfl

/-- Conversions to reference types without a count: directly, or element by element. -/
theorem referenceConversion?_eq (h : r.Shaped) (hs : r.Knows s) (ht : r.Knows t) :
    r.referenceConversion? s t = match r.directReference? s t with
      | some c => some c
      | none =>
        if s.isArray && t.isArray then
          match r.elementPair? s t with
          | none => none
          | some (a, b) =>
            if (r.referenceConversion? a b).any (·.isUpcast) then
              some (.upcast t Conversion.stepCost)
            else none
        else none := by
  have enough := r.typeCount_lt_elementBudget
  refine Option.some.inj ((h.referenceSearch_eq hs ht (Nat.lt_succ_of_lt enough)).symm.trans ?_)
  rw [referenceSearch]
  cases r.directReference? s t with
  | some c => rfl
  | none =>
      simp only
      by_cases arrays : (s.isArray && t.isArray) = true
      · rw [if_pos arrays, if_pos arrays]
        cases pair : r.elementPair? s t with
        | none => rfl
        | some elements =>
            obtain ⟨ha, hb, -⟩ := h.knows_of_elementPair? hs ht arrays pair
            simp only
            rw [h.referenceSearch_eq ha hb enough, Option.map_some]
      · rw [if_neg arrays, if_neg arrays]

/-- The two ways in which a conversion to a reference type comes about. -/
theorem referenceConversion?_cases (h : r.Shaped) (hs : r.Knows s) (ht : r.Knows t)
    {c : Conversion} (found : r.referenceConversion? s t = some c) :
    r.directReference? s t = some c
      ∨ ∃ a b rank c', r.ArrayOf s a rank ∧ r.ArrayOf t b rank
        ∧ r.referenceConversion? a b = some c' ∧ c'.isUpcast = true
        ∧ c = .upcast t Conversion.stepCost := by
  rw [h.referenceConversion?_eq hs ht] at found
  cases direct : r.directReference? s t with
  | some c' =>
      rw [direct] at found
      exact Or.inl found
  | none =>
      rw [direct] at found
      simp only at found
      split at found
      · next arrays =>
          rw [arrays_iff] at arrays
          split at found
          · cases found
          · next a b pair =>
              obtain ⟨rank, arrayS, arrayT, -⟩ :=
                (elementPair?_eq_some_iff hs ht arrays.1 arrays.2).mp pair
              split at found
              · next above =>
                  obtain ⟨c', converted, up⟩ := (Option.any_eq_true _ _).mp above
                  exact Or.inr ⟨a, b, rank, c', arrayS, arrayT, converted, up,
                    (Option.some.inj found).symm⟩
              · cases found
      · cases found

/-! ## Checked casts -/

theorem descending_downcastSearch (h : r.Shaped) : r.Descending r.downcastSearch := by
  intro s t hs ht
  by_cases arrays : (s.isArray && t.isArray) = true
  · cases pair : r.elementPair? s t with
    | none =>
        refine Or.inl ⟨false, ?_⟩
        intro n
        rw [downcastSearch, if_pos arrays, pair]
    | some elements =>
        obtain ⟨a, b⟩ := elements
        by_cases same : a = b
        · refine Or.inl ⟨true, ?_⟩
          intro n
          rw [downcastSearch, if_pos arrays, pair]
          exact if_pos same
        · obtain ⟨ha, hb, rank, array⟩ := h.knows_of_elementPair? hs ht arrays pair
          refine Or.inr ⟨a, b, rank, id, array, ha, hb, ?_⟩
          intro n
          rw [downcastSearch, if_pos arrays, pair, Option.map_id]
          exact if_neg same
  · refine Or.inl ⟨r.directDowncast s t, ?_⟩
    intro n
    rw [downcastSearch, if_neg arrays]

theorem downcastSearch_eq (h : r.Shaped) (hs : r.Knows s) (ht : r.Knows t) {n : Nat}
    (enough : r.typeCount < n) : r.downcastSearch n s t = some (r.isDowncast s t) := by
  obtain ⟨answer, ended⟩ := h.descending_downcastSearch.ends h hs ht
  rw [ended n enough, isDowncast, ended _ r.typeCount_lt_elementBudget]
  rfl

/-- Checked casts without a count. -/
theorem isDowncast_eq (h : r.Shaped) (hs : r.Knows s) (ht : r.Knows t) :
    r.isDowncast s t =
      if s.isArray && t.isArray then
        match r.elementPair? s t with
        | none => false
        | some (a, b) => if a = b then true else r.isDowncast a b
      else r.directDowncast s t := by
  have enough := r.typeCount_lt_elementBudget
  refine Option.some.inj ((h.downcastSearch_eq hs ht (Nat.lt_succ_of_lt enough)).symm.trans ?_)
  rw [downcastSearch]
  by_cases arrays : (s.isArray && t.isArray) = true
  · rw [if_pos arrays, if_pos arrays]
    cases pair : r.elementPair? s t with
    | none => rfl
    | some elements =>
        obtain ⟨ha, hb, -⟩ := h.knows_of_elementPair? hs ht arrays pair
        simp only
        rw [h.downcastSearch_eq ha hb enough]
        split <;> rfl
  · rw [if_neg arrays, if_neg arrays]

end Shaped

end Registry

end ExprCompiler
