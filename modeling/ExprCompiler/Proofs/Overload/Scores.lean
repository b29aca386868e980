/-
# Scores, exact and rounded

A score is the average cost of the conversions, and a penalty if a parameter array is
spelled out.  It is computed in singles, and rounding is not harmless in general: two
different averages may become one single.  Two things survive rounding, and they are the
same in exact arithmetic:

* a form that spells out a parameter array scores at least the penalty
  (`expansionPenalty_le_formScore`, `penalty_le_exactScore`);
* a form scores zero only if nothing is converted at a cost and nothing is spelled out
  (`Faultless.formScore_lt`, `Faultless.exactScore_lt`).  The rounded average of costs that are
  not all zero could only vanish if there were more arguments than any machine can count.

As long as sums stay below the width of a fraction, nothing is rounded but the quotient
(`total_le`), so an average of costs up to the penalty does not pass it.
-/
import Mathlib.Algebra.Group.Action.Defs
import Mathlib.Algebra.Order.BigOperators.Group.List
import ExprCompiler.Proofs.Binary.Rounding
import ExprCompiler.Proofs.Overload.Resolution

namespace ExprCompiler

namespace Candidate

variable {c d : Candidate} {conversions : List Conversion}

/-! ## Exact scores -/

/-- The average cost without rounding, zero if there are no arguments. -/
def exactAverage (conversions : List Conversion) : ℚ :=
  ((conversions.map (·.cost)).sum : Nat) / conversions.length

/-- The score without rounding. -/
def exactScore (c : Candidate) : ℚ :=
  exactAverage c.conversions + if c.expanded then 1000 else 0

theorem exactAverage_nonneg (conversions : List Conversion) : 0 ≤ exactAverage conversions :=
  div_nonneg (Nat.cast_nonneg _) (Nat.cast_nonneg _)

theorem penalty_le_exactScore (expanded : c.expanded = true) : 1000 ≤ c.exactScore := by
  rw [exactScore, if_pos expanded]
  exact le_add_of_nonneg_left (exactAverage_nonneg _)

theorem exactScore_of_direct (direct : c.expanded = false) :
    c.exactScore = exactAverage c.conversions := by
  rw [exactScore, direct, if_neg Bool.false_ne_true, add_zero]

/-- An average is at most what each cost is at most. -/
theorem exactAverage_le {bound : Nat} (h : ∀ x ∈ conversions, x.cost ≤ bound) :
    exactAverage conversions ≤ bound := by
  have total : (conversions.map (·.cost)).sum ≤ bound * conversions.length := by
    have each := List.sum_le_card_nsmul (conversions.map (·.cost)) bound (by simpa using h)
    rwa [List.length_map, smul_eq_mul, Nat.mul_comm] at each
  rw [exactAverage]
  refine div_le_of_le_mul₀ (Nat.cast_nonneg _) (Nat.cast_nonneg _) ?_
  exact_mod_cast total

/-! ## Rounded sums -/

/-- The rounded sum of the costs, on top of what there is. -/
def total (start : Single) (conversions : List Conversion) : Single :=
  conversions.foldl (fun total x => total + Single.ofNat x.cost) start

theorem total_of_free (start : Single) (free : ∀ x ∈ conversions, x.cost = 0)
    (zero : start = .zero) : total start conversions = .zero := by
  induction conversions generalizing start with
  | nil => exact zero
  | cons x conversions ih =>
      refine ih _ (fun y hy => free y (List.mem_cons_of_mem _ hy)) ?_
      show start + Single.ofNat x.cost = .zero
      rw [zero, free x List.mem_cons_self]
      decide +kernel

/-- A sum that has once reached one never falls below it. -/
theorem one_le_total {start : Single}
    (h : Single.ofNat 1 ≤ start ∨ ∃ x ∈ conversions, x.cost ≠ 0) :
    Single.ofNat 1 ≤ total start conversions := by
  have bounded : (Single.ofNat 1).Bounded := Single.bounded_ofRatio 1 1
  induction conversions generalizing start with
  | nil =>
      rcases h with reached | ⟨x, hx, -⟩
      · exact reached
      · exact absurd hx List.not_mem_nil
  | cons x conversions ih =>
      refine ih ?_
      by_cases later : ∃ y ∈ conversions, y.cost ≠ 0
      · exact Or.inr later
      refine Or.inl (Single.le_add bounded ?_)
      rcases h with reached | ⟨y, hy, costs⟩
      · exact (Single.value_mono reached).trans
          (le_add_of_nonneg_right (Single.value_nonneg _))
      · rcases List.mem_cons.mp hy with rfl | hy
        · rw [Single.value_one]
          exact (Single.one_le_value_ofNat (Nat.one_le_iff_ne_zero.mpr costs)).trans
            (le_add_of_nonneg_left (Single.value_nonneg _))
        · exact absurd ⟨y, hy, costs⟩ later

theorem averageCost_of_free (free : ∀ x ∈ conversions, x.cost = 0) :
    averageCost conversions = .zero := by
  rw [averageCost]
  split
  · rfl
  · rw [← total, total_of_free .zero free rfl, Single.div_eq]
    have numerator : Single.zero.toRatio.1 = 0 := by decide +kernel
    rw [numerator, Nat.zero_mul]
    rfl

/-- An average of costs that are not all zero is not zero. -/
theorem averageCost_pos (few : conversions.length ≤ 2 ^ 64)
    (costs : ∃ x ∈ conversions, x.cost ≠ 0) : .zero < averageCost conversions := by
  have some : conversions.isEmpty = false := by
    obtain ⟨x, hx, -⟩ := costs
    exact List.isEmpty_eq_false_iff.mpr (List.ne_nil_of_mem hx)
  have count : 1 ≤ conversions.length := by
    obtain ⟨x, hx, -⟩ := costs
    exact List.length_pos_of_mem hx
  have summed : (1 : ℚ) ≤ (total .zero conversions).value := by
    rw [← Single.value_one]
    exact Single.value_mono (one_le_total (Or.inr costs))
  have divided : (1 : ℚ) ≤ (Single.ofNat conversions.length).value :=
    Single.one_le_value_ofNat count
  have limited : (Single.ofNat conversions.length).value ≤ 2 ^ 64 := by
    have high : (Single.binade (190 + 1)).value = 2 ^ 64 := by
      rw [Single.value_binade]
      norm_num
    rw [← high]
    refine Single.value_mono (Single.ofRatio_le Nat.one_pos ?_)
    rw [high, Nat.cast_one, div_one]
    exact_mod_cast few
  have low : (Single.binade (62 + 1)).value = (2 ^ 64)⁻¹ := by
    rw [Single.value_binade]
    norm_num
  have quotient : Single.binade (62 + 1)
      ≤ total .zero conversions / Single.ofNat conversions.length := by
    refine Single.le_div (Single.bounded_binade (by norm_num)) (by linarith) ?_
    rw [low, le_div_iff₀ (by linarith)]
    calc (2 ^ 64 : ℚ)⁻¹ * (Single.ofNat conversions.length).value
        ≤ (2 ^ 64)⁻¹ * 2 ^ 64 := by gcongr
      _ = 1 := by norm_num
      _ ≤ (total .zero conversions).value := summed
  rw [averageCost, if_neg (by rw [some]; exact Bool.false_ne_true), ← total]
  exact lt_of_lt_of_le (by decide +kernel) quotient

theorem expansionPenalty_le_formScore (conversions : List Conversion) :
    expansionPenalty ≤ formScore conversions true :=
  Single.le_add (Single.bounded_ofRatio 1000 1)
    (le_add_of_nonneg_left (Single.value_nonneg _))

/-- Below the width of a fraction nothing is rounded in a sum. -/
theorem total_le {start : Single} {sum bound : Nat} (reached : start.value ≤ sum)
    (each : ∀ x ∈ conversions, x.cost ≤ bound)
    (narrow : sum + bound * conversions.length < 2 ^ 24) :
    (total start conversions).value ≤ (sum + bound * conversions.length : Nat) := by
  induction conversions generalizing start sum with
  | nil => exact reached
  | cons x conversions ih =>
      have here : x.cost ≤ bound := each x List.mem_cons_self
      rw [List.length_cons, Nat.mul_succ] at narrow ⊢
      have next : start + Single.ofNat x.cost ≤ Single.ofNat (sum + bound) := by
        refine Single.add_le ?_
        rw [Single.value_ofNat (by omega), Single.value_ofNat (by omega), Nat.cast_add]
        exact add_le_add reached (Nat.cast_le.mpr here)
      have moved := Single.value_mono next
      rw [Single.value_ofNat (by omega)] at moved
      have rest := ih moved (fun y hy => each y (List.mem_cons_of_mem _ hy)) (by omega)
      rw [Nat.add_assoc, Nat.add_comm bound] at rest
      exact rest

/-- So few arguments cannot make up for the penalty unless one of them costs more. -/
theorem averageCost_le_expansionPenalty (each : ∀ x ∈ conversions, x.cost ≤ 1000)
    (few : conversions.length ≤ 16777) : averageCost conversions ≤ expansionPenalty := by
  rw [averageCost]
  split
  · decide +kernel
  · next some =>
      have count : 0 < conversions.length :=
        List.length_pos_iff.mpr fun none => some (List.isEmpty_iff.mpr none)
      have divisor : (Single.ofNat conversions.length).value = conversions.length :=
        Single.value_ofNat (by omega)
      have positive : (0 : ℚ) < conversions.length := Nat.cast_pos.mpr count
      have zero : Single.zero.value ≤ (0 : Nat) := by decide +kernel
      have summed := total_le zero each (by omega)
      rw [← total]
      refine Single.div_le (divisor ▸ positive) ?_
      rw [divisor, expansionPenalty, Single.value_ofNat (by norm_num), div_le_iff₀ positive]
      rw [Nat.zero_add, Nat.cast_mul] at summed
      exact summed

/-! ## Forms without a fault -/

/-- Nothing is converted at a cost, and no parameter array is spelled out. -/
structure Faultless (c : Candidate) : Prop where
  direct : c.expanded = false
  free : ∀ x ∈ c.conversions, x.cost = 0

theorem costs_of_not_faultless (h : ¬ c.Faultless) (direct : c.expanded = false) :
    ∃ x ∈ c.conversions, x.cost ≠ 0 := by
  by_contra free
  refine h ⟨direct, fun x hx => ?_⟩
  by_contra costs
  exact free ⟨x, hx, costs⟩

namespace Faultless

theorem exactScore_eq (h : c.Faultless) : c.exactScore = 0 := by
  have sum : (c.conversions.map (·.cost)).sum = 0 := by
    refine List.sum_eq_zero fun n hn => ?_
    obtain ⟨x, hx, rfl⟩ := List.mem_map.mp hn
    exact h.free x hx
  rw [exactScore_of_direct h.direct, exactAverage, sum, Nat.cast_zero, zero_div]

theorem formScore_eq (h : c.Faultless) : formScore c.conversions c.expanded = .zero := by
  rw [h.direct]
  exact averageCost_of_free h.free

/-- Everything else scores higher. -/
theorem exactScore_lt (hc : c.Faultless) (hd : ¬ d.Faultless) : c.exactScore < d.exactScore := by
  rw [hc.exactScore_eq]
  cases form : d.expanded with
  | true => exact lt_of_lt_of_le (by norm_num) (penalty_le_exactScore form)
  | false =>
      obtain ⟨x, hx, costs⟩ := costs_of_not_faultless hd form
      have sum : 0 < (d.conversions.map (·.cost)).sum :=
        lt_of_lt_of_le (Nat.pos_of_ne_zero costs) (List.le_sum_of_mem (List.mem_map_of_mem hx))
      rw [exactScore_of_direct form, exactAverage]
      exact div_pos (Nat.cast_pos.mpr sum) (Nat.cast_pos.mpr (List.length_pos_of_mem hx))

theorem formScore_lt (hc : c.Faultless) (hd : ¬ d.Faultless)
    (few : d.conversions.length ≤ 2 ^ 64) :
    formScore c.conversions c.expanded < formScore d.conversions d.expanded := by
  rw [hc.formScore_eq]
  cases form : d.expanded with
  | true => exact lt_of_lt_of_le (by decide +kernel) (expansionPenalty_le_formScore _)
  | false => exact averageCost_pos few (costs_of_not_faultless hd form)

end Faultless

end Candidate

end ExprCompiler
