/-
# Rounding does not pass representable values

A quotient is rounded by finding the power of two below it, then the step of the patterns
there, and then the nearest multiple of that step.  Here it is shown that the result stays on
the same side of every finite value as the quotient itself (`le_ofRatio`, `ofRatio_le`).
It follows that patterns are ordered as their values (`value_mono`) and that sums and
quotients of singles keep to bounds that are singles (`le_add`, `le_div`).

The argument compares exponents first.  A quotient of a higher binade than the bound rounds
to at least the first pattern of that binade, which is past the bound; in the same binade
both are multiples of the same step.
-/
import Mathlib.Algebra.Order.Field.Basic
import Mathlib.Algebra.Order.Field.Power
import Mathlib.Data.Rat.Cast.Order
import Mathlib.Tactic.Linarith
import Mathlib.Tactic.FieldSimp
import Mathlib.Tactic.Ring
import ExprCompiler.Binary.Format

namespace ExprCompiler

theorem le_roundHalfEven {num den k : Nat} (pos : 0 < den) (h : k * den ≤ num) :
    k ≤ roundHalfEven num den := by
  have floor : k ≤ num / den := (Nat.le_div_iff_mul_le pos).mpr h
  simp only [roundHalfEven]
  split
  · exact floor
  · split
    · exact Nat.le_succ_of_le floor
    · exact Nat.le_add_right_of_le floor

theorem roundHalfEven_le {num den k : Nat} (pos : 0 < den) (h : num ≤ k * den) :
    roundHalfEven num den ≤ k := by
  rcases Nat.eq_or_lt_of_le h with rfl | less
  · simp [roundHalfEven, pos]
  · have floor : num / den < k := (Nat.div_lt_iff_lt_mul pos).mpr less
    have even : num / den % 2 ≤ 1 := Nat.le_of_lt_succ (Nat.mod_lt _ Nat.two_pos)
    simp only [roundHalfEven]
    split
    · omega
    · split <;> omega

namespace BinaryFormat

variable {f : BinaryFormat} {num den bits : Nat}

/-- What a finite pattern stands for. -/
def value (f : BinaryFormat) (bits : Nat) : ℚ := (f.decode bits).1 * 2 ^ (f.decode bits).2

theorem exponentUnit_pos (f : BinaryFormat) : 0 < f.exponentUnit := Nat.two_pow_pos _

theorem exponentUnit_cast (f : BinaryFormat) :
    (f.exponentUnit : ℚ) = 2 ^ (f.fractionBits : ℤ) := by
  rw [exponentUnit, Nat.pow_eq, Nat.cast_pow, Nat.cast_ofNat, zpow_natCast]

/-! ## Scaling -/

theorem scale_pos (num : Nat) (pos : 0 < den) (q : ℤ) : 0 < (scale num den q).2 := by
  rw [scale]
  split
  · exact pos
  · exact Nat.mul_pos pos (Nat.two_pow_pos _)

theorem scale_value (num den : Nat) (q : ℤ) :
    ((scale num den q).1 : ℚ) / (scale num den q).2 = num / den * 2 ^ q := by
  rw [scale]
  split
  · next up =>
      have exponent : (2 : ℚ) ^ q = 2 ^ q.toNat := by
        rw [← zpow_natCast, Int.toNat_of_nonneg up]
      rw [exponent, Nat.pow_eq, Nat.cast_mul, Nat.cast_pow, Nat.cast_ofNat]
      ring
  · next down =>
      have exponent : (2 : ℚ) ^ q = (2 ^ (-q).toNat)⁻¹ := by
        rw [← zpow_natCast, Int.toNat_of_nonneg (by omega), zpow_neg, inv_inv]
      rw [exponent, Nat.pow_eq, Nat.cast_mul, Nat.cast_pow, Nat.cast_ofNat]
      rw [← div_eq_mul_inv, div_div]

theorem toRatio_value (f : BinaryFormat) (bits : Nat) :
    ((f.toRatio bits).1 : ℚ) / (f.toRatio bits).2 = f.value bits := by
  rw [toRatio, scale_value, Nat.cast_one, div_one, value]

theorem toRatio_pos (f : BinaryFormat) (bits : Nat) : 0 < (f.toRatio bits).2 :=
  scale_pos _ Nat.one_pos _

/-! ## The binade of a quotient -/

/-- A number lies in the binade of its highest digit. -/
theorem log2_spec {n : Nat} (hn : 0 < n) :
    (2 : ℚ) ^ (n.log2 : ℤ) ≤ n ∧ (n : ℚ) < 2 ^ (n.log2 + 1 : ℤ) := by
  have low : 2 ^ n.log2 ≤ n := Nat.log2_self_le hn.ne'
  have high : n < 2 ^ (n.log2 + 1) := Nat.lt_log2_self
  have next : (2 : ℚ) ^ (n.log2 + 1 : ℤ) = 2 ^ (n.log2 + 1) := by
    rw [← zpow_natCast]
    push_cast
    rfl
  refine ⟨?_, ?_⟩
  · rw [zpow_natCast]
    exact_mod_cast low
  · rw [next]
    exact_mod_cast high

theorem floorLog_spec (hn : 0 < num) (hd : 0 < den) :
    (2 : ℚ) ^ floorLog num den ≤ num / den ∧ (num / den : ℚ) < 2 ^ (floorLog num den + 1) := by
  have hd' : (0 : ℚ) < den := Nat.cast_pos.mpr hd
  obtain ⟨numLow, numHigh⟩ := log2_spec hn
  obtain ⟨denLow, denHigh⟩ := log2_spec hd
  -- the guess is right or one too high
  have above : (num / den : ℚ) < 2 ^ ((num.log2 - den.log2 : ℤ) + 1) := by
    rw [div_lt_iff₀ hd']
    calc (num : ℚ) < 2 ^ (num.log2 + 1 : ℤ) := numHigh
      _ = 2 ^ ((num.log2 - den.log2 : ℤ) + 1) * 2 ^ (den.log2 : ℤ) := by
          rw [← zpow_add₀ two_ne_zero]
          congr 1
          ring
      _ ≤ 2 ^ ((num.log2 - den.log2 : ℤ) + 1) * den := by gcongr
  have below : (2 : ℚ) ^ ((num.log2 - den.log2 : ℤ) - 1) ≤ num / den := by
    rw [le_div_iff₀ hd']
    calc (2 : ℚ) ^ ((num.log2 - den.log2 : ℤ) - 1) * den
        ≤ 2 ^ ((num.log2 - den.log2 : ℤ) - 1) * 2 ^ (den.log2 + 1 : ℤ) := by gcongr
      _ = 2 ^ (num.log2 : ℤ) := by
          rw [← zpow_add₀ two_ne_zero]
          congr 1
          ring
      _ ≤ num := numLow
  have compare : (scale num den (-(num.log2 - den.log2 : ℤ))).2
        ≤ (scale num den (-(num.log2 - den.log2 : ℤ))).1
      ↔ (2 : ℚ) ^ (num.log2 - den.log2 : ℤ) ≤ num / den := by
    have positive : (0 : ℚ) < (scale num den (-(num.log2 - den.log2 : ℤ))).2 :=
      Nat.cast_pos.mpr (scale_pos num hd _)
    rw [← Nat.cast_le (α := ℚ), ← one_le_div positive, scale_value, zpow_neg,
      ← div_eq_mul_inv, one_le_div (zpow_pos two_pos _)]
  simp only [floorLog]
  split
  · next reached => exact ⟨compare.mp reached, above⟩
  · next missed =>
      rw [compare, not_le] at missed
      rw [sub_add_cancel]
      exact ⟨below, missed⟩

theorem le_floorLog {e : ℤ} (hn : 0 < num) (hd : 0 < den) (h : (2 : ℚ) ^ e ≤ num / den) :
    e ≤ floorLog num den := by
  have less : (2 : ℚ) ^ e < 2 ^ (floorLog num den + 1) :=
    h.trans_lt (floorLog_spec hn hd).2
  exact Int.lt_add_one_iff.mp ((zpow_lt_zpow_iff_right₀ one_lt_two).mp less)

theorem floorLog_lt {e : ℤ} (hn : 0 < num) (hd : 0 < den) (h : (num / den : ℚ) < 2 ^ e) :
    floorLog num den < e :=
  (zpow_lt_zpow_iff_right₀ one_lt_two).mp ((floorLog_spec hn hd).1.trans_lt h)

/-! ## Rounding -/

/-- The exponent of the step between patterns around a quotient. -/
def step (f : BinaryFormat) (num den : Nat) : ℤ :=
  max (floorLog num den - f.fractionBits) f.leastExponent

/-- How many steps a quotient is rounded to. -/
def steps (f : BinaryFormat) (num den : Nat) : Nat :=
  roundHalfEven (scale num den (-f.step num den)).1 (scale num den (-f.step num den)).2

theorem ofRatio_eq (f : BinaryFormat) (hn : num ≠ 0) :
    f.ofRatio num den = min ((f.step num den - f.leastExponent).toNat * f.exponentUnit
      + f.steps num den) f.infinity :=
  if_neg hn

theorem le_steps {k : Nat} (hd : 0 < den) (h : (k : ℚ) * 2 ^ f.step num den ≤ num / den) :
    k ≤ f.steps num den := by
  have positive := scale_pos num hd (-f.step num den)
  refine le_roundHalfEven positive ?_
  rw [← Nat.cast_le (α := ℚ), Nat.cast_mul, ← le_div_iff₀ (Nat.cast_pos.mpr positive),
    scale_value, zpow_neg, ← div_eq_mul_inv, le_div_iff₀ (zpow_pos two_pos _)]
  exact h

theorem steps_le {k : Nat} (hd : 0 < den) (h : (num / den : ℚ) ≤ k * 2 ^ f.step num den) :
    f.steps num den ≤ k := by
  have positive := scale_pos num hd (-f.step num den)
  refine roundHalfEven_le positive ?_
  rw [← Nat.cast_le (α := ℚ), Nat.cast_mul, ← div_le_iff₀ (Nat.cast_pos.mpr positive),
    scale_value, zpow_neg, ← div_eq_mul_inv, div_le_iff₀ (zpow_pos two_pos _)]
  exact h

/-! ## Both sides of a pattern -/

/-- A pattern of the least exponent counts steps. -/
theorem value_of_small (small : bits < f.exponentUnit) :
    f.value bits = bits * 2 ^ f.leastExponent := by
  rw [value, decode, Nat.div_eq_of_lt small, Nat.mod_eq_of_lt small]
  rfl

/-- A pattern of a higher exponent counts steps as well, from the start of its binade. -/
theorem value_of_large {e m : Nat} (least : f.exponentUnit ≤ m)
    (greatest : m < 2 * f.exponentUnit) :
    f.value (e * f.exponentUnit + m) = m * 2 ^ (f.leastExponent + e) := by
  obtain ⟨k, rfl⟩ := Nat.exists_eq_add_of_le least
  have small : k < f.exponentUnit := by omega
  have split : e * f.exponentUnit + (f.exponentUnit + k) = k + f.exponentUnit * (e + 1) := by ring
  have exponent : (k + f.exponentUnit * (e + 1)) / f.exponentUnit = e + 1 := by
    rw [Nat.add_mul_div_left _ _ f.exponentUnit_pos, Nat.div_eq_of_lt small, Nat.zero_add]
  have fraction : (k + f.exponentUnit * (e + 1)) % f.exponentUnit = k := by
    rw [Nat.add_mul_mod_self_left, Nat.mod_eq_of_lt small]
  rw [split, value, decode, exponent, fraction, if_neg (Nat.succ_ne_zero e)]
  simp only
  rw [Nat.add_comm k]
  congr 2
  push_cast
  ring

/-- A pattern is of one of the two sorts. -/
theorem small_or_large (f : BinaryFormat) (bits : Nat) :
    bits < f.exponentUnit ∨ ∃ e m, f.exponentUnit ≤ m ∧ m < 2 * f.exponentUnit
      ∧ bits = e * f.exponentUnit + m := by
  rcases Nat.lt_or_ge bits f.exponentUnit with small | large
  · exact Or.inl small
  · have split := Nat.div_add_mod bits f.exponentUnit
    have below := Nat.mod_lt bits f.exponentUnit_pos
    obtain ⟨e, exponent⟩ := Nat.exists_eq_succ_of_ne_zero
      (Nat.div_pos large f.exponentUnit_pos).ne'
    refine Or.inr ⟨e, f.exponentUnit + bits % f.exponentUnit, by omega, by omega, ?_⟩
    rw [exponent, Nat.mul_succ, Nat.mul_comm] at split
    omega

theorem leastExponent_le_step (f : BinaryFormat) (num den : Nat) :
    f.leastExponent ≤ f.step num den :=
  le_max_right _ _

/-- A step above the least is that of the quotient's own binade. -/
theorem exponentUnit_le_steps (hn : 0 < num) (hd : 0 < den)
    (h : f.leastExponent < f.step num den) : f.exponentUnit ≤ f.steps num den := by
  refine le_steps hd ?_
  have own : f.step num den = floorLog num den - f.fractionBits := by
    rw [step] at h ⊢
    omega
  rw [exponentUnit_cast, ← zpow_add₀ two_ne_zero, own, add_sub_cancel]
  exact (floorLog_spec hn hd).1

/-- A quotient is never rounded past the next binade. -/
theorem steps_le_two_mul (hn : 0 < num) (hd : 0 < den) :
    f.steps num den ≤ 2 * f.exponentUnit := by
  refine steps_le hd ?_
  have own : floorLog num den + 1 ≤ 1 + f.fractionBits + f.step num den := by
    rw [step]
    omega
  rw [Nat.cast_mul, Nat.cast_ofNat, exponentUnit_cast, ← zpow_one_add₀ two_ne_zero,
    ← zpow_add₀ two_ne_zero]
  exact (floorLog_spec hn hd).2.le.trans (zpow_le_zpow_right₀ one_le_two own)

/-- Rounding does not go below a pattern whose value is not above the quotient. -/
theorem le_ofRatio (finite : bits ≤ f.infinity) (hd : 0 < den)
    (h : f.value bits ≤ num / den) : bits ≤ f.ofRatio num den := by
  rcases Nat.eq_zero_or_pos bits with rfl | positive
  · exact Nat.zero_le _
  have above : (0 : ℚ) < num / den := by
    refine lt_of_lt_of_le ?_ h
    rcases f.small_or_large bits with small | ⟨e, m, least, greatest, rfl⟩
    · rw [value_of_small small]
      exact mul_pos (Nat.cast_pos.mpr positive) (zpow_pos two_pos _)
    · rw [value_of_large least greatest]
      exact mul_pos (Nat.cast_pos.mpr (f.exponentUnit_pos.trans_le least)) (zpow_pos two_pos _)
  have hn : 0 < num := by
    rw [div_pos_iff_of_pos_right (Nat.cast_pos.mpr hd)] at above
    exact Nat.cast_pos.mp above
  have low := f.leastExponent_le_step num den
  rw [ofRatio_eq f hn.ne']
  refine le_min ?_ finite
  rcases f.small_or_large bits with small | ⟨e, m, least, greatest, rfl⟩
  · rcases low.eq_or_lt with same | higher
    · -- both count steps of the least exponent
      rw [value_of_small small, same] at h
      exact Nat.le_add_left_of_le (le_steps hd h)
    · exact Nat.le_add_left_of_le (small.le.trans (exponentUnit_le_steps hn hd higher))
  · rw [value_of_large least greatest] at h
    have binade : f.leastExponent + e ≤ f.step num den := by
      have reached : (2 : ℚ) ^ ((f.fractionBits : ℤ) + (f.leastExponent + e)) ≤ num / den := by
        refine le_trans ?_ h
        rw [zpow_add₀ two_ne_zero, ← exponentUnit_cast]
        gcongr
      have := le_floorLog hn hd reached
      rw [step]
      omega
    rcases binade.eq_or_lt with same | higher
    · rw [same] at h
      have exponent : (f.step num den - f.leastExponent).toNat = e := by omega
      rw [exponent]
      exact Nat.add_le_add_left (le_steps hd h) _
    · have exponent : e + 1 ≤ (f.step num den - f.leastExponent).toNat := by omega
      have unit := exponentUnit_le_steps hn hd (f := f) (by omega)
      have past := Nat.mul_le_mul_right f.exponentUnit exponent
      rw [Nat.succ_mul] at past
      omega

/-- Rounding does not go above a pattern whose value is not below the quotient. -/
theorem ofRatio_le (hd : 0 < den) (h : (num / den : ℚ) ≤ f.value bits) :
    f.ofRatio num den ≤ bits := by
  rcases Nat.eq_zero_or_pos num with rfl | hn
  · exact Nat.zero_le _
  have low := f.leastExponent_le_step num den
  rw [ofRatio_eq f hn.ne']
  refine (min_le_left _ _).trans ?_
  rcases f.small_or_large bits with small | ⟨e, m, least, greatest, rfl⟩
  · rw [value_of_small small] at h
    have same : f.step num den = f.leastExponent := by
      have missed : (num / den : ℚ) < 2 ^ ((f.fractionBits : ℤ) + f.leastExponent) := by
        refine h.trans_lt ?_
        rw [zpow_add₀ two_ne_zero, ← exponentUnit_cast]
        gcongr
      have := floorLog_lt hn hd missed
      rw [step]
      omega
    rw [← same] at h
    rw [same, sub_self, Int.toNat_zero, Nat.zero_mul, Nat.zero_add]
    exact steps_le hd h
  · rw [value_of_large least greatest] at h
    have binade : f.step num den ≤ f.leastExponent + e := by
      have missed : (num / den : ℚ) < 2 ^ (1 + (f.fractionBits : ℤ) + (f.leastExponent + e)) := by
        refine h.trans_lt ?_
        rw [zpow_add₀ two_ne_zero (1 + _), zpow_one_add₀ two_ne_zero, ← exponentUnit_cast]
        gcongr
        exact_mod_cast greatest
      have := floorLog_lt hn hd missed
      rw [step]
      omega
    rcases binade.eq_or_lt with same | lower
    · rw [← same] at h
      have exponent : (f.step num den - f.leastExponent).toNat = e := by omega
      rw [exponent]
      exact Nat.add_le_add_left (steps_le hd h) _
    · have exponent : (f.step num den - f.leastExponent).toNat + 1 ≤ e := by omega
      have unit := f.steps_le_two_mul hn hd
      have past := Nat.mul_le_mul_right f.exponentUnit exponent
      rw [Nat.succ_mul] at past
      omega

/-- Patterns are ordered as their values. -/
theorem value_mono {bits' : Nat} (h : bits ≤ bits') : f.value bits ≤ f.value bits' := by
  rcases f.small_or_large bits' with small' | ⟨e', m', least', greatest', rfl⟩
  · rw [value_of_small small', value_of_small (h.trans_lt small')]
    gcongr
  rw [value_of_large least' greatest']
  rcases f.small_or_large bits with small | ⟨e, m, least, greatest, rfl⟩
  · rw [value_of_small small]
    have steps : (bits : ℚ) ≤ m' := Nat.cast_le.mpr (small.le.trans least')
    have binade : (2 : ℚ) ^ f.leastExponent ≤ 2 ^ (f.leastExponent + e') :=
      zpow_le_zpow_right₀ one_le_two (by omega)
    gcongr
  · rw [value_of_large least greatest]
    have order : e ≤ e' := by
      by_contra higher
      have past := Nat.mul_le_mul_right f.exponentUnit (Nat.lt_of_not_le higher)
      rw [Nat.succ_mul] at past
      omega
    rcases order.eq_or_lt with rfl | lower
    · have steps : (m : ℚ) ≤ m' := Nat.cast_le.mpr (by omega)
      gcongr
    · -- the whole binade is below the next one
      have binade : (2 : ℚ) ^ (f.leastExponent + e + 1) ≤ 2 ^ (f.leastExponent + e') :=
        zpow_le_zpow_right₀ one_le_two (by omega)
      calc (m : ℚ) * 2 ^ (f.leastExponent + e)
          ≤ (2 * f.exponentUnit : Nat) * 2 ^ (f.leastExponent + e) := by gcongr
        _ = f.exponentUnit * 2 ^ (f.leastExponent + e + 1) := by
            rw [zpow_add_one₀ two_ne_zero]
            push_cast
            ring
        _ ≤ m' * 2 ^ (f.leastExponent + e') := by gcongr

end BinaryFormat

/-! ## Singles -/

namespace Single

variable {x y z : Single}

/-- What a single stands for. -/
def value (x : Single) : ℚ := BinaryFormat.binary32.value x.bits

theorem toRatio_value (x : Single) : (x.toRatio.1 : ℚ) / x.toRatio.2 = x.value :=
  BinaryFormat.toRatio_value _ x.bits

theorem toRatio_pos (x : Single) : 0 < x.toRatio.2 := BinaryFormat.toRatio_pos _ x.bits

theorem value_nonneg (x : Single) : 0 ≤ x.value := by
  rw [← toRatio_value]
  exact div_nonneg (Nat.cast_nonneg _) (Nat.cast_nonneg _)

theorem value_mono (h : x ≤ y) : x.value ≤ y.value := BinaryFormat.value_mono h

/-- Infinity and everything below it. -/
def Bounded (x : Single) : Prop := x.bits ≤ BinaryFormat.binary32.infinity

theorem bounded_ofRatio (num den : Nat) : (ofRatio num den).Bounded := by
  rw [Bounded, ofRatio, BinaryFormat.ofRatio]
  split
  · exact Nat.zero_le _
  · exact Nat.min_le_right _ _

theorem le_ofRatio {num den : Nat} (bounded : z.Bounded) (hd : 0 < den)
    (h : z.value ≤ num / den) : z ≤ ofRatio num den :=
  BinaryFormat.le_ofRatio bounded hd h

theorem ofRatio_le {num den : Nat} (hd : 0 < den) (h : (num / den : ℚ) ≤ z.value) :
    ofRatio num den ≤ z :=
  BinaryFormat.ofRatio_le hd h

theorem add_eq (x y : Single) :
    x + y = ofRatio (x.toRatio.1 * y.toRatio.2 + y.toRatio.1 * x.toRatio.2)
      (x.toRatio.2 * y.toRatio.2) := rfl

theorem div_eq (x y : Single) :
    x / y = ofRatio (x.toRatio.1 * y.toRatio.2) (x.toRatio.2 * y.toRatio.1) := rfl

/-- What is rounded in a sum is the exact sum. -/
theorem exact_add (x y : Single) :
    ((x.toRatio.1 * y.toRatio.2 + y.toRatio.1 * x.toRatio.2 : Nat) : ℚ)
      / (x.toRatio.2 * y.toRatio.2 : Nat) = x.value + y.value := by
  rw [← toRatio_value, ← toRatio_value, div_add_div _ _ (Nat.cast_ne_zero.mpr x.toRatio_pos.ne')
    (Nat.cast_ne_zero.mpr y.toRatio_pos.ne')]
  push_cast
  ring

/-- What is rounded in a quotient is the exact quotient. -/
theorem exact_div (x y : Single) :
    ((x.toRatio.1 * y.toRatio.2 : Nat) : ℚ) / (x.toRatio.2 * y.toRatio.1 : Nat)
      = x.value / y.value := by
  rw [← toRatio_value, ← toRatio_value, div_div_div_eq]
  push_cast
  rfl

/-- A sum keeps to the side of a single that the exact sum is on. -/
theorem le_add (bounded : z.Bounded) (h : z.value ≤ x.value + y.value) : z ≤ x + y := by
  rw [add_eq]
  exact le_ofRatio bounded (Nat.mul_pos x.toRatio_pos y.toRatio_pos)
    (h.trans_eq (exact_add x y).symm)

theorem add_le (h : x.value + y.value ≤ z.value) : x + y ≤ z := by
  rw [add_eq]
  exact ofRatio_le (Nat.mul_pos x.toRatio_pos y.toRatio_pos) ((exact_add x y).trans_le h)

theorem numerator_pos (h : 0 < y.value) : 0 < y.toRatio.1 := by
  rw [← toRatio_value, div_pos_iff_of_pos_right (Nat.cast_pos.mpr y.toRatio_pos)] at h
  exact Nat.cast_pos.mp h

/-- A quotient keeps to the side of a single that the exact quotient is on. -/
theorem le_div (bounded : z.Bounded) (hy : 0 < y.value) (h : z.value ≤ x.value / y.value) :
    z ≤ x / y := by
  rw [div_eq]
  exact le_ofRatio bounded (Nat.mul_pos x.toRatio_pos (numerator_pos hy))
    (h.trans_eq (exact_div x y).symm)

theorem div_le (hy : 0 < y.value) (h : x.value / y.value ≤ z.value) : x / y ≤ z := by
  rw [div_eq]
  exact ofRatio_le (Nat.mul_pos x.toRatio_pos (numerator_pos hy)) ((exact_div x y).trans_le h)

/-! ## Powers of two -/

/-- The first single of a binade. -/
def binade (e : Nat) : Single := ⟨e * BinaryFormat.binary32.exponentUnit⟩

theorem value_binade (e : Nat) : (binade (e + 1)).value = 2 ^ ((e : ℤ) - 126) := by
  have unit := BinaryFormat.binary32.exponentUnit_pos
  rw [value, binade, Nat.succ_mul, BinaryFormat.value_of_large le_rfl (by omega),
    BinaryFormat.exponentUnit_cast, ← zpow_add₀ two_ne_zero]
  congr 1
  change (23 : ℤ) + (-149 + e) = e - 126
  ring

theorem bounded_binade {e : Nat} (h : e ≤ 255) : (binade e).Bounded :=
  Nat.mul_le_mul_right _ h

/-! ## Natural numbers -/

/-- A number of at most as many digits as a fraction has, as a pattern: moved up to the full
width, the number is the fraction. -/
def ofDigits (n : Nat) : Single :=
  ⟨(n.log2 + 126) * BinaryFormat.binary32.exponentUnit + n * 2 ^ (23 - n.log2)⟩

section

variable {n : Nat}

/-- The highest digit stands in the first place of the fraction. -/
theorem ofDigits_places (positive : 0 < n) (digits : n.log2 ≤ 23) :
    BinaryFormat.binary32.exponentUnit ≤ n * 2 ^ (23 - n.log2)
      ∧ n * 2 ^ (23 - n.log2) < 2 * BinaryFormat.binary32.exponentUnit := by
  have low : 2 ^ n.log2 ≤ n := Nat.log2_self_le positive.ne'
  have high : n < 2 ^ (n.log2 + 1) := Nat.lt_log2_self
  have unit : BinaryFormat.binary32.exponentUnit = 2 ^ n.log2 * 2 ^ (23 - n.log2) := by
    rw [← pow_add, Nat.add_sub_cancel' digits]
    rfl
  rw [unit]
  refine ⟨Nat.mul_le_mul_right _ low, ?_⟩
  rw [← Nat.mul_assoc, ← pow_succ']
  exact Nat.mul_lt_mul_of_pos_right high (Nat.two_pow_pos _)

theorem value_ofDigits (positive : 0 < n) (digits : n.log2 ≤ 23) : (ofDigits n).value = n := by
  obtain ⟨least, greatest⟩ := ofDigits_places positive digits
  have exponent : BinaryFormat.binary32.leastExponent + ((n.log2 + 126 : Nat) : ℤ)
      = -((23 - n.log2 : Nat) : ℤ) := by
    change (-149 : ℤ) + ((n.log2 + 126 : Nat) : ℤ) = _
    omega
  rw [value, ofDigits, BinaryFormat.value_of_large least greatest, exponent, zpow_neg,
    zpow_natCast]
  push_cast
  exact mul_inv_cancel_right₀ (pow_ne_zero _ two_ne_zero) _

theorem bounded_ofDigits (positive : 0 < n) (digits : n.log2 ≤ 23) : (ofDigits n).Bounded := by
  obtain ⟨-, greatest⟩ := ofDigits_places positive digits
  have exponent := Nat.mul_le_mul_right BinaryFormat.binary32.exponentUnit
    (show n.log2 + 126 ≤ 253 by omega)
  have top : BinaryFormat.binary32.infinity
      = 253 * BinaryFormat.binary32.exponentUnit + 2 * BinaryFormat.binary32.exponentUnit := rfl
  show (n.log2 + 126) * BinaryFormat.binary32.exponentUnit + n * 2 ^ (23 - n.log2) ≤ _
  omega

/-- Numbers of at most as many digits as a fraction has are not rounded. -/
theorem value_ofNat (h : n < 2 ^ 24) : (ofNat n).value = n := by
  rcases Nat.eq_zero_or_pos n with rfl | positive
  · decide +kernel
  have digits : n.log2 ≤ 23 := Nat.le_of_lt_succ ((Nat.log2_lt positive.ne').mpr h)
  have exact := value_ofDigits positive digits
  have quotient : ((n : ℚ) / (1 : Nat)) = (ofDigits n).value := by
    rw [Nat.cast_one, div_one, exact]
  have upper : ofNat n ≤ ofDigits n := ofRatio_le Nat.one_pos quotient.le
  have lower : ofDigits n ≤ ofNat n :=
    le_ofRatio (bounded_ofDigits positive digits) Nat.one_pos quotient.ge
  refine le_antisymm ?_ ?_
  · rw [← exact]
    exact value_mono upper
  · rw [← exact]
    exact value_mono lower

theorem value_one : (ofNat 1).value = 1 := value_ofNat (by norm_num)

/-- Rounded or not, a number that is not zero stays at least one. -/
theorem one_le_value_ofNat (h : 1 ≤ n) : 1 ≤ (ofNat n).value := by
  have least : ofNat 1 ≤ ofNat n := by
    refine le_ofRatio (bounded_ofRatio 1 1) Nat.one_pos ?_
    rw [value_one, Nat.cast_one, div_one]
    exact_mod_cast h
  rw [← value_one]
  exact value_mono least

end

end Single

end ExprCompiler
