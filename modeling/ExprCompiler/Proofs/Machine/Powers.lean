/-
# Powers with a known exponent

A power with a literal exponent is unrolled to multiplications by repeated squaring,
all in the word of the base, and cut or tested at the end if the kind of the base is
shorter than its word.

Whatever the multiplication does with a product out of range, all of the unrolled code
does it with the power (`Machine.Words.power_numbers`).  All that is used is that no
smaller power is out of range unless the power is.  That holds of words with a sign
and without one (`Word.Fits.pow_of_le`), so checked code traps exactly if the power
does not fit.
-/
import Mathlib.Data.Nat.Log
import ExprCompiler.Proofs.Code.Exits
import ExprCompiler.Proofs.Machine.Unchecked

namespace ExprCompiler

/-! ## Powers in words -/

namespace Word

variable {unsigned : Bool} {n : Nat} {x z : Int}

theorem fits_of_abs_le_one (long : 1 < n) (h : |x| ≤ 1) (sign : unsigned = true → 0 ≤ x) :
    Fits unsigned n x := by
  have half : (2 : Int) ≤ 2 ^ (n - 1) := by
    calc (2 : Int) = 2 ^ 1 := (pow_one 2).symm
      _ ≤ 2 ^ (n - 1) := pow_le_pow_right₀ (by norm_num) (by omega)
  have whole : (2 : Int) ^ (n - 1) ≤ 2 ^ n := pow_le_pow_right₀ (by norm_num) (by omega)
  obtain ⟨low, high⟩ := abs_le.mp h
  cases unsigned with
  | true => exact ⟨sign rfl, by omega⟩
  | false => exact ⟨by omega, by omega⟩

/-- A power that fits has no smaller power that does not. -/
theorem Fits.pow_of_le (long : 1 < n) (hx : Fits unsigned n x) {m k : Nat} (le : m ≤ k)
    (h : Fits unsigned n (x ^ k)) : Fits unsigned n (x ^ m) := by
  obtain rfl | less := le.eq_or_lt
  · exact h
  by_cases small : |x| ≤ 1
  · refine fits_of_abs_le_one long ?_ ?_
    · rw [abs_pow]
      exact pow_le_one₀ (abs_nonneg x) small
    · rintro rfl
      exact pow_nonneg hx.1 m
  · have doubled : 2 * |x ^ m| ≤ |x ^ k| := by
      have grown : |x| ^ (m + 1) ≤ |x| ^ k := pow_le_pow_right₀ (by omega) less
      rw [abs_pow, abs_pow]
      calc 2 * |x| ^ m ≤ |x| * |x| ^ m := mul_le_mul_of_nonneg_right (by omega) (by positivity)
        _ = |x| ^ (m + 1) := (pow_succ' _ m).symm
        _ ≤ |x| ^ k := grown
    cases unsigned with
    | true =>
        have low : 0 ≤ x ^ m := pow_nonneg hx.1 m
        have low' : 0 ≤ x ^ k := pow_nonneg hx.1 k
        rw [abs_of_nonneg low, abs_of_nonneg low'] at doubled
        exact h.between low (by omega)
    | false =>
        have bound : |x ^ k| ≤ 2 ^ (n - 1) := abs_le.mpr ⟨h.1, h.2.le⟩
        have positive : (0 : Int) < 2 ^ (n - 1) := by positivity
        have inside : |x ^ m| < 2 ^ (n - 1) := by omega
        exact ⟨(abs_lt.mp inside).1.le, (abs_lt.mp inside).2⟩

end Word

namespace NumericKind

variable {kind : NumericKind} {z : Int}

theorem full_of_bits (integral : kind.isIntegral = true) (long : ¬ kind.bits < 32) :
    kind.slotBits = kind.bits := by
  revert integral long
  cases kind <;> decide

theorem slotBits_of_bits (short : kind.bits < 32) : kind.slotBits = 32 := by
  revert short
  cases kind <;> decide

/-- Wrapping to 32 bits first changes nothing for a shorter kind. -/
theorem wrap_wrap (short : kind.bits < 32) (z : Int) : kind.wrap (int32.wrap z) = kind.wrap z := by
  have cut (z : Int) : kind.wrap z
      = Word.read kind.isUnsigned ((BitVec.ofInt 32 z).setWidth kind.bits) := by
    rw [Word.setWidth_ofInt short.le, Word.read_ofInt_eq_wrap]
    rfl
  rw [cut, cut z]
  exact congrArg _ (congrArg _ (Word.ofInt_wrap false 32 z))

/-- A number that is changed by a sign is in a shorter kind neither before nor after. -/
theorem wrap_int32_of_fits (short : kind.bits < 32) (fits : Word.Fits kind.isUnsigned 32 z) :
    int32.wrap z = z ∨ ¬ kind.Holds z ∧ ¬ kind.Holds (int32.wrap z) := by
  by_cases inside : int32.Holds z
  · exact .inl (wrap_of_holds inside)
  · right
    have unsigned : kind.isUnsigned = true := by
      by_contra signed
      rw [Bool.not_eq_true] at signed
      rw [signed] at fits
      exact inside fits
    rw [unsigned] at fits
    -- the number is in the upper half, so it is read as a negative one
    have upper : 2 ^ 31 ≤ z := by
      by_contra lower
      exact inside ⟨(by norm_num : (-2 ^ 31 : Int) ≤ 0).trans fits.1, not_le.mp lower⟩
    have bound : (2 : Int) ^ kind.bits ≤ 2 ^ 31 := pow_le_pow_right₀ (by norm_num) (by omega)
    have negative : int32.wrap z < 0 := by
      show z.bmod (2 ^ 32) < 0
      have := fits.2
      rw [Int.bmod_def]
      split <;> omega
    rw [Holds, Holds, unsigned]
    exact ⟨fun held => absurd (held.2.trans_le bound) (not_lt.mpr upper),
      fun held => absurd held.1 (not_le.mpr negative)⟩

end NumericKind

/-! ## The unrolled code -/

/-- Whether a directive multiplies. -/
def Directive.multiplies : Directive → Bool
  | .op .mul | .op .mulChecked | .op .mulCheckedUnsigned => true
  | _ => false

/-- After an even exponent there is one multiplication to spare. -/
theorem countP_powerDirectives {slot : UInt8} {kind : NumericKind} {times : OpCode} {n : Nat}
    (positive : 1 ≤ n) :
    (powerDirectives slot kind times n).countP Directive.multiplies
      + (if n % 2 = 0 then 1 else 0) ≤ 2 * Nat.log 2 n := by
  have last : ([.op times] : List Directive).countP Directive.multiplies ≤ 1 :=
    List.countP_le_length
  fun_induction powerDirectives slot kind times n with
  | case1 => cases positive
  | case2 => exact Nat.zero_le _
  | case3 n zero one even ih =>
      have halved : Nat.log 2 (n / 2) = Nat.log 2 n - 1 := Nat.log_div_base 2 n
      have digits : 1 ≤ Nat.log 2 n := Nat.log_pos (by decide) (by omega)
      have half := ih (by omega)
      have squared :
          ([.op .dup, .op times] : List Directive).countP Directive.multiplies ≤ 1 := last
      rw [List.countP_append, if_pos even]
      omega
  | case4 n zero one odd ih =>
      have digits : Nat.log 2 (n - 1) ≤ Nat.log 2 n := Nat.log_mono_right (by omega)
      have rest := ih (by omega)
      have product : ([.opByte .getLocal slot, .op times] : List Directive).countP
          Directive.multiplies ≤ 1 := last
      rw [if_pos (by omega)] at rest
      rw [List.countP_append, if_neg odd]
      omega

theorem countP_narrowPower (kind : NumericKind) (checked : Bool) :
    (narrowPower kind checked).countP Directive.multiplies = 0 := by
  cases kind <;> cases checked <;> decide

/-- All multiplications of a power node are those of the unrolled power. -/
theorem countP_own_power {info : NodeInfo} {n : Nat} {kind : NumericKind} {checked : Bool}
    {b y : Element} (live first : Nat) :
    (Step.own ((Element.arithmetic info .pow (.powerUnrolled n kind checked) b y).steps live
      first)).countP Directive.multiplies
      = (powerDirectives (UInt8.ofNat live) kind
          (ArithmeticOp.mul.opcode checked kind.isUnsigned) n).countP Directive.multiplies := by
  have stored : (storeTemporary live).multiplies = false := by
    rw [storeTemporary]
    split <;> rfl
  simp only [Element.steps, Element.body, Step.arithmetic, Step.own_emit, Step.own_visit,
    Step.own_emits, List.cons_append, List.countP_cons, List.countP_append, countP_narrowPower,
    stored]
  rfl

/-- Without an overload, a power with a literal exponent is unrolled. -/
theorem Context.power_of_plain {ctx : Context} {span : Span} {b : Element} {kind : NumericKind}
    (integral : kind.isIntegral = true) (hb : b.type.numericKind? = some kind) {n : Nat}
    (small : n < 2 ^ 31) (place : Span)
    (plain : ctx.findOperator (.binary (.arithmetic .pow)) b.type (Ty.numeric .int32) span
      = .ok none) :
    ctx.arithmetic .pow b (.literal ⟨Ty.numeric .int32, place⟩ (.int (Int32.ofNat n))) span
      = .ok (.arithmetic ⟨b.type, span⟩ .pow (.powerUnrolled n kind ctx.options.checked) b
          (.literal ⟨Ty.numeric .int32, place⟩ (.int (Int32.ofNat n)))) := by
  have value : (Int32.ofNat n).toInt = n := Int32.toInt_ofNat_of_lt small
  have exponent :
      (Element.literal ⟨Ty.numeric .int32, place⟩ (.int (Int32.ofNat n))).nonNegativeInt?
        = some n := by
    simp only [Element.nonNegativeInt?, value, Int.natCast_nonneg, if_true, Int.toNat_natCast]
  have type : (Element.literal ⟨Ty.numeric .int32, place⟩ (.int (Int32.ofNat n))).type
      = Ty.numeric .int32 := rfl
  have known : (Ty.numeric .int32).numericKind? = some .int32 := rfl
  simp only [arithmetic, type, plain, power, hb, known, exponent, integral, Bool.and_true]
  rfl

namespace Machine.Words

variable {V T : Type} {M : Machine V T} {W : M.Words} {kind : NumericKind} {x z : Int}

theorem constant_one (integral : kind.isIntegral = true) :
    M.constant (.ofNat kind 1) = .ok (W.number kind 1) := by
  cases kind <;> first | exact W.int32 1 | exact W.int64 1 | cases integral

/-- A number with a property, and else a trap. -/
def only (W : M.Words) (P : Int → Prop) [DecidablePred P] (kind : NumericKind) (z : Int) :
    Except T V :=
  if P z then .ok (W.number kind z) else .error W.overflow

section

variable {P : Int → Prop} [DecidablePred P] {times : OpCode} {n : Nat}

/-- One more product of a power: it is out of range if the power was. -/
theorem only_bind {m : Nat} {k : V → Except T V} (le : m ≤ n)
    (smaller : ∀ {m k}, m ≤ k → P (x ^ k) → P (x ^ m))
    (next : P (x ^ m) → k (W.number kind (x ^ m)) = W.only P kind (x ^ n)) :
    W.only P kind (x ^ m) >>= k = W.only P kind (x ^ n) := by
  by_cases h : P (x ^ m)
  · rw [only, if_pos h]
    exact next h
  · have h' : ¬ P (x ^ n) := by
      intro held
      exact h (smaller le held)
    rw [only, if_neg h, only, if_neg h']
    rfl

/-- Repeated squaring with a multiplication that gives the products with a property and traps
on the others. -/
theorem power_numbers (integral : kind.isIntegral = true) (one : P 1) (hx : P x)
    (multiplies : ∀ {a b}, P a → P b →
      M.binary times (W.number kind a) (W.number kind b) = W.only P kind (a * b))
    (smaller : ∀ {m k}, m ≤ k → P (x ^ k) → P (x ^ m)) (n : Nat) :
    M.power kind times (W.number kind x) n = W.only P kind (x ^ n) := by
  induction n using Nat.strong_induction_on with
  | _ n ih =>
      rw [power]
      split
      · next zero =>
          rw [zero, pow_zero, only, if_pos one, constant_one integral]
      · split
        · next single =>
            rw [single, pow_one, only, if_pos hx]
        · split
          · next even =>
              have halves : n / 2 + n / 2 = n := by omega
              rw [ih (n / 2) (by omega)]
              refine only_bind (by omega) smaller ?_
              intro held
              rw [multiplies held held, ← pow_add, halves]
          · next odd =>
              have last : n - 1 + 1 = n := by omega
              rw [ih (n - 1) (by omega)]
              refine only_bind (by omega) smaller ?_
              intro held
              rw [multiplies held hx, ← pow_succ, last]

end

theorem power_unchecked (machine : W.Computes) (integral : kind.isIntegral = true) (x : Int)
    (n : Nat) :
    M.power kind (ArithmeticOp.mul.opcode false kind.isUnsigned) (W.number kind x) n
      = .ok (W.number kind (x ^ n)) := by
  have known : (ArithmeticOp.mul.opcode false kind.isUnsigned).onWords?
      = some (.combine fun _ x y => x * y) := rfl
  refine power_numbers (P := fun _ => True) integral trivial trivial ?_ (fun _ => id) n
  intro a b _ _
  rw [only, if_pos trivial, number, number, number, machine.combine kind.slotBits_eq known,
    BitVec.ofInt_mul]

/-- Checked code traps exactly if the power does not fit the word. -/
theorem power_checked (integral : kind.isIntegral = true) (hx : kind.Holds x) (n : Nat) :
    M.power kind (ArithmeticOp.mul.opcode true kind.isUnsigned) (W.number kind x) n
      = W.only (Word.Fits kind.isUnsigned kind.slotBits) kind (x ^ n) := by
  have long : 1 < kind.slotBits := by
    obtain short | long := kind.slotBits_eq <;> omega
  have known := ArithmeticOp.mul.trapping?_opcode rfl kind.isUnsigned
  have one : Word.Fits kind.isUnsigned kind.slotBits 1 :=
    Word.fits_of_abs_le_one long (by simp) fun _ => zero_le_one
  refine power_numbers integral one (hx.slot integral) ?_
    ((hx.slot integral).pow_of_le long) n
  intro a b ha hb
  rw [number, number, W.checked kind.slotBits_eq known, Word.read_ofInt kind.slotBits_pos ha,
    Word.read_ofInt kind.slotBits_pos hb]
  rfl

/-! ## Narrowing -/

/-- The word of a short kind is seen as an `int32` before it is narrowed. -/
theorem number_short (short : kind.bits < 32) (z : Int) :
    W.number kind z = W.number .int32 (NumericKind.int32.wrap z) := by
  have full : NumericKind.int32.slotBits = NumericKind.int32.bits := rfl
  rw [number_wrap full, number, number, NumericKind.slotBits_of_bits short]
  rfl

theorem narrow_unchecked (converts : W.Converts) (integral : kind.isIntegral = true) (z : Int) :
    M.narrow kind false (W.number kind z) = .ok (W.number kind (kind.wrap z)) := by
  rw [narrow]
  split
  · next short =>
      rw [number_short short, unaries_cast converts rfl integral (NumericKind.holds_wrap _ z),
        NumericKind.wrap_wrap short]
  · next long =>
      rw [number_wrap (NumericKind.full_of_bits integral long)]

theorem narrow_checked (converts : W.Converts) (integral : kind.isIntegral = true)
    (fits : Word.Fits kind.isUnsigned kind.slotBits z) :
    M.narrow kind true (W.number kind z) = W.exact kind kind z := by
  rw [narrow]
  split
  · next short =>
      rw [NumericKind.slotBits_of_bits short] at fits
      rw [number_short short,
        unaries_checkedCast converts rfl integral (NumericKind.holds_wrap _ z)]
      obtain same | ⟨outside, outside'⟩ := NumericKind.wrap_int32_of_fits short fits
      · rw [same]
      · rw [exact, exact, if_neg outside, if_neg outside']
  · next long =>
      rw [NumericKind.full_of_bits integral long] at fits
      have held : kind.Holds z := fits
      rw [exact, if_pos held]

/-! ## Nodes -/

/-- The value of a power from that of its base. -/
theorem arithmetic_power (machine : W.Computes) (converts : W.Converts) {b y : Element}
    (integral : kind.isIntegral = true) (hb : W.Operand b kind x) (n : Nat) (checked : Bool) :
    M.arithmetic .pow (.powerUnrolled n kind checked) (b.eval M) (y.eval M)
      = if checked then W.exact kind kind (x ^ n)
        else .ok (W.number kind (kind.wrap (x ^ n))) := by
  rw [hb.value]
  show (do
    let v ← M.power kind (ArithmeticOp.mul.opcode checked kind.isUnsigned) (W.number kind x) n
    M.narrow kind checked v) = _
  cases checked with
  | false =>
      rw [power_unchecked machine integral, if_neg Bool.false_ne_true]
      exact narrow_unchecked converts integral _
  | true =>
      rw [power_checked integral hb.holds, if_pos rfl, only]
      split
      · next fits => exact narrow_checked converts integral fits
      · next outside =>
          have outside' : ¬ kind.Holds (x ^ n) := by
            intro held
            exact outside (held.slot integral)
          rw [exact, if_neg outside']
          rfl

/-- A power with a literal exponent: exact modulo the width of the base without checks, exact or
a trap with them, and by at most two multiplications for each binary digit of the exponent but
the first. -/
theorem leaves_power (machine : W.Computes) (converts : W.Converts) (ctx : Context) {b : Element}
    (integral : kind.isIntegral = true) (hb : W.Operand b kind x) (n : Nat) (small : n < 2 ^ 31)
    (span place : Span)
    (plain : ctx.findOperator (.binary (.arithmetic .pow)) b.type (Ty.numeric .int32) span
      = .ok none) :
    ∃ node, ctx.arithmetic .pow b
          (.literal ⟨Ty.numeric .int32, place⟩ (.int (Int32.ofNat n))) span = .ok node
      ∧ M.Leaves node kind (if ctx.options.checked then W.exact kind kind (x ^ n)
          else .ok (W.number kind (kind.wrap (x ^ n))))
      ∧ (1 ≤ n → ∀ live first,
          (Step.own (node.steps live first)).countP Directive.multiplies ≤ 2 * Nat.log 2 n) := by
  refine ⟨_, ctx.power_of_plain integral hb.type small place plain, ⟨hb.type, ?_, ?_⟩, ?_⟩
  · exact performs_two (by rintro target ⟨⟩) rfl hb.runnable (.of_forall trivial trivial)
  · rw [Element.eval]
    exact arithmetic_power machine converts integral hb n ctx.options.checked
  · intro positive live first
    rw [countP_own_power]
    exact le_of_add_le_left (countP_powerDirectives positive)

/-- The square of the character 46341 is just above the largest `int32`.  As a character it is
4633, and checked code traps.  The fifth power of minus three takes at most four multiplications. -/
theorem leaves_power_char :
    (∃ node, (⟨.empty, {}⟩ : Context).arithmetic .pow (.ofLiteral (.char 46341))
        (.ofLiteral (.int 2)) .unknown = .ok node
      ∧ node.eval arithmetician = .ok ⟨32, 4633⟩)
    ∧ (∃ node, Context.checkedOnly.arithmetic .pow (.ofLiteral (.char 46341))
        (.ofLiteral (.int 2)) .unknown = .ok node
      ∧ node.eval arithmetician = .error ())
    ∧ ∃ node, Context.checkedOnly.arithmetic .pow (.ofLiteral (.int (-3)))
        (.ofLiteral (.int 5)) .unknown = .ok node
      ∧ node.eval arithmetician = .ok ⟨32, -243⟩
      ∧ (Step.own (node.steps 0 0)).countP Directive.multiplies ≤ 4 := by
  have char : ofArithmetician.Operand (.ofLiteral (.char 46341)) .char 46341 :=
    ⟨rfl, .of_forall trivial trivial, rfl, by decide⟩
  have minus : ofArithmetician.Operand (.ofLiteral (.int (-3))) .int32 (-3) :=
    ⟨rfl, .of_forall trivial trivial, rfl, by decide⟩
  have machine := computes_arithmetician
  have converts := converts_arithmetician
  obtain ⟨wrapped, builtWrapped, leaves, -⟩ :=
    leaves_power machine converts ⟨.empty, {}⟩ rfl char 2 (by decide) .unknown .unknown rfl
  obtain ⟨trapped, builtTrapped, leaves', -⟩ :=
    leaves_power machine converts .checkedOnly rfl char 2 (by decide) .unknown .unknown rfl
  obtain ⟨exact, builtExact, leaves'', count⟩ :=
    leaves_power machine converts .checkedOnly rfl minus 5 (by decide) .unknown .unknown rfl
  exact ⟨⟨wrapped, builtWrapped, leaves.value⟩, ⟨trapped, builtTrapped, leaves'.value⟩,
    exact, builtExact, leaves''.value, count (by decide) 0 0⟩

end Machine.Words

end ExprCompiler
