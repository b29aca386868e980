/-
# Unchecked operations on integers

What operators without an overload leave of two integers when nothing is checked, on
a machine whose operations are those of words (`Machine.Words.Computes`).

Operands are converted to one kind first, which keeps their numbers.  After that there
are two ways to go from words to numbers.  Sums, products, bits and left shifts are
the same modulo the width whatever sign the words are read with, so the result is the
number that is meant, wrapped.  Quotients, right shifts and comparisons depend on how
the words are read.  There the instruction has to read them as the operands' kinds do,
and the result is exact (`Machine.Words.computes_unchecked`).
-/
import Mathlib.Data.Int.Bitwise
import Mathlib.Tactic.Zify
import ExprCompiler.Proofs.Machine.Conversions

namespace ExprCompiler

/-! ## Words -/

namespace Word

variable {unsigned : Bool} {n : Nat} {v z : Int}

theorem ofInt_sub (n : Nat) (v w : Int) :
    BitVec.ofInt n (v - w) = BitVec.ofInt n v - BitVec.ofInt n w := by
  rw [sub_eq_add_neg, BitVec.ofInt_add, BitVec.ofInt_neg, BitVec.sub_eq_add_neg]

theorem ofInt_not (n : Nat) (v : Int) : BitVec.ofInt n (-v - 1) = ~~~BitVec.ofInt n v := by
  rw [ofInt_sub, BitVec.ofInt_neg, BitVec.not_eq_neg_add]
  rfl

/-- The bits of a word are those of its number. -/
theorem getLsbD_ofInt (n : Nat) (z : Int) (i : Nat) :
    (BitVec.ofInt n z).getLsbD i = (decide (i < n) && z.testBit i) := by
  cases z with
  | ofNat m =>
      show (BitVec.ofInt n (m : Int)).getLsbD i = _
      rw [BitVec.ofInt_natCast, BitVec.getLsbD_ofNat]
      rfl
  | negSucc m =>
      rw [BitVec.ofInt_negSucc_eq_not_ofNat, BitVec.getLsbD_not, BitVec.getLsbD_ofNat]
      show _ = (decide (i < n) && !m.testBit i)
      cases decide (i < n) <;> rfl

theorem ofInt_land (n : Nat) (v w : Int) :
    BitVec.ofInt n (v.land w) = BitVec.ofInt n v &&& BitVec.ofInt n w := by
  refine BitVec.eq_of_getLsbD_eq ?_
  intro i inside
  simp only [BitVec.getLsbD_and, getLsbD_ofInt, Int.testBit_land, inside, decide_true,
    Bool.true_and]

theorem ofInt_lor (n : Nat) (v w : Int) :
    BitVec.ofInt n (v.lor w) = BitVec.ofInt n v ||| BitVec.ofInt n w := by
  refine BitVec.eq_of_getLsbD_eq ?_
  intro i inside
  simp only [BitVec.getLsbD_or, getLsbD_ofInt, Int.testBit_lor, inside, decide_true,
    Bool.true_and]

theorem ofInt_xor (n : Nat) (v w : Int) :
    BitVec.ofInt n (v.xor w) = BitVec.ofInt n v ^^^ BitVec.ofInt n w := by
  refine BitVec.eq_of_getLsbD_eq ?_
  intro i inside
  simp only [BitVec.getLsbD_xor, getLsbD_ofInt, Int.testBit_lxor, inside, decide_true,
    Bool.true_and]

theorem ofInt_shiftLeft (n : Nat) (v : Int) (k : Nat) :
    BitVec.ofInt n (v * 2 ^ k) = BitVec.ofInt n v <<< k := by
  have power : BitVec.ofInt n (2 ^ k) = BitVec.twoPow n k := by
    refine BitVec.eq_of_toNat_eq ?_
    rw [BitVec.toNat_twoPow, BitVec.toNat_ofInt]
    norm_cast
  rw [BitVec.ofInt_mul, power, BitVec.shiftLeft_eq_mul_twoPow]

theorem read_udiv (x y : BitVec n) : read true (x / y) = (read true x).tdiv (read true y) := by
  show (((x / y).toNat : Nat) : Int) = (x.toNat : Int).tdiv y.toNat
  rw [BitVec.toNat_udiv, Int.ofNat_tdiv]

theorem read_umod (x y : BitVec n) : read true (x % y) = (read true x).tmod (read true y) := by
  show (((x % y).toNat : Nat) : Int) = (x.toNat : Int).tmod y.toNat
  rw [BitVec.toNat_umod, Int.ofNat_tmod]

/-- A right shift rounds down, for negative numbers too. -/
theorem read_sshiftRight (x : BitVec n) (k : Nat) :
    read false (x.sshiftRight k) = read false x / 2 ^ k := by
  show (x.sshiftRight k).toInt = x.toInt / 2 ^ k
  rw [BitVec.toInt_sshiftRight, Int.shiftRight_eq_div_pow]
  norm_cast

theorem read_ushiftRight (x : BitVec n) (k : Nat) : read true (x >>> k) = read true x / 2 ^ k := by
  show (((x >>> k).toNat : Nat) : Int) = (x.toNat : Int) / 2 ^ k
  rw [BitVec.toNat_ushiftRight, Nat.shiftRight_eq_div_pow]
  norm_cast

theorem read_inj {x y : BitVec n} : read unsigned x = read unsigned y ↔ x = y := by
  constructor
  · intro same
    rw [← ofInt_read unsigned x, same, ofInt_read]
  · rintro rfl
    rfl

theorem ofInt_ne_zero (positive : 0 < n) (h : Fits unsigned n z) (nonzero : z ≠ 0) :
    BitVec.ofInt n z ≠ 0 := by
  intro zero
  have none : Fits unsigned n 0 := by
    cases unsigned <;> simp [Fits]
  exact nonzero ((ofInt_inj positive h none).mp zero)

/-- The least word divided by minus one is the least number divided by minus one. -/
theorem ofInt_ne_least_or (positive : 0 < n) (hv : Fits false n v) (hz : Fits false n z)
    (bounded : ¬ (v = -2 ^ (n - 1) ∧ z = -1)) :
    BitVec.ofInt n v ≠ BitVec.intMin n ∨ BitVec.ofInt n z ≠ -1#n := by
  rw [← not_and_or]
  rintro ⟨least, minus⟩
  refine bounded ⟨?_, ?_⟩
  · rw [← read_ofInt positive hv, least]
    exact BitVec.toInt_intMin_of_pos positive
  · rw [← read_ofInt positive hz, minus, BitVec.neg_one_eq_allOnes]
    exact BitVec.toInt_allOnes.trans (if_pos positive)

theorem ult_eq_read (x y : BitVec n) : x.ult y = decide (read true x < read true y) := by
  rw [BitVec.ult_eq_decide]
  exact decide_eq_decide.mpr Int.ofNat_lt.symm

theorem slt_eq_read (x y : BitVec n) : x.slt y = decide (read false x < read false y) :=
  BitVec.slt_eq_decide

/-- The lowest bits of a count are its remainder, also of a negative one. -/
theorem toNat_masked {k : Nat} (short : k ≤ 32) (c : Int) :
    (BitVec.ofInt 32 c &&& BitVec.ofNat 32 (2 ^ k - 1)).toNat = (c % 2 ^ k).toNat := by
  have small : 2 ^ k - 1 < 2 ^ 32 := by
    have positive := Nat.two_pow_pos k
    have bounded := Nat.pow_le_pow_right (by decide : 0 < 2) short
    omega
  have divides : (2 : Int) ^ k ∣ 2 ^ 32 := pow_dvd_pow 2 short
  rw [BitVec.toNat_and, BitVec.toNat_ofNat, Nat.mod_eq_of_lt small,
    Nat.and_two_pow_sub_one_eq_mod, BitVec.toNat_ofInt]
  zify
  rw [Int.toNat_of_nonneg (Int.emod_nonneg _ (by positivity)),
    Int.toNat_of_nonneg (Int.emod_nonneg _ (by positivity)), Int.emod_emod_of_dvd _ divides]

/-- What is between zero and a number that fits does. -/
theorem Fits.between (h : Fits unsigned n v) (low : 0 ≤ z) (high : z ≤ v) :
    Fits unsigned n z := by
  cases unsigned with
  | true => exact ⟨low, high.trans_lt h.2⟩
  | false => exact ⟨(neg_nonpos.mpr (by positivity)).trans low, high.trans_lt h.2⟩

end Word

/-! ## Operators on integers -/

/-- Truncated quotient and remainder. -/
def ArithmeticOp.truncated? : ArithmeticOp → Option (Int → Int → Int)
  | div => some Int.tdiv
  | mod => some Int.tmod
  | _ => none

/-- A bitwise operator on integers of any length. -/
def LogicalOp.onIntegers : LogicalOp → Int → Int → Int
  | and => Int.land
  | or => Int.lor
  | xor => Int.xor

/-- A shift in a kind by a count, of which the remainder by the width counts. -/
def ShiftOp.onIntegers (op : ShiftOp) (kind : NumericKind) (v count : Int) : Int :=
  match op with
  | shl => kind.wrap (v * 2 ^ (count % kind.bits).toNat)
  | shr => v / 2 ^ (count % kind.bits).toNat

/-- Whether a comparison of integers holds. -/
def CompareOp.onIntegers : CompareOp → Int → Int → Bool
  | eq, v, w => v = w
  | ne, v, w => v ≠ w
  | lt, v, w => v < w
  | gt, v, w => v > w
  | le, v, w => v ≤ w
  | ge, v, w => v ≥ w

/-- The least number of an integral kind. -/
def NumericKind.least (kind : NumericKind) : Int :=
  if kind.isUnsigned then 0 else -2 ^ (kind.bits - 1)

theorem ArithmeticOp.onWords?_exact {op : ArithmeticOp} {f : Int → Int → Int}
    (h : op.exact? = some f) (unsigned : Bool) :
    ∃ g, (op.opcode false unsigned).onWords? = some (.combine g)
      ∧ ∀ n v w, g n (BitVec.ofInt n v) (BitVec.ofInt n w) = BitVec.ofInt n (f v w) := by
  cases op with
  | add =>
      cases h
      exact ⟨_, rfl, fun n v w => (BitVec.ofInt_add v w).symm⟩
  | sub =>
      cases h
      exact ⟨_, rfl, fun n v w => (Word.ofInt_sub n v w).symm⟩
  | mul =>
      cases h
      exact ⟨_, rfl, fun n v w => (BitVec.ofInt_mul v w).symm⟩
  | _ => cases h

theorem LogicalOp.onWords?_opcode (op : LogicalOp) :
    ∃ g, op.opcode.onWords? = some (.combine g)
      ∧ ∀ n v w, g n (BitVec.ofInt n v) (BitVec.ofInt n w)
          = BitVec.ofInt n (op.onIntegers v w) := by
  cases op with
  | and => exact ⟨_, rfl, fun n v w => (Word.ofInt_land n v w).symm⟩
  | or => exact ⟨_, rfl, fun n v w => (Word.ofInt_lor n v w).symm⟩
  | xor => exact ⟨_, rfl, fun n v w => (Word.ofInt_xor n v w).symm⟩

/-- The instruction of a division computes the truncated result of what it reads. -/
theorem ArithmeticOp.onWords?_truncated {op : ArithmeticOp} {f : Int → Int → Int}
    (h : op.truncated? = some f) (checked unsigned : Bool) :
    ∃ g, (op.opcode checked unsigned).onWords? = some (.divide unsigned g)
      ∧ ∀ n (x y : BitVec n), (unsigned = false → x ≠ BitVec.intMin n ∨ y ≠ -1#n) →
          Word.read unsigned (g n x y) = f (Word.read unsigned x) (Word.read unsigned y) := by
  cases op with
  | div =>
      cases h
      cases unsigned with
      | true => exact ⟨_, rfl, fun n x y _ => Word.read_udiv x y⟩
      | false =>
          exact ⟨_, rfl, fun n x y bounded => BitVec.toInt_sdiv_of_ne_or_ne x y (bounded rfl)⟩
  | mod =>
      cases h
      cases unsigned with
      | true => exact ⟨_, rfl, fun n x y _ => Word.read_umod x y⟩
      | false => exact ⟨_, rfl, fun n x y _ => BitVec.toInt_srem x y⟩
  | _ => cases h

/-- A quotient or remainder of numbers without a sign is at most the dividend. -/
theorem ArithmeticOp.truncated?_le {op : ArithmeticOp} {f : Int → Int → Int} {v w : Int}
    (h : op.truncated? = some f) (hv : 0 ≤ v) (hw : 0 ≤ w) : 0 ≤ f v w ∧ f v w ≤ v := by
  lift v to Nat using hv
  lift w to Nat using hw
  cases op with
  | div =>
      cases h
      rw [← Int.ofNat_tdiv]
      exact ⟨Int.natCast_nonneg _, Int.ofNat_le.mpr (Nat.div_le_self v w)⟩
  | mod =>
      cases h
      rw [← Int.ofNat_tmod]
      exact ⟨Int.natCast_nonneg _, Int.ofNat_le.mpr (Nat.mod_le v w)⟩
  | _ => cases h

theorem OpCode.onWords?_below (unsigned : Bool) :
    ∃ f, (if unsigned then ltUnsigned else lt).onWords? = some (.test f)
      ∧ ∀ n (x y : BitVec n), f n x y = decide (Word.read unsigned x < Word.read unsigned y) := by
  cases unsigned with
  | true => exact ⟨_, rfl, fun n x y => Word.ult_eq_read x y⟩
  | false => exact ⟨_, rfl, fun n x y => Word.slt_eq_read x y⟩

theorem OpCode.onWords?_above (unsigned : Bool) :
    ∃ f, (if unsigned then gtUnsigned else gt).onWords? = some (.test f)
      ∧ ∀ n (x y : BitVec n), f n x y = decide (Word.read unsigned x > Word.read unsigned y) := by
  cases unsigned with
  | true => exact ⟨_, rfl, fun n x y => Word.ult_eq_read y x⟩
  | false => exact ⟨_, rfl, fun n x y => Word.slt_eq_read y x⟩

theorem ShiftOp.onWords?_shr (unsigned : Bool) :
    ∃ f, (ShiftOp.shr.opcode unsigned).onWords? = some (.shift f)
      ∧ ∀ n (x : BitVec n) k, Word.read unsigned (f n x k) = Word.read unsigned x / 2 ^ k := by
  cases unsigned with
  | true => exact ⟨_, rfl, fun n x k => Word.read_ushiftRight x k⟩
  | false => exact ⟨_, rfl, fun n x k => Word.read_sshiftRight x k⟩

/-! ## Kinds -/

namespace NumericKind

variable {left right kind : NumericKind} {z : Int}

/-- Operands meet in a kind that is as long as its word, and without a sign only if they have
none. -/
theorem full_of_meet? (meet : left.meet? right = some kind) (integral : kind.isIntegral = true) :
    kind.slotBits = kind.bits
      ∧ (left.isUnsigned && right.isUnsigned || !kind.isUnsigned) = true := by
  cases left <;> cases right <;> cases meet <;> first | decide | cases integral

theorem isIntegral_of_both (meet : left.meet? right = some kind)
    (integral : left.isIntegral = true) (integral' : right.isIntegral = true) :
    kind.isIntegral = true := by
  revert integral integral'
  cases left <;> cases right <;> cases meet <;> decide

theorem full_of_promote (integral : left.isIntegral = true) :
    left.promote.isIntegral = true ∧ left.promote.slotBits = left.promote.bits := by
  cases left <;> first | decide | cases integral

/-- The mask of a count has the bits of the remainders by the width. -/
theorem mask_of_full (full : kind.slotBits = kind.bits) :
    ∃ k, k ≤ 32 ∧ kind.bits = 2 ^ k
      ∧ (if kind.isWide then (0x3f : Int32) else 0x1f).toBitVec = BitVec.ofNat 32 (2 ^ k - 1) := by
  obtain short | long := kind.slotBits_eq
  · refine ⟨5, by decide, full ▸ short, ?_⟩
    cases kind <;> first | rfl | cases short
  · refine ⟨6, by decide, full ▸ long, ?_⟩
    cases kind <;> first | rfl | cases long

end NumericKind

/-! ## Nodes without an overload -/

namespace Context

variable {ctx : Context} {span : Span} {x y : Element} {left right kind : NumericKind}

theorem integralKind?_of_numericKind? {t : Ty} (h : t.numericKind? = some left)
    (integral : left.isIntegral = true) : t.integralKind? = some left := by
  rw [Ty.integralKind?, h, Option.filter_some, if_pos integral]

theorem complement_of_plain
    (plain : ctx.findUnaryOperator (.unary .complement) x.type span = .ok none)
    (hx : x.type.numericKind? = some left) (integral : left.isIntegral = true) :
    ctx.unary .complement x span
      = .ok (.unary ⟨Ty.numeric left.promote, span⟩ .complement
          (.complement left.promote (.operand left left.promote)) x) := by
  have found : ctx.builtinUnary? .complement x.type
      = some (.complement left.promote (.operand left left.promote), Ty.numeric left.promote) := by
    simp only [builtinUnary?, integralKind?_of_numericKind? hx integral, Option.bind_eq_bind,
      Option.bind_some]
  simp only [unary, plain, found]
  rfl

theorem logical_of_plain {op : LogicalOp}
    (plain : ctx.findOperator (.binary (.logical op)) x.type y.type span = .ok none)
    (hx : x.type.numericKind? = some left) (hy : y.type.numericKind? = some right)
    (meet : left.meet? right = some kind) (integral : kind.isIntegral = true) :
    ctx.logical op x y span
      = .ok (.logical ⟨Ty.numeric kind, span⟩ op
          (.bitwise kind (.operand left kind) (.operand right kind)) x y) := by
  obtain ⟨wideLeft, wideRight⟩ := NumericKind.widens_of_meet? meet
  have integralLeft := (NumericKind.implicitOps_of_widens wideLeft integral).1
  have integralRight := (NumericKind.implicitOps_of_widens wideRight integral).1
  have number : x.type.isBool = false := by
    simp only [Ty.isBool]
    simp only [Ty.numericKind?] at hx
    split at hx
    · next found => rw [found]; rfl
    · cases hx
  have found : builtinLogical? op x.type y.type
      = some (.bitwise kind (.operand left kind) (.operand right kind), Ty.numeric kind) := by
    simp only [builtinLogical?, number, integralKind?_of_numericKind? hx integralLeft,
      integralKind?_of_numericKind? hy integralRight, Bool.false_and, Option.bind_eq_bind,
      Option.bind_some, meet]
    rfl
  simp only [logical, plain, found]
  rfl

theorem shift_of_plain {op : ShiftOp} {count : Conversion}
    (plain : ctx.findOperator (.binary (.shift op)) x.type y.type span = .ok none)
    (hx : x.type.numericKind? = some left) (integral : left.isIntegral = true)
    (converts : ctx.conversion? y.type (Ty.numeric .int32) = some count) :
    ctx.shift op x y span
      = .ok (.shift ⟨Ty.numeric left.promote, span⟩ op
          (.numeric left.promote (.operand left left.promote) count) x y) := by
  simp only [shift, plain, integralKind?_of_numericKind? hx integral, converts]
  rfl

theorem compare_of_plain {op : CompareOp}
    (plain : ctx.compareOverload op x.type y.type span = .ok none)
    (hx : x.type.numericKind? = some left) (hy : y.type.numericKind? = some right)
    (meet : left.meet? right = some kind) :
    ctx.compare op x y span
      = .ok (.compare ⟨Ty.bool, span⟩ op (.numeric kind (.operand left kind) (.operand right kind))
          x y) := by
  simp only [compare, comparePlan, plain, builtinComparison, hx, hy, meet]
  rfl

theorem compare_of_enum {op : CompareOp}
    (plain : ctx.compareOverload op x.type y.type span = .ok none) (same : x.type = y.type)
    (isEnum : x.type.isEnum = true)
    (made : (ctx.entry? x.type.id).bind (·.underlying) = some kind) :
    ctx.compare op x y span = .ok (.compare ⟨Ty.bool, span⟩ op (.enum kind) x y) := by
  have noNumber : x.type.numericKind? = none := by
    simp only [Ty.isEnum, beq_iff_eq] at isEnum
    simp only [Ty.numericKind?, isEnum]
  have found : ctx.builtinComparison op x.type y.type span = .ok (.enum kind) := by
    rw [← same]
    simp only [builtinComparison, noNumber, isEnum, decide_true, Bool.and_true, if_true, made]
  simp only [compare, comparePlan, plain, found]
  rfl

end Context

namespace Machine

variable {V T : Type} {M : Machine V T}

namespace Words

variable (W : M.Words) {left right kind : NumericKind} {v w c z : Int} {x y : Element}

/-- A node whose code leaves a number of a kind. -/
structure Result (node : Element) (kind : NumericKind) (z : Int) : Prop where
  leaves : M.Leaves node kind (.ok (W.number kind z))
  holds : kind.Holds z

/-- A node whose code leaves a truth value. -/
structure Answer (node : Element) (b : Bool) : Prop where
  type : node.type = Ty.bool
  code : ∀ em, M.Performs em node
  value : node.eval M = .ok (W.bit b)

/-- A value of an enum that is made of a kind. -/
structure EnumValue (ctx : Context) (x : Element) (kind : NumericKind) (z : Int) : Prop where
  isEnum : x.type.isEnum = true
  underlying : (ctx.entry? x.type.id).bind (·.underlying) = some kind
  runnable : x.All Element.Runnable
  value : x.eval M = .ok (W.number kind z)
  holds : kind.Holds z

variable {W}

/-! ## Operations -/

theorem combine_numbers (machine : W.Computes) {code : OpCode}
    {f : (n : Nat) → BitVec n → BitVec n → BitVec n} {g : Int → Int → Int}
    (known : code.onWords? = some (.combine f))
    (same : ∀ n v w, f n (BitVec.ofInt n v) (BitVec.ofInt n w) = BitVec.ofInt n (g v w))
    (full : kind.slotBits = kind.bits) (v w : Int) :
    M.binary code (W.number kind v) (W.number kind w)
      = .ok (W.number kind (kind.wrap (g v w))) := by
  rw [number_wrap full, number, number, number, machine.combine kind.slotBits_eq known, same]

theorem test_numbers (machine : W.Computes) {code : OpCode}
    {f : (n : Nat) → BitVec n → BitVec n → Bool} (g : Int → Int → Bool)
    (known : code.onWords? = some (.test f))
    (same : ∀ n x y, f n x y = g (Word.read kind.isUnsigned x) (Word.read kind.isUnsigned y))
    (integral : kind.isIntegral = true) (hv : kind.Holds v) (hw : kind.Holds w) :
    M.binary code (W.number kind v) (W.number kind w) = .ok (W.bit (g v w)) := by
  rw [number, number, machine.test kind.slotBits_eq known, same,
    Word.read_ofInt kind.slotBits_pos (hv.slot integral),
    Word.read_ofInt kind.slotBits_pos (hw.slot integral)]

theorem unary_not_bit (machine : W.Computes) (b : Bool) :
    M.unary .not (W.bit b) = .ok (W.bit !b) := by
  rw [bit, machine.not]
  cases b <;> rfl

/-- Numbers of one kind are compared as what they are. -/
theorem compare_numbers (machine : W.Computes) (op : CompareOp)
    (integral : kind.isIntegral = true) (hv : kind.Holds v) (hw : kind.Holds w) :
    M.compareNumbers op kind.isUnsigned kind.isFloating (W.number kind v) (W.number kind w)
      = .ok (W.bit (op.onIntegers v w)) := by
  have whole : kind.isFloating = false := by simpa [NumericKind.isIntegral] using integral
  have equal : M.binary .eq (W.number kind v) (W.number kind w) = .ok (W.bit (v = w)) := by
    refine test_numbers machine (fun v w => v = w) rfl ?_ integral hv hw
    intro n x y
    exact (decide_eq_decide.mpr Word.read_inj).symm
  have below : M.binary (if kind.isUnsigned then .ltUnsigned else .lt) (W.number kind v)
      (W.number kind w) = .ok (W.bit (v < w)) := by
    obtain ⟨f, known, same⟩ := OpCode.onWords?_below kind.isUnsigned
    exact test_numbers machine (fun v w => v < w) known same integral hv hw
  have above : M.binary (if kind.isUnsigned then .gtUnsigned else .gt) (W.number kind v)
      (W.number kind w) = .ok (W.bit (v > w)) := by
    obtain ⟨f, known, same⟩ := OpCode.onWords?_above kind.isUnsigned
    exact test_numbers machine (fun v w => v > w) known same integral hv hw
  have turned {code : OpCode} {b : Bool} (h : M.binary code (W.number kind v) (W.number kind w)
      = .ok (W.bit b)) :
      M.negated true (M.binary code (W.number kind v) (W.number kind w)) = .ok (W.bit !b) := by
    rw [h]
    exact unary_not_bit machine b
  cases op with
  | eq => exact equal
  | ne =>
      simp only [compareNumbers, CompareOp.onIntegers, decide_not]
      exact turned equal
  | lt => exact below
  | gt => exact above
  | le =>
      simp only [compareNumbers, CompareOp.onIntegers, whole, Bool.or_false, ← not_lt, decide_not]
      exact turned above
  | ge =>
      simp only [compareNumbers, CompareOp.onIntegers, whole, Bool.or_false, ge_iff_le, ← not_lt,
        decide_not]
      exact turned below

/-- A division of numbers that meet in a kind reads them as they are. -/
theorem divide_numbers (machine : W.Computes) {op : ArithmeticOp} {f : Int → Int → Int}
    (truncates : op.truncated? = some f) (checked : Bool) (meet : left.meet? right = some kind)
    (integral : kind.isIntegral = true) (hv : left.Holds v) (hw : right.Holds w)
    (nonzero : w ≠ 0) (bounded : ¬ (v = kind.least ∧ w = -1)) :
    M.binary (op.opcode checked (left.isUnsigned && right.isUnsigned)) (W.number kind v)
        (W.number kind w) = .ok (W.number kind (f v w))
      ∧ kind.Holds (f v w) := by
  obtain ⟨insideLeft, insideRight⟩ := NumericKind.within_of_meet? meet integral
  obtain ⟨full, signs⟩ := NumericKind.full_of_meet? meet integral
  have fitsLeft := hv.within insideLeft
  have fitsRight := hw.within insideRight
  have held := hv.widen (NumericKind.widens_of_meet? meet).1 integral
  revert signs fitsLeft fitsRight
  generalize (left.isUnsigned && right.isUnsigned) = unsigned
  intro signs fitsLeft fitsRight
  obtain ⟨g, known, same⟩ := op.onWords?_truncated truncates checked unsigned
  have nonzero' := Word.ofInt_ne_zero kind.slotBits_pos fitsRight nonzero
  have bounded' : unsigned = false → BitVec.ofInt kind.slotBits v ≠ BitVec.intMin kind.slotBits
      ∨ BitVec.ofInt kind.slotBits w ≠ -1#(kind.slotBits) := by
    rintro rfl
    have signed : kind.isUnsigned = false := by simpa using signs
    refine Word.ofInt_ne_least_or kind.slotBits_pos fitsLeft fitsRight ?_
    rw [full]
    rwa [NumericKind.least, signed] at bounded
  have value := same _ _ _ bounded'
  rw [Word.read_ofInt kind.slotBits_pos fitsLeft, Word.read_ofInt kind.slotBits_pos fitsRight]
    at value
  constructor
  · rw [number, number, machine.divide kind.slotBits_eq known _ _ nonzero' bounded', number,
      ← value, Word.ofInt_read]
  · cases unsigned with
    | true =>
        obtain ⟨low, high⟩ := op.truncated?_le truncates fitsLeft.1 fitsRight.1
        exact held.between low high
    | false =>
        have signed : kind.isUnsigned = false := by simpa using signs
        have fits := Word.fits_read false
          (g _ (BitVec.ofInt kind.slotBits v) (BitVec.ofInt kind.slotBits w))
        rwa [value, full, ← signed] at fits

/-- A count is cut to the width before a shift. -/
theorem masked_count (machine : W.Computes) (full : kind.slotBits = kind.bits) (c : Int) :
    ∃ count : BitVec 32,
      (M.constant (.int32 (if kind.isWide then 0x3f else 0x1f)) >>= fun mask =>
        M.binary .and (W.number .int32 c) mask) = .ok (W.word count)
        ∧ count.toNat = (c % kind.bits).toNat ∧ count.toNat < kind.slotBits := by
  obtain ⟨k, short, width, mask⟩ := NumericKind.mask_of_full full
  have known : OpCode.and.onWords? = some (.combine fun _ x y => x &&& y) := rfl
  have width' : (kind.bits : Int) = 2 ^ k := by
    rw [width, Nat.cast_pow, Nat.cast_ofNat]
  have counted := Word.toNat_masked short c
  rw [← width'] at counted
  refine ⟨BitVec.ofInt 32 c &&& BitVec.ofNat 32 (2 ^ k - 1), ?_, counted, ?_⟩
  · rw [W.int32, mask]
    exact machine.combine (.inl rfl) known _ _
  · rw [counted, full]
    have positive : (0 : Int) < kind.bits := Int.natCast_pos.mpr kind.bits_pos
    have low := Int.emod_nonneg c positive.ne'
    have high := Int.emod_lt_of_pos c positive
    omega

/-- A shift of a number is a product or quotient by a power of two. -/
theorem shift_numbers (machine : W.Computes) (op : ShiftOp) (integral : kind.isIntegral = true)
    (full : kind.slotBits = kind.bits) (hv : kind.Holds v) {count : BitVec 32} {c : Int}
    (counted : count.toNat = (c % kind.bits).toNat) (inside : count.toNat < kind.slotBits) :
    M.binary (op.opcode kind.isUnsigned) (W.number kind v) (W.word count)
        = .ok (W.number kind (op.onIntegers kind v c))
      ∧ kind.Holds (op.onIntegers kind v c) := by
  cases op with
  | shl =>
      have known : (ShiftOp.shl.opcode kind.isUnsigned).onWords?
          = some (.shift fun _ x k => x <<< k) := rfl
      refine ⟨?_, kind.holds_wrap _⟩
      rw [ShiftOp.onIntegers, number_wrap full, ← counted, number, number,
        machine.shift kind.slotBits_eq known _ _ inside, Word.ofInt_shiftLeft]
  | shr =>
      obtain ⟨f, known, same⟩ := ShiftOp.onWords?_shr kind.isUnsigned
      have value := same _ (BitVec.ofInt kind.slotBits v) count.toNat
      rw [Word.read_ofInt kind.slotBits_pos (hv.slot integral)] at value
      rw [ShiftOp.onIntegers, ← counted, ← value]
      constructor
      · rw [number, number, machine.shift kind.slotBits_eq known _ _ inside, Word.ofInt_read]
      · rw [NumericKind.Holds, ← full]
        exact Word.fits_read _ _

/-! ## Operands -/

/-- A count of any kind that widens to `int32` keeps its number. -/
theorem convert_count (ctx : Context) (hy : W.Operand y right c)
    (wide : right.widens .int32 = true) :
    ∃ count, ctx.conversion? y.type (Ty.numeric .int32) = some count
      ∧ M.convert count (W.number right c) = .ok (W.number .int32 c) := by
  by_cases same : y.type = Ty.numeric .int32
  · have kind : right = .int32 := by
      have known := hy.type
      rw [same] at known
      exact (Option.some.inj known).symm
    subst kind
    exact ⟨.identity, if_pos same, rfl⟩
  · refine ⟨⟨.numeric right .int32, NumericKind.int32.rank - right.rank⟩, ?_, ?_⟩
    · have target : (Ty.numeric .int32).numericKind? = some .int32 := rfl
      simp only [Context.conversion?, if_neg same, hy.type, target, Conversion.widening?,
        NumericKind.widenCost?, if_pos wide, Option.map_some]
    · exact W.unaries_implicitOps wide rfl hy.holds

/-! ## Nodes -/

variable {ctx : Context} {span : Span}

theorem result_arithmetic (machine : W.Computes) (unchecked : ctx.options.checked = false)
    {op : ArithmeticOp} {f : Int → Int → Int} (exact : op.exact? = some f)
    (meet : left.meet? right = some kind) (integral : kind.isIntegral = true)
    (hx : W.Operand x left v) (hy : W.Operand y right w)
    (plain : ctx.findOperator (.binary (.arithmetic op)) x.type y.type span = .ok none) :
    ∃ node, ctx.arithmetic op x y span = .ok node ∧ W.Result node kind (kind.wrap (f v w)) := by
  have notPower : op ≠ .pow := by
    rintro rfl
    cases exact
  obtain ⟨full, -⟩ := NumericKind.full_of_meet? meet integral
  obtain ⟨g, known, same⟩ := op.onWords?_exact exact (left.isUnsigned && right.isUnsigned)
  refine ⟨_, ctx.arithmetic_of_plain notPower plain hx.type hy.type meet, ⟨rfl, ?_, ?_⟩,
    kind.holds_wrap _⟩
  · exact performs_two (by rintro target ⟨⟩) rfl hx.runnable hy.runnable
  · rw [Context.numericPlan, unchecked, Bool.false_and, Element.eval, arithmetic,
      both_operands meet integral hx hy]
    exact combine_numbers machine known same full v w

theorem result_division (machine : W.Computes) {op : ArithmeticOp} {f : Int → Int → Int}
    (truncates : op.truncated? = some f) (meet : left.meet? right = some kind)
    (integral : kind.isIntegral = true) (hx : W.Operand x left v) (hy : W.Operand y right w)
    (nonzero : w ≠ 0) (bounded : ¬ (v = kind.least ∧ w = -1))
    (plain : ctx.findOperator (.binary (.arithmetic op)) x.type y.type span = .ok none) :
    ∃ node, ctx.arithmetic op x y span = .ok node ∧ W.Result node kind (f v w) := by
  have notPower : op ≠ .pow := by
    rintro rfl
    cases truncates
  obtain ⟨divided, held⟩ := divide_numbers machine truncates
    (ctx.options.checked && kind.isIntegral) meet integral hx.holds hy.holds nonzero bounded
  refine ⟨_, ctx.arithmetic_of_plain notPower plain hx.type hy.type meet, ⟨rfl, ?_, ?_⟩, held⟩
  · exact performs_two (by rintro target ⟨⟩) rfl hx.runnable hy.runnable
  · rw [Context.numericPlan, Element.eval, arithmetic, both_operands meet integral hx hy]
    exact divided

theorem result_logical (machine : W.Computes) (op : LogicalOp)
    (meet : left.meet? right = some kind) (integral : kind.isIntegral = true)
    (hx : W.Operand x left v) (hy : W.Operand y right w)
    (plain : ctx.findOperator (.binary (.logical op)) x.type y.type span = .ok none) :
    ∃ node, ctx.logical op x y span = .ok node
      ∧ W.Result node kind (kind.wrap (op.onIntegers v w)) := by
  obtain ⟨full, -⟩ := NumericKind.full_of_meet? meet integral
  obtain ⟨g, known, same⟩ := op.onWords?_opcode
  refine ⟨_, ctx.logical_of_plain plain hx.type hy.type meet integral, ⟨rfl, ?_, ?_⟩,
    kind.holds_wrap _⟩
  · exact performs_two (by rintro target ⟨⟩) rfl hx.runnable hy.runnable
  · rw [Element.eval, logical, both_operands meet integral hx hy]
    exact combine_numbers machine known same full v w

theorem result_negate (machine : W.Computes) (unchecked : ctx.options.checked = false)
    (meet : left.meet? .int32 = some kind) (integral : kind.isIntegral = true)
    (hx : W.Operand x left v)
    (plain : ctx.findUnaryOperator (.unary .neg) x.type span = .ok none) :
    ∃ node, ctx.unary .neg x span = .ok node ∧ W.Result node kind (kind.wrap (-v)) := by
  obtain ⟨full, -⟩ := NumericKind.full_of_meet? meet integral
  have built := ctx.unary_of_plain plain hx.type meet
  rw [unchecked, Bool.false_and] at built
  refine ⟨_, built, ⟨rfl, ?_, ?_⟩, kind.holds_wrap _⟩
  · exact performs_one (by rintro target ⟨⟩) rfl hx.runnable
  · rw [Element.eval, hx.value]
    show M.convert (.operand left kind) (W.number left v) >>= M.unary .neg = _
    rw [W.convert_operand (NumericKind.widens_of_meet? meet).1 integral hx.holds, number_wrap full]
    show M.unary .neg (W.number kind v) = _
    rw [number, number, machine.neg kind.slotBits_eq, BitVec.ofInt_neg]

theorem result_complement (machine : W.Computes) (integral : left.isIntegral = true)
    (hx : W.Operand x left v)
    (plain : ctx.findUnaryOperator (.unary .complement) x.type span = .ok none) :
    ∃ node, ctx.unary .complement x span = .ok node
      ∧ W.Result node left.promote (left.promote.wrap (-v - 1)) := by
  obtain ⟨integral', full⟩ := NumericKind.full_of_promote integral
  refine ⟨_, ctx.complement_of_plain plain hx.type integral, ⟨rfl, ?_, ?_⟩,
    left.promote.holds_wrap _⟩
  · exact performs_one (by rintro target ⟨⟩) rfl hx.runnable
  · rw [Element.eval, hx.value]
    show M.convert (.operand left left.promote) (W.number left v) >>= M.unary .bitNot = _
    rw [W.convert_operand left.widens_promote integral' hx.holds, number_wrap full]
    show M.unary .bitNot (W.number left.promote v) = _
    rw [number, number, machine.bitNot left.promote.slotBits_eq, Word.ofInt_not]

theorem result_shift (machine : W.Computes) (op : ShiftOp) (integral : left.isIntegral = true)
    (hx : W.Operand x left v) (hy : W.Operand y right c) (wide : right.widens .int32 = true)
    (plain : ctx.findOperator (.binary (.shift op)) x.type y.type span = .ok none) :
    ∃ node, ctx.shift op x y span = .ok node
      ∧ W.Result node left.promote (op.onIntegers left.promote v c) := by
  obtain ⟨integral', full⟩ := NumericKind.full_of_promote integral
  have held := hx.holds.widen left.widens_promote integral'
  obtain ⟨conversion, converts, converted⟩ := convert_count ctx hy wide
  obtain ⟨count, cut, counted, inside⟩ := masked_count machine full c
  obtain ⟨shifted, held'⟩ := shift_numbers machine op integral' full held counted inside
  refine ⟨_, ctx.shift_of_plain plain hx.type integral converts, ⟨rfl, ?_, ?_⟩, held'⟩
  · exact performs_two (by rintro target ⟨⟩) rfl hx.runnable hy.runnable
  · rw [Element.eval, shift, both_of_ok hx.value
      (W.convert_operand left.widens_promote integral' hx.holds) hy.value converted]
    rw [← bind_assoc, cut]
    exact shifted

theorem answer_compare (machine : W.Computes) (op : CompareOp)
    (meet : left.meet? right = some kind) (integral : kind.isIntegral = true)
    (hx : W.Operand x left v) (hy : W.Operand y right w)
    (plain : ctx.compareOverload op x.type y.type span = .ok none) :
    ∃ node, ctx.compare op x y span = .ok node ∧ W.Answer node (op.onIntegers v w) := by
  obtain ⟨wideLeft, wideRight⟩ := NumericKind.widens_of_meet? meet
  refine ⟨_, ctx.compare_of_plain plain hx.type hy.type meet, rfl, ?_, ?_⟩
  · exact performs_two (by rintro call negate ⟨⟩) rfl hx.runnable hy.runnable
  · rw [Element.eval, ComparePlan.operandConversions, both_operands meet integral hx hy]
    exact compare_numbers machine op integral (hx.holds.widen wideLeft integral)
      (hy.holds.widen wideRight integral)

theorem answer_compare_enum (machine : W.Computes) (op : CompareOp)
    (integral : kind.isIntegral = true) (same : x.type = y.type)
    (hx : W.EnumValue ctx x kind v) (hy : W.EnumValue ctx y kind w)
    (plain : ctx.compareOverload op x.type y.type span = .ok none) :
    ∃ node, ctx.compare op x y span = .ok node ∧ W.Answer node (op.onIntegers v w) := by
  refine ⟨_, ctx.compare_of_enum plain same hx.isEnum hx.underlying, rfl, ?_, ?_⟩
  · exact performs_two (by rintro call negate ⟨⟩) rfl hx.runnable hy.runnable
  · have direct : (ComparePlan.enum kind).operandConversions = (.identity, .identity) := rfl
    rw [Element.eval, direct, both_of_ok hx.value rfl hy.value rfl]
    exact compare_numbers machine op integral hx.holds hy.holds

/-- Operators on integers without an overload and without checks.  Where operands meet in a
kind, `+`, `-`, `*` and the bitwise operators leave the exact result wrapped to the kind, `/`
and `%` the truncated result, and comparisons compare the integers themselves; so they do with
values of one enum.  Negation, complement and shifts work in a kind of their operand. -/
theorem computes_unchecked (machine : W.Computes) (unchecked : ctx.options.checked = false)
    (span : Span) :
    (∀ {x y : Element} {left right : NumericKind} {v w : Int},
      W.Operand x left v → W.Operand y right w → left.isIntegral = true →
      right.isIntegral = true →
        (∀ kind, left.meet? right = some kind →
          (∀ op f, op.exact? = some f →
            ctx.findOperator (.binary (.arithmetic op)) x.type y.type span = .ok none →
            ∃ node, ctx.arithmetic op x y span = .ok node
              ∧ W.Result node kind (kind.wrap (f v w)))
          ∧ (∀ op f, op.truncated? = some f → w ≠ 0 → ¬ (v = kind.least ∧ w = -1) →
            ctx.findOperator (.binary (.arithmetic op)) x.type y.type span = .ok none →
            ∃ node, ctx.arithmetic op x y span = .ok node ∧ W.Result node kind (f v w))
          ∧ (∀ op : LogicalOp,
            ctx.findOperator (.binary (.logical op)) x.type y.type span = .ok none →
            ∃ node, ctx.logical op x y span = .ok node
              ∧ W.Result node kind (kind.wrap (op.onIntegers v w)))
          ∧ (∀ op : CompareOp, ctx.compareOverload op x.type y.type span = .ok none →
            ∃ node, ctx.compare op x y span = .ok node ∧ W.Answer node (op.onIntegers v w)))
        ∧ (∀ kind, left.meet? .int32 = some kind →
          ctx.findUnaryOperator (.unary .neg) x.type span = .ok none →
          ∃ node, ctx.unary .neg x span = .ok node ∧ W.Result node kind (kind.wrap (-v)))
        ∧ (ctx.findUnaryOperator (.unary .complement) x.type span = .ok none →
          ∃ node, ctx.unary .complement x span = .ok node
            ∧ W.Result node left.promote (left.promote.wrap (-v - 1)))
        ∧ (∀ op : ShiftOp, right.widens .int32 = true →
          ctx.findOperator (.binary (.shift op)) x.type y.type span = .ok none →
          ∃ node, ctx.shift op x y span = .ok node
            ∧ W.Result node left.promote (op.onIntegers left.promote v w)))
    ∧ ∀ {x y : Element} {kind : NumericKind} {v w : Int},
      W.EnumValue ctx x kind v → W.EnumValue ctx y kind w → x.type = y.type →
      kind.isIntegral = true → ∀ op : CompareOp,
        ctx.compareOverload op x.type y.type span = .ok none →
        ∃ node, ctx.compare op x y span = .ok node ∧ W.Answer node (op.onIntegers v w) := by
  refine ⟨?_, ?_⟩
  · intro x y left right v w hx hy integralLeft integralRight
    refine ⟨?_, ?_, ?_, ?_⟩
    · intro kind meet
      have integral := NumericKind.isIntegral_of_both meet integralLeft integralRight
      refine ⟨?_, ?_, ?_, ?_⟩
      · intro op f exact plain
        exact result_arithmetic machine unchecked exact meet integral hx hy plain
      · intro op f truncates nonzero bounded plain
        exact result_division machine truncates meet integral hx hy nonzero bounded plain
      · intro op plain
        exact result_logical machine op meet integral hx hy plain
      · intro op plain
        exact answer_compare machine op meet integral hx hy plain
    · intro kind meet plain
      have integral := NumericKind.isIntegral_of_both meet integralLeft rfl
      exact result_negate machine unchecked meet integral hx plain
    · intro plain
      exact result_complement machine integralLeft hx plain
    · intro op wide plain
      exact result_shift machine op integralLeft hx hy wide plain
  · intro x y kind v w hx hy same integral op plain
    exact answer_compare_enum machine op integral same hx hy plain

end Words

end Machine

/-- One enum, made of `uint32`, and nothing else. -/
def Context.colors : Context where
  registry := Registry.empty.insertEntry
    { TypeEntry.plain "Color" ⟨⟨1⟩, .enum⟩ with underlying := some .uint32 }
  options := {}

def Element.color (v : UInt32) : Element :=
  .cast ⟨⟨⟨1⟩, .enum⟩, .unknown⟩ .identity (.ofLiteral (.uint v))

/-- The largest `uint32` is above minus one, divides by it in 64 bits, and is shifted by 31 places
if the count is minus one.  The same number as a color is above one. -/
theorem Machine.Words.computes_unchecked_uint32 :
    let many := Element.ofLiteral (.uint 4294967295)
    let minus := Element.ofLiteral (.int (-1))
    (∃ node, Context.colors.compare .gt many minus .unknown = .ok node
        ∧ node.eval Machine.arithmetician = .ok ⟨32, 1⟩)
      ∧ (∃ node, Context.colors.arithmetic .div many minus .unknown = .ok node
        ∧ node.eval Machine.arithmetician = .ok ⟨64, -4294967295⟩)
      ∧ (∃ node, Context.colors.shift .shl many minus .unknown = .ok node
        ∧ node.eval Machine.arithmetician = .ok ⟨32, 2147483648⟩)
      ∧ ∃ node, Context.colors.compare .gt (.color 4294967295) (.color 1) .unknown = .ok node
        ∧ node.eval Machine.arithmetician = .ok ⟨32, 1⟩ := by
  have unchecked : Context.colors.options.checked = false := rfl
  obtain ⟨numbers, enums⟩ := computes_unchecked computes_arithmetician unchecked .unknown
  have many : ofArithmetician.Operand (.ofLiteral (.uint 4294967295)) .uint32 4294967295 :=
    ⟨rfl, .of_forall trivial trivial, rfl, by decide⟩
  have minus : ofArithmetician.Operand (.ofLiteral (.int (-1))) .int32 (-1) :=
    ⟨rfl, .of_forall trivial trivial, rfl, by decide⟩
  have red : ofArithmetician.EnumValue .colors (.color 4294967295) .uint32 4294967295 :=
    ⟨rfl, rfl, .of_forall trivial (.of_forall trivial trivial), rfl, by decide⟩
  have blue : ofArithmetician.EnumValue .colors (.color 1) .uint32 1 :=
    ⟨rfl, rfl, .of_forall trivial (.of_forall trivial trivial), rfl, by decide⟩
  obtain ⟨meeting, -, -, shifts⟩ := numbers many minus rfl rfl
  obtain ⟨-, divisions, -, comparisons⟩ := meeting .int64 rfl
  obtain ⟨above, builtAbove, answer⟩ := comparisons .gt rfl
  obtain ⟨quotient, builtQuotient, divided⟩ := divisions .div _ rfl (by decide) (by decide) rfl
  obtain ⟨moved, builtMoved, shifted⟩ := shifts .shl rfl rfl
  obtain ⟨redder, builtRedder, answer'⟩ := enums red blue rfl rfl .gt rfl
  exact ⟨⟨above, builtAbove, answer.value⟩, ⟨quotient, builtQuotient, divided.leaves.value⟩,
    ⟨moved, builtMoved, shifted.leaves.value⟩, redder, builtRedder, answer'.value⟩

end ExprCompiler
