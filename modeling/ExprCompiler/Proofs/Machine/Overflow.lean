/-
# Checked arithmetic

What checked `+`, `-`, `*` and negation leave on a machine of 32- and 64-bit words
whose checked operations trap exactly if the result does not fit the word
(`Machine.Words`).

The conversions of the operands keep their numbers, so the operation sees them as
they are, and the result is exact or there is a trap
(`Machine.Words.performs_checked`).  The range that is tested is that of the kind
the operands meet in, with one exception: two unsigned operands are checked without
a sign, and those narrower than 32 bits meet in a kind with one.
-/
import Mathlib.Algebra.Order.Ring.Int
import Mathlib.Tactic.NormNum
import Mathlib.Tactic.Positivity
import ExprCompiler.Proofs.Category.Typing
import ExprCompiler.Proofs.Machine.Correctness

namespace ExprCompiler

/-! ## Words -/

namespace Word

/-- Whether a number fits a word of `n` bits, read without a sign or with one. -/
def Fits (unsigned : Bool) (n : Nat) (z : Int) : Prop :=
  if unsigned then 0 ≤ z ∧ z < 2 ^ n else -2 ^ (n - 1) ≤ z ∧ z < 2 ^ (n - 1)

instance (unsigned : Bool) (n : Nat) (z : Int) : Decidable (Fits unsigned n z) :=
  inferInstanceAs (Decidable (if unsigned then _ ∧ _ else _ ∧ _))

/-- The number that a word is read as. -/
def read {n : Nat} (unsigned : Bool) (x : BitVec n) : Int :=
  if unsigned then x.toNat else x.toInt

/-- Whether all that fits one word fits another. -/
def Within (unsigned : Bool) (n : Nat) (unsigned' : Bool) (n' : Nat) : Prop :=
  unsigned = unsigned' ∧ n ≤ n' ∨ unsigned = true ∧ unsigned' = false ∧ n < n'

instance (unsigned : Bool) (n : Nat) (unsigned' : Bool) (n' : Nat) :
    Decidable (Within unsigned n unsigned' n') :=
  inferInstanceAs (Decidable (_ ∨ _))

variable {unsigned unsigned' : Bool} {n n' : Nat} {z : Int}

theorem Fits.within (h : Fits unsigned n z) (inside : Within unsigned n unsigned' n') :
    Fits unsigned' n' z := by
  obtain ⟨rfl, wider⟩ | ⟨rfl, rfl, wider⟩ := inside
  · cases unsigned with
    | true => exact ⟨h.1, h.2.trans_le (pow_le_pow_right₀ (by norm_num) wider)⟩
    | false =>
        have grown : (2 : Int) ^ (n - 1) ≤ 2 ^ (n' - 1) :=
          pow_le_pow_right₀ (by norm_num) (by omega)
        exact ⟨(neg_le_neg grown).trans h.1, h.2.trans_le grown⟩
  · have grown : (2 : Int) ^ n ≤ 2 ^ (n' - 1) := pow_le_pow_right₀ (by norm_num) (by omega)
    refine ⟨?_, h.2.trans_le grown⟩
    exact (neg_nonpos.mpr (by positivity)).trans h.1

/-- A number that fits a word is read back from it. -/
theorem read_ofInt (positive : 0 < n) (h : Fits unsigned n z) :
    read unsigned (BitVec.ofInt n z) = z := by
  cases unsigned with
  | true =>
      show ((BitVec.ofInt n z).toNat : Int) = z
      rw [BitVec.toNat_ofInt, Nat.cast_pow, Nat.cast_ofNat, Int.emod_eq_of_lt h.1 h.2]
      exact Int.toNat_of_nonneg h.1
  | false => exact BitVec.toInt_ofInt_eq_self positive h.1 h.2

/-- Extension keeps the number that a word is read as. -/
theorem setWidth_eq_ofInt (x : BitVec n) : x.setWidth n' = BitVec.ofInt n' (read true x) := by
  rw [← BitVec.ofNat_toNat]
  exact (BitVec.ofInt_natCast n' x.toNat).symm

theorem signExtend_eq_ofInt (x : BitVec n) :
    x.signExtend n' = BitVec.ofInt n' (read false x) := rfl

end Word

/-! ## Kinds in words -/

namespace NumericKind

/-- The range of an integral kind. -/
def Holds (kind : NumericKind) (z : Int) : Prop := Word.Fits kind.isUnsigned kind.bits z

instance (kind : NumericKind) (z : Int) : Decidable (kind.Holds z) :=
  inferInstanceAs (Decidable (Word.Fits _ _ _))

/-- The width of the word that holds a number of an integral kind. -/
def slotBits (kind : NumericKind) : Nat := if kind.isWide then 64 else 32

/-- The kind whose range is tested after checked arithmetic on two kinds. -/
def tested (kind left right : NumericKind) : NumericKind :=
  if kind = int32 && left.isUnsigned && right.isUnsigned then uint32 else kind

variable {kind left right : NumericKind} {z : Int}

theorem slotBits_eq (kind : NumericKind) : kind.slotBits = 32 ∨ kind.slotBits = 64 := by
  cases kind <;> decide

theorem slotBits_pos (kind : NumericKind) : 0 < kind.slotBits := by
  cases kind <;> decide

theorem meet?_comm (left right : NumericKind) : left.meet? right = right.meet? left := by
  cases left <;> cases right <;> rfl

/-- A number of a kind fits its word. -/
theorem Holds.slot (integral : kind.isIntegral = true) (h : kind.Holds z) :
    Word.Fits kind.isUnsigned kind.slotBits z := by
  refine h.within ?_
  cases kind <;> first | decide | cases integral

/-- The instructions of a widening extend a word if the other kind has a longer one. -/
theorem implicitOps_of_widens (wide : left.widens kind = true)
    (integral : kind.isIntegral = true) :
    left.isIntegral = true ∧
      (left.slotBits = kind.slotBits ∧ left.implicitOps kind = [] ∨
        left.slotBits = 32 ∧ kind.slotBits = 64 ∧
          left.implicitOps kind = [if left.isUnsigned then .toU64 else .toI64]) := by
  revert wide integral
  cases left <;> cases kind <;> decide

/-- Operands that meet in a kind fit its word, read as the checked operation reads it. -/
theorem within_of_meet? (meet : left.meet? right = some kind)
    (integral : kind.isIntegral = true) :
    Word.Within left.isUnsigned left.bits (left.isUnsigned && right.isUnsigned) kind.slotBits
      ∧ Word.Within right.isUnsigned right.bits (left.isUnsigned && right.isUnsigned)
        kind.slotBits := by
  cases left <;> cases right <;> cases meet <;> first | decide | cases integral

/-- The range of the checked operation is that of the tested kind. -/
theorem fits_iff_tested (meet : left.meet? right = some kind)
    (integral : kind.isIntegral = true) :
    Word.Fits (left.isUnsigned && right.isUnsigned) kind.slotBits z
      ↔ (kind.tested left right).Holds z := by
  cases left <;> cases right <;> cases meet <;> first | exact Iff.rfl | cases integral

/-- Narrow numbers are less than `2 ^ 16`. -/
theorem Holds.narrow (meet : left.meet? right = some .int32)
    (unsigned : left.isUnsigned = true) (h : left.Holds z) : 0 ≤ z ∧ z < 2 ^ 16 := by
  have inside : Word.Within left.isUnsigned left.bits true 16 := by
    revert meet unsigned
    cases left <;> cases right <;> decide
  exact h.within inside

end NumericKind

/-! ## Operations -/

/-- The operators whose result on integers is an integer, whatever the operands. -/
def ArithmeticOp.exact? : ArithmeticOp → Option (Int → Int → Int)
  | add => some (· + ·)
  | sub => some (· - ·)
  | mul => some (· * ·)
  | _ => none

/-- What a checked operation computes, and whether it reads words without a sign. -/
def OpCode.trapping? : OpCode → Option (Bool × (Int → Int → Int))
  | addChecked => some (false, (· + ·))
  | addCheckedUnsigned => some (true, (· + ·))
  | subChecked => some (false, (· - ·))
  | subCheckedUnsigned => some (true, (· - ·))
  | mulChecked => some (false, (· * ·))
  | mulCheckedUnsigned => some (true, (· * ·))
  | _ => none

theorem ArithmeticOp.trapping?_opcode {op : ArithmeticOp} {f : Int → Int → Int}
    (h : op.exact? = some f) (unsigned : Bool) :
    (op.opcode true unsigned).trapping? = some (unsigned, f) := by
  cases op <;> cases h <;> cases unsigned <;> rfl

/-- The results of narrow unsigned operands lie within 33 bits. -/
theorem ArithmeticOp.exact?_narrow {op : ArithmeticOp} {f : Int → Int → Int} {v w : Int}
    (h : op.exact? = some f) (hv : 0 ≤ v ∧ v < 2 ^ 16) (hw : 0 ≤ w ∧ w < 2 ^ 16) :
    -2 ^ 31 ≤ f v w ∧ f v w < 2 ^ 32 := by
  cases op with
  | add =>
      cases h
      show -2 ^ 31 ≤ v + w ∧ v + w < 2 ^ 32
      omega
  | sub =>
      cases h
      show -2 ^ 31 ≤ v - w ∧ v - w < 2 ^ 32
      omega
  | mul =>
      cases h
      have low : 0 ≤ v * w := mul_nonneg hv.1 hw.1
      have high : v * w ≤ (2 ^ 16 - 1) * (2 ^ 16 - 1) :=
        mul_le_mul (by omega) (by omega) hw.1 (by norm_num)
      show -2 ^ 31 ≤ v * w ∧ v * w < 2 ^ 32
      omega
  | _ => cases h

namespace Context

variable {ctx : Context} {span : Span} {x y : Element} {left right kind : NumericKind}

/-- Without an overload, two numbers that meet are combined in the kind they meet in. -/
theorem arithmetic_of_plain {op : ArithmeticOp} (notPower : op ≠ .pow)
    (plain : ctx.findOperator (.binary (.arithmetic op)) x.type y.type span = .ok none)
    (hx : x.type.numericKind? = some left) (hy : y.type.numericKind? = some right)
    (meet : left.meet? right = some kind) :
    ctx.arithmetic op x y span
      = .ok (.arithmetic ⟨Ty.numeric kind, span⟩ op (ctx.numericPlan kind left right) x y) := by
  simp only [arithmetic, plain, builtinArithmetic, hx, hy, meet]
  exact if_neg notPower

/-- Without an overload, a number is negated in the kind it meets `int32` in. -/
theorem unary_of_plain (plain : ctx.findUnaryOperator (.unary .neg) x.type span = .ok none)
    (hx : x.type.numericKind? = some left) (meet : left.meet? .int32 = some kind) :
    ctx.unary .neg x span
      = .ok (.unary ⟨Ty.numeric kind, span⟩ .neg
          (.negate kind (ctx.options.checked && kind.isIntegral) (.operand left kind)) x) := by
  have found : ctx.builtinUnary? .neg x.type
      = some (.negate kind (ctx.options.checked && kind.isIntegral) (.operand left kind),
          Ty.numeric kind) := by
    simp only [builtinUnary?, hx, Option.bind_eq_bind, Option.bind_some, meet]
  simp only [unary, plain, found]
  rfl

end Context

namespace Machine

variable {V T : Type} {M : Machine V T}

/-- A machine whose integers are words of 32 and 64 bits, and whose checked operations
trap exactly if the result does not fit. -/
structure Words (M : Machine V T) where
  word : {n : Nat} → BitVec n → V
  /-- The trap of an operation whose result does not fit. -/
  overflow : T
  int32 : ∀ c, M.constant (.int32 c) = .ok (word c.toBitVec)
  int64 : ∀ c, M.constant (.int64 c) = .ok (word c.toBitVec)
  toI64 : ∀ x : BitVec 32, M.unary .toI64 (word x) = .ok (word (x.signExtend 64))
  toU64 : ∀ x : BitVec 32, M.unary .toU64 (word x) = .ok (word (x.setWidth 64))
  checked : ∀ {n : Nat}, n = 32 ∨ n = 64 → ∀ {code : OpCode} {unsigned : Bool}
    {f : Int → Int → Int}, code.trapping? = some (unsigned, f) → ∀ x y : BitVec n,
      M.binary code (word x) (word y)
        = if Word.Fits unsigned n (f (Word.read unsigned x) (Word.read unsigned y)) then
            .ok (word (BitVec.ofInt n (f (Word.read unsigned x) (Word.read unsigned y))))
          else .error overflow

/-- A node of a kind whose code, wherever it stands, comes to an outcome. -/
structure Leaves (M : Machine V T) (node : Element) (kind : NumericKind)
    (outcome : Except T V) : Prop where
  type : node.type.numericKind? = some kind
  code : ∀ em, M.Performs em node
  value : node.eval M = outcome

namespace Words

variable (W : M.Words) {left right kind : NumericKind} {v w z : Int}

/-- A number in the word of its kind. -/
def number (kind : NumericKind) (z : Int) : V := W.word (BitVec.ofInt kind.slotBits z)

/-- The number in its kind if it is in the range of a tested kind, and else a trap. -/
def exact (tested kind : NumericKind) (z : Int) : Except T V :=
  if tested.Holds z then .ok (W.number kind z) else .error W.overflow

/-- An operand of a kind that has the value `z`. -/
structure Operand (x : Element) (kind : NumericKind) (z : Int) : Prop where
  type : x.type.numericKind? = some kind
  runnable : x.All Element.Runnable
  value : x.eval M = .ok (W.number kind z)
  holds : kind.Holds z

/-- Zero of a kind is a constant. -/
theorem constant_zero (integral : kind.isIntegral = true) :
    M.constant (.ofNat kind 0) = .ok (W.number kind 0) := by
  cases kind <;> first | exact W.int32 0 | exact W.int64 0 | cases integral

/-- Extension by the signedness of the kind keeps the number. -/
theorem unary_extend (integral : left.isIntegral = true) (short : left.slotBits = 32)
    (h : left.Holds z) :
    M.unary (if left.isUnsigned then .toU64 else .toI64) (W.number left z)
      = .ok (W.word (BitVec.ofInt 64 z)) := by
  have fits := h.slot integral
  rw [short] at fits
  have back := Word.read_ofInt (by decide) fits
  rw [number, short]
  cases unsigned : left.isUnsigned with
  | true =>
      rw [unsigned] at back
      rw [if_pos rfl, W.toU64, Word.setWidth_eq_ofInt, back]
  | false =>
      rw [unsigned] at back
      rw [if_neg Bool.false_ne_true, W.toI64, Word.signExtend_eq_ofInt, back]

/-- A widening keeps the number. -/
theorem unaries_implicitOps (wide : left.widens kind = true) (integral : kind.isIntegral = true)
    (h : left.Holds z) :
    M.unaries (left.implicitOps kind) (W.number left z) = .ok (W.number kind z) := by
  obtain ⟨integral', ⟨same, none⟩ | ⟨short, long, extend⟩⟩ :=
    NumericKind.implicitOps_of_widens wide integral
  · rw [none]
    show Except.ok (W.number left z) = _
    rw [number, number, same]
  · rw [extend]
    show M.unary _ _ >>= pure = _
    rw [W.unary_extend integral' short h, number, long]
    rfl

/-- The conversion of an operand keeps its number. -/
theorem convert_operand (wide : left.widens kind = true) (integral : kind.isIntegral = true)
    (h : left.Holds z) :
    M.convert (.operand left kind) (W.number left z) = .ok (W.number kind z) := by
  simp only [Conversion.operand]
  split
  · next same =>
      subst same
      rfl
  · exact W.unaries_implicitOps wide integral h

/-- A checked operation on numbers that meet in a kind. -/
theorem binary_checked {code : OpCode} {f : Int → Int → Int}
    (meet : left.meet? right = some kind) (integral : kind.isIntegral = true)
    (trapping : code.trapping? = some (left.isUnsigned && right.isUnsigned, f))
    (hv : left.Holds v) (hw : right.Holds w) :
    M.binary code (W.number kind v) (W.number kind w)
      = W.exact (kind.tested left right) kind (f v w) := by
  obtain ⟨insideLeft, insideRight⟩ := NumericKind.within_of_meet? meet integral
  rw [number, number, W.checked kind.slotBits_eq trapping,
    Word.read_ofInt kind.slotBits_pos (hv.within insideLeft),
    Word.read_ofInt kind.slotBits_pos (hw.within insideRight)]
  simp only [NumericKind.fits_iff_tested meet integral]
  rfl

/-- Two tests come to the same exactly if they agree on the number. -/
theorem exact_eq_exact_iff {tested tested' : NumericKind} :
    W.exact tested kind z = W.exact tested' kind z ↔ (tested.Holds z ↔ tested'.Holds z) := by
  simp only [exact]
  by_cases h : tested.Holds z <;> by_cases h' : tested'.Holds z <;> simp [h, h']

/-! ## Operands -/

section

variable {W} {x y : Element}

theorem both_of_ok {cs : Conversion × Conversion} {x y : Except T V} {a a' b b' : V}
    (hx : x = .ok a) (ha : M.convert cs.1 a = .ok a') (hy : y = .ok b)
    (hb : M.convert cs.2 b = .ok b') (k : V → V → Except T V) : M.both cs x y k = k a' b' := by
  rw [both, hx, hy]
  show (do
    let a ← M.convert cs.1 a
    let b ← M.convert cs.2 b
    k a b) = _
  rw [ha, hb]
  rfl

theorem both_operands (meet : left.meet? right = some kind) (integral : kind.isIntegral = true)
    (hx : W.Operand x left v) (hy : W.Operand y right w) (k : V → V → Except T V) :
    M.both (.operand left kind, .operand right kind) (x.eval M) (y.eval M) k
      = k (W.number kind v) (W.number kind w) := by
  obtain ⟨wideLeft, wideRight⟩ := NumericKind.widens_of_meet? meet
  exact both_of_ok hx.value (W.convert_operand wideLeft integral hx.holds) hy.value
    (W.convert_operand wideRight integral hy.holds) k

theorem performs_one {node : Element} (runnable : node.Runnable) (operands : node.children = [x])
    (hx : x.All Element.Runnable) (em : Emission) : M.Performs em node := by
  refine performs_of_runnable (.node runnable ?_)
  rw [operands]
  exact List.forall_mem_singleton.mpr hx

theorem performs_two {node : Element} (runnable : node.Runnable)
    (operands : node.children = [x, y]) (hx : x.All Element.Runnable)
    (hy : y.All Element.Runnable) (em : Emission) : M.Performs em node := by
  refine performs_of_runnable (.node runnable ?_)
  rw [operands]
  exact List.forall_iff_forall_mem.mp ⟨hx, hy⟩

end

/-! ## Nodes -/

variable {ctx : Context} {op : ArithmeticOp} {f : Int → Int → Int} {x y : Element}

theorem arithmetic_checked (checked : ctx.options.checked = true) (exact : op.exact? = some f)
    (meet : left.meet? right = some kind) (integral : kind.isIntegral = true)
    (hx : W.Operand x left v) (hy : W.Operand y right w) :
    M.arithmetic op (ctx.numericPlan kind left right) (x.eval M) (y.eval M)
      = W.exact (kind.tested left right) kind (f v w) := by
  rw [Context.numericPlan, checked, integral, Bool.and_true, arithmetic,
    both_operands meet integral hx hy]
  exact W.binary_checked meet integral (op.trapping?_opcode exact _) hx.holds hy.holds

/-- Negation subtracts from zero, which every kind that it works in has with a sign. -/
theorem negate_checked (meet : left.meet? .int32 = some kind)
    (integral : kind.isIntegral = true) (hx : W.Operand x left v) :
    M.unaryNode (.negate kind true (.operand left kind)) (x.eval M) = W.exact kind kind (-v) := by
  have turned : NumericKind.int32.meet? left = some kind := by
    rw [NumericKind.meet?_comm, meet]
  have tested : kind.tested .int32 left = kind := by
    have signed : NumericKind.int32.isUnsigned = false := rfl
    rw [NumericKind.tested, signed, Bool.and_false, Bool.false_and]
    rfl
  have zero : NumericKind.int32.Holds 0 := by decide
  rw [hx.value]
  show (do
    let zero ← M.constant (.ofNat kind 0)
    let a ← M.convert (.operand left kind) (W.number left v)
    M.binary .subChecked zero a) = _
  rw [W.constant_zero integral,
    W.convert_operand (NumericKind.widens_of_meet? meet).1 integral hx.holds]
  show M.binary .subChecked (W.number kind 0) (W.number kind v) = _
  rw [W.binary_checked turned integral rfl zero hx.holds, tested, zero_sub]

/-- Only for narrow unsigned operands the tested range is not that of the result: a negative
number is then out of it, and one from `2 ^ 31` on in it. -/
theorem exact_tested_iff (exact : op.exact? = some f) (meet : left.meet? right = some kind)
    (hx : left.Holds v) (hy : right.Holds w) :
    W.exact (kind.tested left right) kind (f v w) = W.exact kind kind (f v w)
      ↔ (kind = .int32 → left.isUnsigned = true → right.isUnsigned = true →
          0 ≤ f v w ∧ f v w < 2 ^ 31) := by
  rw [exact_eq_exact_iff]
  by_cases narrow : kind = .int32 ∧ left.isUnsigned = true ∧ right.isUnsigned = true
  · obtain ⟨rfl, hl, hr⟩ := narrow
    have turned : right.meet? left = some .int32 := by
      rw [NumericKind.meet?_comm, meet]
    have range := op.exact?_narrow exact (hx.narrow meet hl) (hy.narrow turned hr)
    have unsigned : NumericKind.tested .int32 left right = .uint32 := by
      rw [NumericKind.tested, hl, hr]
      rfl
    rw [unsigned]
    -- no result is below the range of `int32` or above that of `uint32`
    show (0 ≤ f v w ∧ f v w < 2 ^ 32 ↔ -2 ^ 31 ≤ f v w ∧ f v w < 2 ^ 31) ↔ _
    constructor
    · intro same _ _ _
      omega
    · intro inside
      have := inside rfl hl hr
      omega
  · have same : kind.tested left right = kind := by
      rw [NumericKind.tested, if_neg (by simpa [and_assoc] using narrow)]
    rw [same]
    exact ⟨fun _ h hl hr => absurd ⟨h, hl, hr⟩ narrow, fun _ => Iff.rfl⟩

/-- The code of a checked operation, with that of its operands. -/
theorem leaves_arithmetic (span : Span) (checked : ctx.options.checked = true)
    (exact : op.exact? = some f) (meet : left.meet? right = some kind)
    (integral : kind.isIntegral = true) (hx : W.Operand x left v) (hy : W.Operand y right w) :
    M.Leaves (.arithmetic ⟨Ty.numeric kind, span⟩ op (ctx.numericPlan kind left right) x y) kind
      (W.exact (kind.tested left right) kind (f v w)) where
  type := rfl
  code := performs_two (by rintro target ⟨⟩) rfl hx.runnable hy.runnable
  value := by
    rw [Element.eval]
    exact W.arithmetic_checked checked exact meet integral hx hy

/-- The code of a checked negation, with that of its operand. -/
theorem leaves_negate (span : Span) (meet : left.meet? .int32 = some kind)
    (integral : kind.isIntegral = true) (hx : W.Operand x left v) :
    M.Leaves (.unary ⟨Ty.numeric kind, span⟩ .neg (.negate kind true (.operand left kind)) x) kind
      (W.exact kind kind (-v)) where
  type := rfl
  code := performs_one (by rintro target ⟨⟩) rfl hx.runnable
  value := by
    rw [Element.eval]
    exact W.negate_checked meet integral hx

/-- Checked arithmetic on integers is exact in the range of the tested kind and traps
outside; this is the range of the kind of the result, but for narrow unsigned operands.
Checked negation is exact in the range of its kind and traps outside. -/
theorem performs_checked (checked : ctx.options.checked = true) (span : Span) :
    (∀ {op : ArithmeticOp} {f : Int → Int → Int} {left right kind : NumericKind} {x y : Element}
      {v w : Int}, op.exact? = some f → left.meet? right = some kind → kind.isIntegral = true →
      W.Operand x left v → W.Operand y right w →
      ctx.findOperator (.binary (.arithmetic op)) x.type y.type span = .ok none →
      ∃ node, ctx.arithmetic op x y span = .ok node
        ∧ M.Leaves node kind (W.exact (kind.tested left right) kind (f v w))
        ∧ (M.Leaves node kind (W.exact kind kind (f v w)) ↔
            (kind = .int32 → left.isUnsigned = true → right.isUnsigned = true →
              0 ≤ f v w ∧ f v w < 2 ^ 31)))
    ∧ (∀ {left kind : NumericKind} {x : Element} {v : Int},
      left.meet? .int32 = some kind → kind.isIntegral = true → W.Operand x left v →
      ctx.findUnaryOperator (.unary .neg) x.type span = .ok none →
      ∃ node, ctx.unary .neg x span = .ok node
        ∧ M.Leaves node kind (W.exact kind kind (-v))) := by
  constructor
  · intro op f left right kind x y v w exact meet integral hx hy plain
    have notPower : op ≠ .pow := by
      rintro rfl
      cases exact
    have leaves := W.leaves_arithmetic span checked exact meet integral hx hy
    refine ⟨_, ctx.arithmetic_of_plain notPower plain hx.type hy.type meet, leaves, ?_⟩
    rw [← W.exact_tested_iff exact meet hx.holds hy.holds]
    constructor
    · intro same
      exact leaves.value.symm.trans same.value
    · intro same
      exact same ▸ leaves
  · intro left kind x v meet integral hx plain
    have built := ctx.unary_of_plain plain hx.type meet
    rw [checked, integral] at built
    exact ⟨_, built, W.leaves_negate span meet integral hx⟩

end Words

/-! ## A machine of words -/

/-- Words with their widths, and checked arithmetic on them. -/
def words : Machine (Σ n, BitVec n) Unit where
  constant
    | .int32 c => .ok ⟨32, c.toBitVec⟩
    | .int64 c => .ok ⟨64, c.toBitVec⟩
    | _ => .error ()
  push _ := .error ()
  unary
    | .toI64, ⟨_, x⟩ => .ok ⟨64, x.signExtend 64⟩
    | .toU64, ⟨_, x⟩ => .ok ⟨64, x.setWidth 64⟩
    | _, _ => .error ()
  binary code x y :=
    match code.trapping? with
    | some (unsigned, f) =>
      let z := f (Word.read unsigned x.2) (Word.read unsigned y.2)
      if Word.Fits unsigned x.1 z then .ok ⟨x.1, BitVec.ofInt x.1 z⟩ else .error ()
    | none => .error ()
  named _ _ _ := .error ()
  static _ := .error ()
  call _ _ := .error ()
  method _ _ _ := .error ()
  truth _ := false

def Words.ofWords : words.Words where
  word x := ⟨_, x⟩
  overflow := ()
  int32 _ := rfl
  int64 _ := rfl
  toI64 _ := rfl
  toU64 _ := rfl
  checked := by
    intro n _ code unsigned f trapping x y
    simp only [words, trapping]

end Machine

/-- No registered types, and checked arithmetic. -/
def Context.checkedOnly : Context := ⟨.empty, { checked := true }⟩

/-- A literal as an operand. -/
def Element.ofLiteral (v : Literal) : Element := .literal ⟨v.type, .unknown⟩ v

/-- The sum of the largest `int32` and one traps, and the negation of `2 ^ 31`, which is no
`int32`, is one of 64 bits. -/
theorem Machine.Words.performs_checked_limits :
    (∃ sum, Context.checkedOnly.arithmetic .add (.ofLiteral (.int 2147483647))
        (.ofLiteral (.int 1)) .unknown = .ok sum
      ∧ (∀ em, Machine.words.Performs em sum) ∧ sum.eval Machine.words = .error ())
    ∧ ∃ negated, Context.checkedOnly.unary .neg (.ofLiteral (.uint 2147483648)) .unknown
        = .ok negated
      ∧ (∀ em, Machine.words.Performs em negated)
      ∧ negated.eval Machine.words = .ok ⟨64, -2147483648⟩ := by
  have operand (v : Literal) (kind : NumericKind) (z : Int)
      (type : v.type.numericKind? = some kind)
      (value : Machine.words.literal v = .ok (ofWords.number kind z)) (holds : kind.Holds z) :
      ofWords.Operand (.ofLiteral v) kind z :=
    ⟨type, .of_forall trivial trivial, value, holds⟩
  have checked : Context.checkedOnly.options.checked = true := rfl
  have add : ArithmeticOp.add.exact? = some (· + ·) := rfl
  have both : NumericKind.int32.meet? .int32 = some .int32 := rfl
  have one : NumericKind.uint32.meet? .int32 = some .int64 := rfl
  obtain ⟨sum, built, -, leaves⟩ := (performs_checked ofWords checked .unknown).1 add both rfl
    (operand (.int 2147483647) .int32 2147483647 rfl rfl (by decide))
    (operand (.int 1) .int32 1 rfl rfl (by decide)) rfl
  obtain ⟨negated, built', leaves'⟩ := (performs_checked ofWords checked .unknown).2 one rfl
    (operand (.uint 2147483648) .uint32 2147483648 rfl rfl (by decide)) rfl
  have exact := leaves.mpr fun _ unsigned => by cases unsigned
  exact ⟨⟨sum, built, exact.code, exact.value⟩, negated, built', leaves'.code, leaves'.value⟩

/-- The code of a whole tree comes to the value of the tree. -/
theorem Element.yields_eval_root {V T : Type} (M : Machine V T) {info : NodeInfo}
    {c : Conversion} {child : Element} {plan : BranchPlan} {em : Emission}
    (below : child.All Element.Runnable)
    (emitted : (Element.root info c child).emit plan = .ok em) :
    M.Yields em ((Element.root info c child).eval M) := by
  obtain ⟨next', block⟩ := (Element.root info c child).block_emit emitted
  obtain ⟨m, fetched, carried⟩ := Machine.carries_root below block List.length_replicate
  exact M.yields_of_carries carried fetched

def Event.onChars (op : ArithmeticOp) (a b : UInt16) : List Event :=
  [.literal (.char a), .literal (.char b), .binary (.arithmetic op)].map (⟨·, .unknown⟩)

def Element.onChars (op : ArithmeticOp) (a b : UInt16) : Element :=
  let int : NodeInfo := ⟨Ty.numeric .int32, .unknown⟩
  .root int .identity (.arithmetic int op (Context.checkedOnly.numericPlan .int32 .char .char)
    (.ofLiteral (.char a)) (.ofLiteral (.char b)))

/-- The product of two characters that is no `int32` is left as the bits of a negative one, and
a negative difference of two characters, which is an `int32`, traps. -/
theorem Machine.Words.exact_fails_on_chars :
    (Context.checkedOnly.build (Event.onChars .mul 0xffff 0xffff)
        = .ok (Element.onChars .mul 0xffff 0xffff)
      ∧ (∃ em, (Element.onChars .mul 0xffff 0xffff).emit ⟨#[], [], 0⟩ = .ok em
        ∧ Machine.words.Yields em (.ok ⟨32, -131071⟩))
      ∧ ofWords.exact .int32 .int32 (0xffff * 0xffff) = .error ())
    ∧ Context.checkedOnly.build (Event.onChars .sub 97 98) = .ok (Element.onChars .sub 97 98)
      ∧ (∃ em, (Element.onChars .sub 97 98).emit ⟨#[], [], 0⟩ = .ok em
        ∧ Machine.words.Yields em (.error ()))
      ∧ ofWords.exact .int32 .int32 (97 - 98) = .ok ⟨32, -1⟩ := by
  have runs {op : ArithmeticOp} {a b : UInt16}
      (emits : ∃ em, (Element.onChars op a b).emit ⟨#[], [], 0⟩ = .ok em) :
      ∃ em, (Element.onChars op a b).emit ⟨#[], [], 0⟩ = .ok em
        ∧ Machine.words.Yields em ((Element.onChars op a b).eval Machine.words) := by
    have leaf (c : UInt16) : (Element.ofLiteral (.char c)).All Element.Runnable :=
      .of_forall trivial trivial
    obtain ⟨em, emitted⟩ := emits
    refine ⟨em, emitted, Element.yields_eval_root _ (.of_forall ?_ ⟨leaf a, leaf b⟩) emitted⟩
    rintro target ⟨⟩
  refine ⟨⟨rfl, runs ?_, rfl⟩, rfl, runs ?_, rfl⟩
  all_goals
    refine Element.emits_of_within _ _ 32 rfl ?_
    simp only [Emission.ofDirectives, Writer.run_eq_foldlM, Writer.step.eq_def,
      Writer.writeWith.eq_def, ConstantPool.operand, ConstantPool.add,
      ConstantPool.indexOf?_eq_idxOf?]
    decide +kernel

end ExprCompiler
