/-
# Conversions between integers

What the instructions of a conversion leave of a number, on a machine whose
conversions are those of words (`Machine.Words.Converts`).

A cast leaves the number of the target that is the same modulo its width, a checked
cast the number itself if the target has it, and a widening always the number itself
(`Machine.Words.runs_conversions`).  There is one case for each thing that can happen
to a word: it is cut, extended, kept or tested.
-/
import ExprCompiler.Proofs.Machine.Integers

namespace ExprCompiler

/-! ## Instructions of a conversion -/

namespace NumericKind

variable {source target : NumericKind} {z : Int}

/-- The integer with the range of a kind: characters are numbers of 16 bits. -/
def plain : NumericKind → NumericKind
  | char => uint16
  | kind => kind

theorem isUnsigned_plain (kind : NumericKind) : kind.plain.isUnsigned = kind.isUnsigned := by
  cases kind <;> rfl

theorem bits_plain (kind : NumericKind) : kind.plain.bits = kind.bits := by
  cases kind <;> rfl

theorem explicitOps_self (kind : NumericKind) (checked : Bool) :
    kind.explicitOps kind checked = [] := by
  rw [explicitOps, if_pos rfl]

theorem explicitOps_integral (differ : source ≠ target) (integral : target.isIntegral = true)
    (checked : Bool) :
    source.explicitOps target checked
      = [if checked then checkedOp target (source.isIntegral && source.isUnsigned)
          else uncheckedOp source target] := by
  have whole : target.isFloating = false := by simpa [isIntegral] using integral
  rw [explicitOps, if_neg differ, whole, if_neg Bool.false_ne_true]
  cases checked <;> rfl

/-- A cast to a kind of up to 32 bits cuts a word, one to a longer kind extends it. -/
theorem uncheckedOp_cases (source : NumericKind) {target : NumericKind}
    (integral : source.isIntegral = true) (integral' : target.isIntegral = true) :
    (target.slotBits = 32 ∧ target.bits ≤ 32
        ∧ (uncheckedOp source target).cuts? = some target.plain)
      ∨ (target.slotBits = 64 ∧ target.bits = 64
        ∧ uncheckedOp source target = if source.isUnsigned then .toU64 else .toI64) := by
  revert integral integral'
  cases source <;> cases target <;> decide

/-- A checked cast reads its word as the source does. -/
theorem checks?_checkedOp (integral : target.isIntegral = true) (unsigned : Bool) :
    (checkedOp target unsigned).checks? = some (unsigned, target.plain) := by
  cases target <;> cases unsigned <;> first | rfl | cases integral

theorem widens_of_widenCost? {cost : Nat} (h : source.widenCost? target = some cost) :
    source.widens target = true := by
  rw [widenCost?] at h
  split at h
  · assumption
  · cases h

/-- A kind that widens to another has no number that the other has not. -/
theorem Holds.widen (wide : source.widens target = true) (integral : target.isIntegral = true)
    (h : source.Holds z) : target.Holds z := by
  refine h.within ?_
  revert wide integral
  cases source <;> cases target <;> decide

end NumericKind

namespace Machine

variable {V T : Type} {M : Machine V T}

/-- Running operations on a value comes to an outcome, whatever is below it on the stack. -/
def Runs (M : Machine V T) (ops : List OpCode) (v : V) (outcome : Except T V) : Prop :=
  ∀ (P : List (Option V) → Prop) (s : List V), M.Does P (ops.map .op) (v :: s) outcome (· :: s)

theorem runs_of_unaries {ops : List OpCode} {v : V} {outcome : Except T V}
    (unary : ∀ op ∈ ops, op.effect? = some .unary) (h : M.unaries ops v = outcome) :
    M.Runs ops v outcome := by
  intro P s
  rw [← h]
  exact does_unaries unary

theorem unaries_singleton (op : OpCode) (v : V) : M.unaries [op] v = M.unary op v := by
  show M.unary op v >>= pure = _
  exact bind_pure _

namespace Words

variable {W : M.Words} {source target : NumericKind} {v z : Int}

/-- A kind as long as its word has all words. -/
theorem number_wrap (full : target.slotBits = target.bits) (z : Int) :
    W.number target (target.wrap z) = W.number target z := by
  rw [number, number, full, NumericKind.wrap, Word.ofInt_wrap]

theorem exact_plain (kind : NumericKind) (z : Int) :
    W.exact kind.plain kind.plain z = W.exact kind kind z := by
  cases kind <;> rfl

theorem unary_cut (machine : W.Converts) {code : OpCode} {n : Nat} (width : n = 32 ∨ n = 64)
    (short : target.bits ≤ 32) (cuts : code.cuts? = some target.plain) (z : Int) :
    M.unary code (W.word (BitVec.ofInt n z)) = .ok (W.word (BitVec.ofInt 32 (target.wrap z))) := by
  have shorter : target.bits ≤ n := by omega
  rw [machine.cut width cuts, NumericKind.isUnsigned_plain, NumericKind.bits_plain,
    Word.setWidth_ofInt shorter, Word.read_ofInt_eq_wrap]
  rfl

/-- The conversion to 64 bits extends a short word and keeps a long one. -/
theorem unary_long (machine : W.Converts) (integral : source.isIntegral = true)
    (h : source.Holds v) :
    M.unary (if source.isUnsigned then .toU64 else .toI64) (W.number source v)
      = .ok (W.word (BitVec.ofInt 64 v)) := by
  obtain short | long := source.slotBits_eq
  · exact W.unary_extend integral short h
  · rw [number, long]
    split
    · exact machine.wideU64 _
    · exact machine.wideI64 _

/-- A cast leaves the number of the target that is the same modulo its width. -/
theorem unaries_cast (machine : W.Converts) (integral : source.isIntegral = true)
    (integral' : target.isIntegral = true) (h : source.Holds v) :
    M.unaries (source.explicitOps target false) (W.number source v)
      = .ok (W.number target (target.wrap v)) := by
  by_cases same : source = target
  · subst same
    rw [NumericKind.explicitOps_self, NumericKind.wrap_of_holds h]
    rfl
  · rw [NumericKind.explicitOps_integral same integral', unaries_singleton]
    obtain ⟨short, bits, cuts⟩ | ⟨long, bits, longer⟩ :=
      NumericKind.uncheckedOp_cases source integral integral'
    · rw [if_neg Bool.false_ne_true, number, number, short]
      exact unary_cut machine source.slotBits_eq bits cuts v
    · rw [if_neg Bool.false_ne_true, longer, unary_long machine integral h,
        number_wrap (long.trans bits.symm), number, long]

/-- A checked cast tests the number that its word is read as. -/
theorem unaries_checkedCast (machine : W.Converts) (integral : source.isIntegral = true)
    (integral' : target.isIntegral = true) (h : source.Holds v) :
    M.unaries (source.explicitOps target true) (W.number source v) = W.exact target target v := by
  by_cases same : source = target
  · subst same
    rw [NumericKind.explicitOps_self, exact, if_pos h]
    rfl
  · have checks := NumericKind.checks?_checkedOp integral' source.isUnsigned
    rw [NumericKind.explicitOps_integral same integral', if_pos rfl, unaries_singleton, integral,
      Bool.true_and, number, machine.check source.slotBits_eq checks,
      Word.read_ofInt source.slotBits_pos (h.slot integral)]
    exact exact_plain target v

/-- Conversions between integers: a cast is exact modulo the width of its target, a checked
cast exact or a trap, and a widening exact. -/
theorem runs_conversions (machine : W.Converts) (source target : NumericKind)
    (integral : source.isIntegral = true) (integral' : target.isIntegral = true)
    (h : source.Holds v) :
    M.Runs (source.explicitOps target false) (W.number source v)
        (.ok (W.number target (target.wrap v)))
      ∧ M.Runs (source.explicitOps target true) (W.number source v) (W.exact target target v)
      ∧ ∀ cost, source.widenCost? target = some cost →
          target.Holds v
            ∧ M.Runs (source.implicitOps target) (W.number source v) (.ok (W.number target v)) := by
  refine ⟨?_, ?_, ?_⟩
  · exact runs_of_unaries (effect_explicitOps _ _ _) (unaries_cast machine integral integral' h)
  · exact runs_of_unaries (effect_explicitOps _ _ _)
      (unaries_checkedCast machine integral integral' h)
  · intro cost known
    have wide : source.widens target = true := NumericKind.widens_of_widenCost? known
    exact ⟨h.widen wide integral',
      runs_of_unaries (effect_implicitOps _ _) (W.unaries_implicitOps wide integral' h)⟩

/-- The largest `uint32`, whose word is that of minus one, is minus one as an `int16`, is no
`int32`, and widens to an `int64` with its value. -/
theorem runs_conversions_uint32 :
    arithmetician.Runs (NumericKind.uint32.explicitOps .int16 false) ⟨32, -1⟩ (.ok ⟨32, -1⟩)
      ∧ arithmetician.Runs (NumericKind.uint32.explicitOps .int32 true) ⟨32, -1⟩ (.error ())
      ∧ arithmetician.Runs (NumericKind.uint32.implicitOps .int64) ⟨32, -1⟩
          (.ok ⟨64, 4294967295⟩) := by
  have held : NumericKind.uint32.Holds 4294967295 := by decide
  have machine := converts_arithmetician
  obtain ⟨cut, -, -⟩ := runs_conversions machine .uint32 .int16 rfl rfl held
  obtain ⟨-, trap, -⟩ := runs_conversions machine .uint32 .int32 rfl rfl held
  obtain ⟨-, -, widen⟩ := runs_conversions machine .uint32 .int64 rfl rfl held
  exact ⟨cut, trap, (widen 1 rfl).2⟩

end Words

end Machine

end ExprCompiler
