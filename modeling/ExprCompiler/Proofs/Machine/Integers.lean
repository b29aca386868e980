/-
# Integers in words

What the operations of a machine of 32- and 64-bit words (`Machine.Words`) do to
integers: unchecked arithmetic, comparisons and shifts (`Words.Computes`), and
conversions between kinds (`Words.Converts`).  Both are stated on the bits, as the
machine has them.  What they mean for numbers is proved from that, mostly by
`Word.wrap`: the number that is left in a word of a number that need not fit.

An operation promises no more than compiled code may rely on: a division by zero, the
least number divided by minus one, and a shift by more than the width are left open.
-/
import ExprCompiler.Proofs.Machine.Overflow

namespace ExprCompiler

/-! ## Words -/

namespace Word

variable {unsigned : Bool} {n n' : Nat} {z : Int}

/-- The number that a word of `n` bits holds of a number: the one of its range that is the same
modulo `2 ^ n`. -/
def wrap (unsigned : Bool) (n : Nat) (z : Int) : Int :=
  if unsigned then z % 2 ^ n else z.bmod (2 ^ n)

theorem read_ofInt_eq_wrap (unsigned : Bool) (n : Nat) (z : Int) :
    read unsigned (BitVec.ofInt n z) = wrap unsigned n z := by
  cases unsigned with
  | true =>
      show ((BitVec.ofInt n z).toNat : Int) = z % 2 ^ n
      rw [BitVec.toNat_ofInt, Nat.cast_pow, Nat.cast_ofNat]
      exact Int.toNat_of_nonneg (Int.emod_nonneg z (by positivity))
  | false => exact BitVec.toInt_ofInt z

/-- A word is that of the number it is read as. -/
theorem ofInt_read (unsigned : Bool) (x : BitVec n) : BitVec.ofInt n (read unsigned x) = x := by
  cases unsigned with
  | true =>
      show BitVec.ofInt n x.toNat = x
      rw [BitVec.ofInt_natCast, BitVec.ofNat_toNat, BitVec.setWidth_eq]
  | false => exact BitVec.ofInt_toInt

theorem fits_read (unsigned : Bool) (x : BitVec n) : Fits unsigned n (read unsigned x) := by
  cases unsigned with
  | true =>
      refine ⟨Int.natCast_nonneg _, ?_⟩
      show (x.toNat : Int) < 2 ^ n
      exact_mod_cast x.isLt
  | false => exact ⟨BitVec.le_toInt x, BitVec.toInt_lt⟩

theorem ofInt_wrap (unsigned : Bool) (n : Nat) (z : Int) :
    BitVec.ofInt n (wrap unsigned n z) = BitVec.ofInt n z := by
  rw [← read_ofInt_eq_wrap, ofInt_read]

theorem fits_wrap (unsigned : Bool) (n : Nat) (z : Int) :
    Fits unsigned n (wrap unsigned n z) := by
  rw [← read_ofInt_eq_wrap]
  exact fits_read unsigned _

/-- A number that fits is left as it is. -/
theorem wrap_of_fits (positive : 0 < n) (h : Fits unsigned n z) : wrap unsigned n z = z := by
  rw [← read_ofInt_eq_wrap, read_ofInt positive h]

/-- Numbers that fit are told apart by their words. -/
theorem ofInt_inj {z' : Int} (positive : 0 < n) (h : Fits unsigned n z)
    (h' : Fits unsigned n z') : BitVec.ofInt n z = BitVec.ofInt n z' ↔ z = z' := by
  constructor
  · intro same
    rw [← read_ofInt positive h, same, read_ofInt positive h']
  · rintro rfl
    rfl

/-- Cutting a word keeps the number modulo what is left of its bits. -/
theorem setWidth_ofInt (shorter : n ≤ n') (z : Int) :
    (BitVec.ofInt n' z).setWidth n = BitVec.ofInt n z := by
  rw [← BitVec.signExtend_eq_setWidth_of_le _ shorter]
  refine BitVec.eq_of_toInt_eq ?_
  rw [BitVec.toInt_signExtend, Nat.min_eq_left shorter, BitVec.toInt_ofInt, BitVec.toInt_ofInt,
    Int.bmod_bmod_of_dvd (Nat.pow_dvd_pow 2 shorter)]

end Word

namespace NumericKind

/-- The number of an integral kind that is the same modulo `2 ^ bits`. -/
def wrap (kind : NumericKind) (z : Int) : Int := Word.wrap kind.isUnsigned kind.bits z

variable {kind : NumericKind} {z : Int}

theorem bits_pos (kind : NumericKind) : 0 < kind.bits := by
  cases kind <;> decide

theorem holds_wrap (kind : NumericKind) (z : Int) : kind.Holds (kind.wrap z) :=
  Word.fits_wrap _ _ z

theorem wrap_of_holds (h : kind.Holds z) : kind.wrap z = z :=
  Word.wrap_of_fits kind.bits_pos h

end NumericKind

/-! ## Operations -/

/-- What an operation does to two words of one width, or to a word and a count. -/
inductive WordOperation
  | combine (f : (n : Nat) → BitVec n → BitVec n → BitVec n)
  /-- A quotient or remainder, with a sign or without one. -/
  | divide (unsigned : Bool) (f : (n : Nat) → BitVec n → BitVec n → BitVec n)
  | shift (f : (n : Nat) → BitVec n → Nat → BitVec n)
  | test (f : (n : Nat) → BitVec n → BitVec n → Bool)

namespace OpCode

/-- Unchecked operations on two words. -/
def onWords? : OpCode → Option WordOperation
  | add => some (.combine fun _ x y => x + y)
  | sub => some (.combine fun _ x y => x - y)
  | mul => some (.combine fun _ x y => x * y)
  | and => some (.combine fun _ x y => x &&& y)
  | or => some (.combine fun _ x y => x ||| y)
  | xor => some (.combine fun _ x y => x ^^^ y)
  | div => some (.divide false fun _ x y => x.sdiv y)
  | divUnsigned => some (.divide true fun _ x y => x / y)
  | rem => some (.divide false fun _ x y => x.srem y)
  | remUnsigned => some (.divide true fun _ x y => x % y)
  | shl => some (.shift fun _ x count => x <<< count)
  | shr => some (.shift fun _ x count => x.sshiftRight count)
  | shrUnsigned => some (.shift fun _ x count => x >>> count)
  | eq => some (.test fun _ x y => x == y)
  | lt => some (.test fun _ x y => x.slt y)
  | ltUnsigned => some (.test fun _ x y => x.ult y)
  | gt => some (.test fun _ x y => y.slt x)
  | gtUnsigned => some (.test fun _ x y => y.ult x)
  | _ => none

/-- The kind of up to 32 bits that a plain conversion cuts a word to. -/
def cuts? : OpCode → Option NumericKind
  | toI8 => some .int8
  | toU8 => some .uint8
  | toI16 => some .int16
  | toU16 => some .uint16
  | toI32 => some .int32
  | toU32 => some .uint32
  | _ => none

/-- The kind that a checked conversion goes to, and whether it reads its word without a sign. -/
def checks? : OpCode → Option (Bool × NumericKind)
  | toI8Checked => some (false, .int8)
  | toI16Checked => some (false, .int16)
  | toI32Checked => some (false, .int32)
  | toI64Checked => some (false, .int64)
  | toU8Checked => some (false, .uint8)
  | toU16Checked => some (false, .uint16)
  | toU32Checked => some (false, .uint32)
  | toU64Checked => some (false, .uint64)
  | toI8CheckedUnsigned => some (true, .int8)
  | toI16CheckedUnsigned => some (true, .int16)
  | toI32CheckedUnsigned => some (true, .int32)
  | toI64CheckedUnsigned => some (true, .int64)
  | toU8CheckedUnsigned => some (true, .uint8)
  | toU16CheckedUnsigned => some (true, .uint16)
  | toU32CheckedUnsigned => some (true, .uint32)
  | toU64CheckedUnsigned => some (true, .uint64)
  | _ => none

end OpCode

namespace Machine

variable {V T : Type} {M : Machine V T}

namespace Words

/-- A truth value is one or zero in a word of 32 bits. -/
def bit (W : M.Words) (b : Bool) : V := W.word (if b then 1#32 else 0#32)

/-- Unchecked operations are those of the words. -/
structure Computes (W : M.Words) : Prop where
  neg : ∀ {n : Nat}, n = 32 ∨ n = 64 → ∀ x : BitVec n,
    M.unary .neg (W.word x) = .ok (W.word (-x))
  bitNot : ∀ {n : Nat}, n = 32 ∨ n = 64 → ∀ x : BitVec n,
    M.unary .bitNot (W.word x) = .ok (W.word (~~~x))
  not : ∀ x : BitVec 32, M.unary .not (W.word x) = .ok (W.bit (x == 0))
  combine : ∀ {n : Nat}, n = 32 ∨ n = 64 → ∀ {code : OpCode}
    {f : (n : Nat) → BitVec n → BitVec n → BitVec n}, code.onWords? = some (.combine f) →
    ∀ x y : BitVec n, M.binary code (W.word x) (W.word y) = .ok (W.word (f n x y))
  divide : ∀ {n : Nat}, n = 32 ∨ n = 64 → ∀ {code : OpCode} {unsigned : Bool}
    {f : (n : Nat) → BitVec n → BitVec n → BitVec n},
    code.onWords? = some (.divide unsigned f) → ∀ x y : BitVec n, y ≠ 0 →
    (unsigned = false → x ≠ BitVec.intMin n ∨ y ≠ -1#n) →
    M.binary code (W.word x) (W.word y) = .ok (W.word (f n x y))
  shift : ∀ {n : Nat}, n = 32 ∨ n = 64 → ∀ {code : OpCode}
    {f : (n : Nat) → BitVec n → Nat → BitVec n}, code.onWords? = some (.shift f) →
    ∀ (x : BitVec n) (count : BitVec 32), count.toNat < n →
    M.binary code (W.word x) (W.word count) = .ok (W.word (f n x count.toNat))
  test : ∀ {n : Nat}, n = 32 ∨ n = 64 → ∀ {code : OpCode}
    {f : (n : Nat) → BitVec n → BitVec n → Bool}, code.onWords? = some (.test f) →
    ∀ x y : BitVec n, M.binary code (W.word x) (W.word y) = .ok (W.bit (f n x y))

/-- A plain conversion cuts a word to the width of its kind and extends it by the sign of the
kind; one to 64 bits has nothing to cut.  A checked conversion traps exactly if the number that
it reads is out of the range of its kind. -/
structure Converts (W : M.Words) : Prop where
  cut : ∀ {n : Nat}, n = 32 ∨ n = 64 → ∀ {code : OpCode} {kind : NumericKind},
    code.cuts? = some kind → ∀ x : BitVec n,
    M.unary code (W.word x)
      = .ok (W.word (BitVec.ofInt 32 (Word.read kind.isUnsigned (x.setWidth kind.bits))))
  wideI64 : ∀ x : BitVec 64, M.unary .toI64 (W.word x) = .ok (W.word x)
  wideU64 : ∀ x : BitVec 64, M.unary .toU64 (W.word x) = .ok (W.word x)
  check : ∀ {n : Nat}, n = 32 ∨ n = 64 → ∀ {code : OpCode} {unsigned : Bool}
    {kind : NumericKind}, code.checks? = some (unsigned, kind) → ∀ x : BitVec n,
    M.unary code (W.word x) = W.exact kind kind (Word.read unsigned x)

end Words

/-! ## A machine with all of these -/

/-- Words with their widths, and all operations on integers. -/
def arithmetician : Machine (Σ n, BitVec n) Unit where
  constant
    | .int32 c => .ok ⟨32, c.toBitVec⟩
    | .int64 c => .ok ⟨64, c.toBitVec⟩
    | _ => .error ()
  push
    | .pushTrue => .ok ⟨32, 1⟩
    | .pushFalse => .ok ⟨32, 0⟩
    | _ => .error ()
  unary code x :=
    match code.cuts?, code.checks? with
    | some kind, _ =>
      .ok ⟨32, BitVec.ofInt 32 (Word.read kind.isUnsigned (x.2.setWidth kind.bits))⟩
    | none, some (unsigned, kind) =>
      let z := Word.read unsigned x.2
      if kind.Holds z then .ok ⟨kind.slotBits, BitVec.ofInt kind.slotBits z⟩ else .error ()
    | none, none =>
      match code with
      | .neg => .ok ⟨x.1, -x.2⟩
      | .bitNot => .ok ⟨x.1, ~~~x.2⟩
      | .not => .ok ⟨32, if x.2 == 0 then 1 else 0⟩
      | .toI64 => .ok ⟨64, x.2.signExtend 64⟩
      | .toU64 => .ok ⟨64, x.2.setWidth 64⟩
      | _ => .error ()
  binary code x y :=
    let y' := y.2.setWidth x.1
    match code.onWords?, code.trapping? with
    | some (.combine f), _ => .ok ⟨x.1, f x.1 x.2 y'⟩
    | some (.divide unsigned f), _ =>
      if y' = 0 ∨ unsigned = false ∧ x.2 = BitVec.intMin x.1 ∧ y' = -1 then .error ()
      else .ok ⟨x.1, f x.1 x.2 y'⟩
    | some (.shift f), _ => .ok ⟨x.1, f x.1 x.2 y.2.toNat⟩
    | some (.test f), _ => .ok ⟨32, if f x.1 x.2 y' then 1 else 0⟩
    | none, some (unsigned, f) =>
      let z := f (Word.read unsigned x.2) (Word.read unsigned y.2)
      if Word.Fits unsigned x.1 z then .ok ⟨x.1, BitVec.ofInt x.1 z⟩ else .error ()
    | none, none => .error ()
  named _ _ _ := .error ()
  static _ := .error ()
  call _ _ := .error ()
  method _ _ _ := .error ()
  truth x := x.2 ≠ 0

namespace Words

theorem onWords?_of_trapping? {code : OpCode} {p : Bool × (Int → Int → Int)}
    (h : code.trapping? = some p) : code.onWords? = none := by
  cases code <;> first | rfl | cases h

theorem cuts?_of_checks? {code : OpCode} {p : Bool × NumericKind}
    (h : code.checks? = some p) : code.cuts? = none := by
  cases code <;> first | rfl | cases h

def ofArithmetician : arithmetician.Words where
  word x := ⟨_, x⟩
  overflow := ()
  int32 _ := rfl
  int64 _ := rfl
  toI64 _ := rfl
  toU64 _ := rfl
  checked := by
    intro n _ code unsigned f trapping x y
    simp only [arithmetician, trapping, onWords?_of_trapping? trapping]

theorem computes_arithmetician : ofArithmetician.Computes where
  neg _ _ := rfl
  bitNot _ _ := rfl
  not _ := rfl
  combine := by
    intro n _ code f known x y
    simp only [arithmetician, ofArithmetician, known, BitVec.setWidth_eq]
  divide := by
    intro n _ code unsigned f known x y nonzero bounded
    have defined : ¬ (y = 0 ∨ unsigned = false ∧ x = BitVec.intMin n ∧ y = -1) := by
      rintro (zero | ⟨signed, least, minus⟩)
      · exact nonzero zero
      · exact (bounded signed).elim (· least) (· minus)
    simp only [arithmetician, ofArithmetician, known, BitVec.setWidth_eq, if_neg defined]
  shift := by
    intro n _ code f known x count _
    simp only [arithmetician, ofArithmetician, known]
  test := by
    intro n _ code f known x y
    simp only [arithmetician, ofArithmetician, known, BitVec.setWidth_eq]
    rfl

theorem converts_arithmetician : ofArithmetician.Converts where
  cut := by
    intro n _ code kind known x
    simp only [arithmetician, ofArithmetician, known]
  wideI64 x := by
    show Except.ok (⟨64, x.signExtend 64⟩ : Σ n, BitVec n) = .ok ⟨64, x⟩
    rw [BitVec.signExtend_eq]
  wideU64 x := by
    show Except.ok (⟨64, x.setWidth 64⟩ : Σ n, BitVec n) = .ok ⟨64, x⟩
    rw [BitVec.setWidth_eq]
  check := by
    intro n _ code unsigned kind known x
    simp only [arithmetician, known, cuts?_of_checks? known]
    rfl

end Words

end Machine

end ExprCompiler
