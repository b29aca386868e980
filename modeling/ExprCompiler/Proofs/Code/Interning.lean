/-
# A pool interns by exact value

Code is written against a pool that grows one addition at a time, and an
operand keeps only the 32-bit place that its own addition gave.  Below, a whole
run of additions is one fold from the empty pool (`ConstantPool.addAll`), and
what it leaves is stated against the list of constants it was given: those
constants without repetitions, in order of first use, and for every addition a
place that from then on names its constant and nothing else.

Two places agree exactly when the constants do, and constants are told apart by
the slot they take and by the bits they put there (`Constant.eq_iff_content`).
So the two zeros of a float are two constants, a NaN is one constant for each of
its bit patterns, and equal numbers in slots of different width never meet.  The
one hypothesis is about the width of a place: fewer than 2^32 different constants.
-/
import ExprCompiler.Proofs.Code.Pool

namespace ExprCompiler

/-! ## What tells constants apart -/

/-- The sort of slot a constant is loaded into. -/
inductive Constant.Slot
  | int32
  | int64
  | float32
  | float64
  | string
  | id
  deriving DecidableEq, Repr

namespace Constant

def slot : Constant → Slot
  | .int32 _ => .int32
  | .int64 _ => .int64
  | .float32 _ => .float32
  | .float64 _ => .float64
  | .string _ => .string
  | .id _ => .id

/-- The bits of a number or an identity, the text of a string. -/
def content : Constant → Nat ⊕ String
  | .int32 value => .inl value.toBitVec.toNat
  | .int64 value => .inl value.toBitVec.toNat
  | .float32 bits => .inl bits.toNat
  | .float64 bits => .inl bits.toNat
  | .string value => .inr value
  | .id value => .inl value.value.toNat

/-- Slot and content are all there is to a constant. -/
theorem eq_iff_content {c d : Constant} :
    c = d ↔ c.slot = d.slot ∧ c.content = d.content := by
  constructor
  · intro same
    exact ⟨congrArg slot same, congrArg content same⟩
  · rintro ⟨slots, contents⟩
    cases c <;> cases d <;> cases slots
    · exact congrArg _ (Int32.toBitVec_inj.mp (BitVec.eq_of_toNat_eq (Sum.inl.inj contents)))
    · exact congrArg _ (Int64.toBitVec_inj.mp (BitVec.eq_of_toNat_eq (Sum.inl.inj contents)))
    · exact congrArg _ (UInt32.toNat_inj.mp (Sum.inl.inj contents))
    · exact congrArg _ (UInt64.toNat_inj.mp (Sum.inl.inj contents))
    · exact congrArg _ (Sum.inr.inj contents)
    · exact congrArg (fun value => Constant.id ⟨value⟩)
        (UInt64.toNat_inj.mp (Sum.inl.inj contents))

end Constant

/-! ## One addition -/

namespace ConstantPool

/-- An addition gives a place inside the pool it leaves. -/
theorem place_lt (p : ConstantPool) (c : Constant) : (p.add c).1 < (p.add c).2.size :=
  (Array.getElem?_eq_some_iff.mp (get?_add p c)).1

/-- A constant that the pool holds is one of its list. -/
theorem mem_toList_iff {p : ConstantPool} {c : Constant} :
    c ∈ p.constants.toList ↔ ∃ place, p.get? place = some c := by
  rw [List.mem_iff_getElem?]
  simp only [get?, Array.getElem?_toList]

/-- An addition keeps the list of constants free of repetitions and in order of
first use. -/
theorem toList_add {p : ConstantPool} {before : List Constant}
    (holds : p.constants.toList = before.eraseDups) (c : Constant) :
    (p.add c).2.constants.toList = (before ++ [c]).eraseDups := by
  rw [List.eraseDups_append]
  have member : c ∈ before ↔ ∃ place, p.get? place = some c := by
    rw [← mem_toList_iff, holds, List.mem_eraseDups]
  cases known : p.indexOf? c with
  | none =>
      have absent : c ∉ before := by
        rw [member]
        rintro ⟨place, held⟩
        rw [indexOf?_eq_some_iff.mpr held] at known
        cases known
      have pushed : (p.push c known).constants = p.constants.push c := rfl
      rw [add_fresh known, pushed, Array.toList_push, holds]
      simp [List.removeAll, absent, List.eraseDups_cons]
  | some place =>
      have present : c ∈ before := member.mpr ⟨place, indexOf?_eq_some_iff.mp known⟩
      rw [add_known known, holds]
      simp [List.removeAll, present]

/-! ## A run of additions -/

/-- Adds the constants in turn: the place each addition gives, as wide as an
operand keeps it, and the pool left behind. -/
def addAll (p : ConstantPool) : List Constant → List UInt32 × ConstantPool
  | [] => ([], p)
  | c :: cs =>
      let (place, q) := p.add c
      let (places, last) := q.addAll cs
      (place.toUInt32 :: places, last)

theorem addAll_cons (p : ConstantPool) (c : Constant) (cs : List Constant) :
    p.addAll (c :: cs) =
      ((p.add c).1.toUInt32 :: ((p.add c).2.addAll cs).1, ((p.add c).2.addAll cs).2) := rfl

theorem length_addAll (p : ConstantPool) (cs : List Constant) :
    (p.addAll cs).1.length = cs.length := by
  induction cs generalizing p with
  | nil => rfl
  | cons c cs ih => rw [addAll_cons, List.length_cons, List.length_cons, ih]

/-- A run moves no constant. -/
theorem within_addAll (p : ConstantPool) (cs : List Constant) : p.Within (p.addAll cs).2 := by
  induction cs generalizing p with
  | nil => exact .refl p
  | cons c cs ih => exact (within_add p c).trans (ih (p.add c).2)

theorem toList_addAll {p : ConstantPool} {before : List Constant}
    (holds : p.constants.toList = before.eraseDups) (cs : List Constant) :
    (p.addAll cs).2.constants.toList = (before ++ cs).eraseDups := by
  induction cs generalizing p before with
  | nil => rw [List.append_nil]; exact holds
  | cons c cs ih =>
      rw [addAll_cons, List.append_cons]
      exact ih (toList_add holds c)

/-- A pool that keeps what another holds is no smaller. -/
theorem Within.size_le {p q : ConstantPool} (within : p.Within q) : p.size ≤ q.size := by
  refine Nat.le_of_not_lt fun more => ?_
  have held : p.get? q.size = some p.constants[q.size] := Array.getElem?_eq_getElem more
  exact Nat.lt_irrefl _ (Array.getElem?_eq_some_iff.mp (within _ _ held)).1

/-- The place an addition gave names its constant at once and ever after, as long
as no place outgrows its 32 bits. -/
theorem get?_addAll {p : ConstantPool} {cs : List Constant}
    (few : (p.addAll cs).2.size < UInt32.size) {k : Nat} {c : Constant} {place : UInt32}
    (use : cs[k]? = some c) (given : (p.addAll cs).1[k]? = some place) :
    ∀ n, k < n → (p.addAll (cs.take n)).2.get? place.toNat = some c := by
  induction cs generalizing p k with
  | nil => cases use
  | cons d cs ih =>
      rw [addAll_cons] at few given
      intro n later
      obtain ⟨n, rfl⟩ : ∃ m, n = m + 1 := ⟨n - 1, by omega⟩
      rw [List.take_succ_cons, addAll_cons]
      cases k with
      | zero =>
          cases use
          cases given
          have exact : ((p.add c).1.toUInt32).toNat = (p.add c).1 :=
            Nat.mod_eq_of_lt (Nat.lt_trans
              (Nat.lt_of_lt_of_le (place_lt p c) (within_addAll (p.add c).2 cs).size_le) few)
          rw [exact]
          exact within_addAll _ _ _ _ (get?_add p c)
      | succ k =>
          exact ih few use given n (by omega)

/-- A run of additions to the empty pool interns by exact value: it leaves the
different constants in order of first use, each place names its constant from its
addition on, and two places agree exactly when slot and content do. -/
theorem addAll_interns (uses : List Constant) (few : uses.eraseDups.length < UInt32.size) :
    (empty.addAll uses).2.constants.toList = uses.eraseDups ∧
    (empty.addAll uses).1.length = uses.length ∧
    (∀ (k : Nat) (c : Constant) (place : UInt32),
      uses[k]? = some c → (empty.addAll uses).1[k]? = some place →
      ∀ n, k < n → (empty.addAll (uses.take n)).2.get? place.toNat = some c) ∧
    ∀ (j k : Nat) (c d : Constant) (first second : UInt32), uses[j]? = some c → uses[k]? = some d →
      (empty.addAll uses).1[j]? = some first → (empty.addAll uses).1[k]? = some second →
      (first = second ↔ c.slot = d.slot ∧ c.content = d.content) := by
  have start : empty.constants.toList = ([] : List Constant).eraseDups := rfl
  have left : (empty.addAll uses).2.constants.toList = uses.eraseDups :=
    toList_addAll start uses
  have small : (empty.addAll uses).2.size < UInt32.size := by
    rw [← left] at few
    exact few
  refine ⟨left, length_addAll _ _, fun k c place => get?_addAll small, ?_⟩
  -- Both places are looked up in the pool left at the end, which holds a constant at one
  -- place only.
  have held : ∀ (k : Nat) (c : Constant) (place : UInt32),
      uses[k]? = some c → (empty.addAll uses).1[k]? = some place →
      (empty.addAll uses).2.get? place.toNat = some c := by
    intro k c place use given
    have inside : k < uses.length := (List.getElem?_eq_some_iff.mp use).1
    rw [← List.take_length (l := uses)]
    exact get?_addAll small use given _ inside
  intro j k c d first second hc hd hfirst hsecond
  have atFirst := held j c first hc hfirst
  have atSecond := held k d second hd hsecond
  rw [← Constant.eq_iff_content]
  constructor
  · rintro rfl
    exact Option.some.inj (atFirst.symm.trans atSecond)
  · rintro rfl
    have places : some first.toNat = some second.toNat :=
      (indexOf?_eq_some_iff.mpr atFirst).symm.trans (indexOf?_eq_some_iff.mpr atSecond)
    exact UInt32.toNat_inj.mp (Option.some.inj places)

/-- The two zeros of a double, a NaN that comes twice, and one in two widths. -/
theorem addAll_interns_zeros :
    ∃ uses : List Constant,
      uses = [.float64 0, .float64 0x8000000000000000, .float64 0x7ff8000000000001,
        .float64 0x7ff8000000000001, .int32 1, .int64 1] ∧
      uses.eraseDups.length < UInt32.size ∧
      (empty.addAll uses).1 = [0, 1, 2, 2, 3, 4] ∧
      (empty.addAll uses).2.constants.toList =
        [.float64 0, .float64 0x8000000000000000, .float64 0x7ff8000000000001,
          .int32 1, .int64 1] ∧
      (empty.addAll (uses.take 2)).2.get? 1 = some (.float64 0x8000000000000000) ∧
      ((3 : UInt32) = 4 ↔
        Constant.Slot.int32 = .int64
          ∧ Constant.content (.int32 1) = Constant.content (.int64 1)) := by
  refine ⟨_, rfl, by decide, by cbv, ?_⟩
  have places : (empty.addAll [.float64 0, .float64 0x8000000000000000,
      .float64 0x7ff8000000000001, .float64 0x7ff8000000000001, .int32 1, .int64 1]).1 =
      [0, 1, 2, 2, 3, 4] := by cbv
  obtain ⟨left, -, named, agree⟩ := addAll_interns
    [.float64 0, .float64 0x8000000000000000, .float64 0x7ff8000000000001,
      .float64 0x7ff8000000000001, .int32 1, .int64 1] (by decide)
  rw [places] at named agree
  exact ⟨left, named 1 _ 1 rfl rfl 2 (by decide), agree 4 5 _ _ 3 4 rfl rfl rfl rfl⟩

end ConstantPool

end ExprCompiler
