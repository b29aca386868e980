/-
# Bytes of a chunk, written, patched and read

Everything about a chunk that the instructions in it depend on goes through one
function, `readByte?`.  `Chunk.Holds c o bs` says that the bytes `bs` stand in
`c` from offset `o` on; writing makes it true at the end of a chunk, patching
makes it true in the middle, and a word is read back from wherever its bytes are
held.
-/
import ExprCompiler.Code.Chunk

namespace ExprCompiler.Chunk

/-! ## A chunk as a list of bytes -/

theorem size_eq_length (c : Chunk) : c.size = c.bytes.length := by
  simp only [size, bytes, List.length_map, Array.length_toList]

theorem readByte?_eq_getElem? (c : Chunk) (o : Nat) : c.readByte? o = c.bytes[o]? := by
  simp only [readByte?, bytes, List.getElem?_map, Array.getElem?_toList]

theorem readByte?_eq_none {c : Chunk} {o : Nat} (h : c.size ≤ o) : c.readByte? o = none := by
  rw [readByte?_eq_getElem?]
  exact List.getElem?_eq_none (size_eq_length c ▸ h)

theorem lt_size_of_readByte? {c : Chunk} {o : Nat} {b : UInt8} (h : c.readByte? o = some b) :
    o < c.size := by
  rcases Nat.lt_or_ge o c.size with inside | outside
  · exact inside
  · rw [readByte?_eq_none outside] at h
    cases h

/-- The bytes `bs` stand in the chunk from an offset on. -/
def Holds (c : Chunk) (o : Nat) (bs : List UInt8) : Prop :=
  ∀ (i : Nat) (b : UInt8), bs[i]? = some b → c.readByte? (o + i) = some b

theorem Holds.head {c : Chunk} {o : Nat} {b : UInt8} {bs : List UInt8}
    (h : c.Holds o (b :: bs)) : c.readByte? o = some b :=
  h 0 b rfl

theorem Holds.tail {c : Chunk} {o : Nat} {b : UInt8} {bs : List UInt8}
    (h : c.Holds o (b :: bs)) : c.Holds (o + 1) bs := by
  intro i b' hb
  have := h (i + 1) b' (by simpa using hb)
  rwa [Nat.add_assoc, Nat.add_comm 1 i]

theorem Holds.left {c : Chunk} {o : Nat} {bs bs' : List UInt8} (h : c.Holds o (bs ++ bs')) :
    c.Holds o bs := by
  intro i b hb
  have inside : i < bs.length := (List.getElem?_eq_some_iff.mp hb).1
  exact h i b (by rw [List.getElem?_append_left inside]; exact hb)

/-! ## Writing -/

theorem bytes_writeByte (c : Chunk) (b : UInt8) (line : Nat) :
    (c.writeByte b line).bytes = c.bytes ++ [b] := by
  simp only [writeByte, bytes, Array.toList_push, List.map_append, List.map_cons, List.map_nil]

theorem bytes_writeBytes (c : Chunk) (bs : List UInt8) (line : Nat) :
    (c.writeBytes bs line).bytes = c.bytes ++ bs := by
  simp only [writeBytes]
  induction bs generalizing c with
  | nil => rw [List.foldl_nil, List.append_nil]
  | cons b bs ih =>
      rw [List.foldl_cons, ih, bytes_writeByte, List.append_assoc, List.singleton_append]

/-! ## Patching -/

theorem bytes_setByte (c : Chunk) (place : Nat) (b : UInt8) :
    (c.setByte place b).bytes = c.bytes.set place b := by
  apply List.ext_getElem?
  intro i
  rw [← readByte?_eq_getElem?, List.getElem?_set, ← readByte?_eq_getElem?, ← size_eq_length]
  simp only [readByte?, setByte, Array.getElem?_modify, size]
  by_cases here : place = i
  · subst here
    by_cases inside : place < c.cells.size
    · simp [inside]
    · simp [inside]
  · simp [here]

theorem size_setByte (c : Chunk) (place : Nat) (b : UInt8) :
    (c.setByte place b).size = c.size := by
  rw [size_eq_length, bytes_setByte, List.length_set, size_eq_length]

theorem readByte?_setByte_ne {c : Chunk} {place o : Nat} (b : UInt8) (h : place ≠ o) :
    (c.setByte place b).readByte? o = c.readByte? o := by
  rw [readByte?_eq_getElem?, bytes_setByte, List.getElem?_set_ne h, readByte?_eq_getElem?]

theorem readByte?_setByte_self {c : Chunk} {place : Nat} (b : UInt8) (h : place < c.size) :
    (c.setByte place b).readByte? place = some b := by
  rw [readByte?_eq_getElem?, bytes_setByte]
  exact List.getElem?_set_self (size_eq_length c ▸ h)

theorem size_setBytes (c : Chunk) (place : Nat) (bs : List UInt8) :
    (c.setBytes place bs).size = c.size := by
  induction bs generalizing c place with
  | nil => rfl
  | cons b bs ih => rw [setBytes, ih, size_setByte]

/-- Patching leaves all other bytes alone. -/
theorem readByte?_setBytes_outside {c : Chunk} {place o : Nat} {bs : List UInt8}
    (h : o < place ∨ place + bs.length ≤ o) :
    (c.setBytes place bs).readByte? o = c.readByte? o := by
  induction bs generalizing c place with
  | nil => rfl
  | cons b bs ih =>
      rw [List.length_cons] at h
      rw [setBytes, ih (by omega), readByte?_setByte_ne b (by omega)]

/-- What is patched in is there afterwards. -/
theorem holds_setBytes {c : Chunk} {place : Nat} {bs : List UInt8}
    (h : place + bs.length ≤ c.size) : (c.setBytes place bs).Holds place bs := by
  induction bs generalizing c place with
  | nil => intro i b hb; cases hb
  | cons b bs ih =>
      rw [List.length_cons] at h
      intro i b' hb
      cases i with
      | zero =>
          have same : b = b' := by simpa using hb
          subst same
          show ((c.setByte place b).setBytes (place + 1) bs).readByte? place = some b
          rw [readByte?_setBytes_outside (Or.inl (Nat.lt_add_one place))]
          exact readByte?_setByte_self b (by omega)
      | succ i =>
          rw [setBytes, Nat.add_comm i 1, ← Nat.add_assoc]
          exact ih (by rw [size_setByte]; omega) i b' (by simpa using hb)

/-! ## Words -/

/-- A bit of a word of which one byte, from `k` on, is shifted out and back. -/
theorem testBit_byte {k width : Nat} (room : k + 8 ≤ width) (n i : Nat) :
    (decide (i < width) && (decide (i ≥ k) && (decide (i - k < 8) && n.testBit (k + (i - k)))))
      = (decide (k ≤ i ∧ i < k + 8) && n.testBit i) := by
  by_cases from_ : k ≤ i
  · rw [Nat.add_sub_cancel' from_]
    by_cases below : i < k + 8
    · have inWord : i < width := by omega
      have inByte : i - k < 8 := by omega
      simp [from_, below, inWord, inByte]
    · have past : ¬ i - k < 8 := by omega
      simp [below, past]
  · simp [from_]

/-- A 16-bit word is put together again from its two bytes. -/
theorem join_wordBytes (w : UInt16) :
    ((w >>> 8).toUInt8.toUInt16 <<< 8 ||| w.toUInt8.toUInt16) = w := by
  apply UInt16.toNat.inj
  apply Nat.eq_of_testBit_eq
  intro i
  have shift8 : (8 : UInt16).toNat % 16 = 8 := rfl
  simp only [UInt16.toNat_or, UInt16.toNat_shiftLeft, UInt16.toNat_shiftRight,
    UInt8.toNat_toUInt16, UInt16.toNat_toUInt8, shift8, Nat.testBit_or,
    Nat.testBit_mod_two_pow, Nat.testBit_shiftLeft, Nat.testBit_shiftRight]
  rw [testBit_byte (k := 8) (by decide)]
  cases set : w.toNat.testBit i with
  | false => simp
  | true =>
      have : i < 16 := (Nat.pow_lt_pow_iff_right (by decide)).mp
        (Nat.lt_of_le_of_lt (Nat.ge_two_pow_of_testBit set) w.toNat_lt)
      simp only [Bool.and_true, Bool.or_eq_true, decide_eq_true_eq]
      omega

/-- A 32-bit word is put together again from its four bytes. -/
theorem join_offsetBytes (w : UInt32) :
    ((w >>> 24).toUInt8.toUInt32 <<< 24 ||| (w >>> 16).toUInt8.toUInt32 <<< 16
      ||| (w >>> 8).toUInt8.toUInt32 <<< 8 ||| w.toUInt8.toUInt32) = w := by
  apply UInt32.toNat.inj
  apply Nat.eq_of_testBit_eq
  intro i
  have shift8 : (8 : UInt32).toNat % 32 = 8 := rfl
  have shift16 : (16 : UInt32).toNat % 32 = 16 := rfl
  have shift24 : (24 : UInt32).toNat % 32 = 24 := rfl
  simp only [UInt32.toNat_or, UInt32.toNat_shiftLeft, UInt32.toNat_shiftRight,
    UInt8.toNat_toUInt32, UInt32.toNat_toUInt8, shift8, shift16, shift24, Nat.testBit_or,
    Nat.testBit_mod_two_pow, Nat.testBit_shiftLeft, Nat.testBit_shiftRight]
  rw [testBit_byte (k := 24) (by decide), testBit_byte (k := 16) (by decide),
    testBit_byte (k := 8) (by decide)]
  cases set : w.toNat.testBit i with
  | false => simp
  | true =>
      have : i < 32 := (Nat.pow_lt_pow_iff_right (by decide)).mp
        (Nat.lt_of_le_of_lt (Nat.ge_two_pow_of_testBit set) w.toNat_lt)
      simp only [Bool.and_true, Bool.or_eq_true, decide_eq_true_eq]
      omega

theorem readU16?_of_holds {c : Chunk} {o : Nat} {value : UInt16}
    (h : c.Holds o (wordBytes value)) : c.readU16? o = some value := by
  simp only [readU16?, h.head, h.tail.head, Option.bind_eq_bind, Option.bind_some]
  rw [join_wordBytes]

theorem readI32?_of_holds {c : Chunk} {o : Nat} {value : Int32}
    (h : c.Holds o (offsetBytes value)) : c.readI32? o = some value := by
  simp only [readI32?, h.head, h.tail.head, h.tail.tail.head, h.tail.tail.tail.head,
    Option.bind_eq_bind, Option.bind_some]
  rw [join_offsetBytes, Int32.toInt32_toUInt32]

/-! ## Reading in sequence -/

theorem instructionsFrom_of_readOp? {c : Chunk} {o : Nat} {op : OpCode}
    (h : c.readOp? o = some op) (found : Array (Nat × OpCode)) :
    c.instructionsFrom o found = c.instructionsFrom (o + op.size) (found.push (o, op)) := by
  have inside : o < c.size := by
    simp only [readOp?] at h
    cases read : c.readByte? o with
    | none => rw [read] at h; cases h
    | some b => exact lt_size_of_readByte? read
  rw [instructionsFrom, if_pos inside, h]

end ExprCompiler.Chunk
