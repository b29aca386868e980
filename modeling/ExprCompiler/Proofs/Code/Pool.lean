/-
# What a constant pool remembers

Code names constants by their place in the pool, and the pool only ever grows at
its end.  So a place, once given out, keeps its constant: the pool that an
instruction was written against is the start of the pool that the finished code
carries (`ConstantPool.Within`).
-/
import ExprCompiler.Code.Directive

namespace ExprCompiler.ConstantPool

/-- What `p` holds, `q` holds at the same place. -/
def Within (p q : ConstantPool) : Prop :=
  ∀ (i : Nat) (c : Constant), p.get? i = some c → q.get? i = some c

theorem Within.refl (p : ConstantPool) : p.Within p :=
  fun _ _ h => h

theorem Within.trans {p q r : ConstantPool} (hpq : p.Within q) (hqr : q.Within r) :
    p.Within r :=
  fun i c h => hqr i c (hpq i c h)

/-- A pool holds a constant at one place only, the one its index knows. -/
theorem indexOf?_eq_some_iff {p : ConstantPool} {c : Constant} {i : Nat} :
    p.indexOf? c = some i ↔ p.get? i = some c :=
  p.agree c i

theorem get?_push {p : ConstantPool} {c : Constant} (fresh : p.indexOf? c = none) (i : Nat) :
    (p.push c fresh).get? i = if i = p.size then some c else p.get? i := by
  obtain ⟨constants, places, agree⟩ := p
  exact Array.getElem?_push

theorem add_fresh {p : ConstantPool} {c : Constant} (fresh : p.indexOf? c = none) :
    p.add c = (p.size, p.push c fresh) := by
  simp only [add, fresh, Option.getD_none, dif_pos]

theorem add_known {p : ConstantPool} {c : Constant} {i : Nat} (known : p.indexOf? c = some i) :
    p.add c = (i, p) := by
  simp only [add, known, Option.getD_some, reduceCtorEq, dite_false]

/-- Adding a constant gives a place at which the new pool holds it. -/
theorem get?_add (p : ConstantPool) (c : Constant) :
    (p.add c).2.get? (p.add c).1 = some c := by
  cases known : p.indexOf? c with
  | none =>
      rw [add_fresh known, get?_push known, if_pos rfl]
  | some i =>
      rw [add_known known]
      exact indexOf?_eq_some_iff.mp known

/-- Adding a constant moves none of the others. -/
theorem within_add (p : ConstantPool) (c : Constant) : p.Within (p.add c).2 := by
  intro i d held
  cases known : p.indexOf? c with
  | none =>
      have inside : i < p.size := (Array.getElem?_eq_some_iff.mp held).1
      rw [add_fresh known, get?_push known, if_neg (Nat.ne_of_lt inside)]
      exact held
  | some j =>
      rw [add_known known]
      exact held

/-- What the index knows can be found among the constants. -/
theorem indexOf?_eq_idxOf? (p : ConstantPool) (c : Constant) :
    p.indexOf? c = p.constants.toList.idxOf? c := by
  cases found : p.constants.toList.idxOf? c with
  | none =>
      refine Option.eq_none_iff_forall_ne_some.mpr ?_
      intro i known
      have held : p.constants[i]? = some c := indexOf?_eq_some_iff.mp known
      rw [← Array.getElem?_toList] at held
      exact List.idxOf?_eq_none_iff.mp found (List.mem_of_getElem? held)
  | some i =>
      refine indexOf?_eq_some_iff.mpr ?_
      obtain ⟨inside, same, -⟩ := List.findIdx?_eq_some_iff_getElem.mp found
      show p.constants[i]? = some c
      rw [← Array.getElem?_toList, List.getElem?_eq_getElem inside, eq_of_beq same]

/-- An operand that was given out names its constant in the pool left behind. -/
theorem operand_ok {p q : ConstantPool} {c : Constant} {index : UInt16}
    (h : p.operand c = (.ok index, q)) : q.get? index.toNat = some c ∧ p.Within q := by
  simp only [operand] at h
  simp only [Prod.mk.injEq] at h
  obtain ⟨hindex, rfl⟩ := h
  split at hindex
  · next small =>
      injection hindex with hindex
      subst hindex
      have place : (p.add c).1.toUInt16.toNat = (p.add c).1 := by
        rw [Nat.toUInt16_eq, UInt16.toNat_ofNat']
        exact Nat.mod_eq_of_lt small
      rw [place]
      exact ⟨get?_add p c, within_add p c⟩
  · cases hindex

end ExprCompiler.ConstantPool
