/-
# Fragments run straight through

What a plan, a conversion or a literal adds between the operands of a node has no
control flow of its own: no branch, no mark, and every operation with the
operands it has.  So all branches and marks of a tree are written by its nodes.
-/
import ExprCompiler.Code.Fragment
import ExprCompiler.Proofs.Code.Instruction

namespace ExprCompiler

/-- A proper directive that neither branches nor marks. -/
def Directive.Straight : Directive → Prop
  | .branch _ _ | .mark _ => False
  | d => d.Proper

theorem Directive.Straight.proper {d : Directive} (h : d.Straight) : d.Proper := by
  cases d with
  | branch kind label => exact trivial
  | mark label => exact trivial
  | _ => exact h

namespace Directive

/-- Operations without operands, one after the other. -/
theorem straight_ops {ops : List OpCode} (h : ∀ op ∈ ops, op.operandSize = 0) :
    ∀ d ∈ ops.map Directive.op, d.Straight := by
  intro d hd
  obtain ⟨op, hop, rfl⟩ := List.mem_map.mp hd
  exact h op hop

theorem straight_cons {d : Directive} {ds : List Directive} (h : d.Straight)
    (h' : ∀ d ∈ ds, d.Straight) : ∀ d' ∈ d :: ds, d'.Straight :=
  List.forall_mem_cons.mpr ⟨h, h'⟩

theorem straight_singleton {d : Directive} (h : d.Straight) : ∀ d' ∈ [d], d'.Straight :=
  straight_cons h (fun _ hd => absurd hd List.not_mem_nil)

theorem straight_append {ds ds' : List Directive} (h : ∀ d ∈ ds, d.Straight)
    (h' : ∀ d ∈ ds', d.Straight) : ∀ d ∈ ds ++ ds', d.Straight := by
  intro d hd
  rcases List.mem_append.mp hd with hd | hd
  · exact h d hd
  · exact h' d hd

end Directive

open Directive

/-! ## Numbers -/

theorem NumericKind.operandSize_implicitOps (source target : NumericKind) :
    ∀ op ∈ source.implicitOps target, op.operandSize = 0 := by
  cases source <;> cases target <;> decide

theorem NumericKind.operandSize_explicitOps (source target : NumericKind) (checked : Bool) :
    ∀ op ∈ source.explicitOps target checked, op.operandSize = 0 := by
  cases source <;> cases target <;> cases checked <;> decide

theorem ArithmeticOp.operandSize_opcode (op : ArithmeticOp) (checked unsigned : Bool) :
    (op.opcode checked unsigned).operandSize = 0 := by
  cases op <;> cases checked <;> cases unsigned <;> rfl

theorem CompareOp.operandSize_opcodes (op : CompareOp) (unsigned floating : Bool) :
    ∀ code ∈ op.opcodes unsigned floating, code.operandSize = 0 := by
  cases op <;> cases unsigned <;> cases floating <;> decide

theorem CompareOp.straight_negation (op : CompareOp) : ∀ d ∈ op.negation, d.Straight := by
  cases op with
  | ne => exact straight_singleton rfl
  | _ => exact fun d hd => absurd hd List.not_mem_nil

theorem narrowPower_straight (kind : NumericKind) (checked : Bool) :
    ∀ d ∈ narrowPower kind checked, d.Straight := by
  simp only [narrowPower]
  split
  · exact straight_ops (NumericKind.operandSize_explicitOps _ _ _)
  · exact fun d hd => absurd hd List.not_mem_nil

theorem powerDirectives_straight {slot : UInt8} {kind : NumericKind} {times : OpCode}
    (h : times.operandSize = 0) (n : Nat) :
    ∀ d ∈ powerDirectives slot kind times n, d.Straight := by
  fun_induction powerDirectives slot kind times n with
  | case1 => exact straight_singleton trivial
  | case2 => exact straight_singleton (Or.inl rfl)
  | case3 n _ _ _ ih =>
      exact straight_append ih (straight_cons rfl (straight_singleton h))
  | case4 n _ _ _ ih =>
      exact straight_append ih (straight_cons (Or.inl rfl) (straight_singleton h))

theorem ShiftOp.straight_directives (op : ShiftOp) (kind : NumericKind) :
    ∀ d ∈ op.directives kind, d.Straight := by
  refine straight_cons trivial (straight_cons rfl (straight_singleton ?_))
  cases op <;> cases kind.isUnsigned <;> rfl

/-! ## Values -/

theorem Literal.straight_directives (v : Literal) : ∀ d ∈ v.directives, d.Straight := by
  cases v with
  | bool b => cases b <;> exact straight_singleton rfl
  | null => exact straight_singleton rfl
  | _ => exact straight_singleton trivial

theorem Conversion.straight_directives (c : Conversion) : ∀ d ∈ c.directives, d.Straight := by
  simp only [Conversion.directives]
  cases c.kind with
  | numeric source target => exact straight_ops (NumericKind.operandSize_implicitOps _ _)
  | boxing value => exact straight_singleton (by simp [Straight, Proper])
  | user method => exact straight_singleton (Or.inl rfl)
  | _ => exact fun d hd => absurd hd List.not_mem_nil

theorem CastPlan.straight_directives (plan : CastPlan) : ∀ d ∈ plan.directives, d.Straight := by
  cases plan with
  | identity => exact fun d hd => absurd hd List.not_mem_nil
  | implicit c => exact c.straight_directives
  | numeric source target checked => exact straight_ops (NumericKind.operandSize_explicitOps _ _ _)
  | user method => exact straight_singleton (Or.inl rfl)
  | castClass target => exact straight_singleton (by simp [Straight, Proper])
  | unbox target => exact straight_singleton (by simp [Straight, Proper])

theorem CallTarget.straight_directives (call : CallTarget) :
    ∀ d ∈ call.directives, d.Straight := by
  unfold CallTarget.directives
  simp only
  split
  · refine straight_singleton ?_
    cases call.isStatic
    · exact Or.inr rfl
    · exact Or.inl rfl
  · exact straight_singleton trivial

theorem ComparePlan.straight_directives (plan : ComparePlan) (op : CompareOp) :
    ∀ d ∈ plan.directives op, d.Straight := by
  cases plan with
  | operator call negate =>
      refine straight_append call.straight_directives ?_
      cases negate
      · exact fun d hd => absurd hd List.not_mem_nil
      · exact straight_singleton rfl
  | numeric kind left right => exact straight_ops (CompareOp.operandSize_opcodes _ _ _)
  | enum kind => exact straight_ops (CompareOp.operandSize_opcodes _ _ _)
  | string mode =>
      refine straight_append ?_ op.straight_negation
      exact straight_cons trivial (straight_singleton (Or.inl rfl))
  | boolean => exact straight_cons rfl op.straight_negation
  | reference => exact straight_cons rfl op.straight_negation

theorem storeTemporary_straight (slot : Nat) : (storeTemporary slot).Straight := by
  simp only [storeTemporary]
  split
  · exact Or.inr rfl
  · exact trivial

theorem ValueAccess.straight_directive (access : ValueAccess) (isStatic : Bool)
    (member : HostId) : (access.directive isStatic member).Straight := by
  cases access <;> cases isStatic <;> simp [ValueAccess.directive, Straight, Proper]

/-! ## Refusals -/

namespace Emission.Laid

variable {em : Emission} {o e : Nat}

/-- A value is put into the first free temporary slot, if there is one. -/
theorem storeTemporary_inv {live : Nat} {ds : List Directive}
    (laid : em.Laid o (storeTemporary live :: ds) e) :
    ∃ m, em.fetch? o = some (.slot .setLocal (UInt8.ofNat live), m) ∧ em.Laid m ds e
      ∧ (UInt8.ofNat live).toNat = live ∧ live < em.localCount := by
  simp only [storeTemporary] at laid
  split at laid
  · next small =>
      obtain ⟨m, fetched, rest, room⟩ := laid.instruction_inv rfl
      have same : (UInt8.ofNat live).toNat = live := by
        rw [UInt8.toNat_ofNat']
        exact Nat.mod_eq_of_lt small
      refine ⟨m, fetched, rest, same, ?_⟩
      have := room _ rfl
      rwa [Nat.toUInt8_eq, same] at this
  · exact laid.refuse_inv.elim

/-- A call that is laid names its number of arguments in a byte. -/
theorem call_small {call : CallTarget} (laid : em.Laid o call.directives e) :
    call.conversions.length < 256 := by
  unfold CallTarget.directives at laid
  simp only at laid
  split at laid
  · next small => exact small
  · exact laid.refuse_inv.elim

end Emission.Laid

end ExprCompiler
