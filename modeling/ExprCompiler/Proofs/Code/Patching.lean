/-
# Patching branches

When all labels are known, the offset of every branch is written over the empty
operand it was emitted with.  Patches stand apart in the code, so each one
changes the bytes of its own operand and no others, and what is read there
afterwards is the distance from the end of the branch to its label
(`foldlM_patch`).  The range checks are what makes that exact: a distance that
is written fits its operand, so it is neither cut off nor turned negative.
-/
import ExprCompiler.Code.Emission
import ExprCompiler.Proofs.Code.Bytes

namespace ExprCompiler

namespace Patch

/-- How many operand bytes a patch has. -/
def width (p : Patch) : Nat := if p.long then 4 else 1

/-- A byte that a patch does not touch. -/
def Clear (p : Patch) (o : Nat) : Prop := o < p.operand ∨ p.finish ≤ o

/-- The distance that a machine reads in the operand of a patched branch. -/
def distance? (p : Patch) (c : Chunk) : Option Int :=
  if p.long then (c.readI32? p.operand).map Int32.toInt
  else (c.readByte? p.operand).map (fun b => b.toInt8.toInt)

/-- The distance depends on the operand bytes only. -/
theorem distance?_congr {p : Patch} {c c' : Chunk}
    (h : ∀ i, i < p.width → c'.readByte? (p.operand + i) = c.readByte? (p.operand + i)) :
    p.distance? c' = p.distance? c := by
  simp only [width] at h
  simp only [distance?]
  cases hlong : p.long with
  | true =>
      rw [hlong, if_pos rfl] at h
      have h0 := h 0 (by decide)
      have h1 := h 1 (by decide)
      have h2 := h 2 (by decide)
      have h3 := h 3 (by decide)
      rw [Nat.add_zero] at h0
      simp only [Chunk.readI32?, h0, h1, h2, h3]
  | false =>
      rw [hlong] at h
      have h0 := h 0 (by decide)
      rw [Nat.add_zero] at h0
      simp only [h0, Bool.false_eq_true, if_false]

end Patch

namespace Writer

/-- One patch: the label is known, other bytes stay, and the distance is exact. -/
theorem patch_ok {labels : Array Nat} {c c' : Chunk} {p : Patch}
    (h : patch labels c p = .ok c') (inside : p.operand + p.width ≤ c.size) :
    ∃ target, labels[p.label]? = some target ∧ c'.size = c.size
      ∧ (∀ o, o < p.operand ∨ p.operand + p.width ≤ o → c'.readByte? o = c.readByte? o)
      ∧ p.distance? c' = some ((target : Int) - p.finish) := by
  simp only [patch] at h
  simp only [Patch.width] at inside
  unfold Patch.distance? Patch.width
  cases known : labels[p.label]? with
  | none => rw [known] at h; cases h
  | some target =>
      rw [known] at h
      refine ⟨target, rfl, ?_⟩
      cases hlong : p.long with
      | true =>
          simp only [hlong, if_true] at h inside ⊢
          split at h
          · next range =>
              cases h
              refine ⟨Chunk.size_setBytes _ _ _, fun o ho =>
                Chunk.readByte?_setBytes_outside ho, ?_⟩
              rw [Chunk.patchI32, Chunk.readI32?_of_holds (Chunk.holds_setBytes inside)]
              exact congrArg some (Int32.toInt_ofInt_of_le range.1 range.2)
          · cases h
      | false =>
          simp only [hlong, Bool.false_eq_true, if_false] at h inside ⊢
          split at h
          · next range =>
              cases h
              refine ⟨Chunk.size_setByte _ _ _, fun o ho =>
                Chunk.readByte?_setByte_ne _ (by omega), ?_⟩
              rw [Chunk.patchI8, Chunk.readByte?_setByte_self _ (by omega), Option.map_some,
                Int8.toInt8_toUInt8]
              exact congrArg some (Int8.toInt_ofInt_of_le range.1 (by omega))
          · cases h

/-- All patches, for branches that stand apart in the code. -/
theorem foldlM_patch {labels : Array Nat} {ps : List Patch} {c c' : Chunk}
    (h : ps.foldlM (patch labels) c = .ok c')
    (ends : ∀ p ∈ ps, p.finish = p.operand + p.width)
    (inside : ∀ p ∈ ps, p.finish ≤ c.size)
    (apart : ps.Pairwise (fun p q => p.finish ≤ q.operand)) :
    c'.size = c.size
      ∧ (∀ o, (∀ p ∈ ps, p.Clear o) → c'.readByte? o = c.readByte? o)
      ∧ ∀ p ∈ ps, ∃ target, labels[p.label]? = some target
          ∧ p.distance? c' = some ((target : Int) - p.finish) := by
  induction ps generalizing c with
  | nil =>
      cases h
      exact ⟨rfl, fun _ _ => rfl, fun p hp => absurd hp List.not_mem_nil⟩
  | cons p ps ih =>
      rw [List.foldlM_cons] at h
      cases first : patch labels c p with
      | error fault => rw [first] at h; cases h
      | ok c₁ =>
          rw [first] at h
          have pEnds := ends p List.mem_cons_self
          have pInside := inside p List.mem_cons_self
          obtain ⟨target, known, size₁, same₁, distance₁⟩ := patch_ok first (pEnds ▸ pInside)
          obtain ⟨pApart, restApart⟩ := List.pairwise_cons.mp apart
          obtain ⟨size, same, distances⟩ := ih h
            (fun q hq => ends q (List.mem_cons_of_mem _ hq))
            (fun q hq => size₁ ▸ inside q (List.mem_cons_of_mem _ hq)) restApart
          refine ⟨size.trans size₁, ?_, ?_⟩
          · intro o clear
            rw [same o (fun q hq => clear q (List.mem_cons_of_mem _ hq))]
            exact same₁ o (pEnds ▸ clear p List.mem_cons_self)
          · intro q hq
            rcases List.mem_cons.mp hq with rfl | hq
            · -- later patches start after this one ends
              refine ⟨target, known, ?_⟩
              rw [Patch.distance?_congr (c := c₁)]
              · exact distance₁
              · intro i hi
                refine same _ (fun r hr => Or.inl ?_)
                have := pApart r hr
                omega
            · exact distances q hq

end Writer

end ExprCompiler
