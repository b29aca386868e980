/-
# The trial pass

Branches are noted in the order they are laid out, one after the other, and a
label is always put at the end of what is there.  So a label never falls inside
a branch: it is at or before the start of the branch, or past its end.  That is
what the distances of relaxation rest on (`Layout.apart_of_ofDirectives`).
-/
import ExprCompiler.Code.Layout
import ExprCompiler.Proofs.Code.Labels
import ExprCompiler.Proofs.Results

namespace ExprCompiler

/-- A branch as it was noted, before its target was known. -/
def BranchRecord.pending (r : BranchRecord) : PendingBranch := ⟨r.start, r.kind, r.label⟩

namespace Trial

/-- What holds in every state of the pass. -/
structure Ordered (t : Trial) : Prop where
  inside : ∀ b ∈ t.branches.toList, b.start + shortBranchSize ≤ t.offset
  rising : t.branches.toList.Pairwise (fun a b => a.start < b.start)
  labels : ∀ k o, t.labels.at? k = some o → o ≤ t.offset
  apart : ∀ b ∈ t.branches.toList, ∀ k o, t.labels.at? k = some o →
    o ≤ b.start ∨ b.start + shortBranchSize ≤ o

theorem Ordered.start : Trial.start.Ordered where
  inside := fun _ h => absurd h List.not_mem_nil
  rising := List.Pairwise.nil
  labels := fun k o h => by cases h
  apart := fun _ h => absurd h List.not_mem_nil

/-- An instruction other than a branch moves the end. -/
theorem Ordered.advance {t t' : Trial} (h : t.Ordered) (branches : t'.branches = t.branches)
    (labels : t'.labels = t.labels) (offset : t.offset ≤ t'.offset) : t'.Ordered where
  inside := branches ▸ fun b hb => Nat.le_trans (h.inside b hb) offset
  rising := branches ▸ h.rising
  labels := labels ▸ fun k o hk => Nat.le_trans (h.labels k o hk) offset
  apart := branches ▸ labels ▸ h.apart

theorem reserveWith_ok {t t' : Trial} {c : Constant} {op : UInt16 → OpCode}
    (h : t.reserveWith c op = (t', none)) :
    ∃ index pool, t.pool.operand c = (.ok index, pool)
      ∧ t' = { t with offset := t.offset + (op index).size, pool := pool } := by
  obtain ⟨offset, pool, branches, labels⟩ := t
  simp only [reserveWith] at h
  cases found : pool.operand c with
  | mk result pool' =>
      rw [found] at h
      cases result with
      | error fault => simp at h
      | ok index =>
          simp only [Prod.mk.injEq, and_true] at h
          exact ⟨index, pool', rfl, h.symm⟩

theorem Ordered.step {t t' : Trial} {d : Directive} (h : t.Ordered)
    (taken : t.step d = (t', none)) : t'.Ordered := by
  have named {c : Constant} {op : UInt16 → OpCode} (taken : t.reserveWith c op = (t', none)) :
      t'.Ordered := by
    obtain ⟨index, pool, -, rfl⟩ := reserveWith_ok taken
    exact h.advance rfl rfl (Nat.le_add_right _ _)
  cases d with
  | line n => cases taken; exact h
  | op code => cases taken; exact h.advance rfl rfl (Nat.le_add_right _ _)
  | opByte code operand => cases taken; exact h.advance rfl rfl (Nat.le_add_right _ _)
  | constant c => exact named taken
  | opId code id => rw [Trial.step] at taken; exact named taken
  | call code id argc => rw [Trial.step] at taken; exact named taken
  | branch kind label =>
      cases taken
      refine ⟨?_, ?_, ?_, ?_⟩
      · intro b hb
        rw [Array.toList_push] at hb
        rcases List.mem_append.mp hb with old | new
        · exact Nat.le_trans (h.inside b old) (Nat.le_add_right _ _)
        · cases List.mem_singleton.mp new
          exact Nat.le_refl _
      · rw [Array.toList_push, List.pairwise_append]
        refine ⟨h.rising, List.pairwise_singleton _ _, ?_⟩
        intro a ha b hb
        rw [List.mem_singleton.mp hb]
        exact Nat.lt_of_lt_of_le (Nat.lt_add_of_pos_right (by decide)) (h.inside a ha)
      · intro k o hk
        rw [LabelTable.at?_touch] at hk
        exact Nat.le_trans (h.labels k o hk) (Nat.le_add_right _ _)
      · intro b hb k o hk
        rw [LabelTable.at?_touch] at hk
        rw [Array.toList_push] at hb
        rcases List.mem_append.mp hb with old | new
        · exact h.apart b old k o hk
        · rw [List.mem_singleton.mp new]
          exact Or.inl (h.labels k o hk)
  | mark label =>
      cases taken
      refine ⟨h.inside, h.rising, ?_, ?_⟩
      · intro k o hk
        rw [LabelTable.at?_mark] at hk
        split at hk
        · cases hk
          exact Nat.le_refl _
        · exact h.labels k o hk
      · intro b hb k o hk
        rw [LabelTable.at?_mark] at hk
        split at hk
        · cases hk
          exact Or.inr (h.inside b hb)
        · exact h.apart b hb k o hk
  | refuse fault => cases taken

theorem run_cons {t t' : Trial} {d : Directive} {ds : List Directive}
    (h : t.run (d :: ds) = .ok t') :
    ∃ t₁, t.step d = (t₁, none) ∧ t₁.run ds = .ok t' := by
  simp only [run] at h
  cases taken : t.step d with
  | mk t₁ fault =>
      rw [taken] at h
      cases fault with
      | none => exact ⟨t₁, rfl, h⟩
      | some fault => cases h

theorem run_eq_foldlM (t : Trial) (ds : List Directive) :
    t.run ds = ds.foldlM (fun t d =>
      match t.step d with
      | (t', none) => .ok t'
      | (_, some fault) => .error fault) t := by
  induction ds generalizing t with
  | nil => rfl
  | cons d ds ih =>
      rw [run, List.foldlM_cons]
      rcases t.step d with ⟨t', _ | fault⟩
      · exact ih t'
      · rfl

theorem Ordered.run {ds : List Directive} {t t' : Trial} (h : t.Ordered)
    (run : t.run ds = .ok t') : t'.Ordered := by
  induction ds generalizing t with
  | nil => cases run; exact h
  | cons d ds ih =>
      obtain ⟨t₁, taken, rest⟩ := run_cons run
      exact ih (h.step taken) rest

/-! ## What is still to come -/

/-- The branches of a later state are those so far and some that start later. -/
def Extends (t t' : Trial) : Prop :=
  t.offset ≤ t'.offset ∧ ∃ later, t'.branches.toList = t.branches.toList ++ later
    ∧ ∀ b ∈ later, t.offset ≤ b.start

theorem Extends.of_still {t t' : Trial} (branches : t'.branches = t.branches)
    (offset : t.offset ≤ t'.offset) : t.Extends t' :=
  ⟨offset, [], by rw [branches, List.append_nil], fun _ h => absurd h List.not_mem_nil⟩

theorem Extends.trans {t t' t'' : Trial} (h : t.Extends t') (h' : t'.Extends t'') :
    t.Extends t'' := by
  obtain ⟨le, later, branches, start⟩ := h
  obtain ⟨le', later', branches', start'⟩ := h'
  refine ⟨Nat.le_trans le le', later ++ later', ?_, ?_⟩
  · rw [branches', branches, List.append_assoc]
  · intro b hb
    rcases List.mem_append.mp hb with hb | hb
    · exact start b hb
    · exact Nat.le_trans le (start' b hb)

theorem extends_step {t t' : Trial} {d : Directive} (taken : t.step d = (t', none)) :
    t.Extends t' := by
  have named {c : Constant} {op : UInt16 → OpCode} (taken : t.reserveWith c op = (t', none)) :
      t.Extends t' := by
    obtain ⟨index, pool, -, rfl⟩ := reserveWith_ok taken
    exact .of_still rfl (Nat.le_add_right _ _)
  cases d with
  | line n => cases taken; exact .of_still rfl (Nat.le_refl _)
  | op code => cases taken; exact .of_still rfl (Nat.le_add_right _ _)
  | opByte code operand => cases taken; exact .of_still rfl (Nat.le_add_right _ _)
  | constant c => exact named taken
  | opId code id => rw [Trial.step] at taken; exact named taken
  | call code id argc => rw [Trial.step] at taken; exact named taken
  | branch kind label =>
      cases taken
      refine ⟨Nat.le_add_right _ _, [⟨t.offset, kind, label⟩], Array.toList_push, ?_⟩
      intro b hb
      cases List.mem_singleton.mp hb
      exact Nat.le_refl _
  | mark label => cases taken; exact .of_still rfl (Nat.le_refl _)
  | refuse fault => cases taken

theorem extends_run {ds : List Directive} {t t' : Trial} (run : t.run ds = .ok t') :
    t.Extends t' := by
  induction ds generalizing t with
  | nil => cases run; exact .of_still rfl (Nat.le_refl _)
  | cons d ds ih =>
      obtain ⟨t₁, taken, rest⟩ := run_cons run
      exact (extends_step taken).trans (ih rest)

/-! ## The layout -/

theorem layout_ok {t : Trial} {l : Layout} (h : t.layout = .ok l) :
    t.labels.complete = .ok l.labels ∧ l.size = t.offset
      ∧ t.branches.toList = l.branches.map BranchRecord.pending
      ∧ ∀ r ∈ l.branches, l.labels[r.label]? = some r.target := by
  simp only [layout] at h
  obtain ⟨labels, complete, rest⟩ := bind_eq_ok h
  obtain ⟨branches, resolved, done⟩ := bind_eq_ok rest
  cases done
  refine ⟨complete, rfl, ?_⟩
  have each := mapM_eq_ok resolved
  clear h rest resolved
  generalize t.branches.toList = noted at each
  induction each with
  | nil => exact ⟨rfl, fun _ h => absurd h List.not_mem_nil⟩
  | @cons b r bs rs found _ ih =>
      simp only [List.getElem?_toArray] at found
      split at found
      · next target known =>
          cases found
          exact ⟨congrArg _ ih.1, List.forall_mem_cons.mpr ⟨known, ih.2⟩⟩
      · cases found

end Trial

theorem Layout.ofDirectives_ok {ds : List Directive} {l : Layout}
    (h : Layout.ofDirectives ds = .ok l) :
    ∃ t, Trial.start.run ds = .ok t ∧ t.layout = .ok l :=
  bind_eq_ok h

/-- No label of a layout falls inside a branch. -/
theorem Layout.apart_of_ofDirectives {ds : List Directive} {l : Layout}
    (h : Layout.ofDirectives ds = .ok l) :
    ∀ b ∈ l.branches, b.target ≤ b.start ∨ b.start + shortBranchSize ≤ b.target := by
  obtain ⟨t, run, laid⟩ := ofDirectives_ok h
  obtain ⟨complete, -, noted, targets⟩ := Trial.layout_ok laid
  have ordered := Trial.Ordered.start.run run
  intro r hr
  have pending : r.pending ∈ t.branches.toList := noted ▸ List.mem_map_of_mem hr
  refine ordered.apart r.pending pending r.label r.target ?_
  rw [LabelTable.at?_of_complete complete]
  exact targets r hr

end ExprCompiler
