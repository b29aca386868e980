/-
# The two passes agree

A trial pass lays code out with short branches, relaxation decides which have to
be long, and the emission pass writes the code under that plan.  Nothing ties
the passes together but the directives they are given.  Here they are run side
by side: after the same directives the pools are equal, and the real offset is
the trial offset plus three bytes for every long branch so far (`Agrees`).

Since branches are noted in order and no label falls inside one, the long
branches before an offset are those noted before it was reached.  So labels and
end fall where the plan says, and a branch planned short reaches its label.

Main result: `Layout.relax_agrees`.
-/
import ExprCompiler.Proofs.Code.Nodes
import ExprCompiler.Proofs.Code.Trial

namespace ExprCompiler

/-- Operations are used with as many operand bytes as they have. -/
def Directive.Sized : Directive → Prop
  | .op code => code.operandSize = 0
  | .opByte code _ => code.operandSize = 1
  | .opId code _ => code.operandSize = 2
  | .call code _ _ => code.operandSize = 3
  | _ => True

theorem Directive.Proper.sized {d : Directive} (h : d.Proper) : d.Sized := by
  cases d with
  | op code => exact h
  | opByte code place => rcases h with rfl | rfl <;> rfl
  | opId code id =>
      simp only [Proper, List.mem_cons, List.not_mem_nil, or_false] at h
      rcases h with rfl | rfl | rfl | rfl | rfl <;> rfl
  | call code id argc => rcases h with rfl | rfl <;> rfl
  | _ => exact trivial

namespace Layout

/-! ## Decisions -/

theorem map_fst_decisions (bs : List BranchRecord) : (decisions bs).map (·.1) = bs := by
  induction bs with
  | nil => rfl
  | cons b bs ih =>
      show b :: (decisions bs).map (·.1) = b :: bs
      rw [ih]

/-- Each branch is decided on by the decisions after it. -/
theorem decision_eq {bs : List BranchRecord} {front back : List (BranchRecord × Bool)}
    {r : BranchRecord} {long : Bool} (h : decisions bs = front ++ (r, long) :: back) :
    long = needsLong r back := by
  induction bs generalizing front with
  | nil => cases front <;> cases h
  | cons b bs ih =>
      have unfold_cons : decisions (b :: bs) = (b, needsLong b (decisions bs)) :: decisions bs :=
        rfl
      rw [unfold_cons] at h
      cases front with
      | nil =>
          cases h
          rfl
      | cons d front =>
          injection h with _ h
          exact ih h

/-- How many decisions are for long branches. -/
def longs (decided : List (BranchRecord × Bool)) : Nat := decided.countP (·.2)

theorem longs_append (ds ds' : List (BranchRecord × Bool)) :
    longs (ds ++ ds') = longs ds + longs ds' :=
  List.countP_append

theorem longBefore_append (ds ds' : List (BranchRecord × Bool)) (o : Nat) :
    longBefore (ds ++ ds') o = longBefore ds o + longBefore ds' o :=
  List.countP_append

/-- Branches that start before an offset count there if they are long. -/
theorem longBefore_eq_longs {ds : List (BranchRecord × Bool)} {o : Nat}
    (h : ∀ d ∈ ds, d.1.start < o) : longBefore ds o = longs ds := by
  refine List.countP_congr ?_
  intro d hd
  simp [h d hd]

/-- Branches that start at an offset or later do not count there. -/
theorem longBefore_eq_zero {ds : List (BranchRecord × Bool)} {o : Nat}
    (h : ∀ d ∈ ds, o ≤ d.1.start) : longBefore ds o = 0 := by
  refine List.countP_eq_zero.mpr ?_
  intro d hd
  have := h d hd
  simp only [Bool.and_eq_true, decide_eq_true_eq, not_and]
  omega

theorem shifted_mono {ds : List (BranchRecord × Bool)} {o o' : Nat} (h : o ≤ o') :
    shifted ds o ≤ shifted ds o' := by
  have : longBefore ds o ≤ longBefore ds o' := by
    refine List.countP_mono_left ?_
    intro d _ hd
    simp only [Bool.and_eq_true, decide_eq_true_eq] at hd ⊢
    exact ⟨hd.1, Nat.lt_of_lt_of_le hd.2 h⟩
  simp only [shifted]
  exact Nat.add_le_add h (Nat.mul_le_mul_left _ this)

end Layout

/-! ## The passes side by side -/

open Layout

/-- A final trial state and the decisions on its branches. -/
structure Decided (decided : List (BranchRecord × Bool)) (final : Trial) : Prop where
  noted : final.branches.toList = decided.map (·.1.pending)

/-- Where the end of a trial state falls: the branches so far are behind it and
all others ahead. -/
theorem Decided.shifted_offset {decided : List (BranchRecord × Bool)} {t final : Trial}
    (h : Decided decided final) (ordered : t.Ordered) (ahead : t.Extends final) :
    shifted decided t.offset
      = t.offset + longDelta * longs (decided.take t.branches.size) := by
  obtain ⟨-, later, branches, starts⟩ := ahead
  have whole := h.noted.symm.trans branches
  have front : (decided.take t.branches.size).map (·.1.pending) = t.branches.toList := by
    rw [List.map_take, whole, ← Array.length_toList, List.take_left]
  have back : (decided.drop t.branches.size).map (·.1.pending) = later := by
    rw [List.map_drop, whole, ← Array.length_toList, List.drop_left]
  have behind : longBefore (decided.take t.branches.size) t.offset
      = longs (decided.take t.branches.size) := by
    refine longBefore_eq_longs ?_
    intro d hd
    have := ordered.inside _ (front ▸ List.mem_map_of_mem hd)
    exact Nat.lt_of_lt_of_le (Nat.lt_add_of_pos_right (by decide)) this
  have none : longBefore (decided.drop t.branches.size) t.offset = 0 :=
    longBefore_eq_zero (fun d hd => starts _ (back ▸ List.mem_map_of_mem hd))
  simp only [shifted]
  conv => lhs; rw [← List.take_append_drop t.branches.size decided]
  rw [longBefore_append, behind, none, Nat.add_zero]

/-- A patch as the decisions call for it. -/
structure Foreseen (decided : List (BranchRecord × Bool)) (p : Patch) : Prop where
  split : ∃ front back r, decided = front ++ (r, p.long) :: back ∧ p.label = r.label
    ∧ p.finish = r.start + shortBranchSize + longDelta * longs (front ++ [(r, p.long)])

/-- A state of the trial pass and one of the emission pass after the same
directives. -/
structure Agrees (decided : List (BranchRecord × Bool)) (t : Trial) (w : Writer) : Prop where
  plan : w.plan.long.toList = decided.map (·.2)
  pool : w.pool = t.pool
  count : w.branchIndex = t.branches.size
  offset : w.offset = t.offset + longDelta * longs (decided.take t.branches.size)
  labels : ∀ k, w.labels.at? k = (t.labels.at? k).map (shifted decided)
  room : w.labels.offsets.size ≤ t.labels.offsets.size
  patches : ∀ p ∈ w.patches.toList, Foreseen decided p

namespace Agrees

variable {decided : List (BranchRecord × Bool)} {t t' final : Trial} {w : Writer}

theorem start {plan : BranchPlan} (h : plan.long.toList = decided.map (·.2)) :
    Agrees decided Trial.start (Writer.start plan) where
  plan := h
  pool := rfl
  count := rfl
  offset := rfl
  labels := fun _ => rfl
  room := Nat.le_refl _
  patches := fun _ h => absurd h List.not_mem_nil

/-- An instruction other than a branch has the same size in both passes. -/
theorem write {op : OpCode} {operands : List UInt8} {pool : ConstantPool}
    (h : Agrees decided t w) (size : 1 + operands.length = op.size) :
    Agrees decided { t with offset := t.offset + op.size, pool := pool }
      (({ w with pool := pool } : Writer).write op operands) where
  plan := h.plan
  pool := rfl
  count := h.count
  offset := by
    have before : ({ w with pool := pool } : Writer).offset = w.offset := rfl
    rw [Writer.offset_write, before, size, h.offset]
    exact Nat.add_right_comm _ _ _
  labels := h.labels
  room := h.room
  patches := h.patches

theorem reserve {op : OpCode} {operands : List UInt8} (h : Agrees decided t w)
    (size : 1 + operands.length = op.size) :
    Agrees decided (t.reserve op) (w.write op operands) := by
  have written : Agrees decided { t with offset := t.offset + op.size, pool := t.pool } _ :=
    h.write size
  have same : ({ w with pool := t.pool } : Writer) = w := by rw [← h.pool]
  rw [same] at written
  exact written

/-- Both passes give a constant the same operand. -/
theorem named {c : Constant} {op : UInt16 → OpCode} {f : UInt16 → OpCode × List UInt8}
    (h : Agrees decided t w) (same : ∀ index, (f index).1 = op index)
    (size : ∀ index, 1 + (f index).2.length = (op index).size)
    (taken : t.reserveWith c op = (t', none)) :
    ∃ w', w.writeWith c f = (w', none) ∧ Agrees decided t' w' := by
  obtain ⟨index, pool, found, rfl⟩ := Trial.reserveWith_ok taken
  refine ⟨({ w with pool := pool } : Writer).write (f index).1 (f index).2, ?_, ?_⟩
  · rw [← h.pool] at found
    obtain ⟨plan, chunk, pool', branchIndex, patches, labels, line⟩ := w
    simp only [Writer.writeWith]
    rw [found]
  · rw [← same index]
    exact h.write (by rw [same index]; exact size index)

/-- A branch is noted by the trial pass and decided on by the plan. -/
theorem branch {kind : BranchKind} {label : Nat} (h : Agrees decided t w)
    (final_ : Decided decided final) (taken : t.step (.branch kind label) = (t', none))
    (ahead : t'.Extends final) : Agrees decided t' (w.writeBranch kind label) := by
  cases taken
  obtain ⟨-, later, branches, -⟩ := ahead
  -- the decision on this branch stands behind those on the branches so far
  have whole : decided.map (·.1.pending)
          = t.branches.toList ++ ⟨t.offset, kind, label⟩ :: later := by
    rw [← final_.noted, branches, Array.toList_push, List.append_assoc]
    rfl
  obtain ⟨front, rest, split, hfront, hrest⟩ := List.map_eq_append_iff.mp whole
  obtain ⟨⟨r, long⟩, back, rfl, hr, -⟩ := List.map_eq_cons_iff.mp hrest
  have length : front.length = t.branches.size := by
    rw [← List.length_map, hfront, Array.length_toList]
  have isLong : w.plan.isLong w.branchIndex = long := by
    simp only [BranchPlan.isLong]
    rw [← Array.getElem?_toList, h.plan, h.count, split, List.map_append, List.map_cons,
      List.getElem?_append_right (Nat.le_of_eq (by rw [List.length_map, length])),
      List.length_map, length, Nat.sub_self]
    rfl
  have start : r.start = t.offset := congrArg PendingBranch.start hr
  have named : r.label = label := congrArg PendingBranch.label hr
  have before : longs (decided.take t.branches.size) = longs front := by
    rw [split, ← length, List.take_left]
  have after : decided.take (t.branches.size + 1) = front ++ [(r, long)] := by
    have : front ++ (r, long) :: back = (front ++ [(r, long)]) ++ back := by simp
    rw [split, this, ← length]
    exact List.take_left' (by simp)
  have grown : longs (front ++ [(r, long)]) = longs front + if long then 1 else 0 := by
    rw [longs_append]
    cases long <;> rfl
  have finish : (w.branchPatch label).finish
      = r.start + shortBranchSize + longDelta * longs (front ++ [(r, long)]) := by
    simp only [Writer.branchPatch, isLong, h.offset, before, start, grown, shortBranchSize,
      longDelta]
    cases long <;> simp <;> omega
  refine ⟨h.plan, h.pool, ?_, ?_, ?_, ?_, ?_⟩
  · simp only [Writer.writeBranch_eq, Array.size_push, h.count]
  · have : (w.writeBranch kind label).offset = (w.branchPatch label).finish := by
      show (w.write _ _).offset = _
      rw [Writer.offset_write, List.length_replicate]
      simp only [Writer.branchPatch]
      omega
    rw [this, finish, Array.size_push, after, start]
  · intro k
    rw [LabelTable.at?_touch]
    exact h.labels k
  · rw [LabelTable.size_touch]
    exact Nat.le_trans h.room (Nat.le_max_left _ _)
  · intro p hp
    simp only [Writer.writeBranch_eq, Array.toList_push, List.mem_append,
      List.mem_singleton] at hp
    rcases hp with old | rfl
    · exact h.patches p old
    · have hlong : (w.branchPatch label).long = long := isLong
      exact ⟨front, back, r, by rw [hlong]; exact split, named.symm, by rw [hlong]; exact finish⟩

theorem step {d : Directive} (h : Agrees decided t w) (final_ : Decided decided final)
    (ordered : t.Ordered) (sized : d.Sized) (taken : t.step d = (t', none))
    (ahead : t'.Extends final) : ∃ w', w.step d = (w', none) ∧ Agrees decided t' w' := by
  cases d with
  | line n =>
      cases taken
      exact ⟨_, rfl, h.plan, h.pool, h.count, h.offset, h.labels, h.room, h.patches⟩
  | op code =>
      cases taken
      exact ⟨_, rfl, h.reserve (by rw [OpCode.size, sized]; rfl)⟩
  | opByte code operand =>
      cases taken
      exact ⟨_, rfl, h.reserve (by rw [OpCode.size, sized]; rfl)⟩
  | constant c =>
      rw [Trial.step] at taken
      rw [Writer.step]
      refine h.named (fun index => ?_) (fun index => ?_) taken <;>
        (unfold Writer.pushConstant Trial.constantOp; split <;> rfl)
  | opId code id =>
      rw [Trial.step] at taken
      rw [Writer.step]
      exact h.named (fun _ => rfl) (fun _ => by rw [OpCode.size, sized]; rfl) taken
  | call code id argc =>
      rw [Trial.step] at taken
      rw [Writer.step]
      exact h.named (fun _ => rfl) (fun _ => by rw [OpCode.size, sized]; rfl) taken
  | branch kind label => exact ⟨_, rfl, h.branch final_ taken ahead⟩
  | mark label =>
      cases taken
      have here := final_.shifted_offset ordered ahead
      refine ⟨_, rfl, h.plan, h.pool, h.count, h.offset, fun k => ?_, ?_, h.patches⟩
      · rw [LabelTable.at?_mark, LabelTable.at?_mark]
        split
        · rw [h.offset, Option.map_some]
          exact congrArg some here.symm
        · exact h.labels k
      · rw [LabelTable.size_mark, LabelTable.size_mark]
        have := h.room
        omega
  | refuse fault => cases taken

theorem run {ds : List Directive} (h : Agrees decided t w) (final_ : Decided decided final)
    (ordered : t.Ordered) (sized : ∀ d ∈ ds, d.Sized) (taken : t.run ds = .ok final) :
    ∃ w', w.run ds = .ok w' ∧ Agrees decided final w' := by
  induction ds generalizing t w with
  | nil => cases taken; exact ⟨w, rfl, h⟩
  | cons d ds ih =>
      obtain ⟨t₁, first, rest⟩ := Trial.run_cons taken
      obtain ⟨w₁, wrote, h₁⟩ := h.step final_ ordered (sized d List.mem_cons_self) first
        (Trial.extends_run rest)
      obtain ⟨w', written, h'⟩ := ih h₁ (ordered.step first)
        (fun d hd => sized d (List.mem_cons_of_mem _ hd)) rest
      refine ⟨w', ?_, h'⟩
      rw [Writer.run, wrote]
      exact written

/-- All labels are marked in both passes, or in neither. -/
theorem complete {labels : List Nat} (h : Agrees decided t w)
    (complete : t.labels.complete = .ok labels) :
    w.labels.complete = .ok (labels.map (shifted decided)) := by
  have entries := LabelTable.complete_eq_ok_iff.mp complete
  have room : w.labels.offsets.size ≤ labels.length := by
    have : t.labels.offsets.size = labels.length := by
      rw [← Array.length_toList, entries, List.length_map]
    exact this ▸ h.room
  refine LabelTable.complete_eq_ok_iff.mpr (List.ext_getElem? ?_)
  intro k
  have same := h.labels k
  rw [LabelTable.at?_of_complete complete, LabelTable.at?] at same
  rw [Array.getElem?_toList, List.getElem?_map, List.getElem?_map]
  by_cases inside : k < labels.length
  · rw [List.getElem?_eq_getElem inside] at same ⊢
    cases held : w.labels.offsets[k]? with
    | none => rw [held] at same; cases same
    | some entry =>
        rw [held] at same
        exact congrArg some same
  · rw [List.getElem?_eq_none (Nat.le_of_not_lt inside),
      Array.getElem?_eq_none (Nat.le_trans room (Nat.le_of_not_lt inside))]
    rfl

end Agrees

/-! ## Every branch reaches -/

/-- A branch that was decided to be short reaches its target, wherever the long
branches in between have moved it. -/
theorem Layout.short_reaches {bs : List BranchRecord} {front back : List (BranchRecord × Bool)}
    {r : BranchRecord} (h : decisions bs = front ++ (r, false) :: back)
    (rising : bs.Pairwise (fun a b => a.start < b.start))
    (apart : r.target ≤ r.start ∨ r.start + shortBranchSize ≤ r.target) :
    r.start + shortBranchSize + longDelta * longs front ≤ shifted (decisions bs) r.target
      ∧ shifted (decisions bs) r.target
        ≤ r.start + shortBranchSize + longDelta * longs front + shortReach := by
  have short := decision_eq h
  simp only [needsLong] at short
  split at short
  · cases short
  · next forward =>
      rw [eq_comm, decide_eq_false_iff_not] at short
      have behind : ∀ d ∈ front, d.1.start < r.start := by
        rw [← map_fst_decisions bs, h, List.map_append, List.pairwise_append] at rising
        intro d hd
        exact rising.2.2 d.1 (List.mem_map_of_mem hd) r (by simp)
      have all : longBefore front r.target = longs front :=
        longBefore_eq_longs (fun d hd => by have := behind d hd; omega)
      have own : longBefore ((r, false) :: back) r.target = longBefore back r.target := rfl
      rw [shifted, h, longBefore_append, all, own]
      simp only [longDelta, shortBranchSize, shortReach] at *
      omega

/-- A result, or a branch that is too far, which takes code that is too `large`. -/
def Writer.Lands {α : Type} (large : Prop) (x : Except Fault α) : Prop :=
  (∃ a, x = .ok a) ∨ (x = .error .branchTooFar ∧ large)

namespace Writer

variable {large : Prop}

/-- A patch needs a known label within reach, and nothing of the code. -/
theorem patch_lands {labels : Array Nat} {p : Patch} {target : Nat}
    (known : labels[p.label]? = some target)
    (long : ¬ large → -0x80000000 ≤ (target : Int) - p.finish
      ∧ (target : Int) - p.finish < 0x80000000)
    (short : p.long = false → -128 ≤ (target : Int) - p.finish
      ∧ (target : Int) - p.finish ≤ 127) (c : Chunk) :
    Lands large (patch labels c p) := by
  simp only [patch, known]
  cases hlong : p.long with
  | true =>
      rw [if_pos rfl]
      split
      · exact Or.inl ⟨_, rfl⟩
      · next far => exact Or.inr ⟨rfl, Classical.not_not.mp fun h => far (long h)⟩
  | false =>
      rw [if_neg (by simp), if_pos (short hlong)]
      exact Or.inl ⟨_, rfl⟩

theorem foldlM_patch_lands {labels : Array Nat} {ps : List Patch}
    (h : ∀ p ∈ ps, ∀ c, Lands large (patch labels c p)) (c : Chunk) :
    Lands large (ps.foldlM (patch labels) c) := by
  induction ps generalizing c with
  | nil => exact Or.inl ⟨c, rfl⟩
  | cons p ps ih =>
      rw [List.foldlM_cons]
      rcases h p List.mem_cons_self c with ⟨c₁, first⟩ | ⟨far, isLarge⟩
      · rw [first]
        exact ih (fun q hq => h q (List.mem_cons_of_mem _ hq)) c₁
      · rw [far]
        exact Or.inr ⟨rfl, isLarge⟩

theorem finish_lands {w : Writer} {labels : List Nat} (count : w.branchIndex = w.plan.count)
    (complete : w.labels.complete = .ok labels)
    (reach : ∀ p ∈ w.patches.toList, ∀ c, Lands large (patch labels.toArray c p)) (n : Nat) :
    (∃ em, w.finish n = .ok em ∧ em.labels = labels)
      ∨ (w.finish n = .error .branchTooFar ∧ large) := by
  simp only [finish]
  rw [if_neg (fun different => different count)]
  simp only [← Array.foldlM_toList, complete, bind, Except.bind, pure, Except.pure]
  rcases foldlM_patch_lands reach w.chunk with ⟨chunk, patched⟩ | ⟨far, isLarge⟩
  · rw [patched]
    exact Or.inl ⟨_, rfl, rfl⟩
  · rw [far]
    exact Or.inr ⟨rfl, isLarge⟩

end Writer

namespace Layout

/-- Under the plan of a layout, every branch reaches its label. -/
theorem patch_reaches {l : Layout} {t : Trial} {w : Writer} {p : Patch} (laid : t.layout = .ok l)
    (ordered : t.Ordered) (foreseen : Foreseen (decisions l.branches) p)
    (inside : p.finish ≤ w.offset) (size : w.offset = l.relax.size) (c : Chunk) :
    Writer.Lands (0x80000000 ≤ l.relax.size)
      (Writer.patch l.relax.labels.toArray c p) := by
  obtain ⟨complete, laidSize, noted, targets⟩ := Trial.layout_ok laid
  obtain ⟨front, back, r, split, label, finish⟩ := foreseen.split
  have mem : r ∈ l.branches := by
    rw [← map_fst_decisions l.branches, split]
    simp
  have known : t.labels.at? r.label = some r.target := by
    rw [LabelTable.at?_of_complete complete]
    exact targets r mem
  have pending : r.pending ∈ t.branches.toList := noted ▸ List.mem_map_of_mem mem
  have target : l.relax.labels.toArray[p.label]?
      = some (shifted (decisions l.branches) r.target) := by
    rw [List.getElem?_toArray, label]
    show (l.labels.map (shifted (decisions l.branches)))[r.label]? = _
    rw [List.getElem?_map, targets r mem]
    rfl
  have bound : shifted (decisions l.branches) r.target ≤ l.relax.size := by
    refine shifted_mono ?_
    rw [laidSize]
    exact ordered.labels _ _ known
  refine Writer.patch_lands target (fun small => by omega) (fun short => ?_) c
  rw [short] at split finish
  have none : longs (front ++ [(r, false)]) = longs front := longs_append front [(r, false)]
  rw [none] at finish
  have rising := ordered.rising
  rw [noted, List.pairwise_map] at rising
  have reaches := short_reaches split rising (ordered.apart _ pending _ _ known)
  simp only [shortReach] at reaches
  omega

/-- A layout that was accepted is emitted as planned, unless it is too large. -/
theorem emission_of_layout {ds : List Directive} {l : Layout} (sized : ∀ d ∈ ds, d.Sized)
    (h : Layout.ofDirectives ds = .ok l) :
    (∃ em, Emission.ofDirectives l.relax ds = .ok em ∧ em.labels = l.relax.labels
        ∧ em.chunk.size = l.relax.size)
      ∨ (Emission.ofDirectives l.relax ds = .error .branchTooFar
        ∧ 0x80000000 ≤ l.relax.size) := by
  obtain ⟨t, ran, laid⟩ := ofDirectives_ok h
  obtain ⟨complete, laidSize, noted, -⟩ := Trial.layout_ok laid
  have ordered := Trial.Ordered.start.run ran
  have decided : Decided (decisions l.branches) t := by
    refine ⟨?_⟩
    rw [noted]
    conv => lhs; rw [← map_fst_decisions l.branches]
    rw [List.map_map]
    rfl
  have begun : Agrees (decisions l.branches) Trial.start (Writer.start l.relax) := .start rfl
  obtain ⟨w, wrote, agrees⟩ := begun.run decided .start sized ran
  have apart := (Writer.Apart.start l.relax).run wrote
  have size : w.offset = l.relax.size := by
    have still : t.Extends t := .of_still rfl (Nat.le_refl _)
    rw [agrees.offset, ← decided.shifted_offset ordered still, ← laidSize]
    rfl
  have count : w.branchIndex = w.plan.count := by
    rw [agrees.count, BranchPlan.count, ← Array.length_toList, ← Array.length_toList,
      agrees.plan, decided.noted, List.length_map, List.length_map]
  have emits : Emission.ofDirectives l.relax ds = w.finish (Directive.localCount ds) := by
    simp only [Emission.ofDirectives]
    rw [wrote]
    rfl
  rw [emits]
  have finishes := Writer.finish_lands count (agrees.complete complete)
    (fun p hp => patch_reaches laid ordered (agrees.patches p hp) (apart.inside p hp) size)
    (Directive.localCount ds)
  rcases finishes with ⟨em, finished, labels⟩ | far
  · exact Or.inl ⟨em, finished, labels, by rw [(Writer.Ends.of_finish apart finished).2, size]⟩
  · exact Or.inr far

end Layout

/-- A tree that can be laid out is compiled, unless its code is too large. -/
theorem Element.compile_of_layout {tree : Element} {l : Layout} (h : tree.layout = .ok l) :
    (∃ c, tree.compile = .ok c)
      ∨ (tree.compile = .error (.internal .branchTooFar) ∧ 0x80000000 ≤ l.relax.size) := by
  obtain ⟨root, laid⟩ := layout_ok h
  have emits := Layout.emission_of_layout (fun d hd => (tree.directives_proper d hd).sized) laid
  rcases emits with ⟨em, emitted, labels, size⟩ | ⟨far, large⟩
  · have kept : checkPlan l.relax em = .ok () := by
      rw [checkPlan, if_neg (fun different => different labels),
        if_neg (fun different => different size)]
    refine Or.inl ⟨⟨em, tree.type⟩, ?_⟩
    simp only [compile, h, emit_eq root, emitted, kept, liftFault, Except.mapError, bind,
      Except.bind, pure, Except.pure]
  · refine Or.inr ⟨?_, large⟩
    simp only [compile, h, emit_eq root, far, liftFault, Except.mapError, bind, Except.bind]

/-- The trial pass, relaxation and the emission pass agree: no distance of an
accepted layout is taken across a label inside a branch, the same directives are
emitted under its plan with the labels and the size of the plan, and so every
tree that can be laid out is compiled.  Only code of 2 GiB can be too large for a
branch, and nothing else can go wrong. -/
theorem Layout.relax_agrees :
    (∀ (ds : List Directive) (l : Layout), (∀ d ∈ ds, d.Sized) →
      Layout.ofDirectives ds = .ok l →
        (∀ b ∈ l.branches, ¬ b.target ≤ b.start → b.start + shortBranchSize ≤ b.target)
        ∧ (l.relax.size < 0x80000000 →
          ∃ em, Emission.ofDirectives l.relax ds = .ok em ∧ em.labels = l.relax.labels
            ∧ em.chunk.size = l.relax.size))
    ∧ ∀ (tree : Element) (l : Layout), tree.layout = .ok l →
        (l.relax.size < 0x80000000 → ∃ c, tree.compile = .ok c)
        ∧ ∀ error, tree.compile = .error error → error = .internal .branchTooFar := by
  refine ⟨?_, ?_⟩
  · intro ds l sized h
    refine ⟨?_, ?_⟩
    · intro b hb ahead
      exact (apart_of_ofDirectives h b hb).resolve_left ahead
    · intro small
      exact (emission_of_layout sized h).resolve_right fun far => Nat.not_le_of_lt small far.2
  · intro tree l h
    rcases Element.compile_of_layout h with ⟨c, compiled⟩ | ⟨far, large⟩
    · refine ⟨fun _ => ⟨c, compiled⟩, ?_⟩
      intro error failed
      rw [compiled] at failed
      cases failed
    · refine ⟨fun small => absurd large (Nat.not_le_of_lt small), ?_⟩
      intro error failed
      rw [far] at failed
      cases failed
      rfl

/-- A branch back to a label and one ahead over it. -/
theorem Layout.relax_agrees_loop :
    ∃ l, Layout.ofDirectives [.mark 0, .branch .ifFalse 1, .branch .always 0, .mark 1, .op .ret]
        = .ok l ∧ l.relax.size < 0x80000000
      ∧ ∃ em, Emission.ofDirectives l.relax
          [.mark 0, .branch .ifFalse 1, .branch .always 0, .mark 1, .op .ret] = .ok em
        ∧ em.labels = l.relax.labels ∧ em.chunk.size = l.relax.size := by
  have laid : Layout.ofDirectives
      [.mark 0, .branch .ifFalse 1, .branch .always 0, .mark 1, .op .ret]
        = .ok ⟨[⟨0, .ifFalse, 1, 4⟩, ⟨2, .always, 0, 0⟩], [0, 4], 5⟩ := by cbv
  have small : (Layout.relax ⟨[⟨0, .ifFalse, 1, 4⟩, ⟨2, .always, 0, 0⟩], [0, 4], 5⟩).size
      < 0x80000000 := by decide
  refine ⟨_, laid, small, (Layout.relax_agrees.1 _ _ ?_ laid).2 small⟩
  simp [Directive.Sized, OpCode.operandSize]

end ExprCompiler
