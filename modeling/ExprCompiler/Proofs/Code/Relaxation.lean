/-
# Relaxation makes no branch long without need

A choice of encodings is a set of branches, those that are long.  It works if every
branch that does not go forward is in it, and every other branch reaches its target over
the bytes that the long branches in between have gained.  Making a branch long can push
others out of reach, so it is not obvious that there is a least choice that works, nor
that one pass from the last branch to the first finds it.

The pass is right because a branch depends on later branches only: those between it and
its target start after it.  So the decision on a branch is the condition itself, with the
decisions on all branches in place of those on the later ones (`isLong_iff`), and by
induction from the last branch, whatever is long is long in every choice that works.

Main result: `Layout.relax_least`.
-/
import Mathlib.Data.Fintype.Fin
import ExprCompiler.Proofs.Code.Agreement

namespace ExprCompiler

theorem countP_ofFn {α : Type} {n : Nat} (f : Fin n → α) (p : α → Bool) :
    (List.ofFn f).countP p = (Finset.univ.filter fun i => p (f i) = true).card := by
  induction n with
  | zero => rfl
  | succ n ih =>
      rw [List.ofFn_succ, List.countP_cons, ih, Fin.card_filter_univ_succ]
      split <;> rfl

namespace Layout

variable {l : Layout}

/-! ## Choices of encodings -/

/-- A branch by its place. -/
def branch (l : Layout) (i : Fin l.branches.length) : BranchRecord := l.branches.get i

/-- How many branches of a set start between a branch and its target. -/
def between (l : Layout) (S : Finset (Fin l.branches.length)) (i : Fin l.branches.length) : Nat :=
  (S.filter fun j =>
    (l.branch i).start < (l.branch j).start ∧ (l.branch j).start < (l.branch i).target).card

/-- If exactly the branches of a set are long, every branch can be encoded. -/
structure Workable (l : Layout) (S : Finset (Fin l.branches.length)) : Prop where
  backward : ∀ i, (l.branch i).target ≤ (l.branch i).start → i ∈ S
  reaches : ∀ i, i ∉ S →
    ((l.branch i).target : Int) - ((l.branch i).start + shortBranchSize)
      + longDelta * l.between S i ≤ shortReach

/-- Where an offset falls, if exactly the branches of a set are long. -/
def placed (l : Layout) (S : Finset (Fin l.branches.length)) (offset : Nat) : Nat :=
  offset + longDelta * (S.filter fun j => (l.branch j).start < offset).card

/-- The branches that relaxation makes long. -/
def longSet (l : Layout) : Finset (Fin l.branches.length) :=
  Finset.univ.filter fun i => l.relax.isLong i = true

theorem mem_longSet {i : Fin l.branches.length} : i ∈ l.longSet ↔ l.relax.isLong i = true := by
  rw [longSet, Finset.mem_filter]
  exact and_iff_right (Finset.mem_univ i)

/-- More long branches move nothing to the front. -/
theorem placed_mono {S S' : Finset (Fin l.branches.length)} (h : S ⊆ S') (offset : Nat) :
    l.placed S offset ≤ l.placed S' offset := by
  have more := Finset.card_le_card (Finset.filter_subset_filter
    (fun j => (l.branch j).start < offset) h)
  exact Nat.add_le_add_left (Nat.mul_le_mul_left _ more) offset

/-! ## The decisions by place -/

theorem length_decisions (bs : List BranchRecord) : (decisions bs).length = bs.length := by
  rw [← List.length_map Prod.fst, map_fst_decisions]

theorem decisions_eq_ofFn (l : Layout) :
    decisions l.branches = List.ofFn fun i => (l.branch i, l.relax.isLong i) := by
  refine List.ext_getElem (by rw [length_decisions, List.length_ofFn]) ?_
  intro k hk hk'
  rw [List.getElem_ofFn]
  refine Prod.ext ?_ ?_
  · have inside : k < l.branches.length := by rwa [length_decisions] at hk
    show ((decisions l.branches)[k]).1 = l.branches[k]
    have first := congrArg (·[k]?) (map_fst_decisions l.branches)
    simp only [List.getElem?_map, List.getElem?_eq_getElem hk, List.getElem?_eq_getElem inside]
      at first
    exact Option.some.inj first
  · show ((decisions l.branches)[k]).2 = (((decisions l.branches).map (·.2)).toArray[k]?).getD false
    rw [List.getElem?_toArray, List.getElem?_map, List.getElem?_eq_getElem hk]
    rfl

theorem decisions_split (l : Layout) (i : Fin l.branches.length) :
    ∃ front back, decisions l.branches = front ++ (l.branch i, l.relax.isLong i) :: back := by
  have inside : (i : Nat) < (decisions l.branches).length := by
    rw [length_decisions]
    exact i.isLt
  have here : (decisions l.branches)[(i : Nat)] = (l.branch i, l.relax.isLong i) := by
    rw [List.getElem_of_eq l.decisions_eq_ofFn, List.getElem_ofFn]
  refine ⟨(decisions l.branches).take i, (decisions l.branches).drop (i + 1), ?_⟩
  rw [← here, List.getElem_cons_drop, List.take_append_drop]

theorem longBefore_decisions (l : Layout) (offset : Nat) :
    longBefore (decisions l.branches) offset
      = (l.longSet.filter fun j => (l.branch j).start < offset).card := by
  rw [longBefore, decisions_eq_ofFn, countP_ofFn, longSet, Finset.filter_filter]
  simp only [Bool.and_eq_true, decide_eq_true_eq]

theorem shifted_eq_placed (l : Layout) (offset : Nat) :
    shifted (decisions l.branches) offset = l.placed l.longSet offset := by
  rw [shifted, longBefore_decisions, placed]

/-- The long branches after a branch that start before its target are those between the
two, for earlier branches start earlier. -/
theorem longBefore_eq_between (ordered : l.branches.Pairwise (·.start < ·.start))
    {i : Fin l.branches.length} {front back : List (BranchRecord × Bool)}
    (split : decisions l.branches = front ++ (l.branch i, l.relax.isLong i) :: back) :
    longBefore back (l.branch i).target = l.between l.longSet i := by
  have starts : (decisions l.branches).Pairwise (fun d d' => d.1.start < d'.1.start) := by
    rw [← map_fst_decisions l.branches, List.pairwise_map] at ordered
    exact ordered
  rw [split, List.pairwise_append, List.pairwise_cons] at starts
  obtain ⟨-, ⟨after, -⟩, before⟩ := starts
  have counted : l.between l.longSet i = (decisions l.branches).countP (fun d =>
      d.2 && (decide ((l.branch i).start < d.1.start)
        && decide (d.1.start < (l.branch i).target))) := by
    rw [decisions_eq_ofFn, countP_ofFn, between, longSet, Finset.filter_filter]
    simp only [Bool.and_eq_true, decide_eq_true_eq]
  have none : front.countP (fun d => d.2 && (decide ((l.branch i).start < d.1.start)
      && decide (d.1.start < (l.branch i).target))) = 0 := by
    refine List.countP_eq_zero.mpr ?_
    intro d hd
    have earlier : d.1.start < (l.branch i).start := before d hd _ List.mem_cons_self
    simp only [Bool.and_eq_true, decide_eq_true_eq, not_and]
    omega
  rw [counted, split, List.countP_append, none, Nat.zero_add, List.countP_cons_of_neg (by simp)]
  refine List.countP_congr ?_
  intro d hd
  simp [after d hd]

/-- A branch is long exactly if the branches that are long leave it no choice. -/
theorem isLong_iff (ordered : l.branches.Pairwise (·.start < ·.start))
    (i : Fin l.branches.length) :
    l.relax.isLong i = true ↔ (l.branch i).target ≤ (l.branch i).start
      ∨ shortReach < (l.branch i).target - ((l.branch i).start + shortBranchSize)
        + longDelta * l.between l.longSet i := by
  obtain ⟨front, back, split⟩ := l.decisions_split i
  rw [decision_eq split, needsLong, longBefore_eq_between ordered split]
  split
  · next backward => exact ⟨fun _ => Or.inl backward, fun _ => rfl⟩
  · next forward =>
      rw [decide_eq_true_eq]
      exact (or_iff_right forward).symm

/-! ## The least choice -/

theorem workable_longSet (ordered : l.branches.Pairwise (·.start < ·.start))
    (outside : ∀ b ∈ l.branches, b.target ≠ b.start + 1) : l.Workable l.longSet := by
  refine ⟨?_, ?_⟩
  · intro i backward
    exact mem_longSet.mpr ((isLong_iff ordered i).mpr (Or.inl backward))
  · intro i short
    rw [mem_longSet, isLong_iff ordered, not_or] at short
    obtain ⟨forward, near⟩ := short
    have past := outside (l.branch i) (List.get_mem l.branches i)
    simp only [shortBranchSize, longDelta, shortReach] at near ⊢
    omega

theorem longSet_subset (ordered : l.branches.Pairwise (·.start < ·.start))
    {S : Finset (Fin l.branches.length)} (h : l.Workable S) : l.longSet ⊆ S := by
  intro i
  -- from the last branch to the first
  induction i using WellFoundedGT.induction with
  | ind i ih =>
      intro long
      by_contra short
      have later : l.between l.longSet i ≤ l.between S i := by
        refine Finset.card_le_card ?_
        intro j hj
        obtain ⟨longer, inside⟩ := Finset.mem_filter.mp hj
        have after : i < j := by
          by_contra notAfter
          rcases Nat.lt_or_eq_of_le (Nat.le_of_not_lt notAfter) with earlier | same
          · have := List.pairwise_iff_get.mp ordered j i earlier
            exact Nat.lt_asymm this inside.1
          · rw [Fin.ext same] at inside
            exact Nat.lt_irrefl _ inside.1
        exact Finset.mem_filter.mpr ⟨ih j after longer, inside⟩
      have near := h.reaches i short
      have forward : ¬ (l.branch i).target ≤ (l.branch i).start := fun backward =>
        short (h.backward i backward)
      have far := ((isLong_iff ordered i).mp (mem_longSet.mp long)).resolve_left forward
      simp only [shortBranchSize, longDelta, shortReach] at near far
      omega

/-- Relaxation finds the least choice of encodings that works.  So no other choice gives
smaller code or an earlier label, and labels and end fall where the long branches before
them push them. -/
theorem relax_least (l : Layout) (ordered : l.branches.Pairwise (·.start < ·.start))
    (outside : ∀ b ∈ l.branches, b.target ≠ b.start + 1) :
    l.Workable l.longSet
      ∧ (∀ S, l.Workable S → l.longSet ⊆ S ∧ l.relax.size ≤ l.placed S l.size
        ∧ List.Forall₂ (· ≤ ·) l.relax.labels (l.labels.map (l.placed S)))
      ∧ l.relax.labels = l.labels.map (l.placed l.longSet)
      ∧ l.relax.size = l.placed l.longSet l.size := by
  have labels : l.relax.labels = l.labels.map (l.placed l.longSet) := by
    show l.labels.map (shifted (decisions l.branches)) = _
    exact List.map_congr_left fun o _ => l.shifted_eq_placed o
  have size : l.relax.size = l.placed l.longSet l.size := l.shifted_eq_placed l.size
  refine ⟨workable_longSet ordered outside, ?_, labels, size⟩
  intro S works
  have least := longSet_subset ordered works
  refine ⟨least, ?_, ?_⟩
  · rw [size]
    exact placed_mono least l.size
  · rw [labels, List.forall₂_map_left_iff, List.forall₂_map_right_iff, List.forall₂_same]
    exact fun o _ => placed_mono least o

/-- The first branch would reach its target if the second, which crosses it, were short;
the third goes back, and the last reaches. -/
def cascade : Layout where
  branches := [⟨0, .ifFalse, 0, 128⟩, ⟨10, .always, 1, 142⟩, ⟨150, .always, 1, 142⟩,
    ⟨160, .always, 2, 170⟩]
  labels := [128, 142, 170]
  size := 171

/-- All but the last branch are long, and no choice that works gives smaller code. -/
theorem relax_least_cascade :
    cascade.Workable cascade.longSet
      ∧ cascade.relax.long = #[true, true, true, false]
      ∧ cascade.relax.labels = [134, 148, 179]
      ∧ ∀ S, cascade.Workable S → 180 ≤ cascade.placed S 171 := by
  obtain ⟨works, least, -, -⟩ := relax_least cascade
    (by simp [cascade]) (by simp [cascade])
  have size : cascade.relax.size = 180 := by decide
  refine ⟨works, by decide, by decide, ?_⟩
  intro S other
  rw [← size]
  exact (least S other).2.1

end Layout

end ExprCompiler
