/-
# Tables of labels

Both passes over the directives keep a table of where labels are.  A table is
read through `LabelTable.at?`: making room changes nothing, marking changes one
label, and a table is complete exactly if it is a list of offsets.
-/
import ExprCompiler.Code.Directive

namespace ExprCompiler.LabelTable

/-- Where a label is, if that is known. -/
def at? (t : LabelTable) (label : Nat) : Option Nat := (t.offsets[label]?).join

theorem at?_touch (t : LabelTable) (label k : Nat) : (t.touch label).at? k = t.at? k := by
  unfold at? touch
  rw [Array.getElem?_append]
  split
  · rfl
  · next past =>
      rw [Array.getElem?_replicate]
      split <;> simp [Array.getElem?_eq_none (Nat.le_of_not_lt past)]

theorem size_touch (t : LabelTable) (label : Nat) :
    (t.touch label).offsets.size = max t.offsets.size (label + 1) := by
  simp only [touch, Array.size_append, Array.size_replicate]
  omega

theorem size_mark (t : LabelTable) (label offset : Nat) :
    (t.mark label offset).offsets.size = max t.offsets.size (label + 1) := by
  simp only [mark, Array.size_setIfInBounds, size_touch]

theorem at?_mark (t : LabelTable) (label offset k : Nat) :
    (t.mark label offset).at? k = if k = label then some offset else t.at? k := by
  have room : label < (t.touch label).offsets.size := by
    rw [size_touch]
    omega
  have before := at?_touch t label k
  unfold at? at before ⊢
  simp only [mark, Array.getElem?_setIfInBounds]
  by_cases here : label = k
  · subst here
    simp [room]
  · rw [if_neg here, if_neg (fun h => here h.symm)]
    exact before

/-- A table is complete exactly if every entry is an offset. -/
theorem complete_eq_ok_iff {t : LabelTable} {labels : List Nat} :
    t.complete = .ok labels ↔ t.offsets.toList = labels.map some := by
  simp only [complete]
  -- entries are numbered on from any number, for the induction
  generalize t.offsets.toList = entries
  generalize 0 = n
  induction entries generalizing labels n with
  | nil =>
      cases labels with
      | nil => exact ⟨fun _ => rfl, fun _ => rfl⟩
      | cons l ls => exact ⟨fun h => (by cases h), fun h => (by cases h)⟩
  | cons entry entries ih =>
      rw [List.zipIdx_cons, List.mapM_cons]
      cases entry with
      | none =>
          refine ⟨fun h => (by cases h), ?_⟩
          intro h
          cases labels with
          | nil => cases h
          | cons l ls => cases h
      | some offset =>
          constructor
          · intro h
            simp only [bind, Except.bind] at h
            split at h
            · cases h
            · next rest found =>
                cases h
                rw [(ih (n + 1)).mp found, List.map_cons]
          · intro h
            cases labels with
            | nil => cases h
            | cons l ls =>
                rw [List.map_cons, List.cons.injEq] at h
                obtain ⟨same, rest⟩ := h
                cases same
                simp only [bind, Except.bind, (ih (n + 1)).mpr rest]
                rfl

/-- A table is complete if all its labels have a place. -/
theorem exists_complete {t : LabelTable} (h : ∀ k < t.offsets.size, (t.at? k).isSome) :
    ∃ labels, t.complete = .ok labels := by
  refine ⟨t.offsets.toList.map (·.getD 0), complete_eq_ok_iff.mpr ?_⟩
  rw [List.map_map]
  refine (List.map_id _).symm.trans (List.map_congr_left ?_)
  intro entry mem
  obtain ⟨k, inside, rfl⟩ := List.mem_iff_getElem.mp mem
  have placed := h k inside
  rw [at?, Array.getElem?_eq_getElem inside, Option.join_some] at placed
  obtain ⟨offset, found⟩ := Option.isSome_iff_exists.mp placed
  simp [found]

theorem at?_of_complete {t : LabelTable} {labels : List Nat} (h : t.complete = .ok labels)
    (k : Nat) : t.at? k = labels[k]? := by
  have entries := complete_eq_ok_iff.mp h
  simp only [at?]
  rw [← Array.getElem?_toList, entries, List.getElem?_map]
  cases labels[k]? <;> rfl

end ExprCompiler.LabelTable
