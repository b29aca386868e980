/-
# Tables

Values by key, each key at most once.  A table is what a host fills in while it
describes its types: a value is put under a key in place of what was there,
changed where it is, or added to the end of the list under a key.

Nothing depends on the order of the rows.  What a table holds is what `find?`
gives, and `find?_put` and `find?_adjust` say how the operations change that.
-/

namespace ExprCompiler

/-- Values by key. -/
structure Table (κ ν : Type) where
  rows : List (κ × ν)
  /-- No key has two rows. -/
  distinct : (rows.map (·.1)).Nodup
  deriving DecidableEq, Repr

namespace Table

variable {κ ν : Type}

def empty : Table κ ν := ⟨[], List.nodup_nil⟩

instance : Inhabited (Table κ ν) := ⟨empty⟩

/-- How many keys have a value. -/
def size (t : Table κ ν) : Nat := t.rows.length

/-- All values. -/
def values (t : Table κ ν) : List ν := t.rows.map (·.2)

/-- All values of the lists of a table, each with its key. -/
def listed (t : Table κ (List ν)) : List (κ × ν) :=
  t.rows.flatMap (fun row => row.2.map (fun value => (row.1, value)))

variable [DecidableEq κ]

/-- The value under a key. -/
def find? (t : Table κ ν) (key : κ) : Option ν := t.rows.lookup key

/-- Whether a key has a value. -/
def has (t : Table κ ν) (key : κ) : Bool := (t.find? key).isSome

theorem distinct_put {rows : List (κ × ν)} (distinct : (rows.map (·.1)).Nodup) (key : κ)
    (value : ν) : (((key, value) :: rows.filter (fun row => row.1 ≠ key)).map (·.1)).Nodup := by
  rw [List.map_cons, List.nodup_cons]
  refine ⟨?_, distinct.sublist (List.Sublist.map _ List.filter_sublist)⟩
  intro present
  obtain ⟨row, kept, same⟩ := List.mem_map.mp present
  exact of_decide_eq_true (List.mem_filter.mp kept).2 same

/-- Puts a value under a key, in place of what was there. -/
def put (t : Table κ ν) (key : κ) (value : ν) : Table κ ν :=
  ⟨(key, value) :: t.rows.filter (fun row => row.1 ≠ key), distinct_put t.distinct key value⟩

theorem keys_adjust (rows : List (κ × ν)) (key : κ) (change : ν → ν) :
    (rows.map (fun row => if row.1 = key then (row.1, change row.2) else row)).map (·.1)
      = rows.map (·.1) := by
  rw [List.map_map]
  refine List.map_congr_left ?_
  intro row _
  simp only [Function.comp]
  split <;> rfl

/-- Changes the value under a key, if there is one. -/
def adjust (t : Table κ ν) (key : κ) (change : ν → ν) : Table κ ν :=
  ⟨t.rows.map (fun row => if row.1 = key then (row.1, change row.2) else row),
    (keys_adjust t.rows key change).symm ▸ t.distinct⟩

/-- The list under a key, empty if there is none. -/
def items (t : Table κ (List ν)) (key : κ) : List ν := (t.find? key).getD []

/-- Adds a value to the end of the list under a key. -/
def push (t : Table κ (List ν)) (key : κ) (value : ν) : Table κ (List ν) :=
  t.put key (t.items key ++ [value])

/-! ## Look-up -/

@[simp]
theorem find?_empty (key : κ) : (empty : Table κ ν).find? key = none := rfl

theorem lookup_row (key j : κ) (value : ν) (rows : List (κ × ν)) :
    ((key, value) :: rows).lookup j = if j = key then some value else rows.lookup j := by
  rw [List.lookup_cons]
  by_cases here : j = key
  · rw [if_pos here, beq_iff_eq.mpr here]
  · rw [if_neg here, beq_eq_false_iff_ne.mpr here]

/-- A row is what look-up finds under its key. -/
theorem find?_eq_some_iff {t : Table κ ν} {key : κ} {value : ν} :
    t.find? key = some value ↔ (key, value) ∈ t.rows := by
  obtain ⟨rows, distinct⟩ := t
  show rows.lookup key = some value ↔ (key, value) ∈ rows
  induction rows with
  | nil => exact ⟨nofun, fun h => absurd h List.not_mem_nil⟩
  | cons row rows ih =>
    obtain ⟨k, v⟩ := row
    rw [List.map_cons, List.nodup_cons] at distinct
    rw [lookup_row, List.mem_cons]
    by_cases here : key = k
    · subst here
      have absent : (key, value) ∉ rows := fun h =>
        distinct.1 (List.mem_map.mpr ⟨_, h, rfl⟩)
      simp [absent, eq_comm]
    · simp [here, ih distinct.2]

theorem lookup_filter (rows : List (κ × ν)) (key j : κ) :
    (rows.filter (fun row => row.1 ≠ key)).lookup j
      = if j = key then none else rows.lookup j := by
  induction rows with
  | nil => exact (ite_self none).symm
  | cons row rows ih =>
    obtain ⟨k, v⟩ := row
    by_cases removed : k = key
    · rw [List.filter_cons_of_neg (by simpa using removed), ih, lookup_row]
      split <;> simp_all
    · rw [List.filter_cons_of_pos (by simpa using removed), lookup_row, lookup_row, ih]
      split <;> simp_all

@[simp]
theorem find?_put (t : Table κ ν) (key j : κ) (value : ν) :
    (t.put key value).find? j = if j = key then some value else t.find? j := by
  show List.lookup j ((key, value) :: _) = _
  rw [lookup_row, lookup_filter]
  split <;> rfl

@[simp]
theorem find?_adjust (t : Table κ ν) (key j : κ) (change : ν → ν) :
    (t.adjust key change).find? j = if j = key then (t.find? j).map change else t.find? j := by
  obtain ⟨rows, distinct⟩ := t
  show List.lookup j (rows.map _) = if j = key then (rows.lookup j).map change else rows.lookup j
  clear distinct
  induction rows with
  | nil => exact (ite_self none).symm
  | cons row rows ih =>
    obtain ⟨k, v⟩ := row
    rw [List.map_cons, lookup_row]
    by_cases hk : k = key
    · rw [if_pos hk, lookup_row, ih]
      split <;> simp_all
    · rw [if_neg hk, lookup_row, ih]
      split <;> simp_all

/-! ## Lists -/

@[simp]
theorem items_push (t : Table κ (List ν)) (key j : κ) (value : ν) :
    (t.push key value).items j = if j = key then t.items j ++ [value] else t.items j := by
  rw [items, push, find?_put]
  split
  · next here => rw [here]; rfl
  · rfl

/-- A value is listed with a key if the list under that key has it. -/
theorem mem_listed_iff {t : Table κ (List ν)} {key : κ} {value : ν} :
    (key, value) ∈ t.listed ↔ value ∈ t.items key := by
  simp only [listed, List.mem_flatMap, List.mem_map, Prod.mk.injEq]
  constructor
  · rintro ⟨⟨k, vs⟩, row, v, held, rfl, rfl⟩
    rw [items, find?_eq_some_iff.mpr row]
    exact held
  · intro held
    cases found : t.find? key with
    | none =>
      rw [items, found] at held
      exact absurd held List.not_mem_nil
    | some vs =>
      rw [items, found] at held
      exact ⟨(key, vs), find?_eq_some_iff.mp found, value, held, rfl, rfl⟩

/-- The list under a key, before all the others. -/
theorem listed_perm (t : Table κ (List ν)) (key : κ) :
    t.listed.Perm ((t.items key).map (fun value => (key, value))
      ++ (t.rows.filter (fun row => row.1 ≠ key)).flatMap
        (fun row => row.2.map (fun value => (row.1, value)))) := by
  obtain ⟨rows, distinct⟩ := t
  simp only [listed, items, find?]
  induction rows with
  | nil => exact List.Perm.refl _
  | cons row rows ih =>
    obtain ⟨k, vs⟩ := row
    rw [List.map_cons, List.nodup_cons] at distinct
    rw [lookup_row, List.flatMap_cons]
    by_cases here : key = k
    · subst here
      have others : rows.filter (fun row => row.1 ≠ key) = rows := by
        refine List.filter_eq_self.mpr ?_
        intro row held
        refine decide_eq_true ?_
        rintro rfl
        exact distinct.1 (List.mem_map.mpr ⟨row, held, rfl⟩)
      rw [if_pos rfl, List.filter_cons_of_neg (by simp), others]
      exact List.Perm.refl _
    · rw [if_neg here, List.filter_cons_of_pos (by simpa using Ne.symm here), List.flatMap_cons]
      exact ((ih distinct.2).append_left _).trans (List.perm_append_comm_assoc ..)

/-- Adding a value lists it once more, and the others as they were. -/
theorem listed_push (t : Table κ (List ν)) (key : κ) (value : ν) :
    (t.push key value).listed.Perm ((key, value) :: t.listed) := by
  have split : (t.push key value).listed
      = (t.items key ++ [value]).map (fun value => (key, value))
        ++ (t.rows.filter (fun row => row.1 ≠ key)).flatMap
          (fun row => row.2.map (fun value => (row.1, value))) := rfl
  rw [split, List.map_append, List.append_assoc]
  exact List.perm_middle.trans ((t.listed_perm key).symm.cons _)

end Table

end ExprCompiler
