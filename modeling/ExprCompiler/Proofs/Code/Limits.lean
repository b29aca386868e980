/-
# The limits of the code format

An index of the constant pool has two bytes, the number of a temporary slot one, and
so has the number of arguments of a call.  `Element.Exceeds` says in terms of the
tree which of these limits it runs into.  Main result: `Element.compile_error_iff`,
these are the only reasons why a root is not compiled, and the trial pass already
finds them.

A walk says by itself where it refuses to go on (`Element.exits_directives`), so for
temporaries and arguments the nodes that are met decide.  For the pool a run of the
trial pass is followed: what the pool holds is the set of all constants so far
(`Trial.run_ok`, `Trial.run_error`).  Nothing else can fail, since every label of a
tree is marked (`Element.layout_of_run`) and the emission pass follows the trial pass.
-/
import Mathlib.Data.Finset.Option
import ExprCompiler.Proofs.Code.Agreement
import ExprCompiler.Proofs.Code.Exits
import ExprCompiler.Proofs.Code.Pool

namespace ExprCompiler

namespace Directive

/-- The constant that a directive names. -/
def constant? : Directive → Option Constant
  | .constant c => some c
  | .opId _ id | .call _ id _ => some (.id id)
  | _ => none

/-- The constants that directives name, in order. -/
def constants (ds : List Directive) : List Constant := ds.filterMap constant?

theorem toFinset_constants_cons (d : Directive) (ds : List Directive) :
    (constants (d :: ds)).toFinset = d.constant?.toFinset ∪ (constants ds).toFinset := by
  simp only [constants, List.filterMap_cons]
  cases d.constant? <;> simp

theorem mem_exits_refuses {ds : List Directive} {fault : Fault} :
    .refuses fault ∈ exits ds ↔ .refuse fault ∈ ds := by
  simp only [exits, List.mem_filterMap]
  constructor
  · rintro ⟨d, hd, found⟩
    unfold exit? at found
    split at found
    · cases found
    · cases found
      exact hd
    · cases found
  · intro hd
    exact ⟨_, hd, rfl⟩

end Directive

/-! ## Temporaries and arguments -/

namespace Element

/-- The largest number of temporaries in use at once: wherever the walk is, those that
are held around the node and its own. -/
def temporaries (e : Element) : Nat :=
  ((e.walk 0).map (fun p => p.1 + p.2.holds)).foldr max 0

theorem lt_temporaries_iff {e : Element} {n : Nat} :
    n < e.temporaries ↔ ∃ p ∈ e.walk 0, n < p.1 + p.2.holds := by
  simp only [temporaries]
  induction e.walk 0 with
  | nil => simp
  | cons p ps ih =>
      simp only [List.map_cons, List.foldr_cons, lt_max_iff, ih, List.exists_mem_cons_iff]

theorem holds_le_one (e : Element) : e.holds ≤ 1 := by
  unfold holds
  split <;> decide

/-- A node holds as many temporaries itself as it holds while an operand is walked. -/
theorem le_holds {e : Element} : ∀ p ∈ e.operands, p.1 ≤ e.holds := by
  cases e with
  | arithmetic info op plan l r => cases plan <;> simp [operands, holds]
  | inList info probe items =>
      intro p hp
      rcases List.mem_cons.mp hp with rfl | hp
      · exact Nat.zero_le _
      · obtain ⟨item, -, rfl⟩ := List.mem_map.mp hp
        exact Nat.le_refl 1
  | call info target receiver args =>
      intro p hp
      obtain ⟨x, -, rfl⟩ := List.mem_map.mp hp
      exact Nat.le_refl 0
  | _ => simp [operands, holds]

theorem mem_walk_operand {e : Element} {live : Nat} {p q : Nat × Element} (hq : q ∈ e.operands)
    (hp : p ∈ q.2.walk (live + q.1)) : p ∈ e.walk live := by
  rw [walk_eq]
  exact List.mem_cons_of_mem _ (List.mem_flatMap.mpr ⟨q, hq, hp⟩)

/-- The last temporary in use around a node is held by a node met on the way. -/
theorem exists_holder {e : Element} {live : Nat} {p : Nat × Element} (h : p ∈ e.walk live)
    (deep : live < p.1) : ∃ q ∈ e.walk live, 0 < q.2.holds ∧ p.1 ≤ q.1 + 1 := by
  induction live, e using walk.induct with
  | case1 live e ih =>
      rw [walk_eq] at h
      rcases List.mem_cons.mp h with rfl | h
      · exact absurd deep (Nat.lt_irrefl _)
      · obtain ⟨q, hq, hp⟩ := List.mem_flatMap.mp h
        by_cases inside : live + q.1 < p.1
        · obtain ⟨r, hr, holder⟩ := ih ⟨q, hq⟩ hp inside
          exact ⟨r, mem_walk_operand hq hr, holder⟩
        · have own := le_holds q hq
          have one := e.holds_le_one
          refine ⟨(live, e), by rw [walk_eq]; exact List.mem_cons_self, ?_, ?_⟩
          · show 0 < e.holds
            omega
          · show p.1 ≤ live + 1
            omega

theorem mem_exits_call {call : CallTarget} {fault : Fault} :
    .refuses fault ∈ call.exits
      ↔ fault = .tooManyArguments ∧ 255 < call.conversions.length := by
  simp only [CallTarget.exits]
  split <;> simp [*]

theorem mem_ownExits {e : Element} {live : Nat} {fault : Fault} :
    .refuses fault ∈ e.ownExits live
      ↔ (fault = .tooManyTemporaries ∧ 0 < e.holds ∧ 256 ≤ live)
        ∨ (fault = .tooManyArguments ∧ ∃ call ∈ e.calls, 255 < call.conversions.length) := by
  have store : Exit.refuses fault
      ∈ (if 0 < e.holds ∧ 256 ≤ live then [Exit.refuses .tooManyTemporaries] else [])
        ↔ fault = .tooManyTemporaries ∧ 0 < e.holds ∧ 256 ≤ live := by
    split <;> simp [*]
  have root : Exit.refuses fault ∉ if e.isRoot then [Exit.returns] else [] := by
    split <;> simp
  simp only [ownExits, List.mem_append, List.mem_flatMap, mem_exits_call, store, root, or_false]
  refine or_congr_right ⟨?_, ?_⟩
  · rintro ⟨target, ht, same, many⟩
    exact ⟨same, target, ht, many⟩
  · rintro ⟨same, target, ht, many⟩
    exact ⟨target, ht, same, many⟩

/-- A tree refuses a temporary exactly if more than 256 are in use at once. -/
theorem refuses_temporaries {e : Element} :
    .refuses .tooManyTemporaries ∈ e.exits 0 ↔ 256 < e.temporaries := by
  simp only [exits, List.mem_flatMap, mem_ownExits, lt_temporaries_iff]
  constructor
  · rintro ⟨p, hp, ⟨-, holds, full⟩ | ⟨same, -⟩⟩
    · exact ⟨p, hp, by omega⟩
    · cases same
  · rintro ⟨p, hp, many⟩
    -- a node that holds nothing is met too late, but the one that holds the last is not
    by_cases holds : 0 < p.2.holds
    · have one := p.2.holds_le_one
      exact ⟨p, hp, Or.inl ⟨trivial, holds, by omega⟩⟩
    · obtain ⟨q, hq, holds', le⟩ := exists_holder hp (by omega)
      exact ⟨q, hq, Or.inl ⟨trivial, holds', by omega⟩⟩

/-- The limits of the code format that a tree runs into: too many distinct constants,
too many temporaries in use at once, or too many arguments of a call. -/
inductive Exceeds (e : Element) : Fault → Prop
  | constants : 65536 < (Directive.constants e.directives).toFinset.card → Exceeds e .poolFull
  | temporaries : 256 < e.temporaries → Exceeds e .tooManyTemporaries
  | arguments {p : Nat × Element} {target : CallTarget} : p ∈ e.walk 0 → target ∈ p.2.calls →
      255 < target.conversions.length → Exceeds e .tooManyArguments

/-- What a tree refuses exceeds a limit. -/
theorem exceeds_of_refuse {e : Element} {fault : Fault} (h : .refuse fault ∈ e.directives) :
    e.Exceeds fault := by
  have exit := e.exits_directives.mem_iff.mp (Directive.mem_exits_refuses.mpr h)
  obtain ⟨p, hp, own⟩ := List.mem_flatMap.mp exit
  rcases mem_ownExits.mp own with ⟨rfl, -⟩ | ⟨rfl, target, ht, many⟩
  · exact .temporaries (refuses_temporaries.mp exit)
  · exact .arguments hp ht many

/-- A tree refuses what exceeds a limit, the pool apart. -/
theorem Exceeds.refuse {e : Element} {fault : Fault} (h : e.Exceeds fault)
    (other : fault ≠ .poolFull) : .refuse fault ∈ e.directives := by
  refine Directive.mem_exits_refuses.mp (e.exits_directives.mem_iff.mpr ?_)
  cases h with
  | constants => exact absurd rfl other
  | temporaries many => exact refuses_temporaries.mpr many
  | arguments hp ht many =>
      exact List.mem_flatMap.mpr ⟨_, hp, mem_ownExits.mpr (Or.inr ⟨rfl, _, ht, many⟩)⟩

end Element

/-! ## Constants -/

namespace ConstantPool

/-- The constants that a pool holds. -/
def contents (p : ConstantPool) : Finset Constant := p.constants.toList.toFinset

theorem mem_contents {p : ConstantPool} {c : Constant} :
    c ∈ p.contents ↔ ∃ i, p.indexOf? c = some i := by
  simp only [contents, List.mem_toFinset, Array.mem_toList_iff, Array.mem_iff_getElem?,
    indexOf?_eq_some_iff]
  rfl

/-- A pool holds each constant once. -/
theorem card_contents (p : ConstantPool) : p.contents.card = p.size := by
  refine List.toFinset_card_of_nodup (List.nodup_iff_getElem?_ne_getElem?.mpr ?_)
  intro i j less inside same
  have held : p.get? j = some (p.constants.toList[j]) := by
    rw [get?, ← Array.getElem?_toList, List.getElem?_eq_getElem inside]
  have held' : p.get? i = some (p.constants.toList[j]) := by
    rw [get?, ← Array.getElem?_toList, same, List.getElem?_eq_getElem inside]
  have place := (indexOf?_eq_some_iff.mpr held').symm.trans (indexOf?_eq_some_iff.mpr held)
  exact Nat.ne_of_lt less (Option.some.inj place)

theorem contents_add (p : ConstantPool) (c : Constant) :
    (p.add c).2.contents = insert c p.contents := by
  cases known : p.indexOf? c with
  | none =>
      rw [add_fresh known]
      obtain ⟨constants, places, agree⟩ := p
      ext d
      simp [contents, push]
  | some i =>
      rw [add_known known, Finset.insert_eq_self.mpr (mem_contents.mpr ⟨i, known⟩)]

/-- As long as a pool is not too large, an index fits exactly if the pool does not get
too large by it. -/
theorem index_lt_iff {p : ConstantPool} (c : Constant) (room : p.size ≤ 65536) :
    (p.add c).1 < 65536 ↔ (p.add c).2.size ≤ 65536 := by
  cases known : p.indexOf? c with
  | none =>
      have size : (p.push c known).size = p.size + 1 := by
        obtain ⟨constants, places, agree⟩ := p
        exact Array.size_push c
      rw [add_fresh known, size]
      exact Nat.lt_iff_add_one_le
  | some i =>
      rw [add_known known]
      have inside : i < p.size :=
        (Array.getElem?_eq_some_iff.mp (indexOf?_eq_some_iff.mp known)).1
      exact ⟨fun _ => room, fun _ => Nat.lt_of_lt_of_le inside room⟩

end ConstantPool

namespace Trial

theorem reserveWith_eq (t : Trial) (c : Constant) (op : UInt16 → OpCode) :
    (t.reserveWith c op).1.pool = (t.pool.add c).2
      ∧ (t.reserveWith c op).2
        = if (t.pool.add c).1 < 65536 then none else some .poolFull := by
  obtain ⟨offset, pool, branches, labels⟩ := t
  simp only [reserveWith, ConstantPool.operand]
  by_cases small : (pool.add c).1 < 65536
  · simp [small]
  · simp [small]

/-- A directive that names a constant adds it to the pool, and fails if the pool is
full. -/
theorem step_named {t : Trial} {d : Directive} {c : Constant} (h : d.constant? = some c) :
    (t.step d).1.pool = (t.pool.add c).2
      ∧ (t.step d).2 = if (t.pool.add c).1 < 65536 then none else some .poolFull := by
  cases d with
  | constant c =>
      cases h
      exact t.reserveWith_eq ..
  | opId code id =>
      cases h
      exact t.reserveWith_eq ..
  | call code id argc =>
      cases h
      exact t.reserveWith_eq ..
  | _ => cases h

/-- Any other directive leaves the pool as it is, and fails only if it refuses. -/
theorem step_other {t : Trial} {d : Directive} (h : d.constant? = none) :
    (t.step d).1.pool = t.pool ∧ ∀ fault, (t.step d).2 = some fault ↔ d = .refuse fault := by
  cases d with
  | constant c => cases h
  | opId code id => cases h
  | call code id argc => cases h
  | refuse fault => exact ⟨rfl, fun fault' => by simp [step]⟩
  | _ => exact ⟨rfl, fun fault => by simp [step]⟩

/-- What a directive leaves behind if it does not fail. -/
theorem step_ok {t t' : Trial} {d : Directive} (room : t.pool.size ≤ 65536)
    (h : t.step d = (t', none)) :
    t'.pool.contents = t.pool.contents ∪ d.constant?.toFinset ∧ t'.pool.size ≤ 65536
      ∧ ∀ fault, d ≠ .refuse fault := by
  cases named : d.constant? with
  | some c =>
      obtain ⟨pool, fault⟩ := step_named (t := t) named
      rw [h] at pool fault
      have small : (t.pool.add c).1 < 65536 := by
        by_contra large
        rw [if_neg large] at fault
        cases fault
      refine ⟨?_, ?_, ?_⟩
      · rw [pool, ConstantPool.contents_add, Option.toFinset_some, Finset.union_comm]
        rfl
      · rw [pool]
        exact (ConstantPool.index_lt_iff c room).mp small
      · rintro fault rfl
        cases named
  | none =>
      obtain ⟨pool, refuses⟩ := step_other (t := t) named
      rw [h] at pool refuses
      refine ⟨?_, pool ▸ room, ?_⟩
      · rw [pool, Option.toFinset_none, Finset.union_empty]
      · intro fault same
        cases (refuses fault).mpr same

/-- Why a directive fails. -/
theorem step_error {t t' : Trial} {d : Directive} {fault : Fault} (room : t.pool.size ≤ 65536)
    (h : t.step d = (t', some fault)) :
    (fault = .poolFull ∧ 65536 < (t.pool.contents ∪ d.constant?.toFinset).card)
      ∨ d = .refuse fault := by
  cases named : d.constant? with
  | some c =>
      obtain ⟨-, failed⟩ := step_named (t := t) named
      rw [h] at failed
      split at failed
      · cases failed
      · next large =>
          cases failed
          rw [ConstantPool.index_lt_iff c room, ← ConstantPool.card_contents,
            ConstantPool.contents_add, Nat.not_le] at large
          refine Or.inl ⟨rfl, ?_⟩
          rw [Option.toFinset_some, Finset.union_comm]
          exact large
  | none =>
      obtain ⟨-, refuses⟩ := step_other (t := t) named
      rw [h] at refuses
      exact Or.inr ((refuses fault).mp rfl)

/-- A run that does not fail holds all constants, and none too many. -/
theorem run_ok {ds : List Directive} {t t' : Trial} (room : t.pool.size ≤ 65536)
    (h : t.run ds = .ok t') :
    (t.pool.contents ∪ (Directive.constants ds).toFinset).card ≤ 65536
      ∧ ∀ fault, .refuse fault ∉ ds := by
  induction ds generalizing t with
  | nil =>
      refine ⟨?_, fun _ => List.not_mem_nil⟩
      rw [Directive.constants, List.filterMap_nil, List.toFinset_nil, Finset.union_empty,
        ConstantPool.card_contents]
      exact room
  | cons d ds ih =>
      obtain ⟨t₁, taken, rest⟩ := run_cons h
      obtain ⟨contents, room₁, other⟩ := step_ok room taken
      obtain ⟨few, others⟩ := ih room₁ rest
      refine ⟨?_, ?_⟩
      · rw [Directive.toFinset_constants_cons, ← Finset.union_assoc, ← contents]
        exact few
      · intro fault refused
        rcases List.mem_cons.mp refused with same | later
        · exact other fault same.symm
        · exact others fault later

/-- A run fails for a pool that gets too large, or because it comes to a refusal. -/
theorem run_error {ds : List Directive} {t : Trial} {fault : Fault}
    (room : t.pool.size ≤ 65536) (h : t.run ds = .error fault) :
    (fault = .poolFull
        ∧ 65536 < (t.pool.contents ∪ (Directive.constants ds).toFinset).card)
      ∨ .refuse fault ∈ ds := by
  induction ds generalizing t with
  | nil => cases h
  | cons d ds ih =>
      simp only [run] at h
      rw [Directive.toFinset_constants_cons, ← Finset.union_assoc]
      split at h
      · next t₁ taken =>
          obtain ⟨contents, room₁, -⟩ := step_ok room taken
          rw [← contents]
          exact (ih room₁ h).imp_right (List.mem_cons_of_mem _)
      · next t₁ fault' taken =>
          cases h
          rcases step_error room taken with ⟨full, many⟩ | refused
          · exact Or.inl ⟨full, Nat.lt_of_lt_of_le many
              (Finset.card_le_card Finset.subset_union_left)⟩
          · exact Or.inr (refused ▸ List.mem_cons_self)

/-! ## Labels -/

/-- What a directive does to labels and branches: nothing, or it branches, or it marks. -/
theorem step_labels {t t' : Trial} {d : Directive} (taken : t.step d = (t', none)) :
    (d.mark? = none ∧ d.branch? = none ∧ t'.labels = t.labels ∧ t'.branches = t.branches)
      ∨ (∃ kind label, d = .branch kind label ∧ t'.labels = t.labels.touch label
        ∧ t'.branches = t.branches.push ⟨t.offset, kind, label⟩)
      ∨ ∃ label, d = .mark label ∧ t'.labels = t.labels.mark label t.offset
        ∧ t'.branches = t.branches := by
  have named {c : Constant} {op : UInt16 → OpCode} (taken : t.reserveWith c op = (t', none)) :
      t'.labels = t.labels ∧ t'.branches = t.branches := by
    obtain ⟨index, pool, -, rfl⟩ := reserveWith_ok taken
    exact ⟨rfl, rfl⟩
  cases d with
  | line n => cases taken; exact Or.inl ⟨rfl, rfl, rfl, rfl⟩
  | op code => cases taken; exact Or.inl ⟨rfl, rfl, rfl, rfl⟩
  | opByte code operand => cases taken; exact Or.inl ⟨rfl, rfl, rfl, rfl⟩
  | constant c => exact Or.inl ⟨rfl, rfl, named taken⟩
  | opId code id => rw [Trial.step] at taken; exact Or.inl ⟨rfl, rfl, named taken⟩
  | call code id argc => rw [Trial.step] at taken; exact Or.inl ⟨rfl, rfl, named taken⟩
  | branch kind label => cases taken; exact Or.inr (Or.inl ⟨kind, label, rfl, rfl, rfl⟩)
  | mark label => cases taken; exact Or.inr (Or.inr ⟨label, rfl, rfl, rfl⟩)
  | refuse fault => cases taken

/-- All labels so far are below `n`, those in the table and those branched to. -/
structure Below (t : Trial) (n : Nat) : Prop where
  labels : t.labels.offsets.size ≤ n
  branches : ∀ b ∈ t.branches.toList, b.label < n

theorem Below.step {t t' : Trial} {d : Directive} {n : Nat} (h : t.Below n)
    (marks : ∀ k, d.mark? = some k → k < n) (branches : ∀ k, d.branch? = some k → k < n)
    (taken : t.step d = (t', none)) : t'.Below n := by
  rcases step_labels taken with ⟨-, -, labels, noted⟩ | ⟨kind, label, rfl, labels, noted⟩
    | ⟨label, rfl, labels, noted⟩
  · exact ⟨labels ▸ h.labels, noted ▸ h.branches⟩
  · have small := branches label rfl
    refine ⟨?_, ?_⟩
    · rw [labels, LabelTable.size_touch]
      exact Nat.max_le.mpr ⟨h.labels, small⟩
    · intro b hb
      rw [noted, Array.toList_push] at hb
      rcases List.mem_append.mp hb with old | new
      · exact h.branches b old
      · rw [List.mem_singleton.mp new]
        exact small
  · refine ⟨?_, noted ▸ h.branches⟩
    rw [labels, LabelTable.size_mark]
    exact Nat.max_le.mpr ⟨h.labels, marks label rfl⟩

theorem Below.run {ds : List Directive} {t t' : Trial} {n : Nat} (h : t.Below n)
    (marks : ∀ k ∈ Directive.marks ds, k < n)
    (branches : ∀ d ∈ ds, ∀ k, d.branch? = some k → k < n) (ran : t.run ds = .ok t') :
    t'.Below n := by
  induction ds generalizing t with
  | nil =>
      cases ran
      exact h
  | cons d ds ih =>
      obtain ⟨t₁, taken, rest⟩ := run_cons ran
      rw [Directive.marks_cons] at marks
      refine ih (h.step ?_ (branches d List.mem_cons_self) taken) ?_ ?_ rest
      · exact fun k hk => marks k (List.mem_append_left _ (by simp [hk]))
      · exact fun k hk => marks k (List.mem_append_right _ hk)
      · exact fun d' hd => branches d' (List.mem_cons_of_mem _ hd)

theorem at?_step {t t' : Trial} {d : Directive} (taken : t.step d = (t', none)) (k : Nat) :
    t'.labels.at? k = if d.mark? = some k then some t.offset else t.labels.at? k := by
  rcases step_labels taken with ⟨unmarked, -, labels, -⟩ | ⟨kind, label, rfl, labels, -⟩
    | ⟨label, rfl, labels, -⟩
  · rw [labels, unmarked, if_neg (by simp)]
  · rw [labels, LabelTable.at?_touch, if_neg (by simp [Directive.mark?])]
  · rw [labels, LabelTable.at?_mark]
    simp only [Directive.mark?, Option.some.injEq, eq_comm]

/-- What was placed before a run or is marked in it is placed after it. -/
theorem isSome_at?_run {ds : List Directive} {t t' : Trial} {k : Nat} (ran : t.run ds = .ok t')
    (h : (t.labels.at? k).isSome ∨ k ∈ Directive.marks ds) : (t'.labels.at? k).isSome := by
  induction ds generalizing t with
  | nil =>
      cases ran
      exact h.resolve_right List.not_mem_nil
  | cons d ds ih =>
      obtain ⟨t₁, taken, rest⟩ := run_cons ran
      refine ih rest ?_
      rw [at?_step taken]
      rw [Directive.marks_cons, List.mem_append, Option.mem_toList] at h
      split
      · exact Or.inl rfl
      · next other =>
          rcases h with before | here | later
          · exact Or.inl before
          · exact absurd here other
          · exact Or.inr later

/-- If all labels are placed, there is a layout. -/
theorem Below.layout {t : Trial} {n : Nat} (h : t.Below n)
    (placed : ∀ k < n, (t.labels.at? k).isSome) : ∃ l, t.layout = .ok l := by
  have complete := LabelTable.exists_complete
    fun k inside => placed k (Nat.lt_of_lt_of_le inside h.labels)
  refine exists_bind_eq_ok complete ?_
  intro labels complete
  refine exists_bind_eq_ok (exists_mapM_eq_ok ?_) (fun records _ => ⟨_, rfl⟩)
  intro b hb
  have known := placed b.label (h.branches b hb)
  rw [LabelTable.at?_of_complete complete, ← List.getElem?_toArray] at known
  obtain ⟨target, known⟩ := Option.isSome_iff_exists.mp known
  exact ⟨_, by rw [known]⟩

end Trial

/-- In directives that branch forward, the label of a branch is marked. -/
theorem Directive.Forward.mem_marks {ds : List Directive} (h : Forward ds) :
    ∀ d ∈ ds, ∀ k, d.branch? = some k → k ∈ marks ds := by
  induction ds with
  | nil => exact fun d hd => absurd hd List.not_mem_nil
  | cons d ds ih =>
      intro d' hd k hk
      rw [marks_cons]
      refine List.mem_append_right _ ?_
      rcases List.mem_cons.mp hd with rfl | later
      · exact h.1 k hk
      · exact ih h.2 d' later k hk

namespace Element

/-- All labels of a tree are marked, so a run of its directives gives a layout. -/
theorem layout_of_run {e : Element} {t : Trial} (ran : Trial.start.run e.directives = .ok t) :
    ∃ l, t.layout = .ok l := by
  obtain ⟨n, given⟩ := e.directives_given
  have marked (k : Nat) : k ∈ Directive.marks e.directives ↔ k < n := by
    rw [← List.count_pos_iff, given.count_marks k]
    show 0 < 0 + _ ↔ _
    split <;> omega
  have start : Trial.start.Below n := ⟨Nat.zero_le n, fun b hb => absurd hb List.not_mem_nil⟩
  have below : t.Below n := by
    refine start.run ?_ ?_ ran
    · exact fun k hk => (marked k).mp hk
    · exact fun d hd k hk => (marked k).mp (e.directives_forward.mem_marks d hd k hk)
  exact below.layout fun k hk => Trial.isSome_at?_run ran (Or.inr ((marked k).mpr hk))

theorem layout_eq {tree : Element} (root : tree.isRoot = true) :
    tree.layout = liftFault (Layout.ofDirectives tree.directives) := by
  rw [layout, program, root]
  rfl

/-- A root has a layout exactly if it exceeds no limit; without one, the error names a
limit that is exceeded. -/
theorem layout_cases {tree : Element} (root : tree.isRoot = true) :
    ((∃ l, tree.layout = .ok l) ∧ ∀ fault, ¬ tree.Exceeds fault)
      ∨ ∃ fault, tree.layout = .error (.internal fault) ∧ tree.Exceeds fault := by
  have room : Trial.start.pool.size ≤ 65536 := Nat.zero_le _
  have none : Trial.start.pool.contents = ∅ := rfl
  rw [layout_eq root]
  cases ran : Trial.start.run tree.directives with
  | ok t =>
      obtain ⟨l, laid⟩ := layout_of_run ran
      obtain ⟨few, accepts⟩ := Trial.run_ok room ran
      rw [none, Finset.empty_union] at few
      refine Or.inl ⟨⟨l, ?_⟩, ?_⟩
      · simp only [Layout.ofDirectives, ran, bind, Except.bind, laid, liftFault, Except.mapError]
      · intro fault exceeds
        by_cases full : fault = .poolFull
        · subst full
          cases exceeds with
          | constants many => exact absurd few (Nat.not_le_of_lt many)
        · exact accepts fault (exceeds.refuse full)
  | error fault =>
      refine Or.inr ⟨fault, ?_, ?_⟩
      · simp only [Layout.ofDirectives, ran, bind, Except.bind, liftFault, Except.mapError]
      · rcases Trial.run_error room ran with ⟨rfl, many⟩ | refused
        · rw [none, Finset.empty_union] at many
          exact .constants many
        · exact exceeds_of_refuse refused

theorem compile_of_layout_error {tree : Element} {error : CompileError}
    (h : tree.layout = .error error) : tree.compile = .error error := by
  simp only [compile, h, bind, Except.bind]

/-- A root whose code stays below 2 GiB fails to compile exactly if it exceeds a limit
of the code format.  The error is internal, names a limit that is exceeded, and was
already found by the trial pass: after that, nothing fails. -/
theorem compile_error_iff {tree : Element} (root : tree.isRoot = true)
    (small : ∀ l, tree.layout = .ok l → l.relax.size < 0x80000000) :
    ((∃ error, tree.compile = .error error) ↔ ∃ fault, tree.Exceeds fault)
      ∧ (∀ error, tree.compile = .error error → tree.layout = .error error
        ∧ ∃ fault, error = .internal fault ∧ tree.Exceeds fault)
      ∧ ∀ l, tree.layout = .ok l → ∃ compiled, tree.compile = .ok compiled := by
  have after : ∀ l, tree.layout = .ok l → ∃ compiled, tree.compile = .ok compiled := by
    intro l laid
    exact (compile_of_layout laid).resolve_right fun far => Nat.not_le_of_lt (small l laid) far.2
  rcases layout_cases root with ⟨⟨l, laid⟩, fits⟩ | ⟨fault, failed, exceeds⟩
  · obtain ⟨compiled, done⟩ := after l laid
    have never : ∀ error, tree.compile ≠ .error error := by
      intro error same
      rw [done] at same
      cases same
    refine ⟨⟨?_, ?_⟩, fun error same => absurd same (never error), after⟩
    · exact fun ⟨error, same⟩ => absurd same (never error)
    · exact fun ⟨fault, exceeds⟩ => absurd exceeds (fits fault)
  · have error := compile_of_layout_error failed
    refine ⟨⟨fun _ => ⟨fault, exceeds⟩, fun _ => ⟨_, error⟩⟩, ?_, after⟩
    intro error' same
    rw [error] at same
    cases same
    exact ⟨failed, fault, rfl, exceeds⟩

/-- A static method with one argument too many for a call. -/
def crowdedTarget : CallTarget :=
  ⟨HostId.ofName "f", true, Ty.numeric .int32, List.replicate 256 .identity⟩

def crowdedCall : Element :=
  let int : NodeInfo := ⟨Ty.numeric .int32, .unknown⟩
  .call int crowdedTarget .static (List.replicate 256 (.literal int (.int 0)))

def crowded : Element := .root ⟨Ty.numeric .int32, .unknown⟩ .identity crowdedCall

/-- `8 in (2 ^ 3)`, with the base in a second slot. -/
def nested : Element :=
  let int : NodeInfo := ⟨Ty.numeric .int32, .unknown⟩
  let number (v : Int32) : Element := .literal int (.int v)
  .root ⟨Ty.bool, .unknown⟩ .identity (.inList ⟨Ty.bool, .unknown⟩ (number 8)
    [(.numeric .int32 .identity .identity,
      .arithmetic int .pow (.powerUnrolled 3 .int32 false) (number 2) (number 3))])

/-- One argument too many is not compiled, and what is compiled exceeds no limit. -/
theorem compile_error_iff_crowded :
    (∃ error, crowded.compile = .error error) ∧ nested.temporaries = 2
      ∧ ¬ ∃ fault, nested.Exceeds fault := by
  refine ⟨?_, by decide +kernel, ?_⟩
  · have exceeds : crowded.Exceeds .tooManyArguments := by
      have called : crowdedTarget ∈ crowdedCall.calls := List.mem_cons_self
      have met : (0, crowdedCall) ∈ crowded.walk 0 := by
        refine mem_walk_operand (q := (0, crowdedCall)) List.mem_cons_self ?_
        rw [walk_eq]
        exact List.mem_cons_self
      have many : crowdedTarget.conversions.length = 256 := List.length_replicate
      exact .arguments met called (by omega)
    have small : ∀ l, crowded.layout = .ok l → l.relax.size < 0x80000000 := by
      intro l laid
      rcases @layout_cases crowded rfl with ⟨-, fits⟩ | ⟨fault, failed, -⟩
      · exact absurd exceeds (fits _)
      · rw [failed] at laid
        cases laid
    exact (compile_error_iff rfl small).1.mpr ⟨_, exceeds⟩
  · have size : (Layout.ofDirectives nested.directives).toOption.any (·.relax.size = 25) := by
      refine nested.passes_of_within
        (fun ds => (Layout.ofDirectives ds).toOption.any (·.relax.size = 25)) 64 ?_
      simp only [Layout.ofDirectives, Trial.run_eq_foldlM, Trial.step.eq_def,
        Trial.reserveWith.eq_def, ConstantPool.operand, ConstantPool.add,
        ConstantPool.indexOf?_eq_idxOf?]
      decide +kernel
    cases laid : Layout.ofDirectives nested.directives with
    | error fault =>
        rw [laid] at size
        cases size
    | ok l =>
        have laid' : nested.layout = .ok l := by rw [layout_eq rfl, laid]; rfl
        rw [laid] at size
        have bytes : l.relax.size = 25 := of_decide_eq_true size
        have small : ∀ l, nested.layout = .ok l → l.relax.size < 0x80000000 := by
          intro l' same
          cases laid'.symm.trans same
          omega
        intro exceeds
        obtain ⟨error, failed⟩ := (compile_error_iff rfl small).1.mpr exceeds
        rcases compile_of_layout laid' with ⟨c, compiled⟩ | ⟨-, large⟩
        · cases compiled.symm.trans failed
        · omega

end Element

end ExprCompiler
