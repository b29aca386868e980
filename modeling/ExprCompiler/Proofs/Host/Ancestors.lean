/-
# Walks along what a type derives from

The walks of `Host.Registry` count their steps.  Here it is shown that the count
never runs out, so that it can be forgotten:

* breadth first, no type is listed twice and all but the first are mentioned by some
  entry, so after one step more than there are mentions nothing waits any more
  (`lineage_eq`); this needs nothing of the registry;
* along the base classes nothing else stops the walk from turning in a circle, so it
  has to be known that ranks fall; then all types of a chain are different, and there
  are no more of them than types (`baseChain_eq`).

With the count out of the way, a walk depends on nothing but the entries of the types
it meets (`lineageFrom_congr`, `baseChainFrom_congr`).  Breadth first it meets exactly what
its first type derives from (`mem_lineage_iff`), and no two members that are declared on
the way share an identity (`Recorded.nodup_declared`).
-/
import Mathlib.Data.List.Perm.Subperm
import Mathlib.Data.List.Nodup
import ExprCompiler.Proofs.Host.Consistency

namespace ExprCompiler

theorem nodup_eraseDups {α : Type} [DecidableEq α] (l : List α) : l.eraseDups.Nodup := by
  generalize length : l.length = n
  induction n using Nat.strongRecOn generalizing l with
  | ind n ih =>
      cases l with
      | nil => exact List.nodup_nil
      | cons a l =>
          rw [List.eraseDups_cons, List.nodup_cons, List.mem_eraseDups]
          refine ⟨by simp, ih _ ?_ _ rfl⟩
          rw [← length, List.length_cons]
          exact Nat.lt_succ_of_le (List.length_filter_le _ _)

namespace Registry

variable {r r' : Registry}

/-! ## Breadth first -/

/-- The types that entries mention, each as often as it is mentioned. -/
def mentioned (r : Registry) : List HostId := r.types.values.flatMap TypeEntry.parents

theorem parents_subset_mentioned (r : Registry) (id : HostId) : r.parents id ⊆ r.mentioned := by
  intro p hp
  cases found : r.entry? id with
  | none =>
      rw [parents, found] at hp
      exact absurd hp List.not_mem_nil
  | some e =>
      rw [parents_of_found found] at hp
      have row : (id, e) ∈ r.types.rows := Table.find?_eq_some_iff.mp found
      exact List.mem_flatMap.mpr ⟨e, List.mem_map.mpr ⟨(id, e), row, rfl⟩, hp⟩

/-- The ancestors that a walk meets for the first time at a type. -/
def fresh (r : Registry) (done pending : List HostId) (id : HostId) : List HostId :=
  ((r.parents id).filter (fun p => !(done ++ id :: pending).contains p)).eraseDups

theorem lineageFrom_cons (r : Registry) (fuel : Nat) (done pending : List HostId) (id : HostId) :
    r.lineageFrom (fuel + 1) done (id :: pending)
      = r.lineageFrom fuel (done ++ [id]) (pending ++ r.fresh done pending id) := rfl

theorem mem_fresh {done pending : List HostId} {id p : HostId} :
    p ∈ r.fresh done pending id ↔ p ∈ r.parents id ∧ p ∉ done ++ id :: pending := by
  simp [fresh]

theorem lineageFrom_nil (r : Registry) (fuel : Nat) (done : List HostId) :
    r.lineageFrom fuel done [] = done := by
  cases fuel with
  | zero => exact List.append_nil done
  | succ fuel => rfl

/-- A walk lists nothing twice, and nothing but its first type and what is mentioned. -/
structure Walking (r : Registry) (first : HostId) (done pending : List HostId) : Prop where
  distinct : (done ++ pending).Nodup
  inside : done ++ pending ⊆ first :: r.mentioned

namespace Walking

variable {first id : HostId} {done pending : List HostId}

theorem start (r : Registry) (first : HostId) : r.Walking first [] [first] :=
  ⟨List.nodup_singleton first, List.cons_subset_cons first (List.nil_subset _)⟩

theorem step (h : r.Walking first done (id :: pending)) :
    r.Walking first (done ++ [id]) (pending ++ r.fresh done pending id) := by
  have regroup : done ++ [id] ++ (pending ++ r.fresh done pending id)
      = done ++ id :: pending ++ r.fresh done pending id := by simp
  refine ⟨?_, ?_⟩
  · rw [regroup]
    refine List.nodup_append'.mpr ⟨h.distinct, nodup_eraseDups _, ?_⟩
    intro p seen new
    exact (mem_fresh.mp new).2 seen
  · rw [regroup]
    refine List.append_subset.mpr ⟨h.inside, ?_⟩
    intro p new
    exact List.mem_cons_of_mem _ (r.parents_subset_mentioned id (mem_fresh.mp new).1)

theorem length_le (h : r.Walking first done pending) :
    done.length + pending.length ≤ r.edgeCount + 1 := by
  have bound := (h.distinct.subperm h.inside).length_le
  rw [List.length_append] at bound
  exact bound

/-- After enough steps nothing waits any more. -/
theorem pending_eq_nil (h : r.Walking first done pending)
    (enough : r.edgeCount + 1 ≤ done.length) : pending = [] := by
  have bound := h.length_le
  exact List.length_eq_zero_iff.mp (by omega)

/-- Steps that are left over do nothing. -/
theorem lineageFrom_add {fuel : Nat} (h : r.Walking first done pending)
    (enough : r.edgeCount + 1 ≤ fuel + done.length) (more : Nat) :
    r.lineageFrom (fuel + more) done pending = r.lineageFrom fuel done pending := by
  induction fuel generalizing done pending with
  | zero =>
      rw [h.pending_eq_nil (Nat.zero_add done.length ▸ enough), lineageFrom_nil, lineageFrom_nil]
  | succ fuel ih =>
      cases pending with
      | nil => rw [lineageFrom_nil, lineageFrom_nil]
      | cons id pending =>
          rw [Nat.succ_add_eq_add_succ, Nat.add_succ, lineageFrom_cons, lineageFrom_cons]
          refine ih h.step ?_
          rw [List.length_append, List.length_singleton]
          omega

/-- What every step keeps holds at the end of the walk, when nothing waits any more. -/
theorem lineageFrom_ends {P : List HostId → List HostId → Prop}
    (keeps : ∀ done id pending, P done (id :: pending) →
      P (done ++ [id]) (pending ++ r.fresh done pending id))
    {fuel : Nat} (h : r.Walking first done pending)
    (enough : r.edgeCount + 1 ≤ fuel + done.length) (holds : P done pending) :
    P (r.lineageFrom fuel done pending) [] := by
  induction fuel generalizing done pending with
  | zero =>
      rw [h.pending_eq_nil (Nat.zero_add done.length ▸ enough)] at holds ⊢
      rw [lineageFrom_nil]
      exact holds
  | succ fuel ih =>
      cases pending with
      | nil => exact holds
      | cons id pending =>
          rw [lineageFrom_cons]
          refine ih h.step ?_ (keeps done id pending holds)
          rw [List.length_append, List.length_singleton]
          omega

end Walking

/-- Everything that a listed type derives from is listed or waits. -/
structure Covering (r : Registry) (first : HostId) (done pending : List HostId) : Prop where
  first : first ∈ done ++ pending
  parents : ∀ id ∈ done, ∀ p ∈ r.parents id, p ∈ done ++ pending

theorem Covering.step {first id : HostId} {done pending : List HostId}
    (h : r.Covering first done (id :: pending)) :
    r.Covering first (done ++ [id]) (pending ++ r.fresh done pending id) := by
  have regroup : done ++ [id] ++ (pending ++ r.fresh done pending id)
      = done ++ id :: pending ++ r.fresh done pending id := by simp
  refine ⟨?_, ?_⟩
  · rw [regroup]
    exact List.mem_append_left _ h.first
  · intro x hx p hp
    rw [regroup]
    by_cases seen : p ∈ done ++ id :: pending
    · exact List.mem_append_left _ seen
    · rcases List.mem_append.mp hx with listed | here
      · exact absurd (h.parents x listed p hp) seen
      · cases List.mem_singleton.mp here
        exact List.mem_append_right _ (mem_fresh.mpr ⟨hp, seen⟩)

theorem nodup_lineage (r : Registry) (id : HostId) : (r.lineage id).Nodup := by
  have walked : r.Walking id (r.lineage id) [] :=
    (Walking.start r id).lineageFrom_ends (P := r.Walking id) (fun _ _ _ h => h.step)
      (Nat.le_refl _) (Walking.start r id)
  have distinct := walked.distinct
  rw [List.append_nil] at distinct
  exact distinct

/-- The ancestors of a type, whatever the bound on the steps, if it is large enough. -/
theorem lineage_eq {n : Nat} (enough : r.edgeCount + 1 ≤ n) (id : HostId) :
    r.lineage id = r.lineageFrom n [] [id] := by
  obtain ⟨more, rfl⟩ := Nat.exists_eq_add_of_le enough
  exact ((Walking.start r id).lineageFrom_add (Nat.le_refl _) more).symm

/-- A property of the first types that passes on to what a type derives from holds of
everything that is listed. -/
theorem forall_mem_lineageFrom {P : HostId → Prop} (passes : ∀ id, P id → ∀ p ∈ r.parents id, P p)
    {fuel : Nat} {done pending : List HostId} (listed : ∀ id ∈ done, P id)
    (waiting : ∀ id ∈ pending, P id) : ∀ id ∈ r.lineageFrom fuel done pending, P id := by
  induction fuel generalizing done pending with
  | zero => exact List.forall_mem_append.mpr ⟨listed, waiting⟩
  | succ fuel ih =>
      cases pending with
      | nil => exact listed
      | cons id pending =>
          obtain ⟨here, waiting⟩ := List.forall_mem_cons.mp waiting
          refine ih (List.forall_mem_append.mpr ⟨listed, List.forall_mem_singleton.mpr here⟩)
            (List.forall_mem_append.mpr ⟨waiting, ?_⟩)
          intro p new
          exact passes id here p (mem_fresh.mp new).1

/-- A walk meets exactly what its first type derives from. -/
theorem mem_lineage_iff {id x : HostId} :
    x ∈ r.lineage id ↔ Relation.ReflTransGen r.Derives id x := by
  constructor
  · refine forall_mem_lineageFrom (fun y path p hp => path.tail hp) ?_ ?_ x
    · intro y hy
      exact absurd hy List.not_mem_nil
    · intro y hy
      cases List.mem_singleton.mp hy
      exact .refl
  · have covered : r.Covering id (r.lineage id) [] := by
      refine (Walking.start r id).lineageFrom_ends (P := r.Covering id)
        (fun _ _ _ h => h.step) (Nat.le_refl _) ⟨List.mem_cons_self, ?_⟩
      intro y hy
      exact absurd hy List.not_mem_nil
    obtain ⟨first, parents⟩ := covered
    rw [List.append_nil] at first parents
    intro path
    induction path with
    | refl => exact first
    | tail _ edge listed => exact parents _ listed _ edge

/-- A walk depends on nothing but the entries of the types it meets. -/
theorem lineageFrom_congr {P : HostId → Prop} (passes : ∀ id, P id → ∀ p ∈ r.parents id, P p)
    (same : ∀ id, P id → r'.parents id = r.parents id) {fuel : Nat} {done pending : List HostId}
    (waiting : ∀ id ∈ pending, P id) :
    r'.lineageFrom fuel done pending = r.lineageFrom fuel done pending := by
  induction fuel generalizing done pending with
  | zero => rfl
  | succ fuel ih =>
      cases pending with
      | nil => rfl
      | cons id pending =>
          obtain ⟨here, waiting⟩ := List.forall_mem_cons.mp waiting
          have met : r'.fresh done pending id = r.fresh done pending id := by
            rw [fresh, fresh, same id here]
          rw [lineageFrom_cons, lineageFrom_cons, met]
          refine ih (List.forall_mem_append.mpr ⟨waiting, ?_⟩)
          intro p new
          exact passes id here p (mem_fresh.mp new).1

/-! ## Along the base classes -/

theorem baseChainFrom_succ (r : Registry) (fuel : Nat) (id : HostId) :
    r.baseChainFrom (fuel + 1) id
      = id :: (match r.base? id with
        | some base => r.baseChainFrom fuel base
        | none => []) := rfl

theorem mem_parents_of_base? {id base : HostId} (h : r.base? id = some base) :
    base ∈ r.parents id := by
  obtain ⟨e, found, based⟩ := Option.bind_eq_some_iff.mp h
  rw [parents_of_found found, TypeEntry.parents, based]
  exact List.mem_append_left _ List.mem_cons_self

theorem length_baseChainFrom_le (r : Registry) (fuel : Nat) (id : HostId) :
    (r.baseChainFrom fuel id).length ≤ fuel := by
  induction fuel generalizing id with
  | zero => exact Nat.le_refl _
  | succ fuel ih =>
      rw [baseChainFrom_succ, List.length_cons]
      cases r.base? id with
      | none => exact Nat.succ_le_succ (Nat.zero_le _)
      | some base => exact Nat.succ_le_succ (ih base)

/-- Only a registered type has a base. -/
theorem has_of_base? {id base : HostId} (h : r.base? id = some base) : r.has id = true := by
  obtain ⟨e, found, -⟩ := Option.bind_eq_some_iff.mp h
  exact has_iff.mpr ⟨e, found⟩

/-- A chain that ends before its bound is reached does not depend on the bound. -/
theorem baseChainFrom_add {fuel : Nat} {id : HostId}
    (short : (r.baseChainFrom fuel id).length < fuel) (more : Nat) :
    r.baseChainFrom (fuel + more) id = r.baseChainFrom fuel id := by
  induction fuel generalizing id with
  | zero => exact absurd short (Nat.not_lt_zero _)
  | succ fuel ih =>
      rw [Nat.succ_add_eq_add_succ, Nat.add_succ]
      rw [baseChainFrom_succ] at short ⊢
      rw [baseChainFrom_succ]
      cases based : r.base? id with
      | none => rfl
      | some base =>
          rw [based] at short
          exact congrArg (id :: ·) (ih (Nat.lt_of_succ_lt_succ short))

theorem forall_mem_baseChainFrom {P : HostId → Prop}
    (passes : ∀ id, P id → ∀ p ∈ r.parents id, P p) {fuel : Nat} {id : HostId} (here : P id) :
    ∀ x ∈ r.baseChainFrom fuel id, P x := by
  induction fuel generalizing id with
  | zero => exact fun _ h => absurd h List.not_mem_nil
  | succ fuel ih =>
      rw [baseChainFrom_succ]
      refine List.forall_mem_cons.mpr ⟨here, ?_⟩
      cases based : r.base? id with
      | none => exact fun _ h => absurd h List.not_mem_nil
      | some base => exact ih (passes id here base (mem_parents_of_base? based))

theorem baseChainFrom_congr {P : HostId → Prop} (passes : ∀ id, P id → ∀ p ∈ r.parents id, P p)
    (same : ∀ id, P id → r'.base? id = r.base? id) {fuel : Nat} {id : HostId} (here : P id) :
    r'.baseChainFrom fuel id = r.baseChainFrom fuel id := by
  induction fuel generalizing id with
  | zero => rfl
  | succ fuel ih =>
      rw [baseChainFrom_succ, baseChainFrom_succ, same id here]
      cases based : r.base? id with
      | none => rfl
      | some base =>
          exact congrArg (id :: ·) (ih (passes id here base (mem_parents_of_base? based)))

namespace Grounded

/-- Ranks fall along a chain, so no type comes twice. -/
theorem nodup_baseChainFrom (h : r.Grounded) (fuel : Nat) (id : HostId) :
    (r.baseChainFrom fuel id).Nodup := by
  obtain ⟨rank, falls⟩ := h.ranked
  induction fuel generalizing id with
  | zero => exact List.nodup_nil
  | succ fuel ih =>
      rw [baseChainFrom_succ]
      cases based : r.base? id with
      | none => exact List.nodup_singleton id
      | some base =>
          refine List.nodup_cons.mpr ⟨?_, ih base⟩
          intro again
          have first := falls id base (mem_parents_of_base? based)
          have below : ∀ x ∈ r.baseChainFrom fuel base, rank x < rank id :=
            forall_mem_baseChainFrom (fun x hx p hp => (falls x p hp).trans hx) first
          exact Nat.lt_irrefl _ (below id again)

/-- However long the walk, a registered type has no more base classes than there are
types. -/
theorem length_baseChainFrom_le (h : r.Grounded) {id : HostId} (there : r.has id = true)
    (fuel : Nat) : (r.baseChainFrom fuel id).length ≤ r.typeCount := by
  have keys : r.baseChainFrom fuel id ⊆ r.types.rows.map (·.1) := by
    intro x hx
    have held : r.has x = true :=
      forall_mem_baseChainFrom (fun y _ p hp => h.closed y p hp) there x hx
    obtain ⟨e, found⟩ := has_iff.mp held
    exact List.mem_map.mpr ⟨(x, e), Table.find?_eq_some_iff.mp found, rfl⟩
  have short := ((h.nodup_baseChainFrom fuel id).subperm keys).length_le
  rw [List.length_map] at short
  exact short

/-- The base classes of a type, whatever the bound on the steps, if it is large enough. -/
theorem baseChain_eq (h : r.Grounded) {n : Nat} (enough : r.typeCount + 1 ≤ n) (id : HostId) :
    r.baseChain id = r.baseChainFrom n id := by
  obtain ⟨more, rfl⟩ := Nat.exists_eq_add_of_le enough
  cases based : r.base? id with
  | none => rw [baseChain, Nat.add_right_comm, baseChainFrom_succ, baseChainFrom_succ, based]
  | some base =>
      have short := h.length_baseChainFrom_le (has_of_base? based) (r.typeCount + 1)
      exact (baseChainFrom_add (Nat.lt_succ_of_le short) more).symm

/-- A chain goes on with the chain of the base. -/
theorem baseChain_base (h : r.Grounded) {id base : HostId} (based : r.base? id = some base) :
    r.baseChain id = id :: r.baseChain base := by
  rw [h.baseChain_eq (Nat.le_succ _) id, baseChainFrom_succ, based]
  rfl

/-- The way to another type leads over the base. -/
theorem inheritanceDistance?_base (h : r.Grounded) {id base target : HostId}
    (based : r.base? id = some base) (other : id ≠ target) :
    r.inheritanceDistance? id target = (r.inheritanceDistance? base target).map (· + 1) := by
  rw [inheritanceDistance?, h.baseChain_base based, List.idxOf?_cons,
    if_neg (beq_eq_false_iff_ne.mpr other ▸ Bool.false_ne_true)]
  rfl

end Grounded

theorem inheritanceDistance?_self (r : Registry) (id : HostId) :
    r.inheritanceDistance? id id = some 0 := by
  rw [inheritanceDistance?, baseChain, baseChainFrom_succ, List.idxOf?_cons,
    if_pos (beq_self_eq_true id)]

/-! ## Members on the way -/

namespace Recorded

variable {m n : Member}

theorem nodup_members (h : r.Recorded) : (r.members.map (·.id)).Nodup :=
  (List.nodup_append.mp h.distinct).1

theorem eq_of_id (h : r.Recorded) (hm : m ∈ r.members) (hn : n ∈ r.members)
    (same : m.id = n.id) : m = n :=
  List.inj_on_of_nodup_map h.nodup_members hm hn same

/-- The members of different types have different identities. -/
theorem nodup_declared (h : r.Recorded) {owners : List HostId} (distinct : owners.Nodup) :
    ((owners.flatMap r.declared).map (·.id)).Nodup := by
  rw [List.map_flatMap, List.nodup_flatMap]
  refine ⟨?_, distinct.imp ?_⟩
  · intro owner _
    have split := (r.memberTable.listed_perm owner).map Prod.snd
    rw [List.map_append, List.map_map] at split
    have ids := (split.map (·.id)).nodup_iff.mp h.nodup_members
    rw [List.map_append] at ids
    have own := (List.nodup_append.mp ids).1
    rw [List.map_map] at own
    exact own
  · intro owner other apart id here there
    obtain ⟨m, hm, rfl⟩ := List.mem_map.mp here
    obtain ⟨n, hn, same⟩ := List.mem_map.mp there
    have equal := h.eq_of_id (mem_members_iff.mpr ⟨owner, hm⟩) (mem_members_iff.mpr ⟨other, hn⟩)
      same.symm
    subst equal
    exact apart ((h.owned owner m hm).1.symm.trans (h.owned other m hn).1)

end Recorded

end Registry

end ExprCompiler
