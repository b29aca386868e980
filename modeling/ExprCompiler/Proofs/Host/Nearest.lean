/-
# Members are found nearest first

`lineage` walks over what a type derives from, breadth first, and `resolve` collects the
members that the types on the way declare.  Diamonds and circles, and mentions of types
that are not there, are all allowed.  The walk meets each type once and in the order of
its remoteness, the length of a shortest way to it:

* two types that wait differ by one step at most, and the listed ones are no more remote
  than those that wait (`Spreading.sorted`, `Spreading.narrow`);
* whatever is no more remote than the type in front is listed or waits already
  (`Spreading.near`), so a type that is met for the first time is exactly one step further
  (`Spreading.remoteness_fresh`).

A member is told from another by the place where it is declared, a type and a position in
its list; two equal members on one type are still two.

Main result: `Registry.lineage_nearest_first`.
-/
import Mathlib.Order.Lattice.Nat
import ExprCompiler.Proofs.Host.Ancestors

namespace ExprCompiler

namespace Registry

variable {r : Registry} {first id : HostId}

/-! ## Remoteness -/

/-- A way of so many steps over bases and interfaces. -/
def DerivesIn (r : Registry) : Nat → HostId → HostId → Prop
  | 0, first, last => first = last
  | n + 1, first, last => ∃ middle, r.DerivesIn n first middle ∧ r.Derives middle last

/-- The length of a shortest way from a type to one that it derives from. -/
noncomputable def remoteness (r : Registry) (first last : HostId) : Nat :=
  sInf {n | r.DerivesIn n first last}

theorem reaches_iff {last : HostId} :
    Relation.ReflTransGen r.Derives first last ↔ ∃ n, r.DerivesIn n first last := by
  constructor
  · intro path
    induction path with
    | refl => exact ⟨0, rfl⟩
    | tail _ edge ih =>
        obtain ⟨n, way⟩ := ih
        exact ⟨n + 1, _, way, edge⟩
  · rintro ⟨n, way⟩
    induction n generalizing last with
    | zero => exact way ▸ .refl
    | succ n ih =>
        obtain ⟨middle, way, edge⟩ := way
        exact (ih way).tail edge

theorem remoteness_le {n : Nat} {last : HostId} (way : r.DerivesIn n first last) :
    r.remoteness first last ≤ n := Nat.sInf_le way

theorem derivesIn_remoteness {last : HostId}
    (path : Relation.ReflTransGen r.Derives first last) :
    r.DerivesIn (r.remoteness first last) first last := Nat.sInf_mem (reaches_iff.mp path)

/-- A step leads at most one further. -/
theorem remoteness_step {middle last : HostId}
    (path : Relation.ReflTransGen r.Derives first middle) (edge : r.Derives middle last) :
    r.remoteness first last ≤ r.remoteness first middle + 1 :=
  remoteness_le ⟨middle, derivesIn_remoteness path, edge⟩

/-- A shortest way comes from a type that is one step nearer. -/
theorem exists_nearer {n : Nat} {last : HostId}
    (path : Relation.ReflTransGen r.Derives first last) (far : r.remoteness first last = n + 1) :
    ∃ middle, Relation.ReflTransGen r.Derives first middle ∧ r.Derives middle last
      ∧ r.remoteness first middle = n := by
  have way := derivesIn_remoteness path
  rw [far] at way
  obtain ⟨middle, way, edge⟩ := way
  have reached := reaches_iff.mpr ⟨n, way⟩
  have upper := remoteness_le way
  have lower := remoteness_step reached edge
  exact ⟨middle, reached, edge, by omega⟩

/-! ## The walk -/

/-- What is listed and what waits, while the walk spreads out from its first type. -/
structure Spreading (r : Registry) (first : HostId) (done pending : List HostId) : Prop where
  covering : r.Covering first done pending
  front : (done ++ pending).head? = some first
  reached : ∀ x ∈ done ++ pending, Relation.ReflTransGen r.Derives first x
  sorted : (done ++ pending).Pairwise (fun x y => r.remoteness first x ≤ r.remoteness first y)
  narrow : ∀ x ∈ pending, ∀ y ∈ pending, r.remoteness first y ≤ r.remoteness first x + 1

namespace Spreading

variable {done pending : List HostId}

theorem start (r : Registry) (first : HostId) : r.Spreading first [] [first] := by
  refine ⟨⟨List.mem_cons_self, ?_⟩, rfl, ?_, List.pairwise_singleton _ _, ?_⟩
  · intro x hx
    exact absurd hx List.not_mem_nil
  · intro x hx
    exact List.mem_singleton.mp hx ▸ .refl
  · intro x hx y hy
    cases List.mem_singleton.mp hx
    cases List.mem_singleton.mp hy
    exact Nat.le_succ _

/-- Nothing that waits is nearer than the type in front. -/
theorem front_le (h : r.Spreading first done (id :: pending)) :
    ∀ x ∈ id :: pending, r.remoteness first id ≤ r.remoteness first x := by
  have waiting := (List.pairwise_append.mp h.sorted).2.1
  exact List.forall_mem_cons.mpr ⟨Nat.le_refl _, (List.pairwise_cons.mp waiting).1⟩

/-- Nothing that is listed is more remote than the type in front. -/
theorem le_front (h : r.Spreading first done (id :: pending)) :
    ∀ x ∈ done, r.remoteness first x ≤ r.remoteness first id :=
  fun x hx => (List.pairwise_append.mp h.sorted).2.2 x hx id List.mem_cons_self

/-- Whatever is no more remote than the type in front has been met. -/
theorem near (h : r.Spreading first done (id :: pending)) {x : HostId}
    (path : Relation.ReflTransGen r.Derives first x)
    (close : r.remoteness first x ≤ r.remoteness first id) : x ∈ done ++ id :: pending := by
  generalize distance : r.remoteness first x = n at close
  induction n generalizing x with
  | zero =>
      have way := derivesIn_remoteness path
      rw [distance] at way
      exact way ▸ h.covering.first
  | succ n ih =>
      obtain ⟨middle, reached, edge, nearer⟩ := exists_nearer path distance
      -- the type before it is strictly nearer than what waits, so it is listed
      rcases List.mem_append.mp (ih reached nearer (by omega)) with listed | waits
      · exact h.covering.parents middle listed x edge
      · have lower := h.front_le middle waits
        omega

/-- A type that is met for the first time is one step further than the type in front. -/
theorem remoteness_fresh (h : r.Spreading first done (id :: pending)) {p : HostId}
    (new : p ∈ r.fresh done pending id) :
    r.remoteness first p = r.remoteness first id + 1 := by
  obtain ⟨edge, unmet⟩ := mem_fresh.mp new
  have reached := h.reached id (List.mem_append_right _ List.mem_cons_self)
  have upper := remoteness_step reached edge
  have lower : ¬ r.remoteness first p ≤ r.remoteness first id :=
    fun close => unmet (h.near (reached.tail edge) close)
  omega

theorem step (h : r.Spreading first done (id :: pending)) :
    r.Spreading first (done ++ [id]) (pending ++ r.fresh done pending id) := by
  have regroup : done ++ [id] ++ (pending ++ r.fresh done pending id)
      = done ++ id :: pending ++ r.fresh done pending id := by simp
  have reached := h.reached id (List.mem_append_right _ List.mem_cons_self)
  have ahead : ∀ x ∈ pending ++ r.fresh done pending id,
      r.remoteness first id ≤ r.remoteness first x
        ∧ r.remoteness first x ≤ r.remoteness first id + 1 := by
    intro x hx
    rcases List.mem_append.mp hx with waits | new
    · have waits := List.mem_cons_of_mem id waits
      exact ⟨h.front_le x waits, h.narrow id List.mem_cons_self x waits⟩
    · rw [h.remoteness_fresh new]
      exact ⟨Nat.le_succ _, Nat.le_refl _⟩
  refine ⟨h.covering.step, ?_, ?_, ?_, ?_⟩
  · rw [regroup, List.head?_append, h.front]
    rfl
  · rw [regroup]
    refine List.forall_mem_append.mpr ⟨h.reached, ?_⟩
    intro p new
    exact reached.tail (mem_fresh.mp new).1
  · rw [regroup]
    refine List.pairwise_append.mpr ⟨h.sorted, ?_, ?_⟩
    · refine List.pairwise_of_forall_mem_list ?_
      intro p new q new'
      rw [h.remoteness_fresh new, h.remoteness_fresh new']
    · intro x met p new
      rw [h.remoteness_fresh new]
      rcases List.mem_append.mp met with listed | waits
      · exact (h.le_front x listed).trans (Nat.le_succ _)
      · exact h.narrow id List.mem_cons_self x waits
  · intro x hx y hy
    exact (ahead y hy).2.trans (Nat.succ_le_succ (ahead x hx).1)

end Spreading

/-- A list of everything that a type derives from, itself in front: each type once, and
those that are nearer before those that are more remote. -/
structure NearestFirst (r : Registry) (id : HostId) (order : List HostId) : Prop where
  front : order.head? = some id
  distinct : order.Nodup
  complete : ∀ x, x ∈ order ↔ Relation.ReflTransGen r.Derives id x
  sorted : order.Pairwise (fun x y => r.remoteness id x ≤ r.remoteness id y)

theorem nearestFirst_lineage (r : Registry) (id : HostId) : r.NearestFirst id (r.lineage id) := by
  have spread : r.Spreading id (r.lineage id) [] :=
    (Walking.start r id).lineageFrom_ends (P := r.Spreading id) (fun _ _ _ h => h.step)
      (Nat.le_refl _) (Spreading.start r id)
  have front := spread.front
  have sorted := spread.sorted
  rw [List.append_nil] at front sorted
  exact ⟨front, r.nodup_lineage id, fun _ => mem_lineage_iff, sorted⟩

/-! ## Members by place -/

/-- The positions of a list at which a test succeeds. -/
def positions {α : Type} (test : α → Bool) (l : List α) : List Nat :=
  (l.zipIdx.filter (fun entry => test entry.1)).map (·.2)

theorem mem_positions {α : Type} {test : α → Bool} {l : List α} {i : Nat} :
    i ∈ positions test l ↔ ∃ a, l[i]? = some a ∧ test a = true := by
  simp only [positions, List.mem_map, List.mem_filter, Prod.exists, exists_eq_right]
  exact exists_congr fun a => and_congr_left' List.mem_zipIdx_iff_getElem?

theorem pairwise_positions {α : Type} (test : α → Bool) (l : List α) :
    (positions test l).Pairwise (· < ·) := by
  have all : (l.zipIdx.map (·.2)).Pairwise (· < ·) := by
    rw [List.zipIdx_map_snd]
    exact List.pairwise_lt_range'
  exact all.sublist (List.filter_sublist.map _)

theorem map_positions {α : Type} (test : α → Bool) (l : List α) :
    (positions test l).map (l[·]?) = (l.filter test).map some := by
  have values : l.filter test = (l.zipIdx.filter (fun entry => test entry.1)).map (·.1) := by
    conv => lhs; rw [← List.zipIdx_map_fst 0 l]
    rw [List.filter_map]
    rfl
  rw [values, positions, List.map_map, List.map_map]
  refine List.map_congr_left ?_
  intro entry kept
  exact List.mem_zipIdx_iff_getElem?.mp (List.mem_filter.mp kept).1

/-- The member that is declared at a place. -/
def memberAt? (r : Registry) (place : HostId × Nat) : Option Member :=
  (r.declared place.1)[place.2]?

/-- The places of all members that answer to a name, on a type and on all that it derives
from: each place once, nearer owners first, and the members of one owner in the order in
which they were registered. -/
structure Places (r : Registry) (id : HostId) (name : String) (ignoreCase : Bool)
    (places : List (HostId × Nat)) : Prop where
  distinct : places.Nodup
  complete : ∀ owner i, (owner, i) ∈ places ↔ Relation.ReflTransGen r.Derives id owner
    ∧ ∃ m, r.memberAt? (owner, i) = some m ∧ nameMatches ignoreCase name m.name = true
  sorted : places.Pairwise (fun p q =>
    r.remoteness id p.1 ≤ r.remoteness id q.1 ∧ (p.1 = q.1 → p.2 < q.2))

/-- Each list of owners in the order of remoteness gives the places in their order. -/
theorem NearestFirst.places {owners : List HostId} (h : r.NearestFirst id owners) (name : String)
    (ignoreCase : Bool) :
    r.Places id name ignoreCase (owners.flatMap (fun owner =>
      (positions (fun m => nameMatches ignoreCase name m.name) (r.declared owner)).map
        (fun i => (owner, i)))) := by
  have sorted : (owners.flatMap (fun owner =>
      (positions (fun m => nameMatches ignoreCase name m.name) (r.declared owner)).map
        (fun i => (owner, i)))).Pairwise (fun p q =>
      r.remoteness id p.1 ≤ r.remoteness id q.1 ∧ (p.1 = q.1 → p.2 < q.2)) := by
    refine List.pairwise_flatMap.mpr ⟨?_, (h.sorted.and h.distinct).imp ?_⟩
    · intro owner _
      refine List.pairwise_map.mpr ((pairwise_positions _ _).imp ?_)
      intro i j before
      exact ⟨Nat.le_refl _, fun _ => before⟩
    · rintro owner other ⟨nearer, apart⟩ p hp q hq
      obtain ⟨i, -, rfl⟩ := List.mem_map.mp hp
      obtain ⟨j, -, rfl⟩ := List.mem_map.mp hq
      exact ⟨nearer, fun same => absurd same apart⟩
  refine ⟨sorted.imp ?_, ?_, sorted⟩
  · rintro p q ⟨-, before⟩ rfl
    exact Nat.lt_irrefl _ (before rfl)
  · intro owner i
    rw [← h.complete, List.mem_flatMap]
    constructor
    · rintro ⟨o, listed, place⟩
      obtain ⟨j, hj, same⟩ := List.mem_map.mp place
      cases same
      exact ⟨listed, mem_positions.mp hj⟩
    · rintro ⟨listed, found⟩
      exact ⟨owner, listed, List.mem_map.mpr ⟨i, mem_positions.mpr found, rfl⟩⟩

/-- In a registry of any shape, with circles in it and with types that are mentioned but not
registered, the walk over the ancestors ends, however many steps it is allowed.  It lists
the type itself, then everything that can be reached from it, each type once and nearer
ones first.  So looking up a name finds every member of that name on the type and its
ancestors, each once, those of nearer owners first and those of one owner in the order in
which they were registered. -/
theorem lineage_nearest_first (r : Registry) (id : HostId) :
    (∀ fuel, r.edgeCount + 1 ≤ fuel → r.lineageFrom fuel [] [id] = r.lineage id)
      ∧ r.NearestFirst id (r.lineage id)
      ∧ ∀ name ignoreCase, ∃ places, r.Places id name ignoreCase places
        ∧ (r.resolve name (.type id) ignoreCase).map some = places.map r.memberAt? := by
  refine ⟨fun _ enough => (lineage_eq enough id).symm, r.nearestFirst_lineage id, ?_⟩
  intro name ignoreCase
  refine ⟨_, (r.nearestFirst_lineage id).places name ignoreCase, ?_⟩
  rw [resolve, List.filter_flatMap, List.map_flatMap, List.map_flatMap]
  refine List.flatMap_congr ?_
  intro owner _
  rw [List.map_map]
  exact (map_positions _ (r.declared owner)).symm

/-- An interface over two that extend a common one, which extends the first again; one of
the two extends a type that is not registered as well. -/
def diamond : Registry :=
  let both := HostId.ofName "Both"
  let top := HostId.ofName "Top"
  let types := [interfaceEntry "Both" [HostId.ofName "Left", HostId.ofName "Right"],
    interfaceEntry "Left" [top], interfaceEntry "Right" [top, HostId.ofName "Missing"],
    interfaceEntry "Top" [both]].foldl insertEntry empty
  [Member.property top "size" (.numeric .int32), Member.property both "size" (.numeric .int64),
    Member.method top "Size" [] (.numeric .int32)].foldl insertMember types

theorem lineage_nearest_first_diamond :
    diamond.edgeCount + 1 ≤ 9
      ∧ diamond.lineageFrom 9 [] [HostId.ofName "Both"]
        = ["Both", "Left", "Right", "Top", "Missing"].map HostId.ofName
      ∧ diamond.NearestFirst (HostId.ofName "Both")
        (["Both", "Left", "Right", "Top", "Missing"].map HostId.ofName)
      ∧ ∃ places, diamond.Places (HostId.ofName "Both") "size" true places
        ∧ places.map diamond.memberAt?
          = [some (Member.property (HostId.ofName "Both") "size" (.numeric .int64)),
            some (Member.property (HostId.ofName "Top") "size" (.numeric .int32)),
            some (Member.method (HostId.ofName "Top") "Size" [] (.numeric .int32))] := by
  have bound : diamond.edgeCount + 1 ≤ 9 := by decide +kernel
  have walked : diamond.lineage (HostId.ofName "Both")
      = ["Both", "Left", "Right", "Top", "Missing"].map HostId.ofName := by decide +kernel
  obtain ⟨ends, nearest, found⟩ := lineage_nearest_first diamond (HostId.ofName "Both")
  obtain ⟨places, listed, members⟩ := found "size" true
  refine ⟨bound, (ends 9 bound).trans walked, walked ▸ nearest, places, listed, ?_⟩
  have declared : (diamond.lineage (HostId.ofName "Both")).flatMap diamond.declared
      = [Member.property (HostId.ofName "Both") "size" (.numeric .int64),
        Member.property (HostId.ofName "Top") "size" (.numeric .int32),
        Member.method (HostId.ofName "Top") "Size" [] (.numeric .int32)] := by decide +kernel
  have folded : foldCase "size" = "size" ∧ foldCase "Size" = "size" := by decide +kernel
  rw [← members, resolve, declared]
  simp [nameMatches, Member.property, Member.method, Member.ofSignature, folded]

end Registry

end ExprCompiler
