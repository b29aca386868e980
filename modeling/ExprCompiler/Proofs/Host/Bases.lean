/-
# The base classes of a type

Two walks go from base to base and remember nothing of where they have been: how far one
type is from another, and which collection interface on the way a membership test uses.
If a type were among its own bases, neither would come to an end.

No list of registrations leads there, whether or not the built-in types come first.  What
a type derives from is there before it, and the built-in types, which may be written over
whatever a host has put under their identities, derive from each other only
(`Grounded.registerPrimitives`).  So the walks end, and what they find can be said in terms
of the types that following the base once, twice, and so on, leads to (`nthBase?`):

* a distance is the one number of steps that leads from one type to the other;
* a collection interface is one of the best kind that is declared on the way, the nearest
  of its kind, and on its type the first of its kind.

Main result: `Registry.baseWalks_exact`.
-/
import Mathlib.Data.List.Induction
import ExprCompiler.Proofs.Host.Ancestors

namespace ExprCompiler

theorem CollectionKind.rank_inj {k k' : CollectionKind} (h : k.rank = k'.rank) : k = k' := by
  cases k <;> cases k' <;> first | rfl | cases h

namespace Registry

variable {r : Registry} {d b id x : HostId} {m n fuel : Nat} {c : CollectionInterface}

/-! ## Step by step -/

/-- The type to which following the base so many times leads. -/
def nthBase? (r : Registry) : Nat → HostId → Option HostId
  | 0, id => some id
  | n + 1, id => (r.base? id).bind (r.nthBase? n)

theorem nthBase?_add (r : Registry) (m n : Nat) (id : HostId) :
    r.nthBase? (m + n) id = (r.nthBase? m id).bind (r.nthBase? n) := by
  induction m generalizing id with
  | zero => rw [Nat.zero_add, nthBase?, Option.bind_some]
  | succ m ih =>
      rw [Nat.succ_add, nthBase?, nthBase?, Option.bind_assoc]
      exact Option.bind_congr fun base _ => ih base

theorem getElem?_baseChainFrom (short : n < fuel) :
    (r.baseChainFrom fuel id)[n]? = r.nthBase? n id := by
  induction n generalizing fuel id with
  | zero =>
      obtain ⟨fuel, rfl⟩ := Nat.exists_eq_succ_of_ne_zero (Nat.ne_of_gt short)
      rw [baseChainFrom_succ, List.getElem?_cons_zero, nthBase?]
  | succ n ih =>
      obtain ⟨fuel, rfl⟩ := Nat.exists_eq_succ_of_ne_zero (Nat.ne_of_gt (Nat.zero_lt_of_lt short))
      rw [baseChainFrom_succ, List.getElem?_cons_succ, nthBase?]
      cases r.base? id with
      | none => rfl
      | some base => exact ih (Nat.lt_of_succ_lt_succ short)

namespace Grounded

/-- There are no more steps than types. -/
theorem le_of_nthBase? (h : r.Grounded) (led : r.nthBase? n id = some x) : n ≤ r.typeCount := by
  cases n with
  | zero => exact Nat.zero_le _
  | succ n =>
      obtain ⟨base, based, -⟩ := Option.bind_eq_some_iff.mp led
      rw [← getElem?_baseChainFrom (Nat.lt_succ_self (n + 1))] at led
      obtain ⟨inside, -⟩ := List.getElem?_eq_some_iff.mp led
      exact Nat.le_of_lt (inside.trans_le (h.length_baseChainFrom_le (has_of_base? based) _))

theorem nthBase?_eq_none (h : r.Grounded) (past : r.typeCount < n) (id : HostId) :
    r.nthBase? n id = none := by
  refine Option.eq_none_iff_forall_ne_some.mpr ?_
  intro x led
  exact absurd (h.le_of_nthBase? led) (Nat.not_le_of_lt past)

theorem getElem?_baseChain (h : r.Grounded) (n : Nat) (id : HostId) :
    (r.baseChain id)[n]? = r.nthBase? n id := by
  by_cases short : n < r.typeCount + 1
  · exact getElem?_baseChainFrom short
  · rw [h.nthBase?_eq_none (by omega)]
    exact List.getElem?_eq_none ((r.length_baseChainFrom_le _ _).trans (by omega))

/-! ## Distances -/

theorem inheritanceDistance?_eq_some_iff (h : r.Grounded) :
    r.inheritanceDistance? d b = some n ↔ r.nthBase? n d = some b := by
  have distinct : (r.baseChain d).Nodup := h.nodup_baseChainFrom _ d
  rw [← h.getElem?_baseChain, inheritanceDistance?, List.idxOf?_eq_some_iff,
    List.getElem?_eq_some_iff]
  constructor
  · rintro ⟨inside, here, -⟩
    exact ⟨inside, here⟩
  · rintro ⟨inside, here⟩
    refine ⟨inside, here, ?_⟩
    intro j before again
    exact absurd ((distinct.getElem_inj_iff).mp (again.trans here.symm)) (Nat.ne_of_lt before)

theorem nthBase?_inj (h : r.Grounded) (hm : r.nthBase? m d = some b)
    (hn : r.nthBase? n d = some b) : m = n := by
  have first := h.inheritanceDistance?_eq_some_iff.mpr hm
  have second := h.inheritanceDistance?_eq_some_iff.mpr hn
  exact Option.some.inj (first.symm.trans second)

theorem inheritanceDistance?_add (h : r.Grounded) {x : HostId}
    (lower : r.inheritanceDistance? d b = some m) (upper : r.inheritanceDistance? b x = some n) :
    r.inheritanceDistance? d x = some (m + n) := by
  rw [h.inheritanceDistance?_eq_some_iff] at lower upper ⊢
  rw [nthBase?_add, lower, Option.bind_some, upper]

theorem eq_of_inheritanceDistance? (h : r.Grounded) (up : r.inheritanceDistance? d b = some m)
    (down : r.inheritanceDistance? b d = some n) : d = b := by
  have around := h.inheritanceDistance?_add up down
  rw [inheritanceDistance?_self, Option.some.injEq] at around
  obtain rfl : m = 0 := by omega
  exact Option.some.inj (h.inheritanceDistance?_eq_some_iff.mp up)

end Grounded

/-- The walk towards `base`, with the steps it has made, from the type it has come to if
there is one.  Without an answer within the bound there is none. -/
def distanceFrom (r : Registry) (base : HostId) : Nat → Nat → Option HostId → Option (Option Nat)
  | _, _, none => some none
  | 0, _, some _ => none
  | fuel + 1, steps, some id =>
    if id = base then some (some steps) else r.distanceFrom base fuel (steps + 1) (r.base? id)

theorem distanceFrom_none (r : Registry) (base : HostId) (fuel steps : Nat) :
    r.distanceFrom base fuel steps none = some none := by
  cases fuel <;> rfl

/-- A chain that has ended within the bound has been searched. -/
theorem distanceFrom_eq (ended : r.nthBase? fuel id = none) (base : HostId) (steps : Nat) :
    r.distanceFrom base fuel steps (some id)
      = some (((r.baseChainFrom fuel id).idxOf? base).map (steps + ·)) := by
  induction fuel generalizing id steps with
  | zero => cases ended
  | succ fuel ih =>
      rw [distanceFrom, baseChainFrom_succ, List.idxOf?_cons]
      by_cases here : id = base
      · rw [if_pos here, if_pos (beq_iff_eq.mpr here)]
        rfl
      · rw [if_neg here, if_neg (fun same => here (beq_iff_eq.mp same))]
        cases based : r.base? id with
        | none => exact distanceFrom_none r base fuel (steps + 1)
        | some next =>
            rw [nthBase?, based, Option.bind_some] at ended
            rw [ih ended, Option.map_map]
            have shift : (fun n => steps + 1 + n) = (steps + ·) ∘ (· + 1) := by
              funext n
              exact (Nat.add_right_comm steps 1 n).trans (Nat.add_assoc steps n 1)
            exact congrArg (fun f => some (Option.map f _)) shift

/-! ## Collection interfaces -/

/-- The collection interfaces that a type declares itself. -/
def ownCollections (r : Registry) (id : HostId) : List CollectionInterface :=
  (r.entry? id).elim [] (·.collections)

/-- A collection interface is declared so many steps along the base classes. -/
def DeclaresAt (r : Registry) (id : HostId) (n : Nat) (c : CollectionInterface) : Prop :=
  ∃ base, r.nthBase? n id = some base ∧ c ∈ r.ownCollections base

/-- Among all that are declared along the base classes a collection interface is of the
best kind.  No nearer type declares one of this kind, and its own type none before it. -/
structure Preferred (r : Registry) (id : HostId) (c : CollectionInterface) : Prop where
  best : ∀ n a, r.DeclaresAt id n a → c.kind.rank ≤ a.kind.rank
  nearest : ∃ n base, r.nthBase? n id = some base
    ∧ (r.ownCollections base).find? (fun a => a.kind = c.kind) = some c
    ∧ ∀ m < n, ∀ a, r.DeclaresAt id m a → a.kind ≠ c.kind

theorem foldl_betterCollection_eq_none {l : List CollectionInterface}
    (h : l.foldl betterCollection none = none) : l = [] := by
  cases l using List.reverseRecOn with
  | nil => rfl
  | append_singleton l a =>
      rw [List.foldl_append, List.foldl_cons, List.foldl_nil] at h
      cases before : l.foldl betterCollection none with
      | none => rw [before] at h; cases h
      | some b =>
          rw [before, betterCollection] at h
          split at h <;> cases h

/-- What is kept of a list is the first of the best kind. -/
theorem foldl_betterCollection_some {l : List CollectionInterface}
    (h : l.foldl betterCollection none = some c) :
    (∀ a ∈ l, c.kind.rank ≤ a.kind.rank) ∧ l.find? (fun a => a.kind = c.kind) = some c := by
  induction l using List.reverseRecOn generalizing c with
  | nil => cases h
  | append_singleton l a ih =>
      rw [List.foldl_append, List.foldl_cons, List.foldl_nil] at h
      rw [List.forall_mem_append, List.forall_mem_singleton, List.find?_append]
      cases kept : l.foldl betterCollection none with
      | none =>
          rw [kept] at h
          cases h
          rw [foldl_betterCollection_eq_none kept]
          simp
      | some b =>
          obtain ⟨best, first⟩ := ih kept
          rw [kept, betterCollection] at h
          split at h
          · next better =>
              cases h
              have none_before : l.find? (fun x => x.kind = a.kind) = none := by
                refine List.find?_eq_none.mpr ?_
                intro x hx same
                have lower := best x hx
                rw [of_decide_eq_true same] at lower
                omega
              refine ⟨⟨fun x hx => (Nat.le_of_lt better).trans (best x hx), Nat.le_refl _⟩, ?_⟩
              rw [none_before]
              simp
          · next worse =>
              cases h
              refine ⟨⟨best, Nat.le_of_not_lt worse⟩, ?_⟩
              rw [first]
              rfl

theorem foldl_betterCollection_eq_some_iff {l : List CollectionInterface} :
    l.foldl betterCollection none = some c
      ↔ (∀ a ∈ l, c.kind.rank ≤ a.kind.rank) ∧ l.find? (fun a => a.kind = c.kind) = some c := by
  refine ⟨foldl_betterCollection_some, ?_⟩
  rintro ⟨best, first⟩
  cases kept : l.foldl betterCollection none with
  | none =>
      rw [foldl_betterCollection_eq_none kept] at first
      cases first
  | some b =>
      obtain ⟨best', first'⟩ := foldl_betterCollection_some kept
      have same : c.kind = b.kind := CollectionKind.rank_inj
        (Nat.le_antisymm (best b (List.mem_of_find?_eq_some first'))
          (best' c (List.mem_of_find?_eq_some first)))
      rw [same, first'] at first
      exact first

theorem flatMap_collections (r : Registry) (ids : List HostId) :
    (ids.filterMap r.entry?).flatMap (·.collections) = ids.flatMap r.ownCollections := by
  induction ids with
  | nil => rfl
  | cons id ids ih =>
      rw [List.filterMap_cons, List.flatMap_cons, ownCollections]
      cases r.entry? id with
      | none => exact ih
      | some e => exact congrArg (e.collections ++ ·) ih

/-- The first answer along a list is that of the first place with one. -/
theorem findSome?_eq_some_iff_getElem? {α β : Type} {f : α → Option β} {l : List α} {y : β} :
    l.findSome? f = some y ↔ ∃ (n : Nat) (x : α), l[n]? = some x ∧ f x = some y
      ∧ ∀ m < n, ∀ x' : α, l[m]? = some x' → f x' = none := by
  rw [List.findSome?_eq_some_iff]
  constructor
  · rintro ⟨front, x, back, rfl, answer, silent⟩
    refine ⟨front.length, x, ?_, answer, ?_⟩
    · rw [List.getElem?_append_right (Nat.le_refl _), Nat.sub_self, List.getElem?_cons_zero]
    intro m before x' here
    rw [List.getElem?_append_left before] at here
    exact silent x' (List.mem_of_getElem? here)
  · rintro ⟨n, x, here, answer, silent⟩
    obtain ⟨inside, rfl⟩ := List.getElem?_eq_some_iff.mp here
    refine ⟨l.take n, l[n], l.drop (n + 1), ?_, answer, ?_⟩
    · rw [List.getElem_cons_drop, List.take_append_drop]
    · intro x' hx
      obtain ⟨m, before, rfl⟩ := List.mem_take_iff_getElem.mp hx
      exact silent m (by omega) _ (List.getElem?_eq_getElem _)

namespace Grounded

theorem mem_flatMap_baseChain (h : r.Grounded) :
    c ∈ (r.baseChain d).flatMap r.ownCollections ↔ ∃ n, r.DeclaresAt d n c := by
  rw [List.mem_flatMap]
  constructor
  · rintro ⟨base, there, declared⟩
    obtain ⟨n, here⟩ := List.mem_iff_getElem?.mp there
    exact ⟨n, base, (h.getElem?_baseChain n d).symm.trans here, declared⟩
  · rintro ⟨n, base, led, declared⟩
    exact ⟨base, List.mem_of_getElem? ((h.getElem?_baseChain n d).trans led), declared⟩

theorem collectionInterface?_eq_some_iff (h : r.Grounded) :
    r.collectionInterface? d = some c ↔ r.Preferred d c := by
  rw [collectionInterface?, flatMap_collections, foldl_betterCollection_eq_some_iff,
    List.find?_flatMap, findSome?_eq_some_iff_getElem?]
  simp only [h.mem_flatMap_baseChain, h.getElem?_baseChain]
  constructor
  · rintro ⟨best, n, base, led, first, nearer⟩
    refine ⟨fun m a declared => best a ⟨m, declared⟩, n, base, led, first, ?_⟩
    rintro m before a ⟨base', led', declared⟩ same
    exact absurd (decide_eq_true same)
      (List.find?_eq_none.mp (nearer m before base' led') a declared)
  · rintro ⟨best, n, base, led, first, nearer⟩
    refine ⟨fun a ⟨m, declared⟩ => best m a declared, n, base, led, first, ?_⟩
    intro m before base' led'
    refine List.find?_eq_none.mpr ?_
    intro a declared same
    exact nearer m before a ⟨base', led', declared⟩ (of_decide_eq_true same)

theorem collectionInterface?_eq_none_iff (h : r.Grounded) :
    r.collectionInterface? d = none ↔ ∀ n c, ¬ r.DeclaresAt d n c := by
  have nothing : r.collectionInterface? d = none
      ↔ (r.baseChain d).flatMap r.ownCollections = [] := by
    rw [collectionInterface?, flatMap_collections]
    exact ⟨foldl_betterCollection_eq_none, fun empty => by rw [empty]; rfl⟩
  rw [nothing, List.eq_nil_iff_forall_not_mem]
  simp only [h.mem_flatMap_baseChain, not_exists]
  exact forall_comm

end Grounded

/-- The walk that keeps the best collection interface so far, from the description it has
come to if there is one.  Without an answer within the bound there is none. -/
def collectionFrom (r : Registry) :
    Nat → Option CollectionInterface → Option TypeEntry → Option (Option CollectionInterface)
  | _, best, none => some best
  | 0, _, some _ => none
  | fuel + 1, best, some e =>
    r.collectionFrom fuel (e.collections.foldl betterCollection best) (e.base.bind r.entry?)

theorem collectionFrom_none (r : Registry) (fuel : Nat) (best : Option CollectionInterface) :
    r.collectionFrom fuel best none = some best := by
  cases fuel <;> rfl

/-- A chain that has ended within the bound has been looked through. -/
theorem collectionFrom_eq (ended : r.nthBase? fuel id = none)
    (best : Option CollectionInterface) :
    r.collectionFrom fuel best (r.entry? id)
      = some (((r.baseChainFrom fuel id).flatMap r.ownCollections).foldl
          betterCollection best) := by
  induction fuel generalizing id best with
  | zero => cases ended
  | succ fuel ih =>
      rw [baseChainFrom_succ, List.flatMap_cons, List.foldl_append, ownCollections]
      rw [nthBase?, base?] at ended
      rw [base?]
      cases found : r.entry? id with
      | none => exact collectionFrom_none r (fuel + 1) best
      | some e =>
          rw [found, Option.bind_some] at ended
          rw [Option.bind_some, collectionFrom, Option.elim_some]
          cases based : e.base with
          | none => exact collectionFrom_none r fuel _
          | some base =>
              rw [based, Option.bind_some] at ended
              exact ih ended _

/-! ## All registrations -/

theorem grounded_made (regs : List Registration) : (made regs).Grounded := by
  refine List.foldlRecOn regs after Grounded.start ?_
  intro r grounded reg _
  exact grounded.grows (grows_after r reg)

/-- Starting from nothing or from the built-in types, whatever has been registered or
refused: both walks along the base classes end, within a step more than there are types.
There is a distance to another type exactly if following the base so many times leads there,
which it does for one number of steps only; distances add up; and of two types each of which
has a distance to the other both are the same.  The collection interface is the preferred one
of those that are declared on the way, and there is none only if none is declared. -/
theorem baseWalks_exact {regs : List Registration} {r : Registry}
    (host : r = made regs ∨ r = reached regs) (d b : HostId) :
    (∀ fuel, r.typeCount < fuel →
        r.distanceFrom b fuel 0 (some d) = some (r.inheritanceDistance? d b))
      ∧ (∀ n, r.inheritanceDistance? d b = some n ↔ r.nthBase? n d = some b)
      ∧ (∀ m n, r.nthBase? m d = some b → r.nthBase? n d = some b → m = n)
      ∧ (∀ x m n, r.inheritanceDistance? d b = some m → r.inheritanceDistance? b x = some n →
        r.inheritanceDistance? d x = some (m + n))
      ∧ (∀ m n, r.inheritanceDistance? d b = some m → r.inheritanceDistance? b d = some n → d = b)
      ∧ (∀ fuel, r.typeCount < fuel →
        r.collectionFrom fuel none (r.entry? d) = some (r.collectionInterface? d))
      ∧ (∀ c, r.collectionInterface? d = some c ↔ r.Preferred d c)
      ∧ (r.collectionInterface? d = none ↔ ∀ n c, ¬ r.DeclaresAt d n c) := by
  have grounded : r.Grounded := by
    rcases host with rfl | rfl
    · exact grounded_made regs
    · exact (sound_reached regs).ordered.grounded
  refine ⟨?_, fun n => grounded.inheritanceDistance?_eq_some_iff, fun m n => grounded.nthBase?_inj,
    fun x m n => grounded.inheritanceDistance?_add, fun m n => grounded.eq_of_inheritanceDistance?,
    ?_, fun c => grounded.collectionInterface?_eq_some_iff,
    grounded.collectionInterface?_eq_none_iff⟩
  · intro fuel enough
    rw [distanceFrom_eq (grounded.nthBase?_eq_none enough d), inheritanceDistance?,
      grounded.baseChain_eq enough]
    simp
  · intro fuel enough
    rw [collectionFrom_eq (grounded.nthBase?_eq_none enough d), collectionInterface?,
      flatMap_collections, grounded.baseChain_eq enough]

/-- A host that has put types of its own under the identities of strings and of the root
class, the second above the first, before the built-in types are written; and a class over a
class over strings, with collection interfaces on both. -/
def overwritten : List Registration :=
  let index := HostId.ofName "Index"
  let bag := HostId.ofName "Bag"
  [.type (.plain "Text" ⟨Ty.string.id, .refClass⟩),
    .type { TypeEntry.plain "Thing" ⟨Ty.object.id, .refClass⟩ with base := some Ty.string.id },
    .primitives, .refClass "Index" (some Ty.string.id) [] .empty,
    .refClass "Bag" (some index) [] .empty, .collection bag .list Ty.object,
    .collection bag .collection Ty.string, .collection index .dictionary Ty.string]

theorem baseWalks_exact_overwritten :
    (made overwritten).typeCount < 20
      ∧ (made overwritten).nthBase? 3 (HostId.ofName "Bag") = some Ty.object.id
      ∧ (made overwritten).distanceFrom Ty.object.id 20 0 (some (HostId.ofName "Bag"))
        = some (some 3)
      ∧ ∃ c, (made overwritten).collectionInterface? (HostId.ofName "Bag") = some c
        ∧ c.kind = .dictionary ∧ (made overwritten).Preferred (HostId.ofName "Bag") c := by
  have bound : (made overwritten).typeCount < 20 := by decide +kernel
  have led : (made overwritten).nthBase? 3 (HostId.ofName "Bag") = some Ty.object.id := by
    decide +kernel
  have kept : ((made overwritten).collectionInterface? (HostId.ofName "Bag")).map (·.kind)
      = some .dictionary := by decide +kernel
  obtain ⟨c, found, kind⟩ := Option.map_eq_some_iff.mp kept
  have host : made overwritten = made overwritten ∨ made overwritten = reached overwritten :=
    Or.inl rfl
  obtain ⟨ends, distance, -, -, -, -, preferred, -⟩ :=
    baseWalks_exact host (HostId.ofName "Bag") Ty.object.id
  refine ⟨bound, led, ?_, c, found, kind, (preferred c).mp found⟩
  rw [ends 20 bound, (distance 3).mpr led]

end Registry

end ExprCompiler
