/-
# Temporary slots

A list holds its probe in a temporary slot and an unrolled power its base; no other node
names one (`Element.places_steps`).  The slot is the first that is not in use around the
node, so slots nest like the nodes that hold them.

So what code declares is what the tree needs at once, by the recursion that one would
write for it (`Element.need`, `Element.localCount_eq_need`).  Neither is computed from
the other: the count comes from the writes in the code (`Element.mem_stores`), and the
need from the nodes that a walk meets (`Element.lt_need_iff_walk`).
-/
import ExprCompiler.Proofs.Code.Authors
import ExprCompiler.Proofs.Code.Limits
import ExprCompiler.Proofs.Code.Readings

namespace ExprCompiler

/-! ## Directives that name slots -/

namespace Directive

/-- The slot that a directive names. -/
def place? : Directive → Option UInt8
  | .opByte _ place => some place
  | _ => none

/-- The slot that a directive writes. -/
def store? : Directive → Option UInt8
  | .opByte .setLocal place => some place
  | _ => none

/-- The slots that directives name, in order. -/
def places (ds : List Directive) : List UInt8 := ds.filterMap place?

/-- The slots that directives write, in order. -/
def stores (ds : List Directive) : List UInt8 := ds.filterMap store?

theorem places_cons (d : Directive) (ds : List Directive) :
    places (d :: ds) = d.place?.toList ++ places ds := by
  simp only [places]
  rw [List.filterMap_cons]
  cases d.place? <;> rfl

theorem place?_of_isPlain {d : Directive} (h : d.isPlain false = true) : d.place? = none := by
  cases d with
  | opByte code place => cases h
  | _ => rfl

theorem store?_of_isPlain {d : Directive} (h : d.isPlain true = true) : d.store? = none := by
  cases d with
  | opByte code place =>
      cases code with
      | setLocal => cases h
      | _ => rfl
  | _ => rfl

theorem store?_eq_some_iff {d : Directive} {place : UInt8} :
    d.store? = some place ↔ d = .opByte .setLocal place := by
  constructor
  · intro h
    unfold store? at h
    split at h
    · cases h
      rfl
    · cases h
  · rintro rfl
    rfl

end Directive

open Directive

/-- A temporary is put into the first free slot, if there is one. -/
theorem storeTemporary_of_lt {live : Nat} (small : live < 256) :
    storeTemporary live = .opByte .setLocal (UInt8.ofNat live) := by
  rw [storeTemporary, if_pos small, Nat.toUInt8_eq]

theorem store?_storeTemporary (live : Nat) :
    (storeTemporary live).store? = if live < 256 then some (UInt8.ofNat live) else none := by
  simp only [storeTemporary]
  split
  · rfl
  · rfl

namespace Element

/-- A node that holds no temporary names no slot. -/
theorem places_steps {e : Element} (h : e.holds = 0) (live first : Nat) :
    places (Step.own (e.steps live first)) = [] := by
  rw [steps, Step.own_emit, places_cons]
  exact (plain_body h live first).filterMap fun _ => place?_of_isPlain

/-- The slot that a node writes, with `live` temporaries in use around it. -/
def ownStores (live : Nat) (e : Element) : List UInt8 :=
  if 0 < e.holds ∧ live < 256 then [UInt8.ofNat live] else []

theorem stores_steps (e : Element) (live first : Nat) :
    stores (Step.own (e.steps live first)) = e.ownStores live := by
  have all : stores (Step.own (e.steps live first)) = stores (Step.own (e.body live first)) := rfl
  rw [all, stores, filterMap_body (fun _ => store?_of_isPlain), store?_storeTemporary, ownStores]
  by_cases none : e.holds = 0
  · rw [if_pos none, if_neg (by omega)]
  · rw [if_neg none]
    by_cases small : live < 256
    · rw [if_pos small, if_pos ⟨Nat.pos_of_ne_zero none, small⟩]
      rfl
    · rw [if_neg small, if_neg fun both => small both.2]
      rfl

/-! ## What a tree needs -/

mutual

/-- How many temporaries a tree needs at once: the most of what its operands need, one more for
the items of a list, which keeps its probe meanwhile, and at least one for an unrolled power,
which keeps its base. -/
def need : Element → Nat
  | literal _ _ => 0
  | arithmetic _ _ (.powerUnrolled _ _ _) base _ => max base.need 1
  | arithmetic _ _ _ l r | compare _ _ _ l r | shift _ _ _ l r | logical _ _ _ l r =>
    max l.need r.need
  | unary _ _ _ e | cast _ _ e | root _ _ e => e.need
  | conditional _ _ _ c t f => max c.need (max t.need f.need)
  | inList _ probe items => max probe.need (1 + needItems items)
  | inCollection _ _ _ probe collection => max probe.need collection.need
  | read _ _ _ receiver => needReceiver receiver
  | call _ _ receiver args => max (needReceiver receiver) (needAll args)

def needItems : List (ComparePlan × Element) → Nat
  | [] => 0
  | (_, e) :: items => max e.need (needItems items)

def needReceiver : Receiver Element → Nat
  | .target e => e.need
  | .owner | .static => 0

def needAll : List Element → Nat
  | [] => 0
  | e :: args => max e.need (needAll args)

end

variable {n : Nat}

theorem lt_needItems_iff {items : List (ComparePlan × Element)} :
    n < needItems items ↔ ∃ item ∈ items, n < item.2.need := by
  induction items with
  | nil => simp [needItems]
  | cons item items ih =>
      obtain ⟨plan, e⟩ := item
      simp only [needItems, lt_max_iff, ih, List.exists_mem_cons_iff]

theorem lt_needAll_iff {args : List Element} : n < needAll args ↔ ∃ e ∈ args, n < e.need := by
  induction args with
  | nil => simp [needAll]
  | cons e args ih => simp only [needAll, lt_max_iff, ih, List.exists_mem_cons_iff]

theorem lt_needReceiver_iff {receiver : Receiver Element} :
    n < needReceiver receiver ↔ ∃ e ∈ receiverChildren receiver, n < e.need := by
  cases receiver <;> simp [needReceiver, receiverChildren]

/-- What a tree needs comes from the node itself or from an operand, with what the node holds
meanwhile. -/
theorem lt_need_iff {e : Element} :
    n < e.need ↔ n < e.holds ∨ ∃ p ∈ e.operands, n < p.1 + p.2.need := by
  cases e with
  | arithmetic info op plan l r =>
      cases plan <;> simp [need, holds, operands, or_comm]
  | inList info probe items =>
      have more : n < 1 + needItems items ↔ n < 1 ∨ ∃ item ∈ items, n < 1 + item.2.need := by
        cases n with
        | zero => exact iff_of_true (by omega) (Or.inl Nat.zero_lt_one)
        | succ m =>
            simp only [Nat.add_comm 1, Nat.add_lt_add_iff_right, lt_needItems_iff]
            simp
      have listed : (∃ p ∈ items.map (fun item => (1, item.2)), n < p.1 + p.2.need)
          ↔ ∃ item ∈ items, n < 1 + item.2.need := by
        constructor
        · rintro ⟨p, hp, less⟩
          obtain ⟨item, hi, rfl⟩ := List.mem_map.mp hp
          exact ⟨item, hi, less⟩
        · rintro ⟨item, hi, less⟩
          exact ⟨_, List.mem_map.mpr ⟨item, hi, rfl⟩, less⟩
      simp only [need, holds, operands, lt_max_iff, more, List.exists_mem_cons_iff, listed,
        Nat.zero_add]
      exact or_left_comm
  | call info target receiver args =>
      simp [need, holds, operands, lt_needReceiver_iff, lt_needAll_iff, or_and_right, exists_or]
  | read info access member receiver =>
      simp [need, holds, operands, lt_needReceiver_iff]
  | _ => simp [need, holds, operands, or_comm]

/-- The need of a tree is the largest number of temporaries in use on its walk. -/
theorem lt_need_iff_walk {e : Element} {live : Nat} :
    n < live + e.need ↔ ∃ p ∈ e.walk live, n < p.1 + p.2.holds := by
  induction live, e using walk.induct with
  | case1 live e ih =>
      have here : n < live + e.need
          ↔ n < live + e.holds ∨ ∃ p ∈ e.operands, n < live + p.1 + p.2.need := by
        obtain less | ⟨m, rfl⟩ := Nat.lt_or_ge n live |>.imp_right Nat.exists_eq_add_of_le
        · exact ⟨fun _ => .inl (by omega), fun _ => by omega⟩
        · simp only [Nat.add_assoc, Nat.add_lt_add_iff_left]
          exact lt_need_iff
      rw [here, walk_eq, List.exists_mem_cons_iff]
      refine or_congr_right ?_
      constructor
      · rintro ⟨p, hp, less⟩
        obtain ⟨q, hq, held⟩ := (ih ⟨p, hp⟩).mp less
        exact ⟨q, List.mem_flatMap.mpr ⟨p, hp, hq⟩, held⟩
      · rintro ⟨q, hq, held⟩
        obtain ⟨p, hp, hq⟩ := List.mem_flatMap.mp hq
        exact ⟨p, hp, (ih ⟨p, hp⟩).mpr ⟨q, hq, held⟩⟩

theorem need_eq_temporaries (e : Element) : e.need = e.temporaries := by
  refine eq_of_forall_lt_iff ?_
  intro n
  rw [lt_temporaries_iff, ← lt_need_iff_walk, Nat.zero_add]

end Element

namespace Directive

theorem lt_localCount_iff {ds : List Directive} {n : Nat} :
    n < localCount ds ↔ ∃ place ∈ stores ds, n ≤ place.toNat := by
  have counted (ds : List Directive) (m : Nat) :
      n < ds.foldl (fun n d => max n d.slots) m ↔ n < m ∨ ∃ d ∈ ds, n < d.slots := by
    induction ds generalizing m with
    | nil => simp
    | cons d ds ih =>
        rw [List.foldl_cons, ih, lt_max_iff, List.exists_mem_cons_iff, or_assoc]
  have needed (d : Directive) : n < d.slots ↔ ∃ place, d.store? = some place ∧ n ≤ place.toNat := by
    unfold slots store?
    split
    · simp only [Option.some.injEq, exists_eq_left', Nat.lt_add_one_iff]
    · simp
  rw [localCount_eq_foldl, counted]
  simp only [Nat.not_lt_zero, false_or, needed, stores, List.mem_filterMap]
  constructor
  · rintro ⟨d, hd, place, stored, le⟩
    exact ⟨place, ⟨d, hd, stored⟩, le⟩
  · rintro ⟨place, ⟨d, hd, stored⟩, le⟩
    exact ⟨d, hd, place, stored, le⟩

end Directive

namespace Element

/-- A slot is written exactly by the nodes that hold it. -/
theorem mem_stores {e : Element} {place : UInt8} :
    place ∈ stores e.directives
      ↔ ∃ p ∈ e.walk 0, place = UInt8.ofNat p.1 ∧ 0 < p.2.holds ∧ p.1 < 256 := by
  have all := e.filterMap_directives (g := fun p => p.2.ownStores p.1) stores_steps
  rw [stores, all.mem_iff, List.mem_flatMap]
  refine exists_congr fun p => and_congr_right fun _ => ?_
  rw [ownStores]
  split <;> simp [*]

/-- Code declares as many slots as its tree needs, if it refuses nothing. -/
theorem localCount_eq_need {e : Element} (fits : ∀ fault, .refuse fault ∉ e.directives) :
    localCount e.directives = e.need := by
  have bound : e.temporaries ≤ 256 := by
    rw [← Nat.not_lt, ← refuses_temporaries, ← e.exits_directives.mem_iff, mem_exits_refuses]
    exact fits _
  refine eq_of_forall_lt_iff ?_
  intro n
  rw [need_eq_temporaries, lt_localCount_iff, lt_temporaries_iff]
  constructor
  · rintro ⟨place, stored, le⟩
    obtain ⟨p, hp, rfl, holds, small⟩ := mem_stores.mp stored
    refine ⟨p, hp, ?_⟩
    rw [UInt8.toNat_ofNat', Nat.mod_eq_of_lt small] at le
    omega
  · rintro ⟨p, hp, less⟩
    -- a node that holds nothing is inside one that does
    obtain ⟨q, hq, holds, le⟩ : ∃ q ∈ e.walk 0, 0 < q.2.holds ∧ n ≤ q.1 := by
      have one := p.2.holds_le_one
      by_cases holds : 0 < p.2.holds
      · exact ⟨p, hp, holds, by omega⟩
      · obtain ⟨q, hq, holds', le⟩ := exists_holder hp (by omega)
        exact ⟨q, hq, holds', by omega⟩
    have small : q.1 < 256 := by
      have least : q.1 < e.temporaries := lt_temporaries_iff.mpr ⟨q, hq, by omega⟩
      omega
    refine ⟨UInt8.ofNat q.1, mem_stores.mpr ⟨q, hq, rfl, holds, small⟩, ?_⟩
    rw [UInt8.toNat_ofNat', Nat.mod_eq_of_lt small]
    exact le

end Element

end ExprCompiler
