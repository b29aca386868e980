/-
# Each node reads its own slot

Temporary slots are given out again and again: by a probe and by what is behind it, by
one item after the other.  Still a node that reads its slot finds what it has put there
itself (`Step.Signs.backed`).

One node keeps to a rule that can be read off its steps (`Step.Tidy`): it reads its
slot only after it has filled it and before it marks a label, and meanwhile it visits
operands with more slots in use.  What it visits writes to slots above its own
(`Step.Gives.above`).  So the slot is as it was left.

That no branch leads from before the write to a place behind it is carried along.
Labels are numbered as they are met: branches from before go to labels below some
bound, and what is marked between the write and the read is not below it (`Fed`).
-/
import ExprCompiler.Proofs.Code.Temporaries

namespace ExprCompiler

/-! ## The rule of a node -/

/-- Whether the slot of a node is filled after a directive of its own, and nothing if the
directive may not stand there. -/
def Directive.after (live : Nat) (held : Bool) : Directive → Option Bool
  | .opByte .setLocal place =>
    if live < 256 ∧ place = UInt8.ofNat live then some true else none
  | .opByte _ place => if held && place = UInt8.ofNat live then some true else none
  | .mark _ => some false
  | _ => some held

namespace Directive

variable {live : Nat} {held held' : Bool} {d : Directive}

theorem after_cases (h : d.after live held = some held') :
    (d = .opByte .setLocal (UInt8.ofNat live) ∧ live < 256 ∧ held' = true)
      ∨ (d.store? = none ∧ d.place? = some (UInt8.ofNat live) ∧ held = true ∧ held' = true)
      ∨ (∃ label, d = .mark label ∧ held' = false)
      ∨ (d.place? = none ∧ d.mark? = none ∧ held' = held) := by
  cases d with
  | opByte code place =>
      unfold after at h
      split at h
      · next place same =>
          cases same
          split at h
          · next same =>
              cases h
              exact .inl ⟨same.2 ▸ rfl, same.1, rfl⟩
          · cases h
      · next code place other same =>
          cases same
          split at h
          · next same =>
              cases h
              rw [Bool.and_eq_true, decide_eq_true_eq] at same
              refine .inr (.inl ⟨?_, congrArg some same.2, same.1, rfl⟩)
              refine Option.eq_none_iff_forall_ne_some.mpr ?_
              intro place' stored
              cases store?_eq_some_iff.mp stored
              exact other rfl
          · cases h
      · next same => cases same
      · next other _ => exact absurd rfl (other code place)
  | mark label =>
      cases h
      exact .inr (.inr (.inl ⟨label, rfl, rfl⟩))
  | _ =>
      cases h
      exact .inr (.inr (.inr ⟨rfl, rfl, rfl⟩))

theorem after_of_place? (h : d.place? = none) : d.after live false = some false := by
  cases d with
  | opByte code place => cases h
  | _ => rfl

/-- A directive without a slot and without a label leaves the slot as it is. -/
theorem after_of_straight (straight : d.Straight) (h : d.place? = none) :
    d.after live held = some held := by
  cases d with
  | opByte code place => cases h
  | mark label => exact straight.elim
  | _ => rfl

end Directive

open Directive

namespace Step

/-- Whether a node that keeps a value in the slot `live` reads it only while it is there. -/
def Tidy (live : Nat) : Bool → List Step → Prop
  | _, [] => True
  | held, .visit l _ :: ts => (held = true → live < l) ∧ Tidy live held ts
  | held, .emit d :: ts => ∃ held', d.after live held = some held' ∧ Tidy live held' ts

variable {live : Nat} {ts us : List Step}

theorem tidy_of_places (h : places (own ts) = []) : Tidy live false ts := by
  induction ts with
  | nil => exact trivial
  | cons t ts ih =>
      cases t with
      | visit l e => exact ⟨nofun, ih h⟩
      | emit d =>
          rw [own_emit, places_cons] at h
          obtain ⟨here, later⟩ := List.append_eq_nil_iff.mp h
          exact ⟨false, after_of_place? (Option.toList_eq_nil_iff.mp here), ih later⟩

/-- Steps that keep the slot filled, and what follows. -/
theorem tidy_append (kept : Each (fun d => d.after live true = some true) ts)
    (deep : ∀ p ∈ visits ts, live < p.1) (rest : Tidy live true us) :
    Tidy live true (ts ++ us) := by
  induction ts with
  | nil => exact rest
  | cons t ts ih =>
      have later : Each (fun d => d.after live true = some true) ts :=
        ⟨fun d hd => kept.each d (List.mem_cons_of_mem _ hd)⟩
      cases t with
      | visit l e =>
          exact ⟨fun _ => deep (l, e) List.mem_cons_self,
            ih later fun p hp => deep p (List.mem_cons_of_mem _ hp)⟩
      | emit d => exact ⟨true, kept.each d List.mem_cons_self, ih later deep⟩

theorem tidy_emits {ds : List Directive} (kept : ∀ d ∈ ds, d.after live true = some true) :
    Tidy live true (emits ds) := by
  rw [← List.append_nil (emits ds)]
  refine tidy_append (each_emits kept) ?_ trivial
  rw [visits_emits]
  exact nofun

theorem kept_emits {ds : List Directive} (straight : ∀ d ∈ ds, d.Straight)
    (plain : Plain false ds) : Each (fun d => d.after live true = some true) (emits ds) := by
  refine each_emits ?_
  intro d hd
  exact after_of_straight (straight d hd) (place?_of_isPlain (plain d hd))

/-- The items of a list read its slot and leave it as it is. -/
theorem kept_items (live hit : Nat) (list : List (ComparePlan × Element)) :
    Each (fun d => d.after live true = some true)
      (items (live + 1) hit (UInt8.ofNat live) list) := by
  have reads : Directive.after live true (.opByte .getLocal (UInt8.ofNat live)) = some true := by
    simp [Directive.after]
  induction list with
  | nil => exact each_nil
  | cons item rest ih =>
      obtain ⟨plan, e⟩ := item
      refine each_append (each_append (each_append ?_ ?_) ?_) ih
      · exact each_emit reads
          (kept_emits (Conversion.straight_directives _) (Conversion.plain_directives _))
      · exact each_visit
          (kept_emits (Conversion.straight_directives _) (Conversion.plain_directives _))
      · rw [emits, List.map_append]
        exact each_append
          (kept_emits (plan.straight_directives .eq) (plan.plain_directives .eq))
          (each_emit rfl each_nil)

theorem kept_power (live : Nat) (kind : NumericKind) (times : OpCode) (n : Nat) :
    ∀ d ∈ powerDirectives (UInt8.ofNat live) kind times n, d.after live true = some true := by
  have reads : Directive.after live true (.opByte .getLocal (UInt8.ofNat live)) = some true := by
    simp [Directive.after]
  fun_induction powerDirectives (UInt8.ofNat live) kind times n with
  | case1 => simp [Directive.after]
  | case2 => simpa using reads
  | case3 n _ _ _ ih =>
      intro d hd
      rcases List.mem_append.mp hd with half | last
      · exact ih d half
      · simp only [List.mem_cons, List.not_mem_nil, or_false] at last
        rcases last with rfl | rfl <;> rfl
  | case4 n _ _ _ ih =>
      intro d hd
      rcases List.mem_append.mp hd with less | last
      · exact ih d less
      · simp only [List.mem_cons, List.not_mem_nil, or_false] at last
        rcases last with rfl | rfl
        · exact reads
        · rfl

/-- A node that gets its slot writes to it first. -/
theorem tidy_store (free : .emit (.refuse .tooManyTemporaries) ∉ .emit (storeTemporary live) :: ts)
    (rest : Tidy live true ts) : Tidy live false (.emit (storeTemporary live) :: ts) := by
  have small : live < 256 := by
    refine Nat.lt_of_not_le fun large => free ?_
    rw [storeTemporary, if_neg (by omega)]
    exact List.mem_cons_self
  rw [storeTemporary_of_lt small]
  exact ⟨true, if_pos ⟨small, rfl⟩, rest⟩

end Step

/-- A node that gets its slot keeps to the rule. -/
theorem Element.tidy_steps (e : Element) (live first : Nat)
    (fits : .emit (.refuse .tooManyTemporaries) ∉ e.steps live first) :
    Step.Tidy live false (e.steps live first) := by
  by_cases none : e.holds = 0
  · exact Step.tidy_of_places (places_steps none live first)
  cases e with
  | arithmetic info op plan l r =>
      cases plan with
      | powerUnrolled exponent kind checked =>
          have free := fun h => fits (List.mem_cons_of_mem _ (List.mem_cons_of_mem _ h))
          refine ⟨false, rfl, nofun, Step.tidy_store free ?_⟩
          refine Step.tidy_emits ?_
          intro d hd
          rcases List.mem_append.mp hd with power | narrow
          · exact Step.kept_power _ _ _ _ d power
          · exact after_of_straight (narrowPower_straight kind checked d narrow)
              (place?_of_isPlain (plain_narrowPower kind checked d narrow))
      | _ => exact absurd rfl none
  | inList info probe items =>
      have free := fun h => fits (List.mem_cons_of_mem _ (List.mem_cons_of_mem _ h))
      refine ⟨false, rfl, nofun, Step.tidy_store free ?_⟩
      refine Step.tidy_append (Step.kept_items live first items) ?_ ?_
      · intro p hp
        rw [Step.visits_items] at hp
        obtain ⟨item, -, rfl⟩ := List.mem_map.mp hp
        exact Nat.lt_succ_self live
      · exact ⟨true, rfl, true, rfl, false, rfl, false, rfl, false, rfl, trivial⟩
  | _ => exact absurd rfl none

/-! ## What a visit adds -/

theorem Element.le_of_mem_walk {e : Element} {live : Nat} {p : Nat × Element}
    (h : p ∈ e.walk live) : live ≤ p.1 := by
  induction live, e using walk.induct with
  | case1 live e ih =>
      rw [walk_eq] at h
      rcases List.mem_cons.mp h with rfl | below
      · exact Nat.le_refl live
      · obtain ⟨q, hq, hp⟩ := List.mem_flatMap.mp below
        exact Nat.le_trans (Nat.le_add_right live q.1) (ih ⟨q, hq⟩ hp)

namespace Step

variable {live next middle : Nat} {e : Element} {ds : List Directive}

/-- What is visited with `live` slots in use writes to none of them. -/
theorem Gives.above (h : Gives (next + e.ownLabels) (e.steps live next) ds middle)
    {slot : Nat} (below : slot < live) (small : slot < 256) : UInt8.ofNat slot ∉ stores ds := by
  intro stored
  have all := h.filterMap_perm (f := store?) (g := fun p => p.2.ownStores p.1)
    Element.stores_steps
  rw [show (own (e.steps live next)).filterMap store? = _ from Element.stores_steps e live next,
    ← e.flatMap_walk (fun p => p.2.ownStores p.1)] at all
  obtain ⟨p, met, writes⟩ := List.mem_flatMap.mp (all.mem_iff.mp stored)
  have above := Element.le_of_mem_walk met
  simp only [Element.ownStores] at writes
  split at writes
  · next holds =>
      have same := congrArg UInt8.toNat (List.mem_singleton.mp writes)
      rw [UInt8.toNat_ofNat', UInt8.toNat_ofNat', Nat.mod_eq_of_lt small,
        Nat.mod_eq_of_lt holds.2] at same
      omega
  · cases writes

/-- What is visited marks labels that are free. -/
theorem Gives.marks_fresh (h : Gives (next + e.ownLabels) (e.steps live next) ds middle) :
    ∀ k ∈ Directive.marks ds, next ≤ k ∧ k < middle := by
  intro k marked
  have low := h.le
  have count := List.count_pos_iff.mpr marked
  rw [h.count_marks, (e.labels_steps live next).1] at count
  by_cases mine : k ∈ List.range' next e.ownLabels
  · rw [List.mem_range'_1] at mine
    omega
  · rw [List.count_eq_zero_of_not_mem mine] at count
    split at count
    · omega
    · omega

/-- And branches to them. -/
theorem Gives.branches_fresh (h : Gives (next + e.ownLabels) (e.steps live next) ds middle) :
    ∀ d ∈ ds, ∀ k, d.branch? = some k → next ≤ k ∧ k < middle := by
  intro d hd k leads
  exact h.marks_fresh k ((h.forward (e.labels_steps live next).2).mem_marks d hd k leads)

end Step

/-- The branches of a node lead to its own labels. -/
theorem Element.branches_steps (e : Element) (live first : Nat) :
    ∀ d, .emit d ∈ e.steps live first → ∀ k, d.branch? = some k → k < first + e.ownLabels := by
  obtain ⟨marks, forward⟩ := e.labels_steps live first
  generalize e.steps live first = ts at marks forward
  have marked : ∀ d, .emit d ∈ ts → ∀ k, d.branch? = some k → k ∈ Step.marks ts := by
    clear marks
    induction ts with
    | nil => exact fun d hd => absurd hd List.not_mem_nil
    | cons t ts ih =>
        intro d hd k leads
        rw [← List.singleton_append, Step.marks_append]
        refine List.mem_append_right _ ?_
        rcases List.mem_cons.mp hd with rfl | later
        · exact forward.1 k leads
        · exact ih forward.2 d later k leads
  intro d hd k leads
  have mine := marked d hd k leads
  rw [marks, List.mem_range'_1] at mine
  exact mine.2

/-! ## Reads and writes -/

namespace Author

/-- The slot of a node. -/
def place (me : Author) : UInt8 := UInt8.ofNat me.live

/-- How a node fills its slot. -/
def store (me : Author) : Directive := .opByte .setLocal me.place

end Author

/-- A node has written its slot, nobody has since, and no branch gets around that: what leads
past it from before goes to labels below a bound, and what is marked since is above. -/
def Fed (me : Author) (next : Nat) (before : List Entry) : Prop :=
  me.live < 256 ∧ ∃ a b bound, before = a ++ (me, me.store) :: b
    ∧ (∀ q ∈ b, q.2.store? ≠ some me.place)
    ∧ (∀ q ∈ a, ∀ k, q.2.branch? = some k → k < bound)
    ∧ (∀ q ∈ b, ∀ k, q.2.mark? = some k → bound ≤ k) ∧ bound ≤ next

/-- Every node that reads its slot has been fed. -/
def Backed : List Entry → List Entry → Prop
  | _, [] => True
  | before, q :: after =>
    (∀ place, q.2 = .opByte .getLocal place → place = q.1.place ∧ ∃ next, Fed q.1 next before)
      ∧ Backed (before ++ [q]) after

theorem Fed.mono {me : Author} {next next' : Nat} {before more : List Entry}
    (h : Fed me next before) (le : next ≤ next')
    (stores : ∀ q ∈ more, q.2.store? ≠ some me.place)
    (marks : ∀ q ∈ more, ∀ k, q.2.mark? = some k → next ≤ k) : Fed me next' (before ++ more) := by
  obtain ⟨few, a, b, bound, rfl, clean, low, high, small⟩ := h
  refine ⟨few, a, b ++ more, bound, by simp, ?_, low, ?_, Nat.le_trans small le⟩
  · intro q hq
    rcases List.mem_append.mp hq with old | new
    · exact clean q old
    · exact stores q new
  · intro q hq k marked
    rcases List.mem_append.mp hq with old | new
    · exact high q old k marked
    · exact Nat.le_trans small (marks q new k marked)

namespace Backed

variable {before xs ys : List Entry}

theorem append (h : Backed before xs) (h' : Backed (before ++ xs) ys) :
    Backed before (xs ++ ys) := by
  induction xs generalizing before with
  | nil => rwa [List.append_nil] at h'
  | cons q xs ih =>
      refine ⟨h.1, ih h.2 ?_⟩
      rwa [List.append_assoc, List.singleton_append]

theorem fed {author : Author} {place : UInt8}
    (h : Backed before (xs ++ (author, .opByte .getLocal place) :: ys)) :
    place = author.place ∧ ∃ next, Fed author next (before ++ xs) := by
  induction xs generalizing before with
  | nil =>
      rw [List.append_nil]
      exact h.1 place rfl
  | cons q xs ih =>
      have later := ih h.2
      rwa [List.append_assoc, List.singleton_append] at later

/-- Who reads a slot writes it. -/
theorem stored {author : Author} {place : UInt8} (h : Backed [] xs)
    (mem : (author, .opByte .getLocal place) ∈ xs) : (author, .opByte .setLocal place) ∈ xs := by
  obtain ⟨front, back, rfl⟩ := List.append_of_mem mem
  obtain ⟨rfl, next, -, a, b, bound, same, -⟩ := h.fed
  rw [List.nil_append] at same
  rw [same]
  exact List.mem_append_left _ (List.mem_append_right _ List.mem_cons_self)

end Backed

namespace Step

namespace Signs

variable {me : Author} {fresh next fresh' next' : Nat} {ts : List Step} {script : List Entry}

theorem mem_of_emit (h : Signs me fresh next ts script fresh' next') :
    ∀ d, .emit d ∈ ts → (me, d) ∈ script := by
  induction h with
  | nil => exact fun d hd => absurd hd List.not_mem_nil
  | emit _ ih =>
      intro d hd
      rcases List.mem_cons.mp hd with same | later
      · cases same
        exact List.mem_cons_self
      · exact List.mem_cons_of_mem _ (ih d later)
  | visit _ _ _ ih' =>
      intro d hd
      rcases List.mem_cons.mp hd with same | later
      · cases same
      · exact List.mem_append_right _ (ih' d later)

/-- One directive of a node that keeps to the rule leaves it fed, if its slot is filled. -/
theorem fed_after {d : Directive} {held held' : Bool} {before : List Entry}
    (kept : d.after me.live held = some held')
    (earlier : ∀ q ∈ before, ∀ k, q.2.branch? = some k → k < next)
    (filled : held = true → Fed me next before) (still : held' = true) :
    Fed me next (before ++ [(me, d)]) := by
  have extend (unstored : d.store? = none) (unmarked : d.mark? = none) (was : held = true) :
      Fed me next (before ++ [(me, d)]) := by
    refine (filled was).mono (Nat.le_refl next) ?_ ?_
    · intro q hq
      rw [List.mem_singleton.mp hq]
      simp [unstored]
    · intro q hq k marked
      rw [List.mem_singleton.mp hq] at marked
      simp [unmarked] at marked
  rcases after_cases kept with ⟨rfl, few, -⟩ | ⟨unstored, placed, was, -⟩ | ⟨label, -, rfl⟩
    | ⟨unplaced, unmarked, rfl⟩
  · refine ⟨few, before, [], next, rfl, ?_, earlier, ?_, Nat.le_refl next⟩
    · intro q hq
      exact absurd hq List.not_mem_nil
    · intro q hq
      exact absurd hq List.not_mem_nil
  · refine extend unstored ?_ was
    cases d with
    | mark label => cases placed
    | _ => rfl
  · cases still
  · refine extend ?_ unmarked still
    cases d with
    | opByte code place => cases unplaced
    | _ => rfl

/-- Nodes that keep to the rule have been fed whenever they read. -/
theorem backed (h : Signs me fresh next ts script fresh' next') {held : Bool}
    {before : List Entry} (tidy : Tidy me.live held ts)
    (own : ∀ d, .emit d ∈ ts → ∀ k, d.branch? = some k → k < next)
    (fits : ∀ q ∈ script, q.2 ≠ .refuse .tooManyTemporaries)
    (earlier : ∀ q ∈ before, ∀ k, q.2.branch? = some k → k < next)
    (filled : held = true → Fed me next before) : Backed before script := by
  induction h generalizing held before with
  | nil => exact trivial
  | @emit me fresh next fresh' next' d ts script _ ih =>
      obtain ⟨held', kept, tidy⟩ := tidy
      refine ⟨?_, ih tidy ?_ ?_ ?_ ?_⟩
      · rintro place rfl
        rcases after_cases kept with ⟨same, -⟩ | ⟨-, placed, was, -⟩ | ⟨label, same, -⟩
          | ⟨unplaced, -⟩
        · cases same
        · exact ⟨Option.some.inj placed, next, filled was⟩
        · cases same
        · cases unplaced
      · exact fun d hd => own d (List.mem_cons_of_mem _ hd)
      · exact fun q hq => fits q (List.mem_cons_of_mem _ hq)
      · intro q hq k leads
        rcases List.mem_append.mp hq with old | new
        · exact earlier q old k leads
        · cases List.mem_singleton.mp new
          exact own d List.mem_cons_self k leads
      · exact fed_after kept earlier filled
  | @visit me fresh next middle between fresh' next' live e ts inside after signed _ ih ih' =>
      have block := signed.gives
      have low := block.le
      have branches := block.branches_fresh
      have marks := block.marks_fresh
      refine (ih (e.tidy_steps live next ?_) (e.branches_steps live next) ?_ ?_ nofun).append
        (ih' tidy.2 ?_ ?_ ?_ ?_)
      · intro refused
        exact fits _ (List.mem_append_left _ (signed.mem_of_emit _ refused)) rfl
      · exact fun q hq => fits q (List.mem_append_left _ hq)
      · intro q hq k leads
        have := earlier q hq k leads
        omega
      · intro d hd k leads
        have := own d (List.mem_cons_of_mem _ hd) k leads
        omega
      · exact fun q hq => fits q (List.mem_append_right _ hq)
      · intro q hq k leads
        rcases List.mem_append.mp hq with old | new
        · have := earlier q old k leads
          omega
        · exact (branches q.2 (List.mem_map_of_mem new) k leads).2
      · intro was
        refine (filled was).mono (by omega) ?_ ?_
        · intro q hq stored
          refine block.above (tidy.1 was) (filled was).1 ?_
          exact List.mem_filterMap.mpr ⟨q.2, List.mem_map_of_mem hq, stored⟩
        · intro q hq k marked
          refine (marks k ?_).1
          exact List.mem_filterMap.mpr ⟨q.2, List.mem_map_of_mem hq, marked⟩

end Signs

end Step

/-! ## Trees -/

namespace Element.Signed

variable {tree : Element} {script : List Entry}

/-- In the code of a tree, nodes have been fed whenever they read. -/
theorem backed (h : tree.Signed script) (fits : ∀ q ∈ script, q.2 ≠ .refuse .tooManyTemporaries) :
    Backed [] script := by
  obtain ⟨fresh, next, signed⟩ := h
  refine signed.backed (tree.tidy_steps 0 0 ?_) ?_ fits ?_ nofun
  · intro refused
    exact fits _ (signed.mem_of_emit _ refused) rfl
  · have own := tree.branches_steps 0 0
    rwa [Nat.zero_add] at own
  · intro q hq
    exact absurd hq List.not_mem_nil

/-- Only nodes that hold a temporary name a slot. -/
theorem holds {author : Author} {code : OpCode} {place : UInt8} (h : tree.Signed script)
    (mem : (author, .opByte code place) ∈ script) : author.node.holds = 1 := by
  obtain ⟨fresh, next, signed⟩ := h
  obtain ⟨first, own⟩ := signed.wrote (fun d hd => ⟨0, hd⟩) _ mem
  have one := author.node.holds_le_one
  have some : author.node.holds ≠ 0 := by
    intro none
    have unnamed := List.filterMap_eq_nil_iff.mp (places_steps none author.live first)
    have listed : .opByte code place ∈ Step.own (author.node.steps author.live first) :=
      List.mem_filterMap.mpr ⟨_, own, rfl⟩
    cases unnamed _ listed
  omega

/-- No node writes twice. -/
theorem store_once (h : tree.Signed script) (n : Nat) :
    script.countP (fun q => q.2.store?.isSome && q.1.number = n) ≤ 1 := by
  have once (e : Element) (live first : Nat) :
      (Step.own (e.steps live first)).countP (·.store?.isSome) ≤ 1 := by
    rw [← List.length_filterMap_eq_countP, show List.filterMap store? _ = _ from
      e.stores_steps live first, ownStores]
    split
    · exact Nat.le_refl 1
    · exact Nat.zero_le 1
  obtain ⟨fresh, next, signed⟩ := h
  refine (signed.countP_le_one once Nat.one_pos n).trans ?_
  split
  · exact once tree 0 0
  · exact Nat.le_refl 1

theorem store_not_mem {a b : List Entry} {author : Author}
    (h : tree.Signed (a ++ (author, author.store) :: b)) (place : UInt8) :
    (author, .opByte .setLocal place) ∉ a ++ b := by
  intro mem
  have once := h.store_once author.number
  have again : 0 < (a ++ b).countP
      (fun q => q.2.store?.isSome && q.1.number = author.number) :=
    List.countP_pos_iff.mpr ⟨_, mem, by simp [store?]⟩
  have mine : (author.store).store?.isSome = true := rfl
  simp only [List.countP_append, List.countP_cons, mine, decide_true, Bool.and_self,
    if_true] at once again
  omega

end Element.Signed

end ExprCompiler
