/-
# Each read gives back what was stored

A run of emitted code follows its directives from left to right; a branch only skips
(`Emission.Stands.step`).  So if a write and a read of one slot have no write to it in
between, and no branch gets around the first to a place before the second, then what
the read finds is what the write has stored in the same run (`Machine.reads`).

In the code of a tree all reads are of that kind (`Step.Signs.backed`), and the write
is by the node that reads.
-/
import ExprCompiler.Proofs.Code.Jumps
import ExprCompiler.Proofs.Code.Ownership
import ExprCompiler.Proofs.Machine.Running

namespace ExprCompiler

/-! ## Places in the code -/

namespace Emission

variable {em : Emission} {o e : Nat} {ds : List Directive}

namespace Laid

theorem le (h : em.Laid o ds e) : o ≤ e := by
  induction h with
  | nil o => exact Nat.le_refl o
  | line _ ih => exact ih
  | mark _ _ ih => exact ih
  | instruction _ fetched _ _ ih => exact Nat.le_trans (Nat.le_of_lt (lt_of_fetch? fetched)) ih

theorem lt {d : Directive} (h : em.Laid o ds e) (hd : d ∈ ds) (takes : d.isInstruction = true) :
    o < e := by
  induction h with
  | nil o => exact absurd hd List.not_mem_nil
  | line _ ih =>
      rcases List.mem_cons.mp hd with rfl | later
      · cases takes
      · exact ih later
  | mark _ _ ih =>
      rcases List.mem_cons.mp hd with rfl | later
      · cases takes
      · exact ih later
  | instruction _ fetched _ rest => exact Nat.lt_of_lt_of_le (lt_of_fetch? fetched) rest.le

theorem unique {e' : Nat} (h : em.Laid o ds e) (h' : em.Laid o ds e') : e = e' := by
  induction h with
  | nil o => exact h'.nil_inv.symm
  | line _ ih => exact ih h'.line_inv
  | mark _ _ ih => exact ih h'.mark_inv.2
  | instruction asked fetched _ _ ih =>
      obtain ⟨m, fetched', rest, -⟩ := h'.instruction_inv asked
      rw [fetched] at fetched'
      cases fetched'
      exact ih rest

end Laid

/-- An offset is where the directive with a given index begins. -/
structure Stands (em : Emission) (ds : List Directive) (n o : Nat) : Prop where
  before : em.Laid 0 (ds.take n) o
  after : em.Laid o (ds.drop n) em.chunk.size

namespace Stands

variable {n m j k : Nat} {d : Directive} {i : Instruction}

theorem start (h : em.Laid 0 ds em.chunk.size) : em.Stands ds 0 0 := ⟨.nil 0, h⟩

theorem of_append {front back : List Directive} (h : em.Laid 0 (front ++ back) em.chunk.size)
    (laid : em.Laid 0 front o) : em.Stands (front ++ back) front.length o := by
  obtain ⟨m, before, after⟩ := h.append_inv
  cases before.unique laid
  refine ⟨?_, ?_⟩
  · rwa [List.take_left]
  · rwa [List.drop_left]

/-- Going on in the directives goes on in the code if it passes an instruction. -/
theorem lt (h : em.Stands ds n o) (h' : em.Stands ds m e) (le : n ≤ j) (less : j < m)
    (hd : ds[j]? = some d) (takes : d.isInstruction = true) : o < e := by
  have split : ds.take m = ds.take n ++ (ds.drop n).take (m - n) := by
    rw [← List.take_add, Nat.add_sub_cancel' (by omega)]
  have before := h'.before
  rw [split] at before
  obtain ⟨o', first, rest⟩ := before.append_inv
  cases first.unique h.before
  refine rest.lt (d := d) (List.mem_of_getElem? (i := j - n) ?_) takes
  rw [List.getElem?_take_of_lt (by omega), List.getElem?_drop, Nat.add_sub_cancel' le, hd]

/-- Lines and labels take no place. -/
theorem fetch (h : em.Stands ds n o) (fetched : em.fetch? o = some (i, e)) :
    ∃ j d, n ≤ j ∧ ds[j]? = some d ∧ d.instruction? em.labels = some i ∧ em.Stands ds j o
      ∧ em.Stands ds (j + 1) e := by
  obtain ⟨before, after⟩ := h
  generalize rest_eq : ds.drop n = rest at after
  induction rest generalizing n with
  | nil =>
      obtain ⟨op, read, -, -⟩ := fetch?_ok fetched
      obtain ⟨b, byte, -⟩ := Option.bind_eq_some_iff.mp read
      exact absurd (Chunk.lt_size_of_readByte? byte) (by rw [after.nil_inv]; exact Nat.lt_irrefl o)
  | cons d rest ih =>
      have here : ds[n]? = some d := by
        rw [← Nat.add_zero n, ← List.getElem?_drop, rest_eq]
        rfl
      have next : ds.drop (n + 1) = rest := by
        rw [← List.drop_drop, rest_eq]
        rfl
      have grown : ds.take (n + 1) = ds.take n ++ [d] := by
        rw [List.take_add_one, here]
        rfl
      have skip (laid : em.Laid o [d] o) (after : em.Laid o rest em.chunk.size) := by
        have taken : em.Laid 0 (ds.take (n + 1)) o := grown ▸ before.append laid
        exact ih taken next after
      cases after with
      | line after =>
          obtain ⟨j, d, le, found⟩ := skip (.line (.nil o)) after
          exact ⟨j, d, Nat.le_of_succ_le le, found⟩
      | mark placed after =>
          obtain ⟨j, d, le, found⟩ := skip (.mark placed (.nil o)) after
          exact ⟨j, d, Nat.le_of_succ_le le, found⟩
      | instruction asked fetched' slots after =>
          rw [fetched] at fetched'
          cases fetched'
          refine ⟨n, d, Nat.le_refl n, here, asked, ⟨before, ?_⟩, ?_, next ▸ after⟩
          · rw [rest_eq]
            exact .instruction asked fetched slots after
          · rw [grown]
            exact before.append (.instruction asked fetched slots (.nil e))

theorem head (h : em.Stands ds n o) (hd : ds[n]? = some d) :
    em.Laid o (d :: ds.drop (n + 1)) em.chunk.size := by
  obtain ⟨inside, rfl⟩ := List.getElem?_eq_some_iff.mp hd
  rw [List.getElem_cons_drop]
  exact h.after

/-- A label stands for where it is marked. -/
theorem mark {label : Nat} (whole : em.Laid 0 ds em.chunk.size)
    (marked : ds[n]? = some (.mark label)) :
    ∃ o, em.labels[label]? = some o ∧ em.Stands ds n o := by
  rw [← List.take_append_drop n ds] at whole
  obtain ⟨o, before, after⟩ := whole.append_inv
  have stands : em.Stands ds n o := ⟨before, after⟩
  exact ⟨o, (stands.head marked).mark_inv.1, stands⟩

end Stands

end Emission

/-- The label of a branch is marked further on. -/
theorem Directive.Forward.mark_after {ds : List Directive} (h : Forward ds) {j k : Nat}
    {d : Directive} (hd : ds[j]? = some d) (leads : d.branch? = some k) :
    ∃ t, j < t ∧ ds[t]? = some (.mark k) := by
  induction ds generalizing j with
  | nil => cases hd
  | cons d' ds ih =>
      cases j with
      | zero =>
          cases hd
          obtain ⟨d', marked, same⟩ := List.mem_filterMap.mp (h.1 k leads)
          obtain ⟨t, ht⟩ := List.mem_iff_getElem?.mp marked
          cases d' with
          | mark label =>
              cases same
              exact ⟨t + 1, Nat.succ_pos t, ht⟩
          | _ => cases same
      | succ j =>
          obtain ⟨t, later, ht⟩ := ih h.2 hd
          exact ⟨t + 1, Nat.succ_lt_succ later, ht⟩

/-! ## Writes and their reads -/

/-- A write and a read of one slot that belong together: nothing in between writes to the slot,
and no branch leads from before the write to a place between the two. -/
structure Directive.Paired (ds : List Directive) (s g : Nat) (place : UInt8) : Prop where
  order : s < g
  store : ds[s]? = some (.opByte .setLocal place)
  load : ds[g]? = some (.opByte .getLocal place)
  clean : ∀ i d, s < i → i < g → ds[i]? = some d → d.store? ≠ some place
  skips : ∀ j d k t, j < s → ds[j]? = some d → d.branch? = some k →
    ds[t]? = some (.mark k) → t ≤ s ∨ g < t

/-- A node that has been fed reads what it has written. -/
theorem Fed.paired {me : Author} {next : Nat} {before : List Entry} (h : Fed me next before)
    (after : List Entry) :
    ∃ a b, before = a ++ (me, me.store) :: b ∧ (∀ q ∈ b, q.2.store? ≠ some me.place)
      ∧ Directive.Paired ((before ++ (me, .opByte .getLocal me.place) :: after).map (·.2))
        a.length before.length me.place := by
  obtain ⟨-, a, b, bound, rfl, clean, low, high, -⟩ := h
  refine ⟨a, b, rfl, clean, ?_⟩
  have length : (a ++ (me, me.store) :: b).length = a.length + (b.length + 1) := by simp
  generalize all : ((a ++ (me, me.store) :: b) ++ (me, Directive.opByte .getLocal me.place)
    :: after).map (·.2) = ds
  have load : ds[a.length + (b.length + 1)]? = some (.opByte .getLocal me.place) := by
    rw [← all, List.getElem?_map, List.getElem?_append_right (by omega), length, Nat.sub_self]
    rfl
  have early {j : Nat} {d : Directive} (less : j < a.length) (hd : ds[j]? = some d) :
      ∃ q ∈ a, q.2 = d := by
    rw [← all, List.getElem?_map, List.append_assoc, List.getElem?_append_left less,
      Option.map_eq_some_iff] at hd
    obtain ⟨q, hq, same⟩ := hd
    exact ⟨q, List.mem_of_getElem? hq, same⟩
  have between {j : Nat} {d : Directive} (more : a.length < j)
      (less : j < a.length + (b.length + 1)) (hd : ds[j]? = some d) : ∃ q ∈ b, q.2 = d := by
    obtain ⟨i, rfl⟩ := Nat.exists_eq_add_of_lt more
    rw [← all, List.getElem?_map, List.getElem?_append_left (by omega),
      List.getElem?_append_right (by omega), Nat.add_assoc, Nat.add_sub_cancel_left,
      List.getElem?_cons_succ, Option.map_eq_some_iff] at hd
    obtain ⟨q, hq, same⟩ := hd
    exact ⟨q, List.mem_of_getElem? hq, same⟩
  rw [length]
  refine ⟨by omega, ?_, load, ?_, ?_⟩
  · rw [← all, List.getElem?_map, List.append_assoc, List.getElem?_append_right (Nat.le_refl _),
      Nat.sub_self]
    rfl
  · intro j d more less hd
    obtain ⟨q, hq, rfl⟩ := between more less hd
    exact clean q hq
  · intro j d k t less hd leads marked
    obtain ⟨q, hq, rfl⟩ := early less hd
    have below := low q hq k leads
    by_contra inside
    rcases Nat.lt_or_eq_of_le (show t ≤ a.length + (b.length + 1) by omega) with before | rfl
    · obtain ⟨q', hq', same⟩ := between (by omega) before marked
      have above := high q' hq' k (by rw [same]; rfl)
      omega
    · rw [load] at marked
      cases marked

/-! ## Steps -/

namespace Machine

variable {V T : Type} {M : Machine V T} {em : Emission} {ds : List Directive} {c c' : Config V}

/-- A step carries out one directive.  It goes on to the next one, or to the mark of a label, and
it leaves the slots alone unless it writes to one. -/
theorem step_of_stands (whole : em.Laid 0 ds em.chunk.size) (forward : Directive.Forward ds)
    {n : Nat} (h : em.Stands ds n c.pc) (taken : M.step em c = .running c') :
    ∃ j d t, n ≤ j ∧ j < t ∧ ds[j]? = some d ∧ em.Stands ds j c.pc ∧ em.Stands ds t c'.pc
      ∧ (t = j + 1 ∨ ∃ k, d.branch? = some k ∧ ds[t]? = some (.mark k))
      ∧ (d.store? = none ∧ c'.slots = c.slots
        ∨ ∃ place v, d = .opByte .setLocal place ∧ c.stack = v :: c'.stack
          ∧ place.toNat < c.slots.length ∧ c'.slots = c.slots.set place.toNat (some v)) := by
  rw [step] at taken
  split at taken
  · next i m fetched =>
      obtain ⟨j, d, le, hd, asked, here, next⟩ := h.fetch fetched
      have unstored (other : ∀ place, i ≠ .slot .setLocal place) : d.store? = none := by
        refine Option.eq_none_iff_forall_ne_some.mpr ?_
        intro place stored
        cases Directive.store?_eq_some_iff.mp stored
        cases asked
        exact other place rfl
      rcases act_cases taken with ⟨kind, target, rfl, slots, goes⟩
        | ⟨place, v, rfl, top, inside, slots, goes⟩ | ⟨other, -, slots, goes⟩
      · cases d with
        | branch kind' label =>
            have still : Directive.store? (.branch kind' label) = none ∧ c'.slots = c.slots :=
              ⟨rfl, slots⟩
            rcases goes with goes | goes
            · exact ⟨j, _, j + 1, le, Nat.lt_succ_self j, hd, here, goes ▸ next, .inl rfl,
                .inl still⟩
            · obtain ⟨t, later, marked⟩ := forward.mark_after hd rfl
              obtain ⟨o, known, there⟩ := Emission.Stands.mark whole marked
              obtain ⟨o', known', same⟩ := Option.map_eq_some_iff.mp asked
              cases same
              rw [known] at known'
              cases known'
              exact ⟨j, _, t, le, later, hd, here, goes ▸ there, .inr ⟨label, rfl, marked⟩,
                .inl still⟩
        | _ => cases asked
      · cases d with
        | opByte code place' =>
            cases asked
            exact ⟨j, _, j + 1, le, Nat.lt_succ_self j, hd, here, goes ▸ next, .inl rfl,
              .inr ⟨place, v, rfl, top, inside, slots⟩⟩
        | branch kind label =>
            obtain ⟨o, -, same⟩ := Option.map_eq_some_iff.mp asked
            cases same
        | _ => cases asked
      · exact ⟨j, d, j + 1, le, Nat.lt_succ_self j, hd, here, goes ▸ next, .inl rfl,
          .inl ⟨unstored other, slots⟩⟩
  · cases taken

/-- A slot holds what was stored to it in this run where the directives `front` end. -/
def Recalls (M : Machine V T) (em : Emission) (front : List Directive) (place : UInt8)
    (c : Config V) (v : V) : Prop :=
  ∃ o stack slots, em.Laid 0 front o ∧ M.Reaches em (init em) ⟨o, v :: stack, slots⟩
    ∧ M.Reaches em ⟨o, v :: stack, slots⟩ c ∧ c.slots[place.toNat]? = some (some v)

namespace Recalls

variable {front : List Directive} {place : UInt8} {v : V}

theorem of_store (laid : em.Laid 0 front c.pc) (reached : M.Reaches em (init em) c)
    (taken : M.step em c = .running c') (top : c.stack = v :: c'.stack)
    (inside : place.toNat < c.slots.length)
    (slots : c'.slots = c.slots.set place.toNat (some v)) : M.Recalls em front place c' v := by
  have same : c = ⟨c.pc, v :: c'.stack, c.slots⟩ := by rw [← top]
  refine ⟨c.pc, c'.stack, c.slots, laid, same ▸ reached, same ▸ .one taken, ?_⟩
  rw [slots, List.getElem?_set_self inside]

theorem step (h : M.Recalls em front place c v) (taken : M.step em c = .running c')
    (kept : c'.slots[place.toNat]? = c.slots[place.toNat]?) : M.Recalls em front place c' v := by
  obtain ⟨o, stack, slots, laid, reached, later, holds⟩ := h
  exact ⟨o, stack, slots, laid, reached, later.trans (.one taken), kept.trans holds⟩

theorem holds (h : M.Recalls em front place c v) : c.slots[place.toNat]? = some (some v) := by
  obtain ⟨o, stack, slots, -, -, -, holds⟩ := h
  exact holds

end Recalls

section

variable {s g : Nat} {place : UInt8}

/-- A run and such a pair: it is not there yet, or past it, or in between with the value. -/
def OnTheWay (M : Machine V T) (em : Emission) (ds : List Directive) (s g : Nat) (place : UInt8)
    (c : Config V) : Prop :=
  ∃ n, em.Stands ds n c.pc
    ∧ (n ≤ s ∨ g < n ∨ s < n ∧ n ≤ g ∧ ∃ v, M.Recalls em (ds.take s) place c v)

variable (whole : em.Laid 0 ds em.chunk.size) (forward : Directive.Forward ds)
  (paired : Directive.Paired ds s g place)

include whole forward paired

theorem OnTheWay.step (h : M.OnTheWay em ds s g place c) (reached : M.Reaches em (init em) c)
    (taken : M.step em c = .running c') : M.OnTheWay em ds s g place c' := by
  obtain ⟨n, stands, position⟩ := h
  obtain ⟨j, d, t, le, less, hd, here, there, goes, slots⟩ :=
    step_of_stands whole forward stands taken
  refine ⟨t, there, ?_⟩
  rcases position with before | past | ⟨after, within, v, recalls⟩
  · have notPast : j ≤ s := by
      refine Nat.le_of_not_lt fun past => ?_
      exact Nat.lt_irrefl _ (stands.lt here before past paired.store rfl)
    rcases Nat.lt_or_eq_of_le notPast with before | rfl
    · rcases goes with rfl | ⟨k, leads, marked⟩
      · exact .inl before
      · have around := paired.skips j d k t before hd leads marked
        exact around.imp_right .inl
    · -- the write itself
      cases Option.some.inj (hd.symm.trans paired.store)
      rcases slots with ⟨unstored, -⟩ | ⟨place', v, same, top, inside, slots⟩
      · cases unstored
      · cases same
        rcases goes with rfl | ⟨k, leads, -⟩
        · exact .inr (.inr ⟨less, paired.order, v,
            .of_store here.before reached taken top inside slots⟩)
        · cases leads
  · exact .inr (.inl (by omega))
  · have notPast : j ≤ g := by
      refine Nat.le_of_not_lt fun past => ?_
      exact Nat.lt_irrefl _ (stands.lt here within past paired.load rfl)
    by_cases beyond : g < t
    · exact .inr (.inl beyond)
    · refine .inr (.inr ⟨by omega, by omega, v, recalls.step taken ?_⟩)
      have other := paired.clean j d (by omega) (by omega) hd
      rcases slots with ⟨-, slots⟩ | ⟨place', v', rfl, -, -, slots⟩
      · rw [slots]
      · have apart : place'.toNat ≠ place.toNat := by
          intro same
          exact other (congrArg some (UInt8.toNat_inj.mp same))
        rw [slots, List.getElem?_set_ne apart]

/-- The read pushes what the write has stored. -/
theorem reads (reached : M.Reaches em (init em) c) (stands : em.Stands ds g c.pc) :
    ∃ v next, M.Recalls em (ds.take s) place c v
      ∧ M.step em c = .running ⟨next, v :: c.stack, c.slots⟩ := by
  have onTheWay : M.OnTheWay em ds s g place c := by
    refine reached.invariant (fun d d' reached here taken => ?_) ?_
    · exact here.step whole forward paired reached taken
    · exact ⟨0, .start whole, .inl (Nat.zero_le s)⟩
  obtain ⟨n, stands', before | past | ⟨-, -, v, recalls⟩⟩ := onTheWay
  · exact absurd (stands'.lt stands before paired.order paired.store rfl) (Nat.lt_irrefl _)
  · exact absurd (stands.lt stands' (Nat.le_refl g) past paired.load rfl) (Nat.lt_irrefl _)
  · obtain ⟨next, fetched, -⟩ := (stands.head paired.load).instruction_inv rfl
    refine ⟨v, next, recalls, ?_⟩
    rw [Machine.step, fetched]
    simp only [act, slot, recalls.holds]

end

end Machine

theorem Emission.Laid.refuse_not_mem {em : Emission} {o e : Nat} {ds : List Directive}
    (h : em.Laid o ds e) (fault : Fault) : .refuse fault ∉ ds := by
  intro mem
  obtain ⟨front, back, rfl⟩ := List.append_of_mem mem
  obtain ⟨m, -, after⟩ := h.append_inv
  exact after.refuse_inv

/-- Temporary slots never alias.  Code declares as many slots as its tree needs at once, and uses
no other.  Where a node reads a slot, it has written the slot itself before, once, and no node
has written to it in between; so in every run it reads the value that it has stored. -/
theorem Element.emit_temporaries {tree : Element} {plan : BranchPlan} {em : Emission}
    (h : tree.emit plan = .ok em) :
    em.localCount = tree.need ∧ em.Laid 0 tree.directives em.chunk.size
      ∧ ∃ script, tree.Signed script ∧ script.map (·.2) = tree.directives
      ∧ (∀ author code place, (author, .opByte code place) ∈ script →
        author.node.holds = 1 ∧ place.toNat < em.localCount)
      ∧ ∀ before after author place, script = before ++ (author, .opByte .getLocal place) :: after →
        ∃ a b, before = a ++ (author, .opByte .setLocal place) :: b
          ∧ (∀ place', (author, .opByte .setLocal place') ∉ a ++ b ++ after)
          ∧ (∀ other, (other, .opByte .setLocal place) ∉ b)
          ∧ ∀ {V T : Type} (M : Machine V T) {c : Config V}, M.Reaches em (Machine.init em) c →
            em.Laid 0 (before.map (·.2)) c.pc →
            ∃ v next, M.Recalls em (a.map (·.2)) place c v
              ∧ M.step em c = .running ⟨next, v :: c.stack, c.slots⟩ := by
  have laid := laid_emit h
  obtain ⟨w, -, finished⟩ := Emission.ofDirectives_ok (emit_ok h).2
  have locals := (Writer.finish_ok finished).2.2.2.2
  refine ⟨by rw [locals, localCount_eq_need laid.refuse_not_mem], laid, ?_⟩
  obtain ⟨script, signed, same⟩ := tree.exists_signed
  have forward := tree.directives_forward
  have proper := tree.directives_proper
  rw [← same] at laid locals forward proper
  have backed := signed.backed fun q hq refused =>
    laid.refuse_not_mem _ (List.mem_map.mpr ⟨q, hq, refused⟩)
  refine ⟨script, signed, same, ?_, ?_⟩
  · intro author code place mem
    refine ⟨signed.holds mem, ?_⟩
    have stored : (author, .opByte .setLocal place) ∈ script := by
      rcases proper _ (List.mem_map.mpr ⟨_, mem, rfl⟩) with rfl | rfl
      · exact backed.stored mem
      · exact mem
    rw [locals]
    exact Directive.lt_localCount (List.mem_map.mpr ⟨_, stored, rfl⟩)
  · rintro before after author place rfl
    obtain ⟨rfl, next, fed⟩ := backed.fed
    obtain ⟨a, b, rfl, clean, paired⟩ := fed.paired after
    refine ⟨a, b, rfl, ?_, ?_, ?_⟩
    · rw [List.append_assoc a, List.cons_append] at signed
      rw [List.append_assoc]
      intro place' mem
      exact signed.store_not_mem place' (by simpa using mem)
    · intro other mem
      exact clean _ mem rfl
    · intro V T M c reached placed
      have front : ((a ++ (author, author.store) :: b ++ (author, .opByte .getLocal author.place)
          :: after).map (·.2)).take a.length = a.map (·.2) := by
        rw [List.append_assoc, List.map_append, List.take_left' (List.length_map _)]
      have parts := laid
      rw [List.map_append] at parts
      have stands := Emission.Stands.of_append parts placed
      rw [← List.map_append, List.length_map] at stands
      rw [← front]
      exact Machine.reads laid forward paired reached stands

/-- In `8 in (2 ^ 3)` the power has a slot next to that of the probe, and reads it. -/
theorem Element.emit_temporaries_nested :
    ∃ em, Element.nested.emit ⟨#[true, false], [], 0⟩ = .ok em ∧ em.localCount = 2
      ∧ ∃ author a b after, Element.nested.Signed (a ++ (author, .opByte .setLocal 1) :: b
          ++ (author, .opByte .getLocal 1) :: after)
        ∧ ∀ other, (other, .opByte .setLocal 1) ∉ b := by
  have emits : ∃ em, Element.nested.emit ⟨#[true, false], [], 0⟩ = .ok em := by
    refine Element.nested.emits_of_within _ 64 rfl ?_
    simp only [Emission.ofDirectives, Writer.run_eq_foldlM, Writer.step.eq_def,
      Writer.writeWith.eq_def, ConstantPool.operand, ConstantPool.add,
      ConstantPool.indexOf?_eq_idxOf?]
    decide +kernel
  obtain ⟨em, emitted⟩ := emits
  obtain ⟨locals, -, script, signed, same, -, reads⟩ := Element.emit_temporaries emitted
  have loads : Element.nested.directives.contains (.opByte .getLocal 1) = true :=
    Element.nested.passes_of_within (·.contains (.opByte .getLocal 1)) 64 (by decide +kernel)
  rw [← same, List.contains_iff_mem] at loads
  obtain ⟨⟨author, d⟩, mem, rfl⟩ := List.mem_map.mp loads
  obtain ⟨before, after, rfl⟩ := List.append_of_mem mem
  obtain ⟨a, b, rfl, -, clean, -⟩ := reads before after author 1 rfl
  exact ⟨em, emitted, locals, author, a, b, after, signed, clean⟩

end ExprCompiler
