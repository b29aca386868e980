/-
# Regions of code

`Signature.Passes em result o e entry exit` says that the code from `o` to `e` is
safe on categories: from a state in `entry` an abstract run stays between the two
offsets, always has successors, and meets each offset with one stack, until it is
in `exit`.  The states on the way are a set that the relation hides; two regions
one after the other have the union of their sets, and since offsets of different
regions differ, there is still one stack at each.

Regions may have several entries and exits, as the code behind a conditional
branch does (`Passes.join`).  Most have one of each (`Signature.Flows`).
-/
import ExprCompiler.Proofs.Category.Execution
import ExprCompiler.Proofs.Code.Coverage
import ExprCompiler.Proofs.Code.Fragments
import ExprCompiler.Proofs.Machine.Straight

namespace ExprCompiler

open Machine (Kept)

/-- A state at an offset, with a stack, and with the slots below `live` as in
`base`. -/
structure Config.At {V : Type} (live : Nat) (base : List (Option V)) (o : Nat) (s : List V)
    (c : Config V) : Prop where
  pc : c.pc = o
  stack : c.stack = s
  kept : Kept live base c.slots

/-- A state that keeps one slot more will do. -/
theorem Config.At.outside {V : Type} {live : Nat} {base : List (Option V)} {o : Nat} {s : List V}
    {c : Config V} {v : V} (h : c.At (live + 1) (base.set live (some v)) o s) :
    c.At live base o s := by
  refine ⟨h.pc, h.stack, ?_, fun i hi => ?_⟩
  · rw [h.kept.length, List.length_set]
  · rw [h.kept.below i (Nat.lt_succ_of_lt hi), List.getElem?_set_ne (Nat.ne_of_gt hi)]

namespace Signature

/-- The states of a region, from its entry on. -/
structure Region (sig : Signature) (em : Emission) (result : Category) (o e : Nat)
    (entry exit inside : Config Category → Prop) : Prop where
  ordered : o ≤ e
  enters : ∀ c, entry c → inside c ∨ exit c
  range : ∀ c, inside c → o ≤ c.pc ∧ c.pc < e
  one : ∀ c c', inside c → inside c' → c.pc = c'.pc → c.stack = c'.stack
  steps : ∀ c, inside c → ∃ cs, sig.successors em result c = some cs
    ∧ ∀ c' ∈ cs, inside c' ∨ exit c'

/-- Runs pass safely through the code between two offsets. -/
def Passes (sig : Signature) (em : Emission) (result : Category) (o e : Nat)
    (entry exit : Config Category → Prop) : Prop :=
  ∃ inside, sig.Region em result o e entry exit inside

/-- Passing from one state to another, by way of every instruction in between. -/
structure Flows (sig : Signature) (em : Emission) (result : Category) (live : Nat)
    (base : List (Option Category)) (o : Nat) (s : List Category) (e : Nat)
    (s' : List Category) : Prop where
  passes : sig.Passes em result o e (Config.At live base o s) (Config.At live base e s')
  covers : em.Covers o e

variable {sig : Signature} {em : Emission} {result : Category}

namespace Passes

variable {o m e : Nat} {A B C D X : Config Category → Prop}

/-- There is no code between an offset and itself. -/
theorem refl (o : Nat) (h : ∀ c, A c → B c) : sig.Passes em result o o A B := by
  refine ⟨fun _ => False, Nat.le_refl o, fun c hc => Or.inr (h c hc), ?_, ?_, ?_⟩
  · exact fun c hc => hc.elim
  · exact fun c _ hc => hc.elim
  · exact fun c hc => hc.elim

theorem mono {A' B' : Config Category → Prop} (h : sig.Passes em result o e A B)
    (enters : ∀ c, A' c → A c) (leaves : ∀ c, B c → B' c) : sig.Passes em result o e A' B' := by
  obtain ⟨inside, region⟩ := h
  refine ⟨inside, region.ordered, fun c hc => ?_, region.range, region.one, fun c hc => ?_⟩
  · exact (region.enters c (enters c hc)).imp_right (leaves c)
  · obtain ⟨cs, found, next⟩ := region.steps c hc
    exact ⟨cs, found, fun c' hc' => (next c' hc').imp_right (leaves c')⟩

/-- Two regions one after the other.  The first one leads into the second or out,
and either may be entered. -/
theorem join (first : sig.Passes em result o m A B) (second : sig.Passes em result m e C D)
    (goes : ∀ c, B c → C c ∨ X c) (ends : ∀ c, D c → X c) :
    sig.Passes em result o e (fun c => A c ∨ C c) X := by
  obtain ⟨inside, region⟩ := first
  obtain ⟨inside', region'⟩ := second
  have enter {c : Config Category} (hc : C c) : (inside c ∨ inside' c) ∨ X c := by
    rcases region'.enters c hc with within | out
    · exact Or.inl (Or.inr within)
    · exact Or.inr (ends c out)
  have leave {c : Config Category} (hc : inside c ∨ B c) : (inside c ∨ inside' c) ∨ X c := by
    rcases hc with within | out
    · exact Or.inl (Or.inl within)
    · exact (goes c out).elim enter Or.inr
  refine ⟨fun c => inside c ∨ inside' c, Nat.le_trans region.ordered region'.ordered, ?_, ?_, ?_,
    ?_⟩
  · rintro c (hc | hc)
    · exact leave (region.enters c hc)
    · exact enter hc
  · rintro c (hc | hc)
    · have := region.range c hc
      have := region'.ordered
      omega
    · have := region'.range c hc
      have := region.ordered
      omega
  · -- states of different regions are at different offsets
    rintro c c' (hc | hc) (hc' | hc') same
    · exact region.one c c' hc hc' same
    · have := region.range c hc
      have := region'.range c' hc'
      omega
    · have := region'.range c hc
      have := region.range c' hc'
      omega
    · exact region'.one c c' hc hc' same
  · rintro c (hc | hc)
    · obtain ⟨cs, found, next⟩ := region.steps c hc
      exact ⟨cs, found, fun c' hc' => leave (next c' hc')⟩
    · obtain ⟨cs, found, next⟩ := region'.steps c hc
      refine ⟨cs, found, ?_⟩
      intro c' hc'
      rcases next c' hc' with within | out
      · exact Or.inl (Or.inr within)
      · exact Or.inr (ends c' out)

/-- A region that leads into another or to where that one leads. -/
theorem into (first : sig.Passes em result o m A B) (second : sig.Passes em result m e C D)
    (goes : ∀ c, B c → C c ∨ D c) : sig.Passes em result o e A D :=
  (first.join second goes fun _ hc => hc).mono (fun _ hc => Or.inl hc) fun _ hc => hc

theorem seq (first : sig.Passes em result o m A B) (second : sig.Passes em result m e B D) :
    sig.Passes em result o e A D :=
  first.into second fun _ hc => Or.inl hc

/-- An instruction is a region of its own. -/
theorem one {i : Instruction} {live : Nat} {base : List (Option Category)} {s : List Category}
    (fetched : em.fetch? o = some (i, m))
    (follows : ∀ slots, Kept live base slots → ∃ cs,
      sig.follow result i m ⟨o, s, slots⟩ = some cs ∧ ∀ c ∈ cs, B c) :
    sig.Passes em result o m (Config.At live base o s) B := by
  have ahead := Emission.lt_of_fetch? fetched
  refine ⟨Config.At live base o s, Nat.le_of_lt ahead, fun c hc => Or.inl hc, fun c hc => ?_,
    fun c c' hc hc' _ => hc.stack.trans hc'.stack.symm, ?_⟩
  · rw [hc.pc]
    exact ⟨Nat.le_refl o, ahead⟩
  · rintro ⟨pc, stack, slots⟩ ⟨rfl, rfl, kept⟩
    obtain ⟨cs, followed, leaves⟩ := follows slots kept
    refine ⟨cs, ?_, fun c hc => Or.inr (leaves c hc)⟩
    simp only [successors, fetched, followed]

end Passes

/-! ## Single instructions -/

variable {live : Nat} {base : List (Option Category)} {o m e : Nat} {s s' : List Category}

theorem Flows.refl (o : Nat) (s : List Category) : sig.Flows em result live base o s o s :=
  ⟨.refl o fun _ hc => hc, .refl o⟩

theorem Flows.seq {s'' : List Category} (h : sig.Flows em result live base o s m s')
    (h' : sig.Flows em result live base m s' e s'') :
    sig.Flows em result live base o s e s'' :=
  ⟨h.passes.seq h'.passes, h.covers.trans h'.covers⟩

theorem follow_plain {i : Instruction} {next : Nat} {c : Config Category}
    (plain : ∀ kind target, i ≠ .branch kind target) (goes : i ≠ .plain .ret) :
    sig.follow result i next c = match sig.machine.act i next c with
      | .running c' => some [c']
      | _ => none := by
  simp only [follow]
  split
  · exact absurd rfl (plain _ _)
  · exact absurd rfl (plain _ _)
  · exact absurd rfl goes
  · rfl

/-- An instruction that the machine on categories can do is followed. -/
theorem follow_of_act {i : Instruction} {next : Nat} {c c' : Config Category}
    (plain : ∀ kind target, i ≠ .branch kind target)
    (acts : sig.machine.act i next c = .running c') : sig.follow result i next c = some [c'] := by
  have goes : i ≠ .plain .ret := by
    -- a return ends a run or has nothing to return
    rintro rfl
    obtain ⟨pc, stack, slots⟩ := c
    cases stack with
    | nil => cases acts
    | cons v stack => cases stack <;> cases acts
  rw [follow_plain plain goes, acts]

/-- The successors of a state are where its instruction leads. -/
theorem leads_of_follow {i : Instruction} {next : Nat} {c : Config Category}
    {cs : List (Config Category)} (h : sig.follow result i next c = some cs) :
    cs.map (·.pc) = i.leads next := by
  have other (plain : ∀ kind target, i ≠ .branch kind target) :
      cs.map (·.pc) = i.leads next := by
    by_cases goes : i = .plain .ret
    · subst goes
      have h : (if c.stack = [result] then some [] else none) = some cs := h
      split at h <;> cases h
      rfl
    · rw [follow_plain plain goes] at h
      split at h
      · next c' acts =>
          cases h
          rw [List.map_singleton, Machine.pc_of_act plain acts, Instruction.leads_plain plain goes]
      · cases h
  cases i with
  | branch kind target =>
      obtain ⟨pc, stack, slots⟩ := c
      cases kind with
      | always =>
          cases h
          rfl
      | _ =>
          rcases stack with _ | ⟨_ | _ | _ | _ | _, stack⟩ <;> cases h
          rfl
  | _ => exact other nofun

/-- An instruction that goes on to the next one. -/
theorem flows_one {i : Instruction} (fetched : em.fetch? o = some (i, m))
    (plain : ∀ kind target, i ≠ .branch kind target)
    (acts : ∀ slots, Kept live base slots →
      sig.machine.act i m ⟨o, s, slots⟩ = .running ⟨m, s', slots⟩) :
    sig.Flows em result live base o s m s' := by
  have follows (slots : List (Option Category)) (kept : Kept live base slots) :
      sig.follow result i m ⟨o, s, slots⟩ = some [⟨m, s', slots⟩] :=
    follow_of_act plain (acts slots kept)
  refine ⟨.one fetched fun slots kept => ⟨_, follows slots kept, ?_⟩, .one fetched ?_⟩
  · exact List.forall_mem_singleton.mpr ⟨rfl, rfl, kept⟩
  · rw [← leads_of_follow (follows base (.refl live base))]
    exact List.mem_singleton.mpr rfl

/-- Directives that categories can be computed through. -/
theorem flows_of_executes {ds : List Directive}
    (h : sig.machine.Executes (Kept live base) ds s (.ok s')) (laid : em.Laid o ds e) :
    sig.Flows em result live base o s e s' := by
  generalize same : (.ok s' : Except Unit (List Category)) = r at h
  induction h generalizing o with
  | nil s =>
      cases same
      cases laid.nil_inv
      exact .refl _ _
  | @step d i ds s t r asked acts _ ih =>
      obtain ⟨m, fetched, rest, -⟩ := laid.instruction_inv (asked em.labels)
      refine (flows_one fetched ?_ fun slots kept => acts slots o m kept).seq (ih rest same)
      rintro kind target rfl
      have unlabelled := asked []
      cases d with
      | branch kind label => simp [Directive.instruction?] at unlabelled
      | _ => cases unlabelled
  | trap => cases same

theorem flows_of_does {ds : List Directive} {x : Except Unit Category} {c : Category}
    (h : sig.machine.Does (Kept live base) ds s x (· :: s')) (value : x = .ok c)
    (laid : em.Laid o ds e) : sig.Flows em result live base o s e (c :: s') := by
  subst value
  exact flows_of_executes h laid

/-- A value is put into the first free slot, and code behind that may rely on it. -/
theorem flows_store {c : Category} {ds : List Directive}
    (laid : em.Laid o (storeTemporary live :: ds) e) (room : base.length = em.localCount) :
    ∃ m, em.Laid m ds e
      ∧ (∀ slots, Kept (live + 1) (base.set live (some c)) slots →
        slots[(UInt8.ofNat live).toNat]? = some (some c))
      ∧ ∀ {e s'}, sig.Flows em result (live + 1) (base.set live (some c)) m s e s' →
        sig.Flows em result live base o (c :: s) e s' := by
  obtain ⟨m, fetched, rest, here, bound⟩ := laid.storeTemporary_inv
  have inside : live < base.length := room ▸ bound
  have stored : sig.Passes em result o m (Config.At live base o (c :: s))
      (Config.At (live + 1) (base.set live (some c)) m s) := by
    refine .one fetched fun slots kept => ⟨[⟨m, s, slots.set live (some c)⟩], ?_, ?_⟩
    · refine follow_of_act nofun ?_
      have inside' : live < slots.length := kept.length ▸ inside
      simp only [Machine.act, Machine.slot, here, if_pos inside']
    · refine List.forall_mem_singleton.mpr ⟨rfl, rfl, ?_, fun i hi => ?_⟩
      · rw [List.length_set, List.length_set, kept.length]
      · rcases Nat.lt_succ_iff_lt_or_eq.mp hi with below | rfl
        · rw [List.getElem?_set_ne (Nat.ne_of_gt below),
            List.getElem?_set_ne (Nat.ne_of_gt below)]
          exact kept.below i below
        · rw [List.getElem?_set_self (kept.length ▸ inside), List.getElem?_set_self inside]
  refine ⟨m, rest, fun slots kept => ?_, fun inner => ⟨?_, ?_⟩⟩
  · rw [here, kept.below live (Nat.lt_succ_self live), List.getElem?_set_self inside]
  · exact (stored.seq inner.passes).mono (fun _ hc => hc) fun _ hc => hc.outside
  · exact (Emission.Covers.one fetched List.mem_cons_self).trans inner.covers

theorem passes_jump {target : Nat} (fetched : em.fetch? o = some (.branch .always target, m)) :
    sig.Passes em result o m (Config.At live base o s) (Config.At live base target s) :=
  .one fetched fun _ kept => ⟨_, rfl, List.forall_mem_singleton.mpr ⟨rfl, rfl, kept⟩⟩

/-- A conditional branch takes what it tests and goes both ways. -/
theorem passes_test {kind : BranchKind} {target : Nat}
    (fetched : em.fetch? o = some (.branch kind target, m)) (tests : kind ≠ .always) :
    sig.Passes em result o m (Config.At live base o (.int32 :: s))
      (fun c => Config.At live base m s c ∨ Config.At live base target s c) := by
  refine .one fetched fun slots kept => ⟨[⟨m, s, slots⟩, ⟨target, s, slots⟩], ?_, ?_⟩
  · cases kind with
    | always => exact absurd rfl tests
    | ifFalse => rfl
    | ifTrue => rfl
  · refine List.forall_mem_cons.mpr ⟨Or.inl ⟨rfl, rfl, kept⟩, ?_⟩
    exact List.forall_mem_singleton.mpr (Or.inr ⟨rfl, rfl, kept⟩)

/-- A return ends a run. -/
theorem passes_ret (fetched : em.fetch? o = some (.plain .ret, m)) :
    sig.Passes em result o m (Config.At live base o [result]) fun _ => False :=
  .one fetched fun _ _ => ⟨[], if_pos rfl, fun _ hc => absurd hc List.not_mem_nil⟩

/-! ## Whole runs -/

/-- Code that runs pass through from its start has one stack at each offset and
never fails to go on. -/
theorem Passes.safe {c c' : Config Category} {entry : Config Category → Prop}
    (h : sig.Passes em result o e entry fun _ => False) (starts : entry (Machine.init em))
    (reached : sig.Reaches em result c) (reached' : sig.Reaches em result c') :
    (∃ cs, sig.successors em result c = some cs) ∧ (c.pc = c'.pc → c.stack = c'.stack) := by
  obtain ⟨inside, region⟩ := h
  have within {c : Config Category} (reached : sig.Reaches em result c) : inside c := by
    induction reached with
    | init => exact (region.enters _ starts).resolve_right id
    | step _ found mem ih =>
        obtain ⟨cs, found', next⟩ := region.steps _ ih
        rw [found] at found'
        cases found'
        exact (next _ mem).resolve_right id
  refine ⟨?_, region.one c c' (within reached) (within reached')⟩
  obtain ⟨cs, found, -⟩ := region.steps c (within reached)
  exact ⟨cs, found⟩

end Signature

end ExprCompiler
