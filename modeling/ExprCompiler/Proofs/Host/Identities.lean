/-
# Which members share an identity

The identity of a member starts from a seed, its owner's identity and the digest
of its name, joined by exclusive or, and then takes in its parameters.  Taking in
parameters loses nothing: each step multiplies by an odd word and adds another
(`mixFrom_inj`).  The join does, because it does not tell its two digests apart:

    member m of type A       xxh64 A ^^^ xxh64 m
    member A of type m       xxh64 m ^^^ xxh64 A
    member A of type A       0

So two members with the same parameters share an identity if they are the same,
if name and owner have changed places, or if each is called like its owner, and
in no other case in which a name occurs twice (`ofMember_eq_iff_of_separates`).
A registry refuses the second of two such members, although it is on another type
and has another name (`ofMember_own_name_collides`).

With owner and name fixed, the parameters decide.  Of two lists that differ at one
place, the steps before it lead to the same seed, the step there leads to different
ones, since a marker and a parameter are joined one to one, and the steps after it
keep these apart.  Nothing is asked of the markers, so it does not matter that the
table of them ends (`mixFrom_set`).

That keeps apart overloads that differ in one fixed parameter and conversions that
differ in source or target (`neighbours_apart`).  It does not keep apart all overloads
that differ in one parameter: the trailing array of a member is not taken in.  Overloads
that differ in nothing else share an identity, and a registry that has one of them
refuses the other (`Registry.registerMember_trailing`, `sums_collide`).
-/
import ExprCompiler.Proofs.Host.Consistency

namespace ExprCompiler

/-- The digest has different values on different texts of a list. -/
def Digest.Separates (texts : List String) : Prop :=
  ∀ s ∈ texts, ∀ t ∈ texts, xxh64 s = xxh64 t → s = t

namespace HostId

/-! ## Parameters -/

/-- The factor between parameters is odd, so it can be divided by. -/
def mixInverse : UInt64 := 0xd3f20f0a40208825

theorem mixFactor_mul_inverse : mixFactor * mixInverse = 1 := by decide

theorem mul_mixFactor_inj {x y : UInt64} : x * mixFactor = y * mixFactor ↔ x = y := by
  refine ⟨?_, fun h => by rw [h]⟩
  intro h
  calc x = x * mixFactor * mixInverse := by
        rw [UInt64.mul_assoc, mixFactor_mul_inverse, UInt64.mul_one]
    _ = y * mixFactor * mixInverse := by rw [h]
    _ = y := by rw [UInt64.mul_assoc, mixFactor_mul_inverse, UInt64.mul_one]

/-- Taking in parameters keeps seeds apart. -/
theorem mixFrom_inj {seed seed' : UInt64} (i : Nat) (params : List HostId) :
    mixFrom i seed params = mixFrom i seed' params ↔ seed = seed' := by
  induction params generalizing i seed seed' with
  | nil => exact Iff.rfl
  | cons p ps ih => rw [mixFrom, mixFrom, ih, UInt64.add_left_inj, mul_mixFactor_inj]

theorem value_inj {p q : HostId} : p.value = q.value ↔ p = q :=
  ⟨fun h => congrArg HostId.mk h, fun h => by rw [h]⟩

/-- Replacing one parameter changes the result, unless it is replaced by itself. -/
theorem mixFrom_set (i : Nat) (seed : UInt64) (params : List HostId) (place : Nat)
    (p : HostId) {q : HostId} (here : params[place]? = some q) :
    mixFrom i seed (params.set place p) = mixFrom i seed params ↔ p = q := by
  induction params generalizing i seed place with
  | nil => simp at here
  | cons first rest ih =>
      cases place with
      | zero =>
          obtain rfl : first = q := by simpa using here
          -- both sides go on with `rest`, which keeps apart what this step tells apart
          rw [List.set_cons_zero, mixFrom, mixFrom, mixFrom_inj, UInt64.add_right_inj,
            UInt64.xor_right_inj, value_inj]
      | succ place =>
          rw [List.set_cons_succ, mixFrom, mixFrom]
          exact ih (i + 1) _ place (by simpa using here)

/-! ## Owners and names -/

/-- With the same parameters, an identity depends on the join of owner and name. -/
theorem ofMember_eq_iff {owner owner' : HostId} {name name' : String} (params : List HostId) :
    ofMember owner name params = ofMember owner' name' params
      ↔ owner.value ^^^ Digest.xxh64 name = owner'.value ^^^ Digest.xxh64 name' := by
  rw [ofMember, ofMember, HostId.mk.injEq, mixParams, mixParams, mixFrom_inj, UInt64.xor_assoc,
    UInt64.xor_assoc, UInt64.xor_right_inj]

theorem ofMember_ofName_eq_iff {type type' name name' : String} (params : List HostId) :
    ofMember (ofName type) name params = ofMember (ofName type') name' params
      ↔ Digest.xxh64 type ^^^ Digest.xxh64 name = Digest.xxh64 type' ^^^ Digest.xxh64 name' := by
  rw [ofMember_eq_iff, ofName, ofName, UInt64.xor_assoc, UInt64.xor_assoc,
    UInt64.xor_right_inj]

/-- If the digest tells their names apart, two members with the same parameters
share an identity exactly if they are the same, if owner and name have changed
places, if both are called like their owners, or if four different digests happen
to cancel. -/
theorem ofMember_eq_iff_of_separates {type type' name name' : String} (params : List HostId)
    (h : Digest.Separates [type, type', name, name']) :
    ofMember (ofName type) name params = ofMember (ofName type') name' params
      ↔ (type = type' ∧ name = name') ∨ (type = name' ∧ name = type')
        ∨ (type = name ∧ type' = name')
        ∨ ([type, type', name, name'].Nodup
          ∧ Digest.xxh64 type ^^^ Digest.xxh64 name
            = Digest.xxh64 type' ^^^ Digest.xxh64 name') := by
  have apart {s t : String} (hs : s ∈ [type, type', name, name'])
      (ht : t ∈ [type, type', name, name']) : Digest.xxh64 s = Digest.xxh64 t ↔ s = t :=
    ⟨h s hs t ht, fun same => by rw [same]⟩
  rw [ofMember_ofName_eq_iff]
  constructor
  · intro equal
    by_cases owners : type = type'
    · rw [owners, UInt64.xor_right_inj, apart (by simp) (by simp)] at equal
      exact Or.inl ⟨owners, equal⟩
    by_cases swapped : type = name'
    · rw [swapped, UInt64.xor_comm, UInt64.xor_left_inj, apart (by simp) (by simp)] at equal
      exact Or.inr (Or.inl ⟨swapped, equal⟩)
    by_cases own : type = name
    · rw [own, UInt64.xor_self, eq_comm, UInt64.xor_eq_zero_iff, apart (by simp) (by simp)]
        at equal
      exact Or.inr (Or.inr (Or.inl ⟨own, equal⟩))
    -- the other three pairs are like those three, seen from the other member
    have names : name ≠ name' := by
      intro same
      rw [same, UInt64.xor_left_inj, apart (by simp) (by simp)] at equal
      exact owners equal
    have swapped' : type' ≠ name := by
      intro same
      rw [same, UInt64.xor_comm, UInt64.xor_right_inj, apart (by simp) (by simp)] at equal
      exact swapped equal
    have own' : type' ≠ name' := by
      intro same
      rw [same, UInt64.xor_self, UInt64.xor_eq_zero_iff, apart (by simp) (by simp)] at equal
      exact own equal
    refine Or.inr (Or.inr (Or.inr ⟨?_, equal⟩))
    simp [owners, swapped, own, names, swapped', own']
  · rintro (⟨rfl, rfl⟩ | ⟨rfl, rfl⟩ | ⟨rfl, rfl⟩ | ⟨-, equal⟩)
    · rfl
    · exact UInt64.xor_comm _ _
    · rw [UInt64.xor_self, UInt64.xor_self]
    · exact equal

/-- A method with parameters, seen from two types that could exchange names. -/
theorem ofMember_eq_iff_of_separates_price :
    Digest.Separates ["Order", "Price", "Price", "Order"]
      ∧ ofMember (ofName "Order") "Price" [Ty.string.id]
        = ofMember (ofName "Price") "Order" [Ty.string.id] := by
  have apart : Digest.Separates ["Order", "Price", "Price", "Order"] := by
    unfold Digest.Separates
    decide +kernel
  exact ⟨apart, (ofMember_eq_iff_of_separates _ apart).mpr (Or.inr (Or.inl ⟨rfl, rfl⟩))⟩

/-- Two classes, and a property of the first that is called like it. -/
def ownName : List Registration :=
  [.refClass "Color" none [] .empty, .refClass "Size" none [] .empty,
    .member (Member.property (ofName "Color") "Color" Ty.string)]

/-- The digest tells both names apart, and still the second class cannot have a
property that is called like it: its identity is that of the property of the
other class. -/
theorem ofMember_own_name_collides :
    Digest.Separates ["Color", "Size", "Color", "Size"]
      ∧ ofMember (ofName "Color") "Color" [] = ofMember (ofName "Size") "Size" []
      ∧ ¬ ("Color" = "Size" ∧ "Color" = "Size")
      ∧ ((Registry.perform (.member (Member.property (ofName "Size") "Size" Ty.string))).run
          (Registry.reached ownName)).1 = .error (.duplicateMember "Size" "Size") := by
  refine ⟨?_, ?_, ?_, ?_⟩
  · unfold Digest.Separates
    decide +kernel
  · rw [ofMember_ofName_eq_iff, UInt64.xor_self, UInt64.xor_self]
  · decide
  · decide +kernel

/-! ## Neighbours -/

theorem ofMember_set (owner : HostId) (name : String) (params : List HostId) (place : Nat)
    (p : HostId) {q : HostId} (here : params[place]? = some q) :
    ofMember owner name (params.set place p) = ofMember owner name params ↔ p = q := by
  rw [ofMember, ofMember, HostId.mk.injEq]
  exact mixFrom_set 0 _ params place p here

theorem ofFunction_set (name : String) (params : List HostId) (place : Nat) (p : HostId)
    {q : HostId} (here : params[place]? = some q) :
    ofFunction name (params.set place p) = ofFunction name params ↔ p = q := by
  rw [ofFunction, ofFunction, HostId.mk.injEq]
  exact mixFrom_set 0 _ params place p here

/-- With the same parameters, the identity of a function depends on the digest of
its name. -/
theorem ofFunction_eq_iff {name name' : String} (params : List HostId) :
    ofFunction name params = ofFunction name' params
      ↔ Digest.xxh64 name = Digest.xxh64 name' := by
  rw [ofFunction, ofFunction, HostId.mk.injEq, mixParams, mixParams, mixFrom_inj,
    UInt64.xor_right_inj]

end HostId

namespace Member

/-- Overloads that agree but for one fixed parameter, whatever their kinds, results
and trailing arrays. -/
theorem ofSignature_set_id (owner : HostId) (name : String) (kind kind' : MemberKind)
    (params : List Ty) (place : Fin params.length) (type returns returns' : Ty)
    (isStatic isStatic' : Bool) (variadic variadic' : Option Ty) :
    { ofSignature owner name kind (params.set place type) returns isStatic with variadic }.id
        = { ofSignature owner name kind' params returns' isStatic' with
            variadic := variadic' }.id
      ↔ type.id = params[place].id := by
  rw [ofSignature, ofSignature, List.map_set]
  exact HostId.ofMember_set owner name _ place type.id (by simp)

/-- Overloads whose fixed parameters agree, whatever their kinds, results and trailing
arrays. -/
theorem ofSignature_trailing_id (owner : HostId) (name : String) (kind kind' : MemberKind)
    (params : List Ty) (returns returns' : Ty) (isStatic isStatic' : Bool)
    (variadic variadic' : Option Ty) :
    { ofSignature owner name kind params returns isStatic with variadic }.id
      = { ofSignature owner name kind' params returns' isStatic' with
          variadic := variadic' }.id :=
  rfl

theorem free_set_id (space name : String) (params : List Ty) (place : Fin params.length)
    (type returns returns' : Ty) :
    (free space name (params.set place type) returns).id = (free space name params returns').id
      ↔ type.id = params[place].id := by
  rw [free, free, List.map_set]
  exact HostId.ofFunction_set _ _ place type.id (by simp)

theorem conversion_source_id (owner : HostId) (source source' target : Ty) (implicit : Bool) :
    (conversion owner source' target implicit).id = (conversion owner source target implicit).id
      ↔ source'.id = source.id :=
  HostId.ofMember_set owner _ [source.id, target.id] 0 source'.id rfl

theorem conversion_target_id (owner : HostId) (source target target' : Ty) (implicit : Bool) :
    (conversion owner source target' implicit).id = (conversion owner source target implicit).id
      ↔ target'.id = target.id :=
  HostId.ofMember_set owner _ [source.id, target.id] 1 target'.id rfl

end Member

/-- A registry that has just accepted a member refuses every overload of it that differs
in the trailing array only. -/
theorem Registry.registerMember_trailing {r r' : Registry} {m : Member} {id : HostId}
    (variadic : Option Ty) (accepted : (registerMember m).run r = (.ok id, r')) :
    ∃ owner, r'.entry? m.owner = some owner
      ∧ (registerMember { m with variadic }).run r'
        = (.error (.duplicateMember m.name owner.name), r') := by
  rcases registerMember_cases m r with ⟨error, refused⟩ | ⟨run, there, -⟩
  · cases refused.symm.trans accepted
  · cases run.symm.trans accepted
    obtain ⟨owner, found⟩ := has_iff.mp there
    have held : Registry.entry? (r.insertMember m) m.owner = some owner := found
    have known : (r.insertMember m).hasMember m.id = true :=
      hasMember_iff.mpr List.mem_cons_self
    refine ⟨owner, held, ?_⟩
    rw [registerMember, Registering.run_get]
    simp only [held, known, if_true]
    rfl

namespace HostId

/-- Taking in parameters is one to one in the seed and in each single parameter.
So overloads of one owner and name, conversions of one owner and overloads of a free
function never share an identity if they differ in one type that is taken in, where
types are told apart by their own identities; and functions with the same parameters
share one exactly if their names have the same digest.  Overloads that differ in the
trailing array only always share theirs. -/
theorem neighbours_apart (seed seed' : UInt64) (ids : List HostId) (owner : HostId)
    (name name' space : String) (kind kind' : MemberKind) (params : List Ty)
    (type returns returns' : Ty) (isStatic isStatic' : Bool) (variadic variadic' : Option Ty)
    (source source' target target' : Ty) (implicit : Bool) :
    (mixParams seed ids = mixParams seed' ids ↔ seed = seed')
    ∧ (∀ (place : Fin ids.length) (id : HostId),
      mixParams seed (ids.set place id) = mixParams seed ids ↔ id = ids[place])
    ∧ (∀ place : Fin params.length,
      { Member.ofSignature owner name kind (params.set place type) returns isStatic with
          variadic }.id
        = { Member.ofSignature owner name kind' params returns' isStatic' with
            variadic := variadic' }.id
        ↔ type.id = params[place].id)
    ∧ { Member.ofSignature owner name kind params returns isStatic with variadic }.id
        = { Member.ofSignature owner name kind' params returns' isStatic' with
            variadic := variadic' }.id
    ∧ ((Member.conversion owner source' target implicit).id
        = (Member.conversion owner source target implicit).id ↔ source'.id = source.id)
    ∧ ((Member.conversion owner source target' implicit).id
        = (Member.conversion owner source target implicit).id ↔ target'.id = target.id)
    ∧ (∀ place : Fin params.length,
      (Member.free space name (params.set place type) returns).id
        = (Member.free space name params returns').id ↔ type.id = params[place].id)
    ∧ (ofFunction name ids = ofFunction name' ids
        ↔ Digest.xxh64 name = Digest.xxh64 name') := by
  refine ⟨mixFrom_inj 0 ids, ?_, ?_, ?_, ?_, ?_, ?_, ofFunction_eq_iff ids⟩
  · intro place id
    exact mixFrom_set 0 seed ids place id (by simp)
  · intro place
    exact Member.ofSignature_set_id owner name kind kind' params place type returns returns'
      isStatic isStatic' variadic variadic'
  · exact Member.ofSignature_trailing_id owner name kind kind' params returns returns'
      isStatic isStatic' variadic variadic'
  · exact Member.conversion_source_id owner source source' target implicit
  · exact Member.conversion_target_id owner source target target' implicit
  · intro place
    exact Member.free_set_id space name params place type returns returns'

/-- The sum of any number of values of a type. -/
def sumOf (element : Ty) : Member :=
  { Member.function (ofName "Calc") "sum" [] (Ty.numeric .float64) with variadic := some element }

/-- A class with a sum of integers. -/
def sums : List Registration :=
  [.refClass "Calc" none [] .empty, .member (sumOf (Ty.numeric .int32))]

/-- Sums of integers and of doubles have different parameters and the same identity, so
the class of the one cannot have the other. -/
theorem sums_collide :
    (sumOf (Ty.numeric .int32)).variadic ≠ (sumOf (Ty.numeric .float64)).variadic
      ∧ (sumOf (Ty.numeric .int32)).id = (sumOf (Ty.numeric .float64)).id
      ∧ ((Registry.perform (.member (sumOf (Ty.numeric .float64)))).run
          (Registry.reached sums)).1 = .error (.duplicateMember "sum" "Calc") := by
  refine ⟨by decide, rfl, ?_⟩
  decide +kernel

end HostId

end ExprCompiler
