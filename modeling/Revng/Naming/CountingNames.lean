import Revng.Naming.AutomaticNames

/-!
# Names that are counted

Local variables and labels are named one request at a time.  Each request takes the next index.
It gives the name that the model has for the locations in the request, unless the name or the
locations were used before or the name is reserved, and otherwise an automatic name made from the
index.

Every name is returned once (`run_names`), whatever the requests are.
-/

namespace Naming

open Binary (MetaAddress MetaAddressType IntegerText)

namespace CountingNameBuilder

/-- A name in the model, and the locations it is for. -/
structure Identifier where
  name : Text
  location : List MetaAddress

def findByLocation (identifiers : List Identifier) (location : List MetaAddress) :
    Option Identifier :=
  if location = [] then none else identifiers.find? fun identifier => identifier.location = location

inductive Kind where
  | localVariable
  | gotoLabel

namespace Kind

def start (b : CNameBuilder) : Kind → Text
  | localVariable => b.configuration.unnamedLocalVariablePrefix
  | gotoLabel => b.configuration.unnamedGotoLabelPrefix

/-- The entity that gets the automatic name with an index. -/
def entity : Kind → Nat → Entity
  | localVariable, index => .localVariable index
  | gotoLabel, index => .gotoLabel index

end Kind

structure State where
  nextIndex : Nat
  emittedNames : List Text
  emittedLocations : List (List MetaAddress)

def State.initial : State := ⟨0, [], []⟩

structure NamingResult where
  name : Text
  index : Nat
  hasAddressAssociated : Bool
  warning : String

inductive Request where
  | automatic
  | name (location : List MetaAddress)

namespace State

/-- The index after one, in 64 bits. -/
def advance (s : State) : State := { s with nextIndex := (s.nextIndex + 1) % 2 ^ 64 }

def insertLocation (s : State) (location : List MetaAddress) : State :=
  { s with emittedLocations := location :: s.emittedLocations }

def insertName (s : State) (name : Text) : State :=
  { s with emittedNames := name :: s.emittedNames }

end State

section Builder

variable (b : CNameBuilder) (kind : Kind) (known : List Identifier)

def automaticName (s : State) (hasAddressAssociated : Bool) (warning : Text → String) :
    Option (State × NamingResult) := do
  let result := kind.start b ++ decimal s.nextIndex
  let name ← CNameBuilder.assertNameIsReserved (b.isNameStaticallyReserved result) result
  return (s.advance, ⟨name, s.nextIndex, hasAddressAssociated, warning name⟩)

def repeatedWarning (name automatic : Text) : String :=
  "Name `" ++ .ofList name ++ "` cannot be used more than once, so it was replaced by an automatic " ++
    "one (`" ++ .ofList automatic ++ "`)."

def reservedWarning (name : Text) (reason : String) (automatic : Text) : String :=
  "Name `" ++ .ofList name ++ "` is not valid, so it was replaced by an automatic one (`" ++
    .ofList automatic ++ "`) because " ++ reason ++ "."

def nameImpl (s : State) (location : List MetaAddress) : Option (State × NamingResult) :=
  if location = [] then automaticName b kind s false fun _ => ""
  else if location ∈ s.emittedLocations then automaticName b kind s false fun _ => ""
  else
    match findByLocation known location with
    | none => automaticName b kind (s.insertLocation location) true fun _ => ""
    | some identifier =>
        if s.emittedNames.contains identifier.name then
          automaticName b kind (s.insertLocation location) true (repeatedWarning identifier.name)
        else
          let s := (s.insertLocation location).insertName identifier.name
          match b.isNameStaticallyReserved identifier.name with
          | none => none
          | some (some reason) =>
              automaticName b kind s true (reservedWarning identifier.name reason)
          | some none => some (s.advance, ⟨identifier.name, s.nextIndex, true, ""⟩)

def step (s : State) : Request → Option (State × NamingResult)
  | .automatic => automaticName b kind s false fun _ => ""
  | .name location => nameImpl b kind known s location

/-- Answer the requests in turn. -/
def run (s : State) : List Request → Option (State × List NamingResult)
  | [] => some (s, [])
  | request :: rest => do
      let (s, result) ← step b kind known s request
      let (s, results) ← run s rest
      return (s, result :: results)

end Builder

/-! ## One request -/

variable {b : CNameBuilder} {kind : Kind} {known : List Identifier} {s s' : State}
  {request : Request} {requests : List Request} {result : NamingResult} {results : List NamingResult}

/-- A name made from the index of its result, that a rule rejects. -/
def Automatic (b : CNameBuilder) (kind : Kind) (result : NamingResult) : Prop :=
  result.name = kind.start b ++ decimal result.index ∧ ∃ r, b.rejects r result.name = true

/-- The name the model has for the locations in the request, that no rule rejects. -/
def UserChosen (b : CNameBuilder) (known : List Identifier) (request : Request)
    (result : NamingResult) : Prop :=
  ∃ location identifier, request = .name location ∧
    findByLocation known location = some identifier ∧ result.name = identifier.name ∧
    ∀ r, b.rejects r result.name = false

theorem start_append_ne_nil (n : Nat) : kind.start b ++ decimal n ≠ [] := by
  simp [decimal_ne_nil]

theorem automaticName_eq_some {hasAddressAssociated : Bool} {warning : Text → String}
    (h : automaticName b kind s hasAddressAssociated warning = some (s', result)) :
    s' = s.advance ∧ result.index = s.nextIndex ∧ Automatic b kind result := by
  obtain ⟨name, hname, h⟩ := Option.bind_eq_some_iff.mp h
  obtain ⟨herror, rfl⟩ := CNameBuilder.assertNameIsReserved_eq_some.mp hname
  cases h
  exact ⟨rfl, rfl, rfl,
    (CNameBuilder.isNameStaticallyReserved_eq_some_some (start_append_ne_nil _)).mp herror⟩

/-- What one request does. -/
theorem step_cases (hknown : ∀ identifier ∈ known, identifier.name ≠ [])
    (h : step b kind known s request = some (s', result)) :
    result.index = s.nextIndex ∧ s'.nextIndex = (s.nextIndex + 1) % 2 ^ 64 ∧
      s.emittedNames ⊆ s'.emittedNames ∧
      (Automatic b kind result ∨
        (UserChosen b known request result ∧ result.name ∉ s.emittedNames ∧
          result.name ∈ s'.emittedNames)) := by
  have hautomatic (t : State) {hasAddressAssociated : Bool} {warning : Text → String}
      (hindex : t.nextIndex = s.nextIndex) (hnames : s.emittedNames ⊆ t.emittedNames)
      (h : automaticName b kind t hasAddressAssociated warning = some (s', result)) :
      result.index = s.nextIndex ∧ s'.nextIndex = (s.nextIndex + 1) % 2 ^ 64 ∧
        s.emittedNames ⊆ s'.emittedNames ∧
        (Automatic b kind result ∨
          (UserChosen b known request result ∧ result.name ∉ s.emittedNames ∧
            result.name ∈ s'.emittedNames)) := by
    obtain ⟨rfl, hresult, hname⟩ := automaticName_eq_some h
    refine ⟨hresult.trans hindex, ?_, hnames, Or.inl hname⟩
    rw [State.advance, hindex]
  cases request with
  | automatic => exact hautomatic s rfl (List.Subset.refl _) h
  | name location =>
    rw [step, nameImpl] at h
    split at h
    next => exact hautomatic s rfl (List.Subset.refl _) h
    split at h
    next => exact hautomatic s rfl (List.Subset.refl _) h
    split at h
    next => exact hautomatic (s.insertLocation location) rfl (List.Subset.refl _) h
    next identifier hfound =>
      split at h
      next => exact hautomatic (s.insertLocation location) rfl (List.Subset.refl _) h
      next hfresh =>
        split at h
        next => cases h
        next =>
          exact hautomatic ((s.insertLocation location).insertName identifier.name) rfl
            (List.subset_cons_self _ _) h
        next hcheck =>
          cases h
          have hmem : identifier ∈ known := by
            rw [findByLocation] at hfound
            split at hfound
            · cases hfound
            · exact List.mem_of_find?_eq_some hfound
          have hfree := (CNameBuilder.isNameStaticallyReserved_eq_some_none
            (hknown identifier hmem)).mp hcheck
          exact ⟨rfl, rfl, List.subset_cons_self _ _,
            Or.inr ⟨⟨location, identifier, rfl, hfound, rfl, hfree⟩,
              fun hmem => hfresh (List.contains_iff_mem.2 hmem), List.mem_cons_self⟩⟩

/-! ## Runs -/

theorem run_cons {rest : List Request}
    (h : run b kind known s (request :: rest) = some (s', results)) :
    ∃ t result later, step b kind known s request = some (t, result) ∧
      run b kind known t rest = some (s', later) ∧ results = result :: later := by
  obtain ⟨⟨t, result⟩, hstep, h⟩ := Option.bind_eq_some_iff.mp h
  obtain ⟨⟨_, later⟩, hrest, h⟩ := Option.bind_eq_some_iff.mp h
  cases h
  exact ⟨t, result, later, hstep, hrest, rfl⟩

theorem run_cons_of {rest : List Request} {t : State}
    (hstep : step b kind known s request = some (t, result))
    (hrest : run b kind known t rest = some (s', results)) :
    run b kind known s (request :: rest) = some (s', result :: results) :=
  Option.bind_eq_some_iff.mpr
    ⟨(t, result), hstep, Option.bind_eq_some_iff.mpr ⟨(s', results), hrest, rfl⟩⟩

/-- The indexes follow each other. -/
theorem run_indexes (hknown : ∀ identifier ∈ known, identifier.name ≠ [])
    (h : run b kind known s requests = some (s', results))
    (hfits : s.nextIndex + requests.length ≤ 2 ^ 64) :
    results.map NamingResult.index = List.range' s.nextIndex requests.length := by
  induction requests generalizing s results with
  | nil =>
    cases h
    rfl
  | cons request rest ih =>
    obtain ⟨t, result, later, hstep, hrest, rfl⟩ := run_cons h
    obtain ⟨hindex, hnext, -, -⟩ := step_cases hknown hstep
    rw [List.length_cons] at hfits ⊢
    rw [List.map_cons, hindex, List.range'_succ]
    cases rest with
    | nil =>
      cases hrest
      rfl
    | cons request' rest' =>
      rw [List.length_cons] at hfits
      rw [Nat.mod_eq_of_lt (by omega)] at hnext
      rw [ih hrest (by rw [hnext, List.length_cons]; omega), hnext]

/-- Every result answers its request, and a name of a user was not emitted before. -/
theorem run_answers (hknown : ∀ identifier ∈ known, identifier.name ≠ [])
    (h : run b kind known s requests = some (s', results)) :
    List.Forall₂ (fun request result => Automatic b kind result ∨
      (UserChosen b known request result ∧ result.name ∉ s.emittedNames)) requests results := by
  induction requests generalizing s results with
  | nil =>
    cases h
    exact .nil
  | cons request rest ih =>
    obtain ⟨t, result, later, hstep, hrest, rfl⟩ := run_cons h
    obtain ⟨-, -, hgrows, hresult⟩ := step_cases hknown hstep
    refine .cons (hresult.imp id fun h => ⟨h.1, h.2.1⟩) ((ih hrest).imp fun request' result' h => ?_)
    exact h.imp id fun hchosen => ⟨hchosen.1, fun hmem => hchosen.2 (hgrows hmem)⟩

theorem exists_of_mem_right {α β : Type} {R : α → β → Prop} {xs : List α} {ys : List β} {y : β}
    (h : List.Forall₂ R xs ys) (hy : y ∈ ys) : ∃ x ∈ xs, R x y := by
  induction h with
  | nil => cases hy
  | cons hxy _ ih =>
    rcases List.mem_cons.mp hy with rfl | hy
    · exact ⟨_, List.mem_cons_self, hxy⟩
    · obtain ⟨x, hx, hr⟩ := ih hy
      exact ⟨x, List.mem_cons_of_mem _ hx, hr⟩

/-- Results with different indexes have different names. -/
theorem run_names (hknown : ∀ identifier ∈ known, identifier.name ≠ [])
    (h : run b kind known s requests = some (s', results)) :
    results.Pairwise fun x y => x.index ≠ y.index → x.name ≠ y.name := by
  induction requests generalizing s results with
  | nil =>
    cases h
    exact .nil
  | cons request rest ih =>
    obtain ⟨t, result, later, hstep, hrest, rfl⟩ := run_cons h
    obtain ⟨-, -, -, hresult⟩ := step_cases hknown hstep
    refine .cons (fun other hother hindex hsame => ?_) (ih hrest)
    obtain ⟨request', -, hanswer⟩ := exists_of_mem_right (run_answers hknown hrest) hother
    rcases hresult with hautomatic | ⟨⟨_, _, -, -, -, hfree⟩, -, hemitted⟩
    · rcases hanswer with hautomatic' | ⟨⟨_, _, -, -, -, hfree⟩, -⟩
      · rw [hautomatic.1, hautomatic'.1] at hsame
        exact hindex (decimal_injective (List.append_cancel_left hsame))
      · obtain ⟨r, hr⟩ := hautomatic.2
        rw [hsame, hfree r] at hr
        cases hr
    · rcases hanswer with ⟨-, r, hr⟩ | ⟨-, hfresh⟩
      · rw [← hsame, hfree r] at hr
        cases hr
      · exact hfresh (hsame ▸ hemitted)

/-! ## Requests that are answered -/

theorem exists_automaticName (hasAddressAssociated : Bool) (warning : Text → String)
    (h : ∃ r, b.rejects r (kind.start b ++ decimal s.nextIndex) = true) :
    ∃ answer, automaticName b kind s hasAddressAssociated warning = some answer := by
  have herror := (CNameBuilder.isNameStaticallyReserved_eq_some_some (start_append_ne_nil _)).mpr h
  have hcheck := CNameBuilder.assertNameIsReserved_eq_some.mpr
    ⟨herror, rfl (a := kind.start b ++ decimal s.nextIndex)⟩
  rw [automaticName, hcheck]
  exact ⟨_, rfl⟩

theorem exists_step (hknown : ∀ identifier ∈ known, identifier.name ≠ []) (request : Request)
    (h : ∃ r, b.rejects r (kind.start b ++ decimal s.nextIndex) = true) :
    ∃ answer, step b kind known s request = some answer := by
  cases request with
  | automatic => exact exists_automaticName _ _ h
  | name location =>
    rw [step, nameImpl]
    split
    next => exact exists_automaticName _ _ h
    split
    next => exact exists_automaticName _ _ h
    split
    next => exact exists_automaticName (s := s.insertLocation location) _ _ h
    next identifier hfound =>
      have hmem : identifier ∈ known := by
        rw [findByLocation] at hfound
        split at hfound
        · cases hfound
        · exact List.mem_of_find?_eq_some hfound
      split
      next => exact exists_automaticName (s := s.insertLocation location) _ _ h
      next =>
        rw [CNameBuilder.isNameStaticallyReserved, if_neg (hknown identifier hmem)]
        cases Reservation.values.find? fun r => b.rejects r identifier.name with
        | none => exact ⟨_, rfl⟩
        | some r =>
          exact exists_automaticName
            (s := (s.insertLocation location).insertName identifier.name) _ _ h

/-- When every automatic name passes its check, no request aborts. -/
theorem exists_run (hknown : ∀ identifier ∈ known, identifier.name ≠ []) (requests : List Request)
    (hfits : s.nextIndex + requests.length ≤ 2 ^ 64)
    (h : ∀ n < s.nextIndex + requests.length,
      ∃ r, b.rejects r (kind.start b ++ decimal n) = true) :
    ∃ s' results, run b kind known s requests = some (s', results) := by
  induction requests generalizing s with
  | nil => exact ⟨_, _, rfl⟩
  | cons request rest ih =>
    rw [List.length_cons] at hfits h
    obtain ⟨⟨t, result⟩, hstep⟩ := exists_step hknown request (h s.nextIndex (by omega))
    obtain ⟨-, hnext, -, -⟩ := step_cases hknown hstep
    cases rest with
    | nil => exact ⟨t, [result], run_cons_of hstep rfl⟩
    | cons request' rest' =>
      rw [List.length_cons] at hfits h
      rw [Nat.mod_eq_of_lt (by omega)] at hnext
      obtain ⟨s', results, hrun⟩ := ih (s := t) (by rw [hnext, List.length_cons]; omega)
        fun n hn => h n (by rw [hnext, List.length_cons] at hn; omega)
      exact ⟨s', result :: results, run_cons_of hstep hrun⟩

/-! ## All names -/

/-- What is promised of the results of a run: names and indexes are used once, and every name is
automatic or the one the model has for the locations asked for. -/
structure Distinct (b : CNameBuilder) (kind : Kind) (known : List Identifier)
    (requests : List Request) (results : List NamingResult) : Prop where
  names : (results.map NamingResult.name).Nodup
  indexes : (results.map NamingResult.index).Nodup
  answers : List.Forall₂ (fun request result => Automatic b kind result ∨
    UserChosen b known request result) requests results

theorem run_distinct (hknown : ∀ identifier ∈ known, identifier.name ≠ [])
    (hfits : requests.length ≤ 2 ^ 64)
    (h : run b kind known .initial requests = some (s', results)) :
    Distinct b kind known requests results := by
  have hindexes : (results.map NamingResult.index).Nodup := by
    rw [run_indexes hknown h (by simpa [State.initial] using hfits)]
    exact List.nodup_range'
  refine ⟨?_, hindexes, (run_answers hknown h).imp fun _ _ h => h.imp id And.left⟩
  rw [List.Nodup, List.pairwise_map] at hindexes ⊢
  exact (hindexes.and (run_names hknown h)).imp fun h => h.2 h.1

end CountingNameBuilder

namespace CNameBuilder

open CountingNameBuilder

theorem exists_rejects_of_kind {b : CNameBuilder} {kind : Kind} {n : Nat}
    (h : (kind.entity n).Recognized b ∨
      ∃ r ≠ (kind.entity n).reservation, b.rejects r (kind.start b ++ decimal n) = true) :
    ∃ r, b.rejects r (kind.start b ++ decimal n) = true := by
  cases kind with
  | localVariable => exact (exists_rejects_iff (e := .localVariable n) trivial rfl).mpr h
  | gotoLabel => exact (exists_rejects_iff (e := .gotoLabel n) trivial rfl).mpr h

/-- An automatic name is reserved, and no emitted name of a user is the same, exactly when some rule
recognises it and no typedef keeps it.  Names that are counted are all different, and requests do
not abort when the names with their indexes are recognised. -/
theorem settled_iff_secure (b : CNameBuilder) (hb : b.configuration.verify = true)
    (model : List NamedEntity) :
    (∀ e : Entity, e.Verified b →
      ∃ name, b.automaticText e = some name ∧ (b.Settled model e ↔ b.Secure model e name)) ∧
    ∀ (kind : Kind) (known : List Identifier) (requests : List Request),
      (∀ identifier ∈ known, identifier.name ≠ []) → requests.length ≤ 2 ^ 64 →
        (∀ s results, run b kind known .initial requests = some (s, results) →
          Distinct b kind known requests results) ∧
        ((∀ n < requests.length, (kind.entity n).Recognized b ∨
            ∃ r ≠ (kind.entity n).reservation, b.rejects r (kind.start b ++ decimal n) = true) →
          ∃ s results, run b kind known .initial requests = some (s, results)) := by
  refine ⟨fun e he => ?_, fun kind known requests hknown hfits =>
    ⟨fun _ _ => run_distinct hknown hfits, fun h => ?_⟩⟩
  · obtain ⟨name, hname⟩ := exists_automaticText he
    exact ⟨name, hname, settled_iff hb he hname model⟩
  · refine exists_run hknown requests ?_ fun n hn => exists_rejects_of_kind (h n ?_)
    · rwa [State.initial, Nat.zero_add]
    · rwa [State.initial, Nat.zero_add] at hn

/-- A builder without tables, for a configuration. -/
def ofConfiguration (c : NamingConfiguration) : CNameBuilder where
  configuration := c
  helperList := []
  intrinsics := []
  registers := []
  primitiveAliases := []
  nameHash := id

theorem settled_iff_secure_standard :
    NamingConfiguration.standard.verify = true ∧
      ∃ name, (ofConfiguration .standard).automaticText (.structField 4) = some name ∧
        ((ofConfiguration .standard).Settled [] (.structField 4) ↔
          (ofConfiguration .standard).Secure [] (.structField 4) name) :=
  ⟨by decide, (settled_iff_secure (ofConfiguration .standard) (by decide) []).1 _ trivial⟩

/-- The segment names of this configuration end in one digit more than their numbers have. -/
def digitConfiguration : NamingConfiguration :=
  { NamingConfiguration.standard with unnamedSegmentPrefix := "segment1".toList }

/-- No rule recognises the name of its first segment. -/
theorem not_settled :
    ¬∀ b : CNameBuilder, b.configuration.verify = true → ∀ model e, e.Verified b →
      b.Settled model e := by
  intro h
  obtain ⟨name, hname, -⟩ := h (ofConfiguration digitConfiguration) (by decide) []
    (.segment [] ⟨0, 0, .generic64, 0x1000⟩) trivial
  have hnone : (ofConfiguration digitConfiguration).automaticName
      (.segment [] ⟨0, 0, .generic64, 0x1000⟩) = none := by decide +kernel
  rw [hnone] at hname
  cases hname

end CNameBuilder

end Naming
