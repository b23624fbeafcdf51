import Revng.Naming.NameBuilder

/-!
# Automatic names are reserved

Every kind of automatic name has a rule that is meant to recognise it.  The rule does so unless
the text before a number ends in a digit, or the entry of a function has an epoch or an address
space (`rejects_reservation_iff`).  When its own rule misses a name, the name is still handed out
if another rule happens to reject it (`settled_iff`).
-/

namespace Naming

open Binary (MetaAddress MetaAddressType IntegerText)

namespace Entity

/-- The rule that is meant to recognise the automatic name. -/
def reservation : Entity → Reservation
  | segment .. => .segment
  | function .. => .function
  | dynamicFunction .. => .dynamicFunction
  | typeDefinition .. => .typeDefinition
  | enumEntry .. => .enumEntry
  | structField .. => .structField
  | unionField .. => .unionField
  | argument .. => .argument
  | register .. => .register
  | stackFrame => .stackFrame
  | localVariable .. => .localVariable
  | gotoLabel .. => .gotoLabel

/-- What the verifier of the model promises of the parts the name is made from. -/
def Verified (b : CNameBuilder) : Entity → Prop
  | function entry => entry.verify = true ∧ entry.type.isCode = true
  | enumEntry t _ => t.kind = .enumDefinition
  | register name => name ∈ b.registers
  | _ => True

/-- When its own rule recognises the automatic name. -/
def Recognized (b : CNameBuilder) : Entity → Prop
  | segment .. => ¬EndsInDigit b.configuration.unnamedSegmentPrefix
  | structField .. => ¬EndsInDigit b.configuration.unnamedStructFieldPrefix
  | unionField .. => ¬EndsInDigit b.configuration.unnamedUnionFieldPrefix
  | argument .. => ¬EndsInDigit b.configuration.unnamedFunctionArgumentPrefix
  | localVariable .. => ¬EndsInDigit b.configuration.unnamedLocalVariablePrefix
  | gotoLabel .. => ¬EndsInDigit b.configuration.unnamedGotoLabelPrefix
  | function entry =>
      (entry.epoch = 0 ∧ entry.addressSpace = 0) ∨
        (entry.type = .codeX86 ∧ ((entry.epoch = 64 ∧ entry.addressSpace = 0) ∨
          (entry.epoch = 0 ∧ entry.addressSpace = 64)))
  | dynamicFunction .. | typeDefinition .. | enumEntry .. | register .. | stackFrame => True

end Entity

namespace CNameBuilder

variable {b : CNameBuilder} {name : Text}

/-! ## Rules -/

theorem isNameStaticallyReserved_eq_some_some (hname : name ≠ []) :
    (∃ error, b.isNameStaticallyReserved name = some (some error)) ↔ ∃ r, b.rejects r name = true := by
  rw [isNameStaticallyReserved, if_neg hname]
  cases hfind : Reservation.values.find? fun r => b.rejects r name with
  | none =>
    rw [List.find?_eq_none] at hfind
    simp only [Option.map_none, Option.some.injEq, reduceCtorEq, exists_false, false_iff]
    exact fun ⟨r, hr⟩ => hfind r (Reservation.mem_values r) hr
  | some r =>
    have hr := List.find?_some hfind
    exact iff_of_true ⟨_, rfl⟩ ⟨r, hr⟩

theorem isNameStaticallyReserved_eq_some_none (hname : name ≠ []) :
    b.isNameStaticallyReserved name = some none ↔ ∀ r, b.rejects r name = false := by
  have hsome := isNameStaticallyReserved_eq_some_some (b := b) hname
  have hdone : b.isNameStaticallyReserved name ≠ none := by
    rw [isNameStaticallyReserved, if_neg hname]
    exact Option.some_ne_none _
  cases hcheck : b.isNameStaticallyReserved name with
  | none => exact absurd hcheck hdone
  | some result =>
    cases result with
    | none =>
      refine iff_of_true rfl fun r => Bool.eq_false_iff.mpr fun hr => ?_
      obtain ⟨error, herror⟩ := hsome.mpr ⟨r, hr⟩
      rw [hcheck] at herror
      cases herror
    | some error =>
      obtain ⟨r, hr⟩ := hsome.mp ⟨error, hcheck⟩
      refine iff_of_false (by simp) fun hall => ?_
      rw [hall r] at hr
      cases hr

theorem assertNameIsReserved_eq_some {check : Option (Option String)} {result : Text} :
    assertNameIsReserved check name = some result ↔
      (∃ error, check = some (some error)) ∧ name = result := by
  cases check with
  | none => simp [assertNameIsReserved]
  | some inner => cases inner <;> simp [assertNameIsReserved]

/-! ## Types -/

theorem automaticTypeText_ne_nil (t : TypeDefinition) : b.automaticTypeText t ≠ [] := by
  simp [automaticTypeText, decimal_ne_nil]

theorem rejects_automaticTypeText (t : TypeDefinition) :
    b.rejects .typeDefinition (b.automaticTypeText t) = true :=
  isPrefixAndTypeDefinitionKey_append _ _ _

theorem automaticTypeName_of_ne {t : TypeDefinition} (h : t.kind ≠ .typedefDefinition) :
    b.automaticTypeName t = some (b.automaticTypeText t) := by
  rw [automaticTypeName, assertNameIsReserved_eq_some, isTypeNameReserved, if_neg fun hk => h hk.2.1]
  exact ⟨(isNameStaticallyReserved_eq_some_some (automaticTypeText_ne_nil t)).mpr
    ⟨_, rejects_automaticTypeText t⟩, rfl⟩

theorem exists_enumName {t : TypeDefinition} (h : t.kind = .enumDefinition) :
    ∃ name, b.enumName t = some name := by
  have hkind : t.kind ≠ .typedefDefinition := by
    rw [h]
    decide
  rw [enumName, automaticTypeName_of_ne hkind]
  split
  · exact ⟨_, rfl⟩
  next hname =>
    rw [isNameStaticallyReserved, if_neg hname]
    cases Reservation.values.find? fun r => b.rejects r t.name with
    | none => exact ⟨_, rfl⟩
    | some r => exact ⟨_, rfl⟩

/-! ## Automatic names -/

variable {e : Entity}

theorem exists_automaticText (he : e.Verified b) : ∃ name, b.automaticText e = some name := by
  cases e with
  | function entry =>
    rw [automaticText, toIdentifier_eq he.1]
    exact ⟨_, rfl⟩
  | enumEntry t value =>
    obtain ⟨name, hname⟩ := exists_enumName (b := b) he
    rw [automaticText, hname]
    exact ⟨_, rfl⟩
  | segment | dynamicFunction | typeDefinition | structField | unionField | argument | register
  | stackFrame | localVariable | gotoLabel => exact ⟨_, rfl⟩

theorem automaticText_ne_nil (hb : b.configuration.verify = true)
    (h : b.automaticText e = some name) : name ≠ [] := by
  simp only [NamingConfiguration.verify, List.all_cons, Bool.and_eq_true, Bool.not_eq_true',
    List.isEmpty_eq_false_iff] at hb
  cases e with
  | function entry =>
    obtain ⟨identifier, -, rfl⟩ := Option.map_eq_some_iff.mp h
    simp [hb]
  | enumEntry t value =>
    obtain ⟨_, -, rfl⟩ := Option.map_eq_some_iff.mp h
    simp
  | typeDefinition t =>
    cases h
    exact automaticTypeText_ne_nil t
  | segment | dynamicFunction | structField | unionField | argument | register | stackFrame
  | localVariable | gotoLabel =>
    cases h
    simp [hb]

/-- The rule of an automatic name recognises it exactly when it can. -/
theorem rejects_reservation_iff (he : e.Verified b) (h : b.automaticText e = some name) :
    b.rejects e.reservation name = true ↔ e.Recognized b := by
  have hstart (x y : Text) : x.isPrefixOf (x ++ y) = true :=
    List.isPrefixOf_iff_prefix.mpr (List.prefix_append _ _)
  cases e with
  | function entry =>
    obtain ⟨identifier, hidentifier, rfl⟩ := Option.map_eq_some_iff.mp h
    exact isPrefixAndAddress_iff he.1 he.2 _ hidentifier
  | enumEntry t value =>
    obtain ⟨enum, -, rfl⟩ := Option.map_eq_some_iff.mp h
    refine iff_of_true ?_ trivial
    obtain ⟨c, hc⟩ := Option.ne_none_iff_exists'.mp
      (mt List.getLast?_eq_none_iff.mp (decimal_ne_nil value))
    have hlast : (b.configuration.unnamedEnumEntryPrefix ++ (enum ++ '_' :: decimal value)).getLast? =
        some c := by
      simp [List.getLast?_append, List.getLast?_cons, hc]
    have hdigit : c.isDigit = true := isDigit_of_mem_decimal (List.mem_of_getLast? hc)
    simp only [Entity.reservation, rejects, hstart, hlast, Option.any_some, hdigit, Bool.and_self]
  | segment | structField | unionField | argument | localVariable | gotoLabel =>
    cases h
    exact isPrefixAndIndex_iff _ _
  | dynamicFunction =>
    cases h
    exact iff_of_true (hstart _ _) trivial
  | typeDefinition t =>
    cases h
    exact iff_of_true (rejects_automaticTypeText t) trivial
  | register =>
    cases h
    exact iff_of_true (isPrefixAndRegister_append _ he) trivial
  | stackFrame =>
    cases h
    exact iff_of_true (decide_eq_true rfl) trivial

/-! ## Automatic names and the names of users -/

/-- A typedef that keeps the name of its type: a name that is not checked. -/
def KeepsName (b : CNameBuilder) (t : TypeDefinition) (name : Text) : Prop :=
  t.kind = .typedefDefinition ∧ b.isKnownPrimitiveAlias t name = true

/-- The automatic name passes its check, and no name of a user that is emitted is the same. -/
def Settled (b : CNameBuilder) (model : List NamedEntity) (e : Entity) : Prop :=
  ∃ name, b.automaticName e = some name ∧
    ∀ named ∈ model, b.emitsUserName named = true → named.name ≠ name

/-- When a name of this entity is settled: some rule recognises it, and no typedef keeps it. -/
def Secure (b : CNameBuilder) (model : List NamedEntity) (e : Entity) (name : Text) : Prop :=
  (e.Recognized b ∨ ∃ r ≠ e.reservation, b.rejects r name = true) ∧
    (∀ t, e = .typeDefinition t → ¬b.KeepsName t name) ∧
    ∀ t, .typeDefinition t ∈ model → t.name = name → ¬b.KeepsName t name

theorem isTypeNameReserved_of_not_keepsName {t : TypeDefinition} (h : ¬b.KeepsName t name) :
    b.isTypeNameReserved t name = b.isNameStaticallyReserved name :=
  if_neg fun hkeeps => h hkeeps.2

theorem isTypeNameReserved_of_keepsName {t : TypeDefinition} (h : b.KeepsName t name)
    (hname : name ≠ []) : b.isTypeNameReserved t name = some none :=
  if_pos ⟨hname, h⟩

/-- Some rule rejects the name: its own, or another one. -/
theorem exists_rejects_iff (he : e.Verified b) (h : b.automaticText e = some name) :
    (∃ r, b.rejects r name = true) ↔
      e.Recognized b ∨ ∃ r ≠ e.reservation, b.rejects r name = true := by
  rw [← rejects_reservation_iff he h]
  constructor
  · rintro ⟨r, hr⟩
    by_cases hown : r = e.reservation
    · exact Or.inl (hown ▸ hr)
    · exact Or.inr ⟨r, hown, hr⟩
  · rintro (hown | ⟨r, -, hr⟩)
    · exact ⟨_, hown⟩
    · exact ⟨r, hr⟩

/-- The automatic name is handed out exactly when a rule rejects it and its own type does not keep
it. -/
theorem automaticName_eq_some_iff (hname : name ≠ []) (h : b.automaticText e = some name) :
    b.automaticName e = some name ↔
      (∃ r, b.rejects r name = true) ∧ ∀ t, e = .typeDefinition t → ¬b.KeepsName t name := by
  rw [automaticName, h, Option.bind_eq_bind, Option.bind_some, assertNameIsReserved_eq_some,
    and_iff_left rfl, ← isNameStaticallyReserved_eq_some_some hname]
  cases e with
  | typeDefinition t =>
    simp only [isNameReserved, Entity.typeDefinition.injEq, forall_eq']
    by_cases hkeeps : b.KeepsName t name
    · rw [isTypeNameReserved_of_keepsName hkeeps hname]
      simp [hkeeps]
    · rw [isTypeNameReserved_of_not_keepsName hkeeps, and_iff_left hkeeps]
  | segment | function | dynamicFunction | enumEntry | structField | unionField | argument
  | register | stackFrame | localVariable | gotoLabel => simp [isNameReserved]

/-- A name that a rule rejects is emitted only for a typedef that keeps it. -/
theorem emitsUserName_iff {named : NamedEntity} (hname : name ≠ [])
    (hrejects : ∃ r, b.rejects r name = true) (heq : named.name = name) :
    b.emitsUserName named = true ↔ ∃ t, named = .typeDefinition t ∧ b.KeepsName t name := by
  obtain ⟨error, herror⟩ := (isNameStaticallyReserved_eq_some_some hname).mpr hrejects
  subst heq
  cases named with
  | other text =>
    simp only [NamedEntity.name] at herror
    simp [emitsUserName, herror]
  | typeDefinition t =>
    simp only [NamedEntity.name] at herror hname ⊢
    by_cases hkeeps : b.KeepsName t t.name
    · simp [emitsUserName, isTypeNameReserved_of_keepsName hkeeps hname, hname, hkeeps]
    · simp [emitsUserName, isTypeNameReserved_of_not_keepsName hkeeps, herror, hkeeps]

theorem settled_iff (hb : b.configuration.verify = true) (he : e.Verified b)
    (h : b.automaticText e = some name) (model : List NamedEntity) :
    b.Settled model e ↔ b.Secure model e name := by
  have hname := automaticText_ne_nil hb h
  have honly {other : Text} (hother : b.automaticName e = some other) : other = name := by
    rw [automaticName, h, Option.bind_eq_bind, Option.bind_some,
      assertNameIsReserved_eq_some] at hother
    exact hother.2.symm
  rw [Secure, ← exists_rejects_iff he h]
  constructor
  · rintro ⟨other, hother, hdiffers⟩
    obtain rfl := honly hother
    obtain ⟨hrejects, hkeeps⟩ := (automaticName_eq_some_iff hname h).mp hother
    refine ⟨hrejects, hkeeps, fun t ht hsame hkept => hdiffers _ ht ?_ hsame⟩
    have hnamed : (NamedEntity.typeDefinition t).name = other := hsame
    exact (emitsUserName_iff hname hrejects hnamed).mpr ⟨t, rfl, hkept⟩
  · rintro ⟨hrejects, hkeeps, hmodel⟩
    refine ⟨name, (automaticName_eq_some_iff hname h).mpr ⟨hrejects, hkeeps⟩, ?_⟩
    intro named hnamed hemits hsame
    obtain ⟨t, rfl, hkept⟩ := (emitsUserName_iff hname hrejects hsame).mp hemits
    exact hmodel t hnamed hsame hkept

end CNameBuilder

end Naming
