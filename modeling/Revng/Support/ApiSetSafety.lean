import Revng.Support.ApiSetSchema

/-!
# Schemas that are parsed safely

Which bytes the parser of API set schemas can be given.  It reads outside of the data where a record
starts in the data, has a byte for each of its fields, and does not end in the data; and it fails an
assertion where a name or a library is empty.  The alias of an entry of version 4 is read, which
never fails, and not used.  A schema that is well formed is read whole, and what is missing from the
map is only a second library of one name.
-/

namespace Support

open FirstValues

/-! ## Redirections -/

/-- Register redirections in order. -/
def registerAll (redirections : List (List Char × List Char)) (result : WindowsLibraryMap) :
    WindowsLibraryMap :=
  { result with map := emplaceAll result.map (redirections.map fun r => (lower r.1, lower r.2)) }

theorem registerAll_append (xs ys : List (List Char × List Char)) (result : WindowsLibraryMap) :
    registerAll (xs ++ ys) result = registerAll ys (registerAll xs result) := by
  rw [registerAll, List.map_append, emplaceAll_append]
  rfl

theorem foldl_registerAll {α : Type} (f : α → List (List Char × List Char)) (xs : List α)
    (result : WindowsLibraryMap) :
    xs.foldl (fun s e => registerAll (f e) s) result = registerAll (xs.flatMap f) result := by
  induction xs generalizing result with
  | nil => rfl
  | cons x xs ih => rw [List.foldl_cons, ih, List.flatMap_cons, registerAll_append]

theorem registerRedirect_of_ne {source destination : List Char} (hsource : source ≠ [])
    (hdestination : destination ≠ []) (result : WindowsLibraryMap) :
    registerRedirect source destination result =
      .ok (registerAll [(source, destination)] result) := by
  cases source with
  | nil => exact absurd rfl hsource
  | cons a source =>
    cases destination with
    | nil => exact absurd rfl hdestination
    | cons b destination => rfl

theorem not_faults_registerRedirect (source destination : List Char)
    (result : WindowsLibraryMap) :
    ¬Faults (registerRedirect source destination result) ↔ source ≠ [] ∧ destination ≠ [] := by
  by_cases h : source ≠ [] ∧ destination ≠ []
  · rw [registerRedirect_of_ne h.1 h.2]
    exact iff_of_true (not_faults_ok _) h
  · refine iff_of_false (not_not.2 (.inr ?_)) h
    cases source with
    | nil => rfl
    | cons a source =>
      cases destination with
      | nil => rfl
      | cons b destination => exact absurd ⟨List.cons_ne_nil _ _, List.cons_ne_nil _ _⟩ h

theorem registerRedirect_ne_rejected (source destination : List Char) (result : WindowsLibraryMap) :
    registerRedirect source destination result ≠ .error .rejected := by
  rw [registerRedirect]
  split_ifs <;> simp

theorem registerRedirect_cases (source destination : List Char) (result : WindowsLibraryMap) :
    Faults (registerRedirect source destination result) ∨
      registerRedirect source destination result =
        .ok (registerAll [(source, destination)] result) := by
  by_cases h : source ≠ [] ∧ destination ≠ []
  · exact .inr (registerRedirect_of_ne h.1 h.2 result)
  · exact .inl (not_not.1 (mt (not_faults_registerRedirect _ _ result).1 h))

/-! ## Versions 2 and 4 -/

section

variable {Namespace NamespaceEntry ValueEntry Redirection : Type} [Fields Namespace]
  [Fields NamespaceEntry] [Fields ValueEntry] [Fields Redirection] (data : List UInt8)
  (fields : EntryFields Namespace NamespaceEntry ValueEntry Redirection)

def targetName (redirection : NamedArray Redirection) : Option (List Char) :=
  stringAt data (redirection.get fields.valueOffset) (redirection.get fields.valueLength)

def apiSetName (entry : NamedArray NamespaceEntry) : Option (List Char) :=
  stringAt data (entry.get fields.nameOffset) (entry.get fields.nameLength)

/-- Where the redirections of an entry start. -/
def redirectionsOffset (entry : NamedArray NamespaceEntry) : ℕ :=
  entry.get fields.dataOffset + NamedArray.size ValueEntry

def redirectionsCount (entry : NamedArray NamespaceEntry) : ℕ :=
  (recordAt ValueEntry data (entry.get fields.dataOffset)).get fields.numberOfRedirections

def RedirectionSafe (name : List Char) (redirection : NamedArray Redirection) : Prop :=
  redirection.get fields.valueLength ≠ 0 →
    ∀ target, targetName data fields redirection = some target → name ≠ [] ∧ target ≠ []

def NamespaceEntrySafe (entry : NamedArray NamespaceEntry) : Prop :=
  ∀ name, apiSetName data fields entry = some name →
    Accepted ValueEntry data (entry.get fields.dataOffset) →
      Inside ValueEntry data (entry.get fields.dataOffset) ∧
        ArraySafe Redirection data (redirectionsOffset fields entry)
          (redirectionsCount data fields entry) (fun _ => False) (RedirectionSafe data fields name)

/-- Every record that is read ends in the data, and every redirection has names. -/
def EntriesSafe : Prop :=
  Accepted Namespace data 0 →
    Inside Namespace data 0 ∧
      ArraySafe NamespaceEntry data (NamedArray.size Namespace)
        ((recordAt Namespace data 0).get fields.count) (fun _ => False)
        (NamespaceEntrySafe data fields)

variable {data fields}

omit [Fields Namespace] [Fields NamespaceEntry] [Fields ValueEntry] in
theorem parseRedirection_iff (name : List Char) (redirection : NamedArray Redirection)
    (result : WindowsLibraryMap) :
    (¬Faults (parseRedirection data fields name redirection result) ↔
      RedirectionSafe data fields name redirection) ∧
    parseRedirection data fields name redirection result ≠ .error .rejected := by
  simp only [parseRedirection, RedirectionSafe, targetName, readUtf16LEASCIIString_eq]
  by_cases hzero : redirection.get fields.valueLength = 0
  · simp [hzero, pure, Except.pure]
  · cases stringAt data (redirection.get fields.valueOffset)
        (redirection.get fields.valueLength) with
    | none => simp [hzero, bind, Except.bind, pure, Except.pure]
    | some target =>
      simpa [hzero, bind, Except.bind] using ⟨not_faults_registerRedirect name target result,
        registerRedirect_ne_rejected name target result⟩

omit [Fields Namespace] in
/-- The alias of an entry has no effect. -/
theorem parseNamespaceEntry_eq (entry : NamedArray NamespaceEntry) (result : WindowsLibraryMap) :
    parseNamespaceEntry data fields entry result =
      match apiSetName data fields entry with
      | none => .ok result
      | some name =>
        (NamedArray.read ValueEntry data (entry.get fields.dataOffset)).bind fun
          | none => .ok result
          | some valueEntry =>
            readArray data (parseRedirection data fields name) (redirectionsOffset fields entry)
              (valueEntry.get fields.numberOfRedirections) result := by
  rw [parseNamespaceEntry, readUtf16LEASCIIString_eq, ← apiSetName]
  cases apiSetName data fields entry with
  | none => rfl
  | some name =>
    cases fields.aliasName with
    | none => rfl
    | some names =>
      simp only [readUtf16LEASCIIString_eq]
      split_ifs <;> rfl

omit [Fields Namespace] in
theorem parseNamespaceEntry_iff (entry : NamedArray NamespaceEntry) (result : WindowsLibraryMap) :
    (¬Faults (parseNamespaceEntry data fields entry result) ↔
      NamespaceEntrySafe data fields entry) ∧
    (NamespaceEntrySafe data fields entry →
      parseNamespaceEntry data fields entry result ≠ .error .rejected) := by
  rw [parseNamespaceEntry_eq, NamespaceEntrySafe]
  cases apiSetName data fields entry with
  | none => simp
  | some name =>
    simp only [Option.some.injEq, forall_eq']
    by_cases haccepted : Accepted ValueEntry data (entry.get fields.dataOffset)
    · by_cases hinside : Inside ValueEntry data (entry.get fields.dataOffset)
      · rw [read_inside haccepted hinside]
        simp only [Except.bind, haccepted, hinside, true_implies, true_and]
        exact readArray_iff_of_ne (fun e s => (parseRedirection_iff name e s).1)
          (fun e s _ => (parseRedirection_iff name e s).2) result
      · rw [read_outside haccepted hinside]
        simp [Except.bind, haccepted, hinside]
    · rw [read_of_not_accepted haccepted]
      simp [Except.bind, haccepted]

theorem parseEntries_eq :
    parseEntries data fields =
      (NamedArray.read Namespace data 0).bind fun
        | none => .error .rejected
        | some header =>
          (readArray data (parseNamespaceEntry data fields) (NamedArray.size Namespace)
            (header.get fields.count) .empty).map fun result =>
              { result with prefixLength := 4 } := by
  rw [parseEntries]
  cases NamedArray.read Namespace data 0 with
  | error failure => rfl
  | ok header =>
    cases header with
    | none => rfl
    | some header =>
      simp only [bind, Except.bind]
      cases readArray data (parseNamespaceEntry data fields) (NamedArray.size Namespace)
        (header.get fields.count) .empty <;> rfl

theorem not_faults_parseEntries :
    ¬Faults (parseEntries data fields) ↔ EntriesSafe data fields := by
  rw [parseEntries_eq, EntriesSafe]
  by_cases haccepted : Accepted Namespace data 0
  · by_cases hinside : Inside Namespace data 0
    · rw [read_inside haccepted hinside]
      simp only [Except.bind, haccepted, hinside, true_implies, true_and, faults_map]
      exact (readArray_iff_of_ne (fun e s => (parseNamespaceEntry_iff e s).1)
        (fun e s h => (parseNamespaceEntry_iff e s).2 h) _).1
    · rw [read_outside haccepted hinside]
      simp [Except.bind, haccepted, hinside]
  · rw [read_of_not_accepted haccepted]
    simp [Except.bind, haccepted]

/-! ### Well-formed entries -/

variable (data fields) in
def RedirectionInside (redirection : NamedArray Redirection) : Prop :=
  redirection.get fields.valueLength ≠ 0 → (targetName data fields redirection).isSome

variable (data fields) in
/-- The redirection, unless its library is left out. -/
def storedRedirection (name : List Char) (redirection : NamedArray Redirection) :
    List (List Char × List Char) :=
  if redirection.get fields.valueLength = 0 then []
  else (targetName data fields redirection).toList.map fun target => (name, target)

variable (data fields) in
def NamespaceEntryInside (entry : NamedArray NamespaceEntry) : Prop :=
  (apiSetName data fields entry).isSome ∧
    Inside ValueEntry data (entry.get fields.dataOffset) ∧
    ArrayInside Redirection data (redirectionsOffset fields entry)
      (redirectionsCount data fields entry) (RedirectionInside data fields)

variable (data fields) in
def storedInEntry (entry : NamedArray NamespaceEntry) : List (List Char × List Char) :=
  (apiSetName data fields entry).toList.flatMap fun name =>
    (arrayRecords Redirection data (redirectionsOffset fields entry)
      (redirectionsCount data fields entry)).flatMap (storedRedirection data fields name)

variable (data fields) in
/-- All records and strings are inside of the data. -/
def EntriesInside : Prop :=
  Inside Namespace data 0 ∧
    ArrayInside NamespaceEntry data (NamedArray.size Namespace)
      ((recordAt Namespace data 0).get fields.count) (NamespaceEntryInside data fields)

variable (data fields) in
def storedInEntries : List (List Char × List Char) :=
  (arrayRecords NamespaceEntry data (NamedArray.size Namespace)
    ((recordAt Namespace data 0).get fields.count)).flatMap (storedInEntry data fields)

omit [Fields Namespace] [Fields NamespaceEntry] [Fields ValueEntry] in
theorem parseRedirection_inside (name : List Char) {redirection : NamedArray Redirection}
    (h : RedirectionInside data fields redirection) (result : WindowsLibraryMap) :
    Faults (parseRedirection data fields name redirection result) ∨
      parseRedirection data fields name redirection result =
        .ok (registerAll (storedRedirection data fields name redirection) result) := by
  rw [parseRedirection, storedRedirection]
  by_cases hzero : redirection.get fields.valueLength = 0
  · rw [if_pos hzero, if_pos hzero]
    exact .inr rfl
  · obtain ⟨target, htarget⟩ := Option.isSome_iff_exists.1 (h hzero)
    rw [if_neg hzero, if_neg hzero, readUtf16LEASCIIString_eq, ← targetName, htarget]
    exact registerRedirect_cases name target result

omit [Fields Namespace] in
theorem parseNamespaceEntry_inside {entry : NamedArray NamespaceEntry}
    (h : NamespaceEntryInside data fields entry) (result : WindowsLibraryMap) :
    Faults (parseNamespaceEntry data fields entry result) ∨
      parseNamespaceEntry data fields entry result =
        .ok (registerAll (storedInEntry data fields entry) result) := by
  obtain ⟨hname, hvalue, harray⟩ := h
  obtain ⟨name, hname⟩ := Option.isSome_iff_exists.1 hname
  rw [parseNamespaceEntry_eq, storedInEntry, hname]
  simp only [read_inside hvalue.accepted hvalue, Except.bind, Option.toList_some,
    List.flatMap_singleton]
  have hread := readArray_inside (fun e he s => parseRedirection_inside name he s) harray result
  rwa [foldl_registerAll] at hread

theorem parseEntries_inside (h : EntriesInside data fields) :
    Faults (parseEntries data fields) ∨
      parseEntries data fields = .ok ⟨emplaceAll []
        ((storedInEntries data fields).map fun r => (lower r.1, lower r.2)), 4⟩ := by
  obtain ⟨hheader, harray⟩ := h
  rw [parseEntries_eq]
  simp only [read_inside hheader.accepted hheader, Except.bind]
  rcases readArray_inside (fun e he s => parseNamespaceEntry_inside he s) harray .empty with
    hfault | hok
  · exact .inl ((faults_map _ _).2 hfault)
  · rw [hok, foldl_registerAll]
    exact .inr rfl

end

/-! ## Version 6 -/

namespace ApiSetV6

variable (logIsEnabled : Bool) (data : List UInt8)

def targetName (value : NamedArray ValueEntry) : Option (List Char) :=
  stringAt data (value.get .valueOffset) (value.get .valueLength)

def apiSetNamePrefix (entry : NamedArray NamespaceEntry) : Option (List Char) :=
  stringAt data (entry.get .nameOffset) (entry.get .hashedLength)

def apiSetName (entry : NamedArray NamespaceEntry) : Option (List Char) :=
  stringAt data (entry.get .nameOffset) (entry.get .nameLength)

/-- The parser gives up at a library that cannot be read. -/
def ValueStops (value : NamedArray ValueEntry) : Prop := targetName data value = none

def ValueSafe (name : List Char) (value : NamedArray ValueEntry) : Prop :=
  ∀ target, targetName data value = some target → target ≠ [] → name ≠ []

/-- The names of the entry can be read. -/
def IsNamed (entry : NamedArray NamespaceEntry) : Prop :=
  logIsEnabled = true → (apiSetName data entry).isSome

/-- The parser gives up in the entry if a name cannot be read, and at its libraries. -/
def NamespaceEntryStops (entry : NamedArray NamespaceEntry) : Prop :=
  ∀ name, apiSetNamePrefix data entry = some name → IsNamed logIsEnabled data entry →
    ArrayStops ValueEntry data (entry.get .valueOffset) (entry.get .valueCount) (ValueStops data)

def NamespaceEntrySafe (entry : NamedArray NamespaceEntry) : Prop :=
  ∀ name, apiSetNamePrefix data entry = some name → IsNamed logIsEnabled data entry →
    ArraySafe ValueEntry data (entry.get .valueOffset) (entry.get .valueCount) (ValueStops data)
      (ValueSafe data name)

/-- Every record that is read ends in the data, and every name with a library is not empty. -/
def EntriesSafe : Prop :=
  Accepted Namespace data 0 →
    Inside Namespace data 0 ∧
      ArraySafe NamespaceEntry data ((recordAt Namespace data 0).get .entryOffset)
        ((recordAt Namespace data 0).get .count) (NamespaceEntryStops logIsEnabled data)
        (NamespaceEntrySafe logIsEnabled data)

variable {logIsEnabled data}

theorem parseValueEntry_iff (name : List Char) (value : NamedArray ValueEntry)
    (result : WindowsLibraryMap) :
    (¬Faults (parseValueEntry data name value result) ↔ ValueSafe data name value) ∧
    (parseValueEntry data name value result = .error .rejected ↔ ValueStops data value) := by
  rw [parseValueEntry, readUtf16LEASCIIString_eq, ← targetName, ValueSafe, ValueStops]
  cases targetName data value with
  | none => simp [bind, Except.bind]
  | some target =>
    cases target with
    | nil => simp [bind, Except.bind, pure, Except.pure]
    | cons a target =>
      have hfaults := not_faults_registerRedirect name (a :: target) result
      have hne := registerRedirect_ne_rejected name (a :: target) result
      simpa [bind, Except.bind, hne] using hfaults

variable (logIsEnabled data) in
theorem parseNamespaceEntry_eq (entry : NamedArray NamespaceEntry) (result : WindowsLibraryMap) :
    (apiSetNamePrefix data entry = none → parseNamespaceEntry logIsEnabled data entry result =
      .error .rejected) ∧
    (¬IsNamed logIsEnabled data entry → parseNamespaceEntry logIsEnabled data entry result =
      .error .rejected) ∧
    ∀ name, apiSetNamePrefix data entry = some name → IsNamed logIsEnabled data entry →
      parseNamespaceEntry logIsEnabled data entry result =
        readArray data (parseValueEntry data name) (entry.get .valueOffset)
          (entry.get .valueCount) result := by
  rw [parseNamespaceEntry, readUtf16LEASCIIString_eq, readUtf16LEASCIIString_eq,
    ← apiSetNamePrefix, ← apiSetName, IsNamed]
  cases apiSetNamePrefix data entry <;> cases logIsEnabled <;> cases apiSetName data entry <;>
    simp [bind, Except.bind, Except.map]

theorem parseNamespaceEntry_iff (entry : NamedArray NamespaceEntry) (result : WindowsLibraryMap) :
    (¬Faults (parseNamespaceEntry logIsEnabled data entry result) ↔
      NamespaceEntrySafe logIsEnabled data entry) ∧
    (NamespaceEntrySafe logIsEnabled data entry →
      (parseNamespaceEntry logIsEnabled data entry result = .error .rejected ↔
        NamespaceEntryStops logIsEnabled data entry)) := by
  obtain ⟨hread₀, hnamed, hread⟩ := parseNamespaceEntry_eq logIsEnabled data entry result
  rw [NamespaceEntrySafe, NamespaceEntryStops]
  cases hname : apiSetNamePrefix data entry with
  | none => simp [hread₀ hname]
  | some name =>
    by_cases h : IsNamed logIsEnabled data entry
    · rw [hread name hname h]
      simp only [Option.some.injEq, forall_eq', h, true_implies]
      exact readArray_iff (fun e s => (parseValueEntry_iff name e s).1)
        (fun e s _ => (parseValueEntry_iff name e s).2) result
    · simp [hnamed h, h]

/-! ### Well-formed entries -/

variable (data) in
def ValueInside (value : NamedArray ValueEntry) : Prop := (targetName data value).isSome

variable (data) in
/-- The redirection, unless its library is left out. -/
def storedValue (name : List Char) (value : NamedArray ValueEntry) :
    List (List Char × List Char) :=
  match targetName data value with
  | none => []
  | some target => if target.isEmpty then [] else [(name, target)]

variable (data) in
def NamespaceEntryInside (entry : NamedArray NamespaceEntry) : Prop :=
  (apiSetNamePrefix data entry).isSome ∧ (apiSetName data entry).isSome ∧
    ArrayInside ValueEntry data (entry.get .valueOffset) (entry.get .valueCount)
      (ValueInside data)

variable (data) in
def storedInEntry (entry : NamedArray NamespaceEntry) : List (List Char × List Char) :=
  (apiSetNamePrefix data entry).toList.flatMap fun name =>
    (arrayRecords ValueEntry data (entry.get .valueOffset) (entry.get .valueCount)).flatMap
      (storedValue data name)

variable (data) in
/-- All records and strings are inside of the data. -/
def EntriesInside : Prop :=
  Inside Namespace data 0 ∧
    ArrayInside NamespaceEntry data ((recordAt Namespace data 0).get .entryOffset)
      ((recordAt Namespace data 0).get .count) (NamespaceEntryInside data)

variable (data) in
def storedInEntries : List (List Char × List Char) :=
  (arrayRecords NamespaceEntry data ((recordAt Namespace data 0).get .entryOffset)
    ((recordAt Namespace data 0).get .count)).flatMap (storedInEntry data)

theorem parseValueEntry_inside (name : List Char) {value : NamedArray ValueEntry}
    (h : ValueInside data value) (result : WindowsLibraryMap) :
    Faults (parseValueEntry data name value result) ∨
      parseValueEntry data name value result =
        .ok (registerAll (storedValue data name value) result) := by
  obtain ⟨target, htarget⟩ := Option.isSome_iff_exists.1 h
  rw [parseValueEntry, readUtf16LEASCIIString_eq, ← targetName, storedValue, htarget]
  cases target with
  | nil => exact .inr rfl
  | cons a target => exact registerRedirect_cases name (a :: target) result

theorem parseNamespaceEntry_inside {entry : NamedArray NamespaceEntry}
    (h : NamespaceEntryInside data entry) (result : WindowsLibraryMap) :
    Faults (parseNamespaceEntry logIsEnabled data entry result) ∨
      parseNamespaceEntry logIsEnabled data entry result =
        .ok (registerAll (storedInEntry data entry) result) := by
  obtain ⟨hread₀, hnamed, harray⟩ := h
  obtain ⟨name, hname⟩ := Option.isSome_iff_exists.1 hread₀
  obtain ⟨-, -, hread⟩ := parseNamespaceEntry_eq logIsEnabled data entry result
  rw [hread name hname fun _ => hnamed, storedInEntry, hname]
  simp only [Option.toList_some, List.flatMap_singleton]
  have hread := readArray_inside (fun e he s => parseValueEntry_inside name he s) harray result
  rwa [foldl_registerAll] at hread

end ApiSetV6

theorem parseApiSetV6_eq (logIsEnabled : Bool) (data : List UInt8) :
    parseApiSetV6 logIsEnabled data =
      (NamedArray.read ApiSetV6.Namespace data 0).bind fun
        | none => .error .rejected
        | some header =>
          readArray data (ApiSetV6.parseNamespaceEntry logIsEnabled data)
            (header.get .entryOffset) (header.get .count) .empty := rfl

theorem not_faults_parseApiSetV6 (logIsEnabled : Bool) (data : List UInt8) :
    ¬Faults (parseApiSetV6 logIsEnabled data) ↔ ApiSetV6.EntriesSafe logIsEnabled data := by
  rw [parseApiSetV6_eq, ApiSetV6.EntriesSafe]
  by_cases haccepted : Accepted ApiSetV6.Namespace data 0
  · by_cases hinside : Inside ApiSetV6.Namespace data 0
    · rw [read_inside haccepted hinside]
      simp only [Except.bind, haccepted, hinside, true_implies, true_and]
      exact (readArray_iff (fun e s => (ApiSetV6.parseNamespaceEntry_iff e s).1)
        (fun e s h => (ApiSetV6.parseNamespaceEntry_iff e s).2 h) _).1
    · rw [read_outside haccepted hinside]
      simp [Except.bind, haccepted, hinside]
  · rw [read_of_not_accepted haccepted]
    simp [Except.bind, haccepted]

theorem parseApiSetV6_inside (logIsEnabled : Bool) {data : List UInt8}
    (h : ApiSetV6.EntriesInside data) :
    Faults (parseApiSetV6 logIsEnabled data) ∨
      parseApiSetV6 logIsEnabled data = .ok ⟨emplaceAll []
        ((ApiSetV6.storedInEntries data).map fun r => (lower r.1, lower r.2)), 0⟩ := by
  obtain ⟨hheader, harray⟩ := h
  rw [parseApiSetV6_eq]
  simp only [read_inside hheader.accepted hheader, Except.bind]
  rcases readArray_inside (fun e he s => ApiSetV6.parseNamespaceEntry_inside he s) harray .empty
    with hfault | hok
  · exact .inl hfault
  · rw [hok, foldl_registerAll]
    exact .inr rfl

/-! ## Schemas -/

variable (logIsEnabled : Bool) (data : List UInt8)

/-- Every record that is read ends in the data, and every redirection has names. -/
def SchemaSafe : Prop :=
  4 ≤ data.length →
    (wordAt data 0 = 2 → EntriesSafe data ApiSetV2.fields) ∧
    (wordAt data 0 = 4 → EntriesSafe data ApiSetV4.fields) ∧
    (wordAt data 0 = 6 → ApiSetV6.EntriesSafe logIsEnabled data)

/-- The version is known, and all records and strings are inside of the data. -/
def WellFormed : Prop :=
  4 ≤ data.length ∧
    (wordAt data 0 = 2 ∧ EntriesInside data ApiSetV2.fields ∨
      wordAt data 0 = 4 ∧ EntriesInside data ApiSetV4.fields ∨
      wordAt data 0 = 6 ∧ ApiSetV6.EntriesInside data)

/-- The names and their libraries, in the order of the records. -/
def storedRedirections : List (List Char × List Char) :=
  if wordAt data 0 = 2 then storedInEntries data ApiSetV2.fields
  else if wordAt data 0 = 4 then storedInEntries data ApiSetV4.fields
  else if wordAt data 0 = 6 then ApiSetV6.storedInEntries data
  else []

/-- The parser reads inside of the data and fails no assertion, and of a well-formed schema it finds
every redirection. -/
def ParsesSafely : Prop :=
  ¬Faults (parse logIsEnabled data) ∧
    (WellFormed data → ∃ result, parse logIsEnabled data = .ok result ∧
      ∀ r ∈ storedRedirections data, result.map.lookup (lower r.1) = some (lower r.2))

variable {logIsEnabled data}

theorem parse_eq (h : 4 ≤ data.length) :
    parse logIsEnabled data =
      if wordAt data 0 = 2 then parseApiSetV2 data
      else if wordAt data 0 = 4 then parseApiSetV4 data
      else if wordAt data 0 = 6 then parseApiSetV6 logIsEnabled data
      else .error .rejected := by
  rw [parse, if_neg (by omega), readWord, if_pos (by omega), ← wordAt]
  simp only [bind, Except.bind]
  split
  next heq => simp [heq]
  next heq => simp [heq]
  next heq => simp [heq]
  next h2 h4 h6 => rw [if_neg h2, if_neg h4, if_neg h6]

theorem not_faults_parse : ¬Faults (parse logIsEnabled data) ↔ SchemaSafe logIsEnabled data := by
  rw [SchemaSafe]
  by_cases h : 4 ≤ data.length
  · rw [parse_eq h]
    split_ifs with h2 h4 h6
    · simp [h, h2, parseApiSetV2, not_faults_parseEntries]
    · simp [h, h4, parseApiSetV4, not_faults_parseEntries]
    · simp [h, h6, not_faults_parseApiSetV6]
    · simp [h, h2, h4, h6]
  · rw [parse, if_pos (Nat.lt_of_not_le h)]
    simp [h]

theorem parse_inside (h : WellFormed data) :
    Faults (parse logIsEnabled data) ∨
      ∃ result, parse logIsEnabled data = .ok result ∧ result.map = emplaceAll []
        ((storedRedirections data).map fun r => (lower r.1, lower r.2)) := by
  obtain ⟨hlength, h⟩ := h
  rw [parse_eq hlength, storedRedirections]
  rcases h with ⟨hversion, h⟩ | ⟨hversion, h⟩ | ⟨hversion, h⟩
  · rcases parseEntries_inside h with hfault | hok
    · exact .inl (by simpa [hversion, parseApiSetV2, parseApiSetV4] using hfault)
    · exact .inr ⟨_, by simpa [hversion, parseApiSetV2, parseApiSetV4] using hok,
        by simp [hversion]⟩
  · rcases parseEntries_inside h with hfault | hok
    · exact .inl (by simpa [hversion, parseApiSetV2, parseApiSetV4] using hfault)
    · exact .inr ⟨_, by simpa [hversion, parseApiSetV2, parseApiSetV4] using hok,
        by simp [hversion]⟩
  · rcases parseApiSetV6_inside logIsEnabled h with hfault | hok
    · exact .inl (by simpa [hversion, parseApiSetV2, parseApiSetV4] using hfault)
    · exact .inr ⟨_, by simpa [hversion, parseApiSetV2, parseApiSetV4] using hok,
        by simp [hversion]⟩

variable (logIsEnabled data) in
/-- When a schema is parsed safely. -/
theorem parsesSafely_iff :
    ParsesSafely logIsEnabled data ↔
      SchemaSafe logIsEnabled data ∧
        (WellFormed data → ∀ r ∈ storedRedirections data, ∀ r' ∈ storedRedirections data,
          lower r.1 = lower r'.1 → lower r.2 = lower r'.2) := by
  rw [ParsesSafely, not_faults_parse]
  refine and_congr_right fun hsafe => forall_congr' fun hwell => ?_
  have hlookup := forall_lookup_emplaceAll_iff
    ((storedRedirections data).map fun r => (lower r.1, lower r.2))
  simp only [List.forall_mem_map] at hlookup
  rw [← hlookup]
  rcases parse_inside hwell with hfault | ⟨result, hresult, hmap⟩
  · exact absurd hfault (not_faults_parse.2 hsafe)
  · simp only [hresult, Except.ok.injEq, exists_eq_left', hmap]

/-- The header of version 2 is not in the data. -/
theorem not_parsesSafely : ¬ParsesSafely false [2, 0, 0, 0] := by
  intro h
  exact h.1 (.inl rfl)

end Support
