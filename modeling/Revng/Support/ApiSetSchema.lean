import Revng.Lib.FirstValues
import Revng.Lib.LittleEndian

/-!
# API set schemas

The parser of the section that maps API sets to libraries.  Records are arrays of 32-bit words, and
names are ASCII strings in UTF-16.  Everything the parser follows comes from the data, so a read
that leaves the data or an assertion that does not hold is a failure of its own.
-/

namespace Support

open FirstValues

/-- How a run of the parser ends without a map. -/
inductive Failure where
  | outOfBounds
  | assertion
  /-- The parser gives up. -/
  | rejected
  deriving DecidableEq, Repr

/-! ## Records -/

/-- The names of the fields of a record. -/
class Fields (F : Type) where
  index : F → ℕ
  fieldCount : ℕ
  fieldCount_pos : 0 < fieldCount

structure NamedArray (F : Type) where
  storage : List ℕ

namespace NamedArray

variable {F : Type}

def get [Fields F] (a : NamedArray F) (field : F) : ℕ := a.storage.getD (Fields.index field) 0

variable (F) in
/-- `NamedArray::Size` -/
def size [Fields F] : ℕ := Fields.fieldCount F * 4

end NamedArray

/-- `endian::read` of four bytes. -/
def readWord (data : List UInt8) (offset : ℕ) : Except Failure ℕ :=
  if offset + 4 ≤ data.length then .ok (LittleEndian.read ((data.drop offset).take 4))
  else .error .outOfBounds

/-- `NamedArray::read`.  The end of the record is tested with its number of fields. -/
def NamedArray.read (F : Type) [Fields F] (data : List UInt8) (offset : ℕ) :
    Except Failure (Option (NamedArray F)) :=
  if data.length ≤ offset then .ok none
  else
    let endOffset := offset + Fields.fieldCount F
    if data.length ≤ endOffset then .ok none
    else do
      let storage ← (List.range (Fields.fieldCount F)).mapM fun i => readWord data (offset + i * 4)
      return some ⟨storage⟩

/-- `ApiSetSchema::readArray`, with the body of the loop over the array. -/
def readArray {F σ : Type} [Fields F] (data : List UInt8)
    (body : NamedArray F → σ → Except Failure σ) : ℕ → ℕ → σ → Except Failure σ
  | _, 0, s => .ok s
  | offset, count + 1, s => do
      match ← NamedArray.read F data offset with
      | none => return s
      | some entry =>
          let s ← body entry s
          readArray data body (offset + NamedArray.size F) count s

/-! ## Strings -/

def readByte (data : List UInt8) (offset : ℕ) : Except Failure ℕ :=
  match data[offset]? with
  | none => .error .outOfBounds
  | some byte => .ok byte.toNat

def readChars (data : List UInt8) : ℕ → ℕ → Except Failure (Option (List Char))
  | _, 0 => .ok (some [])
  | offset, count + 1 => do
      let low ← readByte data offset
      let high ← readByte data (offset + 1)
      let char := low + 256 * high
      if char = 0 then return some []
      else if 128 ≤ char then return none
      else
        let rest ← readChars data (offset + 2) count
        return rest.map (Char.ofNat char :: ·)

def readUtf16LEASCIIString (data : List UInt8) (offset lengthInBytes : ℕ) :
    Except Failure (Option (List Char)) :=
  if data.length < offset ∨ data.length < offset + lengthInBytes ∨ lengthInBytes % 2 ≠ 0 then
    .ok none
  else readChars data offset (lengthInBytes / 2)

/-! ## The map -/

structure WindowsLibraryMap where
  map : List (List Char × List Char)
  prefixLength : ℕ
  deriving Repr

def WindowsLibraryMap.empty : WindowsLibraryMap := ⟨[], 0⟩

/-- `StringRef::lower` -/
def lower (name : List Char) : List Char := name.map Char.toLower

def registerRedirect (source destination : List Char) (result : WindowsLibraryMap) :
    Except Failure WindowsLibraryMap :=
  if source.isEmpty then .error .assertion
  else if destination.isEmpty then .error .assertion
  else .ok { result with map := emplace result.map (lower source, lower destination) }

/-! ## Versions 2 and 4 -/

/-- The fields that the parser follows in versions 2 and 4. -/
structure EntryFields (Namespace NamespaceEntry ValueEntry Redirection : Type) where
  count : Namespace
  nameOffset : NamespaceEntry
  nameLength : NamespaceEntry
  /-- Offset and length of the alias. -/
  aliasName : Option (NamespaceEntry × NamespaceEntry)
  dataOffset : NamespaceEntry
  numberOfRedirections : ValueEntry
  valueOffset : Redirection
  valueLength : Redirection

section

variable {Namespace NamespaceEntry ValueEntry Redirection : Type} [Fields Namespace]
  [Fields NamespaceEntry] [Fields ValueEntry] [Fields Redirection] (data : List UInt8)
  (fields : EntryFields Namespace NamespaceEntry ValueEntry Redirection)

def parseRedirection (apiSetName : List Char) (redirection : NamedArray Redirection)
    (result : WindowsLibraryMap) : Except Failure WindowsLibraryMap := do
  let targetNameOffset := redirection.get fields.valueOffset
  let targetNameLength := redirection.get fields.valueLength
  if targetNameLength = 0 then return result
  else
    match ← readUtf16LEASCIIString data targetNameOffset targetNameLength with
    | none => return result
    | some targetName => registerRedirect apiSetName targetName result

def parseNamespaceEntry (entry : NamedArray NamespaceEntry) (result : WindowsLibraryMap) :
    Except Failure WindowsLibraryMap := do
  match ← readUtf16LEASCIIString data (entry.get fields.nameOffset)
      (entry.get fields.nameLength) with
  | none => return result
  | some apiSetName =>
      -- the name of the alias is read, and used nowhere
      let _ ← match fields.aliasName with
        | some (aliasOffset, aliasLength) =>
            if 0 < entry.get aliasLength then
              readUtf16LEASCIIString data (entry.get aliasOffset) (entry.get aliasLength)
            else .ok none
        | none => .ok none
      let valueEntryOffset := entry.get fields.dataOffset
      match ← NamedArray.read ValueEntry data valueEntryOffset with
      | none => return result
      | some valueEntryHeader =>
          readArray data (parseRedirection data fields apiSetName)
            (valueEntryOffset + NamedArray.size ValueEntry)
            (valueEntryHeader.get fields.numberOfRedirections) result

def parseEntries : Except Failure WindowsLibraryMap := do
  match ← NamedArray.read Namespace data 0 with
  | none => .error .rejected
  | some namespaceHeader =>
      let result ← readArray data (parseNamespaceEntry data fields) (NamedArray.size Namespace)
        (namespaceHeader.get fields.count) .empty
      return { result with prefixLength := 4 }

end

namespace ApiSetV2

inductive ValueEntryRedirection where
  | nameOffset | nameLength | valueOffset | valueLength

instance : Fields ValueEntryRedirection := ⟨ValueEntryRedirection.ctorIdx, 4, by decide⟩

inductive ValueEntry where
  | numberOfRedirections

instance : Fields ValueEntry := ⟨ValueEntry.ctorIdx, 1, by decide⟩

inductive NamespaceEntry where
  | nameOffset | nameLength | dataOffset

instance : Fields NamespaceEntry := ⟨NamespaceEntry.ctorIdx, 3, by decide⟩

inductive Namespace where
  | version | count

instance : Fields Namespace := ⟨Namespace.ctorIdx, 2, by decide⟩

def fields : EntryFields Namespace NamespaceEntry ValueEntry ValueEntryRedirection where
  count := .count
  nameOffset := .nameOffset
  nameLength := .nameLength
  aliasName := none
  dataOffset := .dataOffset
  numberOfRedirections := .numberOfRedirections
  valueOffset := .valueOffset
  valueLength := .valueLength

end ApiSetV2

def parseApiSetV2 (data : List UInt8) : Except Failure WindowsLibraryMap :=
  parseEntries data ApiSetV2.fields

namespace ApiSetV4

inductive ValueEntryRedirection where
  | flags | nameOffset | nameLength | valueOffset | valueLength

instance : Fields ValueEntryRedirection := ⟨ValueEntryRedirection.ctorIdx, 5, by decide⟩

inductive ValueEntry where
  | flags | numberOfRedirections

instance : Fields ValueEntry := ⟨ValueEntry.ctorIdx, 2, by decide⟩

inductive NamespaceEntry where
  | flags | nameOffset | nameLength | aliasOffset | aliasLength | dataOffset

instance : Fields NamespaceEntry := ⟨NamespaceEntry.ctorIdx, 6, by decide⟩

inductive Namespace where
  | version | size | flags | count

instance : Fields Namespace := ⟨Namespace.ctorIdx, 4, by decide⟩

def fields : EntryFields Namespace NamespaceEntry ValueEntry ValueEntryRedirection where
  count := .count
  nameOffset := .nameOffset
  nameLength := .nameLength
  aliasName := some (.aliasOffset, .aliasLength)
  dataOffset := .dataOffset
  numberOfRedirections := .numberOfRedirections
  valueOffset := .valueOffset
  valueLength := .valueLength

end ApiSetV4

def parseApiSetV4 (data : List UInt8) : Except Failure WindowsLibraryMap :=
  parseEntries data ApiSetV4.fields

/-! ## Version 6 -/

namespace ApiSetV6

inductive NamespaceEntry where
  | flags | nameOffset | nameLength | hashedLength | valueOffset | valueCount

instance : Fields NamespaceEntry := ⟨NamespaceEntry.ctorIdx, 6, by decide⟩

inductive ValueEntry where
  | flags | nameOffset | nameLength | valueOffset | valueLength

instance : Fields ValueEntry := ⟨ValueEntry.ctorIdx, 5, by decide⟩

inductive Namespace where
  | version | size | flags | count | entryOffset | hashOffset | hashFactor

instance : Fields Namespace := ⟨Namespace.ctorIdx, 7, by decide⟩

def parseValueEntry (data : List UInt8) (apiSetNamePrefix : List Char)
    (valueEntryItem : NamedArray ValueEntry) (result : WindowsLibraryMap) :
    Except Failure WindowsLibraryMap := do
  match ← readUtf16LEASCIIString data (valueEntryItem.get .valueOffset)
      (valueEntryItem.get .valueLength) with
  | none => .error .rejected
  | some targetName =>
      if targetName.isEmpty then return result
      else registerRedirect apiSetNamePrefix targetName result

/-- If the log is enabled then the whole name is read too, and has to be there. -/
def parseNamespaceEntry (logIsEnabled : Bool) (data : List UInt8)
    (entry : NamedArray NamespaceEntry) (result : WindowsLibraryMap) :
    Except Failure WindowsLibraryMap := do
  match ← readUtf16LEASCIIString data (entry.get .nameOffset) (entry.get .hashedLength) with
  | none => .error .rejected
  | some apiSetNamePrefix =>
      let isNamed ←
        if logIsEnabled then
          (readUtf16LEASCIIString data (entry.get .nameOffset) (entry.get .nameLength)).map
            Option.isSome
        else .ok true
      if !isNamed then .error .rejected
      else
        readArray data (parseValueEntry data apiSetNamePrefix) (entry.get .valueOffset)
          (entry.get .valueCount) result

end ApiSetV6

open ApiSetV6 in
def parseApiSetV6 (logIsEnabled : Bool) (data : List UInt8) :
    Except Failure WindowsLibraryMap := do
  match ← NamedArray.read Namespace data 0 with
  | none => .error .rejected
  | some namespaceHeader =>
      readArray data (ApiSetV6.parseNamespaceEntry logIsEnabled data)
        (namespaceHeader.get .entryOffset) (namespaceHeader.get .count) .empty

/-! ## Schemas -/

/-- `ApiSetSchema::parse` -/
def parse (logIsEnabled : Bool) (data : List UInt8) : Except Failure WindowsLibraryMap :=
  if data.length < 4 then .error .rejected
  else do
    match ← readWord data 0 with
    | 2 => parseApiSetV2 data
    | 4 => parseApiSetV4 data
    | 6 => parseApiSetV6 logIsEnabled data
    | _ => .error .rejected

/-!
## Records and strings of a schema

Strings are read only inside of the data.  A record is rejected if the data ends before it has as many
bytes as the record has fields, and one that is not rejected is read outside of the data if it does
not end in it.

The main results are about arrays of records, over any body of the loop: the run has no fault exactly
if the array is safe (`readArray_iff`), and an array that is inside of the data is read whole
(`readArray_inside`).
-/

variable {F σ : Type} [Fields F] {data : List UInt8} {offset count : ℕ}

/-- The run reads outside of the data, or fails an assertion. -/
def Faults {α : Type} (x : Except Failure α) : Prop :=
  x = .error .outOfBounds ∨ x = .error .assertion

@[simp] theorem not_faults_ok {α : Type} (a : α) : ¬Faults (.ok a : Except Failure α) := by
  simp [Faults]

@[simp] theorem not_faults_rejected {α : Type} :
    ¬Faults (.error .rejected : Except Failure α) := by
  simp [Faults]

@[simp] theorem faults_outOfBounds {α : Type} :
    Faults (.error .outOfBounds : Except Failure α) := .inl rfl

@[simp] theorem faults_assertion {α : Type} :
    Faults (.error .assertion : Except Failure α) := .inr rfl

@[simp] theorem faults_map {α β : Type} (f : α → β) (x : Except Failure α) :
    Faults (x.map f) ↔ Faults x := by
  cases x <;> simp [Faults, Except.map]

/-! ## Records -/

def wordAt (data : List UInt8) (offset : ℕ) : ℕ := LittleEndian.read ((data.drop offset).take 4)

/-- The record that is stored at an offset. -/
def recordAt (F : Type) [Fields F] (data : List UInt8) (offset : ℕ) : NamedArray F :=
  ⟨(List.range (Fields.fieldCount F)).map fun i => wordAt data (offset + i * 4)⟩

/-- The test of `NamedArray::read`. -/
def Accepted (F : Type) [Fields F] (data : List UInt8) (offset : ℕ) : Prop :=
  offset + Fields.fieldCount F < data.length

/-- The record ends inside of the data. -/
def Inside (F : Type) [Fields F] (data : List UInt8) (offset : ℕ) : Prop :=
  offset + NamedArray.size F ≤ data.length

theorem read_of_not_accepted (h : ¬Accepted F data offset) :
    NamedArray.read F data offset = .ok none := by
  rw [Accepted] at h
  rw [NamedArray.read]
  by_cases hoffset : data.length ≤ offset
  · exact if_pos hoffset
  · rw [if_neg hoffset]
    exact if_pos (by omega)

theorem mapM_readWord (f : ℕ → ℕ) (is : List ℕ) :
    is.mapM (fun i => readWord data (f i)) =
      if ∀ i ∈ is, f i + 4 ≤ data.length then .ok (is.map fun i => wordAt data (f i))
      else .error .outOfBounds := by
  induction is with
  | nil => rfl
  | cons i is ih =>
    rw [List.mapM_cons, ih, readWord]
    simp only [List.forall_mem_cons]
    by_cases hi : f i + 4 ≤ data.length
    · by_cases his : ∀ i ∈ is, f i + 4 ≤ data.length
      · rw [if_pos hi, if_pos his, if_pos ⟨hi, his⟩]
        rfl
      · rw [if_pos hi, if_neg his, if_neg (mt And.right his)]
        rfl
    · rw [if_neg hi, if_neg (mt And.left hi)]
      rfl

theorem read_of_accepted (h : Accepted F data offset) :
    NamedArray.read F data offset =
      if offset + NamedArray.size F ≤ data.length then .ok (some (recordAt F data offset))
      else .error .outOfBounds := by
  rw [Accepted] at h
  rw [NamedArray.read, if_neg (by omega), if_neg (by omega), mapM_readWord]
  have hiff : (∀ i ∈ List.range (Fields.fieldCount F), offset + i * 4 + 4 ≤ data.length) ↔
      offset + NamedArray.size F ≤ data.length := by
    simp only [List.mem_range, NamedArray.size]
    constructor
    · intro hwords
      by_cases hzero : Fields.fieldCount F = 0
      · omega
      · have hlast := hwords (Fields.fieldCount F - 1) (by omega)
        omega
    · intro hinside i hi
      omega
  simp only [hiff]
  split_ifs <;> rfl

theorem read_inside (h : Accepted F data offset) (hinside : Inside F data offset) :
    NamedArray.read F data offset = .ok (some (recordAt F data offset)) := by
  rw [read_of_accepted h]
  exact if_pos hinside

theorem read_outside (h : Accepted F data offset) (hinside : ¬Inside F data offset) :
    NamedArray.read F data offset = .error .outOfBounds := by
  rw [read_of_accepted h]
  exact if_neg hinside

/-! ## Strings -/

/-- The ASCII string up to the first zero. -/
def asciiString : List UInt8 → Option (List Char)
  | low :: high :: rest =>
      let char := low.toNat + 256 * high.toNat
      if char = 0 then some []
      else if 128 ≤ char then none
      else (asciiString rest).map (Char.ofNat char :: ·)
  | _ => some []

/-- The string that is stored at an offset, if it is inside of the data. -/
def stringAt (data : List UInt8) (offset lengthInBytes : ℕ) : Option (List Char) :=
  if offset + lengthInBytes ≤ data.length ∧ lengthInBytes % 2 = 0 then
    asciiString ((data.drop offset).take lengthInBytes)
  else none

theorem readByte_of_lt (h : offset < data.length) :
    readByte data offset = .ok data[offset].toNat := by
  rw [readByte, List.getElem?_eq_getElem h]

theorem readChars_eq (h : offset + 2 * count ≤ data.length) :
    readChars data offset count = .ok (asciiString ((data.drop offset).take (2 * count))) := by
  induction count generalizing offset with
  | zero => rfl
  | succ count ih =>
    have hlow : offset < data.length := by omega
    have hhigh : offset + 1 < data.length := by omega
    have hdrop : (data.drop offset).take (2 * (count + 1)) =
        data[offset] :: data[offset + 1] :: (data.drop (offset + 2)).take (2 * count) := by
      rw [List.drop_eq_getElem_cons hlow, List.drop_eq_getElem_cons hhigh]
      rfl
    rw [readChars, readByte_of_lt hlow, readByte_of_lt hhigh, hdrop, asciiString]
    have hrest : offset + 2 + 2 * count ≤ data.length := by omega
    simp only [bind, pure, Except.bind, Except.pure, ih hrest]
    split_ifs <;> rfl

/-- Strings are never read outside of the data. -/
theorem readUtf16LEASCIIString_eq (data : List UInt8) (offset lengthInBytes : ℕ) :
    readUtf16LEASCIIString data offset lengthInBytes =
      .ok (stringAt data offset lengthInBytes) := by
  rw [readUtf16LEASCIIString, stringAt]
  by_cases h : offset + lengthInBytes ≤ data.length ∧ lengthInBytes % 2 = 0
  · have hlength : 2 * (lengthInBytes / 2) = lengthInBytes := by omega
    rw [if_neg (by omega), if_pos h, readChars_eq (by omega), hlength]
  · rw [if_pos (by omega), if_neg h]

/-! ## Arrays -/

/-- Every record that is read ends inside of the data and is good.  No record is read after one that
the parser stops at. -/
def ArraySafe (F : Type) [Fields F] (data : List UInt8) (offset count : ℕ)
    (stops good : NamedArray F → Prop) : Prop :=
  ∀ k < count, Accepted F data (offset + k * NamedArray.size F) →
    (∀ j < k, ¬stops (recordAt F data (offset + j * NamedArray.size F))) →
      Inside F data (offset + k * NamedArray.size F) ∧
        good (recordAt F data (offset + k * NamedArray.size F))

/-- The parser stops at a record of the array. -/
def ArrayStops (F : Type) [Fields F] (data : List UInt8) (offset count : ℕ)
    (stops : NamedArray F → Prop) : Prop :=
  ∃ k < count, Accepted F data (offset + k * NamedArray.size F) ∧
    stops (recordAt F data (offset + k * NamedArray.size F))

theorem Accepted.of_add {n : ℕ} (h : Accepted F data (offset + n)) : Accepted F data offset := by
  rw [Accepted] at h ⊢
  omega

theorem offset_succ (offset k : ℕ) :
    offset + (k + 1) * NamedArray.size F = offset + NamedArray.size F + k * NamedArray.size F := by
  rw [Nat.succ_mul]
  omega

variable {stops good : NamedArray F → Prop}

theorem arraySafe_succ :
    ArraySafe F data offset (count + 1) stops good ↔
      (Accepted F data offset → Inside F data offset ∧ good (recordAt F data offset) ∧
        (¬stops (recordAt F data offset) →
          ArraySafe F data (offset + NamedArray.size F) count stops good)) := by
  constructor
  · intro h haccepted
    have hfirst := h 0 (Nat.succ_pos _)
    rw [Nat.zero_mul, Nat.add_zero] at hfirst
    obtain ⟨hinside, hgood⟩ := hfirst haccepted nofun
    refine ⟨hinside, hgood, fun hstops k hk hnext hearlier => ?_⟩
    have hrecord := h (k + 1) (Nat.succ_lt_succ hk)
    rw [offset_succ] at hrecord
    refine hrecord hnext fun j hj => ?_
    cases j with
    | zero => rwa [Nat.zero_mul, Nat.add_zero]
    | succ j =>
      rw [offset_succ]
      exact hearlier j (Nat.lt_of_succ_lt_succ hj)
  · intro h k hk haccepted hearlier
    obtain ⟨hinside, hgood, hrest⟩ := h haccepted.of_add
    cases k with
    | zero =>
      rw [Nat.zero_mul, Nat.add_zero]
      exact ⟨hinside, hgood⟩
    | succ k =>
      have hfirst := hearlier 0 (Nat.succ_pos _)
      rw [Nat.zero_mul, Nat.add_zero] at hfirst
      rw [offset_succ] at haccepted ⊢
      refine hrest hfirst k (Nat.lt_of_succ_lt_succ hk) haccepted fun j hj => ?_
      rw [← offset_succ]
      exact hearlier (j + 1) (Nat.succ_lt_succ hj)

theorem arrayStops_succ :
    ArrayStops F data offset (count + 1) stops ↔
      Accepted F data offset ∧ (stops (recordAt F data offset) ∨
        ArrayStops F data (offset + NamedArray.size F) count stops) := by
  constructor
  · rintro ⟨k, hk, haccepted, hstops⟩
    refine ⟨haccepted.of_add, ?_⟩
    cases k with
    | zero =>
      rw [Nat.zero_mul, Nat.add_zero] at hstops
      exact .inl hstops
    | succ k =>
      rw [offset_succ] at haccepted hstops
      exact .inr ⟨k, Nat.lt_of_succ_lt_succ hk, haccepted, hstops⟩
  · rintro ⟨haccepted, hstops | ⟨k, hk, hnext, hstops⟩⟩
    · refine ⟨0, Nat.succ_pos _, ?_, ?_⟩ <;> rwa [Nat.zero_mul, Nat.add_zero]
    · refine ⟨k + 1, Nat.succ_lt_succ hk, ?_, ?_⟩ <;> rwa [offset_succ]

section

variable {body : NamedArray F → σ → Except Failure σ}

theorem readArray_succ_of_not_accepted (h : ¬Accepted F data offset) (s : σ) :
    readArray data body offset (count + 1) s = .ok s := by
  rw [readArray, read_of_not_accepted h]
  rfl

theorem readArray_succ (h : Accepted F data offset) (hinside : Inside F data offset) (s : σ) :
    readArray data body offset (count + 1) s =
      (body (recordAt F data offset) s).bind
        (readArray data body (offset + NamedArray.size F) count) := by
  rw [readArray, read_inside h hinside]
  rfl

theorem readArray_succ_outside (h : Accepted F data offset) (hinside : ¬Inside F data offset)
    (s : σ) : readArray data body offset (count + 1) s = .error .outOfBounds := by
  rw [readArray, read_outside h hinside]
  rfl

/-- If the fate of the body depends only on the record, then so does the fate of the loop. -/
theorem readArray_iff (hgood : ∀ e s, ¬Faults (body e s) ↔ good e)
    (hstops : ∀ e s, good e → (body e s = .error .rejected ↔ stops e)) (s : σ) :
    (¬Faults (readArray data body offset count s) ↔
      ArraySafe F data offset count stops good) ∧
    (ArraySafe F data offset count stops good →
      (readArray data body offset count s = .error .rejected ↔
        ArrayStops F data offset count stops)) := by
  induction count generalizing offset s with
  | zero => simp [readArray, ArraySafe, ArrayStops]
  | succ count ih =>
    rw [arraySafe_succ, arrayStops_succ]
    by_cases haccepted : Accepted F data offset
    · by_cases hinside : Inside F data offset
      · rw [readArray_succ haccepted hinside]
        have hbody := hgood (recordAt F data offset) s
        have hrejected := hstops (recordAt F data offset) s
        simp only [haccepted, hinside, true_implies, true_and]
        cases hresult : body (recordAt F data offset) s with
        | ok s' =>
          rw [hresult] at hbody hrejected
          have hnot : ¬stops (recordAt F data offset) := by
            simpa using hrejected (hbody.1 (not_faults_ok _))
          simpa [Except.bind, hnot, hbody.1 (not_faults_ok _)] using ih s'
        | error failure =>
          rw [hresult] at hbody hrejected
          cases failure with
          | outOfBounds =>
            have hbad : ¬good (recordAt F data offset) := fun h => hbody.2 h (.inl rfl)
            simp [Except.bind, hbad]
          | assertion =>
            have hbad : ¬good (recordAt F data offset) := fun h => hbody.2 h (.inr rfl)
            simp [Except.bind, hbad]
          | rejected =>
            have hfirst := hbody.1 not_faults_rejected
            simp [Except.bind, hfirst, (hrejected hfirst).1 rfl]
      · rw [readArray_succ_outside haccepted hinside]
        simp [haccepted, hinside]
    · rw [readArray_succ_of_not_accepted haccepted]
      simp [haccepted]

/-- If the body never stops then nor does the loop. -/
theorem readArray_iff_of_ne (hgood : ∀ e s, ¬Faults (body e s) ↔ good e)
    (hne : ∀ e s, good e → body e s ≠ .error .rejected) (s : σ) :
    (¬Faults (readArray data body offset count s) ↔
      ArraySafe F data offset count (fun _ => False) good) ∧
    (ArraySafe F data offset count (fun _ => False) good →
      readArray data body offset count s ≠ .error .rejected) := by
  obtain ⟨hfaults, hrejected⟩ := readArray_iff hgood
    (fun e s h => iff_false_intro (hne e s h)) s
  refine ⟨hfaults, fun h heq => ?_⟩
  obtain ⟨_, _, _, hfalse⟩ := (hrejected h).1 heq
  exact hfalse

/-! ## Well-formed arrays -/

/-- All records of the array end inside of the data, at most where it ends. -/
def ArrayInside (F : Type) [Fields F] (data : List UInt8) (offset count : ℕ)
    (wellFormed : NamedArray F → Prop) : Prop :=
  ∀ k < count, Inside F data (offset + k * NamedArray.size F) ∧
    wellFormed (recordAt F data (offset + k * NamedArray.size F))

def arrayRecords (F : Type) [Fields F] (data : List UInt8) (offset count : ℕ) :
    List (NamedArray F) :=
  (List.range count).map fun k => recordAt F data (offset + k * NamedArray.size F)

theorem Inside.accepted (h : Inside F data offset) : Accepted F data offset := by
  have hpositive := Fields.fieldCount_pos (F := F)
  rw [Inside, NamedArray.size] at h
  rw [Accepted]
  omega

theorem arrayRecords_succ (offset count : ℕ) :
    arrayRecords F data offset (count + 1) =
      recordAt F data offset :: arrayRecords F data (offset + NamedArray.size F) count := by
  rw [arrayRecords, List.range_succ_eq_map, List.map_cons, List.map_map, Nat.zero_mul, Nat.add_zero]
  simp only [arrayRecords, Function.comp_def, offset_succ]

/-- An array that is inside of the data is read whole. -/
theorem readArray_inside {wellFormed : NamedArray F → Prop} {f : NamedArray F → σ → σ}
    (hbody : ∀ e, wellFormed e → ∀ s, Faults (body e s) ∨ body e s = .ok (f e s))
    (h : ArrayInside F data offset count wellFormed) (s : σ) :
    Faults (readArray data body offset count s) ∨
      readArray data body offset count s =
        .ok ((arrayRecords F data offset count).foldl (fun s e => f e s) s) := by
  induction count generalizing offset s with
  | zero => exact .inr rfl
  | succ count ih =>
    have hfirst := h 0 (Nat.succ_pos _)
    rw [Nat.zero_mul, Nat.add_zero] at hfirst
    have hrest : ArrayInside F data (offset + NamedArray.size F) count wellFormed := by
      intro k hk
      rw [← offset_succ]
      exact h (k + 1) (Nat.succ_lt_succ hk)
    rw [readArray_succ hfirst.1.accepted hfirst.1, arrayRecords_succ, List.foldl_cons]
    rcases hbody _ hfirst.2 s with (hfault | hfault) | hok
    · exact .inl (.inl (by rw [hfault]; rfl))
    · exact .inl (.inr (by rw [hfault]; rfl))
    · rw [hok]
      exact ih hrest _

end

end Support
