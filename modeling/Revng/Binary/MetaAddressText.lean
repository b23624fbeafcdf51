import Mathlib.Data.Option.Basic
import Mathlib.Tactic.Tauto
import Revng.Binary.MetaAddress
import Revng.Lib.Numeral

/-!
# The text of an address

An address is printed as its parts with a separator between them: the address in hexadecimal,
the type, the epoch and the address space.  The type is left out when it is the one the reader
expects, and the epoch and the address space are left out when they are zero.  The reader
tells the epoch from the address space by their positions, so an address space without an
epoch is read as an epoch (`fromString_toString_iff`).

`IntegerText` is what the code takes from LLVM, with what it relies on.
-/

namespace Binary

abbrev Text := List Char

/-- How integers are printed and read. -/
structure IntegerText where
  utohexstr : Nat → Text
  decimal : Nat → Text
  /-- `StringRef::getAsInteger` with an integer of the given bits, the radix being in the text -/
  getAsInteger : Nat → Text → Option Nat
  isAlphanum_utohexstr : ∀ {n c}, c ∈ utohexstr n → c.isAlphanum = true
  isDigit_decimal : ∀ {n c}, c ∈ decimal n → c.isDigit = true
  decimal_ne_nil : ∀ n, decimal n ≠ []
  getAsInteger_utohexstr : ∀ {bits n}, n < 2 ^ bits →
    getAsInteger bits ('0' :: 'x' :: utohexstr n) = some n
  getAsInteger_decimal : ∀ {bits n}, n < 2 ^ bits → getAsInteger bits (decimal n) = some n

/-- LLVM writes capital letters. -/
def IntegerText.llvm : IntegerText where
  utohexstr := Numeral.writeDigits 16
  decimal := Numeral.writeDigits 10
  getAsInteger := Numeral.readInteger
  isAlphanum_utohexstr := Numeral.isAlphanum_of_mem_writeDigits
  isDigit_decimal := Numeral.isDigit_of_mem_writeDigits
  decimal_ne_nil := Numeral.writeDigits_ne_nil (by decide)
  getAsInteger_utohexstr := Numeral.readInteger_writeDigits_sixteen
  getAsInteger_decimal := Numeral.readInteger_writeDigits_ten

/-! ## Types -/

namespace MetaAddressType

def toString : MetaAddressType → Text
  | invalid => "Invalid".toList
  | generic32 => "Generic32".toList
  | generic64 => "Generic64".toList
  | codeX86 => "Code_x86".toList
  | codeX86_64 => "Code_x86_64".toList
  | codeMips => "Code_mips".toList
  | codeMipsel => "Code_mipsel".toList
  | codeArm => "Code_arm".toList
  | codeArmThumb => "Code_arm_thumb".toList
  | codeAarch64 => "Code_aarch64".toList
  | codeSystemz => "Code_systemz".toList

/-- The types in their order. -/
def values : List MetaAddressType :=
  [invalid, generic32, generic64, codeX86, codeX86_64, codeMips, codeMipsel, codeArm,
    codeArmThumb, codeAarch64, codeSystemz]

/-- A text that names no valid type gives the invalid one. -/
def fromString (text : Text) : MetaAddressType :=
  (values.tail.find? fun type => text = type.toString).getD invalid

theorem fromString_toString (type : MetaAddressType) : fromString type.toString = type := by
  cases type <;> decide

theorem colon_notMem_toString (type : MetaAddressType) : ':' ∉ type.toString := by
  cases type <;> decide

/-- No valid type is named by digits. -/
theorem fromString_of_isDigit {text : Text} (h : ∀ c ∈ text, c.isDigit = true) :
    fromString text = invalid := by
  have hname (type : MetaAddressType) : type.toString.any fun c => !c.isDigit := by
    cases type <;> decide
  have hnone : values.tail.find? (fun type => text = type.toString) = none := by
    rw [List.find?_eq_none]
    intro type htype heq
    obtain ⟨c, hc, hdigit⟩ := List.any_eq_true.mp (hname type)
    rw [of_decide_eq_true heq] at h
    rw [h c hc] at hdigit
    cases hdigit
  rw [fromString, hnone]
  rfl

end MetaAddressType

/-! ## Printing and reading -/

namespace MetaAddress

variable (io : IntegerText)

/-- The type is left out when it belongs to the architecture the reader expects. -/
def printsType (architecture : Architecture) (a : MetaAddress) : Bool :=
  !(architecture ≠ .invalid && a.type.arch ≠ .invalid && a.type.arch = architecture)

def toStringImpl (a : MetaAddress) (architecture : Architecture) (separator : Text) :
    Option Text :=
  if a.isInvalid then some (separator ++ "Invalid".toList)
  else if architecture ≠ .invalid ∧ MetaAddressType.genericFromArch architecture = none then none
  else
    some ("0x".toList ++ io.utohexstr a.address.toNat ++
      (if a.printsType architecture then separator ++ a.type.toString else []) ++
      (if a.epoch ≠ 0 then separator ++ io.decimal a.epoch.toNat else []) ++
      if a.addressSpace ≠ 0 then separator ++ io.decimal a.addressSpace.toNat else [])

def toString (a : MetaAddress) (architecture : Architecture) : Option Text :=
  toStringImpl io a architecture [':']

def toIdentifier (a : MetaAddress) (architecture : Architecture) : Option Text :=
  toStringImpl io a architecture ['_']

/-- A part that may be missing, or empty. -/
def readPart (bits : Nat) (part : Option Text) : Option Nat :=
  match part with
  | none | some [] => some 0
  | some text => io.getAsInteger bits text

def readParts : List Text → Option MetaAddress
  | address :: type :: rest => do
      guard (rest.length ≤ 2)
      let address ← io.getAsInteger 64 address
      let type := MetaAddressType.fromString type
      guard (type ≠ .invalid)
      let epoch ← readPart io 32 rest[0]?
      let addressSpace ← readPart io 16 rest[1]?
      return ⟨.ofNat 32 epoch, .ofNat 16 addressSpace, type, .ofNat 64 address⟩
  | _ => none

def fromString (text : Text) : MetaAddress :=
  if text.length ≤ 1 then invalid
  else if text.take 1 = [':'] ∧ text.drop 1 = "Invalid".toList then invalid
  else ((readParts io (text.splitOn ':')).map validate).getD invalid

/-! ## Reading what was printed -/

variable {io : IntegerText} {a : MetaAddress} {architecture : Architecture}

/-- The parts that are printed. -/
def parts (io : IntegerText) (a : MetaAddress) (architecture : Architecture) : List Text :=
  ('0' :: 'x' :: io.utohexstr a.address.toNat) ::
    ((if a.printsType architecture then [a.type.toString] else []) ++
      (if a.epoch ≠ 0 then [io.decimal a.epoch.toNat] else []) ++
      if a.addressSpace ≠ 0 then [io.decimal a.addressSpace.toNat] else [])

theorem toStringImpl_eq (hvalid : a.isValid = true) (separator : Text) :
    toStringImpl io a architecture separator =
      some (separator.intercalate (a.parts io architecture)) := by
  have hinvalid : a.isInvalid = false := by simpa [isValid] using hvalid
  have harch : ¬(architecture ≠ .invalid ∧
      MetaAddressType.genericFromArch architecture = none) := by
    cases architecture <;> simp [MetaAddressType.genericFromArch]
  rw [toStringImpl, hinvalid, if_neg Bool.false_ne_true, if_neg harch, parts]
  split <;> split <;> split <;> simp [List.intercalate]

theorem colon_notMem_utohexstr (n : Nat) : ':' ∉ io.utohexstr n := fun h => by
  have := io.isAlphanum_utohexstr h
  revert this
  decide

theorem colon_notMem_decimal (n : Nat) : ':' ∉ io.decimal n := fun h => by
  have := io.isDigit_decimal h
  revert this
  decide

theorem colon_notMem_parts : ∀ part ∈ a.parts io architecture, ':' ∉ part := by
  have haddress : ':' ∉ io.utohexstr a.address.toNat := colon_notMem_utohexstr _
  have hdecimal (n : Nat) : ':' ∉ io.decimal n := colon_notMem_decimal n
  have htype := MetaAddressType.colon_notMem_toString a.type
  rw [parts]
  split <;> split <;> split <;> simp [haddress, hdecimal, htype]

theorem fromString_parts :
    fromString io ([':'].intercalate (a.parts io architecture)) =
      ((readParts io (a.parts io architecture)).map validate).getD invalid := by
  have hne : a.parts io architecture ≠ [] := List.cons_ne_nil _ _
  rw [fromString, List.splitOn_intercalate ':' colon_notMem_parts hne]
  obtain ⟨rest, hrest⟩ : ∃ rest,
      [':'].intercalate (a.parts io architecture) = '0' :: 'x' :: rest := by
    rw [parts]
    split <;> split <;> split <;> simp [List.intercalate]
  rw [hrest, if_neg (by simp), if_neg (by simp)]

theorem readPart_decimal {bits n : Nat} (h : n < 2 ^ bits) :
    readPart io bits (some (io.decimal n)) = some n := by
  rw [readPart]
  · exact io.getAsInteger_decimal h
  · exact io.decimal_ne_nil _

theorem readParts_cons (hvalid : a.isValid = true) {rest : List Text} (hlength : rest.length ≤ 2)
    {epoch addressSpace : Nat} (hepoch : readPart io 32 rest[0]? = some epoch)
    (hspace : readPart io 16 rest[1]? = some addressSpace) :
    readParts io (('0' :: 'x' :: io.utohexstr a.address.toNat) :: a.type.toString :: rest) =
      some ⟨.ofNat 32 epoch, .ofNat 16 addressSpace, a.type, a.address⟩ := by
  have haddress := io.getAsInteger_utohexstr a.address.isLt
  have hinvalid : a.type ≠ .invalid := by simpa [isValid, isInvalid] using hvalid
  simp [readParts, hlength, haddress, MetaAddressType.fromString_toString, hinvalid, hepoch, hspace]

/-- What is read back: an address space without an epoch takes its place. -/
theorem readParts_of_printsType (hvalid : a.isValid = true)
    (htype : a.printsType architecture = true) :
    readParts io (a.parts io architecture) =
      if a.epoch = 0 ∧ a.addressSpace ≠ 0 then
        some ⟨.ofNat 32 a.addressSpace.toNat, 0, a.type, a.address⟩
      else some a := by
  have hdecimal {bits n : Nat} (h : n < 2 ^ bits) : readPart io bits (some (io.decimal n)) = some n :=
    readPart_decimal h
  have hepoch := hdecimal a.epoch.isLt
  have hspace := hdecimal a.addressSpace.isLt
  have hshifted := hdecimal (Nat.lt_trans a.addressSpace.isLt (by decide : 2 ^ 16 < 2 ^ 32))
  rw [parts, htype, if_pos rfl, List.append_assoc, List.singleton_append]
  by_cases he : a.epoch = 0
  · by_cases hs : a.addressSpace = 0
    · rw [if_neg (not_not_intro he), if_neg (not_not_intro hs), if_neg (fun h => h.2 hs),
        readParts_cons hvalid (Nat.zero_le _) rfl rfl]
      cases a
      simp_all
    · rw [if_neg (not_not_intro he), if_pos hs, if_pos ⟨he, hs⟩,
        readParts_cons hvalid (by simp) hshifted rfl]
      rfl
  · by_cases hs : a.addressSpace = 0
    · rw [if_pos he, if_neg (not_not_intro hs), if_neg (fun h => he h.1),
        readParts_cons hvalid (by simp) hepoch rfl]
      cases a
      simp_all
    · rw [if_pos he, if_pos hs, if_neg (fun h => he h.1),
        readParts_cons hvalid (by simp) hepoch hspace]
      simp

theorem readParts_of_invalid {address type : Text} {rest : List Text}
    (h : MetaAddressType.fromString type = .invalid) :
    readParts io (address :: type :: rest) = none := by
  cases hread : readParts io (address :: type :: rest) with
  | none => rfl
  | some b =>
    obtain ⟨_, -, hread⟩ := Option.bind_eq_some_iff.mp hread
    obtain ⟨_, -, hread⟩ := Option.bind_eq_some_iff.mp hread
    obtain ⟨_, hguard, -⟩ := Option.bind_eq_some_iff.mp hread
    rw [h] at hguard
    cases hguard

/-- Without a type nothing is read back. -/
theorem readParts_of_not_printsType (htype : a.printsType architecture = false) :
    readParts io (a.parts io architecture) = none := by
  have hdecimal (n : Nat) : MetaAddressType.fromString (io.decimal n) = .invalid :=
    MetaAddressType.fromString_of_isDigit fun _ hc => io.isDigit_decimal hc
  rw [parts, htype, if_neg Bool.false_ne_true, List.nil_append]
  split <;> split
  case isFalse.isFalse => rfl
  all_goals exact readParts_of_invalid (hdecimal _)

/-- An address is read back exactly when its type is printed and the reader can tell its address
space from an epoch. -/
theorem fromString_toString_iff (io : IntegerText) {a : MetaAddress} (ha : a.WellFormed)
    (architecture : Architecture) :
    (a.toString io architecture).map (fromString io) = some a ↔
      a = invalid ∨
        (a.printsType architecture = true ∧ (a.addressSpace = 0 ∨ a.epoch ≠ 0)) := by
  rcases ha with rfl | hverify
  · exact iff_of_true rfl (Or.inl rfl)
  have hvalid : a.isValid = true := by
    simp only [verify, Bool.and_eq_true, decide_eq_true_eq] at hverify
    simpa [isValid, isInvalid] using hverify.1.1
  have hne : a ≠ invalid := by
    rintro rfl
    cases hvalid
  rw [toString, toStringImpl_eq hvalid, Option.map_some, fromString_parts]
  cases htype : a.printsType architecture with
  | false =>
      rw [readParts_of_not_printsType htype]
      simp [hne, hne.symm]
  | true =>
      rw [readParts_of_printsType hvalid htype]
      split
      next h =>
        obtain ⟨he, hs⟩ := h
        refine iff_of_false (fun heq => ?_) (by tauto)
        rw [Option.map_some, Option.getD_some, validate, Option.some.injEq] at heq
        split at heq
        next =>
          -- The epoch that was read is the address space, which is not zero.
          have hepoch := congrArg (fun x : MetaAddress => x.epoch.toNat) heq
          have hlt : a.addressSpace.toNat < 2 ^ 32 := Nat.lt_trans a.addressSpace.isLt (by decide)
          simp only [BitVec.toNat_ofNat, Nat.mod_eq_of_lt hlt, he] at hepoch
          exact hs (BitVec.eq_of_toNat_eq hepoch)
        next => exact hne heq.symm
      next h =>
        rw [Option.map_some, Option.getD_some, validate_of_verify hverify]
        simp only [hne, false_or, true_and, true_iff]
        by_cases he : a.epoch = 0
        · exact Or.inl (by_contra fun hs => h ⟨he, hs⟩)
        · exact Or.inr he

/-- The address space of an address without an epoch is read as its epoch. -/
theorem not_fromString_toString :
    ¬∀ a : MetaAddress, a.WellFormed →
      (a.toString .llvm .invalid).map (fromString .llvm) = some a := fun h =>
  absurd (h ⟨0, 1, .generic64, 0x1000⟩ (by decide)) (by decide)

theorem fromString_toString_thumb :
    (toString .llvm ⟨2, 1, .codeArmThumb, 0x1000⟩ .invalid).map (fromString .llvm) =
      some ⟨2, 1, .codeArmThumb, 0x1000⟩ :=
  (fromString_toString_iff .llvm (by decide) .invalid).mpr (by decide)

end MetaAddress

end Binary
