import Mathlib.Algebra.Group.Nat.Defs
import Mathlib.Data.List.Basic

/-!
# Addresses

A `MetaAddress` is an address with a type, an epoch and an address space.  An address that is
not aligned or does not fit its type is replaced by the invalid one, so a `MetaAddress` is
either `invalid` or passes `verify` (`WellFormed`).

Arithmetic is done in 32 or 64 bits, depending on the type.  It gives the invalid address on an
overflow, and the invalid address stays invalid.
-/

namespace Binary

/-! ## Types -/

inductive Architecture where
  | invalid
  | x86
  | x86_64
  | arm
  | aarch64
  | mips
  | mipsel
  | systemz
  deriving DecidableEq, Repr

inductive MetaAddressType where
  | invalid
  | generic32
  | generic64
  | codeX86
  | codeX86_64
  | codeMips
  | codeMipsel
  | codeArm
  | codeArmThumb
  | codeAarch64
  | codeSystemz
  deriving DecidableEq, Repr

namespace MetaAddressType

def arch : MetaAddressType → Architecture
  | codeX86 => .x86
  | codeX86_64 => .x86_64
  | codeMips => .mips
  | codeMipsel => .mipsel
  | codeArm | codeArmThumb => .arm
  | codeAarch64 => .aarch64
  | codeSystemz => .systemz
  | invalid | generic32 | generic64 => .invalid

/-- An unsupported architecture aborts. -/
def genericFromArch : Architecture → Option MetaAddressType
  | .x86 | .arm | .mips | .mipsel => some generic32
  | .x86_64 | .aarch64 | .systemz => some generic64
  | .invalid => none

/-- The invalid type has no alignment, and nobody asks for it. -/
def alignment : MetaAddressType → Nat
  | invalid => 0
  | generic32 | generic64 | codeX86 | codeX86_64 => 1
  | codeArmThumb | codeSystemz => 2
  | codeMips | codeMipsel | codeArm | codeAarch64 => 4

/-- The invalid type has no size, and nobody asks for it. -/
def bitSize : MetaAddressType → Nat
  | invalid => 0
  | generic32 | codeX86 | codeArmThumb | codeMips | codeMipsel | codeArm => 32
  | generic64 | codeX86_64 | codeSystemz | codeAarch64 => 64

def addressMask (type : MetaAddressType) : BitVec 64 := BitVec.allOnes 64 >>> (64 - type.bitSize)

def isCode : MetaAddressType → Bool
  | invalid | generic32 | generic64 => false
  | _ => true

def isGeneric : MetaAddressType → Bool
  | generic32 | generic64 => true
  | _ => false

end MetaAddressType

/-! ## Addresses -/

structure MetaAddress where
  epoch : BitVec 32
  addressSpace : BitVec 16
  type : MetaAddressType
  address : BitVec 64
  deriving DecidableEq, Repr

namespace MetaAddress

def invalid : MetaAddress := ⟨0, 0, .invalid, 0⟩

def isInvalid (a : MetaAddress) : Bool := a.type = .invalid

def isValid (a : MetaAddress) : Bool := !a.isInvalid

def verify (a : MetaAddress) : Bool :=
  a.type ≠ .invalid && a.address.toNat % a.type.alignment = 0 &&
    a.address = a.address &&& a.type.addressMask

def validate (a : MetaAddress) : MetaAddress := if a.verify then a else invalid

/-- What a `MetaAddress` can be: every way to build one validates it. -/
def WellFormed (a : MetaAddress) : Prop := a = invalid ∨ a.verify = true

instance (a : MetaAddress) : Decidable a.WellFormed := inferInstanceAs (Decidable (_ ∨ _))

theorem wellFormed_validate (a : MetaAddress) : a.validate.WellFormed := by
  rw [validate]
  split
  next h => exact Or.inr h
  next => exact Or.inl rfl

theorem validate_of_verify {a : MetaAddress} (h : a.verify = true) : a.validate = a := if_pos h

theorem WellFormed.verify {a : MetaAddress} (h : a.WellFormed) (hvalid : a.isValid = true) :
    a.verify = true := by
  rcases h with rfl | h
  · cases hvalid
  · exact h

/-! ## Comparing and adding -/

/-- The addresses are the same, up to their types. -/
def SameAddress (a b : MetaAddress) : Prop :=
  a.epoch = b.epoch ∧ a.addressSpace = b.addressSpace ∧ a.address = b.address

instance (a b : MetaAddress) : Decidable (a.SameAddress b) := inferInstanceAs (Decidable (_ ∧ _))

/-- An invalid address cannot be compared: the code aborts. -/
def addressLowerThan (a b : MetaAddress) : Option Bool :=
  if a.isInvalid || b.isInvalid then none
  else some (a.epoch < b.epoch || a.epoch = b.epoch &&
    (a.addressSpace < b.addressSpace || a.addressSpace = b.addressSpace && a.address < b.address))

def addressLowerThanOrEqual (a b : MetaAddress) : Option Bool :=
  if a.isInvalid || b.isInvalid then none
  else some (a.epoch < b.epoch || a.epoch = b.epoch &&
    (a.addressSpace < b.addressSpace || a.addressSpace = b.addressSpace && a.address ≤ b.address))

def setAddress (a : MetaAddress) (address : BitVec 64) : MetaAddress :=
  validate { a with address := address &&& a.type.addressMask }

/-- `a + offset` for an unsigned offset.  For a type of 32 bits the offset is cut to 32 bits. -/
def add (a : MetaAddress) (offset : BitVec 64) : MetaAddress :=
  if a.isInvalid then a
  else
    let limit := 2 ^ a.type.bitSize
    let sum := a.address.toNat % limit + offset.toNat % limit
    if sum < limit then a.setAddress (.ofNat 64 sum) else invalid

/-- `a - offset`, likewise. -/
def sub (a : MetaAddress) (offset : BitVec 64) : MetaAddress :=
  if a.isInvalid then a
  else
    let limit := 2 ^ a.type.bitSize
    let address := a.address.toNat % limit
    if offset.toNat % limit ≤ address then a.setAddress (.ofNat 64 (address - offset.toNat % limit))
    else invalid

end MetaAddress

end Binary
