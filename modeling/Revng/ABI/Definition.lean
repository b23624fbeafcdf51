import Mathlib.Data.List.Nodup
import Revng.Binary.MetaAddress

/-!
# ABI definitions

A `Definition` says how an ABI passes arguments.  The definitions are read from files, and used only
if they pass `verify`.  The registers are those of `Register`, of which a definition names the ones that
hold arguments and return values, in the order in which they are used.
-/

namespace ABI

open Binary (Architecture)

/-! ## ABIs and registers -/

/-- The valid ABIs. -/
inductive Values where
  | systemV_x86_64
  | systemV_x86
  | systemV_x86_regparm_3
  | systemV_x86_regparm_2
  | systemV_x86_regparm_1
  | microsoft_x86_64
  | microsoft_x86_64_vectorcall
  | microsoft_x86_cdecl
  | microsoft_x86_cdecl_gcc
  | microsoft_x86_stdcall
  | microsoft_x86_stdcall_gcc
  | microsoft_x86_fastcall
  | microsoft_x86_fastcall_gcc
  | microsoft_x86_thiscall
  | microsoft_x86_vectorcall
  | aapcs64
  | microsoft_AAPCS64
  | apple_AAPCS64
  | aapcs
  | systemV_MIPS_o32
  | systemV_MIPSEL_o32
  | systemZ_s390x
  deriving DecidableEq, Repr

namespace Values

def getArchitecture : Values → Architecture
  | systemV_x86_64 | microsoft_x86_64 | microsoft_x86_64_vectorcall => .x86_64
  | systemV_x86 | systemV_x86_regparm_3 | systemV_x86_regparm_2 | systemV_x86_regparm_1
  | microsoft_x86_vectorcall | microsoft_x86_cdecl | microsoft_x86_cdecl_gcc
  | microsoft_x86_stdcall | microsoft_x86_stdcall_gcc | microsoft_x86_fastcall
  | microsoft_x86_fastcall_gcc | microsoft_x86_thiscall => .x86
  | aapcs64 | microsoft_AAPCS64 | apple_AAPCS64 => .aarch64
  | aapcs => .arm
  | systemV_MIPS_o32 => .mips
  | systemV_MIPSEL_o32 => .mipsel
  | systemZ_s390x => .systemz

/-- The definitions for `mipsel` name registers of `mips`. -/
def getRegisterArchitecture (abi : Values) : Architecture :=
  if abi = systemV_MIPSEL_o32 then .mips else abi.getArchitecture

def getPointerSize (abi : Values) : ℕ :=
  match abi.getArchitecture with
  | .x86 | .arm | .mips | .mipsel => 4
  | .x86_64 | .aarch64 | .systemz | .invalid => 8

theorem getPointerSize_eq (abi : Values) : abi.getPointerSize = 4 ∨ abi.getPointerSize = 8 := by
  cases abi <;> decide

theorem getPointerSize_pos (abi : Values) : 0 < abi.getPointerSize := by
  rcases abi.getPointerSize_eq with h | h <;> rw [h] <;> decide

end Values

/-- What is known of a register. -/
class MachineRegister (Register : Type) where
  getReferenceArchitecture : Register → Architecture
  getSize : Register → ℕ
  isVectorRegister : Register → Bool

export MachineRegister (getReferenceArchitecture getSize isVectorRegister)

def isUsedInArchitecture {Register : Type} [MachineRegister Register] (register : Register)
    (architecture : Architecture) : Bool :=
  architecture = getReferenceArchitecture register ||
    (architecture = .mipsel && getReferenceArchitecture register = .mips)

/-! ## Scalar types -/

inductive ScalarKind where
  | invalid
  | integer
  | floatingPoint
  deriving DecidableEq, Repr

inductive CType where
  | invalid
  | char
  | short
  | int
  | long
  | longLong
  | float
  | double
  | longDouble
  deriving DecidableEq, Repr

def getScalarKind : CType → ScalarKind
  | .char | .short | .int | .long | .longLong => .integer
  | .float | .double | .longDouble => .floatingPoint
  | .invalid => .invalid

structure ScalarType where
  kind : ScalarKind
  size : ℕ
  cTypes : List CType := []
  deriving Repr

/-- The sizes of the standard types of C. -/
abbrev CDataModel := CType → ℕ

def getDefaultDataModel (pointerSize : ℕ) : CDataModel
  | .char => 1
  | .short => 2
  | .int => if pointerSize ≤ 2 then 2 else 4
  | .long => if pointerSize ≤ 4 then 4 else 8
  | .longLong => 8
  | .float => 4
  | .double => 8
  | .longDouble => 8
  | .invalid => 0

def CDataModel.verify (model : CDataModel) : Bool :=
  1 ≤ model .char &&
  2 ≤ model .short && model .char ≤ model .short &&
  2 ≤ model .int && model .short ≤ model .int &&
  4 ≤ model .long && model .int ≤ model .long &&
  8 ≤ model .longLong && model .long ≤ model .longLong &&
  model .float ≤ model .double && model .double ≤ model .longDouble

/-! ## Definitions -/

structure Definition (Register : Type) where
  abi : Values
  argumentsArePositionBased : Bool := false
  onlyStartDoubleArgumentsFromAnEvenRegister : Bool := false
  argumentsCanBeSplitBetweenRegistersAndStack : Bool := false
  bigArgumentsUsePointersToCopy : Bool := false
  noRegisterArgumentsCanComeAfterStackOnes : Bool := false
  allowPackedTypesInRegisters : Bool := false
  floatsUseGPRs : Bool := false
  packStackArguments : Bool := false
  treatAllAggregatesAsPacked : Bool := false
  stackAlignment : ℕ := 2 ^ 64 - 1
  minimumStackArgumentSize : ℕ := 2 ^ 64 - 1
  unusedStackArgumentBytes : ℕ := 0
  maximumGPRsPerAggregateArgument : ℕ := 0
  maximumGPRsPerScalarArgument : ℕ := 0
  generalPurposeArgumentRegisters : List Register := []
  generalPurposeReturnValueRegisters : List Register := []
  vectorArgumentRegisters : List Register := []
  vectorReturnValueRegisters : List Register := []
  calleeSavedRegisters : List Register := []
  /-- There may be none. -/
  returnValueLocationRegister : Option Register := none
  returnValueLocationOnStack : Bool := false
  scalarTypes : List ScalarType := []

namespace Definition

variable {Register : Type}

def getPointerSize (d : Definition Register) : ℕ := d.abi.getPointerSize

/-- The sizes of the scalar types are stored in a byte. -/
def getDataModel (d : Definition Register) : CDataModel :=
  d.scalarTypes.foldl (fun model type =>
    type.cTypes.foldl (fun model cType => Function.update model cType (type.size % 2 ^ 8)) model)
    (getDefaultDataModel d.getPointerSize)

/-- The scalar types have a kind and a size, and name C types of their kind. -/
def verifyScalarType (type : ScalarType) : Bool :=
  type.kind ≠ .invalid && type.size ≠ 0 &&
    type.cTypes.all fun cType => cType ≠ .invalid && getScalarKind cType = type.kind

variable [DecidableEq Register] [MachineRegister Register]

/-- The registers are of the architecture and no two are the same. -/
def verifyRegisters (registers : List Register) (architecture : Architecture) : Bool :=
  registers.all fun register =>
    isUsedInArchitecture register architecture && registers.count register = 1

/-- The register may be the first of those for arguments, but no other of them. -/
def verifyReturnValueLocation (d : Definition Register) : Bool :=
  match d.returnValueLocationRegister with
  | none => true
  | some register =>
    isUsedInArchitecture register d.abi.getRegisterArchitecture &&
    !isVectorRegister register &&
    !d.calleeSavedRegisters.contains register &&
    (d.generalPurposeArgumentRegisters.idxOf register = d.generalPurposeArgumentRegisters.length ||
      d.generalPurposeArgumentRegisters.idxOf register = 0)

def verify (d : Definition Register) : Bool :=
  d.stackAlignment ≠ 0 &&
  d.minimumStackArgumentSize ≠ 0 &&
  verifyRegisters d.generalPurposeArgumentRegisters d.abi.getRegisterArchitecture &&
  verifyRegisters d.generalPurposeReturnValueRegisters d.abi.getRegisterArchitecture &&
  verifyRegisters d.vectorArgumentRegisters d.abi.getRegisterArchitecture &&
  verifyRegisters d.vectorReturnValueRegisters d.abi.getRegisterArchitecture &&
  verifyRegisters d.calleeSavedRegisters d.abi.getRegisterArchitecture &&
  d.verifyReturnValueLocation &&
  !d.scalarTypes.isEmpty &&
  d.scalarTypes.all verifyScalarType &&
  (d.scalarTypes.flatMap ScalarType.cTypes).Nodup &&
  d.scalarTypes.any (·.kind = .integer) &&
  d.getDataModel.verify

theorem nodup_of_verifyRegisters {registers : List Register} {architecture : Architecture}
    (h : verifyRegisters registers architecture) : registers.Nodup := by
  rw [List.nodup_iff_count_le_one]
  intro register
  by_cases hmem : register ∈ registers
  · have hone := List.all_eq_true.1 h register hmem
    rw [Bool.and_eq_true, decide_eq_true_eq] at hone
    exact Nat.le_of_eq hone.2
  · rw [List.count_eq_zero.2 hmem]
    exact Nat.zero_le 1

theorem nodup_of_verify (d : Definition Register) (h : d.verify = true) :
    d.generalPurposeArgumentRegisters.Nodup ∧ d.vectorArgumentRegisters.Nodup := by
  simp only [verify, Bool.and_eq_true] at h
  exact ⟨nodup_of_verifyRegisters h.1.1.1.1.1.1.1.1.1.1.2,
    nodup_of_verifyRegisters h.1.1.1.1.1.1.1.1.2⟩

theorem minimumStackArgumentSize_pos (d : Definition Register) (h : d.verify = true) :
    0 < d.minimumStackArgumentSize := by
  simp only [verify, Bool.and_eq_true, decide_eq_true_eq] at h
  exact Nat.pos_of_ne_zero h.1.1.1.1.1.1.1.1.1.1.1.2

theorem nodup_returnValues_of_verify (d : Definition Register) (h : d.verify = true) :
    d.generalPurposeReturnValueRegisters.Nodup ∧ d.vectorReturnValueRegisters.Nodup := by
  simp only [verify, Bool.and_eq_true] at h
  exact ⟨nodup_of_verifyRegisters h.1.1.1.1.1.1.1.1.1.2,
    nodup_of_verifyRegisters h.1.1.1.1.1.1.1.2⟩

end Definition

end ABI
