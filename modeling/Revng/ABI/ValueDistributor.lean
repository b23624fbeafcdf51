import Mathlib.Data.Option.Basic
import Revng.ABI.Definition
import Revng.Lib.RoundUp

/-!
# The distribution of arguments

The arguments of a function are handed out to registers and to the stack one after another.  Where an
ABI is position based, each argument has the register of its position (`positionBased`).  Elsewhere the
registers are used up in order, and `distribute` decides between registers only, registers and stack, and
stack only.  Sizes and offsets wrap around in 64 bits, and what fails an assertion has no result.
-/

namespace ABI

open RoundUp

variable {Register : Type}

/-! ## Values -/

structure AlignmentInfo where
  value : ℕ
  isNatural : Bool
  deriving DecidableEq, Repr

/-- What `nextArgument` reads of a type: its own kind and size, and its alignment under the ABI, which
is missing for a primitive of a size that the ABI does not have. -/
structure ArgumentType where
  isScalar : Bool
  isFloatPrimitive : Bool
  size : ℕ
  alignmentInfo : Option AlignmentInfo
  deriving DecidableEq, Repr

namespace ArgumentType

variable (type : ArgumentType)

/-- Not read where it is missing. -/
def alignment : ℕ := type.alignmentInfo.elim 0 AlignmentInfo.value

def hasNaturalAlignment : Bool := type.alignmentInfo.elim false AlignmentInfo.isNatural

end ArgumentType

structure DistributedValue (Register : Type) where
  registers : List Register := []
  /-- Without any padding. -/
  size : ℕ := 0
  prePaddingSize : ℕ := 0
  postPaddingSize : ℕ := 0
  sizeOnStack : ℕ := 0
  offsetOnStack : ℕ := 0
  usesPointerToCopy : Bool := false
  /-- An unused register in front of an argument. -/
  representsPadding : Bool := false
  deriving DecidableEq, Repr

/-- The state of the distribution. -/
structure ValueDistributor where
  usedGeneralPurposeRegisterCount : ℕ := 0
  usedVectorRegisterCount : ℕ := 0
  usedStackOffset : ℕ := 0
  currentStackAlignment : ℕ := 0
  lastAddedStackPadding : ℕ := 0
  argumentIndex : ℕ := 0
  deriving DecidableEq, Repr

/-! ## 64 bit arithmetic -/

def uint64 (n : ℕ) : ℕ := n % 2 ^ 64

def subtract (a b : ℕ) : ℕ := uint64 (a + (2 ^ 64 - b))

/-- The mask clears the low bits of a power of two. -/
def paddedSizeOnStack (realSize registerSize : ℕ) : Option ℕ := do
  guard registerSize.isPowerOfTwo
  guard (realSize ≠ 0)
  if realSize ≤ registerSize then
    return registerSize
  else
    return uint64 (realSize + (registerSize - 1)) &&& (2 ^ 64 - registerSize)

def alignToPowerOf2 (value align : ℕ) : Option ℕ := do
  guard align.isPowerOfTwo
  return uint64 (value + align - 1) &&& (2 ^ 64 - align)

theorem uint64_of_lt {n : ℕ} (h : n < 2 ^ 64) : uint64 n = n := Nat.mod_eq_of_lt h

theorem subtract_of_le {a b : ℕ} (hab : b ≤ a) (ha : a < 2 ^ 64) : subtract a b = a - b := by
  unfold subtract uint64
  omega

theorem uint64_subtract_add {a b c : ℕ} (hac : b ≤ a + c) (hb : b < 2 ^ 64) (hlt : a + c - b < 2 ^ 64) :
    uint64 (subtract a b + c) = a + c - b := by
  unfold subtract uint64
  omega

theorem paddedSizeOnStack_eq {realSize registerSize : ℕ} (hpow : registerSize.isPowerOfTwo)
    (hsize : realSize ≠ 0) (hlt : roundUp realSize registerSize < 2 ^ 64) :
    paddedSizeOnStack realSize registerSize = some (roundUp realSize registerSize) := by
  have hpos : 0 < registerSize := Nat.pos_of_isPowerOfTwo hpow
  have hle : registerSize ≤ roundUp realSize registerSize :=
    Nat.le_of_dvd (Nat.lt_of_lt_of_le (Nat.pos_of_ne_zero hsize) (le_roundUp realSize hpos))
      (dvd_roundUp realSize registerSize)
  unfold paddedSizeOnStack
  simp only [hpow, hsize, guard_true, ne_eq, not_false_eq_true, Option.pure_def, Option.bind_eq_bind,
    Option.bind_some]
  split
  · rename_i hsmall
    have hup : roundUp realSize registerSize ≤ registerSize := roundUp_le hsmall (Nat.dvd_refl _)
    rw [Nat.le_antisymm hup hle]
  · have hsub : realSize + (registerSize - 1) = realSize + registerSize - 1 := by omega
    rw [hsub, uint64, add_and_two_pow_sub hpow (hle.trans hlt.le) hlt]

theorem alignToPowerOf2_eq {value align : ℕ} (hpow : align.isPowerOfTwo) (halign : align < 2 ^ 64)
    (hlt : roundUp value align < 2 ^ 64) : alignToPowerOf2 value align = some (roundUp value align) := by
  simp only [alignToPowerOf2, hpow, guard_true, Option.pure_def, Option.bind_eq_bind, Option.bind_some]
  rw [uint64, add_and_two_pow_sub hpow halign.le hlt]

/-! ## One value -/

/-- The arguments of `distribute`. -/
structure Request (Register : Type) where
  size : ℕ
  alignment : ℕ
  hasNaturalAlignment : Bool
  registers : List Register
  occupiedRegisterCount : ℕ
  allowedRegisterLimit : ℕ
  forbidSplittingBetweenRegistersAndStack : Bool

namespace Request

def canUseRegisters (d : Definition Register) (q : Request Register) : Bool :=
  q.hasNaturalAlignment || d.allowPackedTypesInRegisters

/-- The number of registers that may be occupied afterwards. -/
def lastRegister (q : Request Register) : ℕ :=
  min (uint64 (q.occupiedRegisterCount + q.allowedRegisterLimit)) q.registers.length

/-- The value has to start from an even register, if registers of this kind have a parity. -/
def multiAligned (d : Definition Register) (q : Request Register) : Bool :=
  (d.getPointerSize ≤ q.size && d.getPointerSize < q.alignment) ||
    (d.getPointerSize < q.size && d.bigArgumentsUsePointersToCopy)

def allowSplitting (d : Definition Register) (q : Request Register) : Bool :=
  q.canUseRegisters d && !q.forbidSplittingBetweenRegistersAndStack &&
    d.argumentsCanBeSplitBetweenRegistersAndStack

/-- Unnatural alignments do not count on the stack. -/
def stackAlignment (d : Definition Register) (q : Request Register) : ℕ :=
  if q.hasNaturalAlignment then q.alignment else d.minimumStackArgumentSize

end Request

/-- Adds registers until they hold `size` bytes or run out, and gives their end and their size. -/
def considerRegisters [MachineRegister Register] (size last : ℕ) : List Register → ℕ → ℕ → ℕ × ℕ
  | [], considered, sizeCounter => (considered, sizeCounter)
  | register :: rest, considered, sizeCounter =>
    if sizeCounter < size ∧ considered < last then
      considerRegisters size last rest (considered + 1) (sizeCounter + getSize register)
    else
      (considered, sizeCounter)

/-- The registers considered for a value, after those for the padding. -/
structure Considered (Register : Type) where
  padding : List (DistributedValue Register) := []
  occupied : ℕ
  considered : ℕ
  sizeCounter : ℕ

/-- The padding takes a register, but not the very last one, which is of no use to the value. -/
def considerPadding (d : Definition Register) (q : Request Register)
    (considered sizeCounter : ℕ) : Option (Considered Register) :=
  let occupied := q.occupiedRegisterCount
  if d.onlyStartDoubleArgumentsFromAnEvenRegister && q.multiAligned d &&
      considered ≠ occupied && occupied % 2 = 1 then do
    guard (d.getPointerSize ≤ sizeCounter)
    let sizeCounter := sizeCounter - d.getPointerSize
    let considered := if considered < q.lastRegister then considered + 1 else considered
    if occupied + 1 = q.registers.length then
      return { occupied, considered, sizeCounter }
    else
      let padding :=
        { registers := q.registers[occupied]?.toList, size := d.getPointerSize,
          representsPadding := true }
      return { padding := [padding], occupied := occupied + 1, considered, sizeCounter }
  else
    some { occupied, considered, sizeCounter }

/-- The registers a value could occupy. -/
def Request.consider [MachineRegister Register] (d : Definition Register) (q : Request Register) :
    Option (Considered Register) :=
  let counted :=
    considerRegisters q.size q.lastRegister (q.registers.drop q.occupiedRegisterCount)
      q.occupiedRegisterCount 0
  considerPadding d q counted.1 counted.2

namespace ValueDistributor

/-- What every outcome does to the stack. -/
def advance (s : ValueDistributor) (alignment : ℕ) (value : DistributedValue Register) :
    ValueDistributor :=
  { s with
    usedStackOffset := uint64 (s.usedStackOffset + value.sizeOnStack)
    currentStackAlignment := alignment
    lastAddedStackPadding := value.postPaddingSize }

/-- The first offset for a value on the stack.  A packed value may use the padding before it. -/
def freeOffset (s : ValueDistributor) (d : Definition Register) (q : Request Register) : ℕ :=
  if d.packStackArguments && q.hasNaturalAlignment then
    s.usedStackOffset - min s.usedStackOffset s.lastAddedStackPadding
  else
    s.usedStackOffset

/-- The value goes to the stack only. -/
def distributeToStack (s : ValueDistributor) (d : Definition Register) (q : Request Register) :
    Option (DistributedValue Register × ValueDistributor) := do
  let alignment := q.stackAlignment d
  let used := s.freeOffset d q
  let offset ← alignToPowerOf2 used (max s.currentStackAlignment alignment)
  guard (used ≤ offset)
  let sizeOnStack ← paddedSizeOnStack q.size d.minimumStackArgumentSize
  let value : DistributedValue Register :=
    { size := q.size, prePaddingSize := offset - used, offsetOnStack := offset, sizeOnStack,
      postPaddingSize := subtract sizeOnStack q.size }
  return (value, { s with usedStackOffset := offset }.advance alignment value)

/-- The values, of which the last one is no padding, the number of registers occupied and the new state. -/
def distribute [MachineRegister Register] (s : ValueDistributor) (d : Definition Register) (q : Request Register) :
    Option (List (DistributedValue Register) × ℕ × ValueDistributor) := do
  let c ← q.consider d
  let registers := (q.registers.take c.considered).drop c.occupied
  if q.size ≤ c.sizeCounter && q.canUseRegisters d then
    let value := { registers, size := q.size }
    return (c.padding ++ [value], c.considered, s.advance q.alignment value)
  else if q.allowSplitting d && c.considered = q.lastRegister && 0 < c.sizeCounter then
    let sizeOnStack ← paddedSizeOnStack (q.size - c.sizeCounter) d.minimumStackArgumentSize
    let value :=
      { registers, size := q.size, sizeOnStack, offsetOnStack := s.usedStackOffset,
        postPaddingSize := uint64 (subtract sizeOnStack q.size + c.sizeCounter) }
    return (c.padding ++ [value], c.considered, s.advance q.alignment value)
  else
    let (value, s) ← s.distributeToStack d q
    let used := if d.noRegisterArgumentsCanComeAfterStackOnes then q.registers.length else c.occupied
    return (c.padding ++ [value], used, s)

end ValueDistributor

/-! ## Arguments -/

namespace ArgumentType

variable (d : Definition Register) (type : ArgumentType)

/-- A primitive that goes to vector registers where there are some left. -/
def usesVectorRegisters : Bool := type.isFloatPrimitive && !d.floatsUseGPRs

def registerLimit : ℕ :=
  if type.isScalar then d.maximumGPRsPerScalarArgument else d.maximumGPRsPerAggregateArgument

/-- A pointer to a copy of the argument takes the place of a big one. -/
def usesPointerToCopy : Bool :=
  if d.argumentsArePositionBased then
    d.getPointerSize < type.size
  else
    !type.usesVectorRegisters d && d.bigArgumentsUsePointersToCopy &&
      uint64 (d.getPointerSize * type.registerLimit d) < type.size

def passedSize : ℕ := if type.usesPointerToCopy d then d.getPointerSize else type.size

def passedAlignment : ℕ := if type.usesPointerToCopy d then d.getPointerSize else type.alignment

/-- Aggregates may have to be treated as if they were packed. -/
def passesNaturalAlignment : Bool :=
  (type.usesPointerToCopy d || type.hasNaturalAlignment) &&
    !(d.treatAllAggregatesAsPacked && !type.isScalar)

/-- Under a position based ABI, pointers never use vector registers. -/
def usesVectorPosition : Bool :=
  !d.floatsUseGPRs && type.isFloatPrimitive && !type.usesPointerToCopy d

def positionRegisters : List Register :=
  if type.usesVectorPosition d then d.vectorArgumentRegisters else d.generalPurposeArgumentRegisters

end ArgumentType

namespace ValueDistributor

/-- Without vector registers left, the limit is zero and the value goes to the stack. -/
def request (s : ValueDistributor) (d : Definition Register) (type : ArgumentType) :
    Request Register :=
  let vector := type.usesVectorRegisters d
  { size := type.passedSize d
    alignment := type.passedAlignment d
    hasNaturalAlignment := type.passesNaturalAlignment d
    registers := if vector then d.vectorArgumentRegisters else d.generalPurposeArgumentRegisters
    occupiedRegisterCount :=
      if vector then s.usedVectorRegisterCount else s.usedGeneralPurposeRegisterCount
    allowedRegisterLimit := if vector then 0 else type.registerLimit d
    forbidSplittingBetweenRegistersAndStack := vector }

/-- The next register makes sense. -/
def verifyNextRegisterIndex (d : Definition Register) (q : Request Register) (next : ℕ) : Bool :=
  let current := q.occupiedRegisterCount
  current = next || (current ≤ next && next ≤ uint64 (current + q.allowedRegisterLimit)) ||
    (next = q.registers.length && d.noRegisterArgumentsCanComeAfterStackOnes)

/-- Counts the registers of the kind that the argument uses. -/
def setRegisterCount (s : ValueDistributor) (vector : Bool) (count : ℕ) : ValueDistributor :=
  if vector then
    { s with usedVectorRegisterCount := count }
  else
    { s with usedGeneralPurposeRegisterCount := count }

/-- Only a value without padding may be a pointer to a copy. -/
def markPointerToCopy (usesPointer : Bool) (values : List (DistributedValue Register)) :
    Option (List (DistributedValue Register)) :=
  match usesPointer, values with
  | false, values => some values
  | true, [value] => some [{ value with usesPointerToCopy := true }]
  | true, _ => none

/-- An argument of its own, or a pointer to a copy of it. -/
def distributeArgument [MachineRegister Register] (s : ValueDistributor) (d : Definition Register)
    (type : ArgumentType) : Option (List (DistributedValue Register) × ValueDistributor) := do
  let q := s.request d type
  let (values, next, s) ← s.distribute d q
  let values ← markPointerToCopy (type.usesPointerToCopy d) values
  guard (verifyNextRegisterIndex d q next)
  return (values,
    { s.setRegisterCount (type.usesVectorRegisters d) next with
      argumentIndex := s.argumentIndex + 1 })

/-- A float takes a single vector register if there is one, and counts as no argument then. -/
def nonPositionBased [MachineRegister Register] (s : ValueDistributor) (d : Definition Register)
    (type : ArgumentType) : Option (List (DistributedValue Register) × ValueDistributor) :=
  match type.usesVectorRegisters d, d.vectorArgumentRegisters[s.usedVectorRegisterCount]? with
  | true, some register =>
    some ([{ registers := [register] }],
      { s with usedVectorRegisterCount := s.usedVectorRegisterCount + 1 })
  | _, _ => s.distributeArgument d type

def nextPositionBasedIndex (s : ValueDistributor) : ℕ :=
  max (max s.usedGeneralPurposeRegisterCount s.usedVectorRegisterCount) s.argumentIndex

def positionBased (s : ValueDistributor) (d : Definition Register) (type : ArgumentType) :
    Option (List (DistributedValue Register) × ValueDistributor) :=
  let usesPointerToCopy := type.usesPointerToCopy d
  let size := type.passedSize d
  let vector := type.usesVectorPosition d
  let count := if vector then s.usedVectorRegisterCount else s.usedGeneralPurposeRegisterCount
  let index := s.nextPositionBasedIndex
  match (type.positionRegisters d)[index]? with
  | some register => do
    guard (count ≤ index)
    return ([{ registers := [register], size, usesPointerToCopy }],
      { s.setRegisterCount vector (index + 1) with argumentIndex := s.argumentIndex + 1 })
  | none => do
    -- An empty stack needs no padding.
    if s.usedStackOffset ≠ 0 then
      let padded ← paddedSizeOnStack s.usedStackOffset d.minimumStackArgumentSize
      guard (padded = s.usedStackOffset)
    let value :=
      { size, usesPointerToCopy, offsetOnStack := s.usedStackOffset,
        sizeOnStack := d.getPointerSize }
    return ([value],
      { s with
        usedStackOffset := uint64 (s.usedStackOffset + d.getPointerSize)
        argumentIndex := s.argumentIndex + 1 })

def nextArgument [MachineRegister Register] (s : ValueDistributor) (d : Definition Register)
    (type : ArgumentType) : Option (List (DistributedValue Register) × ValueDistributor) :=
  if d.argumentsArePositionBased then
    s.positionBased d type
  else do
    guard type.alignmentInfo.isSome
    s.nonPositionBased d type

/-- The pointer to the return value goes first, if it is an argument of its own. -/
def addShadowPointerReturnValueLocationArgument [DecidableEq Register] (s : ValueDistributor)
    (d : Definition Register) : Option ValueDistributor := do
  guard (s.argumentIndex = 0)
  let s := { s with argumentIndex := 1 }
  match d.returnValueLocationRegister, d.generalPurposeArgumentRegisters with
  | some location, first :: _ =>
    if location = first then
      guard (s.usedGeneralPurposeRegisterCount = 0)
      return { s with usedGeneralPurposeRegisterCount := 1 }
    else
      return s
  | some _, [] => return s
  | none, _ =>
    if d.returnValueLocationOnStack then
      guard (s.usedStackOffset % d.getPointerSize = 0)
      return { s with usedStackOffset := uint64 (s.usedStackOffset + d.getPointerSize) }
    else
      return s

/-- The distributor before the first argument.  Only definitions that pass `verify` are used. -/
def start [DecidableEq Register] [MachineRegister Register] (d : Definition Register)
    (hasReturnValueLocationArgument : Bool) : Option ValueDistributor := do
  guard d.verify
  let s := { usedStackOffset := d.unusedStackArgumentBytes }
  if hasReturnValueLocationArgument then
    s.addShadowPointerReturnValueLocationArgument d
  else
    return s

/-- Distributes the arguments and adds them to those that have been distributed. -/
def distributeAll [MachineRegister Register] (s : ValueDistributor) (d : Definition Register)
    (result : List (DistributedValue Register)) :
    List ArgumentType → Option (List (DistributedValue Register))
  | [] => some result
  | type :: rest => do
    let (values, s) ← s.nextArgument d type
    s.distributeAll d (result ++ values) rest

end ValueDistributor

/-! ## Packed arguments -/

namespace DistributedValue

def dropPostPadding (value : DistributedValue Register) : DistributedValue Register :=
  { value with sizeOnStack := subtract value.sizeOnStack value.postPaddingSize, postPaddingSize := 0 }

/-- A value that overlaps the next one on the stack loses its padding. -/
def trimOverlap (current next : DistributedValue Register) : Option (DistributedValue Register) :=
  if current.sizeOnStack ≠ 0 ∧ next.sizeOnStack ≠ 0 ∧
      next.offsetOnStack < uint64 (current.offsetOnStack + current.sizeOnStack) then do
    let current := current.dropPostPadding
    guard (uint64 (current.offsetOnStack + current.sizeOnStack) ≤ next.offsetOnStack)
    return current
  else
    some current

def trimOverlaps : List (DistributedValue Register) → Option (List (DistributedValue Register))
  | current :: next :: rest => do
    let current ← trimOverlap current next
    let rest ← trimOverlaps (next :: rest)
    return current :: rest
  | values => some values

def trimLast : List (DistributedValue Register) → List (DistributedValue Register)
  | [] => []
  | [last] => [if last.sizeOnStack ≠ 0 then last.dropPostPadding else last]
  | value :: next :: rest => value :: trimLast (next :: rest)

end DistributedValue

/-- The registers and the stack offsets of all arguments. -/
def distributeArguments [DecidableEq Register] [MachineRegister Register] (d : Definition Register)
    (arguments : List ArgumentType) (hasReturnValueLocationArgument : Bool) :
    Option (List (DistributedValue Register)) := do
  let s ← ValueDistributor.start d hasReturnValueLocationArgument
  let result ← s.distributeAll d [] arguments
  if d.packStackArguments then
    let result ← DistributedValue.trimOverlaps result
    return DistributedValue.trimLast result
  else
    return result

end ABI
