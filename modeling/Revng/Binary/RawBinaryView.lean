import Revng.Binary.MetaAddress

/-!
# Reading a binary through its segments

A segment maps a range of addresses to a range of the file.  The range of addresses can be
longer than the one of the file: what is left is zero-initialised and has no data.

The bytes of the file are held by the view itself, or come from a provider that is registered
for the model.  Comparing with an invalid address aborts; the outer `Option` of each function
says so, and the inner one is the result.
-/

namespace Binary

/-! ## Segments -/

structure Segment where
  startAddress : MetaAddress
  wellFormed : startAddress.WellFormed
  virtualSize : BitVec 64
  startOffset : BitVec 64
  fileSize : BitVec 64
  isWriteable : Bool
  deriving DecidableEq, Repr

namespace Segment

def endAddress (s : Segment) : MetaAddress := s.startAddress.add s.virtualSize

/-- The sum wraps around. -/
def endOffset (s : Segment) : BitVec 64 := s.startOffset + s.fileSize

def containsAddress (s : Segment) (a : MetaAddress) : Option Bool :=
  if a.isInvalid then some false
  else do
    let above ← s.startAddress.addressLowerThanOrEqual a
    if above then a.addressLowerThan s.endAddress else return false

/-- `contains`, for a range.  Only the first address and the last one are checked. -/
def contains (s : Segment) (a : MetaAddress) (size : BitVec 64) : Option Bool := do
  let first ← s.containsAddress a
  if first then
    if size.toNat ≤ 1 then return true
    else s.containsAddress ((a.add size).sub 1)
  else return false

def containsOffset (s : Segment) (offset : BitVec 64) : Bool :=
  s.startOffset ≤ offset && offset < s.endOffset

/-- What the verification of a model says about the ranges of a segment. -/
def verify (s : Segment) : Bool :=
  s.startAddress.isValid && s.startAddress.type.isGeneric && s.virtualSize ≠ 0 &&
    s.fileSize ≤ s.virtualSize && s.startOffset.toNat + s.fileSize.toNat < 2 ^ 64 &&
    s.endAddress.isValid

end Segment

/-! ## The file -/

/-- A source of the bytes of the file.  Ranges it returns are parts of one stable file. -/
structure RawBinaryProvider where
  getByOffset : BitVec 64 → BitVec 64 → Option (List UInt8)
  content : Nat → UInt8
  getByOffset_eq : ∀ {offset size bytes}, getByOffset offset size = some bytes →
    bytes = (List.range' offset.toNat size.toNat).map content

structure RawBinaryView where
  segments : List Segment
  data : List UInt8
  provider : Option RawBinaryProvider

/-- What `load` gives: a constant, a value that can change, or nothing. -/
inductive MaterializedValue where
  | constant (value : Nat)
  | mutable (value : Nat)
  | invalid
  deriving DecidableEq, Repr

/-! ## The view -/

/-- The last segment found so far that matches.  A second match ends the search with none. -/
def findMatch {α : Type} (p : α → Option Bool) : List α → Option α → Option (Option α)
  | [], found => some found
  | x :: rest, found => do
      if ← p x then
        match found with
        | some _ => return none
        | none => findMatch p rest (some x)
      else findMatch p rest found

def safeAdd (x y : BitVec 64) : Option (BitVec 64) :=
  if x.toNat + y.toNat < 2 ^ 64 then some (x + y) else none

def safeSub (x y : BitVec 64) : Option (BitVec 64) := if y ≤ x then some (x - y) else none

namespace RawBinaryView

variable (view : RawBinaryView)

def getByOffset (offset size : BitVec 64) : Option (List UInt8) :=
  match view.provider with
  | some provider => provider.getByOffset offset size
  | none => do
      let sum ← safeAdd offset size
      guard (sum.toNat ≤ view.data.length)
      return (view.data.drop offset.toNat).take size.toNat

def findOffsetInSegment (a : MetaAddress) (size : BitVec 64) :
    Option (Option (Segment × BitVec 64)) := do
  match ← findMatch (·.contains a size) view.segments none with
  | some s => return (safeSub a.address s.startAddress.address).map (s, ·)
  | none => return none

def addressToOffset (a : MetaAddress) (size : BitVec 64) : Option (Option (BitVec 64)) := do
  match ← view.findOffsetInSegment a size with
  | some (s, offset) => return safeAdd s.startOffset offset
  | none => return none

/-- The size is not passed on when the segment is looked for. -/
def getByAddress (a : MetaAddress) (size : BitVec 64) : Option (Option (List UInt8)) := do
  match ← view.addressToOffset a 0 with
  | some offset => return view.getByOffset offset size
  | none => return none

def littleEndian (bytes : List UInt8) : Nat := bytes.foldr (fun b n => b.toNat + 256 * n) 0

/-- The integer the bytes stand for. -/
def integerOf (isLittleEndian : Bool) (bytes : List UInt8) : Nat :=
  littleEndian (if isLittleEndian then bytes else bytes.reverse)

/-- Another size than 1, 2, 4 or 8 aborts, once there are bytes to read. -/
def readInteger (a : MetaAddress) (size : BitVec 64) (isLittleEndian : Bool) :
    Option (Option Nat) := do
  match ← view.getByAddress a size with
  | some bytes =>
      guard (size.toNat ∈ [1, 2, 4, 8])
      return some (integerOf isLittleEndian bytes)
  | none => return none

def getFromAddressOn (a : MetaAddress) : Option (Option (List UInt8)) := do
  match ← view.findOffsetInSegment a 0 with
  | some (s, offset) =>
      return do
        let start ← safeAdd s.startOffset offset
        let size ← safeSub s.endOffset start
        view.getByOffset start size
  | none => return none

def offsetToAddress (offset : BitVec 64) : MetaAddress :=
  match (findMatch (fun s => some (s.containsOffset offset)) view.segments none).join with
  | some s => ((safeSub offset s.startOffset).map s.startAddress.add).getD .invalid
  | none => .invalid

def isReadOnly (a : MetaAddress) (size : BitVec 64) : Option Bool :=
  go view.segments
where
  go : List Segment → Option Bool
    | [] => some false
    | s :: rest => do
        if ← s.contains a size then
          if !s.isWriteable then return true else go rest
        else go rest

def load (a : MetaAddress) (size : BitVec 64) (isLittleEndian : Bool) : Option MaterializedValue := do
  let value ← view.readInteger a size isLittleEndian
  let readOnly ← view.isReadOnly a size
  match value with
  | some value => return if readOnly then .constant value else .mutable value
  | none => return .invalid

end RawBinaryView

end Binary
