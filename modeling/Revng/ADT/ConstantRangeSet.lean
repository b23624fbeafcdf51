import Mathlib.Data.Set.Card
import Revng.Lib.Toggles

/-!
# Constant range sets

A `ConstantRangeSet` is a vector of bounds.  Each bound flips the status of the range, from
off at zero, and a last range without an end goes up to the maximum value.

The width of an `APInt` is known at run time, and its operations assert the widths they
need.  An operation has no result when one of its assertions fails.
-/

namespace ADT

open SortedMerge Toggles

/-! ## Integers of a given width -/

@[ext]
structure APInt where
  bitWidth : Nat
  value : Nat
  isLt : value < 2 ^ bitWidth
  deriving DecidableEq

namespace APInt

def ofNat (numBits val : Nat) : APInt :=
  ⟨numBits, val % 2 ^ numBits, Nat.mod_lt _ (Nat.two_pow_pos numBits)⟩

def isZero (x : APInt) : Bool := x.value = 0

def isMaxValue (x : APInt) : Bool := x.value = 2 ^ x.bitWidth - 1

def isMinValue (x : APInt) : Bool := x.value = 0

def ugt (l r : APInt) : Bool := r.value < l.value

/-- `++x`, which wraps at the maximum value. -/
def increment (x : APInt) : APInt := ofNat x.bitWidth (x.value + 1)

def add (l r : APInt) : Option APInt := do
  guard (l.bitWidth = r.bitWidth)
  return ofNat l.bitWidth (l.value + r.value)

def sub (l r : APInt) : Option APInt := do
  guard (l.bitWidth = r.bitWidth)
  return ofNat l.bitWidth (2 ^ l.bitWidth + l.value - r.value)

def equal (l r : APInt) : Option Bool := do
  guard (l.bitWidth = r.bitWidth)
  return l.value = r.value

def zext (x : APInt) (width : Nat) : Option APInt := do
  guard (x.bitWidth ≤ width)
  return ofNat width x.value

/-- The bits above the old width are copies of the sign bit. -/
def sext (x : APInt) (width : Nat) : Option APInt := do
  guard (x.bitWidth ≤ width)
  if 2 ^ (x.bitWidth - 1) ≤ x.value then
    return ofNat width (x.value + 2 ^ width - 2 ^ x.bitWidth)
  else return ofNat width x.value

def trunc (x : APInt) (width : Nat) : Option APInt := do
  guard (width ≤ x.bitWidth)
  return ofNat width x.value

def zextOrTrunc (x : APInt) (width : Nat) : Option APInt :=
  if x.bitWidth < width then x.zext width
  else if width < x.bitWidth then x.trunc width
  else some x

def sextOrTrunc (x : APInt) (width : Nat) : Option APInt :=
  if x.bitWidth < width then x.sext width
  else if width < x.bitWidth then x.trunc width
  else some x

def getHighBitsSet (numBits hiBitsSet : Nat) : APInt :=
  ofNat numBits (2 ^ numBits - 2 ^ (numBits - hiBitsSet))

end APInt

/-- A range `[lower, upper)` that may wrap.  Equal ends stand for the full set at the
maximum value and for the empty set at zero. -/
structure ConstantRange where
  lower : APInt
  upper : APInt
  sameWidth : lower.bitWidth = upper.bitWidth
  proper : lower = upper → lower.isMaxValue = true ∨ lower.isMinValue = true

namespace ConstantRange

def getBitWidth (r : ConstantRange) : Nat := r.lower.bitWidth

def isFullSet (r : ConstantRange) : Bool := r.lower = r.upper && r.lower.isMaxValue

def isEmptySet (r : ConstantRange) : Bool := r.lower = r.upper && r.lower.isMinValue

def isWrappedSet (r : ConstantRange) : Bool := r.lower.ugt r.upper && !r.upper.isZero

end ConstantRange

/-! ## The set and its operations -/

structure ConstantRangeSet where
  bounds : List APInt
  bitWidth : Nat
  deriving DecidableEq

namespace ConstantRangeSet

/-- `ConstantRangeSet()`. -/
def default : ConstantRangeSet := ⟨[], 0⟩

/-- `ConstantRangeSet(BitWidth, IsFullSet)`. -/
def ofWidth (bitWidth : Nat) (isFullSet : Bool) : ConstantRangeSet :=
  if isFullSet then ⟨[.ofNat bitWidth 0], bitWidth⟩ else ⟨[], bitWidth⟩

/-- `ConstantRangeSet(Range)`. -/
def ofRange (range : ConstantRange) : ConstantRangeSet :=
  let bitWidth := range.getBitWidth
  if range.isFullSet then ⟨[.ofNat bitWidth 0], bitWidth⟩
  else if range.isEmptySet then ⟨[], bitWidth⟩
  else if range.isWrappedSet then ⟨[.ofNat bitWidth 0, range.upper, range.lower], bitWidth⟩
  else if range.upper ≠ .ofNat bitWidth 0 then ⟨[range.lower, range.upper], bitWidth⟩
  else ⟨[range.lower], bitWidth⟩

def isFullSet (s : ConstantRangeSet) : Bool :=
  s.bounds.length = 1 && s.bounds.head?.any APInt.isZero

def isEmptySet (s : ConstantRangeSet) : Bool := s.bounds.length = 0

def complement (s : ConstantRangeSet) : ConstantRangeSet :=
  if s.isEmptySet then ofWidth s.bitWidth true
  else if s.bounds.head?.any APInt.isZero then { s with bounds := s.bounds.tail }
  else { s with bounds := .ofNat s.bitWidth 0 :: s.bounds }

/-- The loop of `merge` over the bounds of both sides, with the statuses so far. -/
def mergeLoop (And : Bool) (resultBitWidth : Nat) : (lastOutput leftActive rightActive : Bool) →
    List (Zipped APInt) → Option (List APInt)
  | _, _, _, [] => some []
  | lastOutput, leftActive, rightActive, p :: ps => do
      guard (p.first.all (·.bitWidth = resultBitWidth))
      let leftActive := leftActive ^^ p.first.isSome
      guard (p.second.all (·.bitWidth = resultBitWidth))
      let rightActive := rightActive ^^ p.second.isSome
      let newOutput := if And then leftActive && rightActive else leftActive || rightActive
      let rest ← mergeLoop And resultBitWidth newOutput leftActive rightActive ps
      return if newOutput != lastOutput then p.value :: rest else rest

def merge (And : Bool) (s other : ConstantRangeSet) : Option ConstantRangeSet := do
  let resultBitWidth := max s.bitWidth other.bitWidth
  guard (s.bitWidth = 0 ∨ other.bitWidth = 0 ∨ s.bitWidth = other.bitWidth)
  let bounds ← mergeLoop And resultBitWidth false false false
    (zipmap APInt.value s.bounds other.bounds)
  return ⟨bounds, resultBitWidth⟩

def unionWith (s other : ConstantRangeSet) : Option ConstantRangeSet := s.merge false other

def intersectWith (s other : ConstantRangeSet) : Option ConstantRangeSet := s.merge true other

/-- Elements are compared up to the first difference. -/
def equalBounds : List APInt → List APInt → Option Bool
  | l :: ls, r :: rs => do
      if ← l.equal r then equalBounds ls rs else return false
  | _, _ => some true

/-- `operator==`, which compares the sizes of the vectors first. -/
def equal (s other : ConstantRangeSet) : Option Bool :=
  if s.bounds.length = other.bounds.length then equalBounds s.bounds other.bounds
  else some false

def contains (s other : ConstantRangeSet) : Option Bool := do
  (← s.intersectWith other).equal other

def setWidth (s : ConstantRangeSet) (newBitWidth : Nat) : Option ConstantRangeSet := do
  if s.bitWidth = 0 then return { s with bitWidth := newBitWidth }
  guard (s.bitWidth = newBitWidth)
  return s

/-- The loop of `size` over the bounds; `last` is the start of the range that is open. -/
def sizeLoop (sizeBitWidth : Nat) : (last : Option APInt) → (size : APInt) → List APInt →
    Option APInt
  | none, size, [] => some size
  | some last, size, [] => do
      size.add (← (APInt.getHighBitsSet sizeBitWidth 1).sub (← last.zext sizeBitWidth))
  | none, size, n :: bounds => sizeLoop sizeBitWidth (some n) size bounds
  | some last, size, n :: bounds => do
      sizeLoop sizeBitWidth none (← size.add (← (← n.sub last).zext sizeBitWidth)) bounds

/-- The number of members, in one bit more than the members have. -/
def size (s : ConstantRangeSet) : Option APInt :=
  let sizeBitWidth := s.bitWidth + 1
  if s.bounds.length = 0 then some (.ofNat sizeBitWidth 0)
  else sizeLoop sizeBitWidth none (.ofNat sizeBitWidth 0) s.bounds

def changeSize (s : ConstantRangeSet) (newSize : Nat) (signExtend : Bool) :
    Option ConstantRangeSet := do
  if newSize = s.bitWidth then return s
  let bounds ← s.bounds.mapM fun bound =>
    if s.bitWidth < newSize then
      if signExtend then bound.sext newSize else bound.zext newSize
    else bound.trunc newSize
  return ⟨bounds, newSize⟩

def zext (s : ConstantRangeSet) (newSize : Nat) : Option ConstantRangeSet := do
  guard (s.bitWidth ≤ newSize)
  s.changeSize newSize false

def zextOrTrunc (s : ConstantRangeSet) (newSize : Nat) : Option ConstantRangeSet :=
  s.changeSize newSize false

def sext (s : ConstantRangeSet) (newSize : Nat) : Option ConstantRangeSet := do
  guard (s.bitWidth ≤ newSize)
  s.changeSize newSize true

def sextOrTrunc (s : ConstantRangeSet) (newSize : Nat) : Option ConstantRangeSet :=
  s.changeSize newSize true

/-! ## What a set stands for -/

def values (s : ConstantRangeSet) : List Nat := s.bounds.map APInt.value

/-- The integers of the width of the set at which its status is on. -/
def members (s : ConstantRangeSet) : Set APInt :=
  {x | x.bitWidth = s.bitWidth ∧ isOn s.values x.value = true}

/-- The bounds have the width of the set and are in ascending order. -/
structure WellFormed (s : ConstantRangeSet) : Prop where
  widths : ∀ b ∈ s.bounds, b.bitWidth = s.bitWidth
  ascending : Ascending APInt.value s.bounds

end ConstantRangeSet

end ADT
