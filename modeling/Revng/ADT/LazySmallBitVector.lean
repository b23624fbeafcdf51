import Mathlib.Data.Option.Basic
import Revng.Lib.WordArray

/-!
# Lazy small bit vectors

A `LazySmallBitVector` keeps up to 63 bits in the word where the pointer to a larger storage
would be.  The lowest bit of that word is set, which no pointer has.  A larger storage has a
capacity of whole words, at least two of them, and is never made smaller.

The capacity of the storage is a `size_t`, but `capacity` returns it as an `unsigned`: one of
2³² bits or more is cut.

An operation is missing where an assertion fails or a word is shifted by its width.
-/

namespace ADT

open WordArray

abbrev Word := BitVec 64

/-! ## Words -/

def bitsPerPointer : Nat := 64

def maxSmallSize : Nat := bitsPerPointer - 1

def one : Word := 1

/-- `std::numeric_limits<int32_t>::max()` -/
def intMax : Nat := 2 ^ 31 - 1

/-- What an `unsigned` keeps of a number. -/
def unsigned (n : Nat) : Nat := n % 2 ^ 32

/-- The loop of `requiredBits`, which a word leaves after at most 64 rounds. -/
def requiredBitsLoop : Nat → Word → Nat
  | 0, _ => 0
  | rounds + 1, value => if value ≠ 0 then requiredBitsLoop rounds (value >>> 1) + 1 else 0

def Word.requiredBits (value : Word) : Nat := requiredBitsLoop bitsPerPointer value

/-- `ffsl`: the lowest set bit, counted from one, or zero. -/
def findFirstBit (value : Word) : Nat :=
  match (List.range bitsPerPointer).find? value.getLsbD with
  | some i => i + 1
  | none => 0

def excessDivide (a b : Nat) : Nat := (a + (b - 1)) / b

/-- `Value << Amount`, which is undefined from the width of the word on. -/
def shiftL (value : Word) (amount : Nat) : Option Word :=
  if amount < bitsPerPointer then some (value <<< amount) else none

/-- `Value >> Amount`, likewise. -/
def shiftR (value : Word) (amount : Nat) : Option Word :=
  if amount < bitsPerPointer then some (value >>> amount) else none

/-! ## Representations -/

/-- The word with the tag. -/
structure SmallStorage where
  storage : Word
  tagged : storage.getLsbD 0 = true

/-- The words of the heap.  Their number fits an `unsigned`, as the sizes asked for do. -/
structure LargeStorage where
  storage : List Word
  two_le : 2 ≤ storage.length

inductive LazySmallBitVector where
  | small (s : SmallStorage)
  | large (l : LargeStorage)

namespace SmallStorage

def getSmall (s : SmallStorage) : Word := s.storage >>> 1

/-- A word with the tag added. -/
def ofWord (storage : Word) : SmallStorage := ⟨storage ||| 1, by simp⟩

def setSmall (value : Word) : SmallStorage := ofWord (value <<< 1)

end SmallStorage

namespace LargeStorage

variable (l : LargeStorage)

def wordCount : Nat := l.storage.length

/-- The `Capacity` field. -/
def bitCount : Nat := l.wordCount * bitsPerPointer

def capacity : Nat := unsigned l.bitCount

/-- A word that the loops have made sure is there. -/
def wordAt (index : Nat) : Word := word l.storage index

def set (index : Nat) (value : Word) : LargeStorage where
  storage := l.storage.set index value
  two_le := by rw [List.length_set]; exact l.two_le

/-- Change a word that may not be there. -/
def update (index : Nat) (f : Word → Word) : Option LargeStorage :=
  if index < l.wordCount then
    some
      { storage := l.storage.modify index f
        two_le := by rw [List.length_modify]; exact l.two_le }
  else none

/-- Change the words below one, each by itself. -/
def updateBelow (max : Nat) (f : Nat → Word → Word) : LargeStorage where
  storage := l.storage.mapIdx fun i value => if i < max then f i value else value
  two_le := by rw [List.length_mapIdx]; exact l.two_le

def zero (start count : Nat) : Option LargeStorage :=
  if start + count ≤ l.wordCount ∧ start < l.wordCount then
    some
      { storage := l.storage.mapIdx fun i value =>
          if start ≤ i ∧ i < start + count then 0 else value
        two_le := by rw [List.length_mapIdx]; exact l.two_le }
  else none

def zeroFrom (start : Nat) : Option LargeStorage := l.zero start l.wordCount

/-- The highest word below `count` that is not zero decides. -/
def requiredBitsBelow : Nat → Nat
  | 0 => 0
  | i + 1 =>
      if l.wordAt i ≠ 0 then unsigned (bitsPerPointer * i + (l.wordAt i).requiredBits)
      else requiredBitsBelow i

def requiredBits : Nat := l.requiredBitsBelow l.wordCount

/-- `operator=`, which leaves the words behind those of the other storage. -/
def assign (other : LargeStorage) : Option LargeStorage :=
  if other.bitCount ≤ l.bitCount then
    some
      { storage := other.storage ++ l.storage.drop other.wordCount
        two_le := by rw [List.length_append]; exact Nat.le_add_right_of_le other.two_le }
  else none

end LargeStorage

namespace LazySmallBitVector

open SmallStorage

variable (v other : LazySmallBitVector)

def empty : LazySmallBitVector := small ⟨1, rfl⟩

def isSmall : LazySmallBitVector → Bool
  | small _ => true
  | large _ => false

def capacity : LazySmallBitVector → Nat
  | small _ => bitsPerPointer - 1
  | large l => l.capacity

/-- The number of words of a new storage. -/
def pointersCount (newSize : Nat) : Nat :=
  excessDivide (max newSize (2 * v.capacity)) bitsPerPointer

theorem two_le_pointersCount (s : SmallStorage) (newSize : Nat) :
    2 ≤ (small s).pointersCount newSize := by
  have h : 126 ≤ max newSize (2 * (small s).capacity) := Nat.le_max_right _ _
  rw [pointersCount, excessDivide, bitsPerPointer]
  omega

def alloc (newSize : Nat) : Option LargeStorage :=
  if newSize > v.capacity then
    match v with
    | small s =>
        some
          { storage := s.getSmall :: List.replicate ((small s).pointersCount newSize - 1) 0
            two_le := by
              have := two_le_pointersCount s newSize
              rw [List.length_cons, List.length_replicate]
              omega }
    | large old =>
        if old.wordCount ≤ v.pointersCount newSize then
          some
            { storage := old.storage ++
                List.replicate (v.pointersCount newSize - old.wordCount) 0
              two_le := by rw [List.length_append]; exact Nat.le_add_right_of_le old.two_le }
        else none
  else none

/-- Grow, unless the capacity is enough. -/
def enlarged (newSize : Nat) : Option LazySmallBitVector :=
  if newSize > v.capacity then large <$> v.alloc newSize else some v

def reserve (size : BitVec 32) : Option LazySmallBitVector :=
  if (size + 1).toNat ≥ v.capacity then large <$> v.alloc size.toNat else some v

/-! ## Bits -/

def set (index : BitVec 32) : Option LazySmallBitVector :=
  if index.toNat < intMax then do
    match ← v.enlarged (index.toNat + 1) with
    | small s =>
        if index.toNat < maxSmallSize then
          return small ⟨s.storage ||| one <<< (index.toNat + 1), by simp [s.tagged]⟩
        else none
    | large l =>
        return large (← l.update (index.toNat / bitsPerPointer)
          (· ||| one <<< (index.toNat % bitsPerPointer)))
  else none

def unset (index : BitVec 32) : Option LazySmallBitVector :=
  if index.toNat < intMax then
    if index.toNat ≥ v.capacity then some v
    else
      match v with
      | small s =>
          if index.toNat < maxSmallSize then
            some (small ⟨s.storage &&& ~~~(one <<< (index.toNat + 1)), by simp [s.tagged]⟩)
          else none
      | large l => large <$> l.update (index.toNat / bitsPerPointer)
          (· &&& ~~~(one <<< (index.toNat % bitsPerPointer)))
  else none

/-- `operator[]` -/
def get (index : Nat) : Bool :=
  if index ≥ v.capacity then false
  else
    match v with
    | small s => (s.storage >>> (index + 1)).getLsbD 0
    | large l => (l.wordAt (index / bitsPerPointer) >>> (index % bitsPerPointer)).getLsbD 0

def requiredBits : LazySmallBitVector → Nat
  | small s => s.getSmall.requiredBits
  | large l => l.requiredBits

def isZero : Bool := v.requiredBits = 0

/-! ## Boolean operations -/

/-- The shape of `|=` and `^=`. -/
def combine (f : Word → Word → Word) : Option LazySmallBitVector := do
  match ← v.enlarged other.capacity, other with
  | small s, small o => return small (ofWord (f s.storage o.storage))
  | small _, large _ => none
  | large l, large o =>
      let max := min l.capacity o.capacity / bitsPerPointer
      return large (l.updateBelow max fun i value => f value (o.wordAt i))
  | large l, small o => return large (← l.update 0 (f · o.getSmall))

/-- `operator|=`.  Both words have the tag, so adding it changes nothing. -/
def orAssign : Option LazySmallBitVector := v.combine other (· ||| ·)

/-- `operator^=` -/
def xorAssign : Option LazySmallBitVector := v.combine other (· ^^^ ·)

/-- `operator&=` -/
def andAssign : Option LazySmallBitVector :=
  match v, other with
  | small s, small o => some (small (setSmall (s.getSmall &&& o.getSmall)))
  | small s, large o => some (small (setSmall (s.getSmall &&& o.wordAt 0)))
  | large l, small o => do
      let l ← if l.wordCount > 1 then l.zero 1 (l.wordCount - 1) else some l
      return large (← l.update 0 (· &&& o.getSmall))
  | large l, large o => do
      let l ←
        if l.wordCount > o.wordCount then l.zero o.wordCount (l.wordCount - o.wordCount)
        else some l
      return large (l.updateBelow (min o.wordCount l.wordCount) fun i value =>
        value &&& o.wordAt i)

/-! ## Shifts -/

/-- The words from `i` on, without the last one. -/
def shiftRightLoop (sourceIndex bits : Nat) : Nat → Nat → LargeStorage → Option LargeStorage
  | 0, _, l => some l
  | left + 1, i, l => do
      let carried ← shiftL (l.wordAt (sourceIndex + (i + 1))) (bitsPerPointer - bits)
      shiftRightLoop sourceIndex bits left (i + 1)
        (l.set i (l.wordAt (sourceIndex + i) >>> bits ||| carried))

/-- `operator>>=` -/
def shiftRight (amount : BitVec 32) : Option LazySmallBitVector :=
  if amount.toNat ≤ v.capacity then
    match v with
    | small s => some (small (ofWord (s.storage >>> amount.toNat)))
    | large l =>
        if amount.toNat = l.capacity then large <$> l.zeroFrom 0
        else do
          let sourceIndex := amount.toNat / bitsPerPointer
          let count := l.wordCount - sourceIndex
          let bits := amount.toNat % bitsPerPointer
          let l ← shiftRightLoop sourceIndex bits (count - 1) 0 l
          let l := l.set (count - 1) (l.wordAt (sourceIndex + (count - 1)) >>> bits)
          if sourceIndex > 0 then return large (← l.zeroFrom count) else return large l
  else none

/-- The words below `i + 1`, from the highest to the second. -/
def shiftLeftLoop (toSkip bits : Nat) : Nat → LargeStorage → Option LargeStorage
  | 0, l => some l
  | i + 1, l => do
      let carried ← shiftR (l.wordAt i) (bitsPerPointer - bits)
      shiftLeftLoop toSkip bits i (l.set (toSkip + (i + 1)) (l.wordAt (i + 1) <<< bits ||| carried))

/-- Move the words of a storage that is large enough. -/
def moveLeft (l : LargeStorage) (amount : Nat) : Option LazySmallBitVector := do
  let toSkip := amount / bitsPerPointer
  let bits := amount % bitsPerPointer
  let l ← shiftLeftLoop toSkip bits (l.wordCount - 1 - toSkip) l
  let l ← l.update toSkip fun _ => l.wordAt 0 <<< bits
  if toSkip > 0 then return large (← l.zero 0 toSkip) else return large l

/-- The part of `operator<<=` for a large storage. -/
def shiftLeftLarge (l : LargeStorage) (requiredBits : Nat) (amount : BitVec 32) :
    Option LazySmallBitVector :=
  if requiredBits = 0 then some (large l)
  else
    let newBits := unsigned (requiredBits + amount.toNat)
    if newBits > l.capacity then do
      moveLeft (← (large l).alloc (unsigned (newBits + 1))) amount.toNat
    else moveLeft l amount.toNat

/-- `operator<<=` -/
def shiftLeft (amount : BitVec 32) : Option LazySmallBitVector :=
  match v with
  | small s =>
      let newSize := unsigned (v.requiredBits + amount.toNat)
      if newSize ≤ bitsPerPointer then do
        return small (ofWord (← shiftL (s.storage &&& ~~~1) amount.toNat))
      else do
        shiftLeftLarge (← v.alloc newSize) v.requiredBits amount
  | large l => shiftLeftLarge l v.requiredBits amount

/-! ## Copies and ranges -/

/-- `operator=`, which uses the storage there is when it is large enough. -/
def assign : Option LazySmallBitVector :=
  match other with
  | small o => some (small o)
  | large o =>
      if o.capacity > maxSmallSize then do
        match ← v.enlarged o.capacity with
        | small _ => none
        | large l => return large (← l.assign o)
      else none

/-- Blank leading bits.  The sums and differences are those of `size_t`. -/
def blankLeading (l : LargeStorage) (start count : BitVec 64) :
    Option (LargeStorage × BitVec 64 × BitVec 64) :=
  let head := bitsPerPointer - start.toNat % bitsPerPointer
  let headComplement := start.toNat % bitsPerPointer
  if headComplement ≠ 0 then do
    let mask := ~~~(((one <<< head) - 1) <<< headComplement)
    let l ← l.update (start.toNat / bitsPerPointer) (· &&& mask)
    return (l, start + .ofNat 64 head, count - .ofNat 64 head)
  else some (l, start, count)

/-- Blank trailing bits. -/
def blankTrailing (l : LargeStorage) (start count : BitVec 64) :
    Option (LargeStorage × BitVec 64) :=
  let tail := count.toNat % bitsPerPointer
  if tail ≠ 0 then do
    let l ← l.update ((start + count).toNat / bitsPerPointer) (· &&& ~~~((one <<< tail) - 1))
    return (l, count - .ofNat 64 tail)
  else some (l, count)

/-- The part of `zero` for a large storage. -/
def zeroLarge (l : LargeStorage) (start count : BitVec 64) : Option LargeStorage := do
  let (l, start, count) ← blankLeading l start count
  let (l, count) ← blankTrailing l start count
  if count ≠ 0 then l.zero (start.toNat / bitsPerPointer) (count.toNat / bitsPerPointer)
  else return l

def zero (start count : BitVec 64) : Option LazySmallBitVector :=
  if start.toNat ≥ v.capacity ∨ (start + count).toNat > v.capacity then some v
  else
    match v with
    | small s => do
        let ones ← shiftL one count.toNat
        let mask ← shiftL (ones - 1) start.toNat
        return small (setSmall (s.getSmall &&& ~~~mask))
    | large l => large <$> zeroLarge l start count

/-! ## Comparisons -/

/-- `operator==`.  Two vectors have one storage only if they are the same. -/
def equal : Bool :=
  match v, other with
  | small s, small o => s.storage = o.storage
  | large l, large o =>
      let max := min l.capacity o.capacity / bitsPerPointer
      (List.range max).all (fun i => l.wordAt i = o.wordAt i) &&
        if l.capacity > o.capacity then
          (List.range' max (l.wordCount - max)).all (l.wordAt · = 0)
        else (List.range' max (o.wordCount - max)).all (o.wordAt · = 0)
  | large l, small o =>
      l.wordAt 0 = o.getSmall && (List.range' 1 (l.wordCount - 1)).all (l.wordAt · = 0)
  | small s, large o =>
      o.wordAt 0 = s.getSmall && (List.range' 1 (o.wordCount - 1)).all (o.wordAt · = 0)

/-- The highest of the words below `i` in which two storages differ. -/
def lessThanBelow (l o : LargeStorage) : Nat → Bool
  | 0 => false
  | i + 1 => if l.wordAt i ≠ o.wordAt i then l.wordAt i < o.wordAt i else lessThanBelow l o i

/-- `operator<` -/
def lessThan : Bool :=
  match v, other with
  | small s, small o => s.storage < o.storage
  | large l, large o =>
      let max := min l.capacity o.capacity / bitsPerPointer
      if l.capacity > o.capacity then
        (List.range' max (l.wordCount - max)).all (l.wordAt · = 0) && lessThanBelow l o max
      else
        (List.range' max (o.wordCount - max)).any (o.wordAt · ≠ 0) || lessThanBelow l o max
  | large l, small o =>
      (List.range' 1 (l.wordCount - 1)).all (l.wordAt · = 0) && decide (l.wordAt 0 < o.getSmall)
  | small s, large o =>
      (List.range' 1 (o.wordCount - 1)).any (o.wordAt · ≠ 0) || decide (s.getSmall < o.wordAt 0)

/-! ## Iteration -/

/-- The loop of `findNext`, which aborts behind the last word. -/
def findNextLoop (l : LargeStorage) : Nat → Nat → Option Nat
  | 0, _ => none
  | left + 1, index =>
      let index := index + 1
      if unsigned (index * bitsPerPointer) ≥ l.capacity then some 0
      else if index < l.wordCount then
        if l.wordAt index = 0 then findNextLoop l left index
        else some (unsigned (index * bitsPerPointer + findFirstBit (l.wordAt index)))
      else none

/-- The next set bit from an index on, counted from one, or zero. -/
def findNext (startIndex : Nat) : Option Nat :=
  if startIndex ≥ v.requiredBits then some 0
  else
    match v with
    | small s => some (startIndex + findFirstBit (s.getSmall >>> startIndex))
    | large l =>
        let index := startIndex / bitsPerPointer
        let firstValue := l.wordAt index >>> (startIndex % bitsPerPointer)
        if firstValue ≠ 0 then some (unsigned (startIndex + findFirstBit firstValue))
        else findNextLoop l l.wordCount index

/-- Advance an iterator, which must be at a set bit or new. -/
def increment (nextBitIndex : Nat) : Option Nat :=
  if nextBitIndex = 0 ∨ v.get (nextBitIndex - 1) = true then v.findNext nextBitIndex else none

def begin : Option Nat := if v.isZero then some 0 else v.increment 0

/-- The bits an iterator visits until the end, in a bounded number of steps. -/
def visitedFrom : Nat → Nat → Option (List Nat)
  | _, 0 => some []
  | 0, _ => none
  | steps + 1, nextBitIndex => do
      let visited ← visitedFrom steps (← v.increment nextBitIndex)
      return (nextBitIndex - 1) :: visited

def visited (steps : Nat) : Option (List Nat) := do v.visitedFrom steps (← v.begin)

end LazySmallBitVector

end ADT
