import Revng.Lib.LastValues

/-!
# Sorted vectors

A `SortedVector` keeps the elements by ascending keys.  A batch appends its elements at the
end, and its commit restores the order: `batch_insert` takes each key only once and no key
the vector has, `batch_insert_or_assign` keeps the last element of a key.

What an assignment by move leaves behind is a parameter.  `unique_last` moves an element to
itself when nothing has been dropped before it.
-/

namespace ADT

open LastValues

variable {K T : Type} [LinearOrder K]

/-! ## Elements -/

/-- `KeyedObjectTraits`. -/
structure KeyedObject (K T : Type) where
  key : T → K
  fromKey : K → T
  key_fromKey : ∀ k, key (fromKey k) = k

/-- What `operator=(T &&)` leaves in the object moved from, and in an object moved to itself. -/
structure MoveAssignment (T : Type) where
  movedFrom : T → T
  selfMoved : T → T

def keysEqual (l r : K) : Bool := !decide (l < r) && !decide (r < l)

theorem keysEqual_iff {l r : K} : keysEqual l r = true ↔ l = r := by
  rw [keysEqual, Bool.and_eq_true, Bool.not_eq_true', Bool.not_eq_true', decide_eq_false_iff_not,
    decide_eq_false_iff_not, not_lt, not_lt, and_comm, le_antisymm_iff]

namespace KeyedObject

def compareElements (kot : KeyedObject K T) (l r : T) : Bool := kot.key l < kot.key r

def elementsEqual (kot : KeyedObject K T) (l r : T) : Bool := keysEqual (kot.key l) (kot.key r)

end KeyedObject

/-! ## Algorithms -/

/-- `*Target = std::move(*Source)` -/
def MoveAssignment.assign (move : MoveAssignment T) (v : List T) (target source : Nat) : List T :=
  if target = source then v.modify target move.selfMoved
  else
    match v[source]? with
    | some x => (v.set target x).modify source move.movedFrom
    | none => v

/-- The loop of `unique_last`, with the number of elements that are left for `First`. -/
def uniqueLastLoop (move : MoveAssignment T) (predicate : T → T → Bool) :
    Nat → List T → Nat → Nat → List T × Nat
  | 0, v, result, _ => (v, result)
  | left + 1, v, result, first =>
      let first := first + 1
      let isSame :=
        match v[result]?, v[first]? with
        | some x, some y => predicate x y
        | _, _ => false
      -- the two branches of the source make the same assignment
      let result := if isSame then result else result + 1
      uniqueLastLoop move predicate left (move.assign v result first) result first

/-- The vector and the new end. -/
def uniqueLast (move : MoveAssignment T) (predicate : T → T → Bool) (v : List T) : List T × Nat :=
  if v.isEmpty then (v, 0)
  else
    let (v, result) := uniqueLastLoop move predicate (v.length - 1) v 0 0
    (v, result + 1)

/-- `std::adjacent_find`, as the position of the first of the two. -/
def adjacentFind (predicate : T → T → Bool) : List T → Nat
  | [] => 0
  | [_] => 1
  | x :: y :: xs => if predicate x y then 0 else adjacentFind predicate (y :: xs) + 1

/-- In a sorted vector equal keys stand side by side. -/
theorem adjacentFind_eq_length_iff {kot : KeyedObject K T} {xs : List T}
    (h : KeySorted kot.key xs) :
    adjacentFind kot.elementsEqual xs = xs.length ↔ (xs.map kot.key).Nodup := by
  fun_induction adjacentFind kot.elementsEqual xs with
  | case1 => simp
  | case2 => simp
  | case3 x y xs heq =>
    have hkey : kot.key x = kot.key y := keysEqual_iff.mp heq
    simp [hkey]
  | case4 x y xs hne ih =>
    have hkey : kot.key x ≠ kot.key y := mt keysEqual_iff.mpr hne
    have hlt := h.lt_of_lt (lt_of_le_of_ne ((List.pairwise_cons.mp h).1 y (by simp)) hkey)
    have hnot : kot.key x ∉ (y :: xs).map kot.key := by
      rw [List.mem_map]
      rintro ⟨z, hz, hkey⟩
      exact (hlt z hz).ne' hkey
    rw [List.length_cons, Nat.add_left_inj, ih h.tail, List.map_cons (l := y :: xs),
      List.nodup_cons]
    exact (and_iff_right hnot).symm

theorem modify_length (xs ys : List T) (x : T) (f : T → T) :
    (xs ++ x :: ys).modify xs.length f = xs ++ f x :: ys := by
  induction xs with
  | nil => rfl
  | cons y xs ih => rw [List.cons_append, List.length_cons, List.modify_succ_cons, ih]; rfl

theorem insertIdx_length (xs ys : List T) (x : T) :
    (xs ++ ys).insertIdx xs.length x = xs ++ x :: ys := by
  induction xs with
  | nil => rfl
  | cons y xs ih => rw [List.cons_append, List.length_cons, List.insertIdx_succ_cons, ih]; rfl

namespace MoveAssignment

variable {move : MoveAssignment T}

theorem assign_self (kept rest : List T) (x : T) :
    move.assign (kept ++ x :: rest) kept.length kept.length =
      kept ++ move.selfMoved x :: rest := by
  rw [assign, if_pos rfl, modify_length]

theorem assign_below (kept holes rest : List T) (r x : T) :
    move.assign (kept ++ r :: (holes ++ x :: rest)) kept.length
        (kept.length + holes.length + 1) =
      kept ++ x :: (holes ++ move.movedFrom x :: rest) := by
  have hsource : (kept ++ r :: (holes ++ x :: rest))[kept.length + holes.length + 1]? = some x := by
    simp [Nat.add_assoc]
  have hset : (kept ++ r :: (holes ++ x :: rest)).set kept.length x =
      (kept ++ x :: holes) ++ x :: rest := by simp
  have hlen : kept.length + holes.length + 1 = (kept ++ x :: holes).length := by
    simp [Nat.add_assoc]
  rw [assign, if_neg (by omega), hsource]
  simp only [hset]
  rw [hlen, modify_length, List.append_assoc, List.cons_append]

end MoveAssignment

/-- The elements kept so far, `*Result`, the objects moved from, and what `First` has not
reached. -/
theorem uniqueLastLoop_take {kot : KeyedObject K T} {move : MoveAssignment T}
    (hself : ∀ x, move.selfMoved x = x) (rest kept holes : List T) (r : T) :
    let p := uniqueLastLoop move kot.elementsEqual rest.length (kept ++ r :: (holes ++ rest))
      kept.length (kept.length + holes.length)
    p.1.take (p.2 + 1) = kept ++ keepLast kot.key (r :: rest) := by
  induction rest generalizing kept holes r with
  | nil =>
    rw [List.append_nil, List.append_cons]
    exact List.take_left' (by rw [List.length_append]; rfl)
  | cons x rest ih =>
    have hresult : (kept ++ r :: (holes ++ x :: rest))[kept.length]? = some r := by simp
    have hfirst :
        (kept ++ r :: (holes ++ x :: rest))[kept.length + holes.length + 1]? = some x := by
      simp [Nat.add_assoc]
    rw [List.length_cons, uniqueLastLoop]
    simp only [hresult, hfirst]
    by_cases hkey : kot.key r = kot.key x
    · have hsame : kot.elementsEqual r x = true := keysEqual_iff.mpr hkey
      rw [if_pos hsame, move.assign_below, keepLast, if_pos hkey]
      have hrest := ih kept (holes ++ [move.movedFrom x]) x
      rwa [List.append_assoc, List.singleton_append, List.length_append] at hrest
    · have hdiff : ¬kot.elementsEqual r x = true := mt keysEqual_iff.mp hkey
      rw [if_neg hdiff, keepLast, if_neg hkey, List.append_cons kept r]
      cases holes with
      | nil =>
        -- `*Result` is `*First`
        have hrest := ih (kept ++ [r]) [] x
        have hassign := move.assign_self (kept ++ [r]) rest x
        rw [List.length_append, List.length_singleton] at hrest hassign
        rw [List.nil_append, List.length_nil, Nat.add_zero, hassign, hself]
        simpa only [List.append_assoc, List.singleton_append, List.nil_append, List.length_nil,
          Nat.add_zero] using hrest
      | cons h holes =>
        have hrest := ih (kept ++ [r]) (holes ++ [move.movedFrom x]) x
        have hassign := move.assign_below (kept ++ [r]) holes rest h x
        have hlen : kept.length + 1 + holes.length + 1 =
            kept.length + (h :: holes).length + 1 := by
          rw [List.length_cons]
          omega
        rw [List.length_append, List.length_singleton, hlen] at hassign
        rw [List.cons_append, hassign]
        simpa [Nat.add_assoc, Nat.add_comm, Nat.add_left_comm] using hrest

theorem uniqueLast_take {kot : KeyedObject K T} {move : MoveAssignment T}
    (hself : ∀ x, move.selfMoved x = x) (xs : List T) :
    (uniqueLast move kot.elementsEqual xs).1.take (uniqueLast move kot.elementsEqual xs).2 =
      keepLast kot.key xs := by
  cases xs with
  | nil => rfl
  | cons x xs => exact uniqueLastLoop_take hself xs [] [] x

/-! ## The container -/

structure SortedVector (T : Type) where
  theVector : List T
  batchInsertInProgress : Bool

namespace SortedVector

variable (kot : KeyedObject K T) (move : MoveAssignment T) (v : SortedVector T)

def empty : SortedVector T := ⟨[], false⟩

/-- The elements, behind `revng_assert(not BatchInsertInProgress)`. -/
def elements : Option (List T) := if v.batchInsertInProgress then none else some v.theVector

def size : Option Nat := do
  let xs ← v.elements
  return xs.length

/-- The position of the first element that is not below the key. -/
def lowerBound (key : K) : Option Nat := do
  let xs ← v.elements
  return xs.findIdx fun x => !kot.compareElements x (kot.fromKey key)

def upperBound (key : K) : Option Nat := do
  let xs ← v.elements
  return xs.findIdx fun x => kot.compareElements (kot.fromKey key) x

/-- The position of the element with the key, or the end. -/
def find (key : K) : Option Nat := do
  let it ← v.lowerBound kot key
  match v.theVector[it]? with
  | some x => return if key < kot.key x then v.theVector.length else it
  | none => return it

def count (key : K) : Option Nat := do
  let it ← v.find kot key
  return if it = v.theVector.length then 0 else 1

/-- `at`, which asserts that the key is there. -/
def at? (key : K) : Option T := do
  let it ← v.find kot key
  v.theVector[it]?

/-- Insert an element.  The result has the position of the key, and whether it is new. -/
def emplace (value : T) : Option (SortedVector T × Nat × Bool) := do
  let it ← v.lowerBound kot (kot.key value)
  match v.theVector[it]? with
  | none => return ({ v with theVector := v.theVector ++ [value] }, it, true)
  | some x =>
      if keysEqual (kot.key x) (kot.key value) then return (v, it, false)
      else return ({ v with theVector := v.theVector.insertIdx it value }, it, true)

def emplaceOrAssign (value : T) : Option (SortedVector T × Nat × Bool) := do
  let it ← v.lowerBound kot (kot.key value)
  match v.theVector[it]? with
  | none => return ({ v with theVector := v.theVector ++ [value] }, it, true)
  | some x =>
      if keysEqual (kot.key x) (kot.key value) then
        return ({ v with theVector := v.theVector.set it value }, it, false)
      else return ({ v with theVector := v.theVector.insertIdx it value }, it, true)

/-- `operator[]`, with what is written through the reference.  The value is the one before. -/
def subscript (key : K) (write : T → T) : Option (SortedVector T × Option T) := do
  let (v, it, _) ← v.emplace kot (kot.fromKey key)
  return ({ v with theVector := v.theVector.modify it write }, v.theVector[it]?)

/-- Erase an element by its position, which is not the end. -/
def erasePosition (pos : Nat) : Option (SortedVector T) := do
  let xs ← v.elements
  if pos < xs.length then return { v with theVector := xs.eraseIdx pos } else none

/-- Erase the elements of a range of the vector. -/
def eraseRange (first last : Nat) : Option (SortedVector T) := do
  let xs ← v.elements
  if first ≤ last ∧ last ≤ xs.length then
    return { v with theVector := xs.take first ++ xs.drop last }
  else none

def eraseKey (key : K) : Option (SortedVector T × Nat) := do
  let it ← v.find kot key
  if it = v.theVector.length then return (v, 0)
  else
    let v ← v.erasePosition it
    return (v, 1)

def eraseIf (callable : T → Bool) : Option (SortedVector T × Nat) := do
  let xs ← v.elements
  return ({ v with theVector := xs.filter fun x => !callable x }, xs.countP callable)

def clear : Option (SortedVector T) := do
  let _ ← v.elements
  return { v with theVector := [] }

/-- Only the left vector is checked for a batch. -/
def swap (other : SortedVector T) : Option (SortedVector T × SortedVector T) := do
  let _ ← v.elements
  return ({ v with theVector := other.theVector }, { other with theVector := v.theVector })

/-! ## Batches -/

def sort (ensureUnique : Bool) : Option (SortedVector T) := do
  let xs ← v.elements
  let sorted := xs.mergeSort fun l r => !kot.compareElements r l
  if ensureUnique then
    if adjacentFind kot.elementsEqual sorted = sorted.length then
      return { v with theVector := sorted }
    else none
  else
    let (ys, newEnd) := uniqueLast move kot.elementsEqual sorted
    return { v with theVector := ys.take newEnd }

/-- The constructor of `BatchInserterBase`. -/
def startBatch : Option (SortedVector T) := do
  let _ ← v.elements
  return { v with batchInsertInProgress := true }

def emplaceImpl (value : T) : Option (SortedVector T) :=
  if v.batchInsertInProgress then some { v with theVector := v.theVector ++ [value] } else none

def commit (ensureUnique : Bool) : Option (SortedVector T) :=
  if v.batchInsertInProgress then
    { v with batchInsertInProgress := false }.sort kot move ensureUnique
  else some v

end SortedVector

end ADT
