import Revng.Lib.ListedMap

/-!
# Small maps

A `SmallMap` keeps up to `N` elements in a vector and goes over to a `std::map` for more.  It
is small as long as the map is empty.

The vector is not emptied when the map takes over.  When the map gets empty again, by `erase`
and not by `clear`, the elements the vector had come back.
-/

namespace ADT

variable {K V : Type*} [LinearOrder K]

/-! ## The two containers -/

/-- `std::map::insert`, for a list of elements with ascending keys. -/
def mapInsert (p : K × V) (map : List (K × V)) : List (K × V) :=
  if map.any (·.1 = p.1) then map else map.orderedInsert (·.1 ≤ ·.1) p

theorem map_fst_mapInsert_pairwise {p : K × V} {map : List (K × V)}
    (h : (map.map Prod.fst).Pairwise (· ≤ ·)) :
    ((mapInsert p map).map Prod.fst).Pairwise (· ≤ ·) := by
  rw [mapInsert]
  split
  next => exact h
  next =>
    rw [List.map_orderedInsert (fun e e' => e.1 ≤ e'.1) (· ≤ ·) Prod.fst]
    · exact h.orderedInsert _ _
    · exact fun e _ => Iff.rfl
    · exact fun e _ => Iff.rfl

theorem mapInsert_perm {p : K × V} {map : List (K × V)} (h : ∀ e ∈ map, e.1 ≠ p.1) :
    (mapInsert p map).Perm (p :: map) := by
  have hany : ¬map.any (·.1 = p.1) = true := by
    rw [List.any_eq_true]
    rintro ⟨e, he, hkey⟩
    exact h e he (of_decide_eq_true hkey)
  rw [mapInsert, if_neg hany]
  exact List.perm_orderedInsert _ _ _

theorem foldl_mapInsert {xs map : List (K × V)} (hnodup : ((xs ++ map).map Prod.fst).Nodup)
    (hsorted : (map.map Prod.fst).Pairwise (· ≤ ·)) :
    (xs.foldl (fun map e => mapInsert e map) map).Perm (xs ++ map) ∧
      ((xs.foldl (fun map e => mapInsert e map) map).map Prod.fst).Pairwise (· ≤ ·) := by
  induction xs generalizing map with
  | nil => exact ⟨.refl _, hsorted⟩
  | cons x xs ih =>
    rw [List.cons_append, List.map_cons, List.nodup_cons] at hnodup
    have hfresh : (mapInsert x map).Perm (x :: map) := mapInsert_perm fun e he hkey =>
      hnodup.1 (hkey ▸ List.mem_map_of_mem (List.mem_append_right xs he))
    have hperm : (xs ++ mapInsert x map).Perm (x :: (xs ++ map)) :=
      (hfresh.append_left xs).trans List.perm_middle
    have hnodup' : ((xs ++ mapInsert x map).map Prod.fst).Nodup := by
      rw [(hperm.map Prod.fst).nodup_iff]
      exact List.nodup_cons.mpr hnodup
    obtain ⟨hfold, hsorted'⟩ := ih hnodup' (map_fst_mapInsert_pairwise hsorted)
    exact ⟨hfold.trans hperm, hsorted'⟩

structure SmallMap (K V : Type*) (N : Nat) where
  /-- The first `Size` elements of the vector. -/
  vector : List (K × V)
  isSorted : Bool
  /-- The elements of the map, by ascending keys. -/
  map : List (K × V)
  size_le : vector.length ≤ N

namespace SmallMap

variable {N : Nat}

def empty : SmallMap K V N := ⟨[], true, [], Nat.zero_le N⟩

def isSmall (m : SmallMap K V N) : Bool := m.map.isEmpty

/-- What `begin` and `end` run over. -/
def elements (m : SmallMap K V N) : List (K × V) := if m.isSmall then m.vector else m.map

def size (m : SmallMap K V N) : Nat := if m.isSmall then m.vector.length else m.map.length

/-- The position in the vector, or its size. -/
def vfind (m : SmallMap K V N) (key : K) : Nat := m.vector.findIdx (·.1 = key)

/-- The element an iterator points to, if it is not the end. -/
def find (m : SmallMap K V N) (key : K) : Option (K × V) :=
  if m.isSmall then m.vector[m.vfind key]? else m.map.find? (·.1 = key)

def count (m : SmallMap K V N) (key : K) : Nat :=
  if m.isSmall then if m.vfind key = m.vector.length then 0 else 1
  else m.map.countP (·.1 = key)

/-- `std::sort` moves the elements, whose keys all differ. -/
def sort (m : SmallMap K V N) : SmallMap K V N :=
  if m.isSorted || !m.isSmall || m.vector.length ≤ 1 then m
  else
    { m with
      vector := m.vector.insertionSort (·.1 ≤ ·.1)
      isSorted := true
      size_le := by rw [List.length_insertionSort]; exact m.size_le }

def lowerBound (m : SmallMap K V N) (key : K) : SmallMap K V N × Option (K × V) :=
  if m.isSmall then (m.sort, m.sort.vector.find? fun e => ¬e.1 < key)
  else (m, m.map.find? fun e => ¬e.1 < key)

/-- Insert an element.  The result has the element of the key, and whether it is new. -/
def insert (m : SmallMap K V N) (p : K × V) : SmallMap K V N × (K × V) × Bool :=
  if !m.isSmall then
    match m.map.find? (·.1 = p.1) with
    | some e => (m, e, false)
    | none => ({ m with map := mapInsert p m.map }, p, true)
  else
    match m.vector[m.vfind p.1]? with
    | some e => (m, e, false)
    | none =>
        if h : m.vector.length < N then
          ({ m with
              vector := m.vector ++ [p]
              isSorted :=
                match m.vector.getLast? with
                | some last => m.isSorted && !(p.1 < last.1)
                | none => m.isSorted
              size_le := by rw [List.length_append]; exact h }, p, true)
        else
          let map := m.vector.foldl (fun map e => mapInsert e map) m.map
          ({ m with map := mapInsert p map }, p, true)

def erase (m : SmallMap K V N) (key : K) : SmallMap K V N :=
  if m.isSmall then
    { m with
      vector := m.vector.eraseIdx (m.vfind key)
      size_le := (List.eraseIdx_sublist _ _).length_le.trans m.size_le }
  else { m with map := m.map.eraseP (·.1 = key) }

def clear (m : SmallMap K V N) : SmallMap K V N :=
  { m with vector := [], map := [], size_le := Nat.zero_le N }

def writeTo (key : K) (f : V → V) (e : K × V) : K × V := if e.1 = key then (e.1, f e.2) else e

@[simp]
theorem writeTo_fst (key : K) (f : V → V) (e : K × V) : (writeTo key f e).1 = e.1 := by
  rw [writeTo]
  split <;> rfl

@[simp]
theorem map_fst_map_writeTo (key : K) (f : V → V) (xs : List (K × V)) :
    (xs.map (writeTo key f)).map Prod.fst = xs.map Prod.fst := by
  rw [List.map_map]
  exact List.map_congr_left fun e _ => writeTo_fst key f e

/-- Write the value of a key through a reference to it. -/
def write (m : SmallMap K V N) (key : K) (f : V → V) : SmallMap K V N :=
  if m.isSmall then
    { m with
      vector := m.vector.map (writeTo key f)
      size_le := by rw [List.length_map]; exact m.size_le }
  else { m with map := m.map.map (writeTo key f) }

/-- `operator[]`, with what is written through the reference.  The value is the one before. -/
def subscript [Inhabited V] (m : SmallMap K V N) (key : K) (f : V → V) : SmallMap K V N × V :=
  let (m, e, _) := m.insert (key, default)
  (m.write key f, e.2)

end SmallMap

end ADT
