import Mathlib.Data.List.FinRange
import Revng.Lib.SortedMerge

/-!
# Zipped ranges

`zipmap_range` walks two containers in parallel.  Both are sorted by a key, and the iterator
gives the elements of the two sides that have one key together, as a pair of pointers.

A pointer to an element is its position, and an iterator of a container is a position too,
with the length of the container as its end.
-/

namespace ADT

open SortedMerge

variable {α β K : Type*} [LinearOrder K]

/-- `DefaultComparator::compare`, which gives `-1`, `0` or `1`. -/
def compareKeys (LHSKey RHSKey : K) : Ordering :=
  if LHSKey < RHSKey then .lt
  else if RHSKey < LHSKey then .gt
  else .eq

/-- A pointer that is null on the side where an element is missing. -/
abbrev ZipmapPair (left : List α) (right : List β) :=
  Option (Fin left.length) × Option (Fin right.length)

@[ext]
structure ZipMapIterator (left : List α) (right : List β) where
  current : ZipmapPair left right
  leftIt : Nat
  rightIt : Nat
  leftIt_le : leftIt ≤ left.length
  rightIt_le : rightIt ≤ right.length

namespace ZipMapIterator

variable {left : List α} {right : List β} (keyLeft : α → K) (keyRight : β → K)

/-- The iterators are compared with the pair at hand. -/
instance : DecidableEq (ZipMapIterator left right) := fun a b =>
  decidable_of_iff (a.leftIt = b.leftIt ∧ a.rightIt = b.rightIt ∧ a.current = b.current)
    ⟨fun ⟨hl, hr, hc⟩ => ZipMapIterator.ext hc hl hr, by rintro rfl; exact ⟨rfl, rfl, rfl⟩⟩

/-! ## Walking -/

/-- What the next pair is, and where the iterators of the containers are after it. -/
def next (it : ZipMapIterator left right) : ZipMapIterator left right :=
  if hl : it.leftIt < left.length then
    if hr : it.rightIt < right.length then
      match compareKeys (keyLeft left[it.leftIt]) (keyRight right[it.rightIt]) with
      | .eq => ⟨(some ⟨_, hl⟩, some ⟨_, hr⟩), it.leftIt + 1, it.rightIt + 1, hl, hr⟩
      | .lt => ⟨(some ⟨_, hl⟩, none), it.leftIt + 1, it.rightIt, hl, hr.le⟩
      | .gt => ⟨(none, some ⟨_, hr⟩), it.leftIt, it.rightIt + 1, hl.le, hr⟩
    else ⟨(some ⟨_, hl⟩, none), it.leftIt + 1, it.rightIt, hl, it.rightIt_le⟩
  else if hr : it.rightIt < right.length then
    ⟨(none, some ⟨_, hr⟩), it.leftIt, it.rightIt + 1, it.leftIt_le, hr⟩
  else { it with current := (none, none) }

def zipmapBegin (left : List α) (right : List β) : ZipMapIterator left right :=
  next keyLeft keyRight ⟨(none, none), 0, 0, Nat.zero_le _, Nat.zero_le _⟩

def zipmapEnd (left : List α) (right : List β) : ZipMapIterator left right :=
  next keyLeft keyRight ⟨(none, none), left.length, right.length, le_rfl, le_rfl⟩

/-- The steps that are left: twice the elements that are left, and one for the pair at hand. -/
def remaining (it : ZipMapIterator left right) : Nat :=
  2 * ((left.length - it.leftIt) + (right.length - it.rightIt)) +
    if it.current = (none, none) then 0 else 1

theorem zipmapEnd_eq : zipmapEnd keyLeft keyRight left right =
    ⟨(none, none), left.length, right.length, le_rfl, le_rfl⟩ := by
  simp [zipmapEnd, next]

theorem remaining_next_lt {it : ZipMapIterator left right}
    (h : it ≠ zipmapEnd keyLeft keyRight left right) :
    remaining (next keyLeft keyRight it) < it.remaining := by
  rw [zipmapEnd_eq] at h
  rw [next]
  split
  case isTrue hl =>
    split
    case isTrue hr => split <;> simp only [remaining] <;> split <;> split <;> omega
    case isFalse hr => simp only [remaining]; split <;> split <;> omega
  case isFalse hl =>
    split
    case isTrue hr => simp only [remaining]; split <;> split <;> omega
    case isFalse hr =>
      -- Both containers are at their ends, so there is a pair at hand.
      have hcurrent : it.current ≠ (none, none) := fun hcurrent =>
        h (ZipMapIterator.ext hcurrent (le_antisymm it.leftIt_le (not_lt.mp hl))
          (le_antisymm it.rightIt_le (not_lt.mp hr)))
      simp [remaining, hcurrent]

/-- The pairs from an iterator to the end. -/
def pairs (it : ZipMapIterator left right) : List (ZipmapPair left right) :=
  if _h : it = zipmapEnd keyLeft keyRight left right then []
  else it.current :: pairs (next keyLeft keyRight it)
termination_by it.remaining
decreasing_by exact remaining_next_lt keyLeft keyRight _h

/-! ## The walk as a merge -/

/-- The key of an element of either side. -/
def keyAt : Fin left.length ⊕ Fin right.length → K :=
  Sum.elim (fun i => keyLeft left[i]) fun j => keyRight right[j]

omit [LinearOrder K] in
@[simp] theorem keyAt_inl (i : Fin left.length) :
    keyAt keyLeft keyRight (.inl i : Fin left.length ⊕ Fin right.length) = keyLeft left[i] := rfl

omit [LinearOrder K] in
@[simp] theorem keyAt_inr (j : Fin right.length) :
    keyAt keyLeft keyRight (.inr j : Fin left.length ⊕ Fin right.length) = keyRight right[j] := rfl

def toPair (z : Zipped (Fin left.length ⊕ Fin right.length)) : ZipmapPair left right :=
  (z.first.bind Sum.getLeft?, z.second.bind Sum.getRight?)

/-- The elements of the left container from a position on. -/
def leftFrom (left : List α) (right : List β) (i : Nat) :
    List (Fin left.length ⊕ Fin right.length) :=
  ((List.finRange left.length).drop i).map .inl

def rightFrom (left : List α) (right : List β) (j : Nat) :
    List (Fin left.length ⊕ Fin right.length) :=
  ((List.finRange right.length).drop j).map .inr

theorem leftFrom_of_lt {i : Nat} (h : i < left.length) :
    leftFrom left right i = .inl ⟨i, h⟩ :: leftFrom left right (i + 1) := by
  rw [leftFrom, List.drop_eq_getElem_cons (by simpa using h)]
  simp [leftFrom]

theorem leftFrom_of_not_lt {i : Nat} (h : ¬i < left.length) : leftFrom left right i = [] := by
  simpa [leftFrom] using h

theorem rightFrom_of_lt {j : Nat} (h : j < right.length) :
    rightFrom left right j = .inr ⟨j, h⟩ :: rightFrom left right (j + 1) := by
  rw [rightFrom, List.drop_eq_getElem_cons (by simpa using h)]
  simp [rightFrom]

theorem rightFrom_of_not_lt {j : Nat} (h : ¬j < right.length) : rightFrom left right j = [] := by
  simpa [rightFrom] using h

variable {keyLeft keyRight}

theorem pairs_of_current {it : ZipMapIterator left right} (h : it.current ≠ (none, none)) :
    it.pairs keyLeft keyRight =
      it.current :: (it.next keyLeft keyRight).pairs keyLeft keyRight := by
  rw [pairs, dif_neg]
  rintro rfl
  exact h (by rw [zipmapEnd_eq])

/-- From the next pair on, the walk gives the merge of the elements that are left. -/
theorem pairs_next (it : ZipMapIterator left right) :
    pairs keyLeft keyRight (next keyLeft keyRight it) =
      (zipmap (keyAt keyLeft keyRight) (leftFrom left right it.leftIt)
        (rightFrom left right it.rightIt)).map toPair := by
  induction hn : (left.length - it.leftIt) + (right.length - it.rightIt) using
    Nat.strong_induction_on generalizing it with
  | _ n ih =>
    subst hn
    rw [next]
    split
    case isTrue hl =>
      rw [leftFrom_of_lt hl]
      split
      case isTrue hr =>
        let l : Fin left.length ⊕ Fin right.length := .inl ⟨it.leftIt, hl⟩
        let r : Fin left.length ⊕ Fin right.length := .inr ⟨it.rightIt, hr⟩
        rw [rightFrom_of_lt hr, zipmap]
        by_cases hlt : keyAt keyLeft keyRight l < keyAt keyLeft keyRight r
        · have hcompare : compareKeys (keyLeft left[it.leftIt]) (keyRight right[it.rightIt]) = .lt :=
            if_pos hlt
          rw [if_pos hlt, hcompare, pairs_of_current (by simp), ih _ (by dsimp; omega) _ rfl,
            rightFrom_of_lt hr]
          rfl
        · by_cases hgt : keyAt keyLeft keyRight r < keyAt keyLeft keyRight l
          · have hcompare :
                compareKeys (keyLeft left[it.leftIt]) (keyRight right[it.rightIt]) = .gt :=
              (if_neg hlt).trans (if_pos hgt)
            rw [if_neg hlt, if_pos hgt, hcompare, pairs_of_current (by simp),
              ih _ (by dsimp; omega) _ rfl, leftFrom_of_lt hl]
            rfl
          · have hcompare :
                compareKeys (keyLeft left[it.leftIt]) (keyRight right[it.rightIt]) = .eq :=
              (if_neg hlt).trans (if_neg hgt)
            rw [if_neg hlt, if_neg hgt, hcompare, pairs_of_current (by simp),
              ih _ (by dsimp; omega) _ rfl]
            rfl
      case isFalse hr =>
        rw [rightFrom_of_not_lt hr, zipmap, pairs_of_current (by simp),
          ih _ (by dsimp; omega) _ rfl, rightFrom_of_not_lt hr]
        rfl
    case isFalse hl =>
      rw [leftFrom_of_not_lt hl]
      split
      case isTrue hr =>
        rw [rightFrom_of_lt hr, zipmap, pairs_of_current (by simp),
          ih _ (by dsimp; omega) _ rfl, leftFrom_of_not_lt hl]
        rfl
      case isFalse hr =>
        have hend : { it with current := (none, none) } =
            zipmapEnd keyLeft keyRight left right := by
          rw [zipmapEnd_eq]
          exact ZipMapIterator.ext rfl (le_antisymm it.leftIt_le (not_lt.mp hl))
            (le_antisymm it.rightIt_le (not_lt.mp hr))
        rw [rightFrom_of_not_lt hr, zipmap, hend, pairs, dif_pos rfl]
        rfl

end ZipMapIterator

def zipmapRange (keyLeft : α → K) (keyRight : β → K) (left : List α) (right : List β) :
    List (ZipmapPair left right) :=
  (ZipMapIterator.zipmapBegin keyLeft keyRight left right).pairs keyLeft keyRight

/-! ## The full outer join -/

/-- The pointer to the element of a key, which is null when there is none. -/
def position (key : α → K) (xs : List α) (k : K) : Option (Fin xs.length) :=
  (List.finRange xs.length).find? fun i => key xs[i] = k

theorem position_eq_some_iff {key : α → K} {xs : List α} (h : Ascending key xs) {k : K}
    {i : Fin xs.length} : position key xs k = some i ↔ key xs[i] = k := by
  constructor
  · intro hfind
    exact of_decide_eq_true (List.find?_some (p := fun i : Fin xs.length => key xs[i] = k) hfind)
  · intro hi
    cases hfind : position key xs k with
    | none =>
      have hnot := List.find?_eq_none.mp hfind i (List.mem_finRange i)
      exact absurd (decide_eq_true hi) hnot
    | some j =>
      have hj : key xs[j] = k :=
        of_decide_eq_true (List.find?_some (p := fun i : Fin xs.length => key xs[i] = k) hfind)
      -- Two elements of one key would be out of order.
      rcases lt_trichotomy i j with hij | rfl | hij
      · exact absurd (hi.trans hj.symm) (h.lt_of_fin_lt hij).ne
      · rfl
      · exact absurd (hj.trans hi.symm) (h.lt_of_fin_lt hij).ne

namespace ZipMapIterator

variable {left : List α} {right : List β} {keyLeft : α → K} {keyRight : β → K}

theorem mem_leftFrom_zero {x : Fin left.length ⊕ Fin right.length} :
    x ∈ leftFrom left right 0 ↔ ∃ i, x = .inl i := by
  simp [leftFrom, eq_comm]

theorem mem_rightFrom_zero {x : Fin left.length ⊕ Fin right.length} :
    x ∈ rightFrom left right 0 ↔ ∃ j, x = .inr j := by
  simp [rightFrom, eq_comm]

theorem ascending_leftFrom_zero (h : Ascending keyLeft left) :
    Ascending (keyAt keyLeft keyRight) (leftFrom left right 0) := by
  rw [Ascending, leftFrom, List.drop_zero, List.pairwise_map]
  exact (List.pairwise_lt_finRange _).imp fun hij => h.lt_of_fin_lt hij

theorem ascending_rightFrom_zero (h : Ascending keyRight right) :
    Ascending (keyAt keyLeft keyRight) (rightFrom left right 0) := by
  rw [Ascending, rightFrom, List.drop_zero, List.pairwise_map]
  exact (List.pairwise_lt_finRange _).imp fun hij => h.lt_of_fin_lt hij

theorem toPair_eq (hleft : Ascending keyLeft left) (hright : Ascending keyRight right)
    {z : Zipped (Fin left.length ⊕ Fin right.length)}
    (hz : z ∈ zipmap (keyAt keyLeft keyRight) (leftFrom left right 0) (rightFrom left right 0)) :
    toPair z = (position keyLeft left (keyAt keyLeft keyRight z.value),
      position keyRight right (keyAt keyLeft keyRight z.value)) := by
  have hls : Ascending (keyAt keyLeft keyRight) (leftFrom left right 0) :=
    ascending_leftFrom_zero hleft
  have hrs : Ascending (keyAt keyLeft keyRight) (rightFrom left right 0) :=
    ascending_rightFrom_zero hright
  refine Prod.ext (Option.ext fun i => ?_) (Option.ext fun j => ?_)
  · have hfirst := first_eq_some_iff hls hrs hz (l := .inl i)
    simp only [mem_leftFrom_zero, Sum.inl.injEq, exists_eq', true_and] at hfirst
    rw [position_eq_some_iff hleft]
    simpa [toPair, Option.bind_eq_some_iff] using hfirst
  · have hsecond := second_eq_some_iff hls hrs hz (r := .inr j)
    simp only [mem_rightFrom_zero, Sum.inr.injEq, exists_eq', true_and] at hsecond
    rw [position_eq_some_iff hright]
    simpa [toPair, Option.bind_eq_some_iff] using hsecond

end ZipMapIterator

/-- Every key of either side comes once, in increasing order, with the pointers to its
elements. -/
theorem zipmapRange_isJoin (keyLeft : α → K) (keyRight : β → K) {left : List α} {right : List β}
    (hleft : Ascending keyLeft left) (hright : Ascending keyRight right) :
    ∃ keys : List K, keys.Pairwise (· < ·) ∧
      (∀ k, k ∈ keys ↔ k ∈ left.map keyLeft ∨ k ∈ right.map keyRight) ∧
      zipmapRange keyLeft keyRight left right =
        keys.map fun k => (position keyLeft left k, position keyRight right k) := by
  let key : Fin left.length ⊕ Fin right.length → K := ZipMapIterator.keyAt keyLeft keyRight
  let zipped := zipmap key (ZipMapIterator.leftFrom left right 0)
    (ZipMapIterator.rightFrom left right 0)
  have hls : Ascending key (ZipMapIterator.leftFrom left right 0) :=
    ZipMapIterator.ascending_leftFrom_zero hleft
  have hrs : Ascending key (ZipMapIterator.rightFrom left right 0) :=
    ZipMapIterator.ascending_rightFrom_zero hright
  refine ⟨zipped.map fun z => key z.value, ?_, fun k => ?_, ?_⟩
  · rw [List.pairwise_map]
    exact hls.zipmap hrs
  · simp only [List.mem_map]
    constructor
    · rintro ⟨z, hz, rfl⟩
      rcases value_mem_of_mem_zipmap hz with hmem | hmem
      · obtain ⟨i, hi⟩ := ZipMapIterator.mem_leftFrom_zero.mp hmem
        exact Or.inl ⟨left[i], List.getElem_mem _, by rw [hi]; rfl⟩
      · obtain ⟨j, hj⟩ := ZipMapIterator.mem_rightFrom_zero.mp hmem
        exact Or.inr ⟨right[j], List.getElem_mem _, by rw [hj]; rfl⟩
    · rintro (⟨x, hx, rfl⟩ | ⟨x, hx, rfl⟩)
      · obtain ⟨i, rfl⟩ := List.mem_iff_get.mp hx
        have hmem : .inl i ∈ ZipMapIterator.leftFrom left right 0 :=
          ZipMapIterator.mem_leftFrom_zero.mpr ⟨i, rfl⟩
        obtain ⟨z, hz, hfirst⟩ := exists_first_eq_some key _ hmem
        exact ⟨z, hz, ((first_eq_some_iff hls hrs hz).mp hfirst).2.symm⟩
      · obtain ⟨j, rfl⟩ := List.mem_iff_get.mp hx
        have hmem : .inr j ∈ ZipMapIterator.rightFrom left right 0 :=
          ZipMapIterator.mem_rightFrom_zero.mpr ⟨j, rfl⟩
        obtain ⟨z, hz, hsecond⟩ := exists_second_eq_some key _ hmem
        exact ⟨z, hz, ((second_eq_some_iff hls hrs hz).mp hsecond).2.symm⟩
  · rw [zipmapRange, ZipMapIterator.zipmapBegin, ZipMapIterator.pairs_next, List.map_map]
    exact List.map_congr_left fun z hz => ZipMapIterator.toPair_eq hleft hright hz

/-- A set and a map with one common key. -/
theorem zipmapRange_isJoin_setAndMap :
    ∃ keys : List Nat, keys.Pairwise (· < ·) ∧
      (∀ k, k ∈ keys ↔ k ∈ [1, 3].map id ∨ k ∈ [(2, true), (3, false)].map Prod.fst) ∧
      zipmapRange id Prod.fst [1, 3] [(2, true), (3, false)] =
        keys.map fun k => (position id [1, 3] k, position Prod.fst [(2, true), (3, false)] k) :=
  zipmapRange_isJoin id Prod.fst (by decide) (by decide)

end ADT
