import Revng.Lib.ListedMap
import Revng.Lib.SortedMerge

/-!
# The last value of each key

When the elements of a list are assigned to their keys one after another, the last one of a
key stays (`foldl_assign`).  The same elements are left when a stable sort brings those of
one key together and only the last of each run is kept (`lists_keepLast_mergeSort`).
-/

namespace LastValues

open ListedMap SortedMerge

variable {α K : Type*} [LinearOrder K]

def lastValue (key : α → K) (xs : List α) (k : K) : Option α := (xs.filter (key · = k)).getLast?

/-- Keep the last element of every run of equal keys. -/
def keepLast (key : α → K) : List α → List α
  | [] => []
  | [x] => [x]
  | x :: y :: xs => if key x = key y then keepLast key (y :: xs) else x :: keepLast key (y :: xs)

variable {key : α → K} {xs : List α} {x y : α} {k : K}

theorem lastValue_eq_some (h : lastValue key xs k = some x) : x ∈ xs ∧ key x = k := by
  have hmem := List.mem_of_getLast? h
  rwa [List.mem_filter, decide_eq_true_iff] at hmem

theorem lastValue_eq_none_iff : lastValue key xs k = none ↔ ∀ x ∈ xs, key x ≠ k := by
  rw [lastValue, List.getLast?_eq_none_iff, List.filter_eq_nil_iff]
  simp only [decide_eq_true_eq, ne_eq]

theorem lastValue_append (ys : List α) :
    lastValue key (xs ++ ys) k = (lastValue key ys k).or (lastValue key xs k) := by
  rw [lastValue, List.filter_append, List.getLast?_append]
  rfl

theorem lastValue_cons :
    lastValue key (x :: xs) k = (lastValue key xs k).or (if key x = k then some x else none) := by
  rw [← List.singleton_append, lastValue_append]
  by_cases hx : key x = k <;> simp [lastValue, hx]

/-- Assigning the elements one after another. -/
theorem foldl_assign (xs : List α) (m : K → Option α) :
    xs.foldl (fun m x => Function.update m (key x) (some x)) m =
      fun k => (lastValue key xs k).or (m k) := by
  induction xs generalizing m with
  | nil => rfl
  | cons x xs ih =>
    rw [List.foldl_cons, ih]
    funext k
    rw [lastValue_cons, Option.or_assoc, Function.update_apply]
    congr 1
    by_cases hk : key x = k
    · simp [hk]
    · simp [hk, Ne.symm hk]

/-! ## Elements with different keys -/

theorem lists_lastValue (h : (xs.map key).Nodup) : Lists key xs (lastValue key xs) := by
  refine ⟨h, fun x => ⟨fun hx => ?_, fun hx => (lastValue_eq_some hx).1⟩,
    fun k x hx => (lastValue_eq_some hx).2⟩
  obtain ⟨y, hy⟩ : ∃ y, lastValue key xs (key x) = some y :=
    Option.ne_none_iff_exists'.mp fun hnone => lastValue_eq_none_iff.mp hnone x hx rfl
  obtain ⟨hmem, hkey⟩ := lastValue_eq_some hy
  rw [hy, List.inj_on_of_nodup_map h hmem hx hkey]

theorem lastValue_of_lists {m : K → Option α} (h : Lists key xs m) : lastValue key xs = m :=
  (lists_lastValue h.nodup).ext h

/-! ## Sorted lists -/

theorem nodup_map_of_ascending (h : Ascending key xs) : (xs.map key).Nodup :=
  List.pairwise_map.mpr (h.imp fun hlt => hlt.ne)

def KeySorted (key : α → K) (xs : List α) : Prop := xs.Pairwise (key · ≤ key ·)

theorem KeySorted.tail (h : KeySorted key (x :: xs)) : KeySorted key xs :=
  (List.pairwise_cons.mp h).2

theorem KeySorted.ascending (h : KeySorted key xs) (hnodup : (xs.map key).Nodup) :
    Ascending key xs :=
  (h.and (List.pairwise_map.mp hnodup)).imp fun h => h.1.lt_of_ne h.2

/-- A greater key than the first one is that of all elements after it. -/
theorem KeySorted.lt_of_lt (h : KeySorted key (x :: y :: xs)) (hlt : key x < key y) :
    ∀ z ∈ y :: xs, key x < key z := by
  intro z hz
  rcases List.mem_cons.mp hz with rfl | hz
  · exact hlt
  · exact hlt.trans_le ((List.pairwise_cons.mp h.tail).1 z hz)

theorem keepLast_sublist (key : α → K) (xs : List α) : (keepLast key xs).Sublist xs := by
  fun_induction keepLast key xs with
  | case1 => exact .slnil
  | case2 x => exact .refl _
  | case3 x y xs heq ih => exact ih.cons x
  | case4 x y xs hne ih => exact ih.cons_cons x

theorem ascending_keepLast (h : KeySorted key xs) : Ascending key (keepLast key xs) := by
  fun_induction keepLast key xs with
  | case1 => exact .nil
  | case2 x => exact List.pairwise_singleton _ _
  | case3 x y xs heq ih => exact ih h.tail
  | case4 x y xs hne ih =>
    have hlt : key x < key y := lt_of_le_of_ne ((List.pairwise_cons.mp h).1 y (by simp)) hne
    exact List.pairwise_cons.mpr
      ⟨fun z hz => h.lt_of_lt hlt z ((keepLast_sublist key _).subset hz), ih h.tail⟩

theorem lastValue_keepLast (h : KeySorted key xs) (k : K) :
    lastValue key (keepLast key xs) k = lastValue key xs k := by
  fun_induction keepLast key xs with
  | case1 => rfl
  | case2 x => rfl
  | case3 x y xs heq ih =>
    rw [ih h.tail]
    symm
    rw [lastValue_cons]
    split
    next hk =>
      -- the run of the key goes on
      cases hlast : lastValue key (y :: xs) k with
      | none => exact absurd (heq.symm.trans hk) (lastValue_eq_none_iff.mp hlast y (by simp))
      | some z => rfl
    next => exact Option.or_none
  | case4 x y xs hne ih => rw [lastValue_cons, lastValue_cons, ih h.tail]

/-! ## The stable sort -/

def keyLE (key : α → K) (x y : α) : Bool := ¬key y < key x

theorem keyLE_iff : keyLE key x y = true ↔ key x ≤ key y := by
  rw [keyLE, decide_eq_true_iff, not_lt]

theorem keyLE_trans (x y z : α) (hxy : keyLE key x y = true) (hyz : keyLE key y z = true) :
    keyLE key x z = true :=
  keyLE_iff.mpr ((keyLE_iff.mp hxy).trans (keyLE_iff.mp hyz))

theorem keyLE_total (x y : α) : (keyLE key x y || keyLE key y x) = true := by
  rw [Bool.or_eq_true, keyLE_iff, keyLE_iff]
  exact le_total _ _

theorem keySorted_mergeSort (xs : List α) : KeySorted key (xs.mergeSort (keyLE key)) :=
  (List.pairwise_mergeSort keyLE_trans keyLE_total xs).imp keyLE_iff.mp

/-- The elements of one key stay in their order. -/
theorem filter_mergeSort (xs : List α) (k : K) :
    (xs.mergeSort (keyLE key)).filter (key · = k) = xs.filter (key · = k) := by
  have hsorted : (xs.filter (key · = k)).Pairwise (keyLE key · · = true) := by
    refine List.pairwise_of_forall_mem_list fun x hx y hy => keyLE_iff.mpr ?_
    rw [List.mem_filter, decide_eq_true_iff] at hx hy
    rw [hx.2, hy.2]
  have hsub := (List.sublist_mergeSort keyLE_trans keyLE_total hsorted
    List.filter_sublist).filter (key · = k)
  simp only [List.filter_filter, Bool.and_self] at hsub
  refine (hsub.eq_of_length ?_).symm
  exact ((List.mergeSort_perm xs (keyLE key)).filter _).length_eq.symm

theorem lastValue_mergeSort (xs : List α) :
    lastValue key (xs.mergeSort (keyLE key)) = lastValue key xs := by
  funext k
  rw [lastValue, filter_mergeSort, lastValue]

/-- The last values of a list, after a stable sort. -/
theorem lists_keepLast_mergeSort (xs : List α) :
    Lists key (keepLast key (xs.mergeSort (keyLE key))) (lastValue key xs) := by
  have hsorted : KeySorted key (xs.mergeSort (keyLE key)) := keySorted_mergeSort xs
  have hlast : lastValue key (keepLast key (xs.mergeSort (keyLE key))) = lastValue key xs := by
    funext k
    rw [lastValue_keepLast hsorted, lastValue_mergeSort]
  rw [← hlast]
  exact lists_lastValue (nodup_map_of_ascending (ascending_keepLast hsorted))

end LastValues
