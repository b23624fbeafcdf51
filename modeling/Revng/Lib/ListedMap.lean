import Mathlib.Data.Set.Card

/-!
# Finite maps in lists

A list stands for a finite map when it has the elements of the map, each of them once
(`Lists`).  The order is free, so the rules are about a list up to permutations: an element of
a new key is added, the element of a key is replaced, and elements are dropped.
-/

namespace ListedMap

variable {α K : Type*} {key : α → K} {xs ys : List α} {m : K → Option α} {x y : α} {k : K}

/-- The list has the elements of the map, each once and under its key. -/
structure Lists (key : α → K) (xs : List α) (m : K → Option α) : Prop where
  nodup : (xs.map key).Nodup
  mem_iff : ∀ x, x ∈ xs ↔ m (key x) = some x
  keyed : ∀ k x, m k = some x → key x = k

namespace Lists

theorem nil (key : α → K) : Lists key [] fun _ => none where
  nodup := List.nodup_nil
  mem_iff x := by simp
  keyed k x h := by cases h

theorem perm (h : Lists key xs m) (hperm : xs.Perm ys) : Lists key ys m where
  nodup := (hperm.map key).nodup_iff.mp h.nodup
  mem_iff x := hperm.mem_iff.symm.trans (h.mem_iff x)
  keyed := h.keyed

theorem eq_some_iff (h : Lists key xs m) : m k = some x ↔ x ∈ xs ∧ key x = k := by
  constructor
  · intro hx
    have hk := h.keyed k x hx
    rw [h.mem_iff, hk]
    exact ⟨hx, rfl⟩
  · rintro ⟨hx, rfl⟩
    exact (h.mem_iff x).mp hx

theorem eq_none_iff (h : Lists key xs m) : m k = none ↔ ∀ x ∈ xs, key x ≠ k := by
  rw [Option.eq_none_iff_forall_ne_some]
  simp only [ne_eq, h.eq_some_iff, not_and]

/-- The map of a list is the only one. -/
theorem ext {m' : K → Option α} (h : Lists key xs m) (h' : Lists key xs m') : m = m' := by
  funext k
  ext x
  rw [h.eq_some_iff, h'.eq_some_iff]

theorem filter (h : Lists key xs m) (p : α → Bool) :
    Lists key (xs.filter p) fun k => (m k).filter p where
  nodup := h.nodup.sublist ((List.filter_sublist).map key)
  mem_iff x := by
    rw [List.mem_filter, h.mem_iff, Option.filter_eq_some_iff]
  keyed k x hx := h.keyed k x (Option.filter_eq_some_iff.mp hx).1

theorem map {g : α → α} (h : Lists key xs m) (hkey : ∀ x, key (g x) = key x) :
    Lists key (xs.map g) fun k => (m k).map g where
  nodup := by
    rw [List.map_map, Function.comp_def]
    simpa only [hkey] using h.nodup
  mem_iff y := by
    rw [List.mem_map, Option.map_eq_some_iff]
    constructor
    · rintro ⟨x, hx, rfl⟩
      exact ⟨x, by rw [hkey]; exact (h.mem_iff x).mp hx, rfl⟩
    · rintro ⟨x, hx, rfl⟩
      exact ⟨x, (h.eq_some_iff.mp hx).1, rfl⟩
  keyed k y hy := by
    obtain ⟨x, hx, rfl⟩ := Option.map_eq_some_iff.mp hy
    rw [hkey, h.keyed k x hx]

variable [DecidableEq K]

theorem find (h : Lists key xs m) (k : K) : xs.find? (key · = k) = m k := by
  cases hfind : xs.find? (key · = k) with
  | some x =>
    have hx : key x = k := by simpa using List.find?_some hfind
    exact (h.eq_some_iff.mpr ⟨List.mem_of_find?_eq_some hfind, hx⟩).symm
  | none =>
    refine (h.eq_none_iff.mpr fun x hx => ?_).symm
    simpa using List.find?_eq_none.mp hfind x hx

theorem cons (h : Lists key xs m) (hnone : m (key x) = none) :
    Lists key (x :: xs) (Function.update m (key x) (some x)) where
  nodup := by
    rw [List.map_cons, List.nodup_cons]
    refine ⟨fun hmem => ?_, h.nodup⟩
    obtain ⟨y, hy, hkey⟩ := List.mem_map.mp hmem
    exact h.eq_none_iff.mp hnone y hy hkey
  mem_iff y := by
    rw [List.mem_cons, h.mem_iff, Function.update_apply]
    split
    next hkey => simp [hkey, hnone, eq_comm]
    next hkey => exact or_iff_right (by rintro rfl; exact hkey rfl)
  keyed k y hy := by
    rw [Function.update_apply] at hy
    split at hy
    next hkey => cases hy; exact hkey.symm
    next => exact h.keyed k y hy

/-- The element of a key is dropped. -/
theorem of_cons (h : Lists key (x :: xs) m) : Lists key xs (Function.update m (key x) none) := by
  obtain ⟨hnot, hnodup⟩ := List.nodup_cons.mp h.nodup
  have hne (y : α) (hy : y ∈ xs) : key y ≠ key x := fun hkey =>
    hnot (hkey ▸ List.mem_map_of_mem hy)
  refine ⟨hnodup, fun y => ?_, fun k y hy => ?_⟩
  · rw [Function.update_apply]
    split
    next hkey => exact iff_of_false (fun hy => hne y hy hkey) (by simp)
    next hkey =>
      rw [← h.mem_iff, List.mem_cons]
      exact (or_iff_right (by rintro rfl; exact hkey rfl)).symm
  · rw [Function.update_apply] at hy
    split at hy
    next => cases hy
    next => exact h.keyed k y hy

/-- The element of a key is replaced. -/
theorem replace (h : Lists key (x :: xs) m) (hkey : key y = key x) :
    Lists key (y :: xs) (Function.update m (key x) (some y)) := by
  have hnone : Function.update m (key x) none (key y) = none := by
    rw [hkey, Function.update_self]
  have hcons := h.of_cons.cons hnone
  rwa [hkey, Function.update_idem] at hcons

theorem eraseP (h : Lists key xs m) (k : K) :
    Lists key (xs.eraseP (key · = k)) (Function.update m k none) := by
  by_cases hk : ∃ x ∈ xs, key x = k
  · obtain ⟨x, hx, hkey⟩ := hk
    obtain ⟨y, before, after, -, hy, rfl, herase⟩ :=
      List.exists_of_eraseP (p := fun x => key x = k) hx (decide_eq_true hkey)
    have hcons : Lists key (y :: (before ++ after)) m := h.perm List.perm_middle
    rw [herase, ← of_decide_eq_true hy]
    exact hcons.of_cons
  · have hnone : m k = none := h.eq_none_iff.mpr fun x hx hkey => hk ⟨x, hx, hkey⟩
    rw [List.eraseP_of_forall_not fun x hx hkey => hk ⟨x, hx, of_decide_eq_true hkey⟩,
      Function.update_eq_self_iff.mpr hnone.symm]
    exact h

theorem length_eq (h : Lists key xs m) : xs.length = {k | m k ≠ none}.ncard := by
  have hset : {k | m k ≠ none} = ((xs.map key).toFinset : Set K) := by
    ext k
    rw [Set.mem_ofPred_eq, Ne, h.eq_none_iff]
    simp
  rw [hset, Set.ncard_coe_finset, List.toFinset_card_of_nodup h.nodup, List.length_map]

end Lists

theorem eraseIdx_findIdx (p : α → Bool) (xs : List α) :
    xs.eraseIdx (xs.findIdx p) = xs.eraseP p := by
  induction xs with
  | nil => rfl
  | cons x xs ih =>
    rw [List.findIdx_cons, List.eraseP_cons]
    cases p x with
    | true => rfl
    | false => simpa using ih

end ListedMap
