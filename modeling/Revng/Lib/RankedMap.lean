import Mathlib.Data.List.TakeWhile
import Revng.Lib.ListedMap
import Revng.Lib.SortedMerge

/-!
# Finite maps in ascending lists

The place of a key in an ascending list is its rank, the number of smaller keys of the map.
The rules split the list at a key.
-/

namespace RankedMap

open ListedMap SortedMerge

variable {α K : Type*} [LinearOrder K]

/-- The number of keys below the given one. -/
noncomputable def rank (m : K → Option α) (k : K) : Nat := {k' | m k' ≠ none ∧ k' < k}.ncard

noncomputable def card (m : K → Option α) : Nat := {k | m k ≠ none}.ncard

/-- The list has the elements of the map by ascending keys. -/
structure AscendingLists (key : α → K) (xs : List α) (m : K → Option α) : Prop where
  sorted : Ascending key xs
  lists : Lists key xs m

namespace AscendingLists

variable {key : α → K} {xs before after : List α} {m : K → Option α} {x y : α} {k : K}

theorem nil (key : α → K) : AscendingLists key [] fun _ => none := ⟨.nil, Lists.nil key⟩

theorem length_eq (h : AscendingLists key xs m) : xs.length = card m := h.lists.length_eq

theorem rank_eq (h : AscendingLists key xs m) (k : K) :
    rank m k = (xs.filter (key · < k)).length := by
  have hset : {k' | m k' ≠ none ∧ k' < k} =
      {k' | (m k').filter (fun x => key x < k) ≠ none} := by
    ext k'
    simp only [Set.mem_ofPred_eq, Option.ne_none_iff_exists', Option.filter_eq_some_iff,
      decide_eq_true_eq, ← exists_and_right]
    exact exists_congr fun x => and_congr_right fun hx => by rw [h.lists.keyed k' x hx]
  rw [rank, hset, (h.lists.filter _).length_eq]

theorem rank_le (h : AscendingLists key xs m) (k : K) : rank m k ≤ xs.length :=
  h.rank_eq k ▸ List.length_filter_le _ _

/-- The elements before a key and from it on. -/
theorem exists_split (h : AscendingLists key xs m) (k : K) :
    ∃ before after, xs = before ++ after ∧ before.length = rank m k ∧
      (∀ x ∈ before, key x < k) ∧ ∀ x ∈ after, k ≤ key x := by
  have hafter : ∀ x ∈ xs.dropWhile (key · < k), k ≤ key x := by
    intro x hx
    cases hdrop : xs.dropWhile (key · < k) with
    | nil => rw [hdrop] at hx; cases hx
    | cons y ys =>
      have hy : k ≤ key y := by
        have hhead := List.head_dropWhile_not (key · < k) (l := xs) (by simp [hdrop])
        simpa [hdrop] using hhead
      have hsorted : Ascending key (y :: ys) := hdrop ▸ h.sorted.sublist (List.dropWhile_sublist _)
      rw [hdrop] at hx
      rcases List.mem_cons.mp hx with rfl | hx
      · exact hy
      · exact hy.trans ((List.pairwise_cons.mp hsorted).1 x hx).le
  have hbefore : ∀ x ∈ xs.takeWhile (key · < k), key x < k := fun x hx => by
    simpa using List.mem_takeWhile_imp hx
  refine ⟨_, _, List.takeWhile_append_dropWhile.symm, ?_, hbefore, hafter⟩
  have hfilter : xs.filter (key · < k) = xs.takeWhile (key · < k) := by
    conv_lhs => rw [← xs.takeWhile_append_dropWhile (p := (key · < k))]
    rw [List.filter_append, List.filter_eq_self.mpr (by simpa using hbefore),
      List.filter_eq_nil_iff.mpr (by simpa using hafter), List.append_nil]
  rw [h.rank_eq, hfilter]

omit [LinearOrder K] in
theorem findIdx_append_eq {p : α → Bool} (hbefore : ∀ x ∈ before, p x = false)
    (hafter : ∀ x ∈ after, p x = true) : (before ++ after).findIdx p = before.length := by
  rw [List.findIdx_append, List.findIdx_eq_length.mpr hbefore, if_neg (lt_irrefl _)]
  cases after with
  | nil => simp
  | cons y after => simp [List.findIdx_cons, hafter y]

/-- The first element that is not below a key stands at its rank. -/
theorem findIdx_eq_rank (h : AscendingLists key xs m) (k : K) :
    (xs.findIdx fun x => !decide (key x < k)) = rank m k := by
  obtain ⟨before, after, rfl, hlen, hbefore, hafter⟩ := h.exists_split k
  rw [← hlen]
  exact findIdx_append_eq (by simpa using hbefore) (by simpa using hafter)

/-- A key of the map stands at its rank. -/
theorem exists_split_of_some (h : AscendingLists key xs m) (hk : m k = some x) :
    ∃ before after, xs = before ++ x :: after ∧ before.length = rank m k ∧
      (∀ y ∈ before, key y < k) ∧ ∀ y ∈ after, k < key y := by
  obtain ⟨before, after, rfl, hlen, hbefore, hafter⟩ := h.exists_split k
  obtain ⟨hx, rfl⟩ := h.lists.eq_some_iff.mp hk
  have hx : x ∈ after := (List.mem_append.mp hx).resolve_left fun hx => (hbefore x hx).false
  have hsorted := h.sorted.sublist (List.sublist_append_right before after)
  cases after with
  | nil => cases hx
  | cons y after =>
    have hrest := (List.pairwise_cons.mp hsorted).1
    obtain rfl : x = y := (List.mem_cons.mp hx).resolve_right fun hx =>
      (hrest x hx).not_ge (hafter y (by simp))
    exact ⟨before, after, rfl, hlen, hbefore, hrest⟩

theorem exists_split_of_none (h : AscendingLists key xs m) (hk : m k = none) :
    ∃ before after, xs = before ++ after ∧ before.length = rank m k ∧
      (∀ y ∈ before, key y < k) ∧ ∀ y ∈ after, k < key y := by
  obtain ⟨before, after, rfl, hlen, hbefore, hafter⟩ := h.exists_split k
  refine ⟨before, after, rfl, hlen, hbefore, fun y hy => (hafter y hy).lt_of_ne fun hkey => ?_⟩
  exact h.lists.eq_none_iff.mp hk y (List.mem_append_right before hy) hkey.symm

theorem findIdx_lt (h : AscendingLists key xs m) (k : K) :
    (xs.findIdx fun x => decide (k < key x)) =
      if m k = none then rank m k else rank m k + 1 := by
  split
  next hk =>
    obtain ⟨before, after, rfl, hlen, hbefore, hafter⟩ := h.exists_split_of_none hk
    rw [← hlen]
    exact findIdx_append_eq (by simpa using fun x hx => (hbefore x hx).le) (by simpa using hafter)
  next hk =>
    obtain ⟨x, hx⟩ := Option.ne_none_iff_exists'.mp hk
    obtain ⟨before, after, rfl, hlen, hbefore, hafter⟩ := h.exists_split_of_some hx
    have hkey : key x = k := h.lists.keyed k x hx
    have hlen' : rank m k + 1 = (before ++ [x]).length := by rw [← hlen, List.length_append]; rfl
    rw [hlen', List.append_cons]
    refine findIdx_append_eq (fun y hy => ?_) (by simpa using hafter)
    rcases List.mem_append.mp hy with hy | hy
    · simpa using (hbefore y hy).le
    · simp [List.mem_singleton.mp hy, hkey]

theorem getElem?_rank (h : AscendingLists key xs m) (hk : m k = some x) :
    xs[rank m k]? = some x := by
  obtain ⟨before, after, rfl, hlen, -, -⟩ := h.exists_split_of_some hk
  simp [← hlen]

theorem rank_lt (h : AscendingLists key xs m) (hk : m k = some x) : rank m k < xs.length :=
  (List.getElem?_eq_some_iff.mp (h.getElem?_rank hk)).1

theorem rank_of_getElem? (h : AscendingLists key xs m) {i : Nat} (hi : xs[i]? = some x) :
    rank m (key x) = i := by
  have hmem : m (key x) = some x := (h.lists.mem_iff x).mp (List.mem_of_getElem? hi)
  have hnodup : xs.Nodup := List.Nodup.of_map key h.lists.nodup
  exact (List.getElem?_inj (h.rank_lt hmem) hnodup).mp ((h.getElem?_rank hmem).trans hi.symm)

/-- Insert a new key at its rank. -/
theorem insert (h : AscendingLists key (before ++ after) m) (hnone : m (key x) = none)
    (hbefore : ∀ y ∈ before, key y < key x) (hafter : ∀ y ∈ after, key x < key y) :
    AscendingLists key (before ++ x :: after) (Function.update m (key x) (some x)) where
  sorted := by
    obtain ⟨hsorted, hsorted', hlt⟩ := List.pairwise_append.mp h.sorted
    refine List.pairwise_append.mpr ⟨hsorted, List.pairwise_cons.mpr ⟨hafter, hsorted'⟩, ?_⟩
    intro y hy z hz
    rcases List.mem_cons.mp hz with rfl | hz
    · exact hbefore y hy
    · exact hlt y hy z hz
  lists := (h.lists.cons hnone).perm List.perm_middle.symm

theorem replace (h : AscendingLists key (before ++ x :: after) m) (hkey : key y = key x) :
    AscendingLists key (before ++ y :: after) (Function.update m (key x) (some y)) where
  sorted := by
    have hmap : (before ++ y :: after).map key = (before ++ x :: after).map key := by
      simp [hkey]
    exact List.pairwise_map.mp (hmap ▸ List.pairwise_map.mpr h.sorted)
  lists := ((h.lists.perm List.perm_middle).replace hkey).perm List.perm_middle.symm

/-- Replace the element at a position. -/
theorem modify (h : AscendingLists key xs m) {i : Nat} (hi : xs[i]? = some x) {w : α → α}
    (hkey : key (w x) = key x) :
    AscendingLists key (xs.modify i w) (Function.update m (key x) (some (w x))) := by
  obtain ⟨hlt, rfl⟩ := List.getElem?_eq_some_iff.mp hi
  rw [List.modify_eq_take_cons_drop hlt]
  refine AscendingLists.replace ?_ hkey
  rwa [List.getElem_cons_drop, List.take_append_drop]

theorem set (h : AscendingLists key xs m) {i : Nat} (hi : xs[i]? = some x)
    (hkey : key y = key x) :
    AscendingLists key (xs.set i y) (Function.update m (key x) (some y)) := by
  rw [List.set_eq_modify]
  exact h.modify hi hkey

theorem erase (h : AscendingLists key (before ++ x :: after) m) :
    AscendingLists key (before ++ after) (Function.update m (key x) none) where
  sorted := h.sorted.sublist ((List.sublist_cons_self x after).append_left before)
  lists := (h.lists.perm List.perm_middle).of_cons

theorem filter (h : AscendingLists key xs m) (p : α → Bool) :
    AscendingLists key (xs.filter p) fun k => (m k).filter p :=
  ⟨h.sorted.sublist List.filter_sublist, h.lists.filter p⟩

/-- Erase the keys of a range of ranks. -/
theorem eraseRange (h : AscendingLists key xs m) {first last : Nat} (hle : first ≤ last) :
    AscendingLists key (xs.take first ++ xs.drop last)
      fun k => if first ≤ rank m k ∧ rank m k < last then none else m k := by
  have hsub : (xs.take first ++ xs.drop last).Sublist xs := by
    conv_rhs => rw [← xs.take_append_drop first]
    exact (List.drop_sublist_drop_left xs hle).append_left _
  refine ⟨h.sorted.sublist hsub, h.lists.nodup.sublist (hsub.map key), fun x => ?_, ?_⟩
  · have hrank {i : Nat} (hi : xs[i]? = some x) : rank m (key x) = i ∧ m (key x) = some x :=
      ⟨h.rank_of_getElem? hi, (h.lists.mem_iff x).mp (List.mem_of_getElem? hi)⟩
    rw [List.mem_append, List.mem_iff_getElem?, List.mem_iff_getElem?]
    constructor
    · rintro (⟨i, hi⟩ | ⟨i, hi⟩)
      · rw [List.getElem?_take, Option.ite_none_right_eq_some] at hi
        obtain ⟨hkey, hm⟩ := hrank hi.2
        rw [if_neg (by omega), hm]
      · rw [List.getElem?_drop] at hi
        obtain ⟨hkey, hm⟩ := hrank hi
        rw [if_neg (by omega), hm]
    · intro hx
      rw [Option.ite_none_left_eq_some] at hx
      have hget := h.getElem?_rank hx.2
      by_cases hfirst : rank m (key x) < first
      · exact .inl ⟨rank m (key x), by rw [List.getElem?_take, if_pos hfirst, hget]⟩
      · refine .inr ⟨rank m (key x) - last, ?_⟩
        rw [List.getElem?_drop, Nat.add_sub_cancel' (by omega), hget]
  · intro k x hx
    split at hx
    next => cases hx
    next => exact h.lists.keyed k x hx

end AscendingLists

end RankedMap
