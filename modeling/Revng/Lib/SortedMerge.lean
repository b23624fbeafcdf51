import Mathlib.Data.List.Basic
import Mathlib.Order.Lattice

/-!
# Merging sorted lists

Two lists that ascend by a key are walked in parallel: an element is met on the left, on
the right, or on both sides with the same key.
-/

namespace SortedMerge

variable {α K : Type*} [LinearOrder K]

/-- Where an element is met. -/
inductive Zipped (α : Type*) where
  | left (l : α)
  | right (r : α)
  | both (l r : α)

/-- The elements of two ascending lists, by ascending keys. -/
@[semireducible]
def zipmap (key : α → K) : List α → List α → List (Zipped α)
  | [], [] => []
  | [], r :: rs => .right r :: zipmap key [] rs
  | l :: ls, [] => .left l :: zipmap key ls []
  | l :: ls, r :: rs =>
      if key l < key r then .left l :: zipmap key ls (r :: rs)
      else if key r < key l then .right r :: zipmap key (l :: ls) rs
      else .both l r :: zipmap key ls rs
termination_by ls rs => ls.length + rs.length

/-- Put an element in front of the first one with a greater key, in place of one with
the same key. -/
def insertOrAssign (key : α → K) (x : α) : List α → List α
  | [] => [x]
  | y :: ys =>
      if key y < key x then y :: insertOrAssign key x ys
      else if key x < key y then x :: y :: ys
      else x :: ys

def Ascending (key : α → K) (xs : List α) : Prop := xs.Pairwise (key · < key ·)

instance (key : α → K) (xs : List α) : Decidable (Ascending key xs) :=
  inferInstanceAs (Decidable (xs.Pairwise _))

variable {key : α → K}

variable {xs : List α}

theorem Ascending.lt_of_lt_head {k : K} {x : α} (h : Ascending key (x :: xs)) (hk : k < key x) :
    ∀ y ∈ x :: xs, k < key y := by
  intro y hy
  rcases List.mem_cons.mp hy with rfl | hy
  · exact hk
  · exact hk.trans ((List.pairwise_cons.mp h).1 y hy)

theorem Ascending.lt_of_fin_lt (h : Ascending key xs) {i j : Fin xs.length} (hij : i < j) :
    key xs[i] < key xs[j] :=
  List.pairwise_iff_getElem.mp h i j i.isLt j.isLt hij

/-- The element met on the left, if any. -/
def Zipped.first : Zipped α → Option α
  | .left l => some l
  | .right _ => none
  | .both l _ => some l

def Zipped.second : Zipped α → Option α
  | .left _ => none
  | .right r => some r
  | .both _ r => some r

/-- The element met, the left one where there are two. -/
def Zipped.value : Zipped α → α
  | .left l => l
  | .right r => r
  | .both l _ => l

def Zipped.swap : Zipped α → Zipped α
  | .left l => .right l
  | .right r => .left r
  | .both l r => .both r l

attribute [elab_as_elim] zipmap.induct_unfolding

theorem zipmap_swap (ls rs : List α) :
    zipmap key rs ls = (zipmap key ls rs).map Zipped.swap := by
  fun_induction zipmap key ls rs with
  | case1 => simp [zipmap]
  | case2 r rs ih => simp [zipmap, ih, Zipped.swap]
  | case3 l ls ih => simp [zipmap, ih, Zipped.swap]
  | case4 l ls r rs h ih => simp [zipmap, h, h.not_gt, ih, Zipped.swap]
  | case5 l ls r rs h h' ih => simp [zipmap, h', ih, Zipped.swap]
  | case6 l ls r rs h h' ih => simp [zipmap, h, h', ih, Zipped.swap]

variable {ls rs : List α}

/-- The two sides of a pair have one key. -/
theorem mem_zipmap_both {l r : α} (h : Zipped.both l r ∈ zipmap key ls rs) :
    l ∈ ls ∧ r ∈ rs ∧ key l = key r := by
  fun_induction zipmap key ls rs with
  | case1 => simp at h
  | case2 r' rs ih =>
    have := ih (by simpa using h)
    simp_all
  | case3 l' ls ih =>
    have := ih (by simpa using h)
    simp_all
  | case4 l' ls r' rs hlt ih =>
    have := ih (by simpa using h)
    simp_all
  | case5 l' ls r' rs h₁ h₂ ih =>
    have := ih (by simpa using h)
    simp_all
  | case6 l' ls r' rs h₁ h₂ ih =>
    rcases List.mem_cons.mp h with heq | h
    · cases heq
      exact ⟨by simp, by simp, le_antisymm (not_lt.mp h₂) (not_lt.mp h₁)⟩
    · have := ih h
      simp_all

/-- Elements with one key meet. -/
theorem both_mem_zipmap {l r : α} (hls : Ascending key ls) (hrs : Ascending key rs) (hl : l ∈ ls)
    (hr : r ∈ rs) (hkey : key l = key r) : Zipped.both l r ∈ zipmap key ls rs := by
  fun_induction zipmap key ls rs with
  | case1 => simp at hl
  | case2 r' rs ih => simp at hl
  | case3 l' ls ih => simp at hr
  | case4 l' ls r' rs hlt ih =>
    have hne : l ≠ l' := fun heq => (hrs.lt_of_lt_head hlt r hr).ne (heq ▸ hkey)
    have hmem := ih (List.pairwise_cons.mp hls).2 hrs ((List.mem_cons.mp hl).resolve_left hne) hr
    exact List.mem_cons_of_mem _ hmem
  | case5 l' ls r' rs hnot hlt ih =>
    have hne : r ≠ r' := fun heq => (hls.lt_of_lt_head hlt l hl).ne (heq ▸ hkey.symm)
    have hmem := ih hls (List.pairwise_cons.mp hrs).2 hl ((List.mem_cons.mp hr).resolve_left hne)
    exact List.mem_cons_of_mem _ hmem
  | case6 l' ls r' rs hnot hnot' ih =>
    have heq : key l' = key r' := le_antisymm (not_lt.mp hnot') (not_lt.mp hnot)
    obtain ⟨hl', hls⟩ := List.pairwise_cons.mp hls
    obtain ⟨hr', hrs⟩ := List.pairwise_cons.mp hrs
    rcases List.mem_cons.mp hl with rfl | hl <;> rcases List.mem_cons.mp hr with rfl | hr
    · simp
    · exact absurd (hkey.symm.trans heq) (hr' r hr).ne'
    · exact absurd (hkey.trans heq.symm) (hl' l hl).ne'
    · exact List.mem_cons_of_mem _ (ih hls hrs hl hr)

/-- An element whose key the right list does not have is met on the left. -/
theorem left_mem_zipmap {l : α} (hrs : Ascending key rs) (hl : l ∈ ls)
    (hnot : ∀ r ∈ rs, key l ≠ key r) : Zipped.left l ∈ zipmap key ls rs := by
  fun_induction zipmap key ls rs with
  | case1 => simp at hl
  | case2 r rs ih => simp at hl
  | case3 l' ls ih =>
    rcases List.mem_cons.mp hl with rfl | hl
    · simp
    · exact List.mem_cons_of_mem _ (ih hrs hl hnot)
  | case4 l' ls r rs hlt ih =>
    rcases List.mem_cons.mp hl with rfl | hl
    · simp
    · exact List.mem_cons_of_mem _ (ih hrs hl hnot)
  | case5 l' ls r rs h hlt ih =>
    have hrest := ih (List.pairwise_cons.mp hrs).2 hl fun x hx => hnot x (by simp [hx])
    exact List.mem_cons_of_mem _ hrest
  | case6 l' ls r rs h h' ih =>
    have hne : l ≠ l' := fun heq => hnot r (by simp)
      (heq ▸ le_antisymm (not_lt.mp h') (not_lt.mp h))
    have hrest := ih (List.pairwise_cons.mp hrs).2 ((List.mem_cons.mp hl).resolve_left hne)
      fun x hx => hnot x (by simp [hx])
    exact List.mem_cons_of_mem _ hrest

theorem right_mem_zipmap {r : α} (hls : Ascending key ls) (hr : r ∈ rs)
    (hnot : ∀ l ∈ ls, key r ≠ key l) : Zipped.right r ∈ zipmap key ls rs := by
  rw [zipmap_swap rs ls, List.mem_map]
  exact ⟨.left r, left_mem_zipmap hls hr hnot, rfl⟩

theorem zipmap_self (ls : List α) : zipmap key ls ls = ls.map fun l => .both l l := by
  induction ls with
  | nil => simp [zipmap]
  | cons l ls ih => simp [zipmap, ih]

/-- When nothing is met on one side only, the lists have the same shape. -/
theorem forall₂_of_zipmap (key : α → K) {Q : α → α → Prop}
    (h : ∀ z ∈ zipmap key ls rs, ∃ l r, z = .both l r ∧ Q l r) : List.Forall₂ Q ls rs := by
  fun_induction zipmap key ls rs with
  | case1 => exact .nil
  | case2 r rs ih => simp at h
  | case3 l ls ih => simp at h
  | case4 l ls r rs hlt ih => simp at h
  | case5 l ls r rs h₁ h₂ ih => simp at h
  | case6 l ls r rs h₁ h₂ ih =>
    obtain ⟨l', r', heq, hq⟩ := h (.both l r) (by simp)
    cases heq
    exact .cons hq (ih fun z hz => h z (by simp [hz]))

theorem filterMap_first_zipmap (key : α → K) (ls rs : List α) :
    (zipmap key ls rs).filterMap Zipped.first = ls := by
  fun_induction zipmap key ls rs with
  | case1 => rfl
  | case2 r rs ih => simpa only [List.filterMap_cons, Zipped.first] using ih
  | case3 l ls ih =>
    simpa only [List.filterMap_cons, Zipped.first, List.cons.injEq, true_and] using ih
  | case4 l ls r rs h ih =>
    simpa only [List.filterMap_cons, Zipped.first, List.cons.injEq, true_and] using ih
  | case5 l ls r rs h h' ih => simpa only [List.filterMap_cons, Zipped.first] using ih
  | case6 l ls r rs h h' ih =>
    simpa only [List.filterMap_cons, Zipped.first, List.cons.injEq, true_and] using ih

theorem filterMap_second_zipmap (key : α → K) (ls rs : List α) :
    (zipmap key ls rs).filterMap Zipped.second = rs := by
  rw [zipmap_swap rs ls, List.filterMap_map]
  have hswap : Zipped.second ∘ Zipped.swap = (Zipped.first : Zipped α → Option α) := by
    funext z
    cases z <;> rfl
  rw [hswap, filterMap_first_zipmap]

/-- Every element is met. -/
theorem exists_first_eq_some (key : α → K) (rs : List α) {l : α} (hl : l ∈ ls) :
    ∃ z ∈ zipmap key ls rs, z.first = some l := by
  rw [← filterMap_first_zipmap key ls rs] at hl
  exact List.mem_filterMap.mp hl

theorem exists_second_eq_some (key : α → K) (ls : List α) {r : α} (hr : r ∈ rs) :
    ∃ z ∈ zipmap key ls rs, z.second = some r := by
  rw [← filterMap_second_zipmap key ls rs] at hr
  exact List.mem_filterMap.mp hr

variable {z : Zipped α}

theorem value_mem_of_mem_zipmap (h : z ∈ zipmap key ls rs) : z.value ∈ ls ∨ z.value ∈ rs := by
  cases z with
  | left l =>
    refine Or.inl ?_
    rw [← filterMap_first_zipmap key ls rs]
    exact List.mem_filterMap.mpr ⟨_, h, rfl⟩
  | right r =>
    refine Or.inr ?_
    rw [← filterMap_second_zipmap key ls rs]
    exact List.mem_filterMap.mpr ⟨_, h, rfl⟩
  | both l r => exact Or.inl (mem_zipmap_both h).1

/-- The elements of two ascending lists are met in ascending order. -/
theorem Ascending.zipmap (hls : Ascending key ls) (hrs : Ascending key rs) :
    (zipmap key ls rs).Pairwise fun z z' => key z.value < key z'.value := by
  fun_induction SortedMerge.zipmap key ls rs with
  | case1 => exact .nil
  | case2 r rs ih =>
    obtain ⟨hr, hrs⟩ := List.pairwise_cons.mp hrs
    refine .cons (fun z hz => ?_) (ih hls hrs)
    rcases value_mem_of_mem_zipmap hz with hmem | hmem
    · simp at hmem
    · exact hr _ hmem
  | case3 l ls ih =>
    obtain ⟨hl, hls⟩ := List.pairwise_cons.mp hls
    refine .cons (fun z hz => ?_) (ih hls hrs)
    rcases value_mem_of_mem_zipmap hz with hmem | hmem
    · exact hl _ hmem
    · simp at hmem
  | case4 l ls r rs hlt ih =>
    obtain ⟨hl, hls⟩ := List.pairwise_cons.mp hls
    refine .cons (fun z hz => ?_) (ih hls hrs)
    rcases value_mem_of_mem_zipmap hz with hmem | hmem
    · exact hl _ hmem
    · exact hrs.lt_of_lt_head hlt _ hmem
  | case5 l ls r rs hnot hlt ih =>
    obtain ⟨hr, hrs⟩ := List.pairwise_cons.mp hrs
    refine .cons (fun z hz => ?_) (ih hls hrs)
    rcases value_mem_of_mem_zipmap hz with hmem | hmem
    · exact hls.lt_of_lt_head hlt _ hmem
    · exact hr _ hmem
  | case6 l ls r rs hnot hnot' ih =>
    have heq : key l = key r := le_antisymm (not_lt.mp hnot') (not_lt.mp hnot)
    obtain ⟨hl, hls⟩ := List.pairwise_cons.mp hls
    obtain ⟨hr, hrs⟩ := List.pairwise_cons.mp hrs
    refine .cons (fun z hz => ?_) (ih hls hrs)
    rcases value_mem_of_mem_zipmap hz with hmem | hmem
    · exact hl _ hmem
    · exact heq.trans_lt (hr _ hmem)

/-- Elements that are met with one key are met together. -/
theorem eq_of_mem_zipmap (hls : Ascending key ls) (hrs : Ascending key rs) {z' : Zipped α}
    (hz : z ∈ zipmap key ls rs) (hz' : z' ∈ zipmap key ls rs) (hkey : key z.value = key z'.value) :
    z = z' := by
  have hlt := hls.zipmap hrs
  exact List.Pairwise.forall_of_forall_of_flip (R := fun z z' => key z.value = key z'.value → z = z')
    (fun z _ _ => rfl) (hlt.imp fun h heq => absurd heq h.ne)
    (hlt.imp fun h heq => absurd heq h.ne') hz hz' hkey

/-- What is met on the left has the key of what is met with it. -/
theorem first_eq_some_iff (hls : Ascending key ls) (hrs : Ascending key rs)
    (hz : z ∈ zipmap key ls rs) {l : α} : z.first = some l ↔ l ∈ ls ∧ key l = key z.value := by
  constructor
  · intro h
    refine ⟨?_, ?_⟩
    · rw [← filterMap_first_zipmap key ls rs]
      exact List.mem_filterMap.mpr ⟨z, hz, h⟩
    · cases z with
      | left l' => cases h; rfl
      | right r => cases h
      | both l' r => cases h; rfl
  · rintro ⟨hl, hkey⟩
    by_cases hr : ∃ r ∈ rs, key l = key r
    · obtain ⟨r, hr, hlr⟩ := hr
      rw [eq_of_mem_zipmap hls hrs hz (both_mem_zipmap hls hrs hl hr hlr) hkey.symm]
      rfl
    · have hleft := left_mem_zipmap hrs hl fun r hmem heq => hr ⟨r, hmem, heq⟩
      rw [eq_of_mem_zipmap hls hrs hz hleft hkey.symm]
      rfl

theorem second_eq_some_iff (hls : Ascending key ls) (hrs : Ascending key rs)
    (hz : z ∈ zipmap key ls rs) {r : α} : z.second = some r ↔ r ∈ rs ∧ key r = key z.value := by
  have hswap : z.swap ∈ zipmap key rs ls := by
    rw [zipmap_swap ls rs]
    exact List.mem_map_of_mem hz
  have hvalue : key z.swap.value = key z.value := by
    cases z with
    | left l => rfl
    | right r => rfl
    | both l r => exact (mem_zipmap_both hz).2.2.symm
  rw [← hvalue, ← first_eq_some_iff hrs hls hswap]
  cases z <;> rfl

theorem zipmap_nil_right (ls : List α) : zipmap key ls [] = ls.map .left := by
  induction ls with
  | nil => simp [zipmap]
  | cons l ls ih => simp [zipmap, ih]

/-- When the right list is above the left one, the left one comes first. -/
theorem zipmap_of_lt (h : ∀ l ∈ ls, ∀ r ∈ rs, key l < key r) :
    zipmap key ls rs = ls.map .left ++ zipmap key [] rs := by
  induction ls with
  | nil => rfl
  | cons l ls ih =>
    cases rs with
    | nil => simp [zipmap_nil_right]
    | cons r rs =>
      have hrest := ih fun x hx => h x (by simp [hx])
      have hlt : key l < key r := h l (by simp) r (by simp)
      simp [zipmap, hlt, hrest]

/-- An element goes between those below it and those above it. -/
theorem mem_insertOrAssign {x y : α} (h : y ∈ insertOrAssign key x xs) : y = x ∨ y ∈ xs := by
  fun_induction insertOrAssign key x xs with
  | case1 => exact Or.inl (List.mem_singleton.mp h)
  | case2 z zs hlt ih =>
    rcases List.mem_cons.mp h with rfl | h
    · exact Or.inr (by simp)
    · exact (ih h).imp_right (List.mem_cons_of_mem z)
  | case3 z zs hnot hlt => exact (List.mem_cons.mp h)
  | case4 z zs hnot hnot' => exact (List.mem_cons.mp h).imp_right (List.mem_cons_of_mem z)

/-- The element of a key that is not there is added. -/
theorem length_insertOrAssign {x : α} (h : ∀ y ∈ xs, key y ≠ key x) :
    (insertOrAssign key x xs).length = xs.length + 1 := by
  fun_induction insertOrAssign key x xs with
  | case1 => rfl
  | case2 z zs hlt ih => simpa using ih fun y hy => h y (by simp [hy])
  | case3 z zs hnot hlt => rfl
  | case4 z zs hnot hnot' =>
    exact absurd (le_antisymm (not_lt.mp hnot') (not_lt.mp hnot)) (h z (by simp))

theorem insertOrAssign_append {x : α} {done : List α} (hdone : ∀ d ∈ done, key d < key x)
    (hxs : ∀ y ∈ xs, key x < key y) : insertOrAssign key x (done ++ xs) = done ++ x :: xs := by
  induction done with
  | nil =>
    cases xs with
    | nil => rfl
    | cons y ys =>
      have hy := hxs y (by simp)
      simp [insertOrAssign, hy, hy.not_gt]
  | cons d done ih =>
    simp [insertOrAssign, hdone d (by simp), ih fun e he => hdone e (by simp [he])]

end SortedMerge
