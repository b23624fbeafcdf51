import Mathlib.Data.Finset.Max

/-!
# Ordered sets and their iterators

An ordered set is a finite set over a linear order, and an iterator is an element or the
end.  A bound of a range is found through keys of another order, into which the elements
are mapped.  `relocate` goes through a range and moves every element elsewhere in the
set, perhaps into the range itself: it still moves each element once
(`relocate_eq_image`).
-/

namespace OrderedSet

variable {α κ : Type*} [LinearOrder α] [LinearOrder κ]

/-- `⊤` is the end. -/
abbrev Iterator (α : Type*) := WithTop α

/-- The element after `x`. -/
def next (s : Finset α) (x : α) : Iterator α := (s.filter (x < ·)).min

/-- The first element that is not before the key. -/
def lowerBound (e : α → κ) (s : Finset α) (key : κ) : Iterator α :=
  (s.filter fun x => ¬ e x < key).min

/-- The first element after the key. -/
def upperBound (e : α → κ) (s : Finset α) (key : κ) : Iterator α :=
  (s.filter fun x => key < e x).min

/-- The set without the elements from `first` on, up to `last`. -/
def eraseRange (s : Finset α) (first last : Iterator α) : Finset α :=
  s.filter fun x => ¬ (first ≤ x ∧ (x : Iterator α) < last)

/-- Goes from `it` to `last`, takes out every element and puts it in elsewhere. -/
def relocate (move : α → α) (last : Iterator α) : Nat → Iterator α → Finset α → Finset α
  | 0, _, s => s
  | _ + 1, ⊤, s => s
  | fuel + 1, (x : α), s =>
      if (x : Iterator α) = last then s
      else relocate move last fuel (next s x) (insert (move x) (s.erase x))

theorem relocate_succ (move : α → α) (last : Iterator α) (fuel : Nat) (x : α) (s : Finset α) :
    relocate move last (fuel + 1) x s =
      if (x : Iterator α) = last then s
      else relocate move last fuel (next s x) (insert (move x) (s.erase x)) := rfl

/-! ## Iterators -/

theorem next_mem {s : Finset α} {x y : α} (h : next s x = y) : y ∈ s ∧ x < y :=
  Finset.mem_filter.mp (Finset.mem_of_min h)

theorem next_le {s : Finset α} {x y : α} (hy : y ∈ s) (hlt : x < y) : next s x ≤ y :=
  Finset.min_le (Finset.mem_filter.mpr ⟨hy, hlt⟩)

theorem lt_next (s : Finset α) (x : α) : (x : Iterator α) < next s x := by
  cases h : next s x using WithTop.recTopCoe with
  | top => exact WithTop.coe_lt_top x
  | coe y => exact WithTop.coe_lt_coe.mpr (next_mem h).2

theorem min_filter_le_iff {p : α → Prop} [DecidablePred p] {s : Finset α} {x : α} (hx : x ∈ s)
    (hmono : ∀ y z, y ≤ z → p y → p z) : (s.filter p).min ≤ x ↔ p x := by
  constructor
  · intro h
    cases hmin : (s.filter p).min using WithTop.recTopCoe with
    | top => simp [hmin] at h
    | coe y =>
      rw [hmin] at h
      exact hmono y x (WithTop.coe_le_coe.mp h) (Finset.mem_filter.mp (Finset.mem_of_min hmin)).2
  · exact fun h => Finset.min_le (Finset.mem_filter.mpr ⟨hx, h⟩)

/-- The elements after `a` are the end of the sorted elements. -/
theorem filter_lt_suffix {xs : List α} (h : xs.Pairwise (· < ·)) (a : α) :
    xs.filter (fun x => a < x) <:+ xs := by
  induction xs with
  | nil => exact List.suffix_rfl
  | cons x xs ih =>
    obtain ⟨hfirst, hrest⟩ := List.pairwise_cons.mp h
    by_cases hax : a < x
    · have hall : ∀ y ∈ x :: xs, decide (a < y) = true := by
        refine List.forall_mem_cons.mpr ⟨decide_eq_true hax, fun y hy => ?_⟩
        exact decide_eq_true (hax.trans (hfirst y hy))
      rw [List.filter_eq_self.mpr hall]
    · rw [List.filter_cons_of_neg (by simpa using hax)]
      exact (ih hrest).trans (List.suffix_cons x xs)

theorem filter_lt_of_suffix {xs next : List α} (h : xs.Pairwise (· < ·)) {a : α}
    (hsuffix : a :: next <:+ xs) : xs.filter (fun x => a < x) = next := by
  obtain ⟨before, rfl⟩ := hsuffix
  obtain ⟨-, hrest, hbefore⟩ := List.pairwise_append.mp h
  have hnone : ∀ x ∈ before, ¬ decide (a < x) = true := fun x hx => by
    simpa using (hbefore x hx a List.mem_cons_self).le
  have hall : ∀ x ∈ next, decide (a < x) = true := fun x hx =>
    decide_eq_true ((List.pairwise_cons.mp hrest).1 x hx)
  rw [List.filter_append, List.filter_eq_nil_iff.mpr hnone, List.nil_append,
    List.filter_cons_of_neg (by simp), List.filter_eq_self.mpr hall]

section Bounds

variable {e : α → κ} (he : Monotone e) {s : Finset α} {key : κ} {x : α}
include he

theorem lowerBound_le_iff (hx : x ∈ s) : lowerBound e s key ≤ x ↔ key ≤ e x := by
  rw [lowerBound, min_filter_le_iff hx fun y z hyz hy hz => hy ((he hyz).trans_lt hz), not_lt]

theorem lt_upperBound_iff (hx : x ∈ s) : (x : Iterator α) < upperBound e s key ↔ e x ≤ key := by
  rw [← not_le, upperBound, min_filter_le_iff hx fun y z hyz hy => hy.trans_le (he hyz), not_lt]

/-- A range is erased by its keys. -/
theorem mem_eraseRange_iff {first last : κ} :
    x ∈ eraseRange s (lowerBound e s first) (upperBound e s last) ↔
      x ∈ s ∧ ¬ (first ≤ e x ∧ e x ≤ last) := by
  rw [eraseRange, Finset.mem_filter]
  refine and_congr_right fun hx => ?_
  rw [lowerBound_le_iff he hx, lt_upperBound_iff he hx]

end Bounds

/-! ## Moving a range -/

section Relocate

variable {P : α → Prop} {move : α → α} {last : Iterator α}

/-- The iterator has not passed an element that is to be moved, and what it meets before
the last one is to be moved or has been moved there. -/
structure Sweep (P : α → Prop) (move : α → α) (last it : Iterator α) (s : Finset α) : Prop where
  last_mem : ∀ z : α, last = z → z ∈ s
  it_mem : ∀ x : α, it = x → x ∈ s
  le_last : it ≤ last
  inside : ∀ x ∈ s, P x → it ≤ x ∧ (x : Iterator α) < last
  between : ∀ x ∈ s, it ≤ x → (x : Iterator α) < last → P x ∨ move x = x

variable {s : Finset α}

theorem next_le_of_lt {x : α} (hlast : ∀ z : α, last = z → z ∈ s) (hx : (x : Iterator α) < last) :
    next s x ≤ last := by
  cases last using WithTop.recTopCoe with
  | top => exact le_top
  | coe z => exact next_le (hlast z rfl) (WithTop.coe_lt_coe.mp hx)

/-- An element that has been moved is passed. -/
theorem Sweep.passed {x : α} (h : Sweep P move last x s) (hlt : (x : Iterator α) < last)
    (hx : ¬ P x) : Sweep P move last (next s x) s where
  last_mem := h.last_mem
  it_mem := fun _ hy => (next_mem hy).1
  le_last := next_le_of_lt h.last_mem hlt
  inside := fun y hy hP => by
    obtain ⟨hle, hlt'⟩ := h.inside y hy hP
    have hne : x ≠ y := fun heq => hx (heq ▸ hP)
    exact ⟨next_le hy (lt_of_le_of_ne (WithTop.coe_le_coe.mp hle) hne), hlt'⟩
  between := fun y hy hle => h.between y hy ((lt_next s x).le.trans hle)

/-- An element is moved. -/
theorem Sweep.moved {x : α} (h : Sweep P move last x s) (hlt : (x : Iterator α) < last)
    (hmove : ¬ P (move x) ∧ move (move x) = move x) :
    Sweep P move last (next s x) (insert (move x) (s.erase x)) where
  last_mem := fun z hz => by
    have hne : z ≠ x := (WithTop.coe_lt_coe.mp (hz ▸ hlt)).ne'
    exact Finset.mem_insert_of_mem (Finset.mem_erase.mpr ⟨hne, h.last_mem z hz⟩)
  it_mem := fun y hy => by
    obtain ⟨hmem, hxy⟩ := next_mem hy
    exact Finset.mem_insert_of_mem (Finset.mem_erase.mpr ⟨hxy.ne', hmem⟩)
  le_last := next_le_of_lt h.last_mem hlt
  inside := fun y hy hP => by
    rcases Finset.mem_insert.mp hy with rfl | hy
    · exact absurd hP hmove.1
    · obtain ⟨hne, hy⟩ := Finset.mem_erase.mp hy
      obtain ⟨hle, hlt'⟩ := h.inside y hy hP
      exact ⟨next_le hy (lt_of_le_of_ne (WithTop.coe_le_coe.mp hle) hne.symm), hlt'⟩
  between := fun y hy hle hlt' => by
    rcases Finset.mem_insert.mp hy with rfl | hy
    · exact Or.inr hmove.2
    · exact h.between y (Finset.mem_erase.mp hy).2 ((lt_next s x).le.trans hle) hlt'

variable [DecidablePred P]

/-- The steps that are left: a moved element may be met again. -/
def steps (P : α → Prop) [DecidablePred P] (it : Iterator α) (s : Finset α) : Nat :=
  2 * (s.filter P).card + (s.filter fun x => ¬ P x ∧ it ≤ x).card

theorem steps_pass {x : α} (hmem : x ∈ s) (hx : ¬ P x) : steps P (next s x) s < steps P x s := by
  refine Nat.add_lt_add_left (Finset.card_lt_card ?_) _
  refine Finset.ssubset_iff_of_subset ?_ |>.mpr ⟨x, ?_, ?_⟩
  · intro y hy
    rw [Finset.mem_filter] at hy ⊢
    exact ⟨hy.1, hy.2.1, (lt_next s x).le.trans hy.2.2⟩
  · exact Finset.mem_filter.mpr ⟨hmem, hx, le_rfl⟩
  · exact fun hy => (Finset.mem_filter.mp hy).2.2.not_gt (lt_next s x)

theorem steps_move {x : α} (hmem : x ∈ s) (hP : P x) (hmove : ¬ P (move x)) :
    steps P (next s x) (insert (move x) (s.erase x)) < steps P x s := by
  have hmoved : (insert (move x) (s.erase x)).filter P = (s.filter P).erase x := by
    rw [Finset.filter_insert, if_neg hmove, Finset.filter_erase]
  have hcard : ((s.filter P).erase x).card + 1 = (s.filter P).card :=
    Finset.card_erase_add_one (Finset.mem_filter.mpr ⟨hmem, hP⟩)
  have hrest : ((insert (move x) (s.erase x)).filter fun y => ¬ P y ∧ next s x ≤ y).card ≤
      (s.filter fun y => ¬ P y ∧ (x : Iterator α) ≤ y).card + 1 := by
    refine (Finset.card_le_card fun y hy => ?_).trans (Finset.card_insert_le (move x) _)
    rw [Finset.mem_filter, Finset.mem_insert] at hy
    rcases hy.1 with rfl | hmem'
    · exact Finset.mem_insert_self _ _
    · exact Finset.mem_insert_of_mem (Finset.mem_filter.mpr
        ⟨(Finset.mem_erase.mp hmem').2, hy.2.1, (lt_next s x).le.trans hy.2.2⟩)
  unfold steps
  rw [hmoved]
  omega

/-- Every element is moved once, wherever the moved ones go. -/
theorem relocate_eq_image (hmove : ∀ x, P x → ¬ P (move x) ∧ move (move x) = move x) :
    ∀ (fuel : Nat) (it : Iterator α) (s : Finset α), Sweep P move last it s →
      steps P it s ≤ fuel →
      relocate move last fuel it s = s.image fun x => if P x then move x else x := by
  have hnone : ∀ s : Finset α, (∀ x ∈ s, ¬ P x) →
      s = s.image fun x => if P x then move x else x := fun s hs => by
    conv_lhs => rw [← Finset.image_id (s := s)]
    exact Finset.image_congr fun x hx => by simp [hs x hx]
  intro fuel
  induction fuel with
  | zero =>
    intro it s _ hfuel
    have hcard : (s.filter P).card = 0 := by
      unfold steps at hfuel
      omega
    exact hnone s fun x hx hP =>
      Finset.filter_eq_empty_iff.mp (Finset.card_eq_zero.mp hcard) hx hP
  | succ fuel ih =>
    intro it s h hfuel
    have hdone : it = last → s = s.image fun x => if P x then move x else x := by
      intro hend
      refine hnone s fun x hx hP => ?_
      obtain ⟨hle, hlt⟩ := h.inside x hx hP
      exact (hend ▸ hle).not_gt hlt
    cases it using WithTop.recTopCoe with
    | top => exact hdone (top_le_iff.mp h.le_last).symm
    | coe x =>
      rw [relocate_succ]
      by_cases hend : (x : Iterator α) = last
      · rw [if_pos hend]
        exact hdone hend
      · have hlt : (x : Iterator α) < last := lt_of_le_of_ne h.le_last hend
        have hx := h.it_mem x rfl
        rw [if_neg hend]
        by_cases hP : P x
        · have hrest := ih _ _ (h.moved hlt (hmove x hP))
            (Nat.le_of_lt_succ ((steps_move hx hP (hmove x hP).1).trans_le hfuel))
          rw [hrest, Finset.image_insert, if_neg (hmove x hP).1]
          conv_rhs => rw [← Finset.insert_erase hx, Finset.image_insert, if_pos hP]
        · have hfixed : move x = x := (h.between x hx le_rfl hlt).resolve_left hP
          rw [hfixed, Finset.insert_erase hx]
          exact ih _ _ (h.passed hlt hP)
            (Nat.le_of_lt_succ ((steps_pass hx hP).trans_le hfuel))

/-- A range between two keys is moved element by element. -/
theorem relocate_bounds (e : α → κ) (he : Monotone e) {lo hi : κ}
    (hP : ∀ x ∈ s, P x ↔ lo ≤ e x ∧ e x ≤ hi) (hle : lo ≤ hi)
    (hmove : ∀ x, P x → ¬ P (move x) ∧ move (move x) = move x) :
    relocate move (upperBound e s hi) (2 * s.card) (lowerBound e s lo) s =
      s.image fun x => if P x then move x else x := by
  refine relocate_eq_image hmove _ _ _ ⟨?_, ?_, ?_, ?_, ?_⟩ ?_
  · exact fun z hz => (Finset.mem_filter.mp (Finset.mem_of_min hz)).1
  · exact fun x hx => (Finset.mem_filter.mp (Finset.mem_of_min hx)).1
  · exact Finset.min_mono fun x hx => by
      rw [Finset.mem_filter] at hx ⊢
      exact ⟨hx.1, (hle.trans hx.2.le).not_gt⟩
  · intro x hx hPx
    obtain ⟨hlo, hhi⟩ := (hP x hx).mp hPx
    exact ⟨(lowerBound_le_iff he hx).mpr hlo, (lt_upperBound_iff he hx).mpr hhi⟩
  · intro x hx hlo hhi
    exact Or.inl ((hP x hx).mpr
      ⟨(lowerBound_le_iff he hx).mp hlo, (lt_upperBound_iff he hx).mp hhi⟩)
  · have hsplit := Finset.card_filter_add_card_filter_not (s := s) P
    have hrest : (s.filter fun x => ¬ P x ∧ lowerBound e s lo ≤ x).card ≤
        (s.filter fun x => ¬ P x).card :=
      Finset.card_le_card fun x hx => by
        rw [Finset.mem_filter] at hx ⊢
        exact ⟨hx.1, hx.2.1⟩
    unfold steps
    omega

end Relocate

end OrderedSet
