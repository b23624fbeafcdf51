import Mathlib.Data.List.Forall2

/-!
# Loops that may fail

A loop in `Option` completes when each of its rounds does.
-/

namespace PartialLoops

variable {α β : Type*}

theorem mapM_eq_some_map {f : α → Option β} {g : α → β} {xs : List α}
    (h : ∀ x ∈ xs, f x = some (g x)) : xs.mapM f = some (xs.map g) := by
  induction xs with
  | nil => rfl
  | cons x xs ih =>
    rw [List.mapM_cons, h x (by simp), ih fun y hy => h y (by simp [hy])]
    rfl

/-- Every result is that of a round. -/
theorem exists_of_mapM {f : α → Option β} {xs : List α} {ys : List β} (h : xs.mapM f = some ys) :
    ∀ y ∈ ys, ∃ x ∈ xs, f x = some y := by
  induction xs generalizing ys with
  | nil =>
    cases h
    exact nofun
  | cons x xs ih =>
    rw [List.mapM_cons] at h
    obtain ⟨y, hy, h⟩ := Option.bind_eq_some_iff.1 h
    obtain ⟨ys', hys', h⟩ := Option.bind_eq_some_iff.1 h
    cases h
    intro y' hy'
    rcases List.mem_cons.1 hy' with rfl | hy'
    · exact ⟨x, List.mem_cons_self, hy⟩
    · obtain ⟨x', hx', h⟩ := ih hys' y' hy'
      exact ⟨x', List.mem_cons_of_mem _ hx', h⟩

/-- Every round has its result. -/
theorem forall_of_mapM {f : α → Option β} {xs : List α} {ys : List β} (h : xs.mapM f = some ys) :
    ∀ x ∈ xs, ∃ y ∈ ys, f x = some y := by
  induction xs generalizing ys with
  | nil => exact nofun
  | cons x xs ih =>
    rw [List.mapM_cons] at h
    obtain ⟨y, hy, h⟩ := Option.bind_eq_some_iff.1 h
    obtain ⟨ys', hys', h⟩ := Option.bind_eq_some_iff.1 h
    cases h
    intro x' hx'
    rcases List.mem_cons.1 hx' with rfl | hx'
    · exact ⟨y, List.mem_cons_self, hy⟩
    · obtain ⟨y', hy', h⟩ := ih hys' x' hx'
      exact ⟨y', List.mem_cons_of_mem _ hy', h⟩

theorem exists_mapM_forall₂ {f : α → Option β} {R : α → β → Prop} {xs : List α}
    (h : ∀ x ∈ xs, ∃ y, f x = some y ∧ R x y) : ∃ ys, xs.mapM f = some ys ∧ xs.Forall₂ R ys := by
  induction xs with
  | nil => exact ⟨[], rfl, .nil⟩
  | cons x xs ih =>
    obtain ⟨y, hy, hr⟩ := h x List.mem_cons_self
    obtain ⟨ys, hys, hrest⟩ := ih fun x hx => h x (List.mem_cons_of_mem _ hx)
    exact ⟨y :: ys, by rw [List.mapM_cons, hy, hys]; rfl, .cons hr hrest⟩

/-- What each round preserves of the items so far holds of all of them. -/
theorem exists_foldlM {f : β → α → Option β} {P : List α → β → Prop} {xs : List α}
    (hround : ∀ before a after, before ++ a :: after = xs → ∀ b, P before b →
      ∃ b', f b a = some b' ∧ P (before ++ [a]) b') {b : β} (hstart : P [] b) :
    ∃ b', xs.foldlM f b = some b' ∧ P xs b' := by
  suffices hrest : ∀ after before, before ++ after = xs → ∀ b, P before b →
      ∃ b', after.foldlM f b = some b' ∧ P xs b' from hrest xs [] rfl b hstart
  intro after
  induction after with
  | nil =>
    rintro before rfl b hb
    exact ⟨b, rfl, by rwa [List.append_nil]⟩
  | cons a after ih =>
    intro before heq b hb
    obtain ⟨b', hone, hb'⟩ := hround before a after heq b hb
    obtain ⟨b'', hrest, hb''⟩ := ih (before ++ [a]) (by rw [List.append_assoc]; exact heq) b' hb'
    exact ⟨b'', by rw [List.foldlM_cons, hone]; exact hrest, hb''⟩

end PartialLoops
