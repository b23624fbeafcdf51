import Mathlib.Data.List.Chain

/-!
# Walks and their interior

A walk goes from a vertex to another one over its interior.  Where the interior keeps away from both
ends, a vertex is on it exactly when it is reached from the start without the end, and reaches the
end without the start (`exists_interior_iff`).
-/

namespace Walks

open Relation

variable {α : Type*} {r : α → α → Prop} {s t x : α} {interior : List α}

def IsWalk (r : α → α → Prop) (s t : α) (interior : List α) : Prop :=
  List.IsChain r (s :: (interior ++ [t]))

/-- An edge to another vertex than `t`. -/
def Avoids (r : α → α → Prop) (t a b : α) : Prop := r a b ∧ b ≠ t

theorem isWalk_nil : IsWalk r s t [] ↔ r s t := List.isChain_pair

theorem isWalk_cons : IsWalk r s t (x :: interior) ↔ r s x ∧ IsWalk r x t interior :=
  List.isChain_cons_cons

/-- A walk over a vertex is a walk to it and a walk from it. -/
theorem isWalk_append {before after : List α} :
    IsWalk r s t (before ++ x :: after) ↔ IsWalk r s x before ∧ IsWalk r x t after := by
  unfold IsWalk
  rw [List.append_assoc, List.cons_append, List.isChain_cons_split]

theorem IsWalk.reverse (h : IsWalk r s t interior) :
    IsWalk (fun a b => r b a) t s interior.reverse := by
  have hreverse : (s :: (interior ++ [t])).reverse = t :: (interior.reverse ++ [s]) := by simp
  rw [IsWalk, ← hreverse, List.isChain_reverse]
  exact h

/-- The vertices of a walk are reached, those of its interior on the way. -/
theorem IsWalk.reaches (h : IsWalk r s x interior) (havoid : ∀ y ∈ interior, y ≠ t) (hx : x ≠ t) :
    ReflTransGen (Avoids r t) s x := by
  induction interior generalizing s with
  | nil => exact .single ⟨isWalk_nil.1 h, hx⟩
  | cons y interior ih =>
    obtain ⟨hfirst, hrest⟩ := isWalk_cons.1 h
    rw [List.forall_mem_cons] at havoid
    exact .head ⟨hfirst, havoid.1⟩ (ih hrest havoid.2)

/-- A vertex that is reached without `t` is reached without coming back to `s`. -/
theorem exists_isWalk (h : ReflTransGen (Avoids r t) s x) (hne : x ≠ s) :
    ∃ interior, IsWalk r s x interior ∧ ∀ y ∈ interior, y ≠ s ∧ y ≠ t := by
  induction h with
  | refl => exact absurd rfl hne
  | @tail b c hsb hbc ih =>
    by_cases hb : b = s
    · exact ⟨[], isWalk_nil.2 (hb ▸ hbc.1), List.forall_mem_nil _⟩
    · obtain ⟨interior, hwalk, havoid⟩ := ih hb
      refine ⟨interior ++ [b], isWalk_append.2 ⟨hwalk, isWalk_nil.2 hbc.1⟩, fun y hy => ?_⟩
      rcases List.mem_append.1 hy with hy | hy
      · exact havoid y hy
      · rw [List.mem_singleton.1 hy]
        refine ⟨hb, ?_⟩
        rcases hsb.cases_tail with heq | ⟨_, -, hstep⟩
        · exact absurd heq hb
        · exact hstep.2

/-- What lies between two vertices. -/
theorem exists_interior_iff (hne : s ≠ t) :
    (∃ interior, IsWalk r s t interior ∧ (∀ y ∈ interior, y ≠ s ∧ y ≠ t) ∧ x ∈ interior) ↔
      ReflTransGen (Avoids r t) s x ∧ ReflTransGen (Avoids (fun a b => r b a) s) t x := by
  constructor
  · rintro ⟨interior, hwalk, havoid, hx⟩
    obtain ⟨before, after, rfl⟩ := List.append_of_mem hx
    obtain ⟨hbefore, hafter⟩ := isWalk_append.1 hwalk
    refine ⟨hbefore.reaches (fun y hy => ?_) (havoid x hx).2,
      hafter.reverse.reaches (fun y hy => ?_) (havoid x hx).1⟩
    · exact (havoid y (List.mem_append_left _ hy)).2
    · refine (havoid y (List.mem_append_right _ ?_)).1
      exact List.mem_cons_of_mem _ (List.mem_reverse.1 hy)
  · rintro ⟨hforward, hbackward⟩
    have hxt : x ≠ t := by
      rcases hforward.cases_tail with rfl | ⟨_, -, hstep⟩
      · exact hne
      · exact hstep.2
    have hxs : x ≠ s := by
      rcases hbackward.cases_tail with rfl | ⟨_, -, hstep⟩
      · exact hne.symm
      · exact hstep.2
    obtain ⟨before, hbefore, havoid⟩ := exists_isWalk hforward hxs
    obtain ⟨after, hafter, havoid'⟩ := exists_isWalk hbackward hxt
    refine ⟨before ++ x :: after.reverse, isWalk_append.2 ⟨hbefore, hafter.reverse⟩,
      fun y hy => ?_, List.mem_append_right _ List.mem_cons_self⟩
    rcases List.mem_append.1 hy with hy | hy
    · exact havoid y hy
    · rcases List.mem_cons.1 hy with rfl | hy
      · exact ⟨hxs, hxt⟩
      · exact (havoid' y (List.mem_reverse.1 hy)).symm

end Walks
