import Mathlib.Data.List.Basic

/-!
# Spans with loose ends

The spans of a list are placed one after another.  A span holds its content and then some padding, which
the next span may use.  `Loose` says that no span starts before the contents of the earlier ones have
ended, and that if a span starts in the padding of an earlier one, so does the one right after that.
So padding has to be given up only where the next span starts in it (`Loose.stop_le`).
-/

namespace LooseSpans

variable {α : Type*} {placed : α → Prop} {start content stop : α → ℕ} {a b : α} {l : List α}

def Loose (placed : α → Prop) (start content stop : α → ℕ) : List α → Prop
  | [] => True
  | a :: rest =>
    Loose placed start content stop rest ∧
      (placed a → ∀ b ∈ rest, placed b → content a ≤ start b ∧
        (start b < stop a → ∃ next ∈ rest.head?, placed next ∧ start next < stop a))

theorem loose_nil : Loose placed start content stop [] := trivial

theorem Loose.tail (h : Loose placed start content stop (a :: l)) :
    Loose placed start content stop l := h.1

/-- A span that is not placed does not matter. -/
theorem Loose.append_of_not_placed (h : Loose placed start content stop l) (hb : ¬ placed b) :
    Loose placed start content stop (l ++ [b]) := by
  induction l with
  | nil => exact ⟨trivial, fun _ _ hmem => absurd hmem List.not_mem_nil⟩
  | cons a rest ih =>
    refine ⟨ih h.1, fun ha c hc hplaced => ?_⟩
    rcases List.mem_append.1 hc with hc | hc
    · refine ⟨(h.2 ha c hc hplaced).1, fun hlt => ?_⟩
      obtain ⟨next, hnext, hn⟩ := (h.2 ha c hc hplaced).2 hlt
      exact ⟨next, by simp [List.head?_append, Option.mem_def.1 hnext], hn⟩
    · rw [List.mem_singleton.1 hc] at hplaced
      exact absurd hplaced hb

/-- A span that starts in the padding of an earlier one comes after the last span and not before it. -/
theorem Loose.append (h : Loose placed start content stop l)
    (hcontent : ∀ a ∈ l, placed a → content a ≤ start b)
    (hlast : (∃ a ∈ l, placed a ∧ start b < stop a) →
      ∃ last ∈ l.getLast?, placed last ∧ start last ≤ start b) :
    Loose placed start content stop (l ++ [b]) := by
  induction l with
  | nil => exact ⟨trivial, fun _ _ hmem => absurd hmem List.not_mem_nil⟩
  | cons a rest ih =>
    have hrest : Loose placed start content stop (rest ++ [b]) := by
      refine ih h.1 (fun c hc => hcontent c (List.mem_cons_of_mem a hc)) ?_
      rintro ⟨c, hc, hplaced, hlt⟩
      obtain ⟨last, hmem, hl⟩ := hlast ⟨c, List.mem_cons_of_mem a hc, hplaced, hlt⟩
      rw [List.getLast?_cons_of_ne_nil (List.ne_nil_of_mem hc)] at hmem
      exact ⟨last, hmem, hl⟩
    refine ⟨hrest, fun ha c hc hplaced => ?_⟩
    rcases List.mem_append.1 hc with hc | hc
    · refine ⟨(h.2 ha c hc hplaced).1, fun hlt => ?_⟩
      obtain ⟨next, hnext, hn⟩ := (h.2 ha c hc hplaced).2 hlt
      exact ⟨next, by simp [List.head?_append, Option.mem_def.1 hnext], hn⟩
    · rw [List.mem_singleton.1 hc] at hplaced ⊢
      refine ⟨hcontent a List.mem_cons_self ha, fun hlt => ?_⟩
      cases rest with
      | nil => exact ⟨b, rfl, hplaced, hlt⟩
      | cons c rest =>
        obtain ⟨last, hmem, hl, hle⟩ := hlast ⟨a, List.mem_cons_self, ha, hlt⟩
        rw [List.getLast?_cons_cons] at hmem
        have hlast := List.mem_of_getLast? hmem
        obtain ⟨next, hnext, hn⟩ := (h.2 ha last hlast hl).2 (Nat.lt_of_le_of_lt hle hlt)
        exact ⟨next, by simpa using hnext, hn⟩

theorem Loose.content_le (h : Loose placed start content stop (a :: l)) (ha : placed a) (hb : b ∈ l)
    (hplaced : placed b) : content a ≤ start b :=
  (h.2 ha b hb hplaced).1

/-- The padding is safe from all spans if it is safe from the next one. -/
theorem Loose.stop_le (h : Loose placed start content stop (a :: l)) (ha : placed a)
    (hnext : ∀ next ∈ l.head?, placed next → stop a ≤ start next) (hb : b ∈ l)
    (hplaced : placed b) : stop a ≤ start b := by
  by_contra hlt
  obtain ⟨next, hmem, hn, hstart⟩ := (h.2 ha b hb hplaced).2 (Nat.lt_of_not_le hlt)
  exact absurd (hnext next hmem hn) (Nat.not_le_of_lt hstart)

end LooseSpans
