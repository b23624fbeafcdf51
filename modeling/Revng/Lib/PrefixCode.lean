import Mathlib.Data.List.Basic

/-!
# Prefixes of strings

Two ways to talk about the prefixes of a string.

In the lexicographic order the strings with a given prefix are an interval.  It
starts at the prefix and ends at the prefix followed by enough copies of the largest
letter (`prefix_iff_between`).

When a sequence is encoded letter block by letter block, and no block is a proper
prefix of another, the prefixes of the code are the codes of the prefixes
(`flatMap_prefix_iff`).
-/

namespace PrefixCode

/-! ## Prefixes as intervals -/

section Interval

variable {α : Type*} [LT α] [Std.Asymm (α := α) (· < ·)] [Std.Trichotomous (α := α) (· < ·)]
  {top : α}

theorem le_replicate_top (htop : ∀ a, ¬ top < a) :
    ∀ {l : List α} {n : Nat}, l.length ≤ n → l ≤ List.replicate n top
  | [], _, _ => List.nil_le _
  | a :: l, n + 1, h => by
      rw [List.replicate_succ, List.cons_le_cons_iff]
      by_cases ha : a < top
      · exact Or.inl ha
      · exact Or.inr ⟨Std.Trichotomous.trichotomous _ _ ha (htop a),
          le_replicate_top htop (Nat.le_of_succ_le_succ h)⟩

/-- The strings that start with `d` lie between `d` and `d` followed by copies of the
largest letter. -/
theorem prefix_iff_between (htop : ∀ a, ¬ top < a) {n : Nat} :
    ∀ {d l : List α}, l.length ≤ d.length + n →
      (d <+: l ↔ d ≤ l ∧ l ≤ d ++ List.replicate n top)
  | [], l, h => by
      have hle : l ≤ List.replicate n top := le_replicate_top htop (by simpa using h)
      simpa using hle
  | a :: d, [], _ => by simp
  | a :: d, b :: l, h => by
      have hlen : l.length ≤ d.length + n := by
        simp only [List.length_cons] at h
        omega
      rw [List.cons_prefix_cons, prefix_iff_between htop hlen, List.cons_append,
        List.cons_le_cons_iff, List.cons_le_cons_iff]
      constructor
      · rintro ⟨rfl, h₁, h₂⟩
        exact ⟨Or.inr ⟨rfl, h₁⟩, Or.inr ⟨rfl, h₂⟩⟩
      · rintro ⟨hab | ⟨rfl, h₁⟩, hba | ⟨hba, h₂⟩⟩
        · exact absurd hba (Std.Asymm.asymm _ _ hab)
        · exact absurd (hba ▸ hab) (Std.Irrefl.irrefl _)
        · exact absurd hba (Std.Irrefl.irrefl _)
        · exact ⟨rfl, h₁, h₂⟩

end Interval

/-! ## Prefixes of codes -/

section Code

variable {σ α : Type*} {enc : σ → List α} {P : σ → Prop}

/-- No block is empty, and a string starts with at most one block. -/
structure Delimited (enc : σ → List α) (P : σ → Prop) : Prop where
  ne_nil : ∀ s, P s → enc s ≠ []
  inj : ∀ s t x y, P s → P t → enc s ++ x = enc t ++ y → s = t

theorem flatMap_prefix_iff (h : Delimited enc P) :
    ∀ {ss ts : List σ}, (∀ s ∈ ss, P s) → (∀ t ∈ ts, P t) →
      (ss.flatMap enc <+: ts.flatMap enc ↔ ss <+: ts)
  | [], ts, _, _ => by simp
  | s :: ss, [], hs, _ => by
      have hne : enc s ≠ [] := h.ne_nil s (hs s (by simp))
      simp [hne]
  | s :: ss, t :: ts, hs, ht => by
      have ih := flatMap_prefix_iff h (fun a ha => hs a (List.mem_cons_of_mem _ ha))
        (fun a ha => ht a (List.mem_cons_of_mem _ ha)) 
      rw [List.flatMap_cons, List.flatMap_cons, List.cons_prefix_cons]
      constructor
      · rintro ⟨r, hr⟩
        rw [List.append_assoc] at hr
        obtain rfl : s = t := h.inj s t _ _ (hs s (by simp)) (ht t (by simp)) hr
        exact ⟨rfl, ih.mp ⟨r, List.append_cancel_left hr⟩⟩
      · rintro ⟨rfl, hp⟩
        exact List.prefix_append_right_inj (enc s) |>.mpr (ih.mpr hp)

/-- A sequence is determined by its code. -/
theorem flatMap_injective (h : Delimited enc P) {ss ts : List σ} (hs : ∀ s ∈ ss, P s)
    (ht : ∀ t ∈ ts, P t) (heq : ss.flatMap enc = ts.flatMap enc) : ss = ts := by
  have h₁ : ss <+: ts := (flatMap_prefix_iff h hs ht).mp (heq ▸ List.prefix_rfl)
  have h₂ : ts <+: ss := (flatMap_prefix_iff h ht hs).mp (heq ▸ List.prefix_rfl)
  exact h₁.eq_of_length (Nat.le_antisymm h₁.length_le h₂.length_le)

end Code

end PrefixCode
