import Mathlib.Data.Finset.Erase
import Mathlib.Data.Finset.Insert

/-!
# Positions with two holders

A position is used by its main holder or, if it has one, by its other holder.  `settle` goes over the
positions from the last one to the first.  It leaves a position with both holders to the main one, and
gives an unused position to the main one when a later position had exactly one holder.

The positions then have one holder each.  They have no holes if every unused position that is followed
by a used one is also followed by one with exactly one holder (`noHoles_settle_iff`), and then `settle` has
nothing left to do (`settle_settle`).
-/

namespace SharedPositions

variable {α : Type*}

structure Position (α : Type*) where
  main : α
  other : Option α := none

namespace Position

def holders (p : Position α) : List α := p.main :: p.other.toList

def Used (s : Finset α) (p : Position α) : Prop := p.main ∈ s ∨ ∃ a ∈ p.other, a ∈ s

def Clashes (s : Finset α) (p : Position α) : Prop := p.main ∈ s ∧ ∃ a ∈ p.other, a ∈ s

/-- Exactly one holder. -/
def Sole (s : Finset α) (p : Position α) : Prop := p.Used s ∧ ¬p.Clashes s

theorem used_congr {s t : Finset α} {p : Position α} (h : ∀ a ∈ p.holders, a ∈ s ↔ a ∈ t) :
    (p.Used s ↔ p.Used t) ∧ (p.Clashes s ↔ p.Clashes t) := by
  have hmain := h p.main List.mem_cons_self
  have hother : (∃ a ∈ p.other, a ∈ s) ↔ ∃ a ∈ p.other, a ∈ t :=
    exists_congr fun a => and_congr_right fun ha =>
      h a (List.mem_cons_of_mem _ (Option.mem_toList.2 ha))
  exact ⟨or_congr hmain hother, and_congr hmain hother⟩

theorem sole_congr {s t : Finset α} {p : Position α} (h : ∀ a ∈ p.holders, a ∈ s ↔ a ∈ t) :
    p.Sole s ↔ p.Sole t :=
  and_congr (used_congr h).1 (not_congr (used_congr h).2)

end Position

/-- Some position at the index meets the condition. -/
def At (P : Position α → Prop) (ps : List (Position α)) (i : Nat) : Prop :=
  ∃ p, ps[i]? = some p ∧ P p

/-- What is used is used from the beginning on. -/
def NoHoles (used : Nat → Prop) : Prop := ∀ i j, i < j → used j → used i

/-- An unused position in front of a used one is also in front of one with exactly one holder. -/
def Anchored (s : Finset α) (ps : List (Position α)) : Prop :=
  ∀ i j, i < j → At (Position.Used s) ps j →
    At (Position.Used s) ps i ∨ ∃ k, i < k ∧ At (Position.Sole s) ps k

variable {p : Position α} {ps : List (Position α)}

theorem At.mono {P Q : Position α → Prop} {i : Nat} (h : At P ps i) (himp : ∀ p, P p → Q p) :
    At Q ps i := by
  obtain ⟨p, hp, hP⟩ := h
  exact ⟨p, hp, himp p hP⟩

theorem At.exists_of_lt {P : Position α → Prop} {i j : Nat} (h : At P ps j) (hlt : i < j) :
    ∃ p, ps[i]? = some p := by
  obtain ⟨q, hq, -⟩ := h
  have hlength := (List.getElem?_eq_some_iff.1 hq).1
  exact ⟨ps[i], List.getElem?_eq_getElem (hlt.trans hlength)⟩

theorem exists_at_succ (P : Position α → Prop) (i : Nat) :
    (∃ j, i + 1 < j ∧ At P (p :: ps) j) ↔ ∃ j, i < j ∧ At P ps j := by
  constructor
  · rintro ⟨_ | j, hlt, hat⟩
    · omega
    · exact ⟨j, Nat.lt_of_succ_lt_succ hlt, hat⟩
  · rintro ⟨j, hlt, hat⟩
    exact ⟨j + 1, Nat.succ_lt_succ hlt, hat⟩

theorem exists_at_zero (P : Position α → Prop) :
    (∃ j, 0 < j ∧ At P (p :: ps) j) ↔ ∃ j, At P ps j := by
  constructor
  · rintro ⟨_ | j, hlt, hat⟩
    · omega
    · exact ⟨j, hat⟩
  · rintro ⟨j, hat⟩
    exact ⟨j + 1, Nat.succ_pos j, hat⟩

variable [DecidableEq α]

/-! ## One position -/

/-- The set, and whether earlier positions have to be used. -/
def step (p : Position α) (x : Finset α × Bool) : Finset α × Bool :=
  match p.other with
  | some a =>
      if p.main ∈ x.1 then if a ∈ x.1 then (x.1.erase a, x.2) else (x.1, true)
      else if a ∈ x.1 then (x.1, true)
      else if x.2 then (insert p.main x.1, x.2) else x
  | none =>
      if p.main ∈ x.1 then (x.1, true)
      else if x.2 then (insert p.main x.1, x.2) else x

variable {x : Finset α × Bool} {a : α} {s : Finset α}

theorem step_snd : (step p x).2 = true ↔ x.2 = true ∨ p.Sole x.1 := by
  obtain ⟨main, _ | a⟩ := p
  · by_cases hmain : main ∈ x.1
    · simp [step, hmain, Position.Sole, Position.Used, Position.Clashes]
    · cases hx : x.2 <;> simp [step, hmain, hx, Position.Sole, Position.Used]
  · by_cases hmain : main ∈ x.1 <;> by_cases ha : a ∈ x.1
    · simp [step, hmain, ha, Position.Sole, Position.Clashes]
    · simp [step, hmain, ha, Position.Sole, Position.Used, Position.Clashes]
    · simp [step, hmain, ha, Position.Sole, Position.Used, Position.Clashes]
    · cases hx : x.2 <;> simp [step, hmain, ha, hx, Position.Sole, Position.Used]

theorem mem_step_of_notMem (h : a ∉ p.holders) : a ∈ (step p x).1 ↔ a ∈ x.1 := by
  obtain ⟨main, other⟩ := p
  rw [Position.holders, List.mem_cons, not_or] at h
  rcases other with _ | b
  · simp only [step]
    split_ifs <;> simp [h.1]
  · have hne : a ≠ b := fun heq => h.2 (by simp [heq])
    simp only [step]
    split_ifs <;> simp [h.1, hne]

/-- The main holder stays, or it is put in an unused position that has to be used. -/
theorem main_mem_step (h : p.holders.Nodup) :
    p.main ∈ (step p x).1 ↔ p.main ∈ x.1 ∨ (¬p.Used x.1 ∧ x.2 = true) := by
  obtain ⟨main, _ | a⟩ := p
  · by_cases hmain : main ∈ x.1
    · simp [step, hmain]
    · cases hx : x.2 <;> simp [step, hmain, hx, Position.Used]
  · have hne : main ≠ a := by simpa [Position.holders] using h
    by_cases hmain : main ∈ x.1 <;> by_cases ha : a ∈ x.1
    · simp [step, hmain, ha, hne]
    · simp [step, hmain, ha]
    · simp [step, hmain, ha, Position.Used]
    · cases hx : x.2 <;> simp [step, hmain, ha, hx, Position.Used]

/-- The other holder stays when it is the only one. -/
theorem other_mem_step (h : p.holders.Nodup) (ha : a ∈ p.other) :
    a ∈ (step p x).1 ↔ a ∈ x.1 ∧ p.main ∉ x.1 := by
  obtain ⟨main, other⟩ := p
  obtain rfl := Option.mem_def.1 ha
  have hne : main ≠ a := by simpa [Position.holders] using h
  by_cases hmain : main ∈ x.1 <;> by_cases ha : a ∈ x.1
  · simp [step, hmain, ha]
  · simp [step, hmain, ha]
  · simp [step, hmain, ha]
  · cases hx : x.2 <;> simp [step, hmain, ha, hx, hne.symm]

theorem subset_step (h : a ∈ (step p x).1) : a ∈ x.1 ∨ a = p.main := by
  obtain ⟨main, _ | b⟩ := p
  · simp only [step] at h
    split_ifs at h
    · exact .inl h
    · exact (Finset.mem_insert.1 h).symm
    · exact .inl h
  · simp only [step] at h
    split_ifs at h
    · exact .inl (Finset.mem_of_mem_erase h)
    · exact .inl h
    · exact .inl h
    · exact (Finset.mem_insert.1 h).symm
    · exact .inl h

/-! ## All positions -/

/-- From the last position to the first. -/
def settle (ps : List (Position α)) (x : Finset α × Bool) : Finset α × Bool := ps.foldr step x

theorem mem_settle_of_notMem (h : a ∉ ps.flatMap Position.holders) :
    a ∈ (settle ps x).1 ↔ a ∈ x.1 := by
  induction ps with
  | nil => exact .rfl
  | cons p ps ih =>
    rw [List.flatMap_cons, List.mem_append, not_or] at h
    exact (mem_step_of_notMem h.1).trans (ih h.2)

/-- Nothing is put in but main holders. -/
theorem subset_settle (h : a ∈ (settle ps x).1) : a ∈ x.1 ∨ ∃ p ∈ ps, a = p.main := by
  induction ps with
  | nil => exact .inl h
  | cons p ps ih =>
    rcases subset_step h with hmem | rfl
    · rcases ih hmem with hx | ⟨q, hq, rfl⟩
      · exact .inl hx
      · exact .inr ⟨q, List.mem_cons_of_mem _ hq, rfl⟩
    · exact .inr ⟨p, List.mem_cons_self, rfl⟩

/-! ## One of the positions -/

variable (hnodup : (ps.flatMap Position.holders).Nodup)

theorem holders_settle_cons (hnodup : ((p :: ps).flatMap Position.holders).Nodup) :
    ∀ a ∈ p.holders, a ∈ (settle ps x).1 ↔ a ∈ x.1 := fun a ha =>
  mem_settle_of_notMem fun hmem =>
    (List.nodup_append.1 (List.flatMap_cons ▸ hnodup)).2.2 a ha a hmem rfl

include hnodup in
theorem settle_snd :
    (settle ps x).2 = true ↔ x.2 = true ∨ ∃ j, At (Position.Sole x.1) ps j := by
  induction ps with
  | nil => simp [settle, At]
  | cons p ps ih =>
    have htail := (List.nodup_append.1 (List.flatMap_cons ▸ hnodup)).2.1
    rw [settle, List.foldr_cons, step_snd, ← settle, ih htail,
      Position.sole_congr (holders_settle_cons hnodup), or_assoc]
    refine or_congr_right ⟨?_, ?_⟩
    · rintro (⟨j, q, hq, hsole⟩ | hsole)
      · exact ⟨j + 1, q, hq, hsole⟩
      · exact ⟨0, p, rfl, hsole⟩
    · rintro ⟨_ | j, q, hq, hsole⟩
      · obtain rfl := Option.some.inj hq
        exact .inr hsole
      · exact .inl ⟨j, q, hq, hsole⟩

include hnodup in
/-- What becomes of a position. -/
theorem mem_settle {i : Nat} (hp : ps[i]? = some p) :
    (p.main ∈ (settle ps x).1 ↔ p.main ∈ x.1 ∨
      (¬p.Used x.1 ∧ (x.2 = true ∨ ∃ j, i < j ∧ At (Position.Sole x.1) ps j))) ∧
    ∀ a ∈ p.other, (a ∈ (settle ps x).1 ↔ a ∈ x.1 ∧ p.main ∉ x.1) := by
  induction ps generalizing i with
  | nil => cases hp
  | cons q ps ih =>
    obtain ⟨hq, htail, hapart⟩ := List.nodup_append.1 (List.flatMap_cons ▸ hnodup)
    have hcons := holders_settle_cons (x := x) hnodup
    cases i with
    | zero =>
      obtain rfl := Option.some.inj hp
      refine ⟨?_, fun a ha => ?_⟩
      · rw [settle, List.foldr_cons, ← settle, main_mem_step hq,
          hcons q.main List.mem_cons_self, (Position.used_congr hcons).1, settle_snd htail,
          exists_at_zero]
      · rw [settle, List.foldr_cons, ← settle, other_mem_step hq ha,
          hcons q.main List.mem_cons_self,
          hcons a (List.mem_cons_of_mem _ (Option.mem_toList.2 ha))]
    | succ i =>
      have hp' : ps[i]? = some p := hp
      have hstep : ∀ a ∈ p.holders, a ∈ (settle (q :: ps) x).1 ↔ a ∈ (settle ps x).1 :=
        fun a ha => mem_step_of_notMem fun hmem => hapart a hmem a
          (List.mem_flatMap.2 ⟨p, List.mem_of_getElem? hp', ha⟩) rfl
      obtain ⟨hmain, hother⟩ := ih htail hp'
      refine ⟨?_, fun a ha => ?_⟩
      · rw [hstep p.main List.mem_cons_self, hmain, exists_at_succ]
      · rw [hstep a (List.mem_cons_of_mem _ (Option.mem_toList.2 ha)), hother a ha]

/-! ## The settled set -/

section

include hnodup

theorem used_settle {i : Nat} (hp : ps[i]? = some p) :
    p.Used (settle ps (s, false)).1 ↔
      p.Used s ∨ ∃ j, i < j ∧ At (Position.Sole s) ps j := by
  obtain ⟨hmain, hother⟩ := mem_settle (x := (s, false)) hnodup hp
  rw [Position.Used, hmain]
  constructor
  · rintro ((h | ⟨-, h | h⟩) | ⟨a, ha, h⟩)
    · exact .inl (.inl h)
    · cases h
    · exact .inr h
    · exact .inl (.inr ⟨a, ha, ((hother a ha).1 h).1⟩)
  · intro h
    by_cases hused : p.Used s
    · by_cases hmem : p.main ∈ s
      · exact .inl (.inl hmem)
      · obtain ⟨a, ha, h⟩ := hused.resolve_left hmem
        exact .inr ⟨a, ha, (hother a ha).2 ⟨h, hmem⟩⟩
    · exact .inl (.inr ⟨hused, .inr (h.resolve_left hused)⟩)

/-- No position has two holders. -/
theorem sole_settle {i : Nat} (hp : ps[i]? = some p) :
    p.Sole (settle ps (s, false)).1 ↔ p.Used (settle ps (s, false)).1 := by
  refine and_iff_left_of_imp fun _ => ?_
  rintro ⟨h, a, ha, h'⟩
  obtain ⟨hmain, hother⟩ := mem_settle (x := (s, false)) hnodup hp
  obtain ⟨hmem, hnot⟩ := (hother a ha).1 h'
  rcases hmain.1 h with h | ⟨hunused, -⟩
  · exact hnot h
  · exact hunused (.inr ⟨a, ha, hmem⟩)

theorem at_used_settle_iff {i : Nat} :
    At (Position.Used (settle ps (s, false)).1) ps i ↔
      At (fun p => p.Used s ∨ ∃ j, i < j ∧ At (Position.Sole s) ps j) ps i :=
  exists_congr fun _ => and_congr_right fun hp => used_settle hnodup hp

theorem noHoles_settle_iff :
    NoHoles (At (Position.Used (settle ps (s, false)).1) ps) ↔ Anchored s ps := by
  constructor
  · intro h i j hlt hused
    have hsettled := h i j hlt ((at_used_settle_iff hnodup).2 (hused.mono fun _ => .inl))
    obtain ⟨p, hp, hused | hsole⟩ := (at_used_settle_iff hnodup).1 hsettled
    · exact .inl ⟨p, hp, hused⟩
    · exact .inr hsole
  · intro h i j hlt hused
    obtain ⟨p, hp⟩ := hused.exists_of_lt hlt
    refine (at_used_settle_iff hnodup).2 ⟨p, hp, ?_⟩
    obtain ⟨q, hq, hused | ⟨k, hk, hsole⟩⟩ := (at_used_settle_iff hnodup).1 hused
    · rcases h i j hlt ⟨q, hq, hused⟩ with ⟨p', hp', hused'⟩ | hsole
      · obtain rfl := Option.some.inj (hp.symm.trans hp')
        exact .inl hused'
      · exact .inr hsole
    · exact .inr ⟨k, hlt.trans hk, hsole⟩

/-- Nothing is left to do. -/
theorem settle_settle (h : Anchored s ps) :
    (settle ps ((settle ps (s, false)).1, false)).1 = (settle ps (s, false)).1 := by
  ext a
  by_cases hmem : a ∈ ps.flatMap Position.holders
  · obtain ⟨p, hp, ha⟩ := List.mem_flatMap.1 hmem
    obtain ⟨i, hi⟩ := List.mem_iff_getElem?.1 hp
    obtain ⟨hmain, hother⟩ := mem_settle (x := ((settle ps (s, false)).1, false)) hnodup hi
    rcases List.mem_cons.1 ha with rfl | ha
    · refine hmain.trans (or_iff_left ?_)
      rintro ⟨hunused, hfalse | ⟨j, hlt, q, hq, hsole⟩⟩
      · cases hfalse
      · obtain ⟨p', hp', hused⟩ :=
          (noHoles_settle_iff hnodup).2 h i j hlt ⟨q, hq, hsole.1⟩
        obtain rfl := Option.some.inj (hi.symm.trans hp')
        exact hunused hused
    · have ha := Option.mem_toList.1 ha
      refine (hother a ha).trans (and_iff_left_of_imp fun hmem hmain => ?_)
      exact ((sole_settle hnodup hi).2 (.inl hmain)).2 ⟨hmain, a, ha, hmem⟩
  · exact mem_settle_of_notMem hmem

/-- Only other holders are taken out, where the main one is a holder as well. -/
theorem mem_settle_of_mem {a : α} (ha : a ∈ s) :
    a ∈ (settle ps (s, false)).1 ∨ ∃ p ∈ ps, a ∈ p.other ∧ p.main ∈ s := by
  by_cases hmem : a ∈ ps.flatMap Position.holders
  · obtain ⟨p, hp, hholder⟩ := List.mem_flatMap.1 hmem
    obtain ⟨i, hi⟩ := List.mem_iff_getElem?.1 hp
    obtain ⟨hmain, hother⟩ := mem_settle (x := (s, false)) hnodup hi
    rcases List.mem_cons.1 hholder with rfl | hholder
    · exact .inl (hmain.2 (.inl ha))
    · have hholder := Option.mem_toList.1 hholder
      by_cases hmem : p.main ∈ s
      · exact .inr ⟨p, hp, hholder, hmem⟩
      · exact .inl ((hother a hholder).2 ⟨ha, hmem⟩)
  · exact .inl ((mem_settle_of_notMem hmem).2 ha)

end

end SharedPositions
