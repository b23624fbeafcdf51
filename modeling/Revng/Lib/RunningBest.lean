import Mathlib.Data.List.Perm.Basic
import Mathlib.Order.Lattice

/-!
# The best of a list, found in one pass

`best` goes through a list and keeps the best element so far.  Elements are compared by the value of
a key when the keys differ, and by a rank when they are the same key.

Two keys can have one value.  Then the element that comes first stays, so what is found can depend
on the order.  `best_perm_iff` says exactly when it does not.
-/

namespace RunningBest

variable {α κ ν ρ : Type*} [LinearOrder ν] [LinearOrder ρ]
variable (key : α → κ) (value : κ → ν) (rank : α → ρ)

/-- No element of the list has a greater value. -/
def Unbeaten (xs : List α) (a : α) : Prop := a ∈ xs ∧ ∀ x ∈ xs, value (key x) ≤ value (key a)

/-- No other element of the greatest value has a lower rank. -/
def Leading (xs : List α) (a : α) : Prop :=
  Unbeaten key value xs a ∧ ∀ x, Unbeaten key value xs x → rank a ≤ rank x

/-- The elements of the greatest value have one key, and the ones of the lowest rank among them are
one element. -/
def Determined (xs : List α) : Prop :=
  (∀ a b, Unbeaten key value xs a → Unbeaten key value xs b → key a = key b) ∧
    ∀ a b, Leading key value rank xs a → Leading key value rank xs b → a = b

/-- The best of the elements seen so far: none has a greater value, and none with the same key a
lower rank. -/
def Holds (seen : List α) (a : α) : Prop :=
  Unbeaten key value seen a ∧ ∀ x ∈ seen, key x = key a → rank a ≤ rank x

variable {key value} in
theorem unbeaten_perm {xs ys : List α} (h : xs.Perm ys) {a : α} :
    Unbeaten key value xs a ↔ Unbeaten key value ys a := by
  simp only [Unbeaten, h.mem_iff]

/-! ## One pass -/

variable [DecidableEq κ]

/-- Whether a new element takes the place of the old one. -/
def replaces (old new : α) : Bool :=
  if key new ≠ key old then value (key old) < value (key new) else rank new < rank old

def step (old new : α) : α := if replaces key value rank old new then new else old

def best (first : α) (rest : List α) : α := rest.foldl (step key value rank) first

/-! ## One step -/

variable {key value rank}

variable (key value rank) in
theorem step_cases (old new : α) :
    (step key value rank old new = new ∧ value (key old) < value (key new)) ∨
      (step key value rank old new = new ∧ key new = key old ∧ rank new < rank old) ∨
      (step key value rank old new = old ∧ value (key new) ≤ value (key old) ∧
        (key new = key old → rank old ≤ rank new)) := by
  by_cases hkey : key new = key old
  · by_cases hrank : rank new < rank old
    · exact .inr (.inl ⟨by simp [step, replaces, hkey, hrank], hkey, hrank⟩)
    · exact .inr (.inr ⟨by simp [step, replaces, hkey, hrank], by rw [hkey],
        fun _ => not_lt.1 hrank⟩)
  · by_cases hvalue : value (key old) < value (key new)
    · exact .inl ⟨by simp [step, replaces, hkey, hvalue], hvalue⟩
    · exact .inr (.inr ⟨by simp [step, replaces, hkey, hvalue], not_lt.1 hvalue,
        fun h => absurd h hkey⟩)

theorem holds_step {seen : List α} {old new : α} (h : Holds key value rank seen old) :
    Holds key value rank (seen ++ [new]) (step key value rank old new) := by
  obtain ⟨⟨hmem, hvalue⟩, hrank⟩ := h
  rcases step_cases key value rank old new with
    ⟨heq, hlt⟩ | ⟨heq, hkey, hlt⟩ | ⟨heq, hle, hnew⟩
  · rw [heq]
    refine ⟨⟨by simp, fun x hx => ?_⟩, fun x hx hxkey => ?_⟩
    · rcases List.mem_append.1 hx with hx | hx
      · exact (hvalue x hx).trans hlt.le
      · rw [List.mem_singleton.1 hx]
    · rcases List.mem_append.1 hx with hx | hx
      · exact absurd (hvalue x hx) (by rw [hxkey]; exact not_le.2 hlt)
      · rw [List.mem_singleton.1 hx]
  · rw [heq]
    refine ⟨⟨by simp, fun x hx => ?_⟩, fun x hx hxkey => ?_⟩
    · rcases List.mem_append.1 hx with hx | hx
      · exact hkey ▸ hvalue x hx
      · rw [List.mem_singleton.1 hx]
    · rcases List.mem_append.1 hx with hx | hx
      · exact hlt.le.trans (hrank x hx (hxkey.trans hkey))
      · rw [List.mem_singleton.1 hx]
  · rw [heq]
    refine ⟨⟨by simp [hmem], fun x hx => ?_⟩, fun x hx hxkey => ?_⟩
    · rcases List.mem_append.1 hx with hx | hx
      · exact hvalue x hx
      · rwa [List.mem_singleton.1 hx]
    · rcases List.mem_append.1 hx with hx | hx
      · exact hrank x hx hxkey
      · rw [List.mem_singleton.1 hx] at hxkey ⊢
        exact hnew hxkey

/-! ## The whole list -/

theorem holds_foldl {seen : List α} {a : α} (h : Holds key value rank seen a) (rest : List α) :
    Holds key value rank (seen ++ rest) (rest.foldl (step key value rank) a) := by
  induction rest generalizing seen a with
  | nil => rwa [List.append_nil]
  | cons x rest ih =>
    rw [List.append_cons]
    exact ih (holds_step h)

variable (key value rank) in
theorem holds_best (first : α) (rest : List α) :
    Holds key value rank (first :: rest) (best key value rank first rest) := by
  have hfirst : Holds key value rank [first] first := by
    refine ⟨⟨List.mem_singleton_self first, fun x hx => ?_⟩, fun x hx _ => ?_⟩
    · rw [List.mem_singleton.1 hx]
    · rw [List.mem_singleton.1 hx]
  exact holds_foldl hfirst rest

/-- The first element keeps its key when nothing has a greater value. -/
theorem key_best {first : α} {rest : List α}
    (h : ∀ x ∈ rest, value (key x) ≤ value (key first)) :
    key (best key value rank first rest) = key first := by
  induction rest generalizing first with
  | nil => rfl
  | cons x rest ih =>
    rw [List.forall_mem_cons] at h
    have hstep : key (step key value rank first x) = key first := by
      rcases step_cases key value rank first x with
        ⟨-, hlt⟩ | ⟨heq, hkey, -⟩ | ⟨heq, -⟩
      · exact absurd h.1 (not_le.2 hlt)
      · rw [heq, hkey]
      · rw [heq]
    exact (ih (by rw [hstep]; exact h.2)).trans hstep

/-- The first element stays when nothing has a greater value, or the same key and a lower rank. -/
theorem best_eq_first {first : α} {rest : List α}
    (h : ∀ x ∈ rest, value (key x) ≤ value (key first))
    (hrank : ∀ x ∈ rest, key x = key first → rank first ≤ rank x) :
    best key value rank first rest = first := by
  induction rest with
  | nil => rfl
  | cons x rest ih =>
    rw [List.forall_mem_cons] at h hrank
    have hstep : step key value rank first x = first := by
      rcases step_cases key value rank first x with
        ⟨-, hlt⟩ | ⟨-, hkey, hlt⟩ | ⟨heq, -⟩
      · exact absurd h.1 (not_le.2 hlt)
      · exact absurd (hrank.1 hkey) (not_le.2 hlt)
      · exact heq
    calc best key value rank first (x :: rest)
        = best key value rank (step key value rank first x) rest := rfl
      _ = best key value rank first rest := by rw [hstep]
      _ = first := ih h.2 hrank.2

/-! ## Orders -/

/-- With one key the best element is leading. -/
theorem leading_best {xs : List α} (h : Determined key value rank xs) {first : α} {rest : List α}
    (hperm : (first :: rest).Perm xs) :
    Leading key value rank xs (best key value rank first rest) := by
  obtain ⟨hunbeaten, hrank⟩ := holds_best key value rank first rest
  have hbest := (unbeaten_perm hperm).1 hunbeaten
  exact ⟨hbest, fun x hx => hrank x (hperm.mem_iff.2 hx.1) (h.1 x _ hx hbest)⟩

/-- What is found is the same for every order exactly when the list determines it. -/
theorem best_perm_iff (xs : List α) :
    (∀ first rest first' rest', (first :: rest).Perm xs → (first' :: rest').Perm xs →
        best key value rank first rest = best key value rank first' rest') ↔
      Determined key value rank xs := by
  constructor
  · intro h
    -- Each element can be put in front of the others.
    have hfront : ∀ a ∈ xs, ∃ rest, (a :: rest).Perm xs := by
      intro a ha
      obtain ⟨before, after, rfl⟩ := List.append_of_mem ha
      exact ⟨before ++ after, List.perm_middle.symm⟩
    have hrest : ∀ {a rest}, Unbeaten key value xs a → (a :: rest).Perm xs →
        ∀ x ∈ rest, value (key x) ≤ value (key a) :=
      fun ha hperm x hx => ha.2 x (hperm.mem_iff.1 (List.mem_cons_of_mem _ hx))
    have hkey : ∀ a b, Unbeaten key value xs a → Unbeaten key value xs b → key a = key b := by
      intro a b ha hb
      obtain ⟨restA, hpermA⟩ := hfront a ha.1
      obtain ⟨restB, hpermB⟩ := hfront b hb.1
      calc key a = key (best key value rank a restA) := (key_best (hrest ha hpermA)).symm
        _ = key (best key value rank b restB) := congrArg key (h _ _ _ _ hpermA hpermB)
        _ = key b := key_best (hrest hb hpermB)
    have hbest : ∀ {a rest}, Leading key value rank xs a → (a :: rest).Perm xs →
        best key value rank a rest = a := by
      intro a rest ha hperm
      refine best_eq_first (hrest ha.1 hperm) fun x hx hxkey => ?_
      have hmem : x ∈ xs := hperm.mem_iff.1 (List.mem_cons_of_mem _ hx)
      exact ha.2 x ⟨hmem, fun y hy => hxkey ▸ ha.1.2 y hy⟩
    refine ⟨hkey, fun a b ha hb => ?_⟩
    obtain ⟨restA, hpermA⟩ := hfront a ha.1.1
    obtain ⟨restB, hpermB⟩ := hfront b hb.1.1
    calc a = best key value rank a restA := (hbest ha hpermA).symm
      _ = best key value rank b restB := h _ _ _ _ hpermA hpermB
      _ = b := hbest hb hpermB
  · intro h first rest first' rest' hperm hperm'
    exact h.2 _ _ (leading_best h hperm) (leading_best h hperm')

end RunningBest
