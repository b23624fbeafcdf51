import Mathlib.Algebra.Ring.Nat
import Mathlib.Data.List.Forall2

/-!
# Texts with separators

A sequence of values is printed value by value, with a separator between two of them.  It is
read back by cutting the text at the first separator, again and again.

The values come back when no printed value has a separator in it.  The converse needs to know
how values are read (`Field.Faithful`): either the text of a value is the only one that reads
as the value, or the text is not empty and does not end in a separator.  Then a sequence comes
back exactly when no printed value has a separator in it (`readAll_join_iff`).  Values that may
also fail to come back from their own texts are the subject of `readAll_join_iff_forall₂`.

A text may also be cut into a given number of parts (`splitExact_eq_some_iff`), or a bounded
number of times.  The last part then keeps the separators that are left (`splitMax_eq_iff`).
-/

namespace SeparatedText

variable {α β : Type*} [DecidableEq α] {sep : α}

/-! ## Cutting -/

/-- Cut a text at the first separator.  Without a separator the second part is empty. -/
def split (sep : α) : List α → List α × List α
  | [] => ([], [])
  | a :: rest => if a = sep then ([], rest) else (a :: (split sep rest).1, (split sep rest).2)

variable {x : List α}

@[simp] theorem split_of_notMem (h : sep ∉ x) : split sep x = (x, []) := by
  induction x with
  | nil => rfl
  | cons a rest ih =>
    rw [List.mem_cons, not_or] at h
    simp [split, Ne.symm h.1, ih h.2]

@[simp] theorem split_append (h : sep ∉ x) (y : List α) : split sep (x ++ sep :: y) = (x, y) := by
  induction x with
  | nil => simp [split]
  | cons a rest ih =>
    rw [List.mem_cons, not_or] at h
    simp [split, Ne.symm h.1, ih h.2]

theorem notMem_split (x : List α) : sep ∉ (split sep x).1 := by
  induction x with
  | nil => exact List.not_mem_nil
  | cons a rest ih =>
    rw [split]
    split
    next => exact List.not_mem_nil
    next h => exact List.not_mem_cons_of_ne_of_not_mem (Ne.symm h) ih

/-! ## Sequences -/

/-- How values of a type are printed and read. -/
structure Field (α β : Type*) where
  print : β → List α
  parse : List α → β
  Mem : β → Prop
  parse_print : ∀ v, Mem v → parse (print v) = v

/-- The text of a value is the only one that reads as the value, or it is not empty and does
not end in a separator. -/
def Field.Faithful (sep : α) (f : Field α β) : Prop :=
  ∀ v, f.Mem v → (∀ x, f.parse x = v → x = f.print v) ∨
    (f.print v ≠ [] ∧ (f.print v).getLast? ≠ some sep)

def texts (fs : List (Field α β)) (vs : List β) : List (List α) :=
  List.zipWith Field.print fs vs

def join (sep : α) : List (List α) → List α
  | [] => []
  | [x] => x
  | x :: y :: rest => x ++ sep :: join sep (y :: rest)

variable {xs : List (List α)}

omit [DecidableEq α] in
theorem mem_join {a : α} (h : a ∈ join sep xs) : a = sep ∨ ∃ x ∈ xs, a ∈ x := by
  fun_induction join sep xs with
  | case1 => cases h
  | case2 x => exact Or.inr ⟨x, List.mem_singleton_self x, h⟩
  | case3 x y rest ih =>
    rcases List.mem_append.mp h with h | h
    · exact Or.inr ⟨x, List.mem_cons_self .., h⟩
    · rcases List.mem_cons.mp h with rfl | h
      · exact Or.inl rfl
      · obtain hsep | ⟨z, hz, haz⟩ := ih h
        · exact Or.inl hsep
        · exact Or.inr ⟨z, List.mem_cons_of_mem _ hz, haz⟩

omit [DecidableEq α] in
theorem mem_join_iff {a : α} (ha : a ≠ sep) : a ∈ join sep xs ↔ ∃ x ∈ xs, a ∈ x := by
  refine ⟨fun h => (mem_join h).resolve_left ha, ?_⟩
  rintro ⟨x, hx, hax⟩
  fun_induction join sep xs with
  | case1 => cases hx
  | case2 y =>
    rw [List.mem_singleton] at hx
    exact hx ▸ hax
  | case3 y z rest ih =>
    rcases List.mem_cons.mp hx with rfl | hx
    · exact List.mem_append_left _ hax
    · exact List.mem_append_right _ (List.mem_cons_of_mem _ (ih hx))

/-- Read one value after the other.  Nothing may be left at the end. -/
def readAll (sep : α) : List (Field α β) → List α → Option (List β)
  | [], x => if x = [] then some [] else none
  | f :: fs, x =>
      (readAll sep fs (split sep x).2).map (f.parse (split sep x).1 :: ·)

variable {fs : List (Field α β)}

theorem readAll_cons_eq_some {f : Field α β} {v : β} {vs : List β} :
    readAll sep (f :: fs) x = some (v :: vs) ↔
      f.parse (split sep x).1 = v ∧ readAll sep fs (split sep x).2 = some vs := by
  rw [readAll]
  cases readAll sep fs (split sep x).2 with
  | none => simp
  | some ws => simp

theorem split_subset (x : List α) : (split sep x).1 ⊆ x ∧ (split sep x).2 ⊆ x := by
  induction x with
  | nil => simp [split]
  | cons a rest ih =>
    rw [split]
    split
    · exact ⟨List.nil_subset _, List.subset_cons_self _ _⟩
    · exact ⟨List.cons_subset_cons _ ih.1, List.subset_cons_of_subset _ ih.2⟩

/-- The first part of a joined text is a part of the first text. -/
theorem mem_of_mem_split_join {a : α} (h : a ∈ (split sep (join sep (x :: xs))).1) : a ∈ x := by
  cases xs with
  | nil => exact (split_subset x).1 h
  | cons y rest =>
    rw [join] at h
    by_cases hx : sep ∈ x
    · obtain ⟨b, c, rfl, hb⟩ := List.eq_append_cons_of_mem hx
      rw [List.append_assoc, List.cons_append, split_append hb] at h
      exact List.mem_append_left _ h
    · rwa [split_append hx] at h

/-- Every value is read from a part of the text. -/
theorem forall₂_of_readAll :
    ∀ {x : List α} {vs : List β}, readAll sep fs x = some vs →
      List.Forall₂ (fun f v => ∃ part, part ⊆ x ∧ f.parse part = v) fs vs := by
  induction fs with
  | nil =>
    intro x vs h
    rw [readAll] at h
    split at h
    · cases h
      exact .nil
    · cases h
  | cons f fs ih =>
    intro x vs h
    rw [readAll, Option.map_eq_some_iff] at h
    obtain ⟨ws, hrest, rfl⟩ := h
    refine .cons ⟨_, (split_subset x).1, rfl⟩ ((ih hrest).imp ?_)
    rintro g v ⟨part, hpart, hparse⟩
    exact ⟨part, List.Subset.trans hpart (split_subset x).2, hparse⟩

/-- Every value that is read takes one separator. -/
theorem count_le_of_readAll :
    ∀ {x : List α} {vs : List β}, readAll sep fs x = some vs → x.count sep ≤ fs.length := by
  induction fs with
  | nil =>
    intro x vs h
    rw [readAll] at h
    split at h
    next hx => simp [hx]
    · cases h
  | cons f fs ih =>
    intro x vs h
    rw [readAll, Option.map_eq_some_iff] at h
    obtain ⟨ws, hrest, -⟩ := h
    have hrest := ih hrest
    by_cases hx : sep ∈ x
    · obtain ⟨a, b, rfl, ha⟩ := List.eq_append_cons_of_mem hx
      simp only [split_append ha] at hrest
      simp only [List.count_append, List.count_eq_zero_of_not_mem ha, List.count_cons_self,
        List.length_cons]
      omega
    · rw [List.count_eq_zero_of_not_mem hx]
      exact Nat.zero_le _

theorem count_join (sep : α) (x : List α) (rest : List (List α)) :
    rest.length ≤ (join sep (x :: rest)).count sep := by
  induction rest generalizing x with
  | nil => simp
  | cons y rest ih =>
    have h := ih y
    simp only [join, List.count_append, List.count_cons_self, List.length_cons]
    omega

/-- A text in front of a sequence is not read as one of its values. -/
theorem readAll_prepend_ne :
    ∀ {vs : List β}, (∀ f ∈ fs, f.Faithful sep) → fs ≠ [] → List.Forall₂ Field.Mem fs vs →
      ∀ {b : List α}, b ≠ [] → b.getLast? ≠ some sep →
        readAll sep fs (b ++ sep :: join sep (texts fs vs)) ≠ some vs := by
  induction fs with
  | nil =>
    intro vs _ hne
    exact absurd rfl hne
  | cons f fs ih =>
    intro vs hfaithful _ hmem b hb hlast h
    cases hmem with
    | cons hv hvs =>
      rename_i v vs
      have hlength : fs.length = vs.length := hvs.length_eq
      obtain ⟨hparse, hrest⟩ := readAll_cons_eq_some.mp h
      by_cases hsep : sep ∈ b
      · -- The rest has more separators than there are values to read.
        obtain ⟨a, b', rfl, ha⟩ := List.eq_append_cons_of_mem hsep
        rw [List.append_assoc, List.cons_append, split_append ha] at hrest
        have hcount := count_le_of_readAll hrest
        have hjoin := count_join sep (f.print v) (texts fs vs)
        simp only [texts, List.length_zipWith, List.zipWith_cons_cons, List.count_append,
          List.count_cons_self] at hcount hjoin
        omega
      · rw [split_append hsep] at hparse hrest
        -- What was in front reads as the first value, so its text is pushed on.
        have hfirst : f.print v ≠ [] ∧ (f.print v).getLast? ≠ some sep := by
          rcases hfaithful f (List.mem_cons_self ..) v hv with honly | htidy
          · rw [← honly b hparse]
            exact ⟨hb, hlast⟩
          · exact htidy
        cases hvs with
        | nil =>
          simp only [texts, List.zipWith_cons_cons, List.zipWith_nil_left, join,
            readAll] at hrest
          split at hrest
          next hempty => exact hfirst.1 hempty
          · cases hrest
        | cons hw hws =>
          exact ih (fun g hg => hfaithful g (List.mem_cons_of_mem _ hg))
            (List.cons_ne_nil _ _) (.cons hw hws) hfirst.1 hfirst.2 hrest

/-- A sequence is read back exactly when no value has a separator in its text. -/
theorem readAll_join_iff :
    ∀ {vs : List β}, (∀ f ∈ fs, f.Faithful sep) → fs ≠ [] → List.Forall₂ Field.Mem fs vs →
      (readAll sep fs (join sep (texts fs vs)) = some vs ↔ ∀ x ∈ texts fs vs, sep ∉ x) := by
  induction fs with
  | nil =>
    intro vs _ hne
    exact absurd rfl hne
  | cons f fs ih =>
    intro vs hfaithful _ hmem
    cases hmem with
    | cons hv hvs =>
      rename_i v vs
      have hrestFaithful := fun g hg => hfaithful g (List.mem_cons_of_mem f hg)
      rw [texts, List.zipWith_cons_cons, List.forall_mem_cons]
      by_cases hsep : sep ∈ f.print v
      · refine iff_of_false (fun h => ?_) fun h => h.1 hsep
        obtain ⟨a, b, hab, ha⟩ := List.eq_append_cons_of_mem hsep
        obtain ⟨rest, hrest, hjoin⟩ : ∃ rest, split sep (join sep (f.print v ::
            List.zipWith Field.print fs vs)) = (a, b ++ rest) ∧
              ((fs = [] ∧ rest = []) ∨ rest = sep :: join sep (texts fs vs)) := by
          cases hvs with
          | nil => exact ⟨[], by simp [join, hab, ha], Or.inl ⟨rfl, rfl⟩⟩
          | cons hw hws =>
            refine ⟨_, ?_, Or.inr rfl⟩
            simp only [List.zipWith_cons_cons, join, hab, List.append_assoc,
              List.cons_append, split_append ha, texts]
        obtain ⟨hparse, htail⟩ := readAll_cons_eq_some.mp h
        rw [hrest] at hparse htail
        rcases hfaithful f (List.mem_cons_self ..) v hv with honly | ⟨-, hlast⟩
        · have htext := honly a hparse
          rw [hab] at htext
          simp at htext
        · have hb : b ≠ [] ∧ b.getLast? ≠ some sep := by
            cases b with
            | nil => simp [hab] at hlast
            | cons c b =>
              rw [hab, List.getLast?_append_of_ne_nil _ (List.cons_ne_nil _ _),
                List.getLast?_cons_cons] at hlast
              exact ⟨List.cons_ne_nil _ _, hlast⟩
          rcases hjoin with ⟨rfl, rfl⟩ | rfl
          · cases hvs
            simp [readAll, hb.1] at htail
          · cases hvs with
            | nil =>
              have hcount := count_le_of_readAll htail
              simp [List.count_append] at hcount
            | cons hw hws =>
              exact readAll_prepend_ne hrestFaithful (List.cons_ne_nil _ _) (.cons hw hws)
                hb.1 hb.2 htail
      · cases hvs with
        | nil => simp [join, readAll, hsep, f.parse_print v hv]
        | cons hw hws =>
          have htail := ih hrestFaithful (List.cons_ne_nil _ _) (.cons hw hws)
          simp only [texts, List.zipWith_cons_cons] at htail
          simp only [List.zipWith_cons_cons, join]
          rw [readAll_cons_eq_some, split_append hsep, htail]
          simp [hsep, f.parse_print v hv]

/-- Without being told which values there are: a sequence is read back exactly when no value has
a separator in its text and every value comes back from its own text.  A text with a separator
in it has to be the only one that reads as its value. -/
theorem readAll_join_iff_forall₂ :
    ∀ {vs : List β}, fs.length = vs.length →
      (∀ f ∈ fs, ∀ v, sep ∉ f.print v ∨ ∀ x, f.parse x = v → x = f.print v) →
        (readAll sep fs (join sep (texts fs vs)) = some vs ↔
          List.Forall₂ (fun f v => f.parse (f.print v) = v ∧ sep ∉ f.print v) fs vs) := by
  induction fs with
  | nil =>
    intro vs hlength _
    obtain rfl := List.length_eq_zero_iff.mp hlength.symm
    simp [texts, join, readAll]
  | cons f fs ih =>
    intro vs hlength hprint
    cases vs with
    | nil => cases hlength
    | cons v vs =>
      have ih := ih (Nat.succ.inj hlength) fun g hg => hprint g (List.mem_cons_of_mem f hg)
      rw [readAll_cons_eq_some, List.forall₂_cons]
      by_cases hsep : sep ∈ f.print v
      · -- What is in front of the separator is another text, so it reads as another value.
        refine iff_of_false (fun h => ?_) fun h => h.1.2 hsep
        have honly := (hprint f (List.mem_cons_self ..) v).resolve_left (not_not_intro hsep)
        have hfirst : sep ∉ (split sep (join sep (texts (f :: fs) (v :: vs)))).1 :=
          notMem_split _
        rw [honly _ h.1] at hfirst
        exact hfirst hsep
      · cases fs with
        | nil =>
          obtain rfl := List.length_eq_zero_iff.mp (Nat.succ.inj hlength).symm
          simp [texts, join, hsep, readAll]
        | cons g fs =>
          cases vs with
          | nil => cases hlength
          | cons w vs =>
            simp only [texts, List.zipWith_cons_cons, join, split_append hsep] at ih ⊢
            rw [ih]
            simp [hsep]

/-! ## A given number of parts -/

omit [DecidableEq α] in
theorem join_cons (h : xs ≠ []) : join sep (x :: xs) = x ++ sep :: join sep xs := by
  cases xs with
  | nil => exact absurd rfl h
  | cons y rest => rfl

omit [DecidableEq α] in
theorem join_cons_eq_flatMap (x : List α) (xs : List (List α)) :
    join sep (x :: xs) = x ++ xs.flatMap (sep :: ·) := by
  induction xs generalizing x with
  | nil => simp [join]
  | cons y rest ih => rw [join, ih, List.flatMap_cons, List.cons_append]

/-- Cut a text into the given number of parts and one more. -/
def splitExact (sep : α) : Nat → List α → Option (List (List α))
  | 0, x => if sep ∈ x then none else some [x]
  | n + 1, x =>
      if sep ∈ x then (splitExact sep n (split sep x).2).map ((split sep x).1 :: ·) else none

theorem splitExact_join {n : Nat} (hlength : xs.length = n + 1) (h : ∀ x ∈ xs, sep ∉ x) :
    splitExact sep n (join sep xs) = some xs := by
  induction n generalizing xs with
  | zero =>
    obtain ⟨x, rfl⟩ := List.length_eq_one_iff.mp hlength
    exact if_neg (h x (List.mem_singleton_self x))
  | succ n ih =>
    cases xs with
    | nil => cases hlength
    | cons x rest =>
      have hrest : rest.length = n + 1 := Nat.succ.inj hlength
      have hne : rest ≠ [] := List.ne_nil_of_length_pos (by omega)
      rw [List.forall_mem_cons] at h
      rw [splitExact, join_cons hne, if_pos (by simp), split_append h.1, ih hrest h.2,
        Option.map_some]

/-- A text has given parts exactly when they make it up and none has a separator in it. -/
theorem splitExact_eq_some_iff {n : Nat} :
    splitExact sep n x = some xs ↔
      x = join sep xs ∧ xs.length = n + 1 ∧ ∀ y ∈ xs, sep ∉ y := by
  constructor
  · intro h
    induction n generalizing x xs with
    | zero =>
      rw [splitExact] at h
      split at h
      · cases h
      next hx =>
        cases h
        exact ⟨rfl, rfl, by simpa using hx⟩
    | succ n ih =>
      rw [splitExact] at h
      split at h
      next hx =>
        obtain ⟨ys, hys, rfl⟩ := Option.map_eq_some_iff.mp h
        obtain ⟨a, b, rfl, ha⟩ := List.eq_append_cons_of_mem hx
        rw [split_append ha] at hys ⊢
        obtain ⟨rfl, hlength, hparts⟩ := ih hys
        have hne : ys ≠ [] := List.ne_nil_of_length_pos (by omega)
        refine ⟨(join_cons hne).symm, by simp [hlength], ?_⟩
        rw [List.forall_mem_cons]
        exact ⟨ha, hparts⟩
      · cases h
  · rintro ⟨rfl, hlength, hparts⟩
    exact splitExact_join hlength hparts

theorem count_join_add_one (hne : xs ≠ []) :
    (join sep xs).count sep + 1 = xs.length + (xs.map (List.count sep)).sum := by
  induction xs with
  | nil => exact absurd rfl hne
  | cons x rest ih =>
    cases rest with
    | nil => simp [join, Nat.add_comm]
    | cons y rest =>
      have ih := ih (List.cons_ne_nil _ _)
      rw [join_cons (List.cons_ne_nil _ _), List.count_append, List.count_cons_self]
      rw [List.map_cons, List.sum_cons, List.length_cons]
      omega

theorem sum_count_eq_zero_iff : (xs.map (List.count sep)).sum = 0 ↔ ∀ x ∈ xs, sep ∉ x := by
  rw [List.sum_eq_zero_iff_forall_eq_nat, List.forall_mem_map]
  exact forall₂_congr fun _ _ => List.count_eq_zero

/-- Sequences of the same length have different texts when one has no separator in its texts. -/
theorem eq_of_join_eq {ys : List (List α)} (hlength : ys.length = xs.length)
    (hxs : ∀ x ∈ xs, sep ∉ x) (h : join sep ys = join sep xs) : ys = xs := by
  rcases eq_or_ne xs [] with rfl | hne
  · exact List.length_eq_zero_iff.mp hlength
  have hpos := List.length_pos_iff.mpr hne
  have hyne : ys ≠ [] := List.ne_nil_of_length_pos (by omega)
  have hcount : (join sep ys).count sep + 1 = _ := count_join_add_one hyne
  rw [h, count_join_add_one hne, hlength, sum_count_eq_zero_iff.mpr hxs] at hcount
  have hys : ∀ y ∈ ys, sep ∉ y := sum_count_eq_zero_iff.mp (by omega)
  have hsplit := splitExact_join (n := xs.length - 1) (by omega) hys
  rw [h, splitExact_join (by omega) hxs] at hsplit
  exact (Option.some.inj hsplit).symm

/-! ## A bounded number of cuts -/

/-- Cut a text at its first `n` separators. -/
def splitMax (sep : α) : Nat → List α → List (List α)
  | 0, x => [x]
  | n + 1, x => if sep ∈ x then (split sep x).1 :: splitMax sep n (split sep x).2 else [x]

theorem splitMax_ne_nil (n : Nat) (x : List α) : splitMax sep n x ≠ [] := by
  cases n with
  | zero => exact List.cons_ne_nil _ _
  | succ n =>
    rw [splitMax]
    split <;> exact List.cons_ne_nil _ _

/-- The parts make up the text, and only the last one may have a separator in it. -/
theorem join_splitMax (n : Nat) (x : List α) :
    join sep (splitMax sep n x) = x ∧ ∀ y ∈ (splitMax sep n x).dropLast, sep ∉ y := by
  induction n generalizing x with
  | zero => exact ⟨rfl, by simp [splitMax]⟩
  | succ n ih =>
    rw [splitMax]
    split
    next hsep =>
      obtain ⟨a, b, rfl, ha⟩ := List.eq_append_cons_of_mem hsep
      obtain ⟨hjoin, hparts⟩ := ih b
      rw [split_append ha]
      constructor
      · rw [join_cons (splitMax_ne_nil n b), hjoin]
      · rw [List.dropLast_cons_of_ne_nil (splitMax_ne_nil n b), List.forall_mem_cons]
        exact ⟨ha, hparts⟩
    · exact ⟨rfl, by simp⟩

theorem splitMax_join {n : Nat} (hlength : xs.length = n + 1) (h : ∀ y ∈ xs.dropLast, sep ∉ y) :
    splitMax sep n (join sep xs) = xs := by
  induction n generalizing xs with
  | zero =>
    obtain ⟨x, rfl⟩ := List.length_eq_one_iff.mp hlength
    rfl
  | succ n ih =>
    cases xs with
    | nil => simp at hlength
    | cons x rest =>
      have hrest : rest.length = n + 1 := Nat.succ.inj hlength
      have hne : rest ≠ [] := by
        rintro rfl
        simp at hrest
      rw [List.dropLast_cons_of_ne_nil hne, List.forall_mem_cons] at h
      rw [splitMax, join_cons hne, if_pos (by simp), split_append h.1, ih hrest h.2]

/-- A text has given parts exactly when they make it up and only the last one has a separator
in it. -/
theorem splitMax_eq_iff {n : Nat} (hlength : xs.length = n + 1) :
    splitMax sep n x = xs ↔ x = join sep xs ∧ ∀ y ∈ xs.dropLast, sep ∉ y := by
  constructor
  · rintro rfl
    exact ⟨(join_splitMax n x).1.symm, (join_splitMax n x).2⟩
  · rintro ⟨rfl, h⟩
    exact splitMax_join hlength h

end SeparatedText
