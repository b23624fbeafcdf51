import Mathlib.Data.List.Basic

/-!
# First values

A map in a list that keeps the first value of each key.  All pairs that were put in are found exactly
if pairs of one key have one value.
-/

namespace FirstValues

variable {κ β : Type*} [BEq κ]

/-- Put a pair in, unless its key has a value. -/
def emplace (m : List (κ × β)) (x : κ × β) : List (κ × β) :=
  if (m.lookup x.1).isSome then m else m ++ [x]

def emplaceAll (m xs : List (κ × β)) : List (κ × β) := xs.foldl emplace m

theorem emplaceAll_append (m xs ys : List (κ × β)) :
    emplaceAll m (xs ++ ys) = emplaceAll (emplaceAll m xs) ys := List.foldl_append

variable [LawfulBEq κ]

theorem lookup_emplace (m : List (κ × β)) (x : κ × β) (k : κ) :
    (emplace m x).lookup k = (m.lookup k).or ([x].lookup k) := by
  rw [emplace]
  split_ifs with hsome
  · by_cases hk : k = x.1
    · rw [hk, Option.or_of_isSome hsome]
    · rw [List.lookup_cons, beq_false_of_ne hk, List.lookup_nil, Option.or_none]
  · exact List.lookup_append

theorem lookup_emplaceAll (m xs : List (κ × β)) (k : κ) :
    (emplaceAll m xs).lookup k = (m.lookup k).or (xs.lookup k) := by
  induction xs generalizing m with
  | nil => simp [emplaceAll]
  | cons x xs ih =>
    rw [emplaceAll, List.foldl_cons, ← emplaceAll, ih, lookup_emplace, Option.or_assoc,
      ← List.lookup_append, List.singleton_append]

theorem exists_lookup {xs : List (κ × β)} {x : κ × β} (h : x ∈ xs) :
    ∃ y ∈ xs, y.1 = x.1 ∧ xs.lookup x.1 = some y.2 := by
  induction xs with
  | nil => cases h
  | cons z xs ih =>
    rw [List.lookup_cons]
    by_cases hz : x.1 = z.1
    · exact ⟨z, List.mem_cons_self, hz.symm, by rw [beq_iff_eq.2 hz]⟩
    · obtain ⟨y, hy, hkey, hlookup⟩ :=
        ih ((List.mem_cons.1 h).resolve_left fun heq => hz (congrArg Prod.fst heq))
      exact ⟨y, List.mem_cons_of_mem _ hy, hkey, by rw [beq_false_of_ne hz, hlookup]⟩

/-- Every pair is found exactly if no key has two values. -/
theorem forall_lookup_emplaceAll_iff (xs : List (κ × β)) :
    (∀ x ∈ xs, (emplaceAll [] xs).lookup x.1 = some x.2) ↔
      ∀ x ∈ xs, ∀ y ∈ xs, x.1 = y.1 → x.2 = y.2 := by
  simp only [lookup_emplaceAll, List.lookup_nil, Option.none_or]
  constructor
  · intro h x hx y hy heq
    have hfound := h x hx
    rw [heq, h y hy] at hfound
    exact (Option.some.inj hfound).symm
  · intro h x hx
    obtain ⟨y, hy, hkey, hlookup⟩ := exists_lookup hx
    rw [hlookup, h y hy x hx hkey]

end FirstValues
