import Revng.ADT.SortedVector

/-!
# The moves of `unique_last`

`uniqueLastMoves` lists the assignments by move that `unique_last` makes.  `*Result` is always what was
before `*First`, so the elements that are kept are the last ones of the runs of equivalent elements
(`lastOfRuns`).  `Result` and `First` coincide until an element is dropped, and then the two elements
of every assignment differ.

So an element is moved to itself unless the first two elements are equivalent
(`keepsLastOfRuns_iff`).
-/

namespace ADT

variable {T : Type} {move : MoveAssignment T} {predicate : T → T → Bool}

/-- The last element of each run of equivalent elements. -/
def lastOfRuns (predicate : T → T → Bool) : List T → List T
  | [] => []
  | [x] => [x]
  | x :: y :: xs =>
      if predicate x y then lastOfRuns predicate (y :: xs) else x :: lastOfRuns predicate (y :: xs)

/-! ## Assignments -/

/-- An assignment by move between two positions. -/
structure Move where
  target : Nat
  source : Nat
  deriving DecidableEq, Repr

def Move.IsSelfMove (m : Move) : Prop := m.target = m.source

/-- The moves of `uniqueLastLoop`, in their order. -/
def uniqueLastLoopMoves (move : MoveAssignment T) (predicate : T → T → Bool) :
    Nat → List T → Nat → Nat → List Move
  | 0, _, _, _ => []
  | left + 1, v, result, first =>
      let first := first + 1
      let isSame :=
        match v[result]?, v[first]? with
        | some x, some y => predicate x y
        | _, _ => false
      let result := if isSame then result else result + 1
      ⟨result, first⟩ :: uniqueLastLoopMoves move predicate left (move.assign v result first) result first

def uniqueLastMoves (move : MoveAssignment T) (predicate : T → T → Bool) (v : List T) : List Move :=
  if v.isEmpty then [] else uniqueLastLoopMoves move predicate (v.length - 1) v 0 0

/-! ## After the first drop -/

variable (move predicate) in
/-- `kept` are the elements before `*Result`, and `holes` the objects moved from. -/
theorem uniqueLastLoop_of_holes (rest kept : List T) {holes : List T} (r : T) (hholes : holes ≠ []) :
    let p := uniqueLastLoop move predicate rest.length (kept ++ r :: (holes ++ rest)) kept.length
      (kept.length + holes.length)
    p.1.take (p.2 + 1) = kept ++ lastOfRuns predicate (r :: rest) ∧
      ∀ m ∈ uniqueLastLoopMoves move predicate rest.length (kept ++ r :: (holes ++ rest)) kept.length
        (kept.length + holes.length), ¬m.IsSelfMove := by
  induction rest generalizing kept holes r with
  | nil =>
    refine ⟨?_, nofun⟩
    rw [List.append_nil, List.append_cons]
    exact List.take_left' (by rw [List.length_append]; rfl)
  | cons x rest ih =>
    have hresult : (kept ++ r :: (holes ++ x :: rest))[kept.length]? = some r := by simp
    have hfirst : (kept ++ r :: (holes ++ x :: rest))[kept.length + holes.length + 1]? = some x := by
      simp [Nat.add_assoc]
    rw [List.length_cons, uniqueLastLoop, uniqueLastLoopMoves]
    simp only [hresult, hfirst]
    cases hsame : predicate r x with
    | true =>
      obtain ⟨htake, hmoves⟩ := @ih kept (holes ++ [move.movedFrom x]) x (by simp)
      rw [List.append_assoc, List.singleton_append, List.length_append] at htake hmoves
      rw [if_pos rfl, move.assign_below, lastOfRuns, if_pos hsame]
      refine ⟨htake, List.forall_mem_cons.2 ⟨?_, hmoves⟩⟩
      show kept.length ≠ kept.length + holes.length + 1
      omega
    | false =>
      obtain ⟨hole, holes, rfl⟩ := List.exists_cons_of_ne_nil hholes
      obtain ⟨htake, hmoves⟩ :=
        @ih (kept ++ [r]) (holes ++ [move.movedFrom x]) x (by simp)
      have hassign := move.assign_below (kept ++ [r]) holes rest hole x
      have hlength : (kept ++ [r]).length + holes.length + 1 =
          kept.length + (hole :: holes).length + 1 := by
        simp only [List.length_append, List.length_cons, List.length_nil]
        omega
      have hend : (kept ++ [r]).length + (holes ++ [move.movedFrom x]).length =
          kept.length + (hole :: holes).length + 1 := by
        simp only [List.length_append, List.length_cons, List.length_nil]
        omega
      rw [List.append_assoc holes, List.singleton_append, ← hassign, hend, hlength,
        List.append_assoc, List.singleton_append, List.length_append, List.length_singleton]
        at htake hmoves
      rw [if_neg Bool.false_ne_true, lastOfRuns, if_neg (by rw [hsame]; exact Bool.false_ne_true)]
      refine ⟨?_, List.forall_mem_cons.2 ⟨?_, hmoves⟩⟩
      · rw [List.append_assoc, List.singleton_append] at htake
        exact htake
      · show kept.length + 1 ≠ kept.length + (hole :: holes).length + 1
        rw [List.length_cons]
        omega

/-! ## The whole range -/

/-- The prefix that is returned holds the last element of each run, and no element was moved to
itself. -/
structure KeepsLastOfRuns (move : MoveAssignment T) (predicate : T → T → Bool) (v : List T) :
    Prop where
  take_eq : (uniqueLast move predicate v).1.take (uniqueLast move predicate v).2 =
    lastOfRuns predicate v
  notSelfMove : ∀ m ∈ uniqueLastMoves move predicate v, ¬m.IsSelfMove

/-- An element of the second position is moved to itself unless it replaces the first one. -/
theorem keepsLastOfRuns_iff (move : MoveAssignment T) (predicate : T → T → Bool) (v : List T) :
    KeepsLastOfRuns move predicate v ↔
      ∀ x y rest, v = x :: y :: rest → predicate x y = true := by
  constructor
  · rintro ⟨-, hmoves⟩ x y rest rfl
    cases hsame : predicate x y with
    | true => rfl
    | false =>
        refine absurd rfl (hmoves ⟨1, 1⟩ ?_)
        show _ ∈ uniqueLastLoopMoves move predicate (rest.length + 1) (x :: y :: rest) 0 0
        simp [uniqueLastLoopMoves, hsame]
  · intro h
    rcases v with _ | ⟨x, _ | ⟨y, rest⟩⟩
    · exact ⟨rfl, nofun⟩
    · exact ⟨rfl, nofun⟩
    · have hsame := h x y rest rfl
      have hassign : move.assign (x :: y :: rest) 0 1 = y :: move.movedFrom y :: rest :=
        move.assign_below [] [] rest x y
      obtain ⟨htake, hmoves⟩ := uniqueLastLoop_of_holes move predicate rest [] y
        (List.cons_ne_nil (move.movedFrom y) [])
      constructor
      · show ((uniqueLastLoop move predicate (rest.length + 1) (x :: y :: rest) 0 0).1.take
          ((uniqueLastLoop move predicate (rest.length + 1) (x :: y :: rest) 0 0).2 + 1)) = _
        rw [lastOfRuns, if_pos hsame, uniqueLastLoop]
        simpa [hsame, hassign] using htake
      · show ∀ m ∈ uniqueLastLoopMoves move predicate (rest.length + 1) (x :: y :: rest) 0 0, _
        rw [uniqueLastLoopMoves]
        simpa [hsame, hassign, Move.IsSelfMove] using hmoves

/-- Without duplicates the second element is moved to itself, and may be lost. -/
theorem not_keepsLastOfRuns :
    ¬KeepsLastOfRuns ⟨id, fun _ => 0⟩ (fun x y : ℕ => x == y) [1, 2] := fun h =>
  h.notSelfMove ⟨1, 1⟩ (by decide) rfl

end ADT
