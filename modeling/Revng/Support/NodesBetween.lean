import Revng.Lib.DepthFirstIterator
import Revng.Lib.Walks
import Revng.Support.Graphs

/-!
# Nodes between two nodes

`nodesBetween` visits the graph forwards from the source without the target, and backwards from the
target without the source, and takes what both visits find.  For two different nodes that is what
lies on the walks between them (`nodesBetween_iff`).  A node and itself are a case of their own: what
lies on a cycle through the node is not found.
-/

namespace Support

open Relation DepthFirstIterator Walks

variable {α : Type}

/-! ## Walks -/

/-- The node is on a walk between the two nodes whose interior has neither of them and no node that
is ignored.  From a node to itself there is also the walk without an edge. -/
def OnWalk (g : Graph α) (ignored : List α) (source target x : α) : Prop :=
  (source = target ∧ x = source) ∨ ∃ interior, IsWalk g.Edge source target interior ∧
    (∀ y ∈ interior, y ≠ source ∧ y ≠ target ∧ y ∉ ignored) ∧
    (x = source ∨ x ∈ interior ∨ x = target)

theorem onWalk_nil_iff {g : Graph α} {source target x : α} (hne : source ≠ target) :
    OnWalk g [] source target x ↔ ∃ interior, IsWalk g.Edge source target interior ∧
      (∀ y ∈ interior, y ≠ source ∧ y ≠ target) ∧ (x = source ∨ x ∈ interior ∨ x = target) := by
  simp [OnWalk, hne]

variable [DecidableEq α]

/-! ## Visits -/

/-- `df_iterator_default_set`: nothing is done when a node is completed. -/
def defaultSet : Storage (List α) α where
  insert s block := if block ∈ s then (s, false) else (block :: s, true)
  completed s _ := s

/-- The iterator `dfIterator` gets the edges, the set to start with and the node to start at. -/
def findReachableNodes
    (dfIterator : (α → List α) → List α → α → List (Yielded (List α) α))
    (children : α → List α) (source : α) (stop : Option α) : List α :=
  (nodes (dfIterator children stop.toList source)).foldl SmallSetVector.insert []

def hasSuccessor (children : α → List α) (pred succ : α) : Bool :=
  (children pred).any (· = succ)

/-- What the forward visit and the backward visit have in common. -/
def commonNodes (g : Graph α)
    (dfIterator : (α → List α) → List α → α → List (Yielded (List α) α)) (source target : α) :
    List α :=
  let forwardDFSNodes := findReachableNodes dfIterator g.children source (some target)
  let backwardDFSNodes := findReachableNodes dfIterator g.inverseChildren target (some source)
  forwardDFSNodes.filter (· ∈ backwardDFSNodes)

/-- The corner cases, where `result` is what the visits have in common. -/
def addEnds (g : Graph α) (source target : α) (result : List α) : List α :=
  -- The two nodes themselves are in the sets that the visits start with.
  if result ≠ [] then SmallSetVector.insert (SmallSetVector.insert result target) source
  else if hasSuccessor g.children source target then
    SmallSetVector.insert (SmallSetVector.insert result target) source
  else if source = target then SmallSetVector.insert result source
  else result

/-- None when the assertion at the end fails. -/
def nodesBetween (g : Graph α)
    (dfIterator : (α → List α) → List α → α → List (Yielded (List α) α)) (source target : α) :
    Option (List α) :=
  let result := addEnds g source target (commonNodes g dfIterator source target)
  if source = target ∨ result.length ≠ 1 then some result else none

/-! ## What is found -/

theorem insert_defaultSet (s : List α) (a : α) :
    defaultSet.insert s a = if a ∈ s then (s, false) else (a :: s, true) := rfl

theorem marks_defaultSet : Marks (defaultSet (α := α)) fun s a => a ∈ s where
  insert_iff s a := by
    rw [insert_defaultSet]
    split_ifs with h <;> simp [h]
  seen_insert s a x := by
    rw [insert_defaultSet]
    split_ifs with h
    · constructor
      · exact .inl
      · rintro (hx | rfl)
        · exact hx
        · exact h
    · rw [List.mem_cons, or_comm]
  seen_completed _ _ _ _ := .rfl

variable {g : Graph α} {dfIterator : (α → List α) → List α → α → List (Yielded (List α) α)}
  {source target x : α}

/-- Nothing is reached when the visit starts at the node where it stops. -/
theorem mem_findReachableNodes {children : α → List α} {stop : α}
    (h : Iterates children defaultSet [stop] source (dfIterator children [stop] source)) :
    x ∈ findReachableNodes dfIterator children source (some stop) ↔
      source ≠ stop ∧ ReflTransGen (Avoids (fun a b => b ∈ children a) stop) source x := by
  have hfree : Free children (fun (s : List α) a => a ∈ s) [stop] =
      Avoids (fun a b => b ∈ children a) stop := by
    funext a b
    rw [Free, Avoids, List.mem_singleton]
  have hnodes := mem_nodes_iff marks_defaultSet h (x := x)
  rw [hfree, List.mem_singleton] at hnodes
  refine Iff.trans ?_ hnodes
  rw [findReachableNodes, Option.toList_some, SmallSetVector.mem_foldl_iff
    (fun a => x = a) fun _ _ => SmallSetVector.mem_insert]
  simp

theorem hasSuccessor_iff {children : α → List α} :
    hasSuccessor children source target = true ↔ target ∈ children source := by
  simp [hasSuccessor]

/-! ## Two different nodes -/

section

variable (hforward : Iterates g.children defaultSet [target] source
    (dfIterator g.children [target] source))
  (hbackward : Iterates g.inverseChildren defaultSet [source] target
    (dfIterator g.inverseChildren [source] target)) (hne : source ≠ target)
include hforward hbackward hne

/-- The visits meet in the interior of the walks. -/
theorem mem_common_iff :
    x ∈ commonNodes g dfIterator source target ↔
      ∃ interior, IsWalk g.Edge source target interior ∧
        (∀ y ∈ interior, y ≠ source ∧ y ≠ target) ∧ x ∈ interior := by
  have hinverse : (fun a b => b ∈ g.inverseChildren a) = fun a b => g.Edge b a := by
    funext a b
    exact propext (g.mem_inverseChildren b a)
  rw [commonNodes, List.mem_filter, decide_eq_true_eq, mem_findReachableNodes hforward,
    mem_findReachableNodes hbackward, exists_interior_iff hne, hinverse]
  exact and_congr (and_iff_right hne) (and_iff_right hne.symm)

/-- What is found between two different nodes. -/
theorem mem_addEnds_iff :
    x ∈ addEnds g source target (commonNodes g dfIterator source target) ↔
      OnWalk g [] source target x := by
  have hcommon := fun x => mem_common_iff (x := x) hforward hbackward hne
  have hends : ∀ result : List α,
      x ∈ SmallSetVector.insert (SmallSetVector.insert result target) source ↔
        x ∈ result ∨ x = target ∨ x = source := fun result => by
    rw [SmallSetVector.mem_insert, SmallSetVector.mem_insert, or_assoc]
  rw [addEnds, onWalk_nil_iff hne]
  by_cases hempty : commonNodes g dfIterator source target = []
  · -- the interior of a walk is empty, so it is the edge
    have hnone : ∀ interior, IsWalk g.Edge source target interior →
        (∀ y ∈ interior, y ≠ source ∧ y ≠ target) → interior = [] := by
      intro interior hwalk havoid
      refine List.eq_nil_iff_forall_not_mem.2 fun y hy => ?_
      have hmem := (hcommon y).2 ⟨interior, hwalk, havoid, hy⟩
      rw [hempty] at hmem
      cases hmem
    rw [if_neg (not_not.2 hempty), hempty]
    by_cases hedge : hasSuccessor g.children source target = true
    · rw [if_pos hedge, hends]
      constructor
      · rintro (hnil | hx | hx)
        · cases hnil
        · exact ⟨[], isWalk_nil.2 (hasSuccessor_iff.1 hedge), List.forall_mem_nil _, .inr (.inr hx)⟩
        · exact ⟨[], isWalk_nil.2 (hasSuccessor_iff.1 hedge), List.forall_mem_nil _, .inl hx⟩
      · rintro ⟨interior, hwalk, havoid, hx | hx | hx⟩
        · exact .inr (.inr hx)
        · rw [hnone interior hwalk havoid] at hx
          cases hx
        · exact .inr (.inl hx)
    · rw [if_neg hedge, if_neg hne]
      refine iff_of_false List.not_mem_nil ?_
      rintro ⟨interior, hwalk, havoid, -⟩
      rw [hnone interior hwalk havoid] at hwalk
      exact hedge (hasSuccessor_iff.2 (isWalk_nil.1 hwalk))
  · rw [if_pos hempty, hends]
    constructor
    · obtain ⟨y, hy⟩ := List.exists_mem_of_ne_nil _ hempty
      obtain ⟨walk, hwalk, havoid, -⟩ := (hcommon y).1 hy
      rintro (hx | hx | hx)
      · obtain ⟨interior, hinterior, havoid, hx⟩ := (hcommon x).1 hx
        exact ⟨interior, hinterior, havoid, .inr (.inl hx)⟩
      · exact ⟨walk, hwalk, havoid, .inr (.inr hx)⟩
      · exact ⟨walk, hwalk, havoid, .inl hx⟩
    · rintro ⟨interior, hwalk, havoid, hx | hx | hx⟩
      · exact .inr (.inr hx)
      · exact .inl ((hcommon x).2 ⟨interior, hwalk, havoid, hx⟩)
      · exact .inr (.inl hx)

end

/-! ## A node and itself -/

theorem commonNodes_self
    (hforward : Iterates g.children defaultSet [source] source
      (dfIterator g.children [source] source)) : commonNodes g dfIterator source source = [] := by
  refine List.eq_nil_iff_forall_not_mem.2 fun x hx => ?_
  rw [commonNodes, List.mem_filter, mem_findReachableNodes hforward] at hx
  exact hx.1.1 rfl

theorem addEnds_self (g : Graph α) (source : α) : addEnds g source source [] = [source] := by
  unfold addEnds
  split_ifs <;> simp_all [SmallSetVector.insert]

/-! ## Both cases -/

/-- Between two nodes are the walks between them, and between a node and itself is the node. -/
theorem nodesBetween_iff (g : Graph α)
    (dfIterator : (α → List α) → List α → α → List (Yielded (List α) α))
    (hforward : ∀ stop entry, Iterates g.children defaultSet [stop] entry
      (dfIterator g.children [stop] entry))
    (hbackward : ∀ stop entry, Iterates g.inverseChildren defaultSet [stop] entry
      (dfIterator g.inverseChildren [stop] entry)) (source target : α) :
    ∃ result, nodesBetween g dfIterator source target = some result ∧
      (source ≠ target → ∀ x, x ∈ result ↔ OnWalk g [] source target x) ∧
      (source = target → ∀ x, x ∈ result ↔ x = source) := by
  by_cases hne : source = target
  · subst hne
    refine ⟨[source], ?_, fun h => absurd rfl h, fun _ x => List.mem_singleton⟩
    rw [nodesBetween, commonNodes_self (hforward source source), addEnds_self]
    exact if_pos (.inl rfl)
  · have hmem : ∀ x, x ∈ addEnds g source target (commonNodes g dfIterator source target) ↔
        OnWalk g [] source target x := fun x =>
      mem_addEnds_iff (hforward target source) (hbackward source target) hne
    refine ⟨_, if_pos (.inr fun hlength => ?_), fun _ => hmem, fun h => absurd h hne⟩
    -- a walk has both of its ends
    obtain ⟨a, ha⟩ := List.length_eq_one_iff.1 hlength
    simp only [ha, List.mem_singleton] at hmem
    rcases (hmem a).1 rfl with hself | ⟨interior, hwalk, havoid, -⟩
    · exact hne hself.1
    · have hsource := (hmem source).2 (.inr ⟨interior, hwalk, havoid, .inl rfl⟩)
      have htarget := (hmem target).2 (.inr ⟨interior, hwalk, havoid, .inr (.inr rfl)⟩)
      exact hne (hsource.trans htarget.symm)

/-! ## Runs on the small graph -/

/-- An iterator with enough fuel for three nodes. -/
def cycleVisits (children : Fin 3 → List (Fin 3)) (ext : List (Fin 3)) (entry : Fin 3) :
    List (Yielded (List (Fin 3)) (Fin 3)) :=
  iterate children defaultSet 8 ext entry

theorem iterates_cycle_children (stop entry : Fin 3) :
    Iterates (cycle true).children defaultSet [stop] entry
      (cycleVisits (cycle true).children [stop] entry) := by
  refine iterates_iterate ?_
  revert stop entry
  decide

theorem iterates_cycle_inverseChildren (stop entry : Fin 3) :
    Iterates (cycle true).inverseChildren defaultSet [stop] entry
      (cycleVisits (cycle true).inverseChildren [stop] entry) := by
  refine iterates_iterate ?_
  revert stop entry
  decide

/-- The other node of a cycle is on a walk from a node to itself, and is not found. -/
theorem not_onWalk_cycle :
    ¬∀ (g : Graph (Fin 3)) (dfIterator : (Fin 3 → List (Fin 3)) → List (Fin 3) → Fin 3 →
        List (Yielded (List (Fin 3)) (Fin 3))),
      (∀ stop entry, Iterates g.children defaultSet [stop] entry
        (dfIterator g.children [stop] entry)) →
      (∀ stop entry, Iterates g.inverseChildren defaultSet [stop] entry
        (dfIterator g.inverseChildren [stop] entry)) →
      ∀ (ignored : List (Fin 3)) (source target : Fin 3),
        ∃ result, nodesBetween g dfIterator source target = some result ∧
          ∀ x, x ∈ result ↔ OnWalk g ignored source target x := by
  intro h
  obtain ⟨result, hresult, hmem⟩ := h (cycle true) cycleVisits iterates_cycle_children
    iterates_cycle_inverseChildren [] 0 0
  have heq : nodesBetween (cycle true) cycleVisits 0 0 = some [0] := by decide
  rw [heq, Option.some.injEq] at hresult
  have hwalk : OnWalk (cycle true) [] 0 0 1 := by
    refine .inr ⟨[1], ?_, by decide, .inr (.inl List.mem_cons_self)⟩
    rw [isWalk_cons, isWalk_nil]
    exact ⟨List.mem_cons_self, List.mem_cons_self⟩
  have hone := (hmem 1).2 hwalk
  rw [← hresult] at hone
  exact absurd hone (by decide)

/-- From the cycle to the node behind it. -/
theorem nodesBetween_cycle :
    {x | x ∈ ([1, 2, 0] : List (Fin 3))} = {x | OnWalk (cycle true) [] 0 2 x} := by
  obtain ⟨result, hresult, hmem, -⟩ := nodesBetween_iff (cycle true) cycleVisits
    iterates_cycle_children iterates_cycle_inverseChildren 0 2
  have heq : nodesBetween (cycle true) cycleVisits 0 2 = some [1, 2, 0] := by decide
  rw [heq, Option.some.injEq] at hresult
  rw [hresult]
  exact Set.ext (hmem (by decide))

end Support
