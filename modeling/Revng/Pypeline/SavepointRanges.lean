import Mathlib.Data.List.Range
import Revng.Pypeline.Pipeline

/-!
# What a savepoint range holds

`assign_savepoint_ranges` numbers the savepoints along a depth-first visit, so the savepoints
of a subtree have consecutive identifiers (`savepointIds_assign`).  The range of a savepoint
starts at its own identifier, and holds these and no other ones.

The range of a pipe starts at the identifier that was given last, as the tests of the source have
it.  That one belongs to a savepoint outside the subtree, unless the visit has met no savepoint yet
(`range_isExactAt_iff`).
-/

namespace Pypeline

/-- `SavePointsRange.__contains__` -/
def SavePointsRange.contains (r : SavePointsRange) (id : SavepointID) : Bool :=
  decide (r.start ≤ id) && decide (id ≤ r.stop)

theorem SavePointsRange.contains_iff {start stop id : Nat} :
    (SavePointsRange.mk start stop).contains id = true ↔ start ≤ id ∧ id ≤ stop := by
  simp [contains]

variable {Model Kind α : Type} {K : KindLayout}

def PipelineNode.isSavePoint (n : PipelineNode Model Kind K α) : Bool := n.task.isSavePoint

namespace PipelineTree

/-! ## Nodes and their identifiers -/

/-- The identifiers of the savepoints of a tree. -/
def savepointIds (t : PipelineTree Model Kind K α) : List SavepointID :=
  (t.nodes.filter PipelineNode.isSavePoint).map fun n => n.savepointRange.start

/-- The subtree of the node that the indices of the successors lead to. -/
def subtreeAt : PipelineTree Model Kind K α → List Nat → Option (PipelineTree Model Kind K α)
  | t, [] => some t
  | .node _ successors, i :: position =>
      match successors[i]? with
      | some t => t.subtreeAt position
      | none => none
termination_by structural _ position => position

/-- The nodes that a depth-first visit meets before the node at a position. -/
def visitedBefore : PipelineTree Model Kind K α → List Nat → List (PipelineNode Model Kind K α)
  | _, [] => []
  | .node n successors, i :: position =>
      n :: nodesOfAll (successors.take i) ++
        match successors[i]? with
        | some t => t.visitedBefore position
        | none => []
termination_by structural _ position => position

/-- Of the savepoints of the tree, the range of the node has those below the node. -/
def RangeIsExactAt (t : PipelineTree Model Kind K α) (position : List Nat) : Prop :=
  ∀ u, t.subtreeAt position = some u → ∀ id ∈ t.savepointIds,
    u.root.savepointRange.contains id = true ↔ id ∈ u.savepointIds

/-! ## Consecutive identifiers -/

/-- How many savepoints there are among some nodes. -/
def countSavepoints (nodes : List (PipelineNode Model Kind K α)) : Nat :=
  nodes.countP PipelineNode.isSavePoint

mutual

/-- The savepoints get the identifiers after `currentId`, one after the other. -/
theorem savepointIds_assign : ∀ (t : PipelineTree Model Kind K α) (currentId : Nat),
    (t.assignSavepointRanges currentId).1.savepointIds =
        List.range' (currentId + 1) (countSavepoints t.nodes) ∧
      (t.assignSavepointRanges currentId).2 = currentId + countSavepoints t.nodes
  | .node n successors, currentId => by
      obtain ⟨hids, hlast⟩ := savepointIds_assignChildren successors
        (if n.task.isSavePoint then currentId + 1 else currentId)
      simp only [assignSavepointRanges, nodes, savepointIds, countSavepoints,
        List.filter_cons, List.countP_cons, PipelineNode.isSavePoint] at hids hlast ⊢
      by_cases hn : n.task.isSavePoint = true
      · simp only [hn, if_true, List.map_cons] at hids hlast ⊢
        rw [hids, hlast, List.range'_succ]
        exact ⟨rfl, by omega⟩
      · simp only [hn, if_false, Bool.false_eq_true] at hids hlast ⊢
        rw [hids, hlast]
        exact ⟨rfl, rfl⟩

theorem savepointIds_assignChildren :
    ∀ (ts : List (PipelineTree Model Kind K α)) (currentId : Nat),
    ((nodesOfAll (assignChildren ts currentId).1).filter PipelineNode.isSavePoint).map
          (fun n => n.savepointRange.start) =
        List.range' (currentId + 1) (countSavepoints (nodesOfAll ts)) ∧
      (assignChildren ts currentId).2 = currentId + countSavepoints (nodesOfAll ts)
  | [], currentId => ⟨rfl, rfl⟩
  | t :: ts, currentId => by
      obtain ⟨hids, hlast⟩ := savepointIds_assign t currentId
      obtain ⟨hids', hlast'⟩ := savepointIds_assignChildren ts (t.assignSavepointRanges currentId).2
      rw [savepointIds] at hids
      simp only [assignChildren, nodesOfAll, List.filter_append, List.map_append,
        countSavepoints, List.countP_append] at hids hlast hids' hlast' ⊢
      rw [hids, hids', hlast', hlast, ← Nat.add_assoc]
      refine ⟨?_, rfl⟩
      rw [Nat.add_right_comm currentId _ 1, List.range'_append_1]

end

/-- The range of a node, after `currentId` and with `count` savepoints in its subtree. -/
def rangeAfter (isSavePoint : Bool) (currentId count : Nat) : SavePointsRange :=
  ⟨if isSavePoint then currentId + 1 else currentId, currentId + count⟩

theorem root_assign (t : PipelineTree Model Kind K α) (currentId : Nat) :
    (t.assignSavepointRanges currentId).1.root.savepointRange =
        rangeAfter t.root.isSavePoint currentId (countSavepoints t.nodes) ∧
      (t.assignSavepointRanges currentId).1.root.isSavePoint = t.root.isSavePoint := by
  have hstop := (t.assignSavepointRanges_spec currentId).2.1
  rw [(t.savepointIds_assign currentId).2] at hstop
  cases t with
  | node n successors =>
    refine ⟨?_, rfl⟩
    rw [rangeAfter, ← hstop]
    rfl

theorem getElem?_assignChildren (ts : List (PipelineTree Model Kind K α)) :
    ∀ (currentId i : Nat),
      (assignChildren ts currentId).1[i]? = ts[i]?.map fun t =>
        (t.assignSavepointRanges (currentId + countSavepoints (nodesOfAll (ts.take i)))).1 := by
  induction ts with
  | nil => intro currentId i; rfl
  | cons t ts ih =>
    intro currentId i
    cases i with
    | zero => rfl
    | succ i =>
      simp only [assignChildren, List.getElem?_cons_succ, List.take_succ_cons, nodesOfAll,
        ih, (t.savepointIds_assign currentId).2, countSavepoints, List.countP_append,
        Nat.add_assoc]

/-- The subtree at a position gets the identifiers after those of the savepoints that were
visited before. -/
theorem subtreeAt_assign {u : PipelineTree Model Kind K α} (position : List Nat) :
    ∀ {t : PipelineTree Model Kind K α} (currentId : Nat), t.subtreeAt position = some u →
      (t.assignSavepointRanges currentId).1.subtreeAt position =
        some (u.assignSavepointRanges
          (currentId + countSavepoints (t.visitedBefore position))).1 := by
  induction position with
  | nil =>
    intro t currentId h
    cases t with
    | node n successors =>
      cases h
      rfl
  | cons i position ih =>
    intro t currentId h
    cases t with
    | node n successors =>
      simp only [subtreeAt, assignSavepointRanges, getElem?_assignChildren] at h ⊢
      cases hi : successors[i]? with
      | none => simp [hi] at h
      | some t =>
        simp only [hi] at h
        simp only [Option.map_some, ih _ h, visitedBefore, hi, countSavepoints,
          List.cons_append, List.countP_cons, List.countP_append, PipelineNode.isSavePoint]
        congr 3
        by_cases hn : n.task.isSavePoint = true
        · simp only [hn, if_true]
          omega
        · simp only [hn, if_false, Bool.false_eq_true]
          omega

theorem countSavepoints_nodesOfAll_take (ts : List (PipelineTree Model Kind K α)) {i : Nat}
    {t : PipelineTree Model Kind K α} (h : ts[i]? = some t) :
    countSavepoints (nodesOfAll (ts.take i)) + countSavepoints t.nodes ≤
      countSavepoints (nodesOfAll ts) := by
  induction ts generalizing i with
  | nil => simp at h
  | cons s ts ih =>
    simp only [nodesOfAll, countSavepoints, List.countP_append] at ih ⊢
    cases i with
    | zero =>
      cases h
      simp [nodesOfAll]
    | succ i =>
      have := ih h
      simp only [List.take_succ_cons, nodesOfAll, List.countP_append]
      omega

theorem countSavepoints_visitedBefore {u : PipelineTree Model Kind K α} (position : List Nat) :
    ∀ {t : PipelineTree Model Kind K α}, t.subtreeAt position = some u →
      countSavepoints (t.visitedBefore position) + countSavepoints u.nodes ≤
        countSavepoints t.nodes := by
  induction position with
  | nil =>
    intro t h
    cases t with
    | node n successors =>
      cases h
      simp [visitedBefore, countSavepoints]
  | cons i position ih =>
    intro t h
    cases t with
    | node n successors =>
      rw [subtreeAt] at h
      cases hi : successors[i]? with
      | none => simp [hi] at h
      | some t =>
        simp only [hi] at h
        have hbelow := ih h
        have htake := countSavepoints_nodesOfAll_take successors hi
        simp only [visitedBefore, hi, nodes, countSavepoints, List.cons_append,
          List.countP_cons, List.countP_append] at hbelow htake ⊢
        omega

/-! ## Which ranges are exact -/

/-- The savepoints in the range of the node: those below it, and the extra ones. -/
def RangeHolds (t : PipelineTree Model Kind K α) (position : List Nat)
    (extra : Nat → Prop) : Prop :=
  ∀ u, t.subtreeAt position = some u → ∀ id : Nat, id ∈ t.savepointIds →
    (u.root.savepointRange.contains id = true ↔ id ∈ u.savepointIds ∨ extra id)

/-- The range of a pipe has one savepoint too many, the one that was visited last. -/
theorem rangeHolds {t u : PipelineTree Model Kind K α} {position : List Nat}
    (h : t.subtreeAt position = some u) :
    (t.assignSavepointRanges 0).1.RangeHolds position fun id =>
      u.root.isSavePoint = false ∧ id = countSavepoints (t.visitedBefore position) := by
  simp only [RangeHolds, subtreeAt_assign position 0 h, Option.some.injEq, forall_eq',
    (root_assign u _).1, (u.savepointIds_assign _).1, (t.savepointIds_assign 0).1,
    List.mem_range'_1, Nat.zero_add]
  intro id _
  rw [rangeAfter, SavePointsRange.contains_iff]
  cases u.root.isSavePoint
  · simp only [Bool.false_eq_true, if_false, true_and]
    omega
  · simp only [if_true, Bool.true_eq_false, false_and, or_false]
    omega

/-- The range of a node has the savepoints of its subtree, and that of a pipe the savepoint that was
visited last as well.  So it is exact when the node is a savepoint or the visit comes to it before
any savepoint. -/
theorem range_isExactAt_iff (t : PipelineTree Model Kind K α) {position : List Nat}
    {u : PipelineTree Model Kind K α} (h : t.subtreeAt position = some u) :
    (t.assignSavepointRanges 0).1.savepointIds.Nodup ∧
      ((t.assignSavepointRanges 0).1.RangeHolds position fun id =>
        u.root.isSavePoint = false ∧ id = countSavepoints (t.visitedBefore position)) ∧
      ((t.assignSavepointRanges 0).1.RangeIsExactAt position ↔
        u.root.isSavePoint = true ∨
          ∀ n ∈ t.visitedBefore position, n.isSavePoint = false) := by
  have hle := countSavepoints_visitedBefore position h
  have hids := (t.savepointIds_assign 0).1
  have hbefore : countSavepoints (t.visitedBefore position) = 0 ↔
      ∀ n ∈ t.visitedBefore position, n.isSavePoint = false := by
    simp [countSavepoints]
  have hholds := rangeHolds h
  refine ⟨hids ▸ List.nodup_range', hholds, ?_⟩
  rw [← hbefore]
  constructor
  · intro hexact
    by_contra hnot
    obtain ⟨hpipe, hmet⟩ := not_or.mp hnot
    -- the last savepoint that was met is in the range of the pipe
    have hid : countSavepoints (t.visitedBefore position) ∈
        (t.assignSavepointRanges 0).1.savepointIds := by
      rw [hids, List.mem_range'_1]
      omega
    have hsub := subtreeAt_assign position 0 h
    have hmem := (hexact _ hsub _ hid).mp
      ((hholds _ hsub _ hid).mpr (.inr ⟨by simpa using hpipe, rfl⟩))
    rw [(u.savepointIds_assign _).1, List.mem_range'_1] at hmem
    omega
  · intro hor u' hu' id hid
    rw [hholds u' hu' id hid, or_iff_left]
    rintro ⟨hpipe, heq⟩
    rw [hids, List.mem_range'_1] at hid
    rcases hor with hsave | hnone
    · rw [hpipe] at hsave
      cases hsave
    · omega

/-! ## A pipe between two savepoints -/

/-- A pipe without arguments. -/
def idlePipe : Pipe Unit Unit ⟨fun _ => 0⟩ Unit where
  name := "in-place"
  arity := 0
  access := Fin.elim0
  kind := Fin.elim0
  hasCustomInvalidation := false
  checkPrecondition _ := true
  run _ _ containers _ _ := ⟨containers, fun _ => [], fun _ => []⟩

def taskTree (task : Task Unit Unit ⟨fun _ => 0⟩ Unit)
    (successors : List (PipelineTree Unit Unit ⟨fun _ => 0⟩ Unit)) :
    PipelineTree Unit Unit ⟨fun _ => 0⟩ Unit :=
  .node ⟨0, task, ⟨0, 0⟩, []⟩ successors

/-- The savepoint `begin`, a pipe, and the savepoint `end`. -/
def chainTree : PipelineTree Unit Unit ⟨fun _ => 0⟩ Unit :=
  taskTree (.savePoint "begin" [])
    [taskTree (.pipe idlePipe Fin.elim0 (fun i => i.elim0)) [taskTree (.savePoint "end" []) []]]

theorem range_isExactAt_iff_end :
    (chainTree.assignSavepointRanges 0).1.savepointIds.Nodup ∧
      (chainTree.assignSavepointRanges 0).1.RangeIsExactAt [0, 0] :=
  have h := @range_isExactAt_iff _ _ _ _ chainTree [0, 0] _ rfl
  ⟨h.1, h.2.2.mpr (Or.inl rfl)⟩

/-- The pipe has the range from 1 to 2, and the savepoint 1 is above it. -/
theorem not_range_isExactAt :
    ¬ ∀ position, (chainTree.assignSavepointRanges 0).1.RangeIsExactAt position := by
  intro h
  have hone := (h [0] _ rfl 1 (by decide)).mp (by decide)
  exact absurd hone (by decide)

end PipelineTree

end Pypeline
