import Revng.Lib.DepthFirstIterator
import Revng.Support.Graphs

/-!
# Back edges

`getBackedges` runs a depth-first iterator whose storage remembers which nodes are on the way to the
one that is yielded (`onStack_iff`).  An edge to one of them goes back to an ancestor, and a graph
without these edges has no cycle.  `isDAG` looks for a component with a cycle instead.
-/

namespace Support

open Relation StrongComponents DepthFirstIterator

/-! ## The storage -/

inductive FilterSet where
  | whiteList
  | blackList
deriving DecidableEq

/-- The nodes of the visit, each with whether it is on the stack. -/
structure DFStack (α : Type) where
  internalMap : α → Option Bool

namespace DFStack

variable {α : Type}

def empty : DFStack α := ⟨fun _ => none⟩

def onStack (s : DFStack α) (block : α) : Bool := (s.internalMap block).getD false

/-- The node is in the map. -/
def Seen (s : DFStack α) (block : α) : Prop := s.internalMap block ≠ none

theorem seen_of_onStack {s : DFStack α} {block : α} (h : s.onStack block = true) :
    s.Seen block := by
  intro hnone
  rw [onStack, hnone] at h
  cases h

variable [DecidableEq α]

def insertInMap (s : DFStack α) (block : α) (onStack : Bool) : DFStack α × Bool :=
  match s.internalMap block with
  | some _ => (s, false)
  | none => (⟨Function.update s.internalMap block (some onStack)⟩, true)

/-- All children of the node are processed. -/
def completed (s : DFStack α) (block : α) : DFStack α :=
  ⟨Function.update s.internalMap block (some false)⟩

end DFStack

section

variable {α : Type} [DecidableEq α]

def dfStackBackedge (filter : FilterSet) (set : List α) : Storage (DFStack α) α where
  insert s block :=
    if (filter = .whiteList ∧ block ∈ set) ∨ (filter = .blackList ∧ block ∉ set) then
      s.insertInMap block true
    else
      -- A node that is filtered out is put in the map, and not explored.
      ((s.insertInMap block false).1, false)
  completed := DFStack.completed

/-! ## Back edges -/

/-- The edges of one node. -/
def visitBackedges (g : Graph α) (backedges : List (α × α)) (y : Yielded (DFStack α) α) :
    List (α × α) :=
  (g.children y.node).foldl
    (fun backedges succ =>
      if y.storage.onStack succ then SmallSetVector.insert backedges (y.node, succ) else backedges)
    backedges

/-- The iterator `bdfIterator` gets the storage, its state and the node to start at. -/
def getBackedgesImpl (g : Graph α)
    (bdfIterator : Storage (DFStack α) α → DFStack α → α → List (Yielded (DFStack α) α))
    (filter : FilterSet) (block : α) (set : List α) : List (α × α) :=
  (bdfIterator (dfStackBackedge filter set) .empty block).foldl (visitBackedges g) []

def getBackedges (g : Graph α)
    (bdfIterator : Storage (DFStack α) α → DFStack α → α → List (Yielded (DFStack α) α))
    (block : α) : List (α × α) :=
  getBackedgesImpl g bdfIterator .blackList block []

/-! ## What is on the stack -/

namespace DFStack

variable (s : DFStack α) (a x : α) (b : Bool)

theorem seen_insertInMap : (s.insertInMap a b).1.Seen x ↔ s.Seen x ∨ x = a := by
  unfold insertInMap Seen
  cases h : s.internalMap a with
  | some c => by_cases hx : x = a <;> simp [hx, h]
  | none => by_cases hx : x = a <;> simp [hx]

theorem insertInMap_iff : (s.insertInMap a b).2 = true ↔ ¬s.Seen a := by
  unfold insertInMap Seen
  cases s.internalMap a <;> simp

theorem seen_completed : (s.completed a).Seen x ↔ s.Seen x ∨ x = a := by
  unfold completed Seen
  by_cases hx : x = a <;> simp [hx]

theorem onStack_insertInMap (hnew : ¬s.Seen a) :
    (s.insertInMap a true).1.onStack x = true ↔ x = a ∨ s.onStack x = true := by
  unfold insertInMap onStack
  rw [Seen, not_not] at hnew
  by_cases hx : x = a <;> simp [hx, hnew]

theorem onStack_completed :
    (s.completed a).onStack x = true ↔ x ≠ a ∧ s.onStack x = true := by
  unfold completed onStack
  by_cases hx : x = a <;> simp [hx]

end DFStack

theorem insert_blackList (s : DFStack α) (a : α) :
    (dfStackBackedge .blackList []).insert s a = s.insertInMap a true := by
  simp [dfStackBackedge]

theorem marks_blackList : Marks (dfStackBackedge (α := α) .blackList []) DFStack.Seen where
  insert_iff s a := by
    rw [insert_blackList]
    exact s.insertInMap_iff a true
  seen_insert s a x := by
    rw [insert_blackList]
    exact s.seen_insertInMap a x true
  seen_completed s a ha x := by
    refine (s.seen_completed a x).trans ⟨?_, .inl⟩
    rintro (hx | rfl)
    · exact hx
    · exact ha

variable {next : α → List α} {path pending : List α} {s t : DFStack α}
  {ys : List (Yielded (DFStack α) α)}

/-- On the stack are the nodes on the way, also when the iterator is done. -/
theorem onStack_visits (h : Visits next (dfStackBackedge .blackList []) path s pending ys t)
    (hs : ∀ x, s.onStack x = true ↔ x ∈ path) :
    (∀ x, t.onStack x = true ↔ x ∈ path) ∧
      ∀ y ∈ ys, ∀ x, y.storage.onStack x = true ↔ x ∈ y.node :: y.path := by
  induction h with
  | done => exact ⟨hs, List.forall_mem_nil _⟩
  | @skip path s a s' rest ys t hinsert _ ih =>
    -- the node is in the map, which is as before
    refine ih fun x => ?_
    have hold := marks_blackList.old hinsert
    rw [insert_blackList, DFStack.insertInMap] at hinsert
    cases hmap : s.internalMap a with
    | none => exact absurd hmap hold
    | some b =>
      rw [hmap] at hinsert
      rw [← (Prod.mk.inj hinsert).1]
      exact hs x
  | @enter path s a s' ys u rest zs t hinsert hys _ ih ih' =>
    have hnew := marks_blackList.new hinsert
    rw [insert_blackList] at hinsert
    have hentered : ∀ x, s'.onStack x = true ↔ x ∈ a :: path := by
      intro x
      have hstack := s.onStack_insertInMap a x hnew
      rw [hinsert] at hstack
      rw [hstack, hs, List.mem_cons]
    obtain ⟨hu, hbelow⟩ := ih hentered
    have hpath : a ∉ path := fun ha => hnew (DFStack.seen_of_onStack ((hs a).2 ha))
    have hleft : ∀ x, (u.completed a).onStack x = true ↔ x ∈ path := by
      intro x
      rw [DFStack.onStack_completed, hu, List.mem_cons]
      constructor
      · rintro ⟨hne, hx⟩
        exact hx.resolve_left hne
      · exact fun hx => ⟨fun heq => hpath (heq ▸ hx), .inr hx⟩
    obtain ⟨ht, hafter⟩ := ih' hleft
    refine ⟨ht, fun y hy => ?_⟩
    rw [List.cons_append, List.mem_cons, List.mem_append] at hy
    rcases hy with rfl | hy | hy
    · exact hentered
    · exact hbelow y hy
    · exact hafter y hy

theorem onStack_iff {entry : α}
    (h : Iterates next (dfStackBackedge .blackList []) .empty entry ys) :
    ∀ y ∈ ys, ∀ x, y.storage.onStack x = true ↔ x ∈ y.node :: y.path := by
  obtain ⟨t, h⟩ := h
  exact (onStack_visits h fun x => by simp [DFStack.onStack, DFStack.empty]).2

/-! ## What is found -/

theorem mem_visitBackedges (g : Graph α) (a b : α) (backedges : List (α × α))
    (y : Yielded (DFStack α) α) : (a, b) ∈ visitBackedges g backedges y ↔
      (a, b) ∈ backedges ∨ (y.node = a ∧ g.Edge a b ∧ y.storage.onStack b = true) := by
  rw [visitBackedges, SmallSetVector.mem_foldl_iff
    (fun succ => (a, b) = (y.node, succ) ∧ y.storage.onStack succ = true)]
  · refine or_congr_right ⟨?_, ?_⟩
    · rintro ⟨succ, hsucc, heq, hstack⟩
      obtain ⟨rfl, rfl⟩ := Prod.mk.inj heq
      exact ⟨rfl, hsucc, hstack⟩
    · rintro ⟨rfl, hedge, hstack⟩
      exact ⟨b, hedge, rfl, hstack⟩
  · intro backedges succ
    split_ifs with hstack
    · rw [SmallSetVector.mem_insert, and_iff_left hstack]
    · rw [or_iff_left fun h => hstack h.2]

section

variable {g : Graph α} {entry : α}
  {bdfIterator : Storage (DFStack α) α → DFStack α → α → List (Yielded (DFStack α) α)}

/-- The edges that go back in the depth-first tree. -/
theorem mem_getBackedges
    (hbdf : Iterates g.children (dfStackBackedge .blackList []) .empty entry
      (bdfIterator (dfStackBackedge .blackList []) .empty entry)) (a b : α) :
    (a, b) ∈ getBackedges g bdfIterator entry ↔
      g.Edge a b ∧ IsBack (bdfIterator (dfStackBackedge .blackList []) .empty entry) a b := by
  rw [getBackedges, getBackedgesImpl,
    SmallSetVector.mem_foldl_iff _ (fun backedges y => mem_visitBackedges g a b backedges y)]
  constructor
  · rintro (hnil | ⟨y, hy, rfl, hedge, hstack⟩)
    · cases hnil
    · exact ⟨hedge, y, hy, rfl, (onStack_iff hbdf y hy b).1 hstack⟩
  · rintro ⟨hedge, y, hy, rfl, hpath⟩
    exact .inr ⟨y, hy, rfl, hedge, (onStack_iff hbdf y hy b).2 hpath⟩

end

end

/-! ## Graphs without cycles -/

section

variable {α : Type}

/-- The components from one node: none if one of them has a cycle, and else what was visited. -/
def visitSCCs (hasCycle : List α → Bool) : List α → List (List α) → Option (List α)
  | visited, [] => some visited
  | visited, scc :: sccs =>
      if hasCycle scc then none else visitSCCs hasCycle (visited ++ scc) sccs

theorem visitSCCs_eq_none_iff {hasCycle : List α → Bool} {visited : List α} {sccs : List (List α)} :
    visitSCCs hasCycle visited sccs = none ↔ ∃ scc ∈ sccs, hasCycle scc = true := by
  induction sccs generalizing visited with
  | nil => simp [visitSCCs]
  | cons scc sccs ih =>
    rw [visitSCCs]
    cases hscc : hasCycle scc <;> simp [hscc, ih]

theorem visitSCCs_eq_some {hasCycle : List α → Bool} {visited visited' : List α}
    {sccs : List (List α)} (h : visitSCCs hasCycle visited sccs = some visited') :
    visited' = visited ++ sccs.flatten ∧ ∀ scc ∈ sccs, hasCycle scc = false := by
  induction sccs generalizing visited with
  | nil =>
    cases h
    exact ⟨by simp, List.forall_mem_nil _⟩
  | cons scc sccs ih =>
    rw [visitSCCs] at h
    cases hscc : hasCycle scc with
    | true => simp [hscc] at h
    | false =>
      simp only [hscc, Bool.false_eq_true, if_false] at h
      obtain ⟨rfl, hrest⟩ := ih h
      exact ⟨by simp, List.forall_mem_cons.2 ⟨hscc, hrest⟩⟩

variable {g : Graph α} {hasCycle : List α → Bool}

/-- A component without a cycle has a node that is on none. -/
theorem not_transGen_of_scc {scc : List α} {a : α}
    (hscc : ∀ a ∈ scc, ∀ b, b ∈ scc ↔ Mutual g.Edge a b)
    (hcycle : hasCycle scc = true ↔ 1 < scc.length ∨ ∃ a ∈ scc, g.Edge a a)
    (h : hasCycle scc = false) (ha : a ∈ scc) : ¬TransGen g.Edge a a := by
  intro hloop
  rw [← Bool.not_eq_true, hcycle, not_or] at h
  obtain ⟨b, hab, hba⟩ := TransGen.head'_iff.1 hloop
  have hb : b ∈ scc := (hscc a ha b).2 ⟨.single hab, hba⟩
  obtain ⟨x, rfl⟩ := List.length_eq_one_iff.1
    (Nat.le_antisymm (Nat.not_lt.1 h.1) (List.length_pos_of_mem ha))
  rw [List.mem_singleton] at ha hb
  rw [ha, hb] at hab
  exact h.2 ⟨x, List.mem_singleton_self x, hab⟩

/-- A component with a cycle has a node that is on one. -/
theorem exists_transGen_of_scc {scc : List α} (hnodup : scc.Nodup)
    (hscc : ∀ a ∈ scc, ∀ b, b ∈ scc ↔ Mutual g.Edge a b)
    (h : 1 < scc.length ∨ ∃ a ∈ scc, g.Edge a a) : ∃ a, TransGen g.Edge a a := by
  rcases h with hlength | ⟨a, -, hedge⟩
  · match scc, hlength, hnodup, hscc with
    | x :: y :: rest, _, hnodup, hscc =>
      have hne : x ≠ y := fun heq => (List.nodup_cons.1 hnodup).1 (heq ▸ List.mem_cons_self)
      have hxy := (hscc x List.mem_cons_self y).1 (List.mem_cons_of_mem _ List.mem_cons_self)
      have hpos := (reflTransGen_iff_eq_or_transGen.1 hxy.1).resolve_left (Ne.symm hne)
      exact ⟨x, hpos.trans_left hxy.2⟩
  · exact ⟨a, .single hedge⟩

variable [DecidableEq α]

def isDAGFrom (sccBegin : α → List (List α)) (hasCycle : List α → Bool) :
    List α → List α → Bool
  | _, [] => true
  | visited, node :: nodes =>
      if node ∈ visited then isDAGFrom sccBegin hasCycle visited nodes
      else
        match visitSCCs hasCycle visited (sccBegin node) with
        | none => false
        | some visited => isDAGFrom sccBegin hasCycle visited nodes

def isDAG (g : Graph α) (sccBegin : α → List (List α)) (hasCycle : List α → Bool) : Bool :=
  isDAGFrom sccBegin hasCycle [] g.nodes

variable {sccBegin : α → List (List α)}

/-- The loop, when no visited node is on a cycle. -/
theorem isDAGFrom_iff (hsccs : ∀ n, Enumerates g.Edge n (sccBegin n))
    (hcycle : ∀ n, ∀ scc ∈ sccBegin n,
      (hasCycle scc = true ↔ 1 < scc.length ∨ ∃ a ∈ scc, g.Edge a a))
    {nodes visited : List α} (hvisited : ∀ a ∈ visited, ¬TransGen g.Edge a a)
    (hall : ∀ a, a ∈ visited ∨ a ∈ nodes) :
    isDAGFrom sccBegin hasCycle visited nodes = true ↔ Acyclic g.Edge := by
  induction nodes generalizing visited with
  | nil =>
    refine iff_of_true rfl fun a => hvisited a ?_
    exact (hall a).resolve_right List.not_mem_nil
  | cons node nodes ih =>
    rw [isDAGFrom]
    split_ifs with hnode
    · refine ih hvisited fun a => ?_
      rcases hall a with ha | ha
      · exact .inl ha
      · rcases List.mem_cons.1 ha with rfl | ha
        · exact .inl hnode
        · exact .inr ha
    · cases hvisit : visitSCCs hasCycle visited (sccBegin node) with
      | none =>
        obtain ⟨scc, hscc, htrue⟩ := visitSCCs_eq_none_iff.1 hvisit
        obtain ⟨a, ha⟩ := exists_transGen_of_scc ((hsccs node).nodup scc hscc)
          ((hsccs node).component scc hscc) ((hcycle node scc hscc).1 htrue)
        exact iff_of_false Bool.false_ne_true fun hacyclic => hacyclic a ha
      | some visited' =>
        obtain ⟨rfl, hfalse⟩ := visitSCCs_eq_some hvisit
        refine ih (fun a ha => ?_) fun a => ?_
        · rcases List.mem_append.1 ha with ha | ha
          · exact hvisited a ha
          · obtain ⟨scc, hscc, ha⟩ := List.mem_flatten.1 ha
            exact not_transGen_of_scc ((hsccs node).component scc hscc)
              (hcycle node scc hscc) (hfalse scc hscc) ha
        · rcases hall a with ha | ha
          · exact .inl (List.mem_append_left _ ha)
          · rcases List.mem_cons.1 ha with rfl | ha
            · obtain ⟨scc, hscc, ha⟩ := (hsccs a).covers a .refl
              exact .inl (List.mem_append_right _ (List.mem_flatten.2 ⟨scc, hscc, ha⟩))
            · exact .inr ha

/-- The depth-first visit ends on every graph.  Whatever run of it the iterator takes, a back edge goes
to an ancestor of its source and what the entry reaches has no cycle without the back edges.  `isDAG`
tells whether the graph has one. -/
theorem getBackedges_isDAG (g : Graph α) (entry : α)
    (sccBegin : α → List (List α)) (hasCycle : List α → Bool)
    (hsccs : ∀ n, Enumerates g.Edge n (sccBegin n))
    (hcycle : ∀ n, ∀ scc ∈ sccBegin n,
      (hasCycle scc = true ↔ 1 < scc.length ∨ ∃ a ∈ scc, g.Edge a a)) :
    (∃ ys, Iterates g.children (dfStackBackedge .blackList []) .empty entry ys) ∧
    (∀ bdfIterator : Storage (DFStack α) α → DFStack α → α → List (Yielded (DFStack α) α),
      Iterates g.children (dfStackBackedge .blackList []) .empty entry
        (bdfIterator (dfStackBackedge .blackList []) .empty entry) →
      (∀ a b, (a, b) ∈ getBackedges g bdfIterator entry → g.Edge a b ∧
        ReflTransGen (Parent (bdfIterator (dfStackBackedge .blackList []) .empty entry)) b a) ∧
      Acyclic (fun a b => ReflTransGen g.Edge entry a ∧ g.Edge a b ∧
        (a, b) ∉ getBackedges g bdfIterator entry)) ∧
    (isDAG g sccBegin hasCycle = true ↔ Acyclic g.Edge) := by
  refine ⟨?_, fun bdfIterator hbdf => ⟨fun a b hback => ?_, fun a hloop => ?_⟩, ?_⟩
  · obtain ⟨ys, t, h⟩ := marks_blackList.exists_visits (s := .empty) g.children
      (fun x _ => g.complete x) [] [entry]
    exact ⟨ys, t, h⟩
  · obtain ⟨hedge, y, hy, rfl, hpath⟩ := (mem_getBackedges hbdf a b).1 hback
    exact ⟨hedge, ancestor_of_mem_path hbdf hy hpath⟩
  · refine acyclic_forward marks_blackList (fun x hx => hx rfl) hbdf a (hloop.lift id ?_)
    rintro a b ⟨hreach, hedge, hback⟩
    refine ⟨(mem_nodes_iff marks_blackList hbdf).2 ⟨fun hx => hx rfl, ?_⟩, hedge, fun hb => ?_⟩
    · exact hreach.lift id fun x y hxy => ⟨hxy, fun hx => hx rfl⟩
    · exact hback ((mem_getBackedges hbdf a b).2 ⟨hedge, hb⟩)
  · exact isDAGFrom_iff hsccs hcycle (List.forall_mem_nil _) fun a => .inr (g.complete a)

end

/-! ## A run on the small graph -/

/-- An iterator with enough fuel for three nodes. -/
def cycleIterator (st : Storage (DFStack (Fin 3)) (Fin 3)) :
    DFStack (Fin 3) → Fin 3 → List (Yielded (DFStack (Fin 3)) (Fin 3)) :=
  iterate (cycle true).children st 8

def cycleHasCycle (scc : List (Fin 3)) : Bool :=
  1 < scc.length || scc.any fun a => a ∈ (cycle true).children a

theorem getBackedges_isDAG_cycle :
    getBackedges (cycle true) cycleIterator 0 = [(1, 0)] ∧
      isDAG (cycle true) (cycleSCCs true) cycleHasCycle = false ∧
      Acyclic (fun a b => ReflTransGen (cycle true).Edge 0 a ∧ (cycle true).Edge a b ∧
        (a, b) ∉ getBackedges (cycle true) cycleIterator 0) := by
  refine ⟨by decide, by decide, ?_⟩
  exact ((getBackedges_isDAG (cycle true) 0 (cycleSCCs true) cycleHasCycle
    (fun n => (sorted_cycleSCCs true n).toEnumerates)
    fun n scc _ => by simp [cycleHasCycle, Graph.Edge]).2.1 cycleIterator (iterates_iterate rfl)).2

end Support
