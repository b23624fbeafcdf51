import Mathlib.Algebra.BigOperators.Group.Finset.Basic
import Mathlib.Algebra.GroupWithZero.Nat
import Revng.DataLayout.TypeSystemRuns

/-!
# Removing backedges from loops

`removeBackedgesFromSCC` searches the instance edges depth first, from each root of the
instance-at-offset-0 edges.  The edges with an offset that are on the stack are tracked.  Whenever an
edge leads to a node on the stack, all of the tracked ones are marked, and so is that edge if it has
an offset.  The marked edges are removed at the end of each search.

The components of the nodes are only used to log them, and are left out.
-/

namespace DataLayout

open LayoutTypeSystem

def isInstanceOffNon0 (t : TypeLinkTag) : Bool := isInstanceEdge t && !isInstanceOff0 t

def isMixedEdge (t : TypeLinkTag) : Bool := isInstanceOff0 t || isInstanceOffNon0 t

variable {E : Type}

namespace LayoutTypeSystem

def isSCCLeaf (s : LayoutTypeSystem E) (n : Nat) : Bool :=
  ∀ l ∈ (s.nodes n).successors, ¬ isInstanceOff0 l.tag

def isSCCRoot (s : LayoutTypeSystem E) (n : Nat) : Bool :=
  ∀ l ∈ (s.nodes n).predecessors, ¬ isInstanceOff0 l.tag

def hasNoSCCEdge (s : LayoutTypeSystem E) (n : Nat) : Bool := isSCCRoot s n && isSCCLeaf s n

/-- The edges that the iterators of `MixedNodeT` run over. -/
def mixedEdges (s : LayoutTypeSystem E) (n : Nat) : List Link :=
  (s.nodes n).successors.inOrder.filter fun l => isMixedEdge l.tag

end LayoutTypeSystem

/-! ## The search -/

/-- A node on the stack.  The iterator is the position of the edge it points to. -/
structure StackEntry where
  node : Nat
  nextToVisitIt : Nat
  deriving DecidableEq

structure EdgeInfo where
  src : Nat
  tgt : Nat
  tag : TypeLinkTag
  deriving DecidableEq

/-- The sets and stacks of the search, the stacks with their top first. -/
structure Search where
  visited : Finset Nat
  inStack : Finset Nat
  backedgesOnStack : List EdgeInfo
  visitStack : List StackEntry
  toRemove : List EdgeInfo

inductive TryPushStatus where
  | failedNoChildren
  | failedCloseLoop (edge : Link)
  | alreadyVisited
  | success

namespace Search

def start (root : Nat) : Search := ⟨{root}, {root}, [], [⟨root, 0⟩], []⟩

variable (edges : Nat → List Link)

/-- The edge is tracked, if it has an offset. -/
def track (d : Search) (edge : EdgeInfo) : Search :=
  if isInstanceOffNon0 edge.tag then { d with backedgesOnStack := edge :: d.backedgesOnStack } else d

def tryPushNextChild (d : Search) : Option (TryPushStatus × Search) := do
  guard (d.visitStack.length = d.inStack.card)
  match d.visitStack with
  | [] => none
  | top :: stack =>
      match (edges top.node)[top.nextToVisitIt]? with
      | none => return (.failedNoChildren, d)
      | some edge =>
          let d := { d with visitStack := ⟨top.node, top.nextToVisitIt + 1⟩ :: stack }
          if edge.node ∈ d.visited then
            if edge.node ∈ d.inStack then return (.failedCloseLoop edge, d)
            else return (.alreadyVisited, d)
          else
            let d := d.track ⟨top.node, edge.node, edge.tag⟩
            return (.success, { d with
              visited := insert edge.node d.visited
              visitStack := ⟨edge.node, 0⟩ :: d.visitStack
              inStack := insert edge.node d.inStack })

def pop (d : Search) : Option Search := do
  guard (d.visitStack.length = d.inStack.card)
  match d.visitStack with
  | [] => none
  | back :: stack =>
      guard (back.node ∈ d.inStack)
      let d := { d with inStack := d.inStack.erase back.node, visitStack := stack }
      match stack with
      | [] => return d
      | parent :: _ =>
          guard (parent.nextToVisitIt ≠ 0)
          let popped ← (edges parent.node)[parent.nextToVisitIt - 1]?
          if isInstanceOffNon0 popped.tag then
            guard (d.backedgesOnStack.head? = some ⟨parent.node, back.node, popped.tag⟩)
            return { d with backedgesOnStack := d.backedgesOnStack.tail }
          else return d

/-- `SmallSet::insert` -/
def mark (d : Search) (edge : EdgeInfo) : Search :=
  if edge ∈ d.toRemove then d else { d with toRemove := d.toRemove ++ [edge] }

/-- The tracked edges are marked, and the edge that closes the loop if it has an offset. -/
def closeLoop (d : Search) (edge : Link) : Option Search :=
  match d.visitStack with
  | [] => none
  | top :: _ =>
      let d := d.backedgesOnStack.reverse.foldl mark d
      if isInstanceOffNon0 edge.tag then some (d.mark ⟨top.node, edge.node, edge.tag⟩) else some d

/-- One round of the loop. -/
def visitTop (d : Search) : Option Search := do
  let (status, d) ← tryPushNextChild edges d
  match status with
  | .failedNoChildren => pop edges d
  | .failedCloseLoop edge => closeLoop d edge
  | .alreadyVisited => return d
  | .success => return d

/-- The loop, with a bound on its rounds. -/
def visit : Nat → Search → Option Search
  | 0, d => if d.visitStack = [] then some d else none
  | fuel + 1, d => if d.visitStack = [] then some d else visitTop edges d >>= visit fuel

end Search

/-! ## Removing the edges -/

namespace LayoutTypeSystem

/-- Every edge is pushed or not, and every node is popped. -/
def searchBound (s : LayoutTypeSystem E) : Nat :=
  ∑ n ∈ s.layouts, ((mixedEdges s n).length + 1)

def removeMarked (s : LayoutTypeSystem E) (edge : EdgeInfo) : Option (LayoutTypeSystem E) := do
  guard (isInstanceOffNon0 edge.tag)
  guard (s.HasLink edge.src edge.tgt edge.tag)
  return { s with nodes := eraseLink s.nodes edge.src edge.tgt edge.tag }

def removeBackedgesFrom (s : LayoutTypeSystem E) (root : Nat) : Option (LayoutTypeSystem E) :=
  if hasNoSCCEdge s root then some s
  else if ¬ isSCCRoot s root then some s
  else do
    let d ← Search.visit (mixedEdges s) s.searchBound (Search.start root)
    d.toRemove.foldlM removeMarked s

def removeBackedgesFromSCC (s : LayoutTypeSystem E) : Option (LayoutTypeSystem E) :=
  s.layouts.sort.foldlM removeBackedgesFrom s

def removeInstanceBackedgesFromInstanceAtOffset0Loops (s : LayoutTypeSystem E) :
    Option (LayoutTypeSystem E) :=
  removeBackedgesFromSCC s

end LayoutTypeSystem

end DataLayout
