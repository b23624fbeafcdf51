import Mathlib.Algebra.Group.Int.Defs
import Mathlib.Algebra.Order.Monoid.Unbundled.WithTop
import Mathlib.Data.Finset.Sort
import Mathlib.Data.List.Lex
import Mathlib.Data.Prod.Lex
import Revng.Lib.OrderedSet

/-!
# The layout type system

A `LayoutTypeSystem` is a graph of type nodes.  Every link between two nodes is stored
twice, in the successors of its source and in the predecessors of its target, and both
are sets ordered by the identifier of the other node and the tag.  `VectEqClasses`
remembers which nodes were merged.

A node stands for its identifier, which is never given to another node.  A pointer to a
tag stands for the tag, since `LinkTags` keeps one of each.  An operation has no result
when one of its assertions fails, or when it is given a node that is not in the system or
an iterator that points to no link.
-/

namespace DataLayout

open OrderedSet

/-! ## Links -/

structure OffsetExpression where
  offset : Nat
  strides : List Nat
  tripCounts : List (WithBot Nat)

inductive LinkKind where
  | equality
  | inst
  | pointer
  deriving DecidableEq

def LinkKind.toNat : LinkKind → Nat
  | .equality => 0
  | .inst => 1
  | .pointer => 2

structure TypeLinkTag where
  kind : LinkKind
  offsetExpr : OffsetExpression

def TypeLinkTag.equalityTag : TypeLinkTag := ⟨.equality, ⟨0, [], []⟩⟩

def TypeLinkTag.instanceTag (oe : OffsetExpression) : TypeLinkTag := ⟨.inst, oe⟩

def TypeLinkTag.pointerTag : TypeLinkTag := ⟨.pointer, ⟨0, [], []⟩⟩

/-- The tags are compared member by member. -/
def TypeLinkTag.members (t : TypeLinkTag) : ℕ ×ₗ ℕ ×ₗ List ℕ ×ₗ List (WithBot ℕ) :=
  toLex (t.kind.toNat, toLex (t.offsetExpr.offset,
    toLex (t.offsetExpr.strides, t.offsetExpr.tripCounts)))

theorem TypeLinkTag.members_injective : Function.Injective TypeLinkTag.members := by
  rintro ⟨k, o, st, tc⟩ ⟨k', o', st', tc'⟩ h
  obtain ⟨hk, ho, hst, htc⟩ : k.toNat = k'.toNat ∧ o = o' ∧ st = st' ∧ tc = tc' := by
    simpa [TypeLinkTag.members] using h
  have hkind : k = k' := by
    cases k <;> cases k' <;> simp_all [LinkKind.toNat]
  subst hkind ho hst htc
  rfl

instance : LinearOrder TypeLinkTag :=
  LinearOrder.lift' TypeLinkTag.members TypeLinkTag.members_injective

/-- A neighbor, with the tag of the link to it. -/
structure Link where
  node : Nat
  tag : TypeLinkTag

/-- `NeighborLinkComparison::Helper`: the null pointer is before every tag. -/
abbrev Helper := ℕ ×ₗ WithBot TypeLinkTag

def Link.helper (l : Link) : Helper := toLex (l.node, (l.tag : WithBot TypeLinkTag))

theorem Link.helper_injective : Function.Injective Link.helper := by
  rintro ⟨n, t⟩ ⟨m, u⟩ h
  obtain ⟨hn, ht⟩ : n = m ∧ t = u := by simpa [Link.helper] using h
  rw [hn, ht]

instance : LinearOrder Link := LinearOrder.lift' Link.helper Link.helper_injective

/-- The key `{ ID, nullptr }`. -/
def idBasedKey (id : Nat) : Helper := toLex (id, ⊥)

abbrev NeighborsSet := Finset Link

/-- The links in the order in which an iterator runs over them. -/
def NeighborsSet.inOrder (set : NeighborsSet) : List Link := set.sort

@[simp]
theorem NeighborsSet.mem_inOrder {set : NeighborsSet} {l : Link} : l ∈ set.inOrder ↔ l ∈ set :=
  Finset.mem_sort _

theorem NeighborsSet.inOrder_sorted (set : NeighborsSet) : set.inOrder.Pairwise (· < ·) :=
  (Finset.sortedLT_sort set).pairwise

/-! ## Equivalence classes -/

/-- The classes of integers that `VectEqClasses` extends. -/
class IntEqClasses (E : Type) where
  empty : E
  /-- How many integers there are. -/
  size : E → Nat
  grow : E → Nat → E
  join : E → Nat → Nat → E
  findLeader : E → Nat → Nat

/-- Conversion to `unsigned`. -/
def unsigned (n : Nat) : Nat := n % 2 ^ 32

structure VectEqClasses (E : Type) where
  classes : E
  removedID : Option Nat
  nElems : Nat

variable {E : Type} [IntEqClasses E]

def VectEqClasses.growBy1 (v : VectEqClasses E) : VectEqClasses E :=
  let nElems := unsigned (v.nElems + 1)
  { v with nElems, classes := IntEqClasses.grow v.classes nElems }

def VectEqClasses.join (v : VectEqClasses E) (a b : Nat) : VectEqClasses E :=
  { v with classes := IntEqClasses.join v.classes a b }

def VectEqClasses.remove (v : VectEqClasses E) (a : Nat) : VectEqClasses E :=
  match v.removedID with
  | some removed => v.join a removed
  | none => { v with removedID := some a }

/-- The classes are not compressed while the system changes. -/
def VectEqClasses.haveSameEqClass (v : VectEqClasses E) (id1 id2 : Nat) : Bool :=
  IntEqClasses.findLeader v.classes (unsigned id1) = IntEqClasses.findLeader v.classes (unsigned id2)

/-! ## The system -/

inductive InterferingChildrenInfo where
  | unknown
  | allChildrenAreInterfering
  | allChildrenAreNonInterfering
  deriving DecidableEq

structure LayoutTypeSystemNode where
  successors : NeighborsSet
  predecessors : NeighborsSet
  size : Nat
  interferingInfo : InterferingChildrenInfo
  nonScalar : Bool

def LayoutTypeSystemNode.new : LayoutTypeSystemNode := ⟨∅, ∅, 0, .unknown, false⟩

/-- The nodes, by their identifiers. -/
abbrev Nodes := Nat → LayoutTypeSystemNode

def Nodes.modify (nodes : Nodes) (n : Nat) (f : LayoutTypeSystemNode → LayoutTypeSystemNode) :
    Nodes :=
  Function.update nodes n (f (nodes n))

structure LayoutTypeSystem (E : Type) where
  nid : Nat
  layouts : Finset Nat
  nodes : Nodes
  eqClasses : VectEqClasses E

def LayoutTypeSystem.empty : LayoutTypeSystem E where
  nid := 0
  layouts := ∅
  nodes := fun _ => .new
  eqClasses := ⟨IntEqClasses.empty, none, 0⟩

namespace LayoutTypeSystem

def createArtificialLayoutType (s : LayoutTypeSystem E) : LayoutTypeSystem E :=
  { nid := s.nid + 1
    layouts := insert s.nid s.layouts
    nodes := Function.update s.nodes s.nid .new
    eqClasses := s.eqClasses.growBy1 }

def createArtificialLayoutTypes (s : LayoutTypeSystem E) : Nat → LayoutTypeSystem E
  | 0 => s
  | n + 1 => s.createArtificialLayoutType.createArtificialLayoutTypes n

/-- The nodes with a link from `src` to `tgt`. -/
def insertLink (nodes : Nodes) (src tgt : Nat) (tag : TypeLinkTag) : Nodes :=
  (nodes.modify src fun n => { n with successors := insert ⟨tgt, tag⟩ n.successors }).modify tgt
    fun n => { n with predecessors := insert ⟨src, tag⟩ n.predecessors }

def addLink (s : LayoutTypeSystem E) (src tgt : Option Nat) (tag : TypeLinkTag) :
    Option (LayoutTypeSystem E × Option TypeLinkTag × Bool) :=
  match src, tgt with
  | some src, some tgt =>
      if src = tgt then some (s, none, false)
      else if src ∈ s.layouts ∧ tgt ∈ s.layouts then
        let new := ⟨tgt, tag⟩ ∉ (s.nodes src).successors ∨ ⟨src, tag⟩ ∉ (s.nodes tgt).predecessors
        some ({ s with nodes := insertLink s.nodes src tgt tag }, some tag, new)
      else none
  | _, _ => some (s, none, false)

def addEqualityLink (s : LayoutTypeSystem E) (src tgt : Option Nat) :
    Option (LayoutTypeSystem E) := do
  let (s₁, forwardLinkTag) ← s.addLink src tgt .equalityTag
  let (s₂, backwardLinkTag) ← s₁.addLink tgt src .equalityTag
  guard (forwardLinkTag = backwardLinkTag)
  return s₂

def addInstanceLink (s : LayoutTypeSystem E) (src tgt : Option Nat) (oe : OffsetExpression) :
    Option (LayoutTypeSystem E) :=
  if 0xFFFF < oe.offset then some s
  else (s.addLink src tgt (.instanceTag oe)).map Prod.fst

def addPointerLink (s : LayoutTypeSystem E) (src tgt : Option Nat) :
    Option (LayoutTypeSystem E) :=
  (s.addLink src tgt .pointerTag).map Prod.fst

/-! ## Merging -/

/-- The loop over the neighbors with the identifier `from`, which extracts each of them
and inserts it again under `into`. -/
def moveNeighbors (src into : Nat) (set : NeighborsSet) : NeighborsSet :=
  relocate (fun l => ⟨into, l.tag⟩) (upperBound Link.helper set (idBasedKey (src + 1)))
    (2 * set.card) (lowerBound Link.helper set (idBasedKey src)) set

/-- The neighbors without those with an identifier. -/
def eraseNeighbors (id : Nat) (set : NeighborsSet) : NeighborsSet :=
  eraseRange set (lowerBound Link.helper set (idBasedKey id))
    (upperBound Link.helper set (idBasedKey (id + 1)))

/-- The two loops over the neighbors of `k`: the predecessors of its successors are edited,
and the successors of its predecessors. -/
def editNeighbors (k : Nat) (edit : NeighborsSet → NeighborsSet) (nodes : Nodes) : Nodes :=
  let nodes := (nodes k).successors.inOrder.foldl (fun nodes l =>
    nodes.modify l.node fun n => { n with predecessors := edit n.predecessors }) nodes
  (nodes k).predecessors.inOrder.foldl (fun nodes l =>
    nodes.modify l.node fun n => { n with successors := edit n.successors }) nodes

def fixPredSucc (src into : Nat) (nodes : Nodes) : Nodes :=
  -- the neighbors of `src` point to `into`
  let nodes := editNeighbors src (moveNeighbors src into) nodes
  -- the neighbors are merged, without the links between the two
  let removeSelfEdges := fun set => eraseNeighbors into (eraseNeighbors src set)
  nodes.modify into fun n =>
    { n with
      predecessors := removeSelfEdges (n.predecessors ∪ (nodes src).predecessors)
      successors := removeSelfEdges (n.successors ∪ (nodes src).successors) }

/-- The size of the node that two nodes are merged into. -/
def mergedSize (into src : LayoutTypeSystemNode) : Option Nat :=
  if into.nonScalar || src.nonScalar then
    let nonScalar := if into.nonScalar then into else src
    let other := if into.nonScalar then src else into
    if (¬ (into.nonScalar && src.nonScalar) ∨ into.size = src.size) ∧ other.size ≤ nonScalar.size then
      some nonScalar.size
    else none
  else if into.size = 0 ∨ src.size ≤ into.size then some (max into.size src.size)
  else none

/-- One round of `mergeNodes`. -/
def mergeNode (s : LayoutTypeSystem E) (into src : Nat) : Option (LayoutTypeSystem E) := do
  guard (src ≠ into ∧ src ∈ s.layouts ∧ into ∈ s.layouts)
  let size ← mergedSize (s.nodes into) (s.nodes src)
  let nodes := s.nodes.modify into fun n =>
    { n with
      interferingInfo := .unknown
      size
      nonScalar := n.nonScalar || (s.nodes src).nonScalar }
  return { s with
    eqClasses := s.eqClasses.join (unsigned into) (unsigned src)
    nodes := fixPredSucc src into nodes
    layouts := s.layouts.erase src }

def mergeNodes (s : LayoutTypeSystem E) : List Nat → Option (LayoutTypeSystem E)
  | [] => none
  | into :: toMerge => toMerge.foldlM (fun s src => s.mergeNode into src) s

/-! ## Removing and moving -/

def removeNode (s : LayoutTypeSystem E) (toRemove : Nat) : Option (LayoutTypeSystem E) := do
  guard (toRemove ∈ s.layouts)
  return { s with
    eqClasses := s.eqClasses.remove (unsigned toRemove)
    nodes := editNeighbors toRemove (eraseNeighbors toRemove) s.nodes
    layouts := s.layouts.erase toRemove }

/-- The nodes without the link from `src` to `tgt`. -/
def eraseLink (nodes : Nodes) (src tgt : Nat) (tag : TypeLinkTag) : Nodes :=
  (nodes.modify src fun n => { n with successors := n.successors.erase ⟨tgt, tag⟩ }).modify tgt
    fun n => { n with predecessors := n.predecessors.erase ⟨src, tag⟩ }

/-- The link that a valid iterator over the neighbors points to is there on both sides. -/
def HasLink (s : LayoutTypeSystem E) (src tgt : Nat) (tag : TypeLinkTag) : Prop :=
  ⟨tgt, tag⟩ ∈ (s.nodes src).successors ∧ ⟨src, tag⟩ ∈ (s.nodes tgt).predecessors

instance (s : LayoutTypeSystem E) (src tgt : Nat) (tag : TypeLinkTag) :
    Decidable (s.HasLink src tgt tag) :=
  inferInstanceAs (Decidable (_ ∧ _))

/-- The sum of an `uint64_t` and an `int64_t`. -/
def addOffset (offset : Nat) (offsetToSum : Int) : Nat :=
  ((offset + offsetToSum) % 2 ^ 64).toNat

/-- The link from `src` to `oldTgt` leads to `newTgt` instead, at another offset. -/
def moveEdgeTarget (s : LayoutTypeSystem E) (oldTgt newTgt : Option Nat) (inverseEdge : Link)
    (offsetToSum : Int) : Option (LayoutTypeSystem E) :=
  match oldTgt, newTgt with
  | some oldTgt, some newTgt => do
      let src := inverseEdge.node
      let tag := inverseEdge.tag
      guard (oldTgt ∈ s.layouts ∧ newTgt ∈ s.layouts ∧ s.HasLink src oldTgt tag)
      let nodes := eraseLink s.nodes src oldTgt tag
      if offsetToSum = 0 then return { s with nodes := insertLink nodes src newTgt tag }
      else
        guard (tag.kind = .inst)
        let newOE := { tag.offsetExpr with offset := addOffset tag.offsetExpr.offset offsetToSum }
        addInstanceLink { s with nodes } (some src) (some newTgt) newOE
  | _, _ => some s

/-- The link from `oldSrc` to `tgt` comes from `newSrc` instead, at another offset. -/
def moveEdgeSource (s : LayoutTypeSystem E) (oldSrc newSrc : Option Nat) (edge : Link)
    (offsetToSum : Int) : Option (LayoutTypeSystem E) :=
  match oldSrc, newSrc with
  | some oldSrc, some newSrc => do
      let tgt := edge.node
      let tag := edge.tag
      guard (oldSrc ∈ s.layouts ∧ newSrc ∈ s.layouts ∧ s.HasLink oldSrc tgt tag)
      let nodes := eraseLink s.nodes oldSrc tgt tag
      if offsetToSum = 0 then return { s with nodes := insertLink nodes newSrc tgt tag }
      else
        guard (tag.kind = .inst)
        let newOE := { tag.offsetExpr with offset := addOffset tag.offsetExpr.offset offsetToSum }
        addInstanceLink { s with nodes } (some newSrc) (some tgt) newOE
  | _, _ => some s

def eraseEdge (s : LayoutTypeSystem E) (src : Nat) (edge : Link) : Option (LayoutTypeSystem E) := do
  guard (src ∈ s.layouts ∧ s.HasLink src edge.node edge.tag)
  return { s with nodes := eraseLink s.nodes src edge.node edge.tag }

def dropOutgoingEdges (s : LayoutTypeSystem E) (n : Nat) : Option (LayoutTypeSystem E) := do
  guard (n ∈ s.layouts)
  (s.nodes n).successors.inOrder.foldlM (fun s edge => s.eraseEdge n edge) s

end LayoutTypeSystem

/-!
## The size of a field

A child with a size takes `getFieldSize` bytes of its parent, where an array of unknown length has
one element.  What ends at `getFieldUpperMember` is accessed.  Both wrap around, and have no result
when an assertion fails.
-/

/-- Conversion to `uint64_t`. -/
def uint64 (n : Nat) : Nat := n % 2 ^ 64

/-- Conversion from `uint64_t` to `int64_t`. -/
def int64 (n : Nat) : Int := if n < 2 ^ 63 then n else (n : Int) - 2 ^ 64

/-- The difference of two `uint64_t`. -/
def subtract (a b : Nat) : Nat := (a + (2 ^ 64 - b)) % 2 ^ 64

/-- The larger of an `int64_t` and zero, from its `uint64_t`. -/
def nonNegative (n : Nat) : Nat := if n < 2 ^ 63 then n else 0

/-- One level of an array, whose elements have the size `childSize`. -/
def arraySize (childSize : Nat) (dimension : WithBot Nat × Nat) : Option Nat := do
  let (tripCount, stride) := dimension
  guard (0 < stride)
  guard (tripCount ≠ (0 : Nat))
  let numElems := tripCount.unbotD 1
  return uint64 ((numElems - 1) * stride + childSize)

def getFieldSize (child : LayoutTypeSystemNode) (edgeTag : TypeLinkTag) : Option Nat := do
  guard (0 < child.size)
  match edgeTag.kind with
  | .inst =>
      let oe := edgeTag.offsetExpr
      guard (oe.strides.length = oe.tripCounts.length)
      -- the smaller strides come last
      let childSize ← (oe.tripCounts.zip oe.strides).reverse.foldlM arraySize child.size
      guard (childSize ≠ 0)
      return childSize
  | _ => none

/-- Only the size of the child counts. -/
theorem getFieldSize_congr {child child' : LayoutTypeSystemNode} (h : child.size = child'.size)
    (edgeTag : TypeLinkTag) : getFieldSize child edgeTag = getFieldSize child' edgeTag := by
  rw [getFieldSize, getFieldSize, h]

/-- A field that is no array takes the size of its child. -/
theorem getFieldSize_of_no_strides {child : LayoutTypeSystemNode} {edgeTag : TypeLinkTag}
    (hsize : 0 < child.size) (hkind : edgeTag.kind = .inst)
    (hstrides : edgeTag.offsetExpr.strides = []) (htrips : edgeTag.offsetExpr.tripCounts = []) :
    getFieldSize child edgeTag = some child.size := by
  simp [getFieldSize, guard, hsize, hkind, hstrides, htrips, hsize.ne']

def getFieldUpperMember (child : LayoutTypeSystemNode) (edgeTag : TypeLinkTag) : Option Nat := do
  let childSize ← getFieldSize child edgeTag
  return uint64 (nonNegative edgeTag.offsetExpr.offset + childSize)

end DataLayout
