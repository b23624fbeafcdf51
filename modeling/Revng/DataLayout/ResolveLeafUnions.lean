import Revng.DataLayout.VerifyDAG
import Revng.Lib.DepthFirst

/-!
# Resolving unions of leaves

`ResolveLeafUnions` groups the leaf children of a node by their size and tag.  Of two children in a
group the less general one is erased: a child that is no pointer, if the other one is a pointer, and
a pointer to a node that the pointee of the other one has at offset 0.

`comparePointee` visits both pointees with one set of visited nodes.  So its second visit never
enters the node that the first one started from, and no pointee is ever less than another one.
-/

namespace DataLayout

open LayoutTypeSystem DepthFirst

def isInstanceAtOffset0 (t : TypeLinkTag) : Bool :=
  if !isInstanceEdge t then false else t.offsetExpr.offset = 0

variable {E : Type}

/-! ## Groups of children -/

structure ChildrenKey where
  size : Nat
  tag : TypeLinkTag
  deriving DecidableEq

/-- The keys in the order of a `SmallMap`: the order in which they came, unless there are many. -/
def smallMapOrder (addresses : Addresses) (keys : List ChildrenKey) : List ChildrenKey :=
  if keys.length ≤ 8 then keys
  else keys.mergeSort fun k k' =>
    k.size < k'.size ∨ k.size = k'.size ∧ addresses.tag k.tag ≤ addresses.tag k'.tag

/-- The children of a group in the order of `neighborLess`, where all tags are the same. -/
def neighborSet (addresses : Addresses) (children : List Link) : List Link :=
  children.mergeSort fun l l' => addresses.node l.node ≤ addresses.node l'.node

namespace LayoutTypeSystem

/-- The children that are grouped. -/
def leafChildren (s : LayoutTypeSystem E) (n : Nat) : List Link :=
  (s.nodes n).successors.inOrder.filter fun l => isInstanceEdge l.tag && s.isLeaf l.node

def childrenKey (s : LayoutTypeSystem E) (l : Link) : Option ChildrenKey := do
  return ⟨← getFieldSize (s.nodes l.node) l.tag, l.tag⟩

def getOverlappingLeafChildren (addresses : Addresses) (s : LayoutTypeSystem E) (n : Nat) :
    Option (List (ChildrenKey × List Link)) := do
  let keys ← (s.leafChildren n).mapM s.childrenKey
  return (smallMapOrder addresses keys.eraseDups).map fun key =>
    (key, neighborSet addresses ((s.leafChildren n).filter fun l => s.childrenKey l = some key))

end LayoutTypeSystem

/-! ## Comparing leaves -/

inductive PartialOrdering where
  | less
  | equivalent
  | greater
  | unordered
  deriving DecidableEq

inductive LeafType where
  | generic
  | pointer (pointee : Nat)

namespace LayoutTypeSystem

/-- The nodes that the edges of `CInstance0` lead to. -/
def instancesAtOffset0 (s : LayoutTypeSystem E) (n : Nat) : List Nat :=
  ((s.nodes n).successors.inOrder.filter fun l => isInstanceAtOffset0 l.tag).map Link.node

def comparePointee (s : LayoutTypeSystem E) (a b : Nat) : PartialOrdering :=
  if a = b then .equivalent
  else
    let visited := depthFirst s.instancesAtOffset0 s.layouts.card a []
    if b ∈ visited then .greater
    else
      let visited' := depthFirst s.instancesAtOffset0 s.layouts.card b visited
      -- the second iterator yields the nodes that were not visited before
      if a ∈ visited'.drop visited.length then .less else .unordered

def getType (s : LayoutTypeSystem E) (n : Nat) : Option LeafType :=
  if s.isPointerNode n then do
    guard ((s.nodes n).successors.card = 1)
    let edge ← (s.nodes n).successors.inOrder.head?
    return .pointer edge.node
  else some .generic

def compareLeafTypes (s : LayoutTypeSystem E) (a b : Nat) : Option PartialOrdering := do
  match ← s.getType a, ← s.getType b with
  | .generic, .generic => return .equivalent
  | .generic, .pointer _ => return .less
  | .pointer _, .generic => return .greater
  | .pointer pointeeA, .pointer pointeeB => return s.comparePointee pointeeA pointeeB

/-! ## Resolving a group -/

/-- The inner loop: what is left after `a` of the group, and the system. -/
def compareWithRest (parent : Nat) (a : Link) :
    List Link → LayoutTypeSystem E → Option (List Link × LayoutTypeSystem E)
  | [], s => some ([], s)
  | b :: rest, s => do
      match ← s.compareLeafTypes a.node b.node with
      | .greater => compareWithRest parent a rest (← s.eraseEdge parent b)
      | .less => return (b :: rest, ← s.eraseEdge parent a)
      | _ =>
          let (rest, s) ← compareWithRest parent a rest s
          return (b :: rest, s)

/-- The outer loop, which the length of the group bounds. -/
def resolveUnion (parent : Nat) : Nat → List Link → LayoutTypeSystem E → Option (LayoutTypeSystem E)
  | _, [], s => some s
  | 0, _ :: _, _ => none
  | fuel + 1, a :: rest, s => do
      let (rest, s) ← compareWithRest parent a rest s
      resolveUnion parent fuel rest s

def resolveLeafUnionsOf (addresses : Addresses) (s : LayoutTypeSystem E) (n : Nat) :
    Option (LayoutTypeSystem E) := do
  let leafChildrenSets ← s.getOverlappingLeafChildren addresses n
  (leafChildrenSets.map Prod.snd).foldlM (fun s set => resolveUnion n set.length set s) s

def resolveLeafUnions (addresses : Addresses) (s : LayoutTypeSystem E) :
    Option (LayoutTypeSystem E) :=
  s.layouts.sort.foldlM (resolveLeafUnionsOf addresses) s

end LayoutTypeSystem

/-!
## Which leaf is more general

A pointer is more general than a leaf that is none, and than a pointer to a node that its pointee
contains at offset 0.  `comparePointee` finds what its first argument contains, and nothing else
(`comparePointee_eq_greater_iff`, `comparePointee_ne_less`).
-/

open StrongComponents Relation

variable {s : LayoutTypeSystem E}

namespace LayoutTypeSystem

/-- `a` transitively contains an instance of `b` at offset 0. -/
def Contains (s : LayoutTypeSystem E) (a b : Nat) : Prop :=
  TransGen (LayoutTypeSystem.Linked isInstanceAtOffset0 s) a b

def Points (s : LayoutTypeSystem E) (n pointee : Nat) : Prop :=
  ∃ t, isPointerEdge t ∧ ⟨pointee, t⟩ ∈ (s.nodes n).successors

/-- Strictly more general, for leaves. -/
def MoreGeneral (s : LayoutTypeSystem E) (a b : Nat) : Prop :=
  (s.isPointerNode a ∧ ¬ s.isPointerNode b) ∨
    ∃ x y, s.Points a x ∧ s.Points b y ∧ s.Contains x y

end LayoutTypeSystem

/-! ## Containment -/

theorem isNotPointerEdge_of_offset0 (t : TypeLinkTag) (h : isInstanceAtOffset0 t) :
    isNotPointerEdge t := by
  refine isNotPointerEdge_of_instance ?_
  by_contra hnot
  simp [isInstanceAtOffset0, hnot] at h

theorem mem_instancesAtOffset0 {n m : Nat} : m ∈ s.instancesAtOffset0 n ↔
    ∃ t, isInstanceAtOffset0 t ∧ ⟨m, t⟩ ∈ (s.nodes n).successors := by
  rw [LayoutTypeSystem.instancesAtOffset0, List.mem_map]
  constructor
  · rintro ⟨⟨m, t⟩, hmem, rfl⟩
    obtain ⟨hmem, ht⟩ := List.mem_filter.mp hmem
    exact ⟨t, ht, NeighborsSet.mem_inOrder.mp hmem⟩
  · rintro ⟨t, ht, hmem⟩
    exact ⟨⟨m, t⟩, List.mem_filter.mpr ⟨NeighborsSet.mem_inOrder.mpr hmem, ht⟩, rfl⟩

theorem mem_instancesAtOffset0_iff_linked {n m : Nat} (hn : n ∈ s.layouts) :
    m ∈ s.instancesAtOffset0 n ↔ LayoutTypeSystem.Linked isInstanceAtOffset0 s n m :=
  mem_instancesAtOffset0.trans (and_iff_right hn).symm

namespace LayoutTypeSystem.IsDAG

variable (hs : s.IsDAG) {a b c : Nat}
include hs

theorem target_mem_of_linked {isEdge : TypeLinkTag → Bool}
    (hab : LayoutTypeSystem.Linked isEdge s a b) : b ∈ s.layouts := by
  obtain ⟨ha, t, -, hmem⟩ := hab
  exact hs.target_mem ha hmem

theorem not_contains_self (a : Nat) : ¬ s.Contains a a :=
  hs.acyclic_of isNotPointerEdge_of_offset0 a

/-- What a visit at offset 0 reaches. -/
theorem reaches_iff (ha : a ∈ s.layouts) (hne : a ≠ b) :
    ReflTransGen (fun x y => y ∈ s.instancesAtOffset0 x) a b ↔ s.Contains a b := by
  have hiff : ReflTransGen (fun x y => y ∈ s.instancesAtOffset0 x) a b ↔
      ReflTransGen (LayoutTypeSystem.Linked isInstanceAtOffset0 s) a b := by
    constructor
    · intro hab
      -- the visit stays in the system
      have hboth : b ∈ s.layouts ∧
          ReflTransGen (LayoutTypeSystem.Linked isInstanceAtOffset0 s) a b := by
        clear hne
        induction hab with
        | refl => exact ⟨ha, .refl⟩
        | tail _ hstep ih =>
          have hlinked := (mem_instancesAtOffset0_iff_linked ih.1).mp hstep
          exact ⟨hs.target_mem_of_linked hlinked, ih.2.tail hlinked⟩
      exact hboth.2
    · exact ReflTransGen.mono (fun x y hxy => (mem_instancesAtOffset0_iff_linked hxy.1).mpr hxy) a b
  rw [hiff, reflTransGen_iff_eq_or_transGen]
  exact or_iff_right (Ne.symm hne)

theorem closed_instancesAtOffset0 :
    ∀ x ∈ s.layouts, ∀ y ∈ s.instancesAtOffset0 x, y ∈ s.layouts := fun _ hx _ hy =>
  hs.target_mem_of_linked ((mem_instancesAtOffset0_iff_linked hx).mp hy)

/-- The first visit finds what the first argument contains. -/
theorem comparePointee_eq_greater_iff (ha : a ∈ s.layouts) :
    s.comparePointee a b = .greater ↔ s.Contains a b := by
  have hmem : b ∈ depthFirst s.instancesAtOffset0 s.layouts.card a [] ↔ _ :=
    mem_depthFirst hs.closed_instancesAtOffset0 ha
  unfold LayoutTypeSystem.comparePointee
  split
  next heq =>
    subst heq
    simpa using hs.not_contains_self a
  next hne =>
    rw [hs.reaches_iff ha hne] at hmem
    simp only
    split
    next hb => simpa using hmem.mp hb
    next hb =>
      have hnot : ¬ s.Contains a b := fun h => hb (hmem.mpr h)
      split <;> simpa using hnot

/-- The second visit does not enter the first argument. -/
theorem comparePointee_ne_less (ha : a ∈ s.layouts) : s.comparePointee a b ≠ .less := by
  have hmem : a ∈ depthFirst s.instancesAtOffset0 s.layouts.card a [] :=
    (mem_depthFirst hs.closed_instancesAtOffset0 ha).mpr .refl
  unfold LayoutTypeSystem.comparePointee
  split
  · simp
  next hne =>
    simp only
    split
    · simp
    next hb =>
      have hnodup := nodup_depthFirst s.instancesAtOffset0 s.layouts.card b _
        (nodup_depthFirst s.instancesAtOffset0 s.layouts.card a [] List.nodup_nil)
      obtain ⟨rest, hrest⟩ := prefix_depthFirst s.instancesAtOffset0 s.layouts.card b
        (depthFirst s.instancesAtOffset0 s.layouts.card a [])
      rw [← hrest] at hnodup ⊢
      rw [List.drop_left]
      have hdisjoint := List.disjoint_of_nodup_append hnodup
      rw [if_neg (hdisjoint hmem)]
      simp

/-- The comparison is right about two nodes unless the second one contains the first one. -/
theorem comparePointee_iff (ha : a ∈ s.layouts) :
    ((s.comparePointee a b = .greater ↔ s.Contains a b) ∧
      (s.comparePointee a b = .less ↔ s.Contains b a)) ↔ ¬ s.Contains b a := by
  rw [and_iff_right (hs.comparePointee_eq_greater_iff ha),
    iff_false_left (hs.comparePointee_ne_less ha)]

/-! ## Generality -/

theorem points_unique {n x y : Nat} (hn : n ∈ s.layouts) (hx : s.Points n x) (hy : s.Points n y) :
    x = y := by
  obtain ⟨t, ht, hx⟩ := hx
  obtain ⟨u, hu, hy⟩ := hy
  exact congrArg Link.node (hs.onePointer n hn _ hx _ hy ht hu)

omit hs in
theorem isPointerNode_iff_points {n : Nat} : s.isPointerNode n ↔ ∃ x, s.Points n x := by
  rw [isPointerNode_iff]
  constructor
  · rintro ⟨⟨x, t⟩, hmem, ht⟩
    exact ⟨x, t, ht, hmem⟩
  · rintro ⟨x, t, ht, hmem⟩
    exact ⟨⟨x, t⟩, hmem, ht⟩

omit hs in
/-- What is more general than a leaf is a pointer. -/
theorem isPointerNode_of_moreGeneral (h : s.MoreGeneral a b) : s.isPointerNode a := by
  rcases h with ⟨ha, -⟩ | ⟨x, y, hx, -, -⟩
  · exact ha
  · exact isPointerNode_iff_points.mpr ⟨x, hx⟩

theorem not_moreGeneral_self (ha : a ∈ s.layouts) : ¬ s.MoreGeneral a a := by
  rintro (⟨ha, hnot⟩ | ⟨x, y, hx, hy, hxy⟩)
  · exact hnot ha
  · obtain rfl := hs.points_unique ha hx hy
    exact hs.not_contains_self x hxy

theorem moreGeneral_trans (hb : b ∈ s.layouts) (hab : s.MoreGeneral a b) (hbc : s.MoreGeneral b c) :
    s.MoreGeneral a c := by
  have hbPointer := isPointerNode_of_moreGeneral hbc
  rcases hab with ⟨-, hnot⟩ | ⟨x, y, hx, hy, hxy⟩
  · exact absurd hbPointer hnot
  rcases hbc with ⟨-, hc⟩ | ⟨y', z, hy', hz, hyz⟩
  · exact Or.inl ⟨isPointerNode_iff_points.mpr ⟨x, hx⟩, hc⟩
  · obtain rfl := hs.points_unique hb hy hy'
    exact Or.inr ⟨x, z, hx, hz, hxy.trans hyz⟩

/-! ## Comparing leaves -/

theorem getType_of_points {n x : Nat} (hn : n ∈ s.layouts) (hleaf : s.isLeaf n)
    (hx : s.Points n x) : s.getType n = some (.pointer x) := by
  have hpointer := isPointerNode_iff_points.mpr ⟨x, hx⟩
  obtain ⟨t, ht, hmem⟩ := hx
  have hsingle : (s.nodes n).successors = {⟨x, t⟩} := by
    refine Finset.eq_singleton_iff_unique_mem.mpr ⟨hmem, fun l hl => ?_⟩
    exact hs.onePointer n hn l hl _ hmem (isLeaf_iff.mp hleaf l hl) ht
  rw [LayoutTypeSystem.getType, if_pos hpointer, hsingle]
  simp [NeighborsSet.inOrder]

omit hs in
theorem getType_of_not_pointer {n : Nat} (h : ¬ s.isPointerNode n) :
    s.getType n = some .generic := by
  rw [LayoutTypeSystem.getType, if_neg h]

/-- The comparison of two leaves finds what is more general, but not which pointer is less so. -/
theorem compareLeafTypes_spec (ha : a ∈ s.layouts) (hb : b ∈ s.layouts) (hleafA : s.isLeaf a)
    (hleafB : s.isLeaf b) : ∃ cmp, s.compareLeafTypes a b = some cmp ∧
      (cmp = .greater ↔ s.MoreGeneral a b) ∧
      (cmp = .less ↔ s.isPointerNode b ∧ ¬ s.isPointerNode a) := by
  by_cases hpa : s.isPointerNode a <;> by_cases hpb : s.isPointerNode b
  · obtain ⟨x, hx⟩ := isPointerNode_iff_points.mp hpa
    obtain ⟨y, hy⟩ := isPointerNode_iff_points.mp hpb
    have hxmem : x ∈ s.layouts := by
      obtain ⟨t, -, hmem⟩ := hx
      exact hs.target_mem ha hmem
    refine ⟨s.comparePointee x y, ?_, ?_, ?_⟩
    · rw [LayoutTypeSystem.compareLeafTypes, hs.getType_of_points ha hleafA hx,
        hs.getType_of_points hb hleafB hy]
      rfl
    · rw [hs.comparePointee_eq_greater_iff hxmem]
      constructor
      · exact fun hxy => Or.inr ⟨x, y, hx, hy, hxy⟩
      · rintro (⟨-, hnot⟩ | ⟨x', y', hx', hy', hxy⟩)
        · exact absurd hpb hnot
        · rwa [hs.points_unique ha hx hx', hs.points_unique hb hy hy']
    · simp [hs.comparePointee_ne_less hxmem, hpa]
  · obtain ⟨x, hx⟩ := isPointerNode_iff_points.mp hpa
    refine ⟨.greater, ?_, iff_of_true rfl (Or.inl ⟨hpa, hpb⟩), by simp [hpb]⟩
    rw [LayoutTypeSystem.compareLeafTypes, hs.getType_of_points ha hleafA hx,
      getType_of_not_pointer hpb]
    rfl
  · obtain ⟨y, hy⟩ := isPointerNode_iff_points.mp hpb
    refine ⟨.less, ?_, ?_, by simp [hpa, hpb]⟩
    · rw [LayoutTypeSystem.compareLeafTypes, getType_of_not_pointer hpa,
        hs.getType_of_points hb hleafB hy]
      rfl
    · simpa using fun h => hpa (isPointerNode_of_moreGeneral h)
  · refine ⟨.equivalent, ?_, ?_, by simp [hpb]⟩
    · rw [LayoutTypeSystem.compareLeafTypes, getType_of_not_pointer hpa,
        getType_of_not_pointer hpb]
      rfl
    · simpa using fun h => hpa (isPointerNode_of_moreGeneral h)

end LayoutTypeSystem.IsDAG

end DataLayout
