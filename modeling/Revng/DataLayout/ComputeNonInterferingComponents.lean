import Revng.DataLayout.NodeRewrites
import Revng.Lib.IntervalGroups
import Revng.Lib.PartialLoops

/-!
# Non-interfering components

`ComputeNonInterferingComponents` visits the nodes in post-order.  It sorts the children of a node by
their offsets, and puts those that overlap in one component.  If there is more than one component,
the children of each one that has several of them are moved to a new node.

The nodes that are created on the way have a predecessor, so the loop over the roots passes over
them.
-/

namespace DataLayout

open LayoutTypeSystem PostOrder

structure OrderedChild where
  child : Link
  fieldSize : Nat

/-- What `operator<=>` compares, one after the other. -/
def OrderedChild.key (addresses : Addresses) (c : OrderedChild) : TypeLinkTag ×ₗ ℕ ×ₗ ℕ :=
  toLex (c.child.tag, toLex (c.fieldSize, addresses.node c.child.node))

def OrderedChild.beginByte (c : OrderedChild) : Nat := c.child.tag.offsetExpr.offset

def OrderedChild.endByte (c : OrderedChild) : Nat := uint64 (c.beginByte + c.fieldSize)

/-- The children from `StartChildIt` to `EndChildIt`, and the bytes they take. -/
structure Component where
  children : List OrderedChild
  startByte : Nat
  endByte : Nat

def makeNewComponentFromChild (c : OrderedChild) : Component := ⟨[c], c.beginByte, c.endByte⟩

/-- One round of the loop over the children, where the last component comes first. -/
def addToComponents (components : List Component) (c : OrderedChild) : Option (List Component) :=
  match components with
  | [] => some [makeNewComponentFromChild c]
  | curr :: earlier => do
      guard (curr.startByte < curr.endByte)
      let childSize := subtract c.endByte c.beginByte
      guard (0 < childSize)
      guard (curr.startByte ≤ c.beginByte)
      if curr.endByte ≤ c.beginByte then
        return makeNewComponentFromChild c :: curr :: earlier
      else
        return { curr with
          children := curr.children ++ [c]
          endByte := max curr.endByte (uint64 (c.beginByte + childSize)) } :: earlier

/-- An `uint64_t` with its sign changed, as an `int64_t`. -/
def negated (n : Nat) : Int := int64 (subtract 0 n)

variable {E : Type}

namespace LayoutTypeSystem

variable [IntEqClasses E]

def orderedChildren (addresses : Addresses) (s : LayoutTypeSystem E) (n : Nat) :
    Option (List OrderedChild) := do
  let children ← ((s.nodes n).successors.inOrder.filter fun l => isNotPointerEdge l.tag).mapM
    fun l => do return ⟨l, ← getFieldSize (s.nodes l.node) l.tag⟩
  return children.mergeSort fun c d => c.key addresses ≤ d.key addresses

def setInterferingInfo (s : LayoutTypeSystem E) (n : Nat) (info : InterferingChildrenInfo) :
    LayoutTypeSystem E :=
  { s with nodes := s.nodes.modify n fun node => { node with interferingInfo := info } }

/-- The children of a component are moved to a new node. -/
def createComponent (n : Nat) (s : LayoutTypeSystem E) (c : Component) :
    Option (LayoutTypeSystem E) := do
  guard (c.startByte < c.endByte)
  let new := s.nid
  let s := s.createWith fun node =>
    { node with
      interferingInfo := .allChildrenAreInterfering
      size := subtract c.endByte c.startByte }
  let s ← c.children.foldlM
    (fun s d => s.moveEdgeSource (some n) (some new) d.child (negated c.startByte)) s
  s.addInstanceLink (some n) (some new) ⟨c.startByte, [], []⟩

/-- What the visit does when it leaves `n`. -/
def computeComponentsOf (addresses : Addresses) (n : Nat) (s : LayoutTypeSystem E) :
    Option (LayoutTypeSystem E) := do
  guard ((s.nodes n).size ≠ 0)
  let children ← s.orderedChildren addresses n
  if children.length ≤ 1 then return s.setInterferingInfo n .allChildrenAreNonInterfering
  let components ← children.foldlM addToComponents []
  match components with
  | [] => none
  | [c] =>
      return s.setInterferingInfo n
        (if 1 < c.children.length then .allChildrenAreInterfering
          else .allChildrenAreNonInterfering)
  | components =>
      let s ← (components.reverse.filter fun c => 1 < c.children.length).foldlM
        (createComponent n) s
      return s.setInterferingInfo n .allChildrenAreNonInterfering

def computeNonInterferingComponents (addresses : Addresses) (s : LayoutTypeSystem E) :
    Option (LayoutTypeSystem E) :=
  (postOrderFrom isRoot nonPointerChildren (computeComponentsOf addresses) (s.layouts.card + 1)
    s.layouts.sort s).map Prod.snd

end LayoutTypeSystem

/-!
## The components of a node

The children of a node are put in groups by the bytes they take (`foldlM_addToComponents`).  The
groups with several children are moved to new nodes, one after the other (`Created`).
-/

open IntervalGroups PartialLoops

variable {t t' t'' : LayoutTypeSystem E} {n k : Nat} {l : Link} {tag : TypeLinkTag}

/-! ## The children in order -/

/-- What is asserted of a field, and the limit on the offsets of the links. -/
structure FieldInRange (size : Nat) (tag : TypeLinkTag) : Prop where
  inst : isInstanceEdge tag
  wellFormed : tag.offsetExpr.WellFormed
  positive : 0 < size
  limit : tag.offsetExpr.offset ≤ 0xFFFF
  ends : fieldEnd size tag < 2 ^ 64

namespace LayoutTypeSystem

/-- The fields of a node are in range. -/
def FieldsInRange (t : LayoutTypeSystem E) (n : Nat) : Prop :=
  ∀ l ∈ (t.nodes n).successors, isNotPointerEdge l.tag →
    FieldInRange (t.nodes l.node).size l.tag

def orderedChild (t : LayoutTypeSystem E) (l : Link) : OrderedChild :=
  ⟨l, extent l.tag.offsetExpr.dimensions (t.nodes l.node).size⟩

end LayoutTypeSystem

theorem FieldInRange.getFieldSize_eq {child : LayoutTypeSystemNode}
    (h : FieldInRange child.size tag) :
    getFieldSize child tag = some (extent tag.offsetExpr.dimensions child.size) :=
  DataLayout.getFieldSize_eq h.inst h.wellFormed h.positive
    ((Nat.le_add_left _ _).trans_lt h.ends)

theorem FieldInRange.endByte_eq (h : FieldInRange (t.nodes l.node).size l.tag) :
    (t.orderedChild l).endByte = fieldEnd (t.nodes l.node).size l.tag := uint64_of_lt h.ends

/-- Instance tags are ordered by their offsets first. -/
theorem offset_le_of_le {tag' : TypeLinkTag} (h : isInstanceEdge tag) (h' : isInstanceEdge tag')
    (hle : tag ≤ tag') : tag.offsetExpr.offset ≤ tag'.offsetExpr.offset := by
  have hkind : tag.kind = tag'.kind :=
    (show tag.kind = .inst by simpa [isInstanceEdge] using h).trans
      (show tag'.kind = .inst by simpa [isInstanceEdge] using h').symm
  have hmembers : tag.members ≤ tag'.members := hle
  rw [TypeLinkTag.members, TypeLinkTag.members, Prod.Lex.toLex_le_toLex, hkind] at hmembers
  obtain hlt | ⟨-, hrest⟩ := hmembers
  · exact absurd hlt (lt_irrefl _)
  · rcases Prod.Lex.toLex_le_toLex.mp hrest with hlt | ⟨heq, -⟩
    · exact hlt.le
    · exact heq.le

theorem mem_instanceEdges_iff (h : t.FieldsInRange n) : l ∈ t.instanceEdges n ↔
    l ∈ (t.nodes n).successors ∧ isNotPointerEdge l.tag := by
  rw [mem_instanceEdges]
  exact and_congr_right fun hl =>
    ⟨fun hinst => isNotPointerEdge_of_instance hinst, fun hnot => (h l hl hnot).inst⟩

theorem LayoutTypeSystem.FieldsInRange.of_mem (h : t.FieldsInRange n) (hl : l ∈ t.instanceEdges n) :
    FieldInRange (t.nodes l.node).size l.tag :=
  h l (mem_instanceEdges.mp hl).1 (isNotPointerEdge_of_instance (mem_instanceEdges.mp hl).2)

/-- The children of a node, sorted by their offsets. -/
structure Ordered (t : LayoutTypeSystem E) (n : Nat) (children : List OrderedChild) : Prop where
  mem : ∀ c, c ∈ children ↔ ∃ l ∈ t.instanceEdges n, t.orderedChild l = c
  nodup : (children.map OrderedChild.child).Nodup
  sorted : children.Pairwise fun c d => c.beginByte ≤ d.beginByte

theorem exists_orderedChildren [IntEqClasses E] (addresses : Addresses) (h : t.FieldsInRange n) :
    ∃ children, t.orderedChildren addresses n = some children ∧ Ordered t n children := by
  set links := (t.nodes n).successors.inOrder.filter fun l => isNotPointerEdge l.tag with hlinks
  have hmem : ∀ l, l ∈ links ↔ l ∈ t.instanceEdges n := fun l => by
    rw [mem_instanceEdges_iff h, hlinks, List.mem_filter, NeighborsSet.mem_inOrder]
  have hmap : links.mapM (fun l => do return (⟨l, ← getFieldSize (t.nodes l.node) l.tag⟩ :
      OrderedChild)) = some (links.map t.orderedChild) := by
    refine mapM_eq_some_map fun l hl => ?_
    rw [(FieldsInRange.of_mem h ((hmem l).mp hl)).getFieldSize_eq]
    rfl
  have hnodup : ((links.map t.orderedChild).map OrderedChild.child).Nodup := by
    rw [List.map_map]
    have hid : links.map (OrderedChild.child ∘ t.orderedChild) = links := List.map_id _
    rw [hid]
    exact (Finset.sort_nodup _ _).filter _
  set children := (links.map t.orderedChild).mergeSort
    fun c d => decide (c.key addresses ≤ d.key addresses) with hchildren
  have hperm : children.Perm (links.map t.orderedChild) := List.mergeSort_perm _ _
  have hchild : ∀ c, c ∈ children ↔ ∃ l ∈ t.instanceEdges n, t.orderedChild l = c := by
    intro c
    rw [hperm.mem_iff, List.mem_map]
    simp only [hmem]
  refine ⟨children, ?_, hchild, (hperm.map _).nodup_iff.mpr hnodup, ?_⟩
  · rw [LayoutTypeSystem.orderedChildren, ← hlinks, hmap]
    rfl
  · have hkeys : children.Pairwise fun c d => decide (c.key addresses ≤ d.key addresses) = true :=
      List.pairwise_mergeSort (fun a b c hab hbc => decide_eq_true
        ((of_decide_eq_true hab).trans (of_decide_eq_true hbc)))
        (fun a b => by simpa using le_total _ _) _
    refine hkeys.imp_of_mem fun {c d} hc hd hle => ?_
    obtain ⟨l, hl, rfl⟩ := (hchild c).mp hc
    obtain ⟨m, hm, rfl⟩ := (hchild d).mp hd
    refine offset_le_of_le (mem_instanceEdges.mp hl).2 (mem_instanceEdges.mp hm).2 ?_
    rcases Prod.Lex.toLex_le_toLex.mp (of_decide_eq_true hle) with hlt | ⟨heq, -⟩
    · exact hlt.le
    · exact heq.le

/-! ## Grouping the children -/

def toComponent (g : Cluster OrderedChild) : Component := ⟨g.items, g.first, g.last⟩

abbrev Components := Grouped OrderedChild.beginByte OrderedChild.endByte

/-- No assertion fails, and the child is put in its group. -/
theorem addToComponents_eq {groups : List (Cluster OrderedChild)} {children : List OrderedChild}
    (hg : Components groups children) {c : OrderedChild}
    (hsorted : ∀ b ∈ children, b.beginByte ≤ c.beginByte)
    (hsize : 0 < c.fieldSize) (hends : c.beginByte + c.fieldSize < 2 ^ 64) :
    addToComponents (groups.map toComponent) c =
      some ((insertItem OrderedChild.beginByte OrderedChild.endByte groups c).map toComponent) := by
  have hend : c.endByte = c.beginByte + c.fieldSize := uint64_of_lt hends
  cases groups with
  | nil => rfl
  | cons g earlier =>
    have hvalid := hg.valid g List.mem_cons_self
    obtain ⟨b, hb⟩ := List.exists_mem_of_ne_nil _ hvalid.nonempty
    have hfirst : g.first ≤ c.beginByte := by
      refine (hvalid.within b hb).1.trans (hsorted b ?_)
      rw [← hg.items]
      exact List.mem_flatMap.mpr ⟨g, List.mem_reverse.mpr List.mem_cons_self, hb⟩
    have hchild : subtract c.endByte c.beginByte = c.fieldSize := by
      rw [hend, subtract]
      omega
    have hsum : uint64 (c.beginByte + c.fieldSize) = c.endByte := rfl
    simp only [List.map_cons, addToComponents, guard, toComponent, if_pos hvalid.first_lt, hchild,
      if_pos hsize, if_pos hfirst, hsum, insertItem]
    split <;> rfl

theorem exists_components {children : List OrderedChild}
    (hsorted : children.Pairwise fun c d => c.beginByte ≤ d.beginByte)
    (hrange : ∀ c ∈ children, 0 < c.fieldSize ∧ c.beginByte + c.fieldSize < 2 ^ 64) :
    ∃ groups, children.foldlM addToComponents [] = some (groups.map toComponent) ∧
      Components groups children := by
  have hround : ∀ before c after, before ++ c :: after = children → ∀ components,
      (∃ groups, components = groups.map toComponent ∧ Components groups before) →
      ∃ components', addToComponents components c = some components' ∧
        ∃ groups, components' = groups.map toComponent ∧ Components groups (before ++ [c]) := by
    rintro before c after rfl _ ⟨groups, rfl, hg⟩
    obtain ⟨hsize, hends⟩ := hrange c (by simp)
    have hbefore : ∀ b ∈ before, b.beginByte ≤ c.beginByte := fun b hb =>
      (List.pairwise_append.mp hsorted).2.2 b hb c List.mem_cons_self
    have hlt : c.beginByte < c.endByte := by
      rw [OrderedChild.endByte, uint64_of_lt hends]
      exact Nat.lt_add_of_pos_right hsize
    exact ⟨_, addToComponents_eq hg hbefore hsize hends, _, rfl, hg.insertItem hbefore hlt⟩
  obtain ⟨_, hrun, groups, rfl, hg⟩ := exists_foldlM hround (b := []) ⟨[], rfl, grouped_nil⟩
  exact ⟨groups, hrun, hg⟩

/-! ## Moving the children of a component -/

/-- The tag of a field in a node that starts `k` bytes later. -/
def shiftTag (k : Nat) (tag : TypeLinkTag) : TypeLinkTag :=
  { tag with offsetExpr := { tag.offsetExpr with offset := tag.offsetExpr.offset - k } }

theorem dimensions_shiftTag :
    (shiftTag k tag).offsetExpr.dimensions = tag.offsetExpr.dimensions := rfl

theorem offset_shiftTag : (shiftTag k tag).offsetExpr.offset = tag.offsetExpr.offset - k := rfl

theorem fieldAt_shiftTag (hk : k ≤ tag.offsetExpr.offset) {x : Nat} :
    FieldAt tag x ↔ ∃ y, FieldAt (shiftTag k tag) y ∧ x = k + y := by
  constructor
  · rintro ⟨y, hy, rfl⟩
    refine ⟨tag.offsetExpr.offset - k + y, ⟨y, hy, rfl⟩, ?_⟩
    rw [← Nat.add_assoc, Nat.add_sub_cancel' hk]
  · rintro ⟨_, ⟨y, hy, rfl⟩, rfl⟩
    refine ⟨y, hy, ?_⟩
    change k + (tag.offsetExpr.offset - k + y) = _
    rw [← Nat.add_assoc, Nat.add_sub_cancel' hk]

theorem negated_eq (hk : k ≤ 0xFFFF) : negated k = -(k : ℤ) := by
  rcases Nat.eq_zero_or_pos k with rfl | hpos
  · rfl
  · have hdiff : subtract 0 k = 2 ^ 64 - k := by
      rw [subtract]
      omega
    rw [negated, hdiff, int64, if_neg (by omega)]
    omega

theorem addOffset_negated {offset : Nat} (hk : k ≤ offset) (hlimit : offset ≤ 0xFFFF) :
    addOffset offset (negated k) = offset - k := by
  rw [negated_eq (hk.trans hlimit), addOffset]
  omega

variable {new : Nat}

/-- An edge is moved, and its offset does not wrap around. -/
theorem exists_moveEdgeSource (ht : t.Consistent) (hn : n ∈ t.layouts) (hnew : new ∈ t.layouts)
    (hne : n ≠ new) (hl : l ∈ (t.nodes n).successors) (hneTgt : l.node ≠ new)
    (hinst : isInstanceEdge l.tag) (hk : k ≤ l.tag.offsetExpr.offset)
    (hlimit : l.tag.offsetExpr.offset ≤ 0xFFFF) :
    ∃ t', t.moveEdgeSource (some n) (some new) l (negated k) = some t' ∧
      EdgesMoved t n new (shiftTag k) [l] t' := by
  have htgt : l.node ∈ t.layouts := ht.successor_mem hn hl
  have hlink : t.HasLink n l.node l.tag := ⟨hl, (ht.mirror n hn l.node htgt l.tag).mp hl⟩
  have hkind : l.tag.kind = .inst := by simpa [isInstanceEdge] using hinst
  refine ⟨_, ?_, edgesMoved_of_links ht hnew hne htgt hneTgt (Or.inl rfl)⟩
  simp only [moveEdgeSource, guard, if_pos (show n ∈ t.layouts ∧ new ∈ t.layouts ∧
    t.HasLink n l.node l.tag from ⟨hn, hnew, hlink⟩), Option.pure_def, Option.bind_eq_bind,
    Option.bind_some]
  split
  next hzero =>
    have hk : k = 0 := by
      rw [negated_eq (hk.trans hlimit)] at hzero
      omega
    subst hk
    rfl
  next =>
    have hsmall : ¬ 0xFFFF < l.tag.offsetExpr.offset - k :=
      Nat.not_lt.mpr ((Nat.sub_le _ _).trans hlimit)
    have htag : TypeLinkTag.instanceTag { l.tag.offsetExpr with
        offset := l.tag.offsetExpr.offset - k } = shiftTag k l.tag := by
      rw [shiftTag, TypeLinkTag.instanceTag, hkind]
    simp only [Option.bind_some, addOffset_negated hk hlimit, addInstanceLink,
      if_neg hsmall, htag, addLink, if_neg hneTgt.symm, if_pos (show new ∈ t.layouts ∧
        l.node ∈ t.layouts from ⟨hnew, htgt⟩), Option.map_some]

/-! ## Creating the nodes -/

def Component.links (c : Component) : List Link := c.children.map OrderedChild.child

/-- The tag of the edge to the node of a component. -/
def Component.linkTag (c : Component) : TypeLinkTag := .instanceTag ⟨c.startByte, [], []⟩

/-- The children of a component can be moved. -/
structure Component.Movable (t : LayoutTypeSystem E) (n : Nat) (c : Component) : Prop where
  lt : c.startByte < c.endByte
  limit : c.startByte ≤ 0xFFFF
  ends : c.endByte < 2 ^ 64
  nodup : c.links.Nodup
  edge : ∀ l ∈ c.links, l ∈ (t.nodes n).successors
  inst : ∀ l ∈ c.links, isInstanceEdge l.tag
  offset : ∀ l ∈ c.links, c.startByte ≤ l.tag.offsetExpr.offset ∧ l.tag.offsetExpr.offset ≤ 0xFFFF

/-- The node `m` has the children of a component. -/
structure IsComponent (t : LayoutTypeSystem E) (m : Nat) (c : Component) : Prop where
  successors : ∀ l, l ∈ (t.nodes m).successors ↔
    ∃ l' ∈ c.links, l = ⟨l'.node, shiftTag c.startByte l'.tag⟩
  size : (t.nodes m).size = c.endByte - c.startByte
  interferingInfo : (t.nodes m).interferingInfo = .allChildrenAreInterfering

/-- A node was created for each of some components of `n`. -/
structure Created (t : LayoutTypeSystem E) (n : Nat) (parts : List (Nat × Component))
    (t' : LayoutTypeSystem E) : Prop where
  rewritten : NodeRewritten t n t'
  layouts : ∀ m, m ∈ t'.layouts ↔ m ∈ t.layouts ∨ ∃ p ∈ parts, p.1 = m
  fresh : ∀ p ∈ parts, p.1 ∉ t.layouts
  fields : ∀ m ∈ t.layouts, SameFields (t'.nodes m) (t.nodes m)
  source : ∀ l, l ∈ (t'.nodes n).successors ↔ (∃ p ∈ parts, l = ⟨p.1, p.2.linkTag⟩) ∨
    l ∈ (t.nodes n).successors ∧ ∀ p ∈ parts, l ∉ p.2.links
  component : ∀ p ∈ parts, IsComponent t' p.1 p.2

theorem Created.refl (ht : t.Consistent) (hids : t.IdsBelow) (hn : n ∈ t.layouts) :
    Created t n [] t where
  rewritten := .refl ht hids hn
  layouts := by simp
  fresh := by simp
  fields _ _ := .refl _
  source := by simp
  component := by simp

/-- Each field of a component is split at the start of the component. -/
theorem Component.Movable.nodeRewritten {c : Component} (hc : c.Movable t n) (hids : t.IdsBelow)
    (h : Regrouped t n (shiftTag c.startByte) c.links c.linkTag t') : NodeRewritten t n t' :=
  h.nodeRewritten hids (fun l hl => mem_instanceEdges.mpr ⟨hc.edge l hl, hc.inst l hl⟩) rfl hc.inst
    fun l hl x hx => by
      obtain ⟨z, hz, rfl⟩ := (fieldAt_shiftTag (hc.offset l hl).1).mp hx
      exact ⟨c.startByte, z, fieldAt_plain.mpr rfl, hz, rfl⟩

theorem Created.cons {parts : List (Nat × Component)} {c : Component} (ht : t.Consistent)
    (hids : t.IdsBelow) (hn : n ∈ t.layouts) (hmovable : c.Movable t n)
    (h : Regrouped t n (shiftTag c.startByte) c.links c.linkTag t') (hc : IsComponent t' t.nid c)
    (hlinks : ∀ p ∈ parts, ∀ l ∈ p.2.links, l ∈ (t.nodes n).successors)
    (h' : Created t' n parts t'') : Created t n ((t.nid, c) :: parts) t'' := by
  have hr := hmovable.nodeRewritten hids h
  have hnid : t.nid ∉ t.layouts := fun hmem => (hids _ hmem).false
  have hnew : t.nid ∈ t'.layouts := h.layouts ▸ Finset.mem_insert_self _ _
  refine ⟨hr.trans h'.rewritten hn, fun m => ?_, ?_, fun m hm => ?_, fun l => ?_, ?_⟩
  · rw [h'.layouts, h.layouts, Finset.mem_insert, List.exists_mem_cons_iff]
    tauto
  · exact List.forall_mem_cons.mpr ⟨hnid, fun p hp hmem => h'.fresh p hp (hr.subset hmem)⟩
  · exact (h'.fields m (hr.subset hm)).trans (h.fields m hm)
  · have hnone : ∀ p ∈ parts, ⟨t.nid, c.linkTag⟩ ∉ p.2.links := fun p hp hmem =>
      hnid (ht.successor_mem hn (hlinks p hp _ hmem))
    rw [h'.source, h.source]
    simp only [List.exists_mem_cons_iff, List.forall_mem_cons]
    constructor
    · rintro (hnew | ⟨rfl | ⟨hmem, hnot⟩, hrest⟩)
      · exact Or.inl (Or.inr hnew)
      · exact Or.inl (Or.inl rfl)
      · exact Or.inr ⟨hmem, hnot, hrest⟩
    · rintro ((rfl | hnew) | ⟨hmem, hnot, hrest⟩)
      · exact Or.inr ⟨Or.inl rfl, hnone⟩
      · exact Or.inl hnew
      · exact Or.inr ⟨Or.inr ⟨hmem, hnot⟩, hrest⟩
  · refine List.forall_mem_cons.mpr ⟨⟨?_, ?_, ?_⟩, h'.component⟩
    · rw [(h'.rewritten.others _ hnew fun heq => hnid (heq ▸ hn)).1]
      exact hc.successors
    · exact (h'.fields _ hnew).size.trans hc.size
    · exact (h'.fields _ hnew).interferingInfo.trans hc.interferingInfo

section Create

variable [IntEqClasses E] {c : Component}

theorem exists_createComponent (ht : t.Consistent) (hids : t.IdsBelow) (hn : n ∈ t.layouts)
    (hc : c.Movable t n) : ∃ t', createComponent n t c = some t' ∧
      Regrouped t n (shiftTag c.startByte) c.links c.linkTag t' ∧ IsComponent t' t.nid c := by
  have hne : ∀ {m}, m ∈ t.layouts → m ≠ t.nid := fun hm => (hids _ hm).ne
  set created := fun node : LayoutTypeSystemNode =>
    { node with
      interferingInfo := .allChildrenAreInterfering
      size := subtract c.endByte c.startByte } with hcreated
  obtain ⟨t₁, t', hmoved, -, hlink, hregrouped, hfields⟩ := exists_regrouped (f := created) ht hids
    hn rfl rfl (fun l => l.node ≠ t.nid ∧ isInstanceEdge l.tag ∧
      c.startByte ≤ l.tag.offsetExpr.offset ∧ l.tag.offsetExpr.offset ≤ 0xFFFF)
    (fun t l ht hn' hnew hl hP => exists_moveEdgeSource ht hn' hnew (hne hn) hl hP.1 hP.2.1 hP.2.2.1
      hP.2.2.2) hc.nodup
    (fun l hl => ⟨hc.edge l hl, hne (ht.successor_mem hn (hc.edge l hl)), hc.inst l hl,
      hc.offset l hl⟩) ⟨c.startByte, [], []⟩ hc.limit
  refine ⟨t', ?_, hregrouped, hregrouped.target, ?_, hfields.interferingInfo⟩
  · rw [Component.links, List.foldlM_map] at hmoved
    simp only [createComponent, guard, if_pos hc.lt, Option.pure_def, Option.bind_eq_bind,
      Option.bind_some, ← hcreated, hmoved, hlink]
  · have hdiff : subtract c.endByte c.startByte = c.endByte - c.startByte := by
      have hlt := hc.lt
      have hends := hc.ends
      rw [subtract]
      omega
    exact hfields.size.trans hdiff

/-- The components are created one after the other. -/
theorem exists_created (components : List Component) : ∀ {t : LayoutTypeSystem E}, t.Consistent →
    t.IdsBelow → n ∈ t.layouts → (∀ c ∈ components, c.Movable t n) →
    components.Pairwise (fun c d => ∀ l ∈ c.links, l ∉ d.links) →
    ∃ t' parts, components.foldlM (createComponent n) t = some t' ∧
      parts.map Prod.snd = components ∧ Created t n parts t' := by
  induction components with
  | nil => exact fun ht hids hn _ _ => ⟨_, [], rfl, rfl, .refl ht hids hn⟩
  | cons c components ih =>
    intro t ht hids hn hmovable hdisjoint
    obtain ⟨hfirst, hrest⟩ := List.pairwise_cons.mp hdisjoint
    obtain ⟨t₁, hone, h₁, hc₁⟩ :=
      exists_createComponent ht hids hn (hmovable c List.mem_cons_self)
    have hmovable₁ : ∀ d ∈ components, d.Movable t₁ n := fun d hd => by
      have hd' := hmovable d (List.mem_cons_of_mem _ hd)
      exact
        { hd' with
          edge := fun l hl => (h₁.source l).mpr
            (Or.inr ⟨hd'.edge l hl, fun hmem => hfirst d hd l hmem hl⟩) }
    obtain ⟨t', parts, hrun, hparts, h'⟩ := ih h₁.consistent (h₁.idsBelow hids)
      (h₁.layouts ▸ Finset.mem_insert_of_mem hn) hmovable₁ hrest
    refine ⟨t', (t.nid, c) :: parts, ?_, by rw [List.map_cons, hparts],
      Created.cons ht hids hn (hmovable c List.mem_cons_self) h₁ hc₁ (fun p hp l hl => ?_) h'⟩
    · rw [List.foldlM_cons, hone]
      exact hrun
    · have hp' : p.2 ∈ components := hparts ▸ List.mem_map_of_mem hp
      exact (hmovable p.2 (List.mem_cons_of_mem _ hp')).edge l hl

end Create

end DataLayout
