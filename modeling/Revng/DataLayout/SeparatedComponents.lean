import Revng.DataLayout.ComputeNonInterferingComponents

/-!
# Nodes with separated children

After `ComputeNonInterferingComponents` the children of a node that is marked as non-interfering
take disjoint bytes, and those of any other node take all bytes between the first and the last one
(`Marked`).  All nodes of the system before have the same leaves at the same offsets.
-/

namespace DataLayout

open LayoutTypeSystem ByteOffsets IntervalGroups PartialLoops

variable {E : Type} {t t' t'' : LayoutTypeSystem E} {n m k : Nat} {l : Link}

namespace LayoutTypeSystem

/-- The bytes that a child takes of its parent. -/
def childBytes (t : LayoutTypeSystem E) (l : Link) : Set ℕ :=
  Set.Ico l.tag.offsetExpr.offset (fieldEnd (t.nodes l.node).size l.tag)

/-- The mark of a node says how its children lie. -/
def Marked (t : LayoutTypeSystem E) (n : Nat) : Prop :=
  ((t.nodes n).interferingInfo = .allChildrenAreNonInterfering ∧
    (t.instanceEdges n : Set Link).PairwiseDisjoint t.childBytes) ∨
  ((t.nodes n).interferingInfo = .allChildrenAreInterfering ∧
    (⋃ l ∈ t.instanceEdges n, t.childBytes l).OrdConnected)

end LayoutTypeSystem

theorem LayoutTypeSystem.Marked.congr (h : t.Marked n) (hsucc : (t'.nodes n).successors = (t.nodes n).successors)
    (hinfo : (t'.nodes n).interferingInfo = (t.nodes n).interferingInfo)
    (hsize : ∀ l ∈ (t.nodes n).successors, (t'.nodes l.node).size = (t.nodes l.node).size) :
    t'.Marked n := by
  have hedges : t'.instanceEdges n = t.instanceEdges n := by
    rw [LayoutTypeSystem.instanceEdges, hsucc, LayoutTypeSystem.instanceEdges]
  have hbytes : ∀ l ∈ t.instanceEdges n, t'.childBytes l = t.childBytes l := fun l hl => by
    rw [LayoutTypeSystem.childBytes, hsize l (mem_instanceEdges.mp hl).1,
      LayoutTypeSystem.childBytes]
  rw [LayoutTypeSystem.Marked, hinfo, hedges]
  refine Or.imp (And.imp_right fun hdisjoint => ?_) (And.imp_right fun hconnected => ?_) h
  · intro l hl l' hl' hne
    rw [Function.onFun, hbytes l hl, hbytes l' hl']
    exact hdisjoint hl hl' hne
  · rwa [Set.iUnion₂_congr hbytes]

/-! ## The bytes of a group -/

theorem OrderedChild.bytes_eq (h : t.FieldsInRange n) (hl : l ∈ t.instanceEdges n) :
    Set.Ico (t.orderedChild l).beginByte (t.orderedChild l).endByte = t.childBytes l := by
  rw [(FieldsInRange.of_mem h hl).endByte_eq]
  rfl

/-- The groups of the children of `n`. -/
structure Partitioned (t : LayoutTypeSystem E) (n : Nat) (groups : List (Cluster OrderedChild))
    (children : List OrderedChild) : Prop where
  inRange : t.FieldsInRange n
  ordered : Ordered t n children
  components : Components groups children

section Partitioned

variable {groups : List (Cluster OrderedChild)} {children : List OrderedChild}
  {g : Cluster OrderedChild} {c : OrderedChild} (h : Partitioned t n groups children)
include h

theorem Partitioned.exists_group (hl : l ∈ t.instanceEdges n) :
    ∃ g ∈ groups, t.orderedChild l ∈ g.items := by
  have hmem := (h.ordered.mem _).mpr ⟨l, hl, rfl⟩
  rw [← h.components.items] at hmem
  obtain ⟨g, hg, hc⟩ := List.mem_flatMap.mp hmem
  exact ⟨g, List.mem_reverse.mp hg, hc⟩

theorem Partitioned.mem_children (hg : g ∈ groups) (hc : c ∈ g.items) : c ∈ children := by
  rw [← h.components.items]
  exact List.mem_flatMap.mpr ⟨g, List.mem_reverse.mpr hg, hc⟩

theorem Partitioned.exists_edge (hg : g ∈ groups) (hc : c ∈ g.items) :
    ∃ l ∈ t.instanceEdges n, t.orderedChild l = c :=
  (h.ordered.mem c).mp (h.mem_children hg hc)

theorem Partitioned.mem_links (hg : g ∈ groups) : l ∈ (toComponent g).links ↔
    l ∈ t.instanceEdges n ∧ t.orderedChild l ∈ g.items := by
  rw [Component.links, toComponent, List.mem_map]
  constructor
  · rintro ⟨c, hc, rfl⟩
    obtain ⟨l, hl, rfl⟩ := h.exists_edge hg hc
    exact ⟨hl, hc⟩
  · rintro ⟨-, hmem⟩
    exact ⟨_, hmem, rfl⟩

/-- Children of different groups take different bytes. -/
theorem Partitioned.apart {g' : Cluster OrderedChild} (hg : g ∈ groups) (hg' : g' ∈ groups)
    (hne : g ≠ g') : Apart Cluster.first Cluster.last g g' := by
  have hpairs : groups.Pairwise (Apart Cluster.first Cluster.last) :=
    h.components.separated.imp Or.inr
  exact hpairs.forall hg hg' hne

/-- The edges of the groups are different ones. -/
theorem Partitioned.nodup_links : (∀ g ∈ groups, (toComponent g).links.Nodup) ∧
    (groups.map toComponent).reverse.Pairwise fun c d => ∀ l ∈ c.links, l ∉ d.links := by
  have hnodup := h.ordered.nodup
  rw [← h.components.items, List.map_flatMap, List.nodup_flatMap] at hnodup
  obtain ⟨heach, hpairs⟩ := hnodup
  refine ⟨fun g hg => heach g (List.mem_reverse.mpr hg), ?_⟩
  rw [← List.map_reverse, List.pairwise_map]
  exact hpairs.imp fun hdisjoint l hl hl' => hdisjoint hl hl'

theorem Partitioned.movable (hg : g ∈ groups) : (toComponent g).Movable t n := by
  have hvalid := h.components.valid g hg
  have hrange : ∀ {l}, l ∈ (toComponent g).links →
      l ∈ t.instanceEdges n ∧ FieldInRange (t.nodes l.node).size l.tag ∧
        t.orderedChild l ∈ g.items := fun hl => by
    obtain ⟨hl, hmem⟩ := (h.mem_links hg).mp hl
    exact ⟨hl, FieldsInRange.of_mem h.inRange hl, hmem⟩
  have hfirst : ∀ {l}, l ∈ (toComponent g).links → g.first ≤ l.tag.offsetExpr.offset := fun hl =>
    (hvalid.within _ (hrange hl).2.2).1
  obtain ⟨c, hc⟩ := List.exists_mem_of_ne_nil _ hvalid.nonempty
  have hlinks : c.child ∈ (toComponent g).links := List.mem_map_of_mem hc
  refine ⟨hvalid.first_lt, (hfirst hlinks).trans (hrange hlinks).2.1.limit, ?_,
    h.nodup_links.1 g hg, fun l hl => (mem_instanceEdges.mp (hrange hl).1).1,
    fun l hl => (hrange hl).2.1.inst, fun l hl => ⟨hfirst hl, (hrange hl).2.1.limit⟩⟩
  -- the last byte of the group is the last one of a child
  have hlast := hvalid.first_lt
  obtain ⟨d, hd, -, hstop⟩ := hvalid.covers (g.last - 1) (by omega) (by omega)
  obtain ⟨l, hl, rfl⟩ := h.exists_edge hg hd
  rw [(FieldsInRange.of_mem h.inRange hl).endByte_eq] at hstop
  have hends := (FieldsInRange.of_mem h.inRange hl).ends
  change g.last < 2 ^ 64
  omega

/-- The children of one group are connected. -/
theorem Partitioned.iUnion_childBytes (hg : groups = [g]) :
    ⋃ l ∈ t.instanceEdges n, t.childBytes l = Set.Ico g.first g.last := by
  subst hg
  rw [← (h.components.valid g List.mem_cons_self).iUnion_items]
  ext x
  simp only [Set.mem_iUnion, exists_prop]
  constructor
  · rintro ⟨l, hl, hx⟩
    obtain ⟨g', hg', hc⟩ := h.exists_group hl
    obtain rfl := List.mem_singleton.mp hg'
    rw [← OrderedChild.bytes_eq h.inRange hl] at hx
    exact ⟨_, hc, hx⟩
  · rintro ⟨c, hc, hx⟩
    obtain ⟨l, hl, rfl⟩ := h.exists_edge List.mem_cons_self hc
    rw [OrderedChild.bytes_eq h.inRange hl] at hx
    exact ⟨l, hl, hx⟩

end Partitioned

/-! ## A node that was left -/

section SetInfo

variable {s : LayoutTypeSystem E} {info : InterferingChildrenInfo}

theorem nodes_setInterferingInfo : (s.setInterferingInfo n info).nodes m =
    if m = n then { s.nodes m with interferingInfo := info } else s.nodes m :=
  modify_apply s.nodes n (fun node => { node with interferingInfo := info }) m

theorem successors_setInterferingInfo :
    ((s.setInterferingInfo n info).nodes m).successors = (s.nodes m).successors := by
  rw [nodes_setInterferingInfo]
  split <;> rfl

theorem size_setInterferingInfo :
    ((s.setInterferingInfo n info).nodes m).size = (s.nodes m).size := by
  rw [nodes_setInterferingInfo]
  split <;> rfl

theorem interferingInfo_setInterferingInfo_self :
    ((s.setInterferingInfo n info).nodes n).interferingInfo = info := by
  rw [nodes_setInterferingInfo, if_pos rfl]

theorem nodes_setInterferingInfo_of_ne (hne : m ≠ n) :
    (s.setInterferingInfo n info).nodes m = s.nodes m := by
  rw [nodes_setInterferingInfo, if_neg hne]

theorem instanceEdges_setInterferingInfo :
    (s.setInterferingInfo n info).instanceEdges m = s.instanceEdges m := by
  rw [LayoutTypeSystem.instanceEdges, successors_setInterferingInfo,
    LayoutTypeSystem.instanceEdges]

theorem childBytes_setInterferingInfo :
    (s.setInterferingInfo n info).childBytes l = s.childBytes l := by
  rw [LayoutTypeSystem.childBytes, size_setInterferingInfo, LayoutTypeSystem.childBytes]

theorem hasAt_setInterferingInfo {c x : Nat} :
    (s.setInterferingInfo n info).HasAt m c x ↔ s.HasAt m c x :=
  hasAt_congr successors_setInterferingInfo

theorem consistent_setInterferingInfo (hs : s.Consistent) :
    (s.setInterferingInfo n info).Consistent := by
  obtain ⟨g, hg⟩ := hs.represents
  exact Represents.consistent (s := s.setInterferingInfo n info) (hg.modify (k := n)
    (f := fun node => { node with interferingInfo := info }) rfl rfl)

theorem nodeRewritten_setInterferingInfo (hs : s.Consistent) (hids : s.IdsBelow)
    (hn : n ∈ s.layouts) : NodeRewritten s n (s.setInterferingInfo n info) where
  consistent := consistent_setInterferingInfo hs
  idsBelow := hids
  subset := Finset.Subset.refl _
  size _ _ := size_setInterferingInfo
  others m _ hmn := by
    rw [nodes_setInterferingInfo_of_ne hmn]
    exact ⟨rfl, rfl⟩
  split _ _ hat := .single (hasAt_setInterferingInfo.mpr hat)
  targets m hm hnew l hl hnot _ := by
    rw [successors_setInterferingInfo] at hl
    obtain rfl : m = n := hnew.resolve_right fun hnot => hnot hm
    exact ⟨l.tag, hnot, hl⟩

end SetInfo

/-- What the visit makes of the node `n`, that it leaves. -/
structure Separated (t : LayoutTypeSystem E) (n : Nat) (t' : LayoutTypeSystem E) : Prop where
  rewritten : NodeRewritten t n t'
  joined : ∀ c x, t'.HasAt n c x → t.HasAt n c x ∨
    c ∉ t.layouts ∧ ∀ d y, t'.HasAt c d y → t.HasAt n d (x + y)
  leaf : t'.isLeaf n ↔ t.isLeaf n
  noLeaf : ∀ m ∈ t'.layouts, m ∉ t.layouts → ¬ t'.isLeaf m
  marked : ∀ m ∈ t'.layouts, m = n ∨ m ∉ t.layouts → t'.Marked m

section Created

variable {parts : List (Nat × Component)} {p : Nat × Component} (h : Created t n parts t')
include h

theorem Created.mem_new (hp : p ∈ parts) : ⟨p.1, p.2.linkTag⟩ ∈ (t'.nodes n).successors :=
  (h.source _).mpr (Or.inl ⟨p, hp, rfl⟩)

/-- A child of a new node was a child of `n`. -/
theorem Created.hasAt_component (hmovable : ∀ p ∈ parts, p.2.Movable t n) (hp : p ∈ parts)
    {c y : Nat} : t'.HasAt p.1 c y ↔
      ∃ l ∈ p.2.links, l.node = c ∧ FieldAt l.tag (p.2.startByte + y) := by
  have hsame : ∀ l ∈ p.2.links, (FieldAt (shiftTag p.2.startByte l.tag) y ↔
      FieldAt l.tag (p.2.startByte + y)) := fun l hl => by
    rw [fieldAt_shiftTag ((hmovable p hp).offset l hl).1]
    constructor
    · exact fun hy => ⟨y, hy, rfl⟩
    · rintro ⟨z, hz, heq⟩
      rwa [Nat.add_left_cancel heq]
  constructor
  · rintro ⟨l, hl, rfl, hx⟩
    obtain ⟨l', hl', rfl⟩ := ((h.component p hp).successors l).mp (mem_instanceEdges.mp hl).1
    exact ⟨l', hl', rfl, (hsame l' hl').mp hx⟩
  · rintro ⟨l, hl, rfl, hx⟩
    exact ⟨_, mem_instanceEdges.mpr ⟨((h.component p hp).successors _).mpr ⟨l, hl, rfl⟩,
      (hmovable p hp).inst l hl⟩, rfl, (hsame l hl).mpr hx⟩

theorem Created.joined (hmovable : ∀ p ∈ parts, p.2.Movable t n) {c x : Nat}
    (hat : t'.HasAt n c x) : t.HasAt n c x ∨
      c ∉ t.layouts ∧ ∀ d y, t'.HasAt c d y → t.HasAt n d (x + y) := by
  obtain ⟨l, hl, rfl, hx⟩ := hat
  obtain ⟨hsucc, hinst⟩ := mem_instanceEdges.mp hl
  rcases (h.source l).mp hsucc with ⟨p, hp, rfl⟩ | ⟨hold, -⟩
  · obtain rfl := fieldAt_plain.mp hx
    refine Or.inr ⟨h.fresh p hp, fun d y hy => ?_⟩
    obtain ⟨l', hl', rfl, hx'⟩ := (h.hasAt_component hmovable hp).mp hy
    exact ⟨l', mem_instanceEdges.mpr ⟨(hmovable p hp).edge l' hl', (hmovable p hp).inst l' hl'⟩,
      rfl, hx'⟩
  · exact Or.inl ⟨l, mem_instanceEdges.mpr ⟨hold, hinst⟩, rfl, hx⟩

theorem Created.isLeaf_iff (hmovable : ∀ p ∈ parts, p.2.Movable t n)
    (hlinks : ∀ p ∈ parts, p.2.links ≠ []) : t'.isLeaf n ↔ t.isLeaf n := by
  have hnotPointer : ∀ {tag}, isInstanceEdge tag → ¬ isPointerEdge tag := fun htag => by
    simpa [isNotPointerEdge] using isNotPointerEdge_of_instance htag
  rw [LayoutTypeSystem.isLeaf_iff, LayoutTypeSystem.isLeaf_iff]
  constructor
  · intro hleaf l hl
    by_cases hmoved : ∃ p ∈ parts, l ∈ p.2.links
    · obtain ⟨p, hp, -⟩ := hmoved
      exact absurd (hleaf _ (h.mem_new hp)) (hnotPointer rfl)
    · simp only [not_exists, not_and] at hmoved
      exact hleaf l ((h.source l).mpr (Or.inr ⟨hl, hmoved⟩))
  · intro hleaf l hl
    rcases (h.source l).mp hl with ⟨p, hp, rfl⟩ | ⟨hold, -⟩
    · obtain ⟨l', hl'⟩ := List.exists_mem_of_ne_nil _ (hlinks p hp)
      exact absurd (hleaf l' ((hmovable p hp).edge l' hl')) (hnotPointer ((hmovable p hp).inst l' hl'))
    · exact hleaf l hold

theorem Created.not_isLeaf (hmovable : ∀ p ∈ parts, p.2.Movable t n)
    (hlinks : ∀ p ∈ parts, p.2.links ≠ []) (hp : p ∈ parts) : ¬ t'.isLeaf p.1 := by
  rw [LayoutTypeSystem.isLeaf_iff]
  intro hleaf
  obtain ⟨l, hl⟩ := List.exists_mem_of_ne_nil _ (hlinks p hp)
  have hinst := isNotPointerEdge_of_instance ((hmovable p hp).inst l hl)
  have hpointer := hleaf _ (((h.component p hp).successors _).mpr ⟨l, hl, rfl⟩)
  rw [isNotPointerEdge] at hinst
  have hpointer' : isPointerEdge l.tag := hpointer
  simp [hpointer'] at hinst

theorem Created.childBytes_eq (ht : t.Consistent) (hn : n ∈ t.layouts)
    (hl : l ∈ t.instanceEdges n) : t'.childBytes l = t.childBytes l := by
  have hmem := ht.successor_mem hn (mem_instanceEdges.mp hl).1
  rw [LayoutTypeSystem.childBytes, (h.fields _ hmem).size, LayoutTypeSystem.childBytes]

theorem Created.separated (hn : n ∈ t.layouts) (hmovable : ∀ p ∈ parts, p.2.Movable t n)
    (hlinks : ∀ p ∈ parts, p.2.links ≠ []) (hcomponents : ∀ p ∈ parts, t'.Marked p.1)
    {info : InterferingChildrenInfo} (hmarked : (t'.setInterferingInfo n info).Marked n) :
    Separated t n (t'.setInterferingInfo n info) := by
  have hleaf : ∀ m, (t'.setInterferingInfo n info).isLeaf m ↔ t'.isLeaf m := fun m => by
    rw [LayoutTypeSystem.isLeaf_iff, LayoutTypeSystem.isLeaf_iff, successors_setInterferingInfo]
  have hset : NodeRewritten t' n (t'.setInterferingInfo n info) :=
    nodeRewritten_setInterferingInfo h.rewritten.consistent h.rewritten.idsBelow
      (h.rewritten.subset hn)
  refine ⟨h.rewritten.trans hset hn, fun c x hat => ?_,
    (hleaf n).trans (h.isLeaf_iff hmovable hlinks), fun m hm hnew => ?_, fun m hm hnew => ?_⟩
  · simp only [hasAt_setInterferingInfo] at hat ⊢
    exact h.joined hmovable hat
  · obtain ⟨p, hp, rfl⟩ := ((h.layouts m).mp hm).resolve_left hnew
    rw [hleaf]
    exact h.not_isLeaf hmovable hlinks hp
  · by_cases hmn : m = n
    · rwa [hmn]
    · obtain ⟨p, hp, rfl⟩ := ((h.layouts m).mp hm).resolve_left (hnew.resolve_left hmn)
      refine (hcomponents p hp).congr successors_setInterferingInfo ?_
        fun l _ => size_setInterferingInfo
      rw [nodes_setInterferingInfo_of_ne hmn]

end Created

/-! ## The marks -/

section Marks

variable {groups : List (Cluster OrderedChild)} {children : List OrderedChild}
  {g : Cluster OrderedChild} {parts : List (Nat × Component)} {p : Nat × Component}
  (h : Partitioned t n groups children) (hcreated : Created t n parts t')
include h hcreated

/-- The children of a new node are connected. -/
theorem Partitioned.marked_component (ht : t.Consistent) (hn : n ∈ t.layouts) (hg : g ∈ groups)
    (hp : p ∈ parts) (hpg : p.2 = toComponent g) : t'.Marked p.1 := by
  have hvalid := h.components.valid g hg
  have hcomponent := hcreated.component p hp
  refine Or.inr ⟨hcomponent.interferingInfo, ?_⟩
  suffices hunion : ⋃ l ∈ t'.instanceEdges p.1, t'.childBytes l = Set.Ico 0 (g.last - g.first) by
    rw [hunion]
    exact Set.ordConnected_Ico
  -- the bytes of the group are `g.first` bytes later in `n`
  have hshift : ∀ l ∈ t.instanceEdges n, t.orderedChild l ∈ g.items → ∀ x,
      (x ∈ t'.childBytes ⟨l.node, shiftTag g.first l.tag⟩ ↔
        x + g.first ∈ Set.Ico (t.orderedChild l).beginByte (t.orderedChild l).endByte) := by
    intro l hl hitem x
    have hfirst : g.first ≤ l.tag.offsetExpr.offset := (hvalid.within _ hitem).1
    have hmem := ht.successor_mem hn (mem_instanceEdges.mp hl).1
    rw [OrderedChild.bytes_eq h.inRange hl]
    simp only [LayoutTypeSystem.childBytes, fieldEnd, dimensions_shiftTag, offset_shiftTag,
      Set.mem_Ico, (hcreated.fields _ hmem).size]
    omega
  ext x
  have hall : x + g.first ∈ Set.Ico g.first g.last ↔ x ∈ Set.Ico 0 (g.last - g.first) := by
    simp only [Set.mem_Ico]
    omega
  rw [← hall, ← hvalid.iUnion_items]
  simp only [Set.mem_iUnion, exists_prop]
  constructor
  · rintro ⟨l, hl, hx⟩
    obtain ⟨l', hl', rfl⟩ := (hcomponent.successors l).mp (mem_instanceEdges.mp hl).1
    rw [hpg] at hl' hx
    obtain ⟨hedge, hitem⟩ := (h.mem_links hg).mp hl'
    exact ⟨_, hitem, (hshift l' hedge hitem x).mp hx⟩
  · rintro ⟨c, hc, hx⟩
    obtain ⟨l, hl, rfl⟩ := h.exists_edge hg hc
    have hlinks : l ∈ p.2.links := hpg ▸ (h.mem_links hg).mpr ⟨hl, hc⟩
    refine ⟨⟨l.node, shiftTag g.first l.tag⟩, mem_instanceEdges.mpr
      ⟨(hcomponent.successors _).mpr ⟨l, hlinks, by rw [hpg]; rfl⟩, (mem_instanceEdges.mp hl).2⟩, ?_⟩
    exact (hshift l hl hc x).mpr hx

omit h hcreated in
/-- The group `g` gives `n` the edge `l`: to its new node, or to its only child. -/
def Owner (t : LayoutTypeSystem E) (n : Nat) (parts : List (Nat × Component))
    (g : Cluster OrderedChild) (l : Link) : Prop :=
  (∃ p ∈ parts, p.2 = toComponent g ∧ l = ⟨p.1, p.2.linkTag⟩) ∨
    l ∈ t.instanceEdges n ∧ g.items = [t.orderedChild l]

omit hcreated in
theorem Partitioned.nodup_components : (groups.map toComponent).Nodup := by
  have hgroups : groups.Nodup := by
    refine h.components.separated.imp_of_mem fun {g g'} hg _ hle heq => ?_
    have hlt := (h.components.valid g hg).first_lt
    rw [← heq] at hle
    exact (hle.trans_lt hlt).false
  refine hgroups.map fun g g' heq => ?_
  obtain ⟨items, first, last⟩ := g
  cases heq
  rfl

variable (hparts : parts.map Prod.snd =
  (groups.map toComponent).reverse.filter fun c => 1 < c.children.length)
include hparts

omit h hcreated in
theorem mem_parts (hp : p ∈ parts) :
    ∃ g ∈ groups, p.2 = toComponent g ∧ 1 < g.items.length := by
  have hmem : p.2 ∈ parts.map Prod.snd := List.mem_map_of_mem hp
  rw [hparts, List.mem_filter, List.mem_reverse, List.mem_map] at hmem
  obtain ⟨⟨g, hg, heq⟩, hlength⟩ := hmem
  rw [← heq] at hlength
  exact ⟨g, hg, heq.symm, of_decide_eq_true hlength⟩

omit h hcreated in
theorem exists_part (hg : g ∈ groups) (hlength : 1 < g.items.length) :
    ∃ p ∈ parts, p.2 = toComponent g := by
  have hmem : toComponent g ∈ parts.map Prod.snd := by
    rw [hparts, List.mem_filter, List.mem_reverse]
    exact ⟨List.mem_map_of_mem hg, decide_eq_true hlength⟩
  obtain ⟨p, hp, heq⟩ := List.mem_map.mp hmem
  exact ⟨p, hp, heq⟩

theorem Partitioned.exists_owner (hl : l ∈ t'.instanceEdges n) :
    ∃ g ∈ groups, Owner t n parts g l := by
  obtain ⟨hsucc, hinst⟩ := mem_instanceEdges.mp hl
  rcases (hcreated.source l).mp hsucc with ⟨p, hp, rfl⟩ | ⟨hold, hnone⟩
  · obtain ⟨g, hg, hpg, -⟩ := mem_parts hparts hp
    exact ⟨g, hg, Or.inl ⟨p, hp, hpg, rfl⟩⟩
  · have hedge := mem_instanceEdges.mpr ⟨hold, hinst⟩
    obtain ⟨g, hg, hitem⟩ := h.exists_group hedge
    have hlength : ¬ 1 < g.items.length := fun hlt => by
      obtain ⟨p, hp, hpg⟩ := exists_part hparts hg hlt
      exact hnone p hp (hpg ▸ (h.mem_links hg).mpr ⟨hedge, hitem⟩)
    have hone : g.items.length = 1 :=
      Nat.le_antisymm (Nat.not_lt.mp hlength) (List.length_pos_of_mem hitem)
    obtain ⟨c, hc⟩ := List.length_eq_one_iff.mp hone
    rw [hc, List.mem_singleton] at hitem
    exact ⟨g, hg, Or.inr ⟨hedge, by rw [hc, hitem]⟩⟩

omit hparts in
theorem Partitioned.childBytes_owner (ht : t.Consistent) (hn : n ∈ t.layouts) (hg : g ∈ groups)
    (howner : Owner t n parts g l) : t'.childBytes l = Set.Ico g.first g.last := by
  have hvalid := h.components.valid g hg
  rcases howner with ⟨p, hp, hpg, rfl⟩ | ⟨hl, hitems⟩
  · have hsize := (hcreated.component p hp).size
    have hlt := hvalid.first_lt
    rw [hpg] at hsize
    rw [LayoutTypeSystem.childBytes, hpg, hsize]
    change Set.Ico g.first (g.first + (g.last - g.first)) = _
    rw [Nat.add_sub_cancel' hlt.le]
  · rw [hcreated.childBytes_eq ht hn hl, ← hvalid.iUnion_items, hitems,
      ← OrderedChild.bytes_eq h.inRange hl]
    simp

omit hcreated in
theorem Partitioned.owner_unique {l' : Link} (howner : Owner t n parts g l)
    (howner' : Owner t n parts g l') : l = l' := by
  have hmany : ∀ {p c}, p ∈ parts → p.2 = toComponent g → g.items = [c] → False := by
    intro p c hp hpg hitems
    obtain ⟨g', -, hpg', hlength⟩ := mem_parts hparts hp
    have hitems' : g'.items = g.items := congrArg Component.children (hpg'.symm.trans hpg)
    rw [hitems', hitems] at hlength
    exact hlength.false
  rcases howner with ⟨p, hp, hpg, rfl⟩ | ⟨hl, hitems⟩
  · rcases howner' with ⟨q, hq, hqg, rfl⟩ | ⟨-, hitems⟩
    · have hnodup : (parts.map Prod.snd).Nodup := by
        rw [hparts]
        exact (List.nodup_reverse.mpr h.nodup_components).filter _
      rw [List.inj_on_of_nodup_map hnodup hp hq (hpg.trans hqg.symm)]
    · exact (hmany hp hpg hitems).elim
  · rcases howner' with ⟨q, hq, hqg, rfl⟩ | ⟨-, hitems'⟩
    · exact (hmany hq hqg hitems).elim
    · have heq := List.singleton_inj.mp (hitems.symm.trans hitems')
      exact congrArg OrderedChild.child heq

/-- Different edges come from different groups. -/
theorem Partitioned.pairwiseDisjoint (ht : t.Consistent) (hn : n ∈ t.layouts) :
    (t'.instanceEdges n : Set Link).PairwiseDisjoint t'.childBytes := by
  intro l hl l' hl' hne
  obtain ⟨g, hg, howner⟩ := h.exists_owner hcreated hparts hl
  obtain ⟨g', hg', howner'⟩ := h.exists_owner hcreated hparts hl'
  have hgroups : g ≠ g' := by
    rintro rfl
    exact hne (h.owner_unique hparts howner howner')
  rw [Function.onFun, h.childBytes_owner hcreated ht hn hg howner,
    h.childBytes_owner hcreated ht hn hg' howner']
  exact (h.apart hg hg' hgroups).disjoint

end Marks

theorem marked_setInterferingInfo_of_disjoint
    (h : (t.instanceEdges n : Set Link).PairwiseDisjoint t.childBytes) :
    (t.setInterferingInfo n .allChildrenAreNonInterfering).Marked n := by
  refine Or.inl ⟨interferingInfo_setInterferingInfo_self, ?_⟩
  simpa only [instanceEdges_setInterferingInfo, Set.PairwiseDisjoint, Set.Pairwise, Function.onFun,
    childBytes_setInterferingInfo] using h

theorem marked_setInterferingInfo_of_connected
    (h : (⋃ l ∈ t.instanceEdges n, t.childBytes l).OrdConnected) :
    (t.setInterferingInfo n .allChildrenAreInterfering).Marked n := by
  refine Or.inr ⟨interferingInfo_setInterferingInfo_self, ?_⟩
  simpa only [instanceEdges_setInterferingInfo, childBytes_setInterferingInfo] using h

theorem Ordered.pairwiseDisjoint {children : List OrderedChild} (h : Ordered t n children)
    (hlength : children.length ≤ 1) :
    (t.instanceEdges n : Set Link).PairwiseDisjoint t.childBytes := by
  intro l hl l' hl' hne
  have hmem := (h.mem _).mpr ⟨l, hl, rfl⟩
  have hmem' := (h.mem _).mpr ⟨l', hl', rfl⟩
  obtain ⟨c, rfl⟩ := List.length_eq_one_iff.mp
    (Nat.le_antisymm hlength (List.length_pos_of_mem hmem))
  have heq := (List.mem_singleton.mp hmem).trans (List.mem_singleton.mp hmem').symm
  exact absurd (congrArg OrderedChild.child heq) hne

/-- The visit completes at a node. -/
theorem exists_computeComponentsOf [IntEqClasses E] (addresses : Addresses) (ht : t.Consistent)
    (hids : t.IdsBelow) (hn : n ∈ t.layouts) (hsize : (t.nodes n).size ≠ 0)
    (hrange : t.FieldsInRange n) :
    ∃ t', computeComponentsOf addresses n t = some t' ∧ Separated t n t' := by
  obtain ⟨children, hchildren, hordered⟩ := exists_orderedChildren addresses hrange
  have hkept := Created.refl ht hids hn
  by_cases hlength : children.length ≤ 1
  · refine ⟨_, ?_, hkept.separated hn (by simp) (by simp) (by simp)
      (marked_setInterferingInfo_of_disjoint (hordered.pairwiseDisjoint hlength))⟩
    simp only [computeComponentsOf, guard, if_pos hsize, hchildren, if_pos hlength,
      Option.pure_def, Option.bind_eq_bind, Option.bind_some]
  have hfields : ∀ c ∈ children, 0 < c.fieldSize ∧ c.beginByte + c.fieldSize < 2 ^ 64 := by
    intro c hc
    obtain ⟨l, hl, rfl⟩ := (hordered.mem c).mp hc
    have hfield := FieldsInRange.of_mem hrange hl
    exact ⟨hfield.positive.trans_le (le_extent _ _), hfield.ends⟩
  obtain ⟨groups, hgroups, hcomponents⟩ := exists_components hordered.sorted hfields
  have h : Partitioned t n groups children := ⟨hrange, hordered, hcomponents⟩
  rcases groups with _ | ⟨g, _ | ⟨g', earlier⟩⟩
  · exact absurd (hcomponents.items ▸ Nat.zero_le 1) hlength
  · have hitems : g.items = children := by simpa using hcomponents.items
    have hmany : 1 < (toComponent g).children.length := by
      rw [toComponent, hitems]
      exact Nat.not_le.mp hlength
    refine ⟨_, ?_, hkept.separated hn (by simp) (by simp) (by simp)
      (marked_setInterferingInfo_of_connected ?_)⟩
    · simp only [computeComponentsOf, guard, if_pos hsize, hchildren, if_neg hlength, hgroups,
        List.map_cons, List.map_nil, if_pos hmany, Option.pure_def, Option.bind_eq_bind,
        Option.bind_some]
    · rw [h.iUnion_childBytes rfl]
      exact Set.ordConnected_Ico
  · generalize hall : g :: g' :: earlier = groups at h
    have hmovable : ∀ c ∈ (groups.map toComponent).reverse.filter
        fun c => 1 < c.children.length, c.Movable t n := fun c hc => by
      obtain ⟨g, hg, rfl⟩ := List.mem_map.mp (List.mem_reverse.mp (List.mem_filter.mp hc).1)
      exact h.movable hg
    obtain ⟨t', parts, hrun, hparts, hcreated⟩ := exists_created _ ht hids hn hmovable
      (h.nodup_links.2.filter _)
    have hmovable' : ∀ p ∈ parts, p.2.Movable t n := fun p hp =>
      hmovable _ (hparts ▸ List.mem_map_of_mem hp)
    refine ⟨_, ?_, hcreated.separated hn hmovable' (fun p hp hnil => ?_) (fun p hp => ?_)
      (marked_setInterferingInfo_of_disjoint (h.pairwiseDisjoint hcreated hparts ht hn))⟩
    · subst hall
      simp only [List.map_cons] at hrun
      simp only [computeComponentsOf, guard, if_pos hsize, hchildren, if_neg hlength, hgroups,
        List.map_cons, hrun, Option.pure_def, Option.bind_eq_bind, Option.bind_some]
    · obtain ⟨g, -, hpg, hmany⟩ := mem_parts hparts hp
      rw [hpg, Component.links, List.map_eq_nil_iff] at hnil
      change g.items = [] at hnil
      simp [hnil] at hmany
    · obtain ⟨g, hg, hpg, -⟩ := mem_parts hparts hp
      exact h.marked_component hcreated ht hn hg hp hpg

/-!
## The leaves that are reached

Each visit separates the children of one node, and leaves the other ones as they are.  So all nodes
are marked after the pass, and the leaves are reached at the same offsets as before
(`computeNonInterferingComponents_marked`).
-/

open PostOrder

variable {s : LayoutTypeSystem E} {left : Finset Nat} {x : Nat}

namespace LayoutTypeSystem

/-- The sizes and the tags are those that the assertions and the link limit allow. -/
structure WithinLimits (s : LayoutTypeSystem E) : Prop where
  idsBelow : s.IdsBelow
  bothWays : s.EqualityBothWays
  positive : ∀ n ∈ s.layouts, 0 < (s.nodes n).size
  wellFormed : ∀ n ∈ s.layouts, ∀ l ∈ s.instanceEdges n, l.tag.offsetExpr.WellFormed
  limit : ∀ n ∈ s.layouts, ∀ l ∈ s.instanceEdges n, l.tag.offsetExpr.offset ≤ 0xFFFF
  ends : ∀ n ∈ s.layouts, ∀ l ∈ s.instanceEdges n, fieldEnd (s.nodes l.node).size l.tag < 2 ^ 64

/-- The leaf `m` is reached from `n` at the byte offset `x`. -/
def LeafAt (s : LayoutTypeSystem E) (n m x : Nat) : Prop := s.isLeaf m ∧ Reaches s.HasAt n m x

end LayoutTypeSystem

theorem LayoutTypeSystem.WithinLimits.fieldsInRange (h : s.WithinLimits) (hs : s.IsDAG)
    (hn : n ∈ s.layouts) : s.FieldsInRange n := fun l hl hnot => by
  have hinst := hs.isInstanceEdge h.bothWays hn hl hnot
  have hedge := mem_instanceEdges.mpr ⟨hl, hinst⟩
  exact ⟨hinst, h.wellFormed n hn l hedge, h.positive _ (hs.target_mem hn hl), h.limit n hn l hedge,
    h.ends n hn l hedge⟩

theorem isLeaf_congr (h : (t'.nodes n).successors = (t.nodes n).successors) :
    t'.isLeaf n ↔ t.isLeaf n := by
  rw [LayoutTypeSystem.isLeaf_iff, LayoutTypeSystem.isLeaf_iff, h]

/-- The nodes in `left` and the new ones are marked, and lead where those of `s` do. -/
structure Separating (s : LayoutTypeSystem E) (left : Finset Nat) (t : LayoutTypeSystem E) :
    Prop where
  marked : ∀ m ∈ t.layouts, m ∈ left ∨ m ∉ s.layouts → t.Marked m
  joined : ∀ n ∈ left, ∀ c x, t.HasAt n c x → s.HasAt n c x ∨
    c ∉ s.layouts ∧ ∀ d y, t.HasAt c d y → s.HasAt n d (x + y)
  leaf : ∀ m ∈ s.layouts, t.isLeaf m ↔ s.isLeaf m
  noLeaf : ∀ m ∈ t.layouts, m ∉ s.layouts → ¬ t.isLeaf m

theorem Separating.start (s : LayoutTypeSystem E) : Separating s ∅ s where
  marked m hm hmem := absurd hm (hmem.resolve_left (Finset.notMem_empty m))
  joined := by simp
  leaf _ _ := Iff.rfl
  noLeaf _ hm hnot := absurd hm hnot

theorem Separating.leave (h : Separating s left t) (hr : Rewriting s left t) (hn : n ∈ s.layouts)
    (hnot : n ∉ left) (hsep : Separated t n t') : Separating s (insert n left) t' where
  marked m hm hmem := by
    by_cases hnew : m = n ∨ m ∉ t.layouts
    · exact hsep.marked m hm hnew
    · rw [not_or, not_not] at hnew
      obtain ⟨hmn, hmt⟩ := hnew
      have hmem' : m ∈ left ∨ m ∉ s.layouts :=
        hmem.imp_left fun hin => (Finset.mem_insert.mp hin).resolve_left hmn
      obtain ⟨hsucc, hinfo⟩ := hsep.rewritten.others m hmt hmn
      exact (h.marked m hmt hmem').congr hsucc hinfo fun l hl =>
        hsep.rewritten.size _ (hr.consistent.successor_mem hmt hl)
  joined m hm c x hat := by
    rcases Finset.mem_insert.mp hm with rfl | hmLeft
    · have hsame := fun {c x} => hasAt_congr (c := c) (x := x) (hr.pending m hn hnot)
      rcases hsep.joined c x hat with hat | ⟨hc, hjoin⟩
      · exact Or.inl (hsame.mp hat)
      · exact Or.inr ⟨fun hmem => hc (hr.subset hmem), fun d y hd => hsame.mp (hjoin d y hd)⟩
    · have hsame : ∀ {a}, a ∈ t.layouts → a ≠ n → ∀ {c x}, (t'.HasAt a c x ↔ t.HasAt a c x) :=
        fun ha hne => hasAt_congr (hsep.rewritten.others _ ha hne).1
      have hmt := hr.subset (hr.leftMem m hmLeft)
      have hat := (hsame hmt fun heq => hnot (heq ▸ hmLeft)).mp hat
      refine (h.joined m hmLeft c x hat).imp_right fun hnew => ⟨hnew.1, fun d y hd => ?_⟩
      -- a new node stays as it is
      exact hnew.2 d y ((hsame (hr.consistent.hasAt_mem hmt hat) fun heq =>
        hnew.1 (heq ▸ hn)).mp hd)
  leaf m hm := by
    by_cases hmn : m = n
    · rw [hmn, hsep.leaf]
      exact h.leaf n hn
    · rw [isLeaf_congr (hsep.rewritten.others m (hr.subset hm) hmn).1]
      exact h.leaf m hm
  noLeaf m hm hnew := by
    by_cases hmt : m ∈ t.layouts
    · have hmn : m ≠ n := fun heq => hnew (heq ▸ hn)
      rw [isLeaf_congr (hsep.rewritten.others m hmt hmn).1]
      exact h.noLeaf m hmt hnew
    · exact hsep.noLeaf m hm hmt

theorem Separating.refines (h : Separating s left t) (hr : Rewriting s left t) (hs : s.IsDAG)
    (hleft : ∀ n ∈ s.layouts, n ∈ left) : Refines (fun n => n ∈ s.layouts) s.HasAt t.HasAt :=
  { hr.splits hs hleft with joined := fun n c x hn hat => h.joined n (hleft n hn) c x hat }

theorem mem_of_reaches (ht : t.Consistent) (hreach : Reaches t.HasAt n m x) :
    n ∈ t.layouts → m ∈ t.layouts := by
  induction hreach with
  | refl => exact id
  | step hedge _ ih => exact fun hn => ih (ht.hasAt_mem hn hedge)

theorem Separating.leafAt_iff (h : Separating s left t) (hr : Rewriting s left t) (hs : s.IsDAG)
    (hleft : ∀ n ∈ s.layouts, n ∈ left) (hn : n ∈ s.layouts) : s.LeafAt n m x ↔ t.LeafAt n m x := by
  have hrefines := h.refines hr hs hleft
  constructor
  · rintro ⟨hleaf, hreach⟩
    have hm := mem_of_reaches hs.consistent hreach hn
    exact ⟨(h.leaf m hm).mpr hleaf, (hrefines.reaches_iff hn hm).mp hreach⟩
  · rintro ⟨hleaf, hreach⟩
    have hm : m ∈ s.layouts := by
      by_contra hnew
      exact h.noLeaf m (mem_of_reaches hr.consistent hreach (hr.subset hn)) hnew hleaf
    exact ⟨(h.leaf m hm).mp hleaf, (hrefines.reaches_iff hn hm).mpr hreach⟩

/-- The first two children overlap, and the last one does not. -/
def overlappingChildren : LayoutTypeSystem LeaderTable :=
  ofEdges 4 {(0, ⟨1, .instanceTag ⟨0, [], []⟩⟩), (0, ⟨2, .instanceTag ⟨4, [], []⟩⟩),
    (0, ⟨3, .instanceTag ⟨12, [], []⟩⟩)} fun n => if n = 0 then 16 else if n = 3 then 4 else 8

end DataLayout
