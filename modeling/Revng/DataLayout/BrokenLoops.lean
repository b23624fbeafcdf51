import Revng.DataLayout.BackedgeSearch

/-!
# Which loops are broken

The roots of the instance-at-offset-0 edges take turns to expose instance edges with an offset, and
what they expose is removed (`foldlM_removeBackedgesFrom_keeps`).
-/

namespace DataLayout

open LayoutTypeSystem LabelledGraph OrderedGraph StrongComponents Relation

variable {E : Type} {s s' : LayoutTypeSystem E} {g g' : TypeGraph}

/-! ## The graph of the instance edges -/

def instanceGraph (s : LayoutTypeSystem E) : OrderedGraph Nat Link where
  out := fun n => {l | n ∈ s.layouts ∧ isInstanceEdge l.tag ∧ l ∈ (s.nodes n).successors}
  tgt := Link.node

theorem isMixedEdge_eq (t : TypeLinkTag) : isMixedEdge t = isInstanceEdge t := by
  cases hinst : isInstanceEdge t with
  | false => simp [isMixedEdge, isInstanceOffNon0, isInstanceOff0, hinst]
  | true => cases hoff : isInstanceOff0 t <;> simp [isMixedEdge, isInstanceOffNon0, hinst, hoff]

theorem mem_mixedEdges {n : Nat} {l : Link} :
    l ∈ mixedEdges s n ↔ isInstanceEdge l.tag ∧ l ∈ (s.nodes n).successors := by
  rw [mixedEdges, List.mem_filter, NeighborsSet.mem_inOrder, isMixedEdge_eq, and_comm]

theorem mixedEdges_sorted (s : LayoutTypeSystem E) (n : Nat) :
    (mixedEdges s n).Pairwise (· < ·) :=
  (NeighborsSet.inOrder_sorted _).sublist List.filter_sublist

theorem linked_instanceGraph {a b : Nat} :
    (instanceGraph s).Linked a b ↔ LayoutTypeSystem.Linked isInstanceEdge s a b := by
  constructor
  · rintro ⟨⟨b, t⟩, ⟨ha, ht, hmem⟩, rfl⟩
    exact ⟨ha, t, ht, hmem⟩
  · rintro ⟨ha, t, ht, hmem⟩
    exact ⟨⟨b, t⟩, ⟨ha, ht, hmem⟩, rfl⟩

theorem linked_eq (s : LayoutTypeSystem E) :
    (instanceGraph s).Linked = LayoutTypeSystem.Linked isInstanceEdge s :=
  funext fun _ => funext fun _ => propext linked_instanceGraph

theorem Represents.mem_out_iff (hs : Represents s.layouts s.nodes g) {n : Nat} {l : Link} :
    l ∈ (instanceGraph s).out n ↔ isInstanceEdge l.tag ∧ (n, l.tag, l.node) ∈ g.edges := by
  constructor
  · rintro ⟨hn, ht, hmem⟩
    exact ⟨ht, (hs.successors n hn _ _).mp hmem⟩
  · rintro ⟨ht, hedge⟩
    have hn := (hs.vertices n).mpr (g.source_mem hedge)
    exact ⟨hn, ht, (hs.successors n hn _ _).mpr hedge⟩

theorem Represents.target_mem (hs : Represents s.layouts s.nodes g) {n : Nat} (hn : n ∈ s.layouts)
    {l : Link} (hl : l ∈ mixedEdges s n) : l.node ∈ s.layouts :=
  hs.mem_of_successor (t := l.tag) hn (mem_mixedEdges.mp hl).2

/-- The search runs over the instance edges of the system. -/
theorem Represents.agreesOn (hs : Represents s.layouts s.nodes g) :
    AgreesOn {n | n ∈ s.layouts} (edgeGraph (mixedEdges s)) (instanceGraph s) where
  closed := fun n hn l hl => hs.target_mem hn (mem_mixedEdges.mpr hl.2)
  out := fun n hn => by
    ext l
    exact mem_mixedEdges.trans (and_iff_right hn).symm
  tgt := rfl

theorem exists_search (hs : Represents s.layouts s.nodes g) {root : Nat}
    (hroot : root ∈ s.layouts) :
    ∃ d, Search.visit (mixedEdges s) s.searchBound (Search.start root) = some d ∧
      d.toRemove.Nodup ∧
      ∀ f, EdgeInfo.of f ∈ d.toRemove ↔ f ∈ (instanceGraph s).exposed hasOffset root := by
  obtain ⟨d, hvisit, hnodup, hmem⟩ := Search.exists_search (mixedEdges_sorted s)
    (fun n hn l hl => hs.target_mem hn hl) hroot
  rw [hs.agreesOn.exposed_eq hroot] at hmem
  exact ⟨d, hvisit, hnodup, hmem⟩

/-! ## Removing the marked edges -/

theorem removeMarked_eq (hs : Represents s.layouts s.nodes g) {info : EdgeInfo}
    (hoff : isInstanceOffNon0 info.tag = true) (hedge : (info.src, info.tag, info.tgt) ∈ g.edges) :
    removeMarked s info =
      some { s with nodes := eraseLink s.nodes info.src info.tgt info.tag } := by
  have hsrc := (hs.vertices _).mpr (g.source_mem hedge)
  have htgt := (hs.vertices _).mpr (g.target_mem hedge)
  have hlink : s.HasLink info.src info.tgt info.tag :=
    ⟨(hs.successors _ hsrc _ _).mpr hedge, (hs.predecessors _ htgt _ _).mpr hedge⟩
  rw [removeMarked, guard, if_pos hoff, guard, if_pos hlink]
  rfl

theorem foldlM_removeMarked (infos : List EdgeInfo) :
    ∀ {s : LayoutTypeSystem E} {g : TypeGraph}, Represents s.layouts s.nodes g → infos.Nodup →
      (∀ info ∈ infos, isInstanceOffNon0 info.tag = true ∧
        (info.src, info.tag, info.tgt) ∈ g.edges) →
      ∃ s' g', infos.foldlM removeMarked s = some s' ∧ s'.layouts = s.layouts ∧
        Represents s'.layouts s'.nodes g' ∧
        ∀ a t b, (a, t, b) ∈ g'.edges ↔ (a, t, b) ∈ g.edges ∧ (⟨a, b, t⟩ : EdgeInfo) ∉ infos := by
  induction infos with
  | nil => exact fun hs _ _ => ⟨_, _, rfl, rfl, hs, by simp⟩
  | cons info infos ih =>
    intro s g hs hnodup hmem
    obtain ⟨hnotMem, hnodup⟩ := List.nodup_cons.mp hnodup
    obtain ⟨hoff, hedge⟩ := hmem info List.mem_cons_self
    have hs₁ := hs.eraseLink info.src info.tgt info.tag
    have hedges₁ : ∀ a t b, (a, t, b) ∈ (g.disconnect info.src info.tag info.tgt).edges ↔
        (a, t, b) ∈ g.edges ∧ (⟨a, b, t⟩ : EdgeInfo) ≠ info := by
      refine fun a t b => and_congr_right fun _ => not_congr ?_
      obtain ⟨src, tgt, tag⟩ := info
      simp only [Set.mem_singleton_iff, Prod.mk.injEq, EdgeInfo.mk.injEq]
      tauto
    obtain ⟨s', g', hrest, hlayouts, hs', hedges'⟩ :=
      ih (s := { s with nodes := eraseLink s.nodes info.src info.tgt info.tag }) hs₁ hnodup
        fun other hother => by
          obtain ⟨hoff', hedge'⟩ := hmem other (List.mem_cons_of_mem _ hother)
          refine ⟨hoff', (hedges₁ _ _ _).mpr ⟨hedge', ?_⟩⟩
          rintro rfl
          exact hnotMem hother
    refine ⟨s', g', ?_, hlayouts, hs', fun a t b => ?_⟩
    · rw [List.foldlM_cons, removeMarked_eq hs hoff hedge]
      exact hrest
    · rw [hedges', hedges₁, List.mem_cons]
      tauto

/-! ## The turns of the roots -/

/-- The nodes that the search starts from. -/
def isSearchRoot (s : LayoutTypeSystem E) (n : Nat) : Bool :=
  !hasNoSCCEdge s n && isSCCRoot s n

/-- Instances at offset 0 lead out of these, and none lead into them. -/
theorem Represents.isSearchRoot_iff (hs : Represents s.layouts s.nodes g) {n : Nat}
    (hn : n ∈ s.layouts) : isSearchRoot s n = true ↔
      (∀ a, ¬ LayoutTypeSystem.Linked isInstanceOff0 s a n) ∧
        ∃ b, LayoutTypeSystem.Linked isInstanceOff0 s n b := by
  simp only [hs.linked_iff]
  have hroot : isSCCRoot s n = true ↔ ∀ a, ¬ ∃ t, isInstanceOff0 t ∧ (a, t, n) ∈ g.edges := by
    simp only [isSCCRoot, decide_eq_true_eq]
    constructor
    · rintro hroot a ⟨t, ht, hedge⟩
      exact hroot ⟨a, t⟩ ((hs.predecessors n hn a t).mpr hedge) ht
    · rintro hnone ⟨a, t⟩ hmem ht
      exact hnone a ⟨t, ht, (hs.predecessors n hn a t).mp hmem⟩
  have hleaf : isSCCLeaf s n = true ↔ ∀ b, ¬ ∃ t, isInstanceOff0 t ∧ (n, t, b) ∈ g.edges := by
    simp only [isSCCLeaf, decide_eq_true_eq]
    constructor
    · rintro hleaf b ⟨t, ht, hedge⟩
      exact hleaf ⟨b, t⟩ ((hs.successors n hn b t).mpr hedge) ht
    · rintro hnone ⟨b, t⟩ hmem ht
      exact hnone b ⟨t, ht, (hs.successors n hn b t).mp hmem⟩
  rw [← hroot, ← not_forall_not, ← hleaf, isSearchRoot, hasNoSCCEdge]
  cases isSCCRoot s n <;> cases isSCCLeaf s n <;> simp

/-- The edges of `g` that were not exposed are those of `g'`. -/
structure Keeps (s : LayoutTypeSystem E) (g : TypeGraph) (exposed : Set (Nat × Link))
    (s' : LayoutTypeSystem E) (g' : TypeGraph) : Prop where
  represents : Represents s'.layouts s'.nodes g'
  layouts : s'.layouts = s.layouts
  offset : ∀ f ∈ exposed, hasOffset f.2
  edges : ∀ a t b, (a, t, b) ∈ g'.edges ↔ (a, t, b) ∈ g.edges ∧ (a, (⟨b, t⟩ : Link)) ∉ exposed

theorem Keeps.refl (hs : Represents s.layouts s.nodes g) : Keeps s g ∅ s g :=
  ⟨hs, rfl, by simp, by simp⟩

variable {exposed : Set (Nat × Link)}

theorem Keeps.instanceGraph_eq (hs : Represents s.layouts s.nodes g)
    (hk : Keeps s g exposed s' g') :
    instanceGraph s' = (instanceGraph s).without exposed := by
  have hout : ∀ n, (instanceGraph s').out n = ((instanceGraph s).without exposed).out n := by
    intro n
    ext l
    rw [hk.represents.mem_out_iff, hk.edges, ← and_assoc, ← hs.mem_out_iff]
    rfl
  rw [instanceGraph, OrderedGraph.without, OrderedGraph.mk.injEq]
  exact ⟨funext hout, rfl⟩

/-- The instances at offset 0 stay the same, and so do the roots. -/
theorem Keeps.isSearchRoot_eq (hs : Represents s.layouts s.nodes g) (hk : Keeps s g exposed s' g')
    {n : Nat} (hn : n ∈ s.layouts) : isSearchRoot s' n = isSearchRoot s n := by
  have hkept : ∀ a b, LayoutTypeSystem.Linked isInstanceOff0 s' a b ↔
      LayoutTypeSystem.Linked isInstanceOff0 s a b := by
    intro a b
    rw [hk.represents.linked_iff, hs.linked_iff]
    refine exists_congr fun t => and_congr_right fun ht => ?_
    refine (hk.edges a t b).trans (and_iff_left fun hmem => ?_)
    have hoff := hk.offset _ hmem
    simp [hasOffset, isInstanceOffNon0, ht] at hoff
  have hn' : n ∈ s'.layouts := hk.layouts ▸ hn
  rw [Bool.eq_iff_iff, hk.represents.isSearchRoot_iff hn', hs.isSearchRoot_iff hn]
  simp only [hkept]

/-- What one root exposes is removed, if it is a root of the search. -/
theorem removeBackedgesFrom_keeps (hs : Represents s.layouts s.nodes g) {root : Nat}
    (hroot : root ∈ s.layouts) :
    ∃ s' g', removeBackedgesFrom s root = some s' ∧
      Keeps s g (if isSearchRoot s root then (instanceGraph s).exposed hasOffset root else ∅)
        s' g' := by
  unfold removeBackedgesFrom
  split
  next hnone =>
    refine ⟨s, g, rfl, ?_⟩
    rw [isSearchRoot, hnone]
    exact Keeps.refl hs
  next hsome =>
    split
    next hnot =>
      refine ⟨s, g, rfl, ?_⟩
      rw [isSearchRoot, Bool.eq_false_iff.mpr hnot, Bool.and_false]
      exact Keeps.refl hs
    next hyes =>
      obtain ⟨d, hvisit, hnodup, hmem⟩ := exists_search hs hroot
      have hinfos : ∀ info ∈ d.toRemove, isInstanceOffNon0 info.tag = true ∧
          (info.src, info.tag, info.tgt) ∈ g.edges := by
        rintro ⟨a, b, t⟩ hinfo
        have hexposed := (hmem (a, ⟨b, t⟩)).mp hinfo
        exact ⟨hexposed.1, (hs.mem_out_iff.mp (mem_out_of_exposed hexposed)).2⟩
      obtain ⟨s', g', hremove, hlayouts, hs', hedges⟩ := foldlM_removeMarked _ hs hnodup hinfos
      refine ⟨s', g', ?_, ?_⟩
      · rw [hvisit]
        exact hremove
      · have hsearch : isSearchRoot s root = true := by
          simpa [isSearchRoot, hsome] using hyes
        rw [if_pos hsearch]
        refine ⟨hs', hlayouts, fun f hf => hf.1, fun a t b => ?_⟩
        rw [hedges, ← hmem]
        rfl

/-- A node that is no root exposes nothing. -/
theorem exposedAll_filter_cons (k : OrderedGraph Nat Link) (isRoot : Nat → Bool) (root : Nat)
    (roots : List Nat) : exposedAll hasOffset k ((root :: roots).filter isRoot) =
      (if isRoot root then k.exposed hasOffset root else ∅) ∪
        exposedAll hasOffset (k.without (if isRoot root then k.exposed hasOffset root else ∅))
          (roots.filter isRoot) := by
  rw [List.filter_cons]
  split
  · rfl
  · rw [without_empty, Set.empty_union]

/-- The roots among some nodes take turns. -/
theorem foldlM_removeBackedgesFrom_keeps (roots : List Nat) :
    ∀ {s : LayoutTypeSystem E} {g : TypeGraph}, Represents s.layouts s.nodes g →
      (∀ n ∈ roots, n ∈ s.layouts) →
      ∃ s' g', roots.foldlM removeBackedgesFrom s = some s' ∧
        Keeps s g (exposedAll hasOffset (instanceGraph s) (roots.filter (isSearchRoot s)))
          s' g' := by
  induction roots with
  | nil => exact fun hs _ => ⟨_, _, rfl, Keeps.refl hs⟩
  | cons root roots ih =>
    intro s g hs hroots
    obtain ⟨s₁, g₁, hone, hk₁⟩ := removeBackedgesFrom_keeps hs (hroots root List.mem_cons_self)
    obtain ⟨s', g', hrest, hk'⟩ := ih hk₁.represents fun n hn => by
      rw [hk₁.layouts]
      exact hroots n (List.mem_cons_of_mem _ hn)
    have hfilter : roots.filter (isSearchRoot s₁) = roots.filter (isSearchRoot s) :=
      List.filter_congr fun n hn => hk₁.isSearchRoot_eq hs (hroots n (List.mem_cons_of_mem _ hn))
    rw [hfilter, hk₁.instanceGraph_eq hs] at hk'
    have hunion := exposedAll_filter_cons (instanceGraph s) (isSearchRoot s) root roots
    refine ⟨s', g', ?_, hk'.represents, hk'.layouts.trans hk₁.layouts, fun f hf => ?_,
      fun a t b => ?_⟩
    · rw [List.foldlM_cons, hone]
      exact hrest
    · rw [hunion] at hf
      exact hf.elim (hk₁.offset f) (hk'.offset f)
    · rw [hk'.edges, hk₁.edges, hunion, Set.mem_union, not_or, and_assoc]

/-! ## The pass -/

/-- What `verifyConsistency` asks of the links, but for the pointers. -/
structure LayoutTypeSystem.Consistent (s : LayoutTypeSystem E) : Prop where
  mirror : ∀ n ∈ s.layouts, ∀ m ∈ s.layouts, ∀ t,
    ⟨m, t⟩ ∈ (s.nodes n).successors ↔ ⟨n, t⟩ ∈ (s.nodes m).predecessors
  noSelfEdges : ∀ n ∈ s.layouts, ∀ l ∈ (s.nodes n).successors, l.node ≠ n
  noDangling : ∀ n ∈ s.layouts,
    ∀ l ∈ (s.nodes n).successors ∪ (s.nodes n).predecessors, l.node ∈ s.layouts

/-- A consistent system stores a graph. -/
theorem LayoutTypeSystem.Consistent.represents (hs : s.Consistent) :
    ∃ g, Represents s.layouts s.nodes g := by
  refine ⟨⟨{n | n ∈ s.layouts}, {e | e.1 ∈ s.layouts ∧ ⟨e.2.2, e.2.1⟩ ∈ (s.nodes e.1).successors},
    fun he => he.1, fun he => ?_, fun he heq => ?_⟩, fun n => Iff.rfl, fun n hn m t => ?_,
    fun n hn m t => ?_⟩
  · exact hs.noDangling _ he.1 _ (Finset.mem_union_left _ he.2)
  · exact hs.noSelfEdges _ he.1 _ he.2 heq.symm
  · exact (and_iff_right hn).symm
  · constructor
    · intro hpred
      have hm := hs.noDangling n hn _ (Finset.mem_union_right _ hpred)
      exact ⟨hm, (hs.mirror m hm n hn t).mpr hpred⟩
    · exact fun ⟨hm, hsucc⟩ => (hs.mirror m hm n hn t).mp hsucc

/-- The nodes that the search starts from, in the order of the system. -/
def searchRoots (s : LayoutTypeSystem E) : List Nat := s.layouts.sort.filter (isSearchRoot s)

/-- The instance edges are left without cycles, and only those on a cycle are removed, but none at
offset 0. -/
structure BreaksLoops (s s' : LayoutTypeSystem E) : Prop where
  acyclic : Acyclic (LayoutTypeSystem.Linked isInstanceEdge s')
  keepsOff0 : ∀ a ∈ s.layouts, ∀ l ∈ (s.nodes a).successors, isInstanceOff0 l.tag →
    l ∈ (s'.nodes a).successors
  onCycle : ∀ a ∈ s.layouts, ∀ l ∈ (s.nodes a).successors, l ∉ (s'.nodes a).successors →
    isInstanceEdge l.tag ∧ ReflTransGen (LayoutTypeSystem.Linked isInstanceEdge s) l.node a

theorem mem_out_of_exposedAll : ∀ {k : OrderedGraph Nat Link} {roots : List Nat} {f : Nat × Link},
    f ∈ exposedAll hasOffset k roots → hasOffset f.2 ∧ f.2 ∈ k.out f.1
  | _, _ :: _, _, Or.inl hf => ⟨hf.1, mem_out_of_exposed hf⟩
  | _, _ :: _, _, Or.inr hf => (mem_out_of_exposedAll hf).imp_right And.left

/-- The edges that are removed are the exposed ones. -/
theorem Keeps.not_mem_iff (hs : Represents s.layouts s.nodes g) (hk : Keeps s g exposed s' g')
    {a : Nat} (ha : a ∈ s.layouts) {l : Link} (hl : l ∈ (s.nodes a).successors) :
    l ∉ (s'.nodes a).successors ↔ (a, l) ∈ exposed := by
  have hedge := (hs.successors a ha l.node l.tag).mp hl
  have ha' : a ∈ s'.layouts := hk.layouts ▸ ha
  rw [← not_iff_not, not_not]
  exact (hk.represents.successors a ha' l.node l.tag).trans
    ((hk.edges _ _ _).trans (and_iff_right hedge))

theorem Keeps.breaksLoops_iff (hs : Represents s.layouts s.nodes g) (hk : Keeps s g exposed s' g')
    (hexposed : ∀ f ∈ exposed, hasOffset f.2 ∧ f.2 ∈ (instanceGraph s).out f.1) :
    BreaksLoops s s' ↔ Acyclic ((instanceGraph s).without exposed).Linked ∧
      ∀ f ∈ exposed, (instanceGraph s).OnCycle f := by
  rw [← hk.instanceGraph_eq hs, linked_eq]
  constructor
  · rintro ⟨hacyclic, -, honCycle⟩
    refine ⟨hacyclic, fun f hf => ?_⟩
    obtain ⟨hn, -, hl⟩ := (hexposed f hf).2
    rw [OnCycle, linked_eq]
    exact (honCycle f.1 hn f.2 hl ((hk.not_mem_iff hs hn hl).mpr hf)).2
  · rintro ⟨hacyclic, honCycle⟩
    refine ⟨hacyclic, fun a ha l hl hoff0 => ?_, fun a ha l hl hgone => ?_⟩
    · by_contra hgone
      have hoff := (hexposed _ ((hk.not_mem_iff hs ha hl).mp hgone)).1
      simp [hasOffset, isInstanceOffNon0, hoff0] at hoff
    · have hf := (hk.not_mem_iff hs ha hl).mp hgone
      have hreach := honCycle _ hf
      rw [OnCycle, linked_eq] at hreach
      exact ⟨(hexposed _ hf).2.2.1, hreach⟩

/-- The instance edges without an offset are those of the hypothesis. -/
theorem acyclic_instanceGraph (hoff0 : Acyclic (LayoutTypeSystem.Linked isInstanceOff0 s)) :
    Acyclic fun a b =>
      ∃ l ∈ (instanceGraph s).out a, ¬ hasOffset l ∧ (instanceGraph s).tgt l = b := by
  refine fun a ha => hoff0 a (TransGen.mono ?_ a a ha)
  rintro x y ⟨⟨y, t⟩, ⟨hx, ht, hmem⟩, hno, rfl⟩
  refine ⟨hx, t, ?_, hmem⟩
  simpa [hasOffset, isInstanceOffNon0, ht] using hno

theorem removeInstanceBackedges_keeps (hg : Represents s.layouts s.nodes g) :
    ∃ s' g', removeInstanceBackedgesFromInstanceAtOffset0Loops s = some s' ∧
      Keeps s g (exposedAll hasOffset (instanceGraph s) (searchRoots s)) s' g' :=
  foldlM_removeBackedgesFrom_keeps _ hg fun _ hn => (Finset.mem_sort (· ≤ ·)).mp hn

/-- The pass completes.  It leaves no cycle and removes only edges on cycles exactly when the graph
of the instance edges is breakable. -/
theorem removeInstanceBackedges_breaksLoops_iff (hs : s.Consistent)
    (hoff0 : Acyclic (LayoutTypeSystem.Linked isInstanceOff0 s)) :
    ∃ s', removeInstanceBackedgesFromInstanceAtOffset0Loops s = some s' ∧
      (BreaksLoops s s' ↔ Breakable hasOffset (instanceGraph s) (searchRoots s)) := by
  obtain ⟨g, hg⟩ := hs.represents
  obtain ⟨s', g', hrun, hk⟩ := removeInstanceBackedges_keeps hg
  refine ⟨s', hrun, ?_⟩
  rw [hk.breaksLoops_iff hg fun f hf => mem_out_of_exposedAll hf]
  exact breakable_iff (acyclic_instanceGraph hoff0)

/-! ## Loops that are broken, and others -/

/-- The systems of all runs are consistent. -/
theorem History.Invariant.consistent_system [IntEqClasses E] {h : History E} (hinv : h.Invariant) :
    h.system.Consistent := by
  obtain ⟨g, hg⟩ := hinv.graph
  refine ⟨fun n hn m hm t => ?_, fun n hn l hl => hg.notMem_successors_self hn l hl,
    fun n hn l hl => ?_⟩
  · rw [hg.successors n hn, hg.predecessors m hm]
  · rcases Finset.mem_union.mp hl with hl | hl
    · exact hg.mem_of_successor (t := l.tag) hn hl
    · exact hg.mem_of_predecessor (t := l.tag) hn hl

theorem searchRoots_eq (nodes : List Nat) (hsorted : nodes.Pairwise (· < ·))
    (hlayouts : s.layouts = nodes.toFinset) : searchRoots s = nodes.filter (isSearchRoot s) := by
  have hnodup : nodes.Nodup := hsorted.imp Nat.ne_of_lt
  rw [searchRoots, hlayouts, (List.toFinset_sort _ hnodup).mpr (hsorted.imp Nat.le_of_lt)]

/-- The first node has the second one at an offset, which has the first one at offset 8. -/
structure IsLoop (off : Nat) (s : LayoutTypeSystem E) : Prop where
  consistent : s.Consistent
  layouts : s.layouts = {0, 1}
  out : ∀ n l, l ∈ (instanceGraph s).out n ↔ (n = 0 ∧ l = ⟨1, .instanceTag ⟨off, [], []⟩⟩) ∨
    (n = 1 ∧ l = ⟨0, .instanceTag ⟨8, [], []⟩⟩)

theorem exists_isLoop (off : Nat) (hoff : ¬ 0xFFFF < off) :
    ∃ s : LayoutTypeSystem LeaderTable, IsLoop off s := by
  have hcreated := ((History.invariant_start (E := LeaderTable)).create (by decide)).create
    (by decide)
  have hlayouts : (History.start (E := LeaderTable)).create.create.system.layouts = {0, 1} := by
    decide
  have hinst := (hcreated.addInstanceLink 0 1 ⟨off, [], []⟩ (if_neg hoff)).addInstanceLink 1 0
    ⟨8, [], []⟩ rfl
  refine ⟨_, hinst.consistent_system, hlayouts, fun n l => ⟨?_, ?_⟩⟩
  · rintro ⟨hn, -, hl⟩
    rcases Finset.mem_insert.mp (hlayouts ▸ hn) with rfl | hn
    · exact Or.inl ⟨rfl, Finset.mem_singleton.mp hl⟩
    · obtain rfl := Finset.mem_singleton.mp hn
      exact Or.inr ⟨rfl, Finset.mem_singleton.mp hl⟩
  · rintro (⟨rfl, rfl⟩ | ⟨rfl, rfl⟩)
    · exact ⟨hlayouts ▸ by decide, rfl, Finset.mem_singleton_self _⟩
    · exact ⟨hlayouts ▸ by decide, rfl, Finset.mem_singleton_self _⟩

namespace IsLoop

variable {off : Nat}

theorem linked_iff (h : IsLoop off s) {a b : Nat} : LayoutTypeSystem.Linked isInstanceEdge s a b ↔
    (a = 0 ∧ b = 1) ∨ (a = 1 ∧ b = 0) := by
  rw [← linked_instanceGraph]
  constructor
  · rintro ⟨l, hl, rfl⟩
    rcases (h.out _ _).mp hl with ⟨rfl, rfl⟩ | ⟨rfl, rfl⟩
    · exact Or.inl ⟨rfl, rfl⟩
    · exact Or.inr ⟨rfl, rfl⟩
  · rintro (⟨rfl, rfl⟩ | ⟨rfl, rfl⟩)
    · exact ⟨_, (h.out _ _).mpr (Or.inl ⟨rfl, rfl⟩), rfl⟩
    · exact ⟨_, (h.out _ _).mpr (Or.inr ⟨rfl, rfl⟩), rfl⟩

theorem linked_off0_iff (h : IsLoop off s) {a b : Nat} :
    LayoutTypeSystem.Linked isInstanceOff0 s a b ↔ off = 0 ∧ a = 0 ∧ b = 1 := by
  constructor
  · rintro ⟨ha, t, ht, hmem⟩
    have hinst : isInstanceEdge t = true := by
      simp only [isInstanceOff0, decide_eq_true_eq] at ht
      exact ht.1
    rcases (h.out a ⟨b, t⟩).mp ⟨ha, hinst, hmem⟩ with ⟨rfl, heq⟩ | ⟨rfl, heq⟩
    · obtain ⟨rfl, rfl⟩ := Link.mk.inj heq
      simp only [isInstanceOff0, decide_eq_true_eq] at ht
      exact ⟨ht.2.1, rfl, rfl⟩
    · obtain ⟨rfl, rfl⟩ := Link.mk.inj heq
      exact absurd ht (by decide)
  · rintro ⟨rfl, rfl, rfl⟩
    obtain ⟨ha, -, hmem⟩ := (h.out 0 _).mpr (Or.inl ⟨rfl, rfl⟩)
    exact ⟨ha, _, by decide, hmem⟩

theorem transGen (h : IsLoop off s) :
    TransGen (LayoutTypeSystem.Linked isInstanceEdge s) 0 0 :=
  .head (h.linked_iff.mpr (Or.inl ⟨rfl, rfl⟩)) (.single (h.linked_iff.mpr (Or.inr ⟨rfl, rfl⟩)))

theorem acyclic_off0 (h : IsLoop off s) : Acyclic (LayoutTypeSystem.Linked isInstanceOff0 s) := by
  refine acyclic_of_lt id (fun a b hab => .single hab) fun a b hab _ => ?_
  obtain ⟨-, rfl, rfl⟩ := h.linked_off0_iff.mp hab
  exact Nat.zero_lt_one

/-- The first node is a root, if the second one is at offset 0. -/
theorem searchRoots_eq (h : IsLoop off s) : searchRoots s = if off = 0 then [0] else [] := by
  obtain ⟨g, hg⟩ := h.consistent.represents
  have hroot : ∀ n ∈ s.layouts, isSearchRoot s n = decide (n = 0 ∧ off = 0) := by
    intro n hn
    rw [Bool.eq_iff_iff, hg.isSearchRoot_iff hn, decide_eq_true_eq]
    simp only [h.linked_off0_iff]
    grind
  rw [DataLayout.searchRoots_eq [0, 1] (by decide) h.layouts, List.filter_cons,
    List.filter_cons, hroot 0 (by simp [h.layouts]), hroot 1 (by simp [h.layouts])]
  by_cases hoff : off = 0 <;> simp [hoff]

/-- The edges of the loop follow the first path from the root. -/
theorem follows (h : IsLoop 0 s) {n : Nat} {l : Link} (hl : l ∈ (instanceGraph s).out n) :
    (instanceGraph s).Follows 0 (n, l) := by
  have hfirst : (instanceGraph s).IsFirst 0 [⟨1, .instanceTag ⟨0, [], []⟩⟩] := by
    refine isFirst_of_least ⟨(h.out _ _).mpr (Or.inl ⟨rfl, rfl⟩), trivial⟩
      (by show [0, 1].Nodup; decide) ?_
    intro f hf d hd
    obtain rfl := List.mem_singleton.mp hf
    rcases (h.out _ _).mp hd with ⟨-, rfl⟩ | ⟨h01, -⟩
    · exact le_rfl
    · exact absurd h01 (by decide)
  rcases (h.out _ _).mp hl with ⟨rfl, rfl⟩ | ⟨rfl, rfl⟩
  · refine ⟨[], isFirst_of_least trivial (List.nodup_singleton 0) ?_, rfl, Or.inr hfirst⟩
    intro f hf
    cases hf
  · exact ⟨_, hfirst, rfl, Or.inl List.mem_cons_self⟩

theorem breakable (h : IsLoop 0 s) :
    Breakable hasOffset (instanceGraph s) (searchRoots s) := by
  have hloop : ∀ a b, a ∈ s.layouts → b ∈ s.layouts →
      ReflTransGen (instanceGraph s).Linked a b := by
    have h01 := linked_instanceGraph.mpr (h.linked_iff.mpr (Or.inl ⟨rfl, rfl⟩))
    have h10 := linked_instanceGraph.mpr (h.linked_iff.mpr (Or.inr ⟨rfl, rfl⟩))
    intro a b ha hb
    simp only [h.layouts, Finset.mem_insert, Finset.mem_singleton] at ha hb
    rcases ha with rfl | rfl <;> rcases hb with rfl | rfl
    · exact .refl
    · exact .single h01
    · exact .single h10
    · exact .refl
  have hsource : ∀ a c, (instanceGraph s).IsCycle a c → a ∈ s.layouts := by
    intro a c hc
    cases c with
    | nil => exact absurd rfl hc.nonempty
    | cons l c => exact hc.path.1.1
  rw [h.searchRoots_eq, if_pos rfl]
  refine ⟨fun a c hc => ⟨0, List.mem_singleton_self 0, ?_⟩, ⟨?_, trivial⟩, ⟨?_, trivial⟩⟩
  · exact hloop 0 a (by simp [h.layouts]) (hsource a c hc)
  · rintro a c - hc ⟨f, hf, hno⟩
    exact absurd (h.follows (mem_out_of_mem_arcs hc.path hf)) hno
  · intro p₁ p₂ e hcloses _ f hf _
    have hmem := mem_out_of_mem_arcs (isPath_append.mp hcloses.first.path).1 hf
    refine hloop _ _ ?_ hmem.1
    obtain ⟨g, hg⟩ := h.consistent.represents
    exact hg.target_mem hmem.1 (mem_mixedEdges.mpr hmem.2)

end IsLoop

/-- The loop of two nodes is broken. -/
theorem removeInstanceBackedges_breaksLoops_loop : ∃ s s' : LayoutTypeSystem LeaderTable,
    removeInstanceBackedgesFromInstanceAtOffset0Loops s = some s' ∧
      TransGen (LayoutTypeSystem.Linked isInstanceEdge s) 0 0 ∧ BreaksLoops s s' := by
  obtain ⟨s, hloop⟩ := exists_isLoop 0 (by decide)
  obtain ⟨s', hrun, hbreaks⟩ :=
    removeInstanceBackedges_breaksLoops_iff hloop.consistent hloop.acyclic_off0
  exact ⟨s, s', hrun, hloop.transGen, hbreaks.mpr hloop.breakable⟩

/-- The first node has the two other ones, which have each other. -/
def enteredEdges : Finset (Nat × Link) :=
  {(0, ⟨1, .instanceTag ⟨8, [], []⟩⟩), (0, ⟨2, .instanceTag ⟨0, [], []⟩⟩),
    (1, ⟨2, .instanceTag ⟨0, [], []⟩⟩), (2, ⟨1, .instanceTag ⟨8, [], []⟩⟩)}

structure IsEntered (s : LayoutTypeSystem E) : Prop where
  consistent : s.Consistent
  layouts : s.layouts = {0, 1, 2}
  mem_edges : ∀ n ∈ s.layouts, ∀ l ∈ (s.nodes n).successors, (n, l) ∈ enteredEdges
  mem_successors : ∀ e ∈ enteredEdges, e.1 ∈ s.layouts ∧ e.2 ∈ (s.nodes e.1).successors

theorem exists_isEntered : ∃ s : LayoutTypeSystem LeaderTable, IsEntered s := by
  have hcreated := ((History.invariant_start (E := LeaderTable)).create (by decide)).create
    (by decide) |>.create (by decide)
  have hinst := (((hcreated.addInstanceLink 0 1 ⟨8, [], []⟩ rfl).addInstanceLink 0 2 ⟨0, [], []⟩
    rfl).addInstanceLink 1 2 ⟨0, [], []⟩ rfl).addInstanceLink 2 1 ⟨8, [], []⟩ rfl
  exact ⟨_, hinst.consistent_system, by decide, by decide, by decide⟩

namespace IsEntered

theorem exists_edge (h : IsEntered s) {isEdge : TypeLinkTag → Bool} {a b : Nat}
    (hab : LayoutTypeSystem.Linked isEdge s a b) :
    ∃ t, isEdge t ∧ (a, ⟨b, t⟩) ∈ enteredEdges := by
  obtain ⟨ha, t, ht, hl⟩ := hab
  exact ⟨t, ht, h.mem_edges a ha _ hl⟩

/-- No edge leads to the first node. -/
theorem not_linked_zero (h : IsEntered s) {isEdge : TypeLinkTag → Bool} (a : Nat) :
    ¬ LayoutTypeSystem.Linked isEdge s a 0 := by
  intro ha
  obtain ⟨t, -, hedge⟩ := h.exists_edge ha
  have hnonzero : ∀ e ∈ enteredEdges, e.2.node ≠ 0 := by decide
  exact hnonzero _ hedge rfl

theorem acyclic_off0 (h : IsEntered s) : Acyclic (LayoutTypeSystem.Linked isInstanceOff0 s) := by
  refine acyclic_of_lt (fun n => n / 2) (fun a b hab => .single hab) fun a b hab _ => ?_
  obtain ⟨t, ht, hedge⟩ := h.exists_edge hab
  have hup : ∀ e ∈ enteredEdges, isInstanceOff0 e.2.tag → e.1 / 2 < e.2.node / 2 := by decide
  exact hup _ hedge ht

theorem mem_out (h : IsEntered s) {e : Nat × Link} (he : e ∈ enteredEdges) :
    e.2 ∈ (instanceGraph s).out e.1 := by
  have hinst : ∀ e ∈ enteredEdges, isInstanceEdge e.2.tag := by decide
  obtain ⟨hn, hl⟩ := h.mem_successors e he
  exact ⟨hn, hinst e he, hl⟩

/-- The edge to the second node is before the loop. -/
theorem mem_exposed (h : IsEntered s) : (0, (⟨1, .instanceTag ⟨8, [], []⟩⟩ : Link)) ∈
    (instanceGraph s).exposed hasOffset 0 := by
  have h01 := h.mem_out (e := (0, ⟨1, .instanceTag ⟨8, [], []⟩⟩)) (by decide)
  have h12 := h.mem_out (e := (1, ⟨2, .instanceTag ⟨0, [], []⟩⟩)) (by decide)
  have h21 := h.mem_out (e := (2, ⟨1, .instanceTag ⟨8, [], []⟩⟩)) (by decide)
  have hfirst : (instanceGraph s).IsFirst 0
      [⟨1, .instanceTag ⟨8, [], []⟩⟩, ⟨2, .instanceTag ⟨0, [], []⟩⟩] := by
    refine isFirst_of_least ⟨h01, h12, trivial⟩ (by show [0, 1, 2].Nodup; decide) ?_
    have hleast : ∀ f ∈ ([(0, ⟨1, .instanceTag ⟨8, [], []⟩⟩),
        (1, ⟨2, .instanceTag ⟨0, [], []⟩⟩)] : List (Nat × Link)),
        ∀ e ∈ enteredEdges, e.1 = f.1 → f.2 ≤ e.2 := by decide
    exact fun f hf d hd => hleast f hf (f.1, d) (h.mem_edges _ hd.1 _ hd.2.2) rfl
  exact ⟨rfl, _, _, ⟨hfirst, h21, by show 1 ∈ [0, 1, 2]; decide⟩, Or.inl List.mem_cons_self⟩

theorem mem_exposedAll (h : IsEntered s) : (0, (⟨1, .instanceTag ⟨8, [], []⟩⟩ : Link)) ∈
    exposedAll hasOffset (instanceGraph s) (searchRoots s) := by
  obtain ⟨g, hg⟩ := h.consistent.represents
  have h02 := h.mem_out (e := (0, ⟨2, .instanceTag ⟨0, [], []⟩⟩)) (by decide)
  have hroot : isSearchRoot s 0 = true := (hg.isSearchRoot_iff h02.1).mpr
    ⟨h.not_linked_zero, 2, h02.1, .instanceTag ⟨0, [], []⟩, by decide, h02.2.2⟩
  rw [searchRoots_eq [0, 1, 2] (by decide) h.layouts, List.filter_cons, if_pos hroot]
  exact Or.inl h.mem_exposed

end IsEntered

/-- A cycle is left if no root reaches it, and an edge on no cycle is removed if the path to a loop
begins with it. -/
theorem not_removeInstanceBackedges_breaksLoops :
    (¬ ∀ s s' : LayoutTypeSystem LeaderTable, s.Consistent →
      Acyclic (LayoutTypeSystem.Linked isInstanceOff0 s) →
      removeInstanceBackedgesFromInstanceAtOffset0Loops s = some s' →
      Acyclic (LayoutTypeSystem.Linked isInstanceEdge s')) ∧
    ¬ ∀ s s' : LayoutTypeSystem LeaderTable, s.Consistent →
      Acyclic (LayoutTypeSystem.Linked isInstanceOff0 s) →
      removeInstanceBackedgesFromInstanceAtOffset0Loops s = some s' →
      ∀ a ∈ s.layouts, ∀ l ∈ (s.nodes a).successors, l ∉ (s'.nodes a).successors →
        ReflTransGen (LayoutTypeSystem.Linked isInstanceEdge s) l.node a := by
  constructor
  · intro hall
    obtain ⟨s, hloop⟩ := exists_isLoop 8 (by decide)
    obtain ⟨g, hg⟩ := hloop.consistent.represents
    obtain ⟨s', g', hrun, hk⟩ := removeInstanceBackedges_keeps hg
    -- there is no root, so nothing is exposed
    have hgraph := hk.instanceGraph_eq hg
    rw [hloop.searchRoots_eq, if_neg (by decide)] at hgraph
    have hkept : instanceGraph s' = instanceGraph s := hgraph.trans without_empty
    refine hall s s' hloop.consistent hloop.acyclic_off0 hrun 0 ?_
    rw [← linked_eq, hkept, linked_eq]
    exact hloop.transGen
  · intro hall
    obtain ⟨s, hs⟩ := exists_isEntered
    obtain ⟨g, hg⟩ := hs.consistent.represents
    obtain ⟨s', g', hrun, hk⟩ := removeInstanceBackedges_keeps hg
    obtain ⟨hn, -, hl⟩ := hs.mem_out (e := (0, ⟨1, .instanceTag ⟨8, [], []⟩⟩)) (by decide)
    have hgone := (hk.not_mem_iff hg hn hl).mpr hs.mem_exposedAll
    have hback := hall s s' hs.consistent hs.acyclic_off0 hrun 0 hn _ hl hgone
    rcases hback.cases_tail with heq | ⟨a, -, ha⟩
    · exact absurd heq (by decide)
    · exact hs.not_linked_zero a ha

end DataLayout
