import Revng.DataLayout.CollapsedSystem

/-!
# The collapsing passes

Only nodes of one size are merged, and a node without a size into a larger one.  So the assertions
of `mergeNodes` hold, if all nodes that are not scalar have a size (`exists_collapseSCCs`).  What a
pass leaves of a consistent system is put together in `collapseSCCs_spec`.
-/

namespace DataLayout

open LayoutTypeSystem LabelledGraph StrongComponents Relation

variable {E : Type} [IntEqClasses E] [LawfulIntEqClasses E]

/-! ## Merging -/

/-- The two sizes are the same, or the second one is none. -/
def SizesFit (s : LayoutTypeSystem E) (into src : Nat) : Prop :=
  (s.nodes src).size = (s.nodes into).size ∨ (s.nodes src).size = 0

variable {s : LayoutTypeSystem E}

omit [LawfulIntEqClasses E] in
theorem exists_mergeNode (hsized : NonScalarSized s) {into src : Nat} (hne : src ≠ into)
    (hsrc : src ∈ s.layouts) (hinto : into ∈ s.layouts) (hfit : SizesFit s into src) :
    ∃ s', s.mergeNode into src = some s' := by
  have hsize : ∃ size, mergedSize (s.nodes into) (s.nodes src) = some size := by
    -- a node that is not scalar is only merged into one of its size
    have heq : (s.nodes src).nonScalar = true → (s.nodes src).size = (s.nodes into).size :=
      fun hscalar => hfit.resolve_right (hsized src hsrc hscalar)
    have hle : (s.nodes src).size ≤ (s.nodes into).size := by
      rcases hfit with hfit | hfit <;> omega
    cases hintoScalar : (s.nodes into).nonScalar <;>
      cases hsrcScalar : (s.nodes src).nonScalar <;>
      simp_all [mergedSize]
  obtain ⟨size, hsize⟩ := hsize
  simp [mergeNode, guard, hne, hsrc, hinto, hsize]

theorem exists_mergeNodes {into : Nat} (srcs : List Nat) :
    ∀ {h : History E} {g : TypeGraph}, Stores h g → NonScalarSized h.system →
      Mergeable h.system into srcs → (∀ n ∈ srcs, SizesFit h.system into n) →
      ∃ s', h.system.mergeNodes (into :: srcs) = some s' := by
  induction srcs with
  | nil => exact fun _ _ _ _ => ⟨_, rfl⟩
  | cons src srcs ih =>
    intro h g hs hsized hm hfit
    obtain ⟨hinto, hnodup⟩ := List.nodup_cons.mp hm.nodup
    obtain ⟨hsrc, -⟩ := List.nodup_cons.mp hnodup
    have hne : src ≠ into := fun heq => hinto (heq ▸ List.mem_cons_self)
    obtain ⟨s₁, hone⟩ := exists_mergeNode hsized hne
      (hm.layouts src (List.mem_cons_of_mem _ List.mem_cons_self))
      (hm.layouts into List.mem_cons_self) (hfit src List.mem_cons_self)
    obtain ⟨h₁, g₁, rfl, hc₁⟩ := mergeNode_contracts hs hone (hm.size src List.mem_cons_self)
    have hm₁ := hm.tail hc₁
    have hsize : ∀ n ∈ into :: srcs, (h₁.system.nodes n).size = (h.system.nodes n).size :=
      fun n hn => hc₁.size n (hm₁.layouts n hn)
    obtain ⟨s', hrest⟩ := ih hc₁.stores (hc₁.sized hsized) hm₁ fun n hn => by
      unfold SizesFit
      rw [hsize n (List.mem_cons_of_mem _ hn), hsize into List.mem_cons_self]
      exact hfit n (List.mem_cons_of_mem _ hn)
    refine ⟨s', ?_⟩
    rw [mergeNodes, List.foldlM_cons, hone]
    exact hrest

variable {leader : Nat}

theorem exists_mergeSizes {currentSize : Nat} (rest : List Nat) :
    ∀ (same : List Nat) {h : History E} {g : TypeGraph}, Stores h g → NonScalarSized h.system →
      Mergeable h.system leader (same ++ rest) → (h.system.nodes leader).size = currentSize →
      (∀ n ∈ same, (h.system.nodes n).size = currentSize) →
      rest.Pairwise (fun a b => (h.system.nodes b).size ≤ (h.system.nodes a).size) →
      ∃ r, mergeSizes currentSize leader same rest h.system = some r := by
  induction rest with
  | nil =>
    intro same h g hs hsized hm hleader hsame _
    obtain ⟨s', hmerge⟩ := exists_mergeNodes same hs hsized (by simpa using hm) fun n hn =>
      Or.inl ((hsame n hn).trans hleader.symm)
    exact ⟨_, by rw [mergeSizes, hmerge]; rfl⟩
  | cons n rest ih =>
    intro same h g hs hsized hm hleader hsame hsorted
    obtain ⟨hn, hsorted⟩ := List.pairwise_cons.mp hsorted
    by_cases heq : (h.system.nodes n).size = currentSize
    · rw [mergeSizes, if_pos heq]
      refine ih _ hs hsized (by simpa using hm) hleader (fun k hk => ?_) hsorted
      rcases List.mem_append.mp hk with hk | hk
      · exact hsame k hk
      · rw [List.mem_singleton.mp hk, heq]
    · obtain ⟨s', hmerge⟩ := exists_mergeNodes same hs hsized (hm.sublist (by simp)) fun k hk =>
        Or.inl ((hsame k hk).trans hleader.symm)
      have hle := hleader ▸ hm.size n (by simp)
      rw [mergeSizes_of_smaller hs hm (size_ne_of_sorted hn hle heq), hmerge]
      exact ⟨_, rfl⟩

variable {h : History E}

variable {g : TypeGraph}

theorem exists_mergeEmpty {first : Nat} {others : List Nat} (hs : Stores h g)
    (hsized : NonScalarSized h.system) (hm : Mergeable h.system first others) :
    ∃ r, mergeEmpty (first :: others) h.system = some r := by
  rcases List.eq_nil_or_concat' others with rfl | ⟨kept, last, rfl⟩
  · exact ⟨_, rfl⟩
  · have hlast : (first :: (kept ++ [last])).getLast? = some last := by
      simp [List.getLast?_cons]
    simp only [mergeEmpty, List.head?_cons, hlast]
    split
    next hcond =>
      obtain ⟨s', hmerge⟩ := exists_mergeNodes [last] hs hsized (hm.sublist (by simp))
        fun n hn => Or.inr (List.mem_singleton.mp hn ▸ hcond.2)
      exact ⟨_, by rw [hmerge]; rfl⟩
    next => exact ⟨_, rfl⟩

/-! ## Linking the leaders -/

omit [LawfulIntEqClasses E] in
theorem exists_eraseLeaderEdge (hs : Stores h g) {edge : Link}
    (hedge : (leader, edge.tag, edge.node) ∈ g.edges) (leaders : List Nat) :
    ∃ s', eraseLeaderEdge leaders leader h.system edge = some s' := by
  have hsrc := (hs.represents.vertices _).mpr (g.source_mem hedge)
  have htgt := (hs.represents.vertices _).mpr (g.target_mem hedge)
  have hlink : h.system.HasLink leader edge.node edge.tag :=
    ⟨(hs.represents.successors _ hsrc _ _).mpr hedge,
      (hs.represents.predecessors _ htgt _ _).mpr hedge⟩
  unfold eraseLeaderEdge
  split
  · exact ⟨_, rfl⟩
  · split
    · exact ⟨_, rfl⟩
    · exact ⟨_, by rw [eraseEdge, guard, if_pos ⟨hsrc, hlink⟩]; rfl⟩

omit [LawfulIntEqClasses E] in
/-- Erasing an edge keeps the edges that come after it. -/
theorem exists_foldlM_eraseLeaderEdge {leaders : List Nat} (edges : List Link) :
    ∀ {h : History E} {g : TypeGraph}, Stores h g → edges.Nodup →
      (∀ e ∈ edges, (leader, e.tag, e.node) ∈ g.edges) →
      ∃ s', edges.foldlM (eraseLeaderEdge leaders leader) h.system = some s' := by
  induction edges with
  | nil => exact fun _ _ _ => ⟨_, rfl⟩
  | cons edge edges ih =>
    intro h g hs hnodup hmem
    obtain ⟨hnotMem, hnodup⟩ := List.nodup_cons.mp hnodup
    obtain ⟨s₁, hone⟩ := exists_eraseLeaderEdge hs (hmem edge List.mem_cons_self) leaders
    obtain ⟨h₁, g₁, rfl, hs₁, -, hedges⟩ := eraseLeaderEdge_stores hs hone
    obtain ⟨s', hrest⟩ := ih hs₁ hnodup fun e he => by
      refine (hedges _ _ _).mpr ⟨hmem e (List.mem_cons_of_mem _ he), ?_⟩
      rintro ⟨-, -, -, heq⟩
      exact hnotMem (heq ▸ he)
    exact ⟨s', by rw [List.foldlM_cons, hone]; exact hrest⟩

omit [LawfulIntEqClasses E] in
theorem exists_eraseLeaderEdges (hs : Stores h g) (hleader : leader ∈ h.system.layouts)
    (leaders : List Nat) : ∃ s', eraseLeaderEdges leaders leader h.system = some s' :=
  exists_foldlM_eraseLeaderEdge _ hs ((NeighborsSet.inOrder_sorted _).imp ne_of_lt) fun e he =>
    (hs.represents.successors leader hleader e.node e.tag).mp (NeighborsSet.mem_inOrder.mp he)

omit [LawfulIntEqClasses E] in
theorem exists_linkLeaders {leaders : List Nat} (list : List Nat) :
    ∀ {h : History E} {g : TypeGraph}, Stores h g → list.Nodup →
      (∀ l ∈ list, l ∈ h.system.layouts) →
      ∃ s', linkLeaders leaders list h.system = some s' := by
  induction list with
  | nil => exact fun _ _ _ => ⟨_, rfl⟩
  | cons leader rest ih =>
    intro h g hs hnodup hlayouts
    obtain ⟨hleader, hrest⟩ := List.nodup_cons.mp hnodup
    have hmem := hlayouts leader List.mem_cons_self
    cases rest with
    | nil => exact exists_eraseLeaderEdges hs hmem leaders
    | cons next rest =>
      obtain ⟨s₁, herase⟩ := exists_eraseLeaderEdges hs hmem leaders
      obtain ⟨h₁, g₁, rfl, hs₁, hk₁, -⟩ := eraseLeaderEdges_stores hs hmem herase
      have hne : leader ≠ next := fun heq => hleader (heq ▸ List.mem_cons_self)
      obtain ⟨s₂, hadd⟩ : ∃ s₂, h₁.system.addInstanceLink (some leader) (some next) ⟨0, [], []⟩ =
          some s₂ := by
        have hnext := hlayouts next (List.mem_cons_of_mem _ List.mem_cons_self)
        rw [← hk₁.layouts] at hmem hnext
        simp [addInstanceLink, addLink, hne, hmem, hnext]
      obtain ⟨h₂, g₂, rfl, hs₂, hk₂, -⟩ := addInstanceLink_stores hs₁ hne hadd
      obtain ⟨s', hlink⟩ := ih hs₂ hrest fun l hl => by
        rw [hk₂.layouts, hk₁.layouts]
        exact hlayouts l (List.mem_cons_of_mem _ hl)
      refine ⟨s', ?_⟩
      rw [linkLeaders, herase, Option.bind_eq_bind, Option.bind_some, hadd]
      exact hlink

/-! ## Collapsing -/

theorem exists_collapseSCC (hs : Stores h g) (hsized : NonScalarSized h.system) {c : List Nat}
    (hnonempty : c ≠ []) (hnodup : c.Nodup) (hlayouts : ∀ n ∈ c, n ∈ h.system.layouts) :
    ∃ s', collapseSCC h.system c = some s' := by
  have hperm : (sortBySize h.system c).Perm c := List.mergeSort_perm _ _
  have hsorted := sortBySize_sorted h.system c
  unfold collapseSCC
  cases hsort : sortBySize h.system c with
  | nil => exact absurd (hsort ▸ hperm).symm.eq_nil hnonempty
  | cons first rest =>
    rw [hsort] at hperm hsorted
    have hnodup' := hperm.nodup_iff.mpr hnodup
    have hlayouts' : ∀ n ∈ first :: rest, n ∈ h.system.layouts := fun n hn =>
      hlayouts n (hperm.mem_iff.mp hn)
    obtain ⟨hle, hsortedRest⟩ := List.pairwise_cons.mp hsorted
    have hm : Mergeable h.system first rest := ⟨hnodup', hlayouts', hle⟩
    obtain ⟨⟨leaders₁, s₁⟩, hsizes⟩ :=
      exists_mergeSizes rest [] hs hsized hm rfl (by simp) hsortedRest
    obtain ⟨h₁, g₁, rfl, hc₁, hm₁, rfl⟩ := mergeSizes_mergeable hs hm hsortedRest hsizes
    obtain ⟨⟨leaders, s₂⟩, hempty⟩ := exists_mergeEmpty hc₁.stores (hc₁.sized hsized) hm₁
    obtain ⟨h₂, g₂, m, rfl, hc₂, -, hleads⟩ :=
      merge_contracts hs hnodup' hlayouts' hsorted hsizes hempty
    simp only [hsizes, hempty, Option.bind_eq_bind, Option.bind_some]
    split
    · exact ⟨_, rfl⟩
    · exact exists_linkLeaders leaders hc₂.stores hleads.nodup fun l hl =>
        (hc₂.layouts l).mpr ⟨hlayouts' l (hleads.mem l hl), hleads.fixed l hl⟩

/-- No assertion fails while the components of a list are collapsed. -/
theorem exists_foldlM_collapseSCC {h₀ : History E} {g₀ : TypeGraph}
    (hsized : NonScalarSized h₀.system) (components : List (List Nat)) :
    ∀ {done : List (List Nat × List Nat)} {m : Nat → Nat} {h : History E} {g : TypeGraph},
      Collapsed done m h₀ g₀ h g → Remaining h₀ done components →
      ∃ s', components.foldlM collapseSCC h.system = some s' := by
  induction components with
  | nil => exact fun _ _ => ⟨_, rfl⟩
  | cons c components ih =>
    intro done m h g hc hr
    obtain ⟨s₁, hone⟩ := exists_collapseSCC hc.stores (hc.sized hsized)
      (hr.nonempty c List.mem_cons_self) (hr.nodup c List.mem_cons_self)
      (hc.mem_layouts_of_remaining hr)
    obtain ⟨h₁, g₁, m₁, leaders, rfl, hc₁⟩ := hc.collapseSCC hr hone
    obtain ⟨s', hrest⟩ := ih hc₁ (hr.tail leaders)
    exact ⟨s', by rw [List.foldlM_cons, hone]; exact hrest⟩

variable {isEdge : TypeLinkTag → Bool}

theorem exists_collapseSCCs (hs : Stores h g) (hsized : NonScalarSized h.system)
    {sccs : Nat → List (List Nat)}
    (hcomp : Components (Linked isEdge h.system) (toCollapse sccs h.system)) :
    ∃ s', collapseSCCs sccs h.system = some s' :=
  exists_foldlM_collapseSCC hsized _ (Collapsed.refl hs) (remaining_toCollapse hcomp)

/-! ## What the passes do -/

/-- A pass over the edges of a kind: it runs to its end, and the components become chains. -/
structure CollapsePass (isEdge : TypeLinkTag → Bool) (sccs : Nat → List (List Nat))
    (s : LayoutTypeSystem E) : Prop where
  completes : NonScalarSized s → ∃ s', collapseSCCs sccs s = some s'
  collapses : ∀ s', collapseSCCs sccs s = some s' → CollapsesTo isEdge s s'

theorem collapsePass (hs : Stores h g) {sccs : Nat → List (List Nat)}
    (hcomp : Components (Linked isEdge h.system) (toCollapse sccs h.system)) :
    CollapsePass isEdge sccs h.system where
  completes := fun hsized => exists_collapseSCCs hs hsized hcomp
  collapses := fun s' hcollapse => by
    obtain ⟨h', g', m, done, rfl, hc, hdone⟩ := collapseSCCs_collapsed hs hcomp hcollapse
    exact hc.collapsesTo hs (hdone ▸ hcomp)

/-- What the two passes do to a consistent system.  The components become chains.  After the first
one no equality edge is left, if each of them was on a cycle, and after the second one the
instance-at-offset-0 edges form no cycle. -/
theorem collapseSCCs_spec {h : History E} (hinv : h.Invariant) (sccs : Nat → List (List Nat)) :
    ((∀ n ∈ h.system.layouts, Enumerates (Linked isEqualityEdge h.system) n (sccs n)) →
      CollapsePass isEqualityEdge sccs h.system ∧
      ∀ s', collapseSCCs sccs h.system = some s' →
        (∀ a b, Linked isEqualityEdge h.system a b →
          ReflTransGen (Linked isEqualityEdge h.system) b a) →
        ∀ a b, ¬ Linked isEqualityEdge s' a b) ∧
    ((∀ n ∈ h.system.layouts, Enumerates (Linked isInstanceOff0 h.system) n (sccs n)) →
      CollapsePass isInstanceOff0 sccs h.system ∧
      ∀ s', collapseSCCs sccs h.system = some s' → Acyclic (Linked isInstanceOff0 s')) := by
  obtain ⟨g, hg⟩ := hinv.graph
  have hs : Stores h g := ⟨hinv, hg⟩
  refine ⟨fun hsccs => ?_, fun hsccs => ?_⟩
  · have hcomp := components_toCollapse hsccs
    refine ⟨collapsePass hs hcomp, fun s' hcollapse hcycle => ?_⟩
    obtain ⟨h', g', m, done, rfl, hc, hdone⟩ := collapseSCCs_collapsed hs hcomp hcollapse
    refine hc.not_linked hs (hdone ▸ hcomp) (fun t ht => ?_) rfl hcycle
    have hkind : t.kind = .equality := by simpa [isEqualityEdge] using ht
    simp [isPointerEdge, hkind]
  · have hcomp := components_toCollapse hsccs
    refine ⟨collapsePass hs hcomp, fun s' hcollapse => ?_⟩
    obtain ⟨h', g', m, done, rfl, hc, hdone⟩ := collapseSCCs_collapsed hs hcomp hcollapse
    refine hc.acyclic hs (hdone ▸ hcomp) fun t ht => ?_
    have hkind : t.kind = .inst := by
      simp only [isInstanceOff0, isInstanceEdge, decide_eq_true_eq] at ht
      exact ht.1
    simp [isPointerEdge, hkind]

/-! ## Three nodes in a circle -/

/-- The nodes get sizes. -/
def History.withSizes (h : History E) (size : Nat → Nat) : History E :=
  ⟨{ h.system with nodes := fun n => { h.system.nodes n with size := size n } }, h.owner⟩

omit [LawfulIntEqClasses E] in
theorem History.Invariant.withSizes (hinv : h.Invariant) (size : Nat → Nat) :
    (h.withSizes size).Invariant where
  graph := by
    obtain ⟨g, hg⟩ := hinv.graph
    exact ⟨g, hg.vertices, hg.successors, hg.predecessors⟩
  created := hinv.created
  own := hinv.own
  owner := hinv.owner
  classified := hinv.classified

def IsCircle (isEdge : TypeLinkTag → Bool) (s : LayoutTypeSystem E) : Prop :=
  s.layouts = {0, 1, 2} ∧ Linked isEdge s 0 1 ∧ Linked isEdge s 1 2 ∧ Linked isEdge s 2 0

omit [IntEqClasses E] [LawfulIntEqClasses E] in
theorem IsCircle.mutual (h : IsCircle isEdge s) {a b : Nat} (ha : a ∈ s.layouts)
    (hb : b ∈ s.layouts) : Mutual (Linked isEdge s) a b := by
  obtain ⟨hlayouts, h01, h12, h20⟩ := h
  have h0 : ∀ n ∈ s.layouts, Mutual (Linked isEdge s) 0 n := by
    intro n hn
    simp only [hlayouts, Finset.mem_insert, Finset.mem_singleton] at hn
    rcases hn with rfl | rfl | rfl
    · exact Mutual.refl _ 0
    · exact ⟨.single h01, .tail (.single h12) h20⟩
    · exact ⟨.tail (.single h01) h12, .single h20⟩
  exact (h0 a ha).symm.trans (h0 b hb)

omit [IntEqClasses E] [LawfulIntEqClasses E] in
theorem IsCircle.mutual_iff (h : IsCircle isEdge s) {a : Nat} (ha : a ∈ s.layouts) (b : Nat) :
    Mutual (Linked isEdge s) a b ↔ b ∈ s.layouts := by
  refine ⟨fun hab => ?_, h.mutual ha⟩
  by_cases hne : b = a
  · exact hne ▸ ha
  · obtain ⟨_, hedge⟩ := hab.symm.exists_edge hne
    exact hedge.1

omit [LawfulIntEqClasses E] in
theorem History.Invariant.linked_target (hinv : h.Invariant) {a b : Nat}
    (hab : Linked isEdge h.system a b) : b ∈ h.system.layouts := by
  obtain ⟨g, hg⟩ := hinv.graph
  obtain ⟨t, -, hedge⟩ := (hg.linked_iff isEdge a b).mp hab
  exact (hg.vertices b).mpr (g.target_mem hedge)

omit [LawfulIntEqClasses E] in
theorem IsCircle.enumerates (hcircle : IsCircle isEdge h.system) (hinv : h.Invariant) {n : Nat}
    (hn : n ∈ h.system.layouts) : Enumerates (Linked isEdge h.system) n [[0, 1, 2]] := by
  have hmem : ∀ k, k ∈ [0, 1, 2] ↔ k ∈ h.system.layouts := by simp [hcircle.1]
  refine ⟨by simp, by simp, fun c hc a ha b => ?_, fun b hb => ⟨_, List.mem_singleton_self _, ?_⟩⟩
  · obtain rfl := List.mem_singleton.mp hc
    rw [hmem, hcircle.mutual_iff ((hmem a).mp ha)]
  · rw [hmem]
    rcases hb.cases_tail with rfl | ⟨k, -, hedge⟩
    · exact hn
    · exact hinv.linked_target hedge

/-- The circles of equality edges and of instance-at-offset-0 edges, with nodes of three sizes. -/
theorem exists_circle : ∃ h : History LeaderTable, h.Invariant ∧
    IsCircle isEqualityEdge h.system ∧ IsCircle isInstanceOff0 h.system ∧
    NonScalarSized h.system ∧ (h.system.nodes 0).size = 8 ∧ (h.system.nodes 1).size = 4 ∧
    (h.system.nodes 2).size = 0 := by
  have hcreated := ((History.invariant_start (E := LeaderTable)).create (by decide)).create
    (by decide) |>.create (by decide)
  have heq := ((hcreated.addEqualityLink 0 1 rfl).addEqualityLink 1 2 rfl).addEqualityLink 2 0 rfl
  have hinst := ((heq.addInstanceLink 0 1 ⟨0, [], []⟩ rfl).addInstanceLink 1 2 ⟨0, [], []⟩
    rfl).addInstanceLink 2 0 ⟨0, [], []⟩ rfl
  refine ⟨_, hinst.withSizes fun n => [8, 4, 0].getD n 0, ⟨by decide, ?_, ?_, ?_⟩,
    ⟨by decide, ?_, ?_, ?_⟩, by unfold NonScalarSized; decide, rfl, rfl, rfl⟩
  · exact ⟨by decide, .equalityTag, by decide, by decide⟩
  · exact ⟨by decide, .equalityTag, by decide, by decide⟩
  · exact ⟨by decide, .equalityTag, by decide, by decide⟩
  · exact ⟨by decide, offset0Tag, by decide, by decide⟩
  · exact ⟨by decide, offset0Tag, by decide, by decide⟩
  · exact ⟨by decide, offset0Tag, by decide, by decide⟩

omit [IntEqClasses E] [LawfulIntEqClasses E] in
theorem size_ne_of_circle (hlayouts : s.layouts = {0, 1, 2}) (h0 : (s.nodes 0).size = 8)
    (h1 : (s.nodes 1).size = 4) (h2 : (s.nodes 2).size = 0) {a b : Nat} (ha : a ∈ s.layouts)
    (hb : b ∈ s.layouts) (hne : a ≠ b) : (s.nodes a).size ≠ (s.nodes b).size := by
  simp only [hlayouts, Finset.mem_insert, Finset.mem_singleton] at ha hb
  rcases ha with rfl | rfl | rfl <;> rcases hb with rfl | rfl | rfl <;> simp_all

/-- The node without a size joins the largest one, in both passes. -/
theorem collapseSCCs_circle : ∃ h : History LeaderTable,
    (∃ s', collapseSCCs (fun _ => [[0, 1, 2]]) h.system = some s' ∧
      s'.eqClasses.haveSameEqClass 2 0 = true ∧ (∀ a b, ¬ Linked isEqualityEdge s' a b)) ∧
    (∃ s', collapseSCCs (fun _ => [[0, 1, 2]]) h.system = some s' ∧
      s'.eqClasses.haveSameEqClass 2 0 = true ∧ Acyclic (Linked isInstanceOff0 s')) := by
  obtain ⟨h, hinv, heq, hoff, hsized, h0, h1, h2⟩ := exists_circle
  have hspec := collapseSCCs_spec hinv fun _ => [[0, 1, 2]]
  obtain ⟨hpass, hnone⟩ := hspec.1 fun n hn => heq.enumerates hinv hn
  obtain ⟨hpass', hacyclic⟩ := hspec.2 fun n hn => hoff.enumerates hinv hn
  have hmem : ∀ n ∈ [0, 1, 2], n ∈ h.system.layouts := by simp [heq.1]
  have hjoins : ∀ {isEdge : TypeLinkTag → Bool}, IsCircle isEdge h.system → ∀ s',
      CollapsesTo isEdge h.system s' → s'.eqClasses.haveSameEqClass 2 0 = true := by
    intro isEdge hcircle s' hs'
    have hnode : ∀ b, Mutual (Linked isEdge h.system) 0 b ↔ b ∈ h.system.layouts :=
      hcircle.mutual_iff (hmem 0 (by simp))
    obtain ⟨leaders, hchain⟩ := hs' 0 (hmem 0 (by simp)) fun a ha b hb hne hsize => absurd hsize
      (size_ne_of_circle heq.1 h0 h1 h2 ((hnode a).mp ha) ((hnode b).mp hb) hne)
    refine hchain.empty 2 ((hnode 2).mpr (hmem 2 (by simp))) h2 0 (Mutual.refl _ 0) fun k hk => ?_
    have hk := (hnode k).mp hk
    simp only [heq.1, Finset.mem_insert, Finset.mem_singleton] at hk
    rcases hk with rfl | rfl | rfl <;> omega
  obtain ⟨s', hs'⟩ := hpass.completes hsized
  refine ⟨h, ⟨s', hs', hjoins heq s' (hpass.collapses s' hs'), hnone s' hs' fun a b hab => ?_⟩,
    s', hs', hjoins hoff s' (hpass'.collapses s' hs'), hacyclic s' hs'⟩
  exact (heq.mutual hab.1 (hinv.linked_target hab)).2

/-- A single equality edge. -/
theorem exists_oneWay : ∃ h : History LeaderTable, h.Invariant ∧ h.system.layouts = {0, 1} ∧
    Linked isEqualityEdge h.system 1 0 ∧ ∀ b, ¬ Linked isEqualityEdge h.system 0 b := by
  have hcreated := ((History.invariant_start (E := LeaderTable)).create (by decide)).create
    (by decide)
  have hedge := (hcreated.addEqualityLink 0 1 rfl).eraseEdge 0 ⟨1, .equalityTag⟩ rfl
  refine ⟨_, hedge, by decide, ⟨by decide, .equalityTag, by decide, by decide⟩, ?_⟩
  rintro b ⟨-, t, -, hmem⟩
  have hnone : ∀ s : NeighborsSet, s = ∅ → (⟨b, t⟩ : Link) ∉ s := by
    rintro s rfl
    exact Finset.notMem_empty _
  exact hnone _ (by decide) hmem

/-- A node without a size is not in the class of every node of its component, and an equality edge
that leads one way is left. -/
theorem not_collapseSCCs_merges :
    (¬ ∀ (h : History LeaderTable) (sccs : Nat → List (List Nat)) s', h.Invariant →
      (∀ n ∈ h.system.layouts, Enumerates (Linked isEqualityEdge h.system) n (sccs n)) →
      collapseSCCs sccs h.system = some s' →
      ∀ a b, Mutual (Linked isEqualityEdge h.system) a b →
        ((h.system.nodes a).size = (h.system.nodes b).size ∨ (h.system.nodes b).size = 0) →
        s'.eqClasses.haveSameEqClass a b = true) ∧
    ¬ ∀ (h : History LeaderTable) (sccs : Nat → List (List Nat)) s', h.Invariant →
      (∀ n ∈ h.system.layouts, Enumerates (Linked isEqualityEdge h.system) n (sccs n)) →
      collapseSCCs sccs h.system = some s' → ∀ a b, ¬ Linked isEqualityEdge s' a b := by
  constructor
  · intro hall
    obtain ⟨h, hinv, hcircle, -, hsized, h0, h1, h2⟩ := exists_circle
    have hsccs : ∀ n ∈ h.system.layouts,
        Enumerates (Linked isEqualityEdge h.system) n [[0, 1, 2]] :=
      fun n hn => hcircle.enumerates hinv hn
    have hcomp := components_toCollapse hsccs
    obtain ⟨g, hg⟩ := hinv.graph
    have hs : Stores h g := ⟨hinv, hg⟩
    have hmem : ∀ n ∈ [0, 1, 2], n ∈ h.system.layouts := by simp [hcircle.1]
    obtain ⟨s', hcollapse⟩ := exists_collapseSCCs hs hsized hcomp
    obtain ⟨h', g', m, done, rfl, hc, hdone⟩ := collapseSCCs_collapsed hs hcomp hcollapse
    have hmutual : ∀ b, Mutual (Linked isEqualityEdge h.system) 0 b ↔ b ∈ h.system.layouts :=
      hcircle.mutual_iff (hmem 0 (by simp))
    obtain ⟨nodes, hnodes, hzero⟩ := hcomp.covers 0 1
      ((hmutual 1).mpr (hmem 1 (by simp))) (by decide)
    obtain ⟨c, hcd, rfl⟩ := List.mem_map.mp (hdone ▸ hnodes)
    have hnode : ∀ b, b ∈ c.1 ↔ b ∈ h.system.layouts := fun b =>
      (hcomp.component c.1 hnodes 0 hzero b).trans (hmutual b)
    have hleads := hc.leads c hcd
    have hsame := hall h _ h'.system hinv hsccs hcollapse 1 2
      (hcircle.mutual (hmem 1 (by simp)) (hmem 2 (by simp))) (Or.inr h2)
    rw [hc.haveSameEqClass_iff hs (hmem 1 (by simp)) (hmem 2 (by simp))] at hsame
    have hlast := hleads.zero (fun a ha b hb hne hsize => absurd hsize
      (size_ne_of_circle hcircle.1 h0 h1 h2 ((hnode a).mp ha) ((hnode b).mp hb) hne))
      2 ((hnode 2).mpr (hmem 2 (by simp))) h2
    have hfirst := hleads.largest 0 hzero fun k hk => by
      have hk := (hnode k).mp hk
      simp only [hcircle.1, Finset.mem_insert, Finset.mem_singleton] at hk
      rcases hk with rfl | rfl | rfl <;> omega
    -- the nodes that are left of the first two have the sizes of these
    have hsize₀ := hleads.sameSize 0 hzero (by omega)
    have hsize₁ := hleads.sameSize 1 ((hnode 1).mpr (hmem 1 (by simp))) (by omega)
    have heq : m 2 = m 0 := Option.some.inj (hlast.symm.trans hfirst)
    rw [hsame, heq] at hsize₁
    omega
  · intro hall
    obtain ⟨h, hinv, hlayouts, hedge, hnone⟩ := exists_oneWay
    have halone : ∀ a b, Mutual (Linked isEqualityEdge h.system) a b → a = b := by
      intro a b hab
      by_contra hne
      obtain ⟨x, ha⟩ := hab.exists_edge hne
      obtain ⟨y, hb⟩ := hab.symm.exists_edge (Ne.symm hne)
      -- one of two nodes is the one without edges
      have hmem := And.intro ha.1 hb.1
      simp only [hlayouts, Finset.mem_insert, Finset.mem_singleton] at hmem
      rcases hmem with ⟨rfl | rfl, rfl | rfl⟩
      · exact hnone x ha
      · exact hnone x ha
      · exact hnone y hb
      · exact hne rfl
    have hsccs : ∀ n ∈ h.system.layouts,
        Enumerates (Linked isEqualityEdge h.system) n [[0], [1]] := by
      intro n hn
      have hsingle : ∀ a b, b = a ↔ Mutual (Linked isEqualityEdge h.system) a b := fun a b =>
        ⟨fun heq => heq ▸ Mutual.refl _ b, fun hab => (halone a b hab).symm⟩
      refine ⟨by simp, by simp, by simpa using ⟨hsingle 0, hsingle 1⟩, fun b hb => ?_⟩
      have hb : b ∈ h.system.layouts := by
        rcases hb.cases_tail with rfl | ⟨k, -, hlink⟩
        · exact hn
        · exact hinv.linked_target hlink
      simpa [hlayouts] using hb
    have hnil := (components_toCollapse hsccs).eq_nil halone
    refine hall h (fun _ => [[0], [1]]) h.system hinv hsccs ?_ 1 0 hedge
    rw [collapseSCCs, hnil]
    rfl

end DataLayout
