import Revng.DataLayout.TypeSystem
import Revng.Lib.LabelledGraph

/-!
# The graph that a type system stores

What the two sets of every node store is one graph with labelled edges (`Represents`).
Each operation on the sets is an operation on the graph: `mergeNode` contracts it,
`removeNode` takes a vertex away, and moving an edge takes one edge away and adds another
one.  That the sets mirror each other, that there are no self edges and that no edge ends
outside the system are then properties of the graph.
-/

namespace DataLayout

open OrderedSet LayoutTypeSystem

abbrev TypeGraph := LabelledGraph Nat TypeLinkTag

/-! ## Ranges of neighbors -/

theorem Link.helper_monotone : Monotone Link.helper := fun _ _ h => h

theorem idBasedKey_le_helper_iff {id : Nat} {l : Link} : idBasedKey id ≤ l.helper ↔ id ≤ l.node := by
  rw [idBasedKey, Link.helper, Prod.Lex.toLex_le_toLex]
  simp [le_iff_lt_or_eq]

theorem helper_le_idBasedKey_iff {id : Nat} {l : Link} :
    l.helper ≤ idBasedKey (id + 1) ↔ l.node ≤ id := by
  rw [idBasedKey, Link.helper, Prod.Lex.toLex_le_toLex]
  refine (or_iff_left ?_).trans Nat.lt_succ_iff
  simp

/-- The keys `{ ID, nullptr }` and `{ ID + 1, nullptr }` bound the links to one node. -/
theorem node_eq_iff {id : Nat} {l : Link} :
    l.node = id ↔ idBasedKey id ≤ l.helper ∧ l.helper ≤ idBasedKey (id + 1) := by
  rw [idBasedKey_le_helper_iff, helper_le_idBasedKey_iff]
  omega

variable {set : NeighborsSet}

theorem mem_eraseNeighbors {id : Nat} {l : Link} :
    l ∈ eraseNeighbors id set ↔ l ∈ set ∧ l.node ≠ id := by
  rw [eraseNeighbors, mem_eraseRange_iff Link.helper_monotone, ← node_eq_iff]

/-- What is left of a neighbor after `src` was merged into `into`. -/
def Link.merged (src into : Nat) (l : Link) : Link := ⟨LabelledGraph.merged src into l.node, l.tag⟩

variable {src into : Nat}

theorem moveNeighbors_eq (hne : into ≠ src) (set : NeighborsSet) :
    moveNeighbors src into set = set.image (Link.merged src into) := by
  have hle : idBasedKey src ≤ idBasedKey (src + 1) :=
    (idBasedKey_le_helper_iff.mpr le_rfl).trans
      (helper_le_idBasedKey_iff.mpr (le_refl (Link.mk src .equalityTag).node))
  have hmove : ∀ l : Link, l.node = src →
      ¬ (⟨into, l.tag⟩ : Link).node = src ∧ (⟨into, (⟨into, l.tag⟩ : Link).tag⟩ : Link) = ⟨into, l.tag⟩ :=
    fun l _ => ⟨hne, rfl⟩
  rw [moveNeighbors]
  refine (relocate_bounds Link.helper Link.helper_monotone (fun l _ => node_eq_iff) hle
    hmove).trans (Finset.image_congr fun l _ => ?_)
  by_cases hl : l.node = src
  · simp [Link.merged, LabelledGraph.merged, hl]
  · simp [Link.merged, LabelledGraph.merged, hl]

variable {m : Nat} {t : TypeLinkTag}

theorem mem_moveNeighbors (hne : into ≠ src) :
    ⟨m, t⟩ ∈ moveNeighbors src into set ↔
      ∃ b, ⟨b, t⟩ ∈ set ∧ LabelledGraph.merged src into b = m := by
  rw [moveNeighbors_eq hne, Finset.mem_image]
  constructor
  · rintro ⟨⟨b, u⟩, hmem, heq⟩
    cases heq
    exact ⟨b, hmem, rfl⟩
  · rintro ⟨b, hmem, rfl⟩
    exact ⟨⟨b, t⟩, hmem, rfl⟩

theorem moveNeighbors_idem (hne : into ≠ src) (set : NeighborsSet) :
    moveNeighbors src into (moveNeighbors src into set) = moveNeighbors src into set := by
  have hmerged : ∀ l, Link.merged src into (Link.merged src into l) = Link.merged src into l := by
    intro l
    by_cases hl : l.node = src <;> simp [Link.merged, LabelledGraph.merged, hl, hne]
  rw [moveNeighbors_eq hne, moveNeighbors_eq hne, Finset.image_image]
  exact Finset.image_congr fun l _ => hmerged l

theorem moveNeighbors_of_notMem (hne : into ≠ src) (h : ∀ l ∈ set, l.node ≠ src) :
    moveNeighbors src into set = set := by
  rw [moveNeighbors_eq hne]
  conv_rhs => rw [← Finset.image_id (s := set)]
  exact Finset.image_congr fun l hl => by simp [Link.merged, LabelledGraph.merged, h l hl]

/-! ## Changing nodes -/

theorem modify_apply (nodes : Nodes) (k : Nat) (f : LayoutTypeSystemNode → LayoutTypeSystemNode)
    (n : Nat) : nodes.modify k f n = if n = k then f (nodes n) else nodes n := by
  unfold Nodes.modify
  by_cases h : n = k
  · simp [h]
  · simp [h]

/-- All neighbors are changed, once or more often. -/
theorem foldl_modify {f : LayoutTypeSystemNode → LayoutTypeSystemNode} (hf : ∀ x, f (f x) = f x)
    (links : List Link) : ∀ (nodes : Nodes) (n : Nat),
      (links.foldl (fun nodes l => nodes.modify l.node f) nodes) n =
        if n ∈ links.map Link.node then f (nodes n) else nodes n := by
  induction links with
  | nil => simp
  | cons l links ih =>
    intro nodes n
    rw [List.foldl_cons, ih, modify_apply]
    by_cases hn : n = l.node <;> by_cases hmem : n ∈ links.map Link.node <;> simp_all

variable {nodes : Nodes} {tgt : Nat} {tag : TypeLinkTag}

theorem mem_successors_insertLink {n : Nat} :
    ⟨m, t⟩ ∈ (insertLink nodes src tgt tag n).successors ↔
      (n, t, m) = (src, tag, tgt) ∨ ⟨m, t⟩ ∈ (nodes n).successors := by
  unfold insertLink
  by_cases hn : n = src <;> by_cases hn' : n = tgt <;> simp_all [modify_apply, and_comm]

theorem mem_predecessors_insertLink {n : Nat} :
    ⟨m, t⟩ ∈ (insertLink nodes src tgt tag n).predecessors ↔
      (m, t, n) = (src, tag, tgt) ∨ ⟨m, t⟩ ∈ (nodes n).predecessors := by
  unfold insertLink
  by_cases hn : n = src <;> by_cases hn' : n = tgt <;> simp_all [modify_apply]

theorem mem_successors_eraseLink {n : Nat} :
    ⟨m, t⟩ ∈ (eraseLink nodes src tgt tag n).successors ↔
      ⟨m, t⟩ ∈ (nodes n).successors ∧ (n, t, m) ≠ (src, tag, tgt) := by
  unfold eraseLink
  by_cases hn : n = src <;> by_cases hn' : n = tgt <;> simp_all [modify_apply] <;> tauto

theorem mem_predecessors_eraseLink {n : Nat} :
    ⟨m, t⟩ ∈ (eraseLink nodes src tgt tag n).predecessors ↔
      ⟨m, t⟩ ∈ (nodes n).predecessors ∧ (m, t, n) ≠ (src, tag, tgt) := by
  unfold eraseLink
  by_cases hn : n = src <;> by_cases hn' : n = tgt <;> simp_all [modify_apply] <;> tauto

/-! ## What the sets store -/

/-- The sets of the nodes in the system are the edges of a graph. -/
structure Represents (layouts : Finset Nat) (nodes : Nodes) (g : TypeGraph) : Prop where
  vertices : ∀ n, n ∈ layouts ↔ n ∈ g.vertices
  successors : ∀ n ∈ layouts, ∀ m t, ⟨m, t⟩ ∈ (nodes n).successors ↔ (n, t, m) ∈ g.edges
  predecessors : ∀ n ∈ layouts, ∀ m t, ⟨m, t⟩ ∈ (nodes n).predecessors ↔ (m, t, n) ∈ g.edges

section Edges

variable {layouts : Finset Nat} {nodes : Nodes} {g : TypeGraph} (h : Represents layouts nodes g)

theorem represents_empty (nodes : Nodes) : Represents ∅ nodes LabelledGraph.empty where
  vertices := fun n => by simp [LabelledGraph.empty]
  successors := by simp
  predecessors := by simp

include h

theorem Represents.insertLink {src tgt : Nat} (hsrc : src ∈ layouts) (htgt : tgt ∈ layouts)
    (hne : src ≠ tgt) (tag : TypeLinkTag) :
    Represents layouts (insertLink nodes src tgt tag)
      (g.connect src tag tgt ((h.vertices src).mp hsrc) ((h.vertices tgt).mp htgt) hne) where
  vertices := h.vertices
  successors := fun n hn m t =>
    mem_successors_insertLink.trans (or_congr_right (h.successors n hn m t))
  predecessors := fun n hn m t =>
    mem_predecessors_insertLink.trans (or_congr_right (h.predecessors n hn m t))

theorem Represents.eraseLink (src tgt : Nat) (tag : TypeLinkTag) :
    Represents layouts (eraseLink nodes src tgt tag) (g.disconnect src tag tgt) where
  vertices := h.vertices
  successors := fun n hn m t =>
    mem_successors_eraseLink.trans (and_congr_left' (h.successors n hn m t))
  predecessors := fun n hn m t =>
    mem_predecessors_eraseLink.trans (and_congr_left' (h.predecessors n hn m t))

variable {n : Nat} {t : TypeLinkTag}

theorem Represents.mem_of_successor {m : Nat} (hn : n ∈ layouts)
    (hm : ⟨m, t⟩ ∈ (nodes n).successors) : m ∈ layouts :=
  (h.vertices m).mpr (g.target_mem ((h.successors n hn m t).mp hm))

theorem Represents.mem_of_predecessor {m : Nat} (hn : n ∈ layouts)
    (hm : ⟨m, t⟩ ∈ (nodes n).predecessors) : m ∈ layouts :=
  (h.vertices m).mpr (g.source_mem ((h.predecessors n hn m t).mp hm))

/-- A node is a neighbor of those that have it as a neighbor. -/
theorem Represents.mem_successors_of {src : Nat} (hn : n ∈ layouts) (hsrc : src ∈ layouts)
    (hm : ⟨src, t⟩ ∈ (nodes n).predecessors) : n ∈ (nodes src).successors.inOrder.map Link.node :=
  List.mem_map.mpr ⟨⟨n, t⟩, NeighborsSet.mem_inOrder.mpr
    ((h.successors src hsrc n t).mpr ((h.predecessors n hn src t).mp hm)), rfl⟩

theorem Represents.mem_predecessors_of {src : Nat} (hn : n ∈ layouts) (hsrc : src ∈ layouts)
    (hm : ⟨src, t⟩ ∈ (nodes n).successors) : n ∈ (nodes src).predecessors.inOrder.map Link.node :=
  List.mem_map.mpr ⟨⟨n, t⟩, NeighborsSet.mem_inOrder.mpr
    ((h.predecessors src hsrc n t).mpr ((h.successors n hn src t).mp hm)), rfl⟩

theorem Represents.notMem_successors_self (hn : n ∈ layouts) :
    ∀ l ∈ (nodes n).successors, l.node ≠ n := fun l hl heq =>
  g.loopless ((h.successors n hn l.node l.tag).mp hl) heq.symm

theorem Represents.notMem_predecessors_self (hn : n ∈ layouts) :
    ∀ l ∈ (nodes n).predecessors, l.node ≠ n := fun l hl heq =>
  g.loopless ((h.predecessors n hn l.node l.tag).mp hl) heq

end Edges

/-! ## Merging and removing -/

section Merge

variable {layouts : Finset Nat} {nodes : Nodes} {g : TypeGraph} {src into : Nat}

/-- Both loops reach every node that has `k` as a neighbor. -/
theorem editNeighbors_apply (h : Represents layouts nodes g) {k : Nat} (hk : k ∈ layouts)
    {edit : NeighborsSet → NeighborsSet} (hidem : ∀ set, edit (edit set) = edit set)
    (hedit : ∀ set, (∀ l ∈ set, l.node ≠ k) → edit set = set) {n : Nat} (hn : n ∈ layouts) :
    editNeighbors k edit nodes n =
      { nodes n with
        predecessors := edit (nodes n).predecessors
        successors := edit (nodes n).successors } := by
  have hpred : ∀ m ∈ layouts,
      ((nodes k).successors.inOrder.foldl (fun nodes l => nodes.modify l.node fun n =>
        { n with predecessors := edit n.predecessors }) nodes) m =
      { nodes m with predecessors := edit (nodes m).predecessors } := by
    intro m hm
    rw [foldl_modify fun x => by simp [hidem]]
    split
    · rfl
    next hnot =>
      rw [hedit _ fun l hl heq => hnot ?_]
      exact h.mem_successors_of hm hk (t := l.tag) (heq ▸ hl)
  unfold editNeighbors
  generalize (nodes k).successors.inOrder.foldl _ nodes = nodes₁ at hpred ⊢
  have hk₁ : nodes₁ k = nodes k := by
    rw [hpred k hk, hedit _ (h.notMem_predecessors_self hk)]
  rw [foldl_modify fun x => by simp [hidem], hpred n hn, hk₁]
  split
  · rfl
  next hnot =>
    have hsucc : edit (nodes n).successors = (nodes n).successors :=
      hedit _ fun l hl heq => hnot (h.mem_predecessors_of hn hk (t := l.tag) (heq ▸ hl))
    rw [hsucc]

/-- A node whose neighbors point to `into` instead of `src`. -/
def moved (src into : Nat) (n : LayoutTypeSystemNode) : LayoutTypeSystemNode :=
  { n with
    predecessors := moveNeighbors src into n.predecessors
    successors := moveNeighbors src into n.successors }

/-- What `fixPredSucc` makes of the nodes of the system. -/
theorem fixPredSucc_apply (h : Represents layouts nodes g) (hsrc : src ∈ layouts)
    (hne : into ≠ src) {n : Nat} (hn : n ∈ layouts) :
    fixPredSucc src into nodes n =
      if n = into then
        { moved src into (nodes n) with
          predecessors := eraseNeighbors into (eraseNeighbors src
            ((moved src into (nodes n)).predecessors ∪ (nodes src).predecessors))
          successors := eraseNeighbors into (eraseNeighbors src
            ((moved src into (nodes n)).successors ∪ (nodes src).successors)) }
      else moved src into (nodes n) := by
  have hmoved : ∀ m ∈ layouts, editNeighbors src (moveNeighbors src into) nodes m =
      moved src into (nodes m) := fun m hm =>
    editNeighbors_apply h hsrc (moveNeighbors_idem hne)
      (fun set hset => moveNeighbors_of_notMem hne hset) hm
  have hsrc' : moved src into (nodes src) = nodes src := by
    rw [moved, moveNeighbors_of_notMem hne (h.notMem_predecessors_self hsrc),
      moveNeighbors_of_notMem hne (h.notMem_successors_self hsrc)]
  simp only [fixPredSucc, modify_apply, hmoved n hn, hmoved src hsrc, hsrc']

/-- Merging two nodes contracts the graph. -/
theorem Represents.fixPredSucc (h : Represents layouts nodes g) (hsrc : src ∈ layouts)
    (hinto : into ∈ layouts) (hne : into ≠ src) :
    Represents (layouts.erase src) (fixPredSucc src into nodes)
      (g.contract src into ((h.vertices into).mp hinto) hne) where
  vertices := fun n => by
    simp [LabelledGraph.contract, h.vertices n, and_comm]
  successors := fun n hn m t => by
    obtain ⟨hnsrc, hn⟩ := Finset.mem_erase.mp hn
    rw [fixPredSucc_apply h hsrc hne hn]
    by_cases hninto : n = into
    · subst hninto
      rw [if_pos rfl, LabelledGraph.mem_contract_into, mem_eraseNeighbors, mem_eraseNeighbors,
        Finset.mem_union, moved, mem_moveNeighbors hne, and_assoc, and_comm]
      simp only [h.successors n hn, h.successors src hsrc]
    · rw [if_neg hninto, LabelledGraph.mem_contract_source hninto hnsrc, moved,
        mem_moveNeighbors hne]
      simp only [h.successors n hn]
  predecessors := fun n hn m t => by
    obtain ⟨hnsrc, hn⟩ := Finset.mem_erase.mp hn
    have hpred : ∀ k ∈ layouts, ∀ b u, ⟨b, u⟩ ∈ (nodes k).predecessors ↔
        (k, u, b) ∈ g.reverse.edges := h.predecessors
    have hrev : into ∈ g.reverse.vertices := (h.vertices into).mp hinto
    rw [fixPredSucc_apply h hsrc hne hn, ← LabelledGraph.mem_reverse_contract hrev]
    by_cases hninto : n = into
    · subst hninto
      rw [if_pos rfl, LabelledGraph.mem_contract_into, mem_eraseNeighbors, mem_eraseNeighbors,
        Finset.mem_union, moved, mem_moveNeighbors hne, and_assoc, and_comm]
      simp only [hpred n hn, hpred src hsrc]
    · rw [if_neg hninto, LabelledGraph.mem_contract_source hninto hnsrc, moved,
        mem_moveNeighbors hne]
      simp only [hpred n hn]

/-- Removing a node takes it out of the graph. -/
theorem Represents.removeNode (h : Represents layouts nodes g) {k : Nat} (hk : k ∈ layouts) :
    Represents (layouts.erase k) (editNeighbors k (eraseNeighbors k) nodes)
      (g.removeVertex k) := by
  have hidem : ∀ set, eraseNeighbors k (eraseNeighbors k set) = eraseNeighbors k set := fun set => by
    ext l
    simp [mem_eraseNeighbors]
  have hedit : ∀ set, (∀ l ∈ set, l.node ≠ k) → eraseNeighbors k set = set := fun set hset => by
    ext l
    rw [mem_eraseNeighbors]
    exact and_iff_left_of_imp (hset l)
  refine ⟨fun n => ?_, fun n hn m t => ?_, fun n hn m t => ?_⟩
  · simp [LabelledGraph.removeVertex, h.vertices n, and_comm]
  · obtain ⟨hne, hn⟩ := Finset.mem_erase.mp hn
    rw [editNeighbors_apply h hk hidem hedit hn, mem_eraseNeighbors, h.successors n hn]
    simp [LabelledGraph.removeVertex, hne]
  · obtain ⟨hne, hn⟩ := Finset.mem_erase.mp hn
    rw [editNeighbors_apply h hk hidem hedit hn, mem_eraseNeighbors, h.predecessors n hn]
    simp +contextual [LabelledGraph.removeVertex, hne]

end Merge

/-! ## Creating and changing nodes -/

section Nodes

variable {layouts : Finset Nat} {nodes : Nodes} {g : TypeGraph} (h : Represents layouts nodes g)
include h

/-- What a node stores besides its neighbors does not matter. -/
theorem Represents.modify {k : Nat} {f : LayoutTypeSystemNode → LayoutTypeSystemNode}
    (hsucc : (f (nodes k)).successors = (nodes k).successors)
    (hpred : (f (nodes k)).predecessors = (nodes k).predecessors) :
    Represents layouts (nodes.modify k f) g where
  vertices := h.vertices
  successors := fun n hn m t => by
    rw [modify_apply]
    split
    next heq => rw [heq, hsucc, ← heq, h.successors n hn]
    next => exact h.successors n hn m t
  predecessors := fun n hn m t => by
    rw [modify_apply]
    split
    next heq => rw [heq, hpred, ← heq, h.predecessors n hn]
    next => exact h.predecessors n hn m t

theorem Represents.create {k : Nat} (hk : k ∉ layouts) :
    Represents (insert k layouts) (Function.update nodes k .new) (g.addVertex k) where
  vertices := fun n => by simp [LabelledGraph.addVertex, h.vertices n]
  successors := fun n hn m t => by
    have hnone : ∀ m t, (k, t, m) ∉ g.edges := fun m t hedge =>
      hk ((h.vertices k).mpr (g.source_mem hedge))
    rcases Finset.mem_insert.mp hn with rfl | hn
    · simpa [LayoutTypeSystemNode.new, LabelledGraph.addVertex] using hnone m t
    · have hne : n ≠ k := fun heq => hk (heq ▸ hn)
      rw [Function.update_of_ne hne]
      exact h.successors n hn m t
  predecessors := fun n hn m t => by
    have hnone : ∀ m t, (m, t, k) ∉ g.edges := fun m t hedge =>
      hk ((h.vertices k).mpr (g.target_mem hedge))
    rcases Finset.mem_insert.mp hn with rfl | hn
    · simpa [LayoutTypeSystemNode.new, LabelledGraph.addVertex] using hnone m t
    · have hne : n ≠ k := fun heq => hk (heq ▸ hn)
      rw [Function.update_of_ne hne]
      exact h.predecessors n hn m t

end Nodes

end DataLayout
