import Mathlib.Order.Lattice.Nat
import Revng.DataLayout.RemoveInvalidStrideEdges

/-!
# Sizes after edges were removed

The pass leaves every node after its children (`Trimmed`).  It only computes the size of a node
again if the node itself lost an edge, so a node that keeps all of its edges keeps its size as well,
even when its children have shrunk.
-/

namespace DataLayout

open LayoutTypeSystem PostOrder StrongComponents Relation

variable {E : Type} {s t t' : LayoutTypeSystem E} {n : Nat} {l : Link}

namespace LayoutTypeSystem

/-- The largest upper member of the children, where the nodes have the given sizes. -/
def largestUpperMember (size : Nat → Nat) (edges : Finset Link) : Nat :=
  edges.sup fun l => upperMember (size l.node) l.tag

/-- The edges that are valid, where the nodes have the given sizes. -/
def validEdges (size : Nat → Nat) (edges : Finset Link) : Finset Link :=
  edges.filter fun l => HasValidStrides (size l.node) l.tag

def size (s : LayoutTypeSystem E) (n : Nat) : Nat := (s.nodes n).size

/-- The size of each node with instance children is the largest upper member of its children. -/
def SizedByChildren (s : LayoutTypeSystem E) : Prop :=
  ∀ n ∈ s.layouts, (s.instanceEdges n).Nonempty →
    s.size n = largestUpperMember s.size (s.instanceEdges n)

/-- What holds of the links and sizes before the pass. -/
structure Measured (s : LayoutTypeSystem E) : Prop where
  sized : s.SizedByChildren
  bounded : ∀ n ∈ s.layouts, s.size n < 2 ^ 64
  wellFormed : ∀ n ∈ s.layouts, ∀ l ∈ s.instanceEdges n, l.tag.offsetExpr.WellFormed
  bothWays : s.EqualityBothWays

end LayoutTypeSystem

variable {size : Nat → Nat} {edges : Finset Link}

theorem mem_validEdges :
    l ∈ validEdges size edges ↔ l ∈ edges ∧ HasValidStrides (size l.node) l.tag := Finset.mem_filter

variable {size' : Nat → Nat}

theorem validEdges_congr (h : ∀ l ∈ edges, size l.node = size' l.node) :
    validEdges size edges = validEdges size' edges :=
  Finset.filter_congr fun l hl => by rw [h l hl]

theorem largestUpperMember_congr (h : ∀ l ∈ edges, size l.node = size' l.node) :
    largestUpperMember size edges = largestUpperMember size' edges :=
  Finset.sup_congr rfl fun l hl => by rw [h l hl]

theorem mem_instanceChildren {m : Nat} (hn : n ∈ s.layouts) :
    m ∈ s.instanceChildren n ↔ LayoutTypeSystem.Linked isInstanceEdge s n m := by
  rw [LayoutTypeSystem.instanceChildren, List.mem_map]
  constructor
  · rintro ⟨l, hl, rfl⟩
    obtain ⟨hl, hinst⟩ := List.mem_filter.mp hl
    exact ⟨hn, l.tag, hinst, NeighborsSet.mem_inOrder.mp hl⟩
  · rintro ⟨-, tag, hinst, hmem⟩
    exact ⟨⟨m, tag⟩, List.mem_filter.mpr ⟨NeighborsSet.mem_inOrder.mpr hmem, hinst⟩, rfl⟩

/-! ## Before the pass -/

/-- Every field ends where its parent ends, or before. -/
theorem LayoutTypeSystem.Measured.upperMember_le (hm : s.Measured) (hn : n ∈ s.layouts)
    (hl : l ∈ s.instanceEdges n) : upperMember (s.size l.node) l.tag ≤ s.size n := by
  rw [hm.sized n hn ⟨l, hl⟩]
  exact Finset.le_sup (f := fun l : Link => upperMember (s.size l.node) l.tag) hl

theorem LayoutTypeSystem.Measured.fits (hm : s.Measured) (hn : n ∈ s.layouts)
    (hl : l ∈ s.instanceEdges n) {size : Nat} (hle : size ≤ s.size l.node) :
    upperMember size l.tag < 2 ^ 64 :=
  ((upperMember_mono hle l.tag).trans (hm.upperMember_le hn hl)).trans_lt (hm.bounded n hn)

/-! ## Leaving a node -/

/-- The sizes of the children of a node are not larger than those in `s`. -/
structure Checkable (s t : LayoutTypeSystem E) (n : Nat) : Prop where
  measured : s.Measured
  mem : n ∈ s.layouts
  le : ∀ m, t.size m ≤ s.size m

theorem Checkable.hasValidStrides_eq (h : Checkable s t n) (hl : l ∈ s.instanceEdges n) :
    hasValidStrides (t.nodes l.node) l.tag =
      some (decide (HasValidStrides (t.size l.node) l.tag)) :=
  DataLayout.hasValidStrides_eq (h.measured.wellFormed n h.mem l hl)
    ((extent_le_upperMember _ _).trans_lt (h.measured.fits h.mem hl (h.le _)))

theorem Checkable.getFieldUpperMember_eq (h : Checkable s t n) (hl : l ∈ s.instanceEdges n)
    (hvalid : HasValidStrides (t.size l.node) l.tag) :
    getFieldUpperMember (t.nodes l.node) l.tag = some (upperMember (t.size l.node) l.tag) :=
  DataLayout.getFieldUpperMember_eq (mem_instanceEdges.mp hl).2
    (h.measured.wellFormed n h.mem l hl) hvalid.1 (h.measured.fits h.mem hl (h.le _))

/-- The system `t'` is `t` without some edges of `n`. -/
structure LosesEdges (t : LayoutTypeSystem E) (n : Nat) (lost : Link → Prop)
    (t' : LayoutTypeSystem E) : Prop where
  dag : t'.IsDAG
  layouts : t'.layouts = t.layouts
  size : t'.size = t.size
  successors : ∀ m l, l ∈ (t'.nodes m).successors ↔
    l ∈ (t.nodes m).successors ∧ ¬ (m = n ∧ lost l)

/-- The loop over the edges erases those that are not valid. -/
theorem exists_foldlM_removeIfInvalid (edges : List Link) : ∀ (removed : Bool)
    {t : LayoutTypeSystem E}, t.IsDAG → n ∈ t.layouts → edges.Nodup →
    (∀ l ∈ edges, l ∈ (t.nodes n).successors) →
    (∀ l ∈ edges, isInstanceEdge l.tag → hasValidStrides (t.nodes l.node) l.tag =
      some (decide (HasValidStrides (t.size l.node) l.tag))) →
    ∃ t' removed', edges.foldlM (removeIfInvalid n) (t, removed) = some (t', removed') ∧
      LosesEdges t n (fun l => l ∈ edges ∧ isInstanceEdge l.tag ∧
        ¬ HasValidStrides (t.size l.node) l.tag) t' ∧
      (removed' = true ↔ removed = true ∨
        ∃ l ∈ edges, isInstanceEdge l.tag ∧ ¬ HasValidStrides (t.size l.node) l.tag) := by
  induction edges with
  | nil => exact fun _ _ ht _ _ _ _ => ⟨_, _, rfl, ⟨ht, rfl, rfl, by simp⟩, by simp⟩
  | cons edge edges ih =>
    intro removed t ht hn hnodup hmem hcheck
    obtain ⟨hnotMem, hnodup⟩ := List.nodup_cons.mp hnodup
    have hmemEdge := hmem edge List.mem_cons_self
    by_cases hlost : isInstanceEdge edge.tag ∧ ¬ HasValidStrides (t.size edge.node) edge.tag
    · obtain ⟨hinst, hinvalid⟩ := hlost
      -- the edge is erased
      have hone : removeIfInvalid n (t, removed) edge =
          some ({ t with nodes := eraseLink t.nodes n edge.node edge.tag }, true) := by
        simp only [removeIfInvalid, hinst, hcheck edge List.mem_cons_self hinst, guard,
          if_pos (ht.hasLink hn hmemEdge).2, decide_eq_false hinvalid]
        rfl
      have hsize : LayoutTypeSystem.size
          { t with nodes := eraseLink t.nodes n edge.node edge.tag } = t.size :=
        funext fun m => size_eraseLink _ _ _ _ m
      have hnodeSize : ∀ m, (eraseLink t.nodes n edge.node edge.tag m).size = (t.nodes m).size :=
        fun m => size_eraseLink _ _ _ _ m
      have hkept : ∀ l ∈ edges, l ∈ (eraseLink t.nodes n edge.node edge.tag n).successors := by
        refine fun l hl => mem_successors_erase.mpr ⟨hmem l (List.mem_cons_of_mem _ hl), ?_⟩
        rintro ⟨-, rfl⟩
        exact hnotMem hl
      obtain ⟨t', removed', hrun, hloses, hflag⟩ := ih true
        (ht.eraseLink n edge.node edge.tag) hn hnodup hkept fun l hl hinst' => by
          have hold := hcheck l (List.mem_cons_of_mem _ hl) hinst'
          rw [hsize]
          simpa only [hasValidStrides, hnodeSize] using hold
      refine ⟨t', removed', ?_, ⟨hloses.dag, hloses.layouts, hloses.size.trans hsize,
        fun m l => ?_⟩, ?_⟩
      · rw [List.foldlM_cons, hone]
        exact hrun
      · rw [hloses.successors, mem_successors_erase, hsize, List.mem_cons, and_assoc]
        refine and_congr_right fun _ => ?_
        by_cases heq : l = edge
        · subst heq
          simp only [hnotMem, hinst, hinvalid]
          tauto
        · simp [heq]
      · exact iff_of_true (hflag.mpr (Or.inl rfl))
          (Or.inr ⟨edge, List.mem_cons_self, hinst, hinvalid⟩)
    · -- the edge is kept
      have hone : removeIfInvalid n (t, removed) edge = some (t, removed) := by
        by_cases hinst : isInstanceEdge edge.tag
        · have hvalid : HasValidStrides (t.size edge.node) edge.tag := by
            by_contra hnot
            exact hlost ⟨hinst, hnot⟩
          simp only [removeIfInvalid, hinst, hcheck edge List.mem_cons_self hinst,
            decide_eq_true hvalid]
          rfl
        · simp [removeIfInvalid, hinst]
      obtain ⟨t', removed', hrun, hloses, hflag⟩ := ih removed ht hn hnodup
        (fun l hl => hmem l (List.mem_cons_of_mem _ hl))
        fun l hl => hcheck l (List.mem_cons_of_mem _ hl)
      refine ⟨t', removed', ?_, ⟨hloses.dag, hloses.layouts, hloses.size, fun m l => ?_⟩, ?_⟩
      · rw [List.foldlM_cons, hone]
        exact hrun
      · rw [hloses.successors, List.mem_cons]
        refine and_congr_right fun _ => not_congr (and_congr_right fun _ => ?_)
        constructor
        · exact fun ⟨hl, hrest⟩ => ⟨Or.inr hl, hrest⟩
        · rintro ⟨rfl | hl, hrest⟩
          · exact absurd hrest hlost
          · exact ⟨hl, hrest⟩
      · rw [hflag]
        simp [hlost]

/-- The largest of some upper members, one after the other. -/
theorem foldlM_upperMember {t : LayoutTypeSystem E} (edges : List Link) : ∀ newSize : Nat,
    (∀ l ∈ edges, getFieldUpperMember (t.nodes l.node) l.tag =
      some (upperMember (t.size l.node) l.tag)) →
    edges.foldlM (fun newSize l => do
      return max newSize (← getFieldUpperMember (t.nodes l.node) l.tag)) newSize =
      some (max newSize (largestUpperMember t.size edges.toFinset)) := by
  induction edges with
  | nil => exact fun newSize _ => by simp [largestUpperMember]
  | cons edge edges ih =>
    intro newSize h
    rw [List.foldlM_cons, h edge List.mem_cons_self]
    refine (ih _ fun l hl => h l (List.mem_cons_of_mem _ hl)).trans ?_
    rw [largestUpperMember, largestUpperMember, List.toFinset_cons, Finset.sup_insert]
    exact congrArg some (max_assoc _ _ _)

theorem sizeFromChildren_eq
    (hinst : ∀ l ∈ (t.nodes n).successors, isNotPointerEdge l.tag → isInstanceEdge l.tag)
    (h : ∀ l ∈ t.instanceEdges n, getFieldUpperMember (t.nodes l.node) l.tag =
      some (upperMember (t.size l.node) l.tag)) :
    t.sizeFromChildren n = some (largestUpperMember t.size (t.instanceEdges n)) := by
  have hmem : ∀ l, l ∈ (t.nodes n).successors.inOrder.filter (fun l => isNotPointerEdge l.tag) ↔
      l ∈ t.instanceEdges n := by
    intro l
    rw [List.mem_filter, NeighborsSet.mem_inOrder, mem_instanceEdges]
    exact and_congr_right fun hl => ⟨hinst l hl, isNotPointerEdge_of_instance⟩
  have hfinset : ((t.nodes n).successors.inOrder.filter
      (fun l => isNotPointerEdge l.tag)).toFinset = t.instanceEdges n := by
    ext l
    rw [List.mem_toFinset, hmem]
  rw [LayoutTypeSystem.sizeFromChildren, foldlM_upperMember _ 0 fun l hl => h l ((hmem l).mp hl),
    hfinset, Nat.zero_max]

theorem successors_resize (t : LayoutTypeSystem E) (n size m : Nat) :
    (t.nodes.modify n (fun node => { node with size }) m).successors = (t.nodes m).successors := by
  rw [modify_apply]
  split <;> rfl

theorem isDAG_resize (ht : t.IsDAG) (n size : Nat) :
    LayoutTypeSystem.IsDAG { t with nodes := t.nodes.modify n fun node => { node with size } } := by
  obtain ⟨g, hg⟩ := ht.consistent.represents
  have hg' := hg.modify (k := n) (f := fun node => { node with size }) rfl rfl
  have hc : LayoutTypeSystem.Consistent
      { t with nodes := t.nodes.modify n fun node => { node with size } } := Represents.consistent hg'
  exact ht.of_subset hc rfl fun m => (successors_resize t n size m).subset

/-- The size that a node is left with, where its children have the given sizes. -/
def LayoutTypeSystem.sizeLeft (s : LayoutTypeSystem E) (size : Nat → Nat) (n : Nat) : Nat :=
  if validEdges size (s.instanceEdges n) = s.instanceEdges n then s.size n
  else largestUpperMember size (validEdges size (s.instanceEdges n))

/-- What leaving the node `n` of `t` makes of it. -/
structure LeavesNode (t : LayoutTypeSystem E) (n : Nat) (t' : LayoutTypeSystem E) : Prop where
  dag : t'.IsDAG
  layouts : t'.layouts = t.layouts
  otherSizes : ∀ m, m ≠ n → t'.size m = t.size m
  otherEdges : ∀ m, m ≠ n → (t'.nodes m).successors = (t.nodes m).successors
  successors : ∀ l, l ∈ (t'.nodes n).successors ↔ l ∈ (t.nodes n).successors ∧
    (isInstanceEdge l.tag → HasValidStrides (t.size l.node) l.tag)
  size : t'.size n = t.sizeLeft t.size n

theorem LosesEdges.leavesNode {lost : Link → Prop} (h : LosesEdges t n lost t')
    (hlost : ∀ l ∈ (t.nodes n).successors,
      lost l ↔ isInstanceEdge l.tag ∧ ¬ HasValidStrides (t.size l.node) l.tag)
    {t'' : LayoutTypeSystem E} (hdag : t''.IsDAG) (hlayouts : t''.layouts = t'.layouts)
    (hedges : ∀ m, (t''.nodes m).successors = (t'.nodes m).successors)
    (hothers : ∀ m, m ≠ n → t''.size m = t'.size m) (hsize : t''.size n = t.sizeLeft t.size n) :
    LeavesNode t n t'' where
  dag := hdag
  layouts := hlayouts.trans h.layouts
  otherSizes m hm := by rw [hothers m hm, h.size]
  otherEdges m hm := by
    ext l
    rw [hedges, h.successors]
    exact and_iff_left fun heq => hm heq.1
  successors l := by
    rw [hedges, h.successors]
    refine and_congr_right fun hl => ?_
    simp only [hlost l hl, true_and]
    tauto
  size := hsize

/-- Leaving a node completes. -/
theorem Checkable.exists_removeInvalidEdgesOf (h : Checkable s t n) (hs : s.IsDAG) (ht : t.IsDAG)
    (hlayouts : t.layouts = s.layouts)
    (hedges : (t.nodes n).successors = (s.nodes n).successors) :
    ∃ t', removeInvalidEdgesOf n t = some t' ∧ LeavesNode t n t' := by
  have hn : n ∈ t.layouts := hlayouts ▸ h.mem
  have hinstEdges : t.instanceEdges n = s.instanceEdges n := by
    rw [LayoutTypeSystem.instanceEdges, hedges, LayoutTypeSystem.instanceEdges]
  have hcheck : ∀ l ∈ (t.nodes n).successors.inOrder, isInstanceEdge l.tag →
      hasValidStrides (t.nodes l.node) l.tag =
        some (decide (HasValidStrides (t.size l.node) l.tag)) := by
    intro l hl hinst
    refine h.hasValidStrides_eq (hinstEdges ▸ mem_instanceEdges.mpr ⟨?_, hinst⟩)
    exact NeighborsSet.mem_inOrder.mp hl
  obtain ⟨t₁, removed, hrun, hloses, hflag⟩ := exists_foldlM_removeIfInvalid _ false ht hn
    ((NeighborsSet.inOrder_sorted _).imp ne_of_lt) (fun l hl => NeighborsSet.mem_inOrder.mp hl)
    hcheck
  have hlost : ∀ l ∈ (t.nodes n).successors,
      (l ∈ (t.nodes n).successors.inOrder ∧ isInstanceEdge l.tag ∧
        ¬ HasValidStrides (t.size l.node) l.tag) ↔
      isInstanceEdge l.tag ∧ ¬ HasValidStrides (t.size l.node) l.tag :=
    fun l hl => and_iff_right (NeighborsSet.mem_inOrder.mpr hl)
  -- an edge was removed unless all of the instance edges are valid
  have hall : removed = true ↔ validEdges t.size (t.instanceEdges n) ≠ t.instanceEdges n := by
    rw [hflag, ne_eq, validEdges, Finset.filter_eq_self]
    simp only [Bool.false_eq_true, false_or, NeighborsSet.mem_inOrder, mem_instanceEdges]
    push Not
    exact exists_congr fun l => and_assoc.symm
  cases removed with
  | false =>
    have hvalid : validEdges t.size (t.instanceEdges n) = t.instanceEdges n := by
      by_contra hnot
      exact absurd (hall.mpr hnot) (by decide)
    refine ⟨t₁, ?_, hloses.leavesNode hlost hloses.dag rfl (fun _ => rfl) (fun _ _ => rfl) ?_⟩
    · rw [LayoutTypeSystem.removeInvalidEdgesOf, hrun]
      rfl
    · rw [hloses.size, LayoutTypeSystem.sizeLeft, if_pos hvalid]
  | true =>
    have hinvalid := hall.mp rfl
    have hvalidEdges : t₁.instanceEdges n = validEdges t.size (t.instanceEdges n) := by
      ext l
      rw [mem_instanceEdges, mem_validEdges, mem_instanceEdges, hloses.successors]
      constructor
      · rintro ⟨⟨hl, hkept⟩, hinst⟩
        refine ⟨⟨hl, hinst⟩, ?_⟩
        by_contra hnot
        exact hkept ⟨rfl, (hlost l hl).mpr ⟨hinst, hnot⟩⟩
      · rintro ⟨⟨hl, hinst⟩, hvalid⟩
        exact ⟨⟨hl, fun hlost => hlost.2.2.2 hvalid⟩, hinst⟩
    have hsize : t₁.sizeFromChildren n =
        some (largestUpperMember t.size (validEdges t.size (t.instanceEdges n))) := by
      rw [← hvalidEdges, ← hloses.size]
      refine sizeFromChildren_eq (fun l hl hnot => ?_) fun l hl => ?_
      · have hmem := ((hloses.successors n l).mp hl).1
        exact hs.isInstanceEdge h.measured.bothWays h.mem (hedges ▸ hmem) hnot
      · obtain ⟨hmem, hvalid⟩ := mem_validEdges.mp (hvalidEdges ▸ hl)
        have hcheckable : Checkable s t₁ n :=
          ⟨h.measured, h.mem, fun m => hloses.size ▸ h.le m⟩
        exact hcheckable.getFieldUpperMember_eq (hinstEdges ▸ hmem) (hloses.size ▸ hvalid)
    refine ⟨_, ?_, hloses.leavesNode hlost (isDAG_resize hloses.dag n
      (largestUpperMember t.size (validEdges t.size (t.instanceEdges n)))) rfl
      (fun m => successors_resize t₁ n _ m) (fun m hm => ?_) ?_⟩
    · rw [LayoutTypeSystem.removeInvalidEdgesOf, hrun]
      simp only [Option.bind_eq_bind, Option.bind_some, if_true, hsize]
      rfl
    · simp [LayoutTypeSystem.size, modify_apply, hm]
    · rw [LayoutTypeSystem.sizeLeft, if_neg hinvalid]
      simp [LayoutTypeSystem.size, modify_apply]

/-! ## The visit -/

/-- The nodes in `left` were left, and the other ones are those of `s`. -/
structure Trimmed (s : LayoutTypeSystem E) (left : Finset Nat) (t : LayoutTypeSystem E) : Prop where
  dag : t.IsDAG
  layouts : t.layouts = s.layouts
  le : ∀ n, t.size n ≤ s.size n
  pending : ∀ n, n ∉ left → (t.nodes n).successors = (s.nodes n).successors ∧ t.size n = s.size n
  children : ∀ n ∈ left, ∀ l ∈ s.instanceEdges n, l.node ∈ left
  successors : ∀ n ∈ left, ∀ l, l ∈ (t.nodes n).successors ↔ l ∈ (s.nodes n).successors ∧
    (isInstanceEdge l.tag → HasValidStrides (t.size l.node) l.tag)
  size : ∀ n ∈ left, t.size n = s.sizeLeft t.size n

theorem Trimmed.start (hs : s.IsDAG) : Trimmed s ∅ s :=
  ⟨hs, rfl, fun _ => le_rfl, fun _ _ => ⟨rfl, rfl⟩, by simp, by simp, by simp⟩

theorem sizeLeft_congr (h : ∀ l ∈ s.instanceEdges n, size l.node = size' l.node) :
    s.sizeLeft size n = s.sizeLeft size' n := by
  have hvalid := validEdges_congr h
  have hsub : ∀ l ∈ validEdges size' (s.instanceEdges n), size l.node = size' l.node :=
    fun l hl => h l (mem_validEdges.mp hl).1
  rw [LayoutTypeSystem.sizeLeft, LayoutTypeSystem.sizeLeft, hvalid, largestUpperMember_congr hsub]

/-- A node does not grow when its children do not. -/
theorem LayoutTypeSystem.Measured.sizeLeft_le (hm : s.Measured) (hn : n ∈ s.layouts)
    (hle : ∀ m, size m ≤ s.size m) : s.sizeLeft size n ≤ s.size n := by
  unfold LayoutTypeSystem.sizeLeft
  split
  · exact le_rfl
  · refine Finset.sup_le fun l hl => ?_
    exact (upperMember_mono (hle _) _).trans (hm.upperMember_le hn (mem_validEdges.mp hl).1)

theorem Trimmed.leave {left : Finset Nat} (h : Trimmed s left t) (hs : s.IsDAG) (hm : s.Measured)
    (hn : n ∈ s.layouts) (hnot : n ∉ left) (hbelow : ∀ l ∈ s.instanceEdges n, l.node ∈ left) :
    ∃ t', removeInvalidEdgesOf n t = some t' ∧ Trimmed s (insert n left) t' := by
  obtain ⟨hedges, hsize⟩ := h.pending n hnot
  have hcheckable : Checkable s t n := ⟨hm, hn, h.le⟩
  obtain ⟨t', hrun, hl⟩ := hcheckable.exists_removeInvalidEdgesOf hs h.dag h.layouts hedges
  -- the children of a node that was left are other nodes, whose sizes stay the same
  have hsame : ∀ m ∈ insert n left, ∀ l ∈ s.instanceEdges m, t'.size l.node = t.size l.node := by
    intro m hm l hl'
    refine hl.otherSizes _ fun heq => hnot (heq ▸ ?_)
    rcases Finset.mem_insert.mp hm with rfl | hm
    · exact hbelow l hl'
    · exact h.children m hm l hl'
  have hsizeN : t'.size n = s.sizeLeft t.size n := by
    have hinst : t.instanceEdges n = s.instanceEdges n := by
      rw [LayoutTypeSystem.instanceEdges, hedges, LayoutTypeSystem.instanceEdges]
    rw [hl.size, LayoutTypeSystem.sizeLeft, LayoutTypeSystem.sizeLeft, hsize, hinst]
  refine ⟨t', hrun, hl.dag, hl.layouts.trans h.layouts, fun m => ?_, fun m hm' => ?_, fun m hm' => ?_,
    fun m hm' l => ?_, fun m hm' => ?_⟩
  · by_cases hmn : m = n
    · rw [hmn, hsizeN]
      exact hm.sizeLeft_le hn h.le
    · rw [hl.otherSizes m hmn]
      exact h.le m
  · have hmn : m ≠ n := fun heq => hm' (heq ▸ Finset.mem_insert_self _ _)
    rw [hl.otherEdges m hmn, hl.otherSizes m hmn]
    exact h.pending m fun hmem => hm' (Finset.mem_insert_of_mem hmem)
  · intro l hl'
    rcases Finset.mem_insert.mp hm' with rfl | hm'
    · exact Finset.mem_insert_of_mem (hbelow l hl')
    · exact Finset.mem_insert_of_mem (h.children m hm' l hl')
  · have hsucc : l ∈ (t'.nodes m).successors ↔ l ∈ (s.nodes m).successors ∧
        (isInstanceEdge l.tag → HasValidStrides (t.size l.node) l.tag) := by
      rcases Finset.mem_insert.mp hm' with rfl | hleft
      · rw [hl.successors, hedges]
      · have hmn : m ≠ n := fun heq => hnot (heq ▸ hleft)
        rw [hl.otherEdges m hmn, h.successors m hleft]
    rw [hsucc]
    refine and_congr_right fun hmem => forall_congr' fun hinst => ?_
    rw [hsame m hm' l (mem_instanceEdges.mpr ⟨hmem, hinst⟩)]
  · rw [sizeLeft_congr (hsame m hm')]
    rcases Finset.mem_insert.mp hm' with rfl | hleft
    · exact hsizeN
    · have hmn : m ≠ n := fun heq => hnot (heq ▸ hleft)
      rw [hl.otherSizes m hmn, h.size m hleft]

theorem Trimmed.isInstanceRoot {left : Finset Nat} (h : Trimmed s left t)
    (hroot : ∀ m, ¬ LayoutTypeSystem.Linked isInstanceEdge s m n) (hn : n ∈ s.layouts) :
    t.isInstanceRoot n := by
  simp only [LayoutTypeSystem.isInstanceRoot, decide_eq_true_eq]
  intro l hl hinst
  have hn' : n ∈ t.layouts := h.layouts ▸ hn
  have hm := h.dag.consistent.noDangling n hn' l (Finset.mem_union_right _ hl)
  have hsucc := (h.dag.consistent.mirror l.node hm n hn' l.tag).mpr hl
  refine hroot l.node ⟨h.layouts ▸ hm, l.tag, hinst, ?_⟩
  by_cases hleft : l.node ∈ left
  · exact ((h.successors _ hleft _).mp hsucc).1
  · rwa [(h.pending _ hleft).1] at hsucc

theorem Trimmed.invariant (hs : s.IsDAG) (hm : s.Measured) :
    Invariant instanceChildren removeInvalidEdgesOf (LayoutTypeSystem.Linked isInstanceEdge s)
      {n | n ∈ s.layouts} (Trimmed s) where
  closed n _ m hnm := by
    obtain ⟨hn, tag, -, hmem⟩ := hnm
    exact hs.target_mem hn hmem
  children left t h n hn hnot m := by
    rw [mem_instanceChildren (h.layouts ▸ hn), LayoutTypeSystem.Linked, LayoutTypeSystem.Linked,
      h.layouts, (h.pending n hnot).1]
  leave left t h n hn hnot hbelow := h.leave hs hm hn hnot fun l hl =>
    hbelow l.node (linked_of_mem_instanceEdges hn hl)

theorem exists_instanceRank (hs : s.IsDAG) : ∃ rank : Nat → Nat,
    (∀ a b, LayoutTypeSystem.Linked isInstanceEdge s a b → rank b < rank a) ∧
      ∀ a, rank a ≤ s.layouts.card := by
  refine (hs.acyclic_of fun _ => isNotPointerEdge_of_instance).exists_rank s.layouts ?_
  rintro a b ⟨ha, tag, -, hmem⟩
  exact hs.target_mem ha hmem

/-- The pass completes, and it leaves every node after its children. -/
theorem exists_removeInvalidStrideEdges (hs : s.IsDAG) (hm : s.Measured) :
    ∃ t left, s.removeInvalidStrideEdges = some t ∧ Trimmed s left t ∧ ∀ n ∈ s.layouts, n ∈ left := by
  obtain ⟨rank, hrank, hbound⟩ := exists_instanceRank hs
  obtain ⟨left, t, hrun, ht, hleft⟩ := exists_postOrderFrom_all LayoutTypeSystem.isInstanceRoot
    (Trimmed.invariant hs hm) hrank hbound (fun _ _ hab => hab.1)
    (fun n hn hroot left t ht => ht.isInstanceRoot hroot hn)
    (fun n => Finset.mem_sort (s := s.layouts) (· ≤ ·)) (Trimmed.start hs)
  exact ⟨t, left, by rw [LayoutTypeSystem.removeInvalidStrideEdges, hrun]; rfl, ht, hleft⟩

/-!
## Sizes that are stale

The size that a node should have follows from those of its children, with the edges left out that
are invalid for these sizes (`trimmedSize`).  The pass gets it right exactly when every node that
should shrink loses an edge of its own (`removeInvalidStrideEdges_iff`).
-/

variable {left : Finset Nat}

namespace LayoutTypeSystem

/-- The sizes that the nodes should have, with a bound on the levels of children. -/
def trimmedSizeUpTo (s : LayoutTypeSystem E) : Nat → Nat → Nat
  | 0 => s.size
  | levels + 1 => fun n =>
      if s.instanceEdges n = ∅ then s.size n
      else largestUpperMember (s.trimmedSizeUpTo levels)
        (validEdges (s.trimmedSizeUpTo levels) (s.instanceEdges n))

def trimmedSize (s : LayoutTypeSystem E) : Nat → Nat := s.trimmedSizeUpTo s.layouts.card

/-- No instance edge has a stride that is smaller than the extent it repeats. -/
def StridesValid (s : LayoutTypeSystem E) : Prop :=
  ∀ n ∈ s.layouts, ∀ l ∈ s.instanceEdges n, StridesFit l.tag.offsetExpr.dimensions (s.size l.node)

/-- A node that should shrink has an invalid edge itself. -/
def ShrinksByOwnEdges (s : LayoutTypeSystem E) : Prop :=
  ∀ n ∈ s.layouts, s.trimmedSize n ≠ s.size n →
    ∃ l ∈ s.instanceEdges n, ¬ HasValidStrides (s.trimmedSize l.node) l.tag

end LayoutTypeSystem

/-! ## The sizes that the nodes should have -/

theorem trimmedSizeUpTo_of_leaf {n : Nat} (h : s.instanceEdges n = ∅) (levels : Nat) :
    s.trimmedSizeUpTo levels n = s.size n := by
  cases levels with
  | zero => rfl
  | succ levels => simp [LayoutTypeSystem.trimmedSizeUpTo, h]

theorem trimmedSizeUpTo_stable (hs : s.IsDAG) {rank : Nat → Nat}
    (hrank : ∀ a b, LayoutTypeSystem.Linked isInstanceEdge s a b → rank b < rank a)
    (levels : Nat) : ∀ {levels' n : Nat}, n ∈ s.layouts → rank n ≤ levels → rank n ≤ levels' →
      s.trimmedSizeUpTo levels n = s.trimmedSizeUpTo levels' n := by
  have hchild : ∀ {n : Nat} {l : Link}, n ∈ s.layouts → l ∈ s.instanceEdges n →
      l.node ∈ s.layouts ∧ rank l.node < rank n := fun hn hl =>
    ⟨hs.target_mem hn (mem_instanceEdges.mp hl).1, hrank _ _ (linked_of_mem_instanceEdges hn hl)⟩
  induction levels with
  | zero =>
    intro levels' n hn hle hle'
    have hleaf : s.instanceEdges n = ∅ := by
      by_contra hne
      obtain ⟨l, hl⟩ := Finset.nonempty_iff_ne_empty.mpr hne
      have := (hchild hn hl).2
      omega
    rw [trimmedSizeUpTo_of_leaf hleaf, trimmedSizeUpTo_of_leaf hleaf]
  | succ levels ih =>
    intro levels' n hn hle hle'
    by_cases hleaf : s.instanceEdges n = ∅
    · rw [trimmedSizeUpTo_of_leaf hleaf, trimmedSizeUpTo_of_leaf hleaf]
    obtain ⟨l, hl⟩ := Finset.nonempty_iff_ne_empty.mpr hleaf
    have hlt := (hchild hn hl).2
    obtain ⟨levels', rfl⟩ := Nat.exists_eq_succ_of_ne_zero (Nat.ne_of_gt (by omega : 0 < levels'))
    have hsame : ∀ l ∈ s.instanceEdges n,
        s.trimmedSizeUpTo levels l.node = s.trimmedSizeUpTo levels' l.node := by
      intro l hl
      obtain ⟨hmem, hlt⟩ := hchild hn hl
      exact ih hmem (by omega) (by omega)
    simp only [LayoutTypeSystem.trimmedSizeUpTo, if_neg hleaf]
    rw [validEdges_congr hsame]
    exact largestUpperMember_congr fun l hl => hsame l (mem_validEdges.mp hl).1

theorem trimmedSize_eq (hs : s.IsDAG) {n : Nat} (hn : n ∈ s.layouts)
    (hne : (s.instanceEdges n).Nonempty) : s.trimmedSize n =
      largestUpperMember s.trimmedSize (validEdges s.trimmedSize (s.instanceEdges n)) := by
  obtain ⟨rank, hrank, hbound⟩ := exists_instanceRank hs
  have hstable := trimmedSizeUpTo_stable hs hrank s.layouts.card hn (hbound n)
    ((hbound n).trans (Nat.le_succ _))
  rw [LayoutTypeSystem.trimmedSize, hstable]
  exact if_neg hne.ne_empty

/-! ## What the pass leaves -/

theorem validEdges_ne_iff {size : Nat → Nat} {edges : Finset Link} :
    validEdges size edges ≠ edges ↔ ∃ l ∈ edges, ¬ HasValidStrides (size l.node) l.tag := by
  rw [validEdges, ne_eq, Finset.filter_eq_self]
  push Not
  rfl

section Left

variable (ht : Trimmed s left t) (hleft : ∀ n ∈ s.layouts, n ∈ left) {n : Nat} (hn : n ∈ s.layouts)
include ht hleft hn

theorem Trimmed.instanceEdges_eq : t.instanceEdges n = validEdges t.size (s.instanceEdges n) := by
  ext l
  rw [mem_instanceEdges, ht.successors n (hleft n hn), mem_validEdges, mem_instanceEdges]
  constructor
  · rintro ⟨⟨hl, hvalid⟩, hinst⟩
    exact ⟨⟨hl, hinst⟩, hvalid hinst⟩
  · rintro ⟨⟨hl, hinst⟩, hvalid⟩
    exact ⟨⟨hl, fun _ => hvalid⟩, hinst⟩

/-- A node that lost an edge has the size it should have, if its children do. -/
theorem Trimmed.size_of_invalid (hs : s.IsDAG)
    (hsame : ∀ l ∈ s.instanceEdges n, t.size l.node = s.trimmedSize l.node)
    (hinvalid : validEdges t.size (s.instanceEdges n) ≠ s.instanceEdges n) :
    t.size n = s.trimmedSize n := by
  have hne : (s.instanceEdges n).Nonempty := by
    obtain ⟨l, hl, -⟩ := validEdges_ne_iff.mp hinvalid
    exact ⟨l, hl⟩
  rw [ht.size n (hleft n hn), LayoutTypeSystem.sizeLeft, if_neg hinvalid, trimmedSize_eq hs hn hne,
    validEdges_congr hsame]
  exact largestUpperMember_congr fun l hl => hsame l (mem_validEdges.mp hl).1

/-- A node that keeps its edges keeps its size. -/
theorem Trimmed.size_of_valid (hvalid : validEdges t.size (s.instanceEdges n) = s.instanceEdges n) :
    t.size n = s.size n := by
  rw [ht.size n (hleft n hn), LayoutTypeSystem.sizeLeft, if_pos hvalid]

end Left

theorem Trimmed.stridesValid (ht : Trimmed s left t) (hleft : ∀ n ∈ s.layouts, n ∈ left) :
    t.StridesValid := by
  intro n hn l hl
  rw [ht.instanceEdges_eq hleft (ht.layouts ▸ hn)] at hl
  exact (mem_validEdges.mp hl).2.2

/-- What holds of a node if it holds of its children holds of all nodes. -/
theorem instance_induction (hs : s.IsDAG) {P : Nat → Prop}
    (step : ∀ n ∈ s.layouts, (∀ l ∈ s.instanceEdges n, P l.node) → P n) : ∀ n ∈ s.layouts, P n := by
  obtain ⟨rank, hrank, -⟩ := exists_instanceRank hs
  intro n hn
  induction hlevel : rank n using Nat.strong_induction_on generalizing n with
  | _ _ ih =>
    refine step n hn fun l hl => ?_
    have hlt := hrank _ _ (linked_of_mem_instanceEdges hn hl)
    exact ih _ (hlevel ▸ hlt) l.node (hs.target_mem hn (mem_instanceEdges.mp hl).1) rfl

theorem Trimmed.sizedByChildren_iff (ht : Trimmed s left t) (hleft : ∀ n ∈ s.layouts, n ∈ left)
    (hs : s.IsDAG) : t.SizedByChildren ↔ s.ShrinksByOwnEdges := by
  constructor
  · intro hsized
    -- all nodes have the sizes that they should have
    have hsame : ∀ n ∈ s.layouts, t.size n = s.trimmedSize n := by
      refine instance_induction hs fun n hn hchildren => ?_
      by_cases hvalid : validEdges t.size (s.instanceEdges n) = s.instanceEdges n
      · by_cases hleaf : s.instanceEdges n = ∅
        · rw [ht.size_of_valid hleft hn hvalid]
          exact (trimmedSizeUpTo_of_leaf hleaf _).symm
        · have hne := Finset.nonempty_iff_ne_empty.mpr hleaf
          have hedges := ht.instanceEdges_eq hleft hn
          rw [hsized n (ht.layouts ▸ hn) (by rwa [hedges, hvalid]), hedges, trimmedSize_eq hs hn hne,
            validEdges_congr hchildren]
          exact largestUpperMember_congr fun l hl => hchildren l (mem_validEdges.mp hl).1
      · exact ht.size_of_invalid hleft hn hs hchildren hvalid
    intro n hn hshrinks
    have hchildren : ∀ l ∈ s.instanceEdges n, s.trimmedSize l.node = t.size l.node := fun l hl =>
      (hsame l.node (hs.target_mem hn (mem_instanceEdges.mp hl).1)).symm
    refine validEdges_ne_iff.mp fun hvalid => hshrinks ?_
    rw [← hsame n hn]
    exact ht.size_of_valid hleft hn (validEdges_congr hchildren ▸ hvalid)
  · intro hown
    have hsame : ∀ n ∈ s.layouts, t.size n = s.trimmedSize n := by
      refine instance_induction hs fun n hn hchildren => ?_
      by_cases hvalid : validEdges t.size (s.instanceEdges n) = s.instanceEdges n
      · rw [ht.size_of_valid hleft hn hvalid]
        by_contra hne
        refine validEdges_ne_iff.mpr (hown n hn (Ne.symm hne)) ?_
        rwa [← validEdges_congr hchildren]
      · exact ht.size_of_invalid hleft hn hs hchildren hvalid
    intro n hn hne
    have hn' : n ∈ s.layouts := ht.layouts ▸ hn
    have hedges := ht.instanceEdges_eq hleft hn'
    have hchildren : ∀ l ∈ s.instanceEdges n, t.size l.node = s.trimmedSize l.node := fun l hl =>
      hsame l.node (hs.target_mem hn' (mem_instanceEdges.mp hl).1)
    have hne' : (s.instanceEdges n).Nonempty := by
      obtain ⟨l, hl⟩ := hne
      exact ⟨l, (mem_validEdges.mp (hedges ▸ hl)).1⟩
    rw [hsame n hn', trimmedSize_eq hs hn' hne', hedges, validEdges_congr hchildren]
    exact (largestUpperMember_congr fun l hl => hchildren l (mem_validEdges.mp hl).1).symm

/-- The pass completes and leaves no invalid stride.  The sizes are those of the children again
exactly when every node that should shrink loses an edge of its own. -/
theorem removeInvalidStrideEdges_iff (hs : s.IsDAG) (hm : s.Measured) :
    ∃ t, s.removeInvalidStrideEdges = some t ∧ t.StridesValid ∧
      (t.StridesValid ∧ t.SizedByChildren ↔ s.ShrinksByOwnEdges) := by
  obtain ⟨t, left, hrun, ht, hleft⟩ := exists_removeInvalidStrideEdges hs hm
  have hvalid := ht.stridesValid hleft
  exact ⟨t, hrun, hvalid, (and_iff_right hvalid).trans (ht.sizedByChildren_iff hleft hs)⟩

/-! ## A node that keeps its edges -/

theorem measured_ofEdges {count : Nat} {edges : Finset (Nat × Link)} {size : Nat → Nat}
    (hsized : (ofEdges count edges size).SizedByChildren) (hbounded : ∀ n, size n < 2 ^ 64)
    (hedges : ∀ e ∈ edges, isInstanceEdge e.2.tag ∧
      e.2.tag.offsetExpr.strides.length = e.2.tag.offsetExpr.tripCounts.length ∧
      ∀ d ∈ e.2.tag.offsetExpr.dimensions, d.1 ≠ (0 : ℕ) ∧ 0 < d.2) :
    (ofEdges count edges size).Measured where
  sized := hsized
  bounded n _ := hbounded n
  wellFormed n _ l hl := by
    obtain ⟨-, hlengths, hdims⟩ := hedges _ (mem_successors_ofEdges.mp (mem_instanceEdges.mp hl).1)
    exact ⟨hlengths, hdims⟩
  bothWays a b hab := by
    obtain ⟨-, tag, htag, hmem⟩ := hab
    have hinst := (hedges _ (mem_successors_ofEdges.mp hmem)).1
    have hkind : tag.kind = .equality := by simpa [isEqualityEdge] using htag
    simp [isInstanceEdge, hkind] at hinst

/-- The second node repeats an element of 8 bytes in steps of 4, and has another one of 4 bytes.
The first node has the second one. -/
def nestedArray : LayoutTypeSystem LeaderTable :=
  ofEdges 4 {(0, ⟨1, .instanceTag ⟨0, [], []⟩⟩), (1, ⟨2, .instanceTag ⟨0, [4], [(4 : ℕ)]⟩⟩),
    (1, ⟨3, .instanceTag ⟨0, [], []⟩⟩)} fun n => if n < 2 then 20 else if n = 2 then 8 else 4

theorem isDAG_nestedArray : nestedArray.IsDAG :=
  isDAG_ofEdges (by decide) (by decide) (by decide)

theorem measured_nestedArray : nestedArray.Measured := by
  refine measured_ofEdges ?_ (fun n => ?_) (by decide)
  · unfold LayoutTypeSystem.SizedByChildren
    decide
  · split
    · decide
    · split <;> decide

/-- The array is removed and the second node shrinks, but the first one does not. -/
theorem not_removeInvalidStrideEdges :
    ¬ ∀ s t : LayoutTypeSystem LeaderTable, s.IsDAG → s.Measured →
      s.removeInvalidStrideEdges = some t → t.StridesValid ∧ t.SizedByChildren := by
  intro hall
  obtain ⟨t, left, hrun, ht, hleft⟩ :=
    exists_removeInvalidStrideEdges isDAG_nestedArray measured_nestedArray
  have hsized := (hall _ t isDAG_nestedArray measured_nestedArray hrun).2
  have hown := (ht.sizedByChildren_iff hleft isDAG_nestedArray).mp hsized
  revert hown
  unfold LayoutTypeSystem.ShrinksByOwnEdges
  decide

/-- An array that nothing else contains. -/
def outerArray : LayoutTypeSystem LeaderTable :=
  ofEdges 3 {(0, ⟨1, .instanceTag ⟨0, [4], [(4 : ℕ)]⟩⟩), (0, ⟨2, .instanceTag ⟨0, [], []⟩⟩)}
    fun n => if n = 0 then 20 else if n = 1 then 8 else 4

theorem removeInvalidStrideEdges_outerArray : ∃ t, outerArray.removeInvalidStrideEdges = some t ∧
    t.StridesValid ∧ t.SizedByChildren := by
  have hm : outerArray.Measured := by
    refine measured_ofEdges ?_ (fun n => ?_) (by decide)
    · unfold LayoutTypeSystem.SizedByChildren
      decide
    · split
      · decide
      · split <;> decide
  have hown : outerArray.ShrinksByOwnEdges := by
    unfold LayoutTypeSystem.ShrinksByOwnEdges
    decide
  obtain ⟨t, hrun, -, hiff⟩ := removeInvalidStrideEdges_iff (s := outerArray)
    (isDAG_ofEdges (by decide) (by decide) (by decide)) hm
  exact ⟨t, hrun, hiff.mpr hown⟩

end DataLayout
