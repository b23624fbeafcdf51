import Revng.DataLayout.EdgeMoves
import Revng.DataLayout.FieldExtents
import Revng.Lib.ByteOffsets
import Revng.Lib.PostOrder

/-!
# Passes that rewrite nodes

Some passes visit the nodes in post-order, and lead edges of each node through new nodes
(`NodeRewritten`).  Such a pass completes if it completes at each node, and what was reached at an
offset is still reached there (`exists_rewriting`, `Rewriting.splits`).
-/

namespace DataLayout

open LayoutTypeSystem PostOrder ByteOffsets StrongComponents Relation

variable {E : Type} {s t t' t'' : LayoutTypeSystem E} {left : Finset Nat} {n m : Nat} {l : Link}

/-! ## Fields at an offset -/

/-- Where the elements of an array start.  An unknown number of elements counts as one. -/
def ElementAt : Dimensions → ℕ → Prop
  | [], x => x = 0
  | (tripCount, stride) :: outer, x =>
      ∃ k y, k < tripCount.unbotD 1 ∧ ElementAt outer y ∧ x = k * stride + y

def FieldAt (tag : TypeLinkTag) (x : ℕ) : Prop :=
  ∃ y, ElementAt tag.offsetExpr.dimensions y ∧ x = tag.offsetExpr.offset + y

namespace LayoutTypeSystem

/-- The node `n` has an instance of `c` at the byte offset `x`. -/
def HasAt (s : LayoutTypeSystem E) (n c x : Nat) : Prop :=
  ∃ l ∈ s.instanceEdges n, l.node = c ∧ FieldAt l.tag x

/-- An identifier that is given to a new node is above all others. -/
def IdsBelow (s : LayoutTypeSystem E) : Prop := ∀ n ∈ s.layouts, n < s.nid

end LayoutTypeSystem

theorem fieldAt_plain {k x : ℕ} : FieldAt (.instanceTag ⟨k, [], []⟩) x ↔ x = k := by
  constructor
  · rintro ⟨y, rfl, rfl⟩
    rfl
  · rintro rfl
    exact ⟨0, rfl, rfl⟩

theorem hasAt_congr (h : (t'.nodes n).successors = (t.nodes n).successors) {c x : Nat} :
    t'.HasAt n c x ↔ t.HasAt n c x := by
  rw [LayoutTypeSystem.HasAt, LayoutTypeSystem.HasAt, LayoutTypeSystem.instanceEdges, h,
    LayoutTypeSystem.instanceEdges]

theorem LayoutTypeSystem.Consistent.successor_mem (ht : t.Consistent) (hn : n ∈ t.layouts)
    (hl : l ∈ (t.nodes n).successors) : l.node ∈ t.layouts :=
  ht.noDangling n hn l (Finset.mem_union_left _ hl)

theorem LayoutTypeSystem.Consistent.hasAt_mem (ht : t.Consistent) (hn : n ∈ t.layouts) {c x : Nat}
    (h : t.HasAt n c x) : c ∈ t.layouts := by
  obtain ⟨l, hl, rfl, -⟩ := h
  exact ht.successor_mem hn (mem_instanceEdges.mp hl).1

/-! ## One node -/

/-- The node `n` was rewritten, with the help of new nodes. -/
structure NodeRewritten (t : LayoutTypeSystem E) (n : Nat) (t' : LayoutTypeSystem E) : Prop where
  consistent : t'.Consistent
  idsBelow : t'.IdsBelow
  subset : t.layouts ⊆ t'.layouts
  size : ∀ m ∈ t.layouts, (t'.nodes m).size = (t.nodes m).size
  others : ∀ m ∈ t.layouts, m ≠ n → (t'.nodes m).successors = (t.nodes m).successors ∧
    (t'.nodes m).interferingInfo = (t.nodes m).interferingInfo
  split : ∀ c x, t.HasAt n c x → Through (fun m => m ∈ t.layouts) t'.HasAt n c x
  targets : ∀ m ∈ t'.layouts, m = n ∨ m ∉ t.layouts → ∀ l ∈ (t'.nodes m).successors,
    isNotPointerEdge l.tag → l.node ∈ t.layouts →
      ∃ tag, isNotPointerEdge tag ∧ ⟨l.node, tag⟩ ∈ (t.nodes n).successors

theorem NodeRewritten.refl (ht : t.Consistent) (hids : t.IdsBelow) (hn : n ∈ t.layouts) :
    NodeRewritten t n t where
  consistent := ht
  idsBelow := hids
  subset := Finset.Subset.refl _
  size _ _ := rfl
  others _ _ _ := ⟨rfl, rfl⟩
  split _ _ hat := .single hat
  targets m hm hnew l hl hnot _ := by
    obtain rfl : m = n := hnew.resolve_right fun hnot => hnot hm
    exact ⟨l.tag, hnot, hl⟩

theorem NodeRewritten.trans (h : NodeRewritten t n t') (h' : NodeRewritten t' n t'')
    (hn : n ∈ t.layouts) : NodeRewritten t n t'' where
  consistent := h'.consistent
  idsBelow := h'.idsBelow
  subset := h.subset.trans h'.subset
  size m hm := (h'.size m (h.subset hm)).trans (h.size m hm)
  others m hm hmn := by
    obtain ⟨hsucc, hinfo⟩ := h.others m hm hmn
    obtain ⟨hsucc', hinfo'⟩ := h'.others m (h.subset hm) hmn
    exact ⟨hsucc'.trans hsucc, hinfo'.trans hinfo⟩
  split c x hat := by
    refine (h.split c x hat).lift (fun a => a ∈ t'.layouts)
      (fun _ _ _ hc hat => h.consistent.hasAt_mem hc hat) (h.subset hn) fun a b y ha hor hab => ?_
    by_cases han : a = n
    · subst han
      exact (h'.split b y hab).mono fun m hm => h.subset hm
    · exact .single ((hasAt_congr (h'.others a ha han).1).mpr hab)
  targets m hm hnew l hl hnot hmem := by
    by_cases hmn : m = n ∨ m ∉ t'.layouts
    · obtain ⟨tag, htag, hl'⟩ := h'.targets m hm hmn l hl hnot (h.subset hmem)
      exact h.targets n (h.subset hn) (Or.inl rfl) ⟨l.node, tag⟩ hl' htag hmem
    · rw [not_or, not_not] at hmn
      rw [(h'.others m hmn.2 hmn.1).1] at hl
      exact h.targets m hmn.2 hnew l hl hnot hmem

theorem Regrouped.idsBelow {newTag : TypeLinkTag → TypeLinkTag} {moved : List Link}
    {tag : TypeLinkTag} (h : Regrouped t n newTag moved tag t') (hids : t.IdsBelow) :
    t'.IdsBelow := fun m hm => by
  rw [h.layouts] at hm
  rw [h.nid]
  rcases Finset.mem_insert.mp hm with rfl | hm
  · exact Nat.lt_succ_self _
  · exact (hids m hm).trans (Nat.lt_succ_self _)

/-- Edges are grouped so that each field is split in two. -/
theorem Regrouped.nodeRewritten {newTag : TypeLinkTag → TypeLinkTag} {moved : List Link}
    {tag : TypeLinkTag} (h : Regrouped t n newTag moved tag t') (hids : t.IdsBelow)
    (hmoved : ∀ l ∈ moved, l ∈ t.instanceEdges n) (htag : isInstanceEdge tag)
    (hnewTag : ∀ l ∈ moved, isInstanceEdge (newTag l.tag))
    (hsplit : ∀ l ∈ moved, ∀ x, FieldAt l.tag x →
      ∃ y z, FieldAt tag y ∧ FieldAt (newTag l.tag) z ∧ x = y + z) : NodeRewritten t n t' where
  consistent := h.consistent
  idsBelow := h.idsBelow hids
  subset m hm := h.layouts ▸ Finset.mem_insert_of_mem hm
  size m hm := (h.fields m hm).size
  others m hm hmn := ⟨h.others m hm hmn, (h.fields m hm).interferingInfo⟩
  split c x hat := by
    obtain ⟨l, hl, rfl, hx⟩ := hat
    obtain ⟨hsucc, hinst⟩ := mem_instanceEdges.mp hl
    by_cases hmem : l ∈ moved
    · obtain ⟨y, z, hy, hz, rfl⟩ := hsplit l hmem x hx
      refine .step (b := t.nid) ⟨_, mem_instanceEdges.mpr ⟨(h.source _).mpr (Or.inl rfl), htag⟩, rfl,
        hy⟩ (fun hnid => (hids _ hnid).false) (.single ⟨_, mem_instanceEdges.mpr
          ⟨(h.target _).mpr ⟨l, hmem, rfl⟩, hnewTag l hmem⟩, rfl, hz⟩)
    · exact .single ⟨l, mem_instanceEdges.mpr ⟨(h.source l).mpr (Or.inr ⟨hsucc, hmem⟩), hinst⟩, rfl,
        hx⟩
  targets m hm hnew l hl hnot hmem := by
    have hnid : t.nid ∉ t.layouts := fun hmem => (hids _ hmem).false
    by_cases hmn : m = n
    · subst hmn
      rcases (h.source l).mp hl with rfl | ⟨hold, -⟩
      · exact absurd hmem hnid
      · exact ⟨l.tag, hnot, hold⟩
    · rw [h.layouts] at hm
      obtain rfl : m = t.nid :=
        (Finset.mem_insert.mp hm).resolve_right (hnew.resolve_left hmn)
      obtain ⟨l', hl', rfl⟩ := (h.target l).mp hl
      obtain ⟨hsucc, hinst⟩ := mem_instanceEdges.mp (hmoved l' hl')
      exact ⟨l'.tag, isNotPointerEdge_of_instance hinst, hsucc⟩

/-! ## A whole pass -/

/-- The nodes in `left` were rewritten, and the other ones of `s` are the same. -/
structure Rewriting (s : LayoutTypeSystem E) (left : Finset Nat) (t : LayoutTypeSystem E) :
    Prop where
  consistent : t.Consistent
  idsBelow : t.IdsBelow
  subset : s.layouts ⊆ t.layouts
  leftMem : ∀ n ∈ left, n ∈ s.layouts
  size : ∀ n ∈ s.layouts, (t.nodes n).size = (s.nodes n).size
  pending : ∀ n ∈ s.layouts, n ∉ left → (t.nodes n).successors = (s.nodes n).successors
  split : ∀ n ∈ left, ∀ c x, s.HasAt n c x → Through (fun m => m ∈ s.layouts) t.HasAt n c x
  targets : ∀ m ∈ t.layouts, ∀ l ∈ (t.nodes m).successors, isNotPointerEdge l.tag →
    l.node ∈ s.layouts → ∃ a ∈ s.layouts, ∃ tag, isNotPointerEdge tag ∧
      ⟨l.node, tag⟩ ∈ (s.nodes a).successors

theorem Rewriting.start (hs : s.Consistent) (hids : s.IdsBelow) : Rewriting s ∅ s where
  consistent := hs
  idsBelow := hids
  subset := Finset.Subset.refl _
  leftMem := by simp
  size _ _ := rfl
  pending _ _ _ := rfl
  split := by simp
  targets m hm l hl ht _ := ⟨m, hm, l.tag, ht, hl⟩

/-- A new node has been created only for one node, and stays as it is. -/
theorem Rewriting.leave (h : Rewriting s left t) (hn : n ∈ s.layouts) (hnot : n ∉ left)
    (hr : NodeRewritten t n t') : Rewriting s (insert n left) t' where
  consistent := hr.consistent
  idsBelow := hr.idsBelow
  subset := h.subset.trans hr.subset
  leftMem m hm := by
    rcases Finset.mem_insert.mp hm with rfl | hm
    · exact hn
    · exact h.leftMem m hm
  size m hm := (hr.size m (h.subset hm)).trans (h.size m hm)
  pending m hm hnotMem := by
    have hmn : m ≠ n := fun heq => hnotMem (heq ▸ Finset.mem_insert_self _ _)
    rw [(hr.others m (h.subset hm) hmn).1]
    exact h.pending m hm fun hmem => hnotMem (Finset.mem_insert_of_mem hmem)
  split m hm c x hs := by
    rcases Finset.mem_insert.mp hm with rfl | hmLeft
    · have ht : t.HasAt m c x := (hasAt_congr (h.pending m hn hnot)).mpr hs
      exact (hr.split c x ht).mono fun a ha => h.subset ha
    · refine (h.split m hmLeft c x hs).lift (fun a => a ∈ t.layouts)
        (fun _ _ _ hc hat => h.consistent.hasAt_mem hc hat) (h.subset (h.leftMem m hmLeft)) ?_
      intro a b y ha hor hat
      have han : a ≠ n := by
        rcases hor with rfl | hnew
        · exact fun heq => hnot (heq ▸ hmLeft)
        · exact fun heq => hnew (heq ▸ hn)
      exact .single ((hasAt_congr (hr.others a ha han).1).mpr hat)
  targets m hm l hl ht hmem := by
    by_cases hnew : m = n ∨ m ∉ t.layouts
    · obtain ⟨tag, htag, hsucc⟩ := hr.targets m hm hnew l hl ht (h.subset hmem)
      rw [h.pending n hn hnot] at hsucc
      exact ⟨n, hn, tag, htag, hsucc⟩
    · rw [not_or, not_not] at hnew
      rw [(hr.others m hnew.2 hnew.1).1] at hl
      exact h.targets m hnew.2 l hl ht hmem

theorem mem_nonPointerChildren {m : Nat} (hn : n ∈ s.layouts) :
    m ∈ s.nonPointerChildren n ↔ LayoutTypeSystem.Linked isNotPointerEdge s n m := by
  rw [LayoutTypeSystem.nonPointerChildren, List.mem_map]
  constructor
  · rintro ⟨l, hl, rfl⟩
    obtain ⟨hl, hnot⟩ := List.mem_filter.mp hl
    exact ⟨hn, l.tag, hnot, NeighborsSet.mem_inOrder.mp hl⟩
  · rintro ⟨-, tag, hnot, hmem⟩
    exact ⟨⟨m, tag⟩, List.mem_filter.mpr ⟨NeighborsSet.mem_inOrder.mpr hmem, hnot⟩, rfl⟩

theorem Rewriting.isRoot (h : Rewriting s left t) (hn : n ∈ s.layouts)
    (hroot : ∀ m, ¬ LayoutTypeSystem.Linked isNotPointerEdge s m n) : t.isRoot n := by
  simp only [LayoutTypeSystem.isRoot, decide_eq_true_eq]
  intro l hl hnot
  have hn' := h.subset hn
  have hm := h.consistent.noDangling n hn' l (Finset.mem_union_right _ hl)
  have hsucc := (h.consistent.mirror l.node hm n hn' l.tag).mpr hl
  obtain ⟨a, ha, tag, htag, hmem⟩ := h.targets l.node hm _ hsucc hnot hn
  exact hroot a ⟨ha, tag, htag, hmem⟩

/-- The pass completes if it completes at each node, which may depend on what `extra` says of the
nodes that were left. -/
theorem exists_rewriting (hs : s.IsDAG) (hids : s.IdsBelow)
    (leave : Nat → LayoutTypeSystem E → Option (LayoutTypeSystem E))
    (extra : Finset Nat → LayoutTypeSystem E → Prop) (hstart : extra ∅ s)
    (hleave : ∀ left t n, Rewriting s left t → extra left t → n ∈ s.layouts → n ∉ left →
      ∃ t', leave n t = some t' ∧ NodeRewritten t n t' ∧ extra (insert n left) t') :
    ∃ left t, postOrderFrom LayoutTypeSystem.isRoot nonPointerChildren leave (s.layouts.card + 1)
        s.layouts.sort s = some (left, t) ∧
      Rewriting s left t ∧ extra left t ∧ ∀ n ∈ s.layouts, n ∈ left := by
  have htarget : ∀ a b, LayoutTypeSystem.Linked isNotPointerEdge s a b → b ∈ s.layouts := by
    rintro a b ⟨ha, tag, -, hmem⟩
    exact hs.target_mem ha hmem
  obtain ⟨rank, hrank, hbound⟩ := hs.acyclic.exists_rank s.layouts htarget
  have hinv : Invariant nonPointerChildren leave (LayoutTypeSystem.Linked isNotPointerEdge s)
      {n | n ∈ s.layouts} fun left t => Rewriting s left t ∧ extra left t := by
    refine ⟨fun a _ b hab => htarget a b hab, ?_, ?_⟩
    · rintro left t ⟨h, -⟩ n hn hnot m
      rw [mem_nonPointerChildren (h.subset hn), LayoutTypeSystem.Linked, LayoutTypeSystem.Linked,
        h.pending n hn hnot]
      exact and_congr_left' ⟨fun _ => hn, fun _ => h.subset hn⟩
    · rintro left t ⟨h, hextra⟩ n hn hnot -
      obtain ⟨t', hrun, hr, hextra'⟩ := hleave left t n h hextra hn hnot
      exact ⟨t', hrun, h.leave hn hnot hr, hextra'⟩
  obtain ⟨left, t, hrun, ⟨h, hextra⟩, hleft⟩ := exists_postOrderFrom_all LayoutTypeSystem.isRoot
    hinv hrank hbound (fun _ _ hab => hab.1) (fun n hn hroot left t ht => ht.1.isRoot hn hroot)
    (fun n => Finset.mem_sort (s := s.layouts) (· ≤ ·)) ⟨.start hs.consistent hids, hstart⟩
  exact ⟨left, t, hrun, h, hextra, hleft⟩

/-- After the pass every edge is still there, or it leads through a new node. -/
theorem Rewriting.splits (h : Rewriting s left t) (hs : s.IsDAG) (hleft : ∀ n ∈ s.layouts, n ∈ left) :
    Splits (fun n => n ∈ s.layouts) s.HasAt t.HasAt where
  closed _ _ _ hn hat := hs.consistent.hasAt_mem hn hat
  split n c x hn hat := (h.split n (hleft n hn) c x hat).reaches

end DataLayout
