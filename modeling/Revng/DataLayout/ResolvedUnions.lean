import Revng.DataLayout.ResolveLeafUnions

/-!
# What is left of a union of leaves

Every edge that the pass erases leads to a leaf that is less general than another one of its group
(`Erases`).  So the most general children of each group are kept, and no node becomes a leaf.  Two
children that are left in one group are not compared again: the second one by address is not less
general (`Settled`), but the first one may be, if both are pointers.
-/

namespace DataLayout

open LayoutTypeSystem StrongComponents Relation

variable {E : Type} {s s' s₁ : LayoutTypeSystem E} {addresses : Addresses} {n m : Nat}
  {key : Option ChildrenKey} {a b l : Link}

theorem mem_leafChildren : l ∈ s.leafChildren n ↔
    l ∈ (s.nodes n).successors ∧ isInstanceEdge l.tag ∧ s.isLeaf l.node := by
  simp [LayoutTypeSystem.leafChildren]

/-! ## Erasing a child -/

/-- The child `b` is erased, since `a` is more general. -/
structure Erases (addresses : Addresses) (s : LayoutTypeSystem E) (n : Nat) (a b : Link)
    (s' : LayoutTypeSystem E) : Prop where
  parent : n ∈ s.layouts
  kept : a ∈ s.leafChildren n
  erased : b ∈ s.leafChildren n
  sameKey : s.childrenKey a = s.childrenKey b
  moreGeneral : s.MoreGeneral a.node b.node
  order : s.isPointerNode b.node → addresses.node a.node < addresses.node b.node
  eq : s' = { s with nodes := eraseLink s.nodes n b.node b.tag }

/-- Children are erased one after the other. -/
def Resolves (addresses : Addresses) : LayoutTypeSystem E → LayoutTypeSystem E → Prop :=
  ReflTransGen fun s s' => ∃ n a b, Erases addresses s n a b s'

/-- What is the same after children were erased. -/
structure Shrinks (s s' : LayoutTypeSystem E) : Prop where
  dag : s.IsDAG → s'.IsDAG
  layouts : s'.layouts = s.layouts
  size : ∀ n, (s'.nodes n).size = (s.nodes n).size
  subset : ∀ n, (s'.nodes n).successors ⊆ (s.nodes n).successors
  pointers : ∀ n, ∀ l ∈ (s.nodes n).successors, isPointerEdge l.tag → l ∈ (s'.nodes n).successors
  leaf : ∀ n, s'.isLeaf n → s.isLeaf n

namespace Shrinks

theorem refl (s : LayoutTypeSystem E) : Shrinks s s :=
  ⟨id, rfl, fun _ => rfl, fun _ _ h => h, fun _ _ h _ => h, fun _ h => h⟩

theorem trans {s'' : LayoutTypeSystem E} (h : Shrinks s s') (h' : Shrinks s' s'') :
    Shrinks s s'' where
  dag hs := h'.dag (h.dag hs)
  layouts := h'.layouts.trans h.layouts
  size n := (h'.size n).trans (h.size n)
  subset n _ hl := h.subset n (h'.subset n hl)
  pointers n l hl ht := h'.pointers n l (h.pointers n l hl ht) ht
  leaf n hn := h.leaf n (h'.leaf n hn)

variable (h : Shrinks s s')
include h

theorem isLeaf_iff (n : Nat) : s'.isLeaf n ↔ s.isLeaf n := by
  refine ⟨h.leaf n, fun hn => ?_⟩
  rw [LayoutTypeSystem.isLeaf_iff] at hn ⊢
  exact fun l hl => hn l (h.subset n hl)

theorem points_iff {n x : Nat} : s'.Points n x ↔ s.Points n x :=
  ⟨fun ⟨t, ht, hmem⟩ => ⟨t, ht, h.subset n hmem⟩,
    fun ⟨t, ht, hmem⟩ => ⟨t, ht, h.pointers n _ hmem ht⟩⟩

theorem isPointerNode_iff (n : Nat) : s'.isPointerNode n ↔ s.isPointerNode n := by
  simp only [IsDAG.isPointerNode_iff_points, h.points_iff]

theorem contains {x y : Nat} (hxy : s'.Contains x y) : s.Contains x y := by
  refine TransGen.mono ?_ x y hxy
  rintro x y ⟨hx, t, ht, hmem⟩
  exact ⟨h.layouts ▸ hx, t, ht, h.subset x hmem⟩

theorem moreGeneral {a b : Nat} (hab : s'.MoreGeneral a b) : s.MoreGeneral a b := by
  rcases hab with ⟨ha, hb⟩ | ⟨x, y, hx, hy, hxy⟩
  · exact Or.inl ⟨(h.isPointerNode_iff a).mp ha, fun hp => hb ((h.isPointerNode_iff b).mpr hp)⟩
  · exact Or.inr ⟨x, y, h.points_iff.mp hx, h.points_iff.mp hy, h.contains hxy⟩

theorem childrenKey_eq (l : Link) : s'.childrenKey l = s.childrenKey l := by
  rw [LayoutTypeSystem.childrenKey, LayoutTypeSystem.childrenKey,
    getFieldSize_congr (h.size l.node)]

theorem mem_leafChildren_iff : l ∈ s'.leafChildren n ↔
    l ∈ s.leafChildren n ∧ l ∈ (s'.nodes n).successors := by
  rw [mem_leafChildren, mem_leafChildren, h.isLeaf_iff]
  constructor
  · exact fun ⟨hl, hrest⟩ => ⟨⟨h.subset n hl, hrest⟩, hl⟩
  · exact fun ⟨⟨_, hrest⟩, hl⟩ => ⟨hl, hrest⟩

theorem leafChildren (hl : l ∈ s'.leafChildren n) : l ∈ s.leafChildren n :=
  (h.mem_leafChildren_iff.mp hl).1

end Shrinks

namespace Erases

variable (h : Erases addresses s n a b s')
include h

theorem successors_iff {m : Nat} :
    l ∈ (s'.nodes m).successors ↔ l ∈ (s.nodes m).successors ∧ ¬ (m = n ∧ l = b) := by
  rw [h.eq, mem_successors_erase]

/-- The child that is more general stays, so its parent is still no leaf. -/
theorem shrinks (hs : s.IsDAG) : Shrinks s s' where
  dag _ := by
    rw [h.eq]
    exact hs.eraseLink _ _ _
  layouts := by rw [h.eq]
  size m := by
    rw [h.eq]
    exact size_eraseLink _ _ _ _ m
  subset m l hl := (h.successors_iff.mp hl).1
  pointers m l hl ht := by
    refine h.successors_iff.mpr ⟨hl, fun heq => ?_⟩
    have hinst := isNotPointerEdge_of_instance (mem_leafChildren.mp h.erased).2.1
    rw [← heq.2] at hinst
    simp [isNotPointerEdge, ht] at hinst
  leaf m hm := by
    rw [LayoutTypeSystem.isLeaf_iff] at hm ⊢
    intro l hl
    by_cases heq : m = n ∧ l = b
    · obtain ⟨hkept, hinst, -⟩ := mem_leafChildren.mp h.kept
      have hne : a ≠ b := by
        rintro rfl
        exact hs.not_moreGeneral_self (hs.target_mem h.parent hkept) h.moreGeneral
      have hptr := hm a (h.successors_iff.mpr ⟨heq.1 ▸ hkept, fun hab => hne hab.2⟩)
      have hnot := isNotPointerEdge_of_instance hinst
      simp [isNotPointerEdge, hptr] at hnot
    · exact hm l (h.successors_iff.mpr ⟨hl, heq⟩)

theorem mem_leafChildren_iff (hs : s.IsDAG) {m : Nat} :
    l ∈ s'.leafChildren m ↔ l ∈ s.leafChildren m ∧ ¬ (m = n ∧ l = b) := by
  rw [(h.shrinks hs).mem_leafChildren_iff, h.successors_iff, ← and_assoc]
  exact and_congr_left' (and_iff_left_of_imp fun hl => (mem_leafChildren.mp hl).1)

end Erases

/-! ## What is kept -/

namespace Resolves

theorem refl (s : LayoutTypeSystem E) : Resolves addresses s s := ReflTransGen.refl

theorem trans {s'' : LayoutTypeSystem E} (h : Resolves addresses s s')
    (h' : Resolves addresses s' s'') : Resolves addresses s s'' := ReflTransGen.trans h h'

theorem single (h : Erases addresses s n a b s') : Resolves addresses s s' :=
  ReflTransGen.single ⟨n, a, b, h⟩

theorem shrinks (hs : s.IsDAG) (h : Resolves addresses s s') : Shrinks s s' := by
  induction h with
  | refl => exact .refl s
  | tail _ hstep ih =>
    obtain ⟨n, a, b, herases⟩ := hstep
    exact ih.trans (herases.shrinks (ih.dag hs))

/-- A child stays if nothing that could erase it is in its group. -/
theorem kept (hs : s.IsDAG) (h : Resolves addresses s s') (hl : l ∈ s.leafChildren n)
    (hmost : ∀ l' ∈ s.leafChildren n, s.childrenKey l' = s.childrenKey l →
      s.MoreGeneral l'.node l.node →
      ¬ (s.isPointerNode l.node → addresses.node l'.node < addresses.node l.node)) :
    l ∈ s'.leafChildren n := by
  induction h with
  | refl => exact hl
  | tail hrun hstep ih =>
    obtain ⟨m, a, b, herases⟩ := hstep
    have hshrinks := shrinks hs hrun
    refine (herases.mem_leafChildren_iff (hshrinks.dag hs)).mpr ⟨ih, ?_⟩
    rintro ⟨rfl, rfl⟩
    refine hmost a (hshrinks.leafChildren herases.kept) ?_
      (hshrinks.moreGeneral herases.moreGeneral) fun hp => herases.order ?_
    · rw [← hshrinks.childrenKey_eq, ← hshrinks.childrenKey_eq, herases.sameKey]
    · exact (hshrinks.isPointerNode_iff _).mpr hp

end Resolves

/-! ## Comparing within a group -/

/-- Children of a node with one key, in the order of their addresses. -/
structure Group (addresses : Addresses) (s : LayoutTypeSystem E) (n : Nat)
    (key : Option ChildrenKey) (set : List Link) : Prop where
  children : ∀ l ∈ set, l ∈ s.leafChildren n
  sameKey : ∀ l ∈ set, s.childrenKey l = key
  sorted : set.Pairwise fun l l' => addresses.node l.node < addresses.node l'.node

/-- The later leaf is not less general, and no pointer unless the earlier one is. -/
def Settled (s : LayoutTypeSystem E) (a b : Nat) : Prop :=
  ¬ s.MoreGeneral a b ∧ (s.isPointerNode b → s.isPointerNode a)

theorem Settled.shrinks (h : Settled s n m) (hs : Shrinks s s') : Settled s' n m :=
  ⟨fun hm => h.1 (hs.moreGeneral hm), fun hp =>
    (hs.isPointerNode_iff n).mpr (h.2 ((hs.isPointerNode_iff m).mp hp))⟩

theorem Group.shrinks {set set' : List Link} (h : Group addresses s n key set)
    (hs : Shrinks s s') (hsub : set'.Sublist set) (hchildren : ∀ l ∈ set', l ∈ s'.leafChildren n) :
    Group addresses s' n key set' where
  children := hchildren
  sameKey l hl := (hs.childrenKey_eq l).trans (h.sameKey l (hsub.subset hl))
  sorted := h.sorted.sublist hsub

/-- What the inner loop makes of the group `a :: rest`. -/
structure ComparedWithRest (addresses : Addresses) (s : LayoutTypeSystem E) (n : Nat) (a : Link)
    (rest rest' : List Link) (s' : LayoutTypeSystem E) : Prop where
  resolves : Resolves addresses s s'
  sublist : rest'.Sublist rest
  left : ∀ l ∈ rest', l ∈ s'.leafChildren n
  erased : ∀ l ∈ rest, l ∉ rest' → l ∉ s'.leafChildren n
  others : ∀ l ∈ s.leafChildren n, l ∉ a :: rest → l ∈ s'.leafChildren n
  settled : a ∈ s'.leafChildren n → ∀ b ∈ rest', Settled s' a.node b.node

section Loops

variable {rest rest' : List Link}

theorem Group.erase_later (hs : s.IsDAG) (hn : n ∈ s.layouts)
    (h : Group addresses s n key (a :: b :: rest)) (hmore : s.MoreGeneral a.node b.node) :
    ∃ s₁, s.eraseEdge n b = some s₁ ∧ Erases addresses s n a b s₁ := by
  have ha := h.children a List.mem_cons_self
  have hb := h.children b (by simp)
  refine ⟨_, hs.eraseEdge_eq hn (mem_leafChildren.mp hb).1, hn, ha, hb, ?_, hmore, fun _ => ?_, rfl⟩
  · rw [h.sameKey a List.mem_cons_self, h.sameKey b (by simp)]
  · exact (List.pairwise_cons.mp h.sorted).1 b List.mem_cons_self

theorem Group.erase_earlier (hs : s.IsDAG) (hn : n ∈ s.layouts)
    (h : Group addresses s n key (a :: b :: rest)) (hb : s.isPointerNode b.node)
    (ha : ¬ s.isPointerNode a.node) :
    ∃ s₁, s.eraseEdge n a = some s₁ ∧ Erases addresses s n b a s₁ := by
  have hmemA := h.children a List.mem_cons_self
  have hmemB := h.children b (by simp)
  refine ⟨_, hs.eraseEdge_eq hn (mem_leafChildren.mp hmemA).1, hn, hmemB, hmemA, ?_,
    Or.inl ⟨hb, ha⟩, fun hp => absurd hp ha, rfl⟩
  rw [h.sameKey a List.mem_cons_self, h.sameKey b (by simp)]

theorem Group.nodup {set : List Link} (h : Group addresses s n key set) : set.Nodup :=
  h.sorted.imp fun hlt heq => by
    rw [heq] at hlt
    exact Nat.lt_irrefl _ hlt

/-- The later child `b` was erased, and `a` was compared with the others. -/
theorem ComparedWithRest.cons_erased (hs : s.IsDAG)
    (herases : Erases addresses s n a b s₁)
    (h : ComparedWithRest addresses s₁ n a rest rest' s') :
    ComparedWithRest addresses s n a (b :: rest) rest' s' where
  resolves := (Resolves.single herases).trans h.resolves
  sublist := h.sublist.cons b
  left := h.left
  erased l hl hnot := by
    rcases List.mem_cons.mp hl with rfl | hl
    · intro hmem
      have hs₁ := h.resolves.shrinks ((herases.shrinks hs).dag hs)
      exact ((herases.mem_leafChildren_iff hs).mp (hs₁.leafChildren hmem)).2 ⟨rfl, rfl⟩
    · exact h.erased l hl hnot
  others l hl hnot := by
    simp only [List.mem_cons, not_or] at hnot
    refine h.others l ((herases.mem_leafChildren_iff hs).mpr ⟨hl, fun heq => hnot.2.1 heq.2⟩) ?_
    simp [hnot.1, hnot.2.2]
  settled := h.settled

/-- The later child `b` was kept, and so was `a` at first. -/
theorem ComparedWithRest.cons_kept (hs : s.IsDAG) (hnodup : (a :: b :: rest).Nodup)
    (hb : b ∈ s.leafChildren n) (hsettled : Settled s a.node b.node)
    (h : ComparedWithRest addresses s n a rest rest' s') :
    ComparedWithRest addresses s n a (b :: rest) (b :: rest') s' where
  resolves := h.resolves
  sublist := h.sublist.cons_cons b
  left l hl := by
    rcases List.mem_cons.mp hl with rfl | hl
    · refine h.others l hb fun hmem => ?_
      simp only [List.nodup_cons, List.mem_cons, not_or] at hnodup
      rcases List.mem_cons.mp hmem with heq | hmem
      · exact hnodup.1.1 heq.symm
      · exact hnodup.2.1 hmem
    · exact h.left l hl
  erased l hl hnot := by
    simp only [List.mem_cons, not_or] at hl hnot
    exact h.erased l (hl.resolve_left hnot.1) hnot.2
  others l hl hnot := by
    simp only [List.mem_cons, not_or] at hnot
    exact h.others l hl (by simp [hnot.1, hnot.2.2])
  settled ha c hc := by
    rcases List.mem_cons.mp hc with rfl | hc
    · exact hsettled.shrinks (h.resolves.shrinks hs)
    · exact h.settled ha c hc

/-- The inner loop completes. -/
theorem exists_compareWithRest (rest : List Link) : ∀ {s : LayoutTypeSystem E}, n ∈ s.layouts →
    s.IsDAG → Group addresses s n key (a :: rest) →
    ∃ rest' s', compareWithRest n a rest s = some (rest', s') ∧
      ComparedWithRest addresses s n a rest rest' s' := by
  induction rest with
  | nil =>
    intro s hn hs h
    exact ⟨[], s, rfl, .refl s, List.Sublist.refl _, by simp, by simp, fun l hl _ => hl, by simp⟩
  | cons b rest ih =>
    intro s hn hs h
    have hnodup := h.nodup
    have ha := h.children a List.mem_cons_self
    have hb := h.children b (by simp)
    obtain ⟨hmemA, -, hleafA⟩ := mem_leafChildren.mp ha
    obtain ⟨hmemB, -, hleafB⟩ := mem_leafChildren.mp hb
    have hsub : (a :: rest).Sublist (a :: b :: rest) := (List.sublist_cons_self b rest).cons_cons a
    obtain ⟨cmp, hcmp, hgreater, hless⟩ := hs.compareLeafTypes_spec (hs.target_mem hn hmemA)
      (hs.target_mem hn hmemB) hleafA hleafB
    have hkept : cmp ≠ .greater → cmp ≠ .less → Settled s a.node b.node := by
      intro hnot hnot'
      refine ⟨fun hm => hnot (hgreater.mpr hm), fun hp => ?_⟩
      by_contra hpa
      exact hnot' (hless.mpr ⟨hp, hpa⟩)
    have hgo : cmp ≠ .greater → cmp ≠ .less → ∃ rest' s',
        (compareWithRest n a rest s >>= fun r => some (b :: r.1, r.2)) = some (rest', s') ∧
        ComparedWithRest addresses s n a (b :: rest) rest' s' := by
      intro hnot hnot'
      have hgroup := h.shrinks (.refl s) hsub fun l hl => h.children l (hsub.subset hl)
      obtain ⟨rest', s', hrest, hcompared⟩ := ih hn hs hgroup
      exact ⟨b :: rest', s', by rw [hrest]; rfl,
        hcompared.cons_kept hs hnodup hb (hkept hnot hnot')⟩
    rw [compareWithRest, hcmp]
    cases cmp with
    | greater =>
      obtain ⟨s₁, hone, herases⟩ := h.erase_later hs hn (hgreater.mp rfl)
      have hs₁ := herases.shrinks hs
      have hgroup : Group addresses s₁ n key (a :: rest) := by
        refine h.shrinks hs₁ hsub fun l hl => ?_
        refine (herases.mem_leafChildren_iff hs).mpr ⟨h.children l (hsub.subset hl), ?_⟩
        rintro ⟨-, rfl⟩
        simp only [List.nodup_cons, List.mem_cons, not_or] at hnodup
        rcases List.mem_cons.mp hl with heq | hl
        · exact hnodup.1.1 heq.symm
        · exact hnodup.2.1 hl
      obtain ⟨rest', s', hrest, hcompared⟩ := ih (hs₁.layouts ▸ hn) (hs₁.dag hs) hgroup
      refine ⟨rest', s', ?_, hcompared.cons_erased hs herases⟩
      simp only [Option.bind_eq_bind, Option.bind_some, hone]
      exact hrest
    | less =>
      obtain ⟨hpb, hpa⟩ := hless.mp rfl
      obtain ⟨s₁, hone, herases⟩ := h.erase_earlier hs hn hpb hpa
      refine ⟨b :: rest, s₁, ?_, .single herases, List.Sublist.refl _, fun l hl => ?_,
        fun l hl hnot => absurd hl hnot, fun l hl hnot => ?_, fun hmem => ?_⟩
      · simp only [Option.bind_eq_bind, Option.bind_some, hone]
        rfl
      · refine (herases.mem_leafChildren_iff hs).mpr ⟨h.children l (by simp [hl]), ?_⟩
        rintro ⟨-, rfl⟩
        exact (List.nodup_cons.mp hnodup).1 hl
      · refine (herases.mem_leafChildren_iff hs).mpr ⟨hl, ?_⟩
        rintro ⟨-, rfl⟩
        exact hnot List.mem_cons_self
      · exact absurd ⟨rfl, rfl⟩ ((herases.mem_leafChildren_iff hs).mp hmem).2
    | equivalent => exact hgo (by decide) (by decide)
    | unordered => exact hgo (by decide) (by decide)

end Loops

/-! ## Resolving the groups -/

/-- The children of `set` that are left were compared. -/
def SettledIn (addresses : Addresses) (s : LayoutTypeSystem E) (n : Nat) (set : List Link) : Prop :=
  ∀ l ∈ set, ∀ l' ∈ set, addresses.node l.node < addresses.node l'.node →
    l ∈ s.leafChildren n → l' ∈ s.leafChildren n → Settled s l.node l'.node

theorem SettledIn.shrinks {set : List Link} (h : SettledIn addresses s n set) (hs : Shrinks s s') :
    SettledIn addresses s' n set := fun l hl l' hl' hlt hmem hmem' =>
  (h l hl l' hl' hlt (hs.leafChildren hmem) (hs.leafChildren hmem')).shrinks hs

/-- The outer loop completes. -/
theorem exists_resolveUnion (fuel : Nat) : ∀ {set : List Link} {s : LayoutTypeSystem E},
    set.length ≤ fuel → n ∈ s.layouts → s.IsDAG → Group addresses s n key set →
    ∃ s', resolveUnion n fuel set s = some s' ∧ Resolves addresses s s' ∧
      SettledIn addresses s' n set ∧
      ∀ l ∈ s.leafChildren n, l ∉ set → l ∈ s'.leafChildren n := by
  induction fuel with
  | zero =>
    intro set s hlength _ _ _
    obtain rfl := List.eq_nil_of_length_eq_zero (Nat.le_zero.mp hlength)
    exact ⟨s, rfl, .refl s, by simp [SettledIn], fun _ hl _ => hl⟩
  | succ fuel ih =>
    intro set s hlength hn hs h
    cases set with
    | nil => exact ⟨s, rfl, .refl s, by simp [SettledIn], fun _ hl _ => hl⟩
    | cons a rest =>
      obtain ⟨rest', s₁, hinner, hc⟩ := exists_compareWithRest rest hn hs h
      have hs₁ := hc.resolves.shrinks hs
      have hgroup := h.shrinks hs₁ (hc.sublist.trans (List.sublist_cons_self a rest)) hc.left
      have hlength' : rest'.length ≤ fuel :=
        hc.sublist.length_le.trans (Nat.le_of_succ_le_succ hlength)
      obtain ⟨s', houter, hresolves, hsettled, hothers⟩ :=
        ih hlength' (hs₁.layouts ▸ hn) (hs₁.dag hs) hgroup
      have hs' := hresolves.shrinks (hs₁.dag hs)
      -- what is left of the group after the inner loop
      have hleft : ∀ l ∈ rest, l ∈ s'.leafChildren n → l ∈ rest' := by
        intro l hl hmem
        by_contra hnot
        exact hc.erased l hl hnot (hs'.leafChildren hmem)
      refine ⟨s', ?_, hc.resolves.trans hresolves, ?_, fun l hl hnot => ?_⟩
      · rw [resolveUnion, hinner]
        exact houter
      · intro l hl l' hl' hlt hmem hmem'
        have hfirst := (List.pairwise_cons.mp h.sorted).1
        rcases List.mem_cons.mp hl' with rfl | hlater'
        · rcases List.mem_cons.mp hl with rfl | hlater
          · exact absurd hlt (Nat.lt_irrefl _)
          · exact absurd hlt (Nat.lt_asymm (hfirst l hlater))
        · have hmemRest' := hleft l' hlater' hmem'
          rcases List.mem_cons.mp hl with rfl | hlater
          · exact (hc.settled (hs'.leafChildren hmem) l' hmemRest').shrinks hs'
          · exact hsettled l (hleft l hlater hmem) l' hmemRest' hlt hmem hmem'
      · refine hothers l (hc.others l hl hnot) fun hmem => hnot ?_
        exact List.mem_cons_of_mem _ (hc.sublist.subset hmem)

/-- The groups of a node are resolved one after the other. -/
theorem exists_foldlM_resolveUnion (sets : List (List Link)) : ∀ {s : LayoutTypeSystem E},
    n ∈ s.layouts → s.IsDAG → (∀ set ∈ sets, ∃ key, Group addresses s n key set) →
    sets.Pairwise List.Disjoint →
    ∃ s', sets.foldlM (fun s set => resolveUnion n set.length set s) s = some s' ∧
      Resolves addresses s s' ∧ ∀ set ∈ sets, SettledIn addresses s' n set := by
  induction sets with
  | nil => exact fun _ _ _ _ => ⟨_, rfl, .refl _, by simp⟩
  | cons set sets ih =>
    intro s hn hs hgroups hdisjoint
    obtain ⟨hdisjoint, hrest⟩ := List.pairwise_cons.mp hdisjoint
    obtain ⟨key, hgroup⟩ := hgroups set List.mem_cons_self
    obtain ⟨s₁, hone, hresolves₁, hsettled₁, hothers⟩ := exists_resolveUnion _ le_rfl hn hs hgroup
    have hs₁ := hresolves₁.shrinks hs
    obtain ⟨s', hfold, hresolves, hsettled⟩ := ih (hs₁.layouts ▸ hn) (hs₁.dag hs)
      (fun other hother => by
        obtain ⟨key', hgroup'⟩ := hgroups other (List.mem_cons_of_mem _ hother)
        exact ⟨key', hgroup'.shrinks hs₁ (List.Sublist.refl _) fun l hl => hothers l
          (hgroup'.children l hl) fun hmem => hdisjoint other hother hmem hl⟩) hrest
    refine ⟨s', ?_, hresolves₁.trans hresolves, fun other hother => ?_⟩
    · rw [List.foldlM_cons, hone]
      exact hfold
    · rcases List.mem_cons.mp hother with rfl | hother
      · exact hsettled₁.shrinks (hresolves.shrinks (hs₁.dag hs))
      · exact hsettled other hother

/-! ## The groups of a node -/

theorem nodup_eraseDups : ∀ keys : List ChildrenKey, keys.eraseDups.Nodup
  | [] => List.nodup_nil
  | key :: keys => by
      have := nodup_eraseDups (keys.filter fun other => !other == key)
      rw [List.eraseDups_cons]
      exact List.nodup_cons.mpr ⟨by simp, this⟩
termination_by keys => keys.length
decreasing_by exact Nat.lt_succ_of_le (List.length_filter_le _ _)

theorem smallMapOrder_perm (addresses : Addresses) (keys : List ChildrenKey) :
    (smallMapOrder addresses keys).Perm keys := by
  unfold smallMapOrder
  split
  · exact .refl _
  · exact List.mergeSort_perm _ _

theorem mem_neighborSet {children : List Link} :
    l ∈ neighborSet addresses children ↔ l ∈ children := List.mem_mergeSort

theorem tag_eq_of_childrenKey {key : ChildrenKey} (h : s.childrenKey l = some key) :
    l.tag = key.tag := by
  obtain ⟨size, -, heq⟩ := Option.bind_eq_some_iff.mp h
  exact congrArg ChildrenKey.tag (Option.some.inj heq)

/-- The children of one key are sorted by their addresses. -/
theorem group_neighborSet (s : LayoutTypeSystem E) (n : Nat) (key : ChildrenKey) :
    Group addresses s n (some key)
      (neighborSet addresses ((s.leafChildren n).filter fun l => s.childrenKey l = some key)) where
  children l hl := (List.mem_filter.mp (mem_neighborSet.mp hl)).1
  sameKey l hl := by simpa using (List.mem_filter.mp (mem_neighborSet.mp hl)).2
  sorted := by
    have hle : (neighborSet addresses
        ((s.leafChildren n).filter fun l => s.childrenKey l = some key)).Pairwise fun l l' =>
          decide (addresses.node l.node ≤ addresses.node l'.node) :=
      List.pairwise_mergeSort (by simp; omega) (by simp; omega) _
    have hnodup : (neighborSet addresses
        ((s.leafChildren n).filter fun l => s.childrenKey l = some key)).Nodup := by
      refine (List.mergeSort_perm _ _).nodup_iff.mpr (List.Nodup.filter _ ?_)
      exact List.Nodup.filter _ ((NeighborsSet.inOrder_sorted _).imp fun hlt => hlt.ne)
    refine (hle.and hnodup).imp_of_mem fun {l l'} hl hl' hboth => ?_
    refine lt_of_le_of_ne (by simpa using hboth.1) fun heq => hboth.2 ?_
    -- two children at one address are the same, since their tags are the same
    have htag : ∀ m ∈ neighborSet addresses
        ((s.leafChildren n).filter fun l => s.childrenKey l = some key), m.tag = key.tag :=
      fun m hm => tag_eq_of_childrenKey (by simpa using (List.mem_filter.mp
        (mem_neighborSet.mp hm)).2)
    have hnode := addresses.node_injective heq
    obtain ⟨m, t⟩ := l
    obtain ⟨m', t'⟩ := l'
    obtain rfl : t = t' := (htag _ hl).trans (htag _ hl').symm
    exact congrArg (Link.mk · t) hnode

theorem exists_mapM {α β : Type} {f : α → Option β} {xs : List α}
    (h : ∀ x ∈ xs, (f x).isSome) :
    ∃ ys, xs.mapM f = some ys ∧ ∀ x ∈ xs, ∀ y, f x = some y → y ∈ ys := by
  induction xs with
  | nil => exact ⟨[], rfl, by simp⟩
  | cons x xs ih =>
    obtain ⟨y, hy⟩ := Option.isSome_iff_exists.mp (h x List.mem_cons_self)
    obtain ⟨ys, hys, hmem⟩ := ih fun x hx => h x (List.mem_cons_of_mem _ hx)
    refine ⟨y :: ys, by rw [List.mapM_cons, hy, hys]; rfl, fun x' hx' y' hy' => ?_⟩
    rcases List.mem_cons.mp hx' with rfl | hx'
    · obtain rfl := Option.some.inj (hy.symm.trans hy')
      exact List.mem_cons_self
    · exact List.mem_cons_of_mem _ (hmem x' hx' y' hy')

/-- The groups of a node.  Every child is in the one with its key. -/
theorem exists_getOverlappingLeafChildren (addresses : Addresses)
    (hfields : ∀ l ∈ s.leafChildren n, (s.childrenKey l).isSome) :
    ∃ sets, s.getOverlappingLeafChildren addresses n = some sets ∧
      (∀ set ∈ sets.map Prod.snd, ∃ key, Group addresses s n key set) ∧
      (sets.map Prod.snd).Pairwise List.Disjoint ∧
      ∀ l ∈ s.leafChildren n, ∀ l' ∈ s.leafChildren n, s.childrenKey l = s.childrenKey l' →
        ∃ set ∈ sets.map Prod.snd, l ∈ set ∧ l' ∈ set := by
  obtain ⟨keys, hkeys, hmem⟩ := exists_mapM hfields
  have hset : ∀ {l key}, l ∈ neighborSet addresses
      ((s.leafChildren n).filter fun l => s.childrenKey l = some key) ↔
        l ∈ s.leafChildren n ∧ s.childrenKey l = some key := by
    intro l key
    rw [mem_neighborSet, List.mem_filter, decide_eq_true_iff]
  have horder := smallMapOrder_perm addresses keys.eraseDups
  refine ⟨_, by rw [LayoutTypeSystem.getOverlappingLeafChildren, hkeys]; rfl, ?_, ?_, ?_⟩
  · intro set hmemSet
    simp only [List.map_map, List.mem_map, Function.comp_apply] at hmemSet
    obtain ⟨key, -, rfl⟩ := hmemSet
    exact ⟨some key, group_neighborSet s n key⟩
  · rw [List.map_map, List.pairwise_map]
    refine (horder.nodup_iff.mpr (nodup_eraseDups keys)).imp fun hne l hl hl' => hne ?_
    exact Option.some.inj ((hset.mp hl).2.symm.trans (hset.mp hl').2)
  · intro l hl l' hl' heq
    obtain ⟨key, hkey⟩ := Option.isSome_iff_exists.mp (hfields l hl)
    refine ⟨_, List.mem_map.mpr ⟨_, List.mem_map.mpr ⟨key, ?_, rfl⟩, rfl⟩, hset.mpr ⟨hl, hkey⟩,
      hset.mpr ⟨hl', heq ▸ hkey⟩⟩
    exact horder.mem_iff.mpr (List.mem_eraseDups.mpr (hmem l hl key hkey))

/-! ## The pass -/

/-- The assertions of `getFieldSize` hold for the children that are grouped. -/
def FieldsSized (s : LayoutTypeSystem E) : Prop :=
  ∀ n ∈ s.layouts, ∀ l ∈ s.leafChildren n, (s.childrenKey l).isSome

/-- All children of a node that are left in one group were compared. -/
def SettledAt (addresses : Addresses) (s : LayoutTypeSystem E) (n : Nat) : Prop :=
  ∀ l ∈ s.leafChildren n, ∀ l' ∈ s.leafChildren n, s.childrenKey l = s.childrenKey l' →
    addresses.node l.node < addresses.node l'.node → Settled s l.node l'.node

theorem FieldsSized.shrinks (h : FieldsSized s) (hs : Shrinks s s') : FieldsSized s' :=
  fun n hn l hl => by
    rw [hs.childrenKey_eq]
    exact h n (hs.layouts ▸ hn) l (hs.leafChildren hl)

theorem SettledAt.shrinks (h : SettledAt addresses s n) (hs : Shrinks s s') :
    SettledAt addresses s' n := fun l hl l' hl' hkey hlt => by
  rw [hs.childrenKey_eq, hs.childrenKey_eq] at hkey
  exact (h l (hs.leafChildren hl) l' (hs.leafChildren hl') hkey hlt).shrinks hs

theorem exists_resolveLeafUnionsOf (addresses : Addresses) (hs : s.IsDAG) (hfields : FieldsSized s)
    (hn : n ∈ s.layouts) : ∃ s', s.resolveLeafUnionsOf addresses n = some s' ∧ Resolves addresses s s' ∧
      SettledAt addresses s' n := by
  obtain ⟨sets, hsets, hgroups, hdisjoint, hboth⟩ :=
    exists_getOverlappingLeafChildren addresses (hfields n hn)
  obtain ⟨s', hfold, hresolves, hsettled⟩ := exists_foldlM_resolveUnion _ hn hs hgroups hdisjoint
  refine ⟨s', ?_, hresolves, fun l hl l' hl' hkey hlt => ?_⟩
  · rw [LayoutTypeSystem.resolveLeafUnionsOf, hsets]
    exact hfold
  · have hs' := hresolves.shrinks hs
    rw [hs'.childrenKey_eq, hs'.childrenKey_eq] at hkey
    obtain ⟨set, hset, hmem, hmem'⟩ :=
      hboth l (hs'.leafChildren hl) l' (hs'.leafChildren hl') hkey
    exact hsettled set hset l hmem l' hmem' hlt hl hl'

theorem exists_foldlM_resolveLeafUnionsOf (nodes : List Nat) : ∀ {s : LayoutTypeSystem E},
    s.IsDAG → FieldsSized s → (∀ n ∈ nodes, n ∈ s.layouts) →
    ∃ s', nodes.foldlM (resolveLeafUnionsOf addresses) s = some s' ∧ Resolves addresses s s' ∧
      ∀ n ∈ nodes, SettledAt addresses s' n := by
  induction nodes with
  | nil => exact fun _ _ _ => ⟨_, rfl, .refl _, by simp⟩
  | cons n nodes ih =>
    intro s hs hfields hnodes
    obtain ⟨s₁, hone, hresolves₁, hsettled₁⟩ :=
      exists_resolveLeafUnionsOf addresses hs hfields (hnodes n List.mem_cons_self)
    have hs₁ := hresolves₁.shrinks hs
    obtain ⟨s', hfold, hresolves, hsettled⟩ := ih (hs₁.dag hs) (hfields.shrinks hs₁) fun m hm =>
      hs₁.layouts ▸ hnodes m (List.mem_cons_of_mem _ hm)
    refine ⟨s', ?_, hresolves₁.trans hresolves, fun m hm => ?_⟩
    · rw [List.foldlM_cons, hone]
      exact hfold
    · rcases List.mem_cons.mp hm with rfl | hm
      · exact hsettled₁.shrinks (hresolves.shrinks (hs₁.dag hs))
      · exact hsettled m hm

/-- The pass completes, and compares all children that are left in one group. -/
theorem exists_resolveLeafUnions (addresses : Addresses) (hs : s.IsDAG)
    (hfields : FieldsSized s) : ∃ s', s.resolveLeafUnions addresses = some s' ∧
      Resolves addresses s s' ∧ ∀ n ∈ s.layouts, SettledAt addresses s' n := by
  obtain ⟨s', hrun, hresolves, hsettled⟩ := exists_foldlM_resolveLeafUnionsOf s.layouts.sort hs
    hfields fun n hn => (Finset.mem_sort (· ≤ ·)).mp hn
  exact ⟨s', hrun, hresolves, fun n hn => hsettled n ((Finset.mem_sort (· ≤ ·)).mpr hn)⟩

end DataLayout
