import Revng.DataLayout.ResolvedUnions

/-!
# Leaves that can be compared

The most general children of every group are kept (`keepsMostGeneral`).  No two leaves that can be
compared are left in a group, and `comparePointee` is right about all nodes, exactly when no node is
at offset 0 of another one (`resolvesLeafUnions_iff`).
-/

namespace DataLayout

open LayoutTypeSystem StrongComponents Relation

variable {E : Type} {s s' : LayoutTypeSystem E} {addresses : Addresses}

namespace LayoutTypeSystem

/-- `comparePointee` tells which of two nodes contains the other one. -/
def ComparesContainment (s : LayoutTypeSystem E) : Prop :=
  ∀ a ∈ s.layouts, ∀ b ∈ s.layouts,
    (s.comparePointee a b = .greater ↔ s.Contains a b) ∧
      (s.comparePointee a b = .less ↔ s.Contains b a)

/-- No leaf child is more general than another one of its size and tag. -/
def NoComparableLeaves (s : LayoutTypeSystem E) : Prop :=
  ∀ n ∈ s.layouts, ∀ l ∈ s.leafChildren n, ∀ l' ∈ s.leafChildren n,
    s.childrenKey l = s.childrenKey l' → ¬ s.MoreGeneral l.node l'.node

/-- No leaf child of the size and tag of `l` is more general. -/
def IsMostGeneral (s : LayoutTypeSystem E) (n : Nat) (l : Link) : Prop :=
  ∀ l' ∈ s.leafChildren n, s.childrenKey l' = s.childrenKey l → ¬ s.MoreGeneral l'.node l.node

/-- Of every group of `s`, a most general child is left in `s'`. -/
def KeepsMostGeneral (s s' : LayoutTypeSystem E) : Prop :=
  ∀ n ∈ s.layouts, ∀ l ∈ s.leafChildren n, ∃ l' ∈ s.leafChildren n,
    s.childrenKey l' = s.childrenKey l ∧ s.IsMostGeneral n l' ∧ l' ∈ s'.leafChildren n

/-- Of two leaf children that can be compared, both are pointers, and the less general one comes
first. -/
def ComparableInOrder (addresses : Addresses) (s : LayoutTypeSystem E) : Prop :=
  ∀ n ∈ s.layouts, ∀ l ∈ s.leafChildren n, ∀ l' ∈ s.leafChildren n,
    s.childrenKey l = s.childrenKey l' → s.MoreGeneral l.node l'.node →
    s.isPointerNode l.node ∧ s.isPointerNode l'.node ∧
      addresses.node l'.node < addresses.node l.node

end LayoutTypeSystem

/-! ## Most general children -/

theorem target_mem_of_leafChild (hs : s.IsDAG) {n : Nat} (hn : n ∈ s.layouts) {l : Link}
    (hl : l ∈ s.leafChildren n) : l.node ∈ s.layouts :=
  hs.target_mem hn (mem_leafChildren.mp hl).1

/-- Generality has no cycles, so some child of a group is most general. -/
theorem exists_isMostGeneral (hs : s.IsDAG) {n : Nat} (hn : n ∈ s.layouts) {l : Link}
    (hl : l ∈ s.leafChildren n) : ∃ l' ∈ s.leafChildren n,
      s.childrenKey l' = s.childrenKey l ∧ s.IsMostGeneral n l' := by
  let group := (s.leafChildren n).toFinset.filter fun l' => s.childrenKey l' = s.childrenKey l
  have hgroup : ∀ l', l' ∈ group ↔ l' ∈ s.leafChildren n ∧ s.childrenKey l' = s.childrenKey l :=
    fun l' => by simp [group]
  let above : group → group → Prop := fun x y => s.MoreGeneral x.1.node y.1.node
  have hmem : ∀ x : group, x.1.node ∈ s.layouts := fun x =>
    target_mem_of_leafChild hs hn ((hgroup x.1).mp x.2).1
  have htrans : IsTrans group above :=
    ⟨fun x y z hxy hyz => hs.moreGeneral_trans (hmem y) hxy hyz⟩
  have hirrefl : Std.Irrefl above := ⟨fun x => hs.not_moreGeneral_self (hmem x)⟩
  have hwf : WellFounded above := Finite.wellFounded_of_trans_of_irrefl above
  obtain ⟨top, -, htop⟩ := hwf.has_min Set.univ ⟨⟨l, (hgroup l).mpr ⟨hl, rfl⟩⟩, trivial⟩
  obtain ⟨hchild, hkey⟩ := (hgroup top.1).mp top.2
  refine ⟨top.1, hchild, hkey, fun l' hl' hkey' hmore => ?_⟩
  exact htop ⟨l', (hgroup l').mpr ⟨hl', hkey'.trans hkey⟩⟩ trivial hmore

/-- What erases children only for more general ones keeps all that are most general. -/
theorem keepsMostGeneral (hs : s.IsDAG) (h : Resolves addresses s s') : s.KeepsMostGeneral s' := by
  intro n hn l hl
  obtain ⟨l', hl', hkey, hmost⟩ := exists_isMostGeneral hs hn hl
  exact ⟨l', hl', hkey, hmost, h.kept hs hl' fun l'' hl'' hkey' hmore =>
    absurd hmore (hmost l'' hl'' hkey')⟩

/-! ## Comparable children -/

theorem comparableInOrder (hs : s.IsDAG) (hsettled : ∀ n ∈ s.layouts, SettledAt addresses s n) :
    s.ComparableInOrder addresses := by
  intro n hn l hl l' hl' hkey hmore
  have hpointer := IsDAG.isPointerNode_of_moreGeneral hmore
  have horder : addresses.node l'.node < addresses.node l.node := by
    rcases Nat.lt_trichotomy (addresses.node l'.node) (addresses.node l.node) with hlt | heq | hgt
    · exact hlt
    · rw [addresses.node_injective heq] at hmore
      exact absurd hmore (hs.not_moreGeneral_self (target_mem_of_leafChild hs hn hl))
    · exact absurd hmore (hsettled n hn l hl l' hl' hkey hgt).1
  exact ⟨hpointer, (hsettled n hn l' hl' l hl hkey.symm horder).2 hpointer, horder⟩

/-- Where more general pointers come first, none of the leaves that are left can be compared. -/
theorem noComparableLeaves_of_order (hs : s.IsDAG) (h : Resolves addresses s s')
    (hleft : s'.ComparableInOrder addresses)
    (horder : ∀ n ∈ s.layouts, ∀ l ∈ s.leafChildren n, ∀ l' ∈ s.leafChildren n,
      s.childrenKey l = s.childrenKey l' → s.isPointerNode l'.node →
      s.MoreGeneral l.node l'.node → addresses.node l.node < addresses.node l'.node) :
    s'.NoComparableLeaves := by
  intro n hn l hl l' hl' hkey hmore
  have hs' := h.shrinks hs
  obtain ⟨-, hpointer, hlt⟩ := hleft n hn l hl l' hl' hkey hmore
  rw [hs'.childrenKey_eq, hs'.childrenKey_eq] at hkey
  exact Nat.lt_asymm hlt (horder n (hs'.layouts ▸ hn) l (hs'.leafChildren hl) l'
    (hs'.leafChildren hl') hkey ((hs'.isPointerNode_iff _).mp hpointer) (hs'.moreGeneral hmore))

theorem not_contains_of_not_linked
    (hnone : ∀ a b, ¬ LayoutTypeSystem.Linked isInstanceAtOffset0 s a b) (a b : Nat) :
    ¬ s.Contains a b := by
  intro hab
  obtain ⟨c, hac, -⟩ := TransGen.head'_iff.mp hab
  exact hnone a c hac

theorem comparesContainment_iff (hs : s.IsDAG) : s.ComparesContainment ↔
    ∀ a b, ¬ LayoutTypeSystem.Linked isInstanceAtOffset0 s a b := by
  constructor
  · intro hcompares a b hab
    have hb := hs.target_mem_of_linked hab
    exact (hs.comparePointee_iff hb).mp (hcompares b hb a hab.1) (.single hab)
  · exact fun hnone a ha b _ =>
      (hs.comparePointee_iff ha).mpr (not_contains_of_not_linked hnone b a)

/-- The pass completes and keeps a most general child of each group.  Of the pairs of nodes,
`comparePointee` gets those wrong whose second node contains the first one.  All of the leaves are
resolved exactly when no node is at offset 0 of another one. -/
theorem resolvesLeafUnions_iff (addresses : Addresses) (hs : s.IsDAG) (hfields : FieldsSized s) :
    ∃ s', s.resolveLeafUnions addresses = some s' ∧
      (∀ a ∈ s.layouts, ∀ b ∈ s.layouts,
        ((s.comparePointee a b = .greater ↔ s.Contains a b) ∧
          (s.comparePointee a b = .less ↔ s.Contains b a)) ↔ ¬ s.Contains b a) ∧
      s.KeepsMostGeneral s' ∧ s'.ComparableInOrder addresses ∧
      (s.ComparesContainment ∧ s'.NoComparableLeaves ∧ s.KeepsMostGeneral s' ↔
        ∀ a b, ¬ LayoutTypeSystem.Linked isInstanceAtOffset0 s a b) := by
  obtain ⟨s', hrun, hresolves, hsettled⟩ := exists_resolveLeafUnions addresses hs hfields
  have hs' := hresolves.shrinks hs
  have hkeeps := keepsMostGeneral hs hresolves
  have hleft : s'.ComparableInOrder addresses :=
    comparableInOrder (hs'.dag hs) fun n hn => hsettled n (hs'.layouts ▸ hn)
  refine ⟨s', hrun, fun a ha b _ => hs.comparePointee_iff ha, hkeeps, hleft, ?_⟩
  rw [comparesContainment_iff hs]
  refine ⟨And.left, fun hnone => ⟨hnone, ?_, hkeeps⟩⟩
  refine noComparableLeaves_of_order hs hresolves hleft fun n hn l hl l' hl' _ hp hmore => ?_
  rcases hmore with ⟨-, hnot⟩ | ⟨x, y, -, -, hxy⟩
  · exact absurd hp hnot
  · exact absurd hxy (not_contains_of_not_linked hnone x y)

/-! ## Two pointers -/

theorem fieldsSized_ofEdges {count : Nat} {edges : Finset (Nat × Link)} {size : Nat → Nat}
    (hedges : ∀ e ∈ edges, e.2.tag.offsetExpr.strides = [] ∧ e.2.tag.offsetExpr.tripCounts = [])
    (hsize : ∀ n, 0 < size n) : FieldsSized (ofEdges count edges size) := by
  intro n _ l hl
  obtain ⟨hmem, hinst, -⟩ := mem_leafChildren.mp hl
  obtain ⟨hstrides, htrips⟩ := hedges _ (mem_successors_ofEdges.mp hmem)
  have hfield : getFieldSize ((ofEdges count edges size).nodes l.node) l.tag = some _ :=
    getFieldSize_of_no_strides (hsize l.node) (by simpa [isInstanceEdge] using hinst) hstrides htrips
  rw [LayoutTypeSystem.childrenKey, hfield]
  rfl

/-- A union of two pointers.  The second one points to a node that has the pointee of the first one
at offset 0. -/
def twoPointerEdges : Finset (Nat × Link) :=
  {(0, ⟨1, .instanceTag ⟨8, [], []⟩⟩), (0, ⟨2, .instanceTag ⟨8, [], []⟩⟩), (1, ⟨4, .pointerTag⟩),
    (2, ⟨3, .pointerTag⟩), (3, ⟨4, .instanceTag ⟨0, [], []⟩⟩)}

def twoPointers : LayoutTypeSystem LeaderTable :=
  ofEdges 5 twoPointerEdges fun n => if n = 0 ∨ n = 3 then 16 else 8

namespace twoPointers

theorem isDAG : twoPointers.IsDAG := isDAG_ofEdges (by decide) (by decide) (by decide)

theorem mem_successors_iff {n : Nat} {l : Link} :
    l ∈ (twoPointers.nodes n).successors ↔ (n, l) ∈ twoPointerEdges := mem_successors_ofEdges

theorem fieldsSized : FieldsSized twoPointers :=
  fieldsSized_ofEdges (by decide) fun n => by split <;> decide

theorem mem_leafChildren_of {e : Nat × Link} (he : e ∈ twoPointerEdges)
    (hinst : isInstanceEdge e.2.tag) (hleaf : twoPointers.isLeaf e.2.node) :
    e.2 ∈ twoPointers.leafChildren e.1 :=
  mem_leafChildren.mpr ⟨mem_successors_iff.mpr he, hinst, hleaf⟩

theorem linked : LayoutTypeSystem.Linked isInstanceAtOffset0 twoPointers 3 4 :=
  ⟨by decide, .instanceTag ⟨0, [], []⟩, rfl, mem_successors_iff.mpr (by decide)⟩

theorem moreGeneral : twoPointers.MoreGeneral 2 1 :=
  Or.inr ⟨3, 4, ⟨.pointerTag, rfl, mem_successors_iff.mpr (by decide)⟩,
    ⟨.pointerTag, rfl, mem_successors_iff.mpr (by decide)⟩, .single linked⟩

theorem not_moreGeneral_self (n : Nat) : ¬ twoPointers.MoreGeneral n n := by
  by_cases hn : n ∈ twoPointers.layouts
  · exact isDAG.not_moreGeneral_self hn
  · intro hmore
    obtain ⟨l, hl, -⟩ := isPointerNode_iff.mp (IsDAG.isPointerNode_of_moreGeneral hmore)
    have hall : ∀ e ∈ twoPointerEdges, e.1 ∈ twoPointers.layouts := by decide
    exact hn (hall _ (mem_successors_iff.mp hl))

/-- The pass erases none of the leaf children. -/
theorem kept {addresses : Addresses} (haddresses : addresses.node = id)
    {s' : LayoutTypeSystem LeaderTable} (h : Resolves addresses twoPointers s')
    {e : Nat × Link} (he : e ∈ twoPointerEdges) (hinst : isInstanceEdge e.2.tag)
    (hleaf : twoPointers.isLeaf e.2.node) : e.2 ∈ s'.leafChildren e.1 := by
  refine h.kept isDAG (mem_leafChildren_of he hinst hleaf) fun l hl _ hmore horder => ?_
  have hedge := mem_successors_iff.mp (mem_leafChildren.mp hl).1
  have hpairs : ∀ e ∈ twoPointerEdges, ∀ e' ∈ twoPointerEdges, isInstanceEdge e.2.tag →
      e'.1 = e.1 → e'.2.node = e.2.node ∨ e'.2.node = 1 ∧ e.2.node = 2 ∨
        e'.2.node = 2 ∧ e.2.node = 1 := by decide
  rcases hpairs e he _ hedge hinst rfl with heq | ⟨h1, h2⟩ | ⟨h2, h1⟩
  · rw [show l.node = e.2.node from heq] at hmore
    exact not_moreGeneral_self _ hmore
  · rw [show l.node = 1 from h1, h2] at hmore
    exact not_moreGeneral_self 1 (isDAG.moreGeneral_trans (by decide) hmore moreGeneral)
  · have hlt := horder (by rw [h1]; decide)
    rw [haddresses, show l.node = 2 from h2, h1] at hlt
    exact absurd hlt (by decide)

end twoPointers

/-- The second visit misses the node that contains its end, and both of the pointers are left. -/
theorem not_resolvesLeafUnions :
    (¬ ∀ s : LayoutTypeSystem LeaderTable, s.IsDAG → s.ComparesContainment) ∧
    ¬ ∀ (addresses : Addresses) (s s' : LayoutTypeSystem LeaderTable), s.IsDAG → FieldsSized s →
      s.resolveLeafUnions addresses = some s' → s'.NoComparableLeaves := by
  constructor
  · intro hall
    exact (comparesContainment_iff twoPointers.isDAG).mp (hall _ twoPointers.isDAG) 3 4
      twoPointers.linked
  · intro hall
    obtain ⟨addresses, haddresses⟩ := exists_addresses
    obtain ⟨s', hrun, hresolves, -⟩ :=
      exists_resolveLeafUnions addresses twoPointers.isDAG twoPointers.fieldsSized
    have hs' := hresolves.shrinks twoPointers.isDAG
    have hfirst := twoPointers.kept haddresses hresolves
      (e := (0, ⟨1, .instanceTag ⟨8, [], []⟩⟩)) (by decide) rfl (by decide)
    have hsecond := twoPointers.kept haddresses hresolves
      (e := (0, ⟨2, .instanceTag ⟨8, [], []⟩⟩)) (by decide) rfl (by decide)
    have hoffset0 := twoPointers.kept haddresses hresolves
      (e := (3, ⟨4, .instanceTag ⟨0, [], []⟩⟩)) (by decide) rfl (by decide)
    have hpoints : ∀ {n x}, (n, (⟨x, .pointerTag⟩ : Link)) ∈ twoPointerEdges → s'.Points n x :=
      fun he => hs'.points_iff.mpr ⟨.pointerTag, rfl, twoPointers.mem_successors_iff.mpr he⟩
    have hmore : s'.MoreGeneral 2 1 := by
      refine Or.inr ⟨3, 4, hpoints (by decide), hpoints (by decide), .single ⟨?_, ?_⟩⟩
      · rw [hs'.layouts]
        decide
      · exact ⟨_, rfl, (mem_leafChildren.mp hoffset0).1⟩
    have hn : 0 ∈ s'.layouts := by
      rw [hs'.layouts]
      decide
    refine hall addresses _ s' twoPointers.isDAG twoPointers.fieldsSized hrun 0 hn _ hsecond _ hfirst
      ?_ hmore
    rw [hs'.childrenKey_eq, hs'.childrenKey_eq]
    rfl

/-- A union of a scalar and a pointer. -/
def scalarAndPointer : LayoutTypeSystem LeaderTable :=
  ofEdges 4 {(0, ⟨1, .instanceTag ⟨8, [], []⟩⟩), (0, ⟨2, .instanceTag ⟨8, [], []⟩⟩),
    (2, ⟨3, .pointerTag⟩)} fun _ => 8

theorem resolvesLeafUnions_scalarAndPointer : ∃ (addresses : Addresses)
    (s' : LayoutTypeSystem LeaderTable), scalarAndPointer.resolveLeafUnions addresses = some s' ∧
      s'.NoComparableLeaves := by
  obtain ⟨addresses, -⟩ := exists_addresses
  have hnone : ∀ a b, ¬ LayoutTypeSystem.Linked isInstanceAtOffset0 scalarAndPointer a b := by
    rintro a b ⟨-, t, ht, hmem⟩
    have hedge := mem_successors_ofEdges.mp hmem
    simp only [Finset.mem_insert, Finset.mem_singleton, Prod.mk.injEq, Link.mk.injEq] at hedge
    rcases hedge with ⟨-, -, rfl⟩ | ⟨-, -, rfl⟩ | ⟨-, -, rfl⟩ <;> exact absurd ht (by decide)
  obtain ⟨s', hrun, -, -, -, hiff⟩ := resolvesLeafUnions_iff addresses (s := scalarAndPointer)
    (isDAG_ofEdges (by decide) (by decide) (by decide))
    (fieldsSized_ofEdges (by decide) fun _ => by decide)
  exact ⟨addresses, s', hrun, (hiff.mpr hnone).2.1⟩

end DataLayout
