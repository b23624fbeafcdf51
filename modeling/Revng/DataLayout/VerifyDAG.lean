import Mathlib.Data.Countable.Basic
import Mathlib.Logic.Equiv.List
import Revng.DataLayout.BrokenLoops

/-!
# Directed acyclic type systems

The passes of the middle end run on systems that `verifyDAG` accepts: the links are consistent, no
node is a pointer and something else, and the edges that are no pointers have no cycles.  It stays
that way when edges are erased.
-/

namespace DataLayout

open LayoutTypeSystem StrongComponents Relation

def isNotPointerEdge (t : TypeLinkTag) : Bool := !isPointerEdge t

/-- Where the nodes and the tags are in memory. -/
structure Addresses where
  node : Nat → Nat
  tag : TypeLinkTag → Nat
  node_injective : Function.Injective node
  tag_injective : Function.Injective tag

instance : Countable TypeLinkTag :=
  have : Countable (WithBot ℕ) := inferInstanceAs (Countable (Option ℕ))
  have : Countable (ℕ ×ₗ ℕ ×ₗ List ℕ ×ₗ List (WithBot ℕ)) :=
    inferInstanceAs (Countable (ℕ × ℕ × List ℕ × List (WithBot ℕ)))
  TypeLinkTag.members_injective.countable

/-- The nodes are in memory in the order of their identifiers. -/
theorem exists_addresses : ∃ addresses : Addresses, addresses.node = id := by
  obtain ⟨tag, htag⟩ := exists_injective_nat TypeLinkTag
  exact ⟨⟨id, tag, Function.injective_id, htag⟩, rfl⟩

variable {E : Type} {s s' : LayoutTypeSystem E} {g : TypeGraph}

namespace LayoutTypeSystem

def isPointerNode (s : LayoutTypeSystem E) (n : Nat) : Bool :=
  ∃ l ∈ (s.nodes n).successors, isPointerEdge l.tag

def isLeaf (s : LayoutTypeSystem E) (n : Nat) : Bool :=
  ∀ l ∈ (s.nodes n).successors, ¬ isNotPointerEdge l.tag

/-- `isRoot`, for all edges but the pointers. -/
def isRoot (s : LayoutTypeSystem E) (n : Nat) : Bool :=
  ∀ l ∈ (s.nodes n).predecessors, ¬ isNotPointerEdge l.tag

/-- The nodes that the edges of `NonPointerFilterT` lead to. -/
def nonPointerChildren (s : LayoutTypeSystem E) (n : Nat) : List Nat :=
  ((s.nodes n).successors.inOrder.filter fun l => isNotPointerEdge l.tag).map Link.node

def instanceEdges (s : LayoutTypeSystem E) (n : Nat) : Finset Link :=
  (s.nodes n).successors.filter fun l => isInstanceEdge l.tag

/-- What `verifyDAG` asks of a system. -/
structure IsDAG (s : LayoutTypeSystem E) : Prop where
  consistent : s.Consistent
  onePointer : ∀ n ∈ s.layouts, ∀ l ∈ (s.nodes n).successors, ∀ l' ∈ (s.nodes n).successors,
    isPointerEdge l.tag → isPointerEdge l'.tag → l = l'
  notBoth : ∀ n ∈ s.layouts, ∀ l ∈ (s.nodes n).successors, ∀ l' ∈ (s.nodes n).successors,
    isPointerEdge l.tag → ¬ isInstanceEdge l'.tag
  acyclic : Acyclic (LayoutTypeSystem.Linked isNotPointerEdge s)

/-- `addEqualityLink` adds two links. -/
def EqualityBothWays (s : LayoutTypeSystem E) : Prop :=
  ∀ a b, LayoutTypeSystem.Linked isEqualityEdge s a b → LayoutTypeSystem.Linked isEqualityEdge s b a

end LayoutTypeSystem

/-! ## Kinds of edges -/

theorem isNotPointerEdge_of_instance {t : TypeLinkTag} (h : isInstanceEdge t) :
    isNotPointerEdge t := by
  have hkind : t.kind = .inst := by simpa [isInstanceEdge] using h
  simp [isNotPointerEdge, isPointerEdge, hkind]

theorem LayoutTypeSystem.Linked.mono {isEdge isEdge' : TypeLinkTag → Bool}
    (h : ∀ t, isEdge t → isEdge' t) {a b : Nat} (hab : LayoutTypeSystem.Linked isEdge s a b) :
    LayoutTypeSystem.Linked isEdge' s a b := by
  obtain ⟨ha, t, ht, hmem⟩ := hab
  exact ⟨ha, t, h t ht, hmem⟩

theorem LayoutTypeSystem.isLeaf_iff {n : Nat} :
    s.isLeaf n ↔ ∀ l ∈ (s.nodes n).successors, isPointerEdge l.tag := by
  simp [LayoutTypeSystem.isLeaf, isNotPointerEdge]

theorem LayoutTypeSystem.isPointerNode_iff {n : Nat} :
    s.isPointerNode n ↔ ∃ l ∈ (s.nodes n).successors, isPointerEdge l.tag := by
  simp [LayoutTypeSystem.isPointerNode]

theorem mem_instanceEdges {n : Nat} {l : Link} :
    l ∈ s.instanceEdges n ↔ l ∈ (s.nodes n).successors ∧ isInstanceEdge l.tag := Finset.mem_filter

theorem linked_of_mem_instanceEdges {n : Nat} {l : Link} (hn : n ∈ s.layouts)
    (hl : l ∈ s.instanceEdges n) :
    LayoutTypeSystem.Linked isInstanceEdge s n l.node :=
  ⟨hn, l.tag, (mem_instanceEdges.mp hl).2, (mem_instanceEdges.mp hl).1⟩

/-! ## Properties of a system -/

theorem Represents.consistent (hg : Represents s.layouts s.nodes g) : s.Consistent where
  mirror n hn m hm t := by rw [hg.successors n hn, hg.predecessors m hm]
  noSelfEdges n hn l hl := hg.notMem_successors_self hn l hl
  noDangling n hn l hl := by
    rcases Finset.mem_union.mp hl with hl | hl
    · exact hg.mem_of_successor (t := l.tag) hn hl
    · exact hg.mem_of_predecessor (t := l.tag) hn hl

namespace LayoutTypeSystem.IsDAG

theorem target_mem (hs : s.IsDAG) {n : Nat} (hn : n ∈ s.layouts) {l : Link}
    (hl : l ∈ (s.nodes n).successors) : l.node ∈ s.layouts :=
  hs.consistent.noDangling n hn l (Finset.mem_union_left _ hl)

/-- Both sides have the link. -/
theorem hasLink (hs : s.IsDAG) {n : Nat} (hn : n ∈ s.layouts) {l : Link}
    (hl : l ∈ (s.nodes n).successors) : s.HasLink n l.node l.tag :=
  ⟨hl, (hs.consistent.mirror n hn l.node (hs.target_mem hn hl) l.tag).mp hl⟩

theorem eraseEdge_eq (hs : s.IsDAG) {n : Nat} (hn : n ∈ s.layouts) {l : Link}
    (hl : l ∈ (s.nodes n).successors) :
    s.eraseEdge n l = some { s with nodes := eraseLink s.nodes n l.node l.tag } := by
  rw [LayoutTypeSystem.eraseEdge, guard, if_pos ⟨hn, hs.hasLink hn hl⟩]
  rfl

theorem acyclic_of (hs : s.IsDAG) {isEdge : TypeLinkTag → Bool}
    (h : ∀ t, isEdge t → isNotPointerEdge t) : Acyclic (LayoutTypeSystem.Linked isEdge s) :=
  fun a ha => hs.acyclic a (TransGen.mono (fun _ _ hab => hab.mono h) a a ha)

/-- An equality edge leads back, so a system without cycles has none. -/
theorem isInstanceEdge (hs : s.IsDAG) (hways : s.EqualityBothWays) {n : Nat} (hn : n ∈ s.layouts)
    {l : Link} (hl : l ∈ (s.nodes n).successors) (hnot : isNotPointerEdge l.tag) :
    isInstanceEdge l.tag := by
  have hequality : ∀ t, isEqualityEdge t → isNotPointerEdge t := by
    intro t ht
    have hkind : t.kind = .equality := by simpa [isEqualityEdge] using ht
    simp [isNotPointerEdge, isPointerEdge, hkind]
  cases hkind : l.tag.kind with
  | inst => simp [DataLayout.isInstanceEdge, hkind]
  | pointer => simp [isNotPointerEdge, isPointerEdge, hkind] at hnot
  | equality =>
    have hedge : LayoutTypeSystem.Linked isEqualityEdge s n l.node :=
      ⟨hn, l.tag, by simp [isEqualityEdge, hkind], hl⟩
    exact absurd (.head (hedge.mono hequality) (.single ((hways _ _ hedge).mono hequality)))
      (hs.acyclic n)

/-- A system with fewer edges. -/
theorem of_subset (hs : s.IsDAG) (hc : s'.Consistent) (hlayouts : s'.layouts = s.layouts)
    (hsub : ∀ n, (s'.nodes n).successors ⊆ (s.nodes n).successors) : s'.IsDAG where
  consistent := hc
  onePointer n hn l hl l' hl' := hs.onePointer n (hlayouts ▸ hn) l (hsub n hl) l' (hsub n hl')
  notBoth n hn l hl l' hl' := hs.notBoth n (hlayouts ▸ hn) l (hsub n hl) l' (hsub n hl')
  acyclic a ha := by
    refine hs.acyclic a (TransGen.mono ?_ a a ha)
    rintro x y ⟨hx, t, ht, hmem⟩
    exact ⟨hlayouts ▸ hx, t, ht, hsub x hmem⟩

end LayoutTypeSystem.IsDAG

/-! ## Erasing an edge -/

section Erase

variable {nodes : Nodes} {src tgt n : Nat} {tag : TypeLinkTag}

theorem size_eraseLink (nodes : Nodes) (src tgt : Nat) (tag : TypeLinkTag) (n : Nat) :
    (eraseLink nodes src tgt tag n).size = (nodes n).size := by
  simp only [eraseLink, modify_apply]
  split <;> split <;> rfl

theorem mem_successors_erase {l : Link} : l ∈ (eraseLink nodes src tgt tag n).successors ↔
    l ∈ (nodes n).successors ∧ ¬ (n = src ∧ l = ⟨tgt, tag⟩) := by
  obtain ⟨m, t⟩ := l
  rw [mem_successors_eraseLink]
  refine and_congr_right fun _ => not_congr ?_
  simp only [Prod.mk.injEq, Link.mk.injEq]
  tauto

theorem LayoutTypeSystem.IsDAG.eraseLink (hs : s.IsDAG) (src tgt : Nat) (tag : TypeLinkTag) :
    LayoutTypeSystem.IsDAG { s with nodes := eraseLink s.nodes src tgt tag } := by
  obtain ⟨g, hg⟩ := hs.consistent.represents
  refine hs.of_subset (hg.eraseLink src tgt tag).consistent rfl fun n l hl => ?_
  exact (mem_successors_erase.mp hl).1

end Erase

/-! ## Systems that are given by their edges -/

section OfEdges

variable {count : Nat} {edges : Finset (Nat × Link)} {size : Nat → Nat}

def LayoutTypeSystem.ofEdges (count : Nat) (edges : Finset (Nat × Link)) (size : Nat → Nat) :
    LayoutTypeSystem LeaderTable where
  nid := count
  layouts := Finset.range count
  nodes n :=
    { LayoutTypeSystemNode.new with
      successors := (edges.filter fun e => e.1 = n).image Prod.snd
      predecessors := (edges.filter fun e => e.2.node = n).image fun e => ⟨e.1, e.2.tag⟩
      size := size n }
  eqClasses := (createArtificialLayoutTypes (E := LeaderTable) .empty count).eqClasses

theorem mem_successors_ofEdges {n : Nat} {l : Link} :
    l ∈ ((ofEdges count edges size).nodes n).successors ↔ (n, l) ∈ edges := by
  simp only [ofEdges, Finset.mem_image, Finset.mem_filter]
  constructor
  · rintro ⟨⟨m, l⟩, ⟨he, rfl⟩, rfl⟩
    exact he
  · exact fun he => ⟨(n, l), ⟨he, rfl⟩, rfl⟩

theorem mem_predecessors_ofEdges {n m : Nat} {t : TypeLinkTag} :
    ⟨m, t⟩ ∈ ((ofEdges count edges size).nodes n).predecessors ↔ (m, ⟨n, t⟩) ∈ edges := by
  simp only [ofEdges, Finset.mem_image, Finset.mem_filter]
  constructor
  · rintro ⟨⟨k, ⟨n, u⟩⟩, ⟨he, rfl⟩, heq⟩
    obtain ⟨rfl, rfl⟩ := Link.mk.inj heq
    exact he
  · exact fun he => ⟨(m, ⟨n, t⟩), ⟨he, rfl⟩, rfl⟩

/-- The edges lead from smaller nodes to larger ones, and the pointers are alone. -/
theorem isDAG_ofEdges (hnodes : ∀ e ∈ edges, e.1 < count ∧ e.2.node < count ∧ e.1 ≠ e.2.node)
    (hpointers : ∀ e ∈ edges, ∀ e' ∈ edges, isPointerEdge e.2.tag → e.1 = e'.1 → e = e')
    (hup : ∀ e ∈ edges, isNotPointerEdge e.2.tag → e.1 < e.2.node) :
    (ofEdges count edges size).IsDAG where
  consistent :=
    { mirror := fun n _ m _ t => by rw [mem_successors_ofEdges, mem_predecessors_ofEdges]
      noSelfEdges := fun n _ l hl heq =>
        (hnodes _ (mem_successors_ofEdges.mp hl)).2.2 heq.symm
      noDangling := fun n _ l hl => by
        rcases Finset.mem_union.mp hl with hl | hl
        · exact Finset.mem_range.mpr (hnodes _ (mem_successors_ofEdges.mp hl)).2.1
        · exact Finset.mem_range.mpr (hnodes _ (mem_predecessors_ofEdges.mp hl)).1 }
  onePointer n _ l hl l' hl' ht _ := congrArg Prod.snd
    (hpointers _ (mem_successors_ofEdges.mp hl) _ (mem_successors_ofEdges.mp hl') ht rfl)
  notBoth n _ l hl l' hl' ht ht' := by
    have heq := congrArg Prod.snd
      (hpointers _ (mem_successors_ofEdges.mp hl) _ (mem_successors_ofEdges.mp hl') ht rfl)
    have hnot := isNotPointerEdge_of_instance ht'
    simp only at heq
    simp [isNotPointerEdge, ← heq, ht] at hnot
  acyclic := acyclic_of_lt id (fun _ _ hab => .single hab) fun a b hab _ => by
    obtain ⟨-, t, ht, hmem⟩ := hab
    exact hup _ (mem_successors_ofEdges.mp hmem) ht

end OfEdges

end DataLayout
