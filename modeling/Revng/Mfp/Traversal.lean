import Mathlib.Data.Fintype.Card

/-!
# Reverse post order

The analysis visits the graph depth first from every entry label, sharing the set of
visited nodes between the visits, and lists the nodes of each visit in reverse post
order.  Together the lists name the nodes that can be reached from an entry label, and
no others (`mem_visitOrder`).
-/

namespace Mfp

variable {Label : Type} [DecidableEq Label]

/-- A depth-first visit: the visited nodes and the nodes in reverse post order. -/
abbrev Visit (Label : Type) := Finset Label × List Label

/-- Visit `node` and, before leaving it, its successors that nobody has visited. -/
def postOrder (successors : Label → List Label) : Nat → Label → Visit Label → Visit Label
  | 0, _, v => v
  | fuel + 1, node, v =>
      let v' := (successors node).foldl
        (fun v s => if s ∈ v.1 then v else postOrder successors fuel s v) (insert node v.1, v.2)
      (v'.1, node :: v'.2)

/-- `ReversePostOrderTraversalExt`.  The nodes on the stack are distinct, so the number of
labels bounds the depth of the visit. -/
def reversePostOrderTraversal [Fintype Label] (successors : Label → List Label) (start : Label)
    (visited : Finset Label) : Visit Label :=
  postOrder successors (Fintype.card Label) start (visited, [])

/-- The visits from the entry labels, one after the other. -/
def visitOrder [Fintype Label] (successors : Label → List Label) (entryLabels : List Label) :
    Visit Label :=
  entryLabels.foldl
    (fun v start =>
      if start ∈ v.1 then v
      else
        let (visited, blocks) := reversePostOrderTraversal successors start v.1
        (visited, v.2 ++ blocks))
    (∅, [])

/-! ## What a visit reaches -/

variable {successors : Label → List Label}

def Reaches (successors : Label → List Label) : Label → Label → Prop :=
  Relation.ReflTransGen fun m n => n ∈ successors m

/-- A visit from the nodes `roots` that takes `v` to `v'`. -/
structure Explores (successors : Label → List Label) (roots : List Label) (v v' : Visit Label) :
    Prop where
  subset : v.1 ⊆ v'.1
  starts : ∀ s ∈ roots, s ∈ v'.1
  closed : ∀ m ∈ v'.1, m ∉ v.1 → ∀ n ∈ successors m, n ∈ v'.1
  reached : ∀ m ∈ v'.1, m ∉ v.1 → ∃ s ∈ roots, Reaches successors s m
  order : ∀ m, m ∈ v'.2 ↔ m ∈ v.2 ∨ (m ∈ v'.1 ∧ m ∉ v.1)

namespace Explores

omit [DecidableEq Label] in
theorem refl (v : Visit Label) : Explores successors [] v v where
  subset := Finset.Subset.refl _
  starts := by simp
  closed m hm hn := absurd hm hn
  reached m hm hn := absurd hm hn
  order m := by simp

omit [DecidableEq Label] in
/-- A start that has been visited already adds nothing. -/
theorem skip {start : Label} {v : Visit Label} (h : start ∈ v.1) :
    Explores successors [start] v v where
  subset := Finset.Subset.refl _
  starts := by simp [h]
  closed m hm hn := absurd hm hn
  reached m hm hn := absurd hm hn
  order m := by simp

theorem trans {xs ys : List Label} {u v w : Visit Label} (h₁ : Explores successors xs u v)
    (h₂ : Explores successors ys v w) : Explores successors (xs ++ ys) u w where
  subset := h₁.subset.trans h₂.subset
  starts s hs := by
    rcases List.mem_append.mp hs with hs | hs
    · exact h₂.subset (h₁.starts s hs)
    · exact h₂.starts s hs
  closed m hm hn n hmn := by
    by_cases hv : m ∈ v.1
    · exact h₂.subset (h₁.closed m hv hn n hmn)
    · exact h₂.closed m hm hv n hmn
  reached m hm hn := by
    by_cases hv : m ∈ v.1
    · obtain ⟨s, hs, hr⟩ := h₁.reached m hv hn
      exact ⟨s, List.mem_append_left _ hs, hr⟩
    · obtain ⟨s, hs, hr⟩ := h₂.reached m hm hv
      exact ⟨s, List.mem_append_right _ hs, hr⟩
  order m := by
    rw [h₂.order, h₁.order]
    constructor
    · rintro ((h | ⟨hv, hn⟩) | ⟨hw, hn⟩)
      · exact Or.inl h
      · exact Or.inr ⟨h₂.subset hv, hn⟩
      · exact Or.inr ⟨hw, fun hu => hn (h₁.subset hu)⟩
    · rintro (h | ⟨hw, hn⟩)
      · exact Or.inl (Or.inl h)
      · by_cases hv : m ∈ v.1
        · exact Or.inl (Or.inr ⟨hv, hn⟩)
        · exact Or.inr ⟨hw, hv⟩

/-- Entering `node` and visiting its successors is a visit from `node`. -/
theorem node {start : Label} {v v' : Visit Label} (hstart : start ∉ v.1)
    (h : Explores successors (successors start) (insert start v.1, v.2) v') :
    Explores successors [start] v (v'.1, start :: v'.2) where
  subset := (Finset.subset_insert _ _).trans h.subset
  starts s hs := by
    rw [List.mem_singleton.mp hs]
    exact h.subset (Finset.mem_insert_self _ _)
  closed m hm hn n hmn := by
    by_cases hms : m = start
    · exact h.starts n (hms ▸ hmn)
    · exact h.closed m hm (by simp [hms, hn]) n hmn
  reached m hm hn := by
    refine ⟨start, List.mem_singleton.mpr rfl, ?_⟩
    by_cases hms : m = start
    · rw [hms]
      exact Relation.ReflTransGen.refl
    · obtain ⟨s, hs, hr⟩ := h.reached m hm (by simp [hms, hn])
      exact Relation.ReflTransGen.head hs hr
  order m := by
    have hs : start ∈ v'.1 := h.subset (Finset.mem_insert_self _ _)
    simp only [List.mem_cons, h.order, Finset.mem_insert, not_or]
    by_cases hms : m = start
    · simp [hms, hs, hstart]
    · simp [hms]

end Explores

theorem Explores.fold {fuel : Nat} {visit : Label → Visit Label → Visit Label}
    {unvisited : Visit Label → Nat}
    (hmono : ∀ {v v' : Visit Label}, v.1 ⊆ v'.1 → unvisited v' ≤ unvisited v)
    (hvisit : ∀ s v, s ∉ v.1 → unvisited v ≤ fuel → Explores successors [s] v (visit s v))
    (xs : List Label) :
    ∀ v, unvisited v ≤ fuel →
      Explores successors xs v (xs.foldl (fun v s => if s ∈ v.1 then v else visit s v) v) := by
  induction xs with
  | nil => exact fun v _ => .refl v
  | cons s rest ih =>
    intro v hv
    rw [List.foldl_cons]
    split
    next hs => exact (Explores.skip hs).trans (ih v hv)
    next hs =>
      have hone := hvisit s v hs hv
      exact hone.trans (ih _ ((hmono hone.subset).trans hv))

variable [Fintype Label]

/-- The number of nodes nobody has visited. -/
def unvisited (v : Visit Label) : Nat := (Finset.univ \ v.1).card

theorem unvisited_mono {v v' : Visit Label} (h : v.1 ⊆ v'.1) : unvisited v' ≤ unvisited v :=
  Finset.card_le_card (Finset.sdiff_subset_sdiff (Finset.Subset.refl _) h)

theorem unvisited_insert {node : Label} {v : Visit Label} (h : node ∉ v.1) (order : List Label) :
    unvisited (insert node v.1, order) < unvisited v := by
  refine Finset.card_lt_card (Finset.ssubset_iff_of_subset ?_ |>.mpr ⟨node, ?_, ?_⟩)
  · exact Finset.sdiff_subset_sdiff (Finset.Subset.refl _) (Finset.subset_insert _ _)
  · simp [h]
  · simp

/-- With fuel for the unvisited nodes the visit is complete. -/
theorem explores_postOrder (fuel : Nat) :
    ∀ (node : Label) (v : Visit Label), node ∉ v.1 → unvisited v ≤ fuel →
      Explores successors [node] v (postOrder successors fuel node v) := by
  induction fuel with
  | zero =>
    intro node v hnode hfuel
    have := unvisited_insert hnode v.2
    omega
  | succ fuel ih =>
    intro node v hnode hfuel
    have hless := unvisited_insert hnode v.2
    exact Explores.node hnode
      (Explores.fold unvisited_mono ih (successors node) (insert node v.1, v.2) (by omega))

theorem explores_reversePostOrderTraversal {start : Label} {visited : Finset Label}
    (h : start ∉ visited) :
    Explores successors [start] (visited, [])
      (reversePostOrderTraversal successors start visited) :=
  explores_postOrder _ start (visited, []) h (Finset.card_le_univ _)

theorem explores_visitOrder (successors : Label → List Label) (entryLabels : List Label) :
    Explores successors entryLabels (∅, []) (visitOrder successors entryLabels) := by
  refine Explores.fold unvisited_mono ?_ entryLabels (∅, []) (Finset.card_le_univ _)
  intro start v hstart _
  have h : Explores successors [start] (v.1, []) (reversePostOrderTraversal successors start v.1) :=
    explores_reversePostOrderTraversal hstart
  refine ⟨h.subset, h.starts, h.closed, h.reached, fun m => ?_⟩
  simp only [List.mem_append, h.order]
  simp

/-- The order names the nodes that an entry label reaches. -/
theorem mem_visitOrder {entryLabels : List Label} {n : Label} :
    n ∈ (visitOrder successors entryLabels).2 ↔ ∃ e ∈ entryLabels, Reaches successors e n := by
  have h := explores_visitOrder successors entryLabels
  rw [h.order]
  simp only [List.not_mem_nil, Finset.notMem_empty, not_false_eq_true, and_true, false_or]
  constructor
  · exact fun hn => h.reached n hn (by simp)
  · rintro ⟨e, he, hr⟩
    induction hr with
    | refl => exact h.starts e he
    | tail _ hmn ih => exact h.closed _ ih (by simp) _ hmn

end Mfp
