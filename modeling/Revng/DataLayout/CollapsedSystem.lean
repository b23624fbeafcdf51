import Revng.DataLayout.CollapsedComponent

/-!
# The components that are collapsed

The iterator starts from every node that was not visited yet, so it also finds components that
were found from other nodes.  Each component is collected once all the same
(`components_toCollapse`).
-/

namespace DataLayout

open LayoutTypeSystem StrongComponents Relation

variable {E : Type} {r : Nat → Nat → Prop} {v : Finset Nat × List (List Nat)}

/-- The visited nodes make up whole components, and those with more than one node are collected. -/
structure VisitedSCCs (r : Nat → Nat → Prop) (v : Finset Nat × List (List Nat)) : Prop where
  closed : ∀ a ∈ v.1, ∀ b, Mutual r a b → b ∈ v.1
  nodup : ∀ c ∈ v.2, c.Nodup
  component : ∀ c ∈ v.2, ∀ a ∈ c, ∀ b, b ∈ c ↔ Mutual r a b
  visited : ∀ c ∈ v.2, ∀ a ∈ c, a ∈ v.1
  disjoint : v.2.Pairwise List.Disjoint
  large : ∀ c ∈ v.2, 1 < c.length
  collected : ∀ a ∈ v.1, ∀ b, Mutual r a b → a ≠ b → ∃ c ∈ v.2, a ∈ c

theorem visitedSCCs_empty (r : Nat → Nat → Prop) : VisitedSCCs r (∅, []) := by
  constructor <;> simp

/-- A component of a single node holds no other node. -/
theorem eq_of_length_le_one {c : List Nat} (hlength : ¬ 1 < c.length) {a b : Nat} (ha : a ∈ c)
    (hb : b ∈ c) : a = b := by
  match c, hlength with
  | [], _ => cases ha
  | [x], _ => rw [List.mem_singleton.mp ha, List.mem_singleton.mp hb]
  | x :: y :: rest, hlength => simp at hlength

/-- A component whose first node was not visited is visited. -/
theorem VisitedSCCs.insert (hv : VisitedSCCs r v) {scc : List Nat} {first : Nat}
    (hfirst : first ∈ scc) (hnew : first ∉ v.1) (hnodup : scc.Nodup)
    (hcomponent : ∀ a ∈ scc, ∀ b, b ∈ scc ↔ Mutual r a b) :
    VisitedSCCs r (v.1 ∪ scc.toFinset, if 1 < scc.length then v.2 ++ [scc] else v.2) := by
  have hclosed : ∀ a ∈ v.1 ∪ scc.toFinset, ∀ b, Mutual r a b → b ∈ v.1 ∪ scc.toFinset := by
    intro a ha b hab
    rcases Finset.mem_union.mp ha with ha | ha
    · exact Finset.mem_union_left _ (hv.closed a ha b hab)
    · exact Finset.mem_union_right _ (List.mem_toFinset.mpr
        ((hcomponent a (List.mem_toFinset.mp ha) b).mpr hab))
  have hvisited : ∀ c ∈ v.2, ∀ a ∈ c, a ∈ v.1 ∪ scc.toFinset := fun c hc a ha =>
    Finset.mem_union_left _ (hv.visited c hc a ha)
  split
  next hlength =>
    have hmem : ∀ {c : List Nat}, c ∈ v.2 ++ [scc] → c ∈ v.2 ∨ c = scc := by simp
    refine ⟨hclosed, fun c hc => ?_, fun c hc => ?_, fun c hc => ?_, ?_, fun c hc => ?_, ?_⟩
    · rcases hmem hc with hc | rfl
      · exact hv.nodup c hc
      · exact hnodup
    · rcases hmem hc with hc | rfl
      · exact hv.component c hc
      · exact hcomponent
    · rcases hmem hc with hc | rfl
      · exact hvisited c hc
      · exact fun a ha => Finset.mem_union_right _ (List.mem_toFinset.mpr ha)
    · refine List.pairwise_append.mpr ⟨hv.disjoint, List.pairwise_singleton _ _, ?_⟩
      intro c hc d hd a hac had
      obtain rfl := List.mem_singleton.mp hd
      exact hnew (hv.closed a (hv.visited c hc a hac) first ((hcomponent a had first).mp hfirst))
    · rcases hmem hc with hc | rfl
      · exact hv.large c hc
      · exact hlength
    · intro a ha b hab hne
      rcases Finset.mem_union.mp ha with ha | ha
      · obtain ⟨c, hc, hac⟩ := hv.collected a ha b hab hne
        exact ⟨c, List.mem_append_left _ hc, hac⟩
      · exact ⟨scc, by simp, List.mem_toFinset.mp ha⟩
  next hlength =>
    refine ⟨hclosed, hv.nodup, hv.component, hvisited, hv.disjoint, hv.large, ?_⟩
    intro a ha b hab hne
    rcases Finset.mem_union.mp ha with ha | ha
    · exact hv.collected a ha b hab hne
    · -- the component of `a` has no other node
      have ha := List.mem_toFinset.mp ha
      exact absurd (eq_of_length_le_one hlength ha ((hcomponent a ha b).mpr hab)) hne

theorem VisitedSCCs.visitSCC (hv : VisitedSCCs r v) {scc : List Nat} (hnonempty : scc ≠ [])
    (hnodup : scc.Nodup) (hcomponent : ∀ a ∈ scc, ∀ b, b ∈ scc ↔ Mutual r a b) :
    VisitedSCCs r (visitSCC v scc) ∧ v.1 ⊆ (visitSCC v scc).1 ∧
      ∀ a ∈ scc, a ∈ (visitSCC v scc).1 := by
  cases scc with
  | nil => exact absurd rfl hnonempty
  | cons first rest =>
    rw [LayoutTypeSystem.visitSCC]
    split
    next hfirst =>
      refine ⟨hv, Finset.Subset.refl _, fun a ha => ?_⟩
      exact hv.closed first hfirst a ((hcomponent first List.mem_cons_self a).mp ha)
    next hfirst =>
      refine ⟨hv.insert List.mem_cons_self hfirst hnodup hcomponent, Finset.subset_union_left, ?_⟩
      exact fun a ha => Finset.mem_union_right _ (List.mem_toFinset.mpr ha)

/-- The components that are found from a node are visited. -/
theorem VisitedSCCs.foldl_visitSCC (sccs : List (List Nat)) :
    ∀ {v : Finset Nat × List (List Nat)}, VisitedSCCs r v → (∀ c ∈ sccs, c ≠ []) →
      (∀ c ∈ sccs, c.Nodup) → (∀ c ∈ sccs, ∀ a ∈ c, ∀ b, b ∈ c ↔ Mutual r a b) →
      VisitedSCCs r (sccs.foldl LayoutTypeSystem.visitSCC v) ∧
        v.1 ⊆ (sccs.foldl LayoutTypeSystem.visitSCC v).1 ∧
        ∀ c ∈ sccs, ∀ a ∈ c, a ∈ (sccs.foldl LayoutTypeSystem.visitSCC v).1 := by
  induction sccs with
  | nil => exact fun hv _ _ _ => ⟨hv, Finset.Subset.refl _, by simp⟩
  | cons scc sccs ih =>
    intro v hv hnonempty hnodup hcomponent
    obtain ⟨hv₁, hsub₁, hin₁⟩ := hv.visitSCC (hnonempty scc List.mem_cons_self)
      (hnodup scc List.mem_cons_self) (hcomponent scc List.mem_cons_self)
    obtain ⟨hv', hsub, hin⟩ := ih hv₁ (fun c hc => hnonempty c (List.mem_cons_of_mem _ hc))
      (fun c hc => hnodup c (List.mem_cons_of_mem _ hc))
      fun c hc => hcomponent c (List.mem_cons_of_mem _ hc)
    refine ⟨hv', hsub₁.trans hsub, fun c hc a ha => ?_⟩
    rcases List.mem_cons.mp hc with rfl | hc
    · exact hsub (hin₁ a ha)
    · exact hin c hc a ha

variable {sccs : Nat → List (List Nat)}

/-- The loop over the nodes visits all of them. -/
theorem VisitedSCCs.foldl_nodes (nodes : List Nat) :
    ∀ {v : Finset Nat × List (List Nat)}, VisitedSCCs r v →
      (∀ n ∈ nodes, Enumerates r n (sccs n)) →
      VisitedSCCs r (nodes.foldl (fun visited n =>
          if n ∈ visited.1 then visited else (sccs n).foldl LayoutTypeSystem.visitSCC visited) v) ∧
        v.1 ⊆ (nodes.foldl (fun visited n =>
          if n ∈ visited.1 then visited else (sccs n).foldl LayoutTypeSystem.visitSCC visited) v).1 ∧
        ∀ n ∈ nodes, n ∈ (nodes.foldl (fun visited n =>
          if n ∈ visited.1 then visited
          else (sccs n).foldl LayoutTypeSystem.visitSCC visited) v).1 := by
  induction nodes with
  | nil => exact fun hv _ => ⟨hv, Finset.Subset.refl _, by simp⟩
  | cons n nodes ih =>
    intro v hv hsccs
    have hone : ∃ v', (if n ∈ v.1 then v else (sccs n).foldl LayoutTypeSystem.visitSCC v) = v' ∧
        VisitedSCCs r v' ∧ v.1 ⊆ v'.1 ∧ n ∈ v'.1 := by
      split
      next hn => exact ⟨v, rfl, hv, Finset.Subset.refl _, hn⟩
      next hn =>
        have henum := hsccs n List.mem_cons_self
        obtain ⟨hv', hsub, hin⟩ := hv.foldl_visitSCC _ henum.nonempty henum.nodup henum.component
        obtain ⟨c, hc, hnc⟩ := henum.covers n ReflTransGen.refl
        exact ⟨_, rfl, hv', hsub, hin c hc n hnc⟩
    obtain ⟨v₁, heq, hv₁, hsub₁, hn₁⟩ := hone
    rw [List.foldl_cons, heq]
    obtain ⟨hv', hsub, hin⟩ := ih hv₁ fun k hk => hsccs k (List.mem_cons_of_mem _ hk)
    refine ⟨hv', hsub₁.trans hsub, fun k hk => ?_⟩
    rcases List.mem_cons.mp hk with rfl | hk
    · exact hsub hn₁
    · exact hin k hk

theorem components_toCollapse {s : LayoutTypeSystem E} {isEdge : TypeLinkTag → Bool}
    (hsccs : ∀ n ∈ s.layouts, Enumerates (Linked isEdge s) n (sccs n)) :
    Components (Linked isEdge s) (toCollapse sccs s) := by
  obtain ⟨hv, -, hall⟩ := (visitedSCCs_empty (Linked isEdge s)).foldl_nodes s.layouts.sort
    fun n hn => hsccs n ((Finset.mem_sort _).mp hn)
  refine ⟨hv.nodup, hv.component, hv.disjoint, hv.large, fun a b hab hne => ?_⟩
  obtain ⟨b', ha, -⟩ := hab.exists_edge hne
  exact hv.collected a (hall a ((Finset.mem_sort _).mpr ha)) b hab hne

/-- The components are made of nodes of the system. -/
theorem mem_layouts_of_toCollapse {s : LayoutTypeSystem E} {isEdge : TypeLinkTag → Bool}
    (h : Components (Linked isEdge s) (toCollapse sccs s)) :
    ∀ c ∈ toCollapse sccs s, ∀ n ∈ c, n ∈ s.layouts := by
  intro c hc n hn
  obtain ⟨b, hlinked⟩ := h.exists_edge hc hn
  exact hlinked.1

/-!
## What becomes of the components

The components are disjoint, so collapsing one of them changes neither the nodes nor the leaders of
the others, and only edges between the leaders are new (`Collapsed`).
-/

open LabelledGraph

variable [IntEqClasses E] [LawfulIntEqClasses E]

/-! ## Several components -/

/-- The components of `done` have become their leaders, which are paired with them. -/
structure Collapsed (done : List (List Nat × List Nat)) (m : Nat → Nat) (h₀ : History E)
    (g₀ : TypeGraph) (h : History E) (g : TypeGraph) : Prop where
  stores : Stores h g
  nid : h.system.nid = h₀.system.nid
  owner : h.owner = fun x => (h₀.owner x).map m
  layouts : ∀ n, n ∈ h.system.layouts ↔ n ∈ h₀.system.layouts ∧ m n = n
  maps : ∀ n ∈ h₀.system.layouts, m n ∈ h.system.layouts
  size : ∀ n ∈ h.system.layouts, (h.system.nodes n).size = (h₀.system.nodes n).size
  sized : NonScalarSized h₀.system → NonScalarSized h.system
  outside : ∀ n, (∀ c ∈ done, n ∉ c.1) → m n = n
  leads : ∀ c ∈ done, Leads h₀.system c.1 m c.2
  edges : ∀ a t b, (a, t, b) ∈ g.edges →
    (∃ a₀ b₀, (a₀, t, b₀) ∈ g₀.edges ∧ m a₀ = a ∧ m b₀ = b) ∨
      (t = offset0Tag ∧ ∃ c ∈ done, [a, b] <:+: c.2)
  within : ∀ c ∈ done, ∀ a ∈ c.2, ∀ b ∈ c.2, ∀ t, isPointerEdge t = false →
    ((a, t, b) ∈ g.edges ↔ t = offset0Tag ∧ [a, b] <:+: c.2)

variable {h : History E}

omit [LawfulIntEqClasses E] in
theorem Collapsed.refl {g : TypeGraph} (hs : Stores h g) :
    Collapsed [] id h g h g where
  stores := hs
  nid := rfl
  owner := by simp
  layouts := by simp
  maps := fun _ hn => hn
  size := fun _ _ => rfl
  sized := id
  outside := fun _ _ => rfl
  leads := by simp
  edges := fun a _ b hedge => Or.inl ⟨a, b, hedge, rfl, rfl⟩
  within := by simp

variable {s' : LayoutTypeSystem E}

omit [IntEqClasses E] [LawfulIntEqClasses E] in
theorem OnlyLargestRepeats.congr {s : LayoutTypeSystem E} {c : List Nat}
    (hsize : ∀ n ∈ c, (s'.nodes n).size = (s.nodes n).size)
    (h : OnlyLargestRepeats s' {n | n ∈ c}) : OnlyLargestRepeats s {n | n ∈ c} := by
  intro a ha b hb hne heq n hn
  rw [← hsize n hn, ← hsize a ha]
  exact h a ha b hb hne (by rw [hsize a ha, hsize b hb, heq]) n hn

omit [IntEqClasses E] [LawfulIntEqClasses E] in
/-- Leaders depend on the sizes of the component and on what its nodes are mapped to. -/
theorem Leads.congr {s : LayoutTypeSystem E} {c leaders : List Nat} {m m' : Nat → Nat}
    (hsize : ∀ n ∈ c, (s'.nodes n).size = (s.nodes n).size) (hm : ∀ n ∈ c, m' n = m n)
    (h : Leads s c m leaders) : Leads s' c m' leaders where
  nodup := h.nodup
  mem := h.mem
  into := fun n hn => by
    rw [hm n hn]
    exact h.into n hn
  fixed := fun l hl => by
    rw [hm l (h.mem l hl)]
    exact h.fixed l hl
  descending := h.descending.imp_of_mem fun {a b} ha hb hle => by
    rw [hsize a (h.mem a ha), hsize b (h.mem b hb)]
    exact hle
  sameSize := fun n hn hne => by
    rw [hsize n hn] at hne ⊢
    rw [hm n hn, hsize _ (h.mem _ (h.into n hn))]
    exact h.sameSize n hn hne
  largest := fun n hn hle => by
    rw [hm n hn]
    exact h.largest n hn fun k hk => by
      rw [← hsize k hk, ← hsize n hn]
      exact hle k hk
  zero := fun honly n hn hzero => by
    rw [hm n hn]
    exact h.zero (honly.congr hsize) n hn (by rw [← hsize n hn, hzero])
  strict := fun honly => (h.strict (honly.congr hsize)).imp_of_mem fun {a b} ha hb hlt => by
    rw [hsize a (h.mem a ha), hsize b (h.mem b hb)]
    exact hlt

namespace Collapsed

variable {done : List (List Nat × List Nat)} {m m' : Nat → Nat} {h₀ h h' : History E}
  {g₀ g g' : TypeGraph} {c leaders : List Nat}

omit [LawfulIntEqClasses E] in
/-- The nodes of a component that was not collapsed yet are in the system. -/
theorem mem_layouts (hc : Collapsed done m h₀ g₀ h g) (hnew : ∀ d ∈ done, List.Disjoint d.1 c)
    (hlayouts : ∀ n ∈ c, n ∈ h₀.system.layouts) : ∀ n ∈ c, n ∈ h.system.layouts := fun n hn =>
  (hc.layouts n).mpr ⟨hlayouts n hn, hc.outside n fun d hd hnd => hnew d hd hnd hn⟩

omit [LawfulIntEqClasses E] in
/-- Another component collapses. -/
theorem collapse (hc : Collapsed done m h₀ g₀ h g) (hnew : ∀ d ∈ done, List.Disjoint d.1 c)
    (hlayouts : ∀ n ∈ c, n ∈ h₀.system.layouts) (hc' : Collapses c m' leaders h g h' g') :
    Collapsed (done ++ [(c, leaders)]) (m' ∘ m) h₀ g₀ h' g' := by
  have hmem : ∀ {d : List Nat × List Nat}, d ∈ done ++ [(c, leaders)] →
      d ∈ done ∨ d = (c, leaders) := by simp
  have hfix : ∀ n ∈ c, m n = n := fun n hn => hc.outside n fun d hd hnd => hnew d hd hnd hn
  have hold : ∀ d ∈ done, ∀ l ∈ d.2, l ∉ c := fun d hd l hl hlc =>
    hnew d hd ((hc.leads d hd).mem l hl) hlc
  have hleft := hc.mem_layouts hnew hlayouts
  refine ⟨hc'.stores, hc'.nid.trans hc.nid, ?_, fun n => ?_,
    fun n hn => hc'.maps _ (hc.maps n hn), fun n hn => ?_,
    fun hsized => hc'.sized (hc.sized hsized), fun n hn => ?_, fun d hd => ?_,
    fun a t b hedge => ?_, fun d hd a ha b hb t ht => ?_⟩
  · simp [hc'.owner, hc.owner, Function.comp_def]
  · rw [hc'.layouts, hc.layouts, Function.comp_apply]
    constructor
    · rintro ⟨⟨hn, hm⟩, hm'⟩
      exact ⟨hn, by rw [hm, hm']⟩
    · rintro ⟨hn, hm⟩
      have hleft' : n ∈ h'.system.layouts := hm ▸ hc'.maps _ (hc.maps n hn)
      obtain ⟨hn', hm'⟩ := (hc'.layouts n).mp hleft'
      exact ⟨⟨hn, ((hc.layouts n).mp hn').2⟩, hm'⟩
  · rw [hc'.size n hn, hc.size n ((hc'.layouts n).mp hn).1]
  · rw [Function.comp_apply, hc.outside n fun d hd => hn d (List.mem_append_left _ hd)]
    exact hc'.outside n (hn (c, leaders) (by simp))
  · rcases hmem hd with hd | rfl
    · refine (hc.leads d hd).congr (fun _ _ => rfl) fun n hn => ?_
      exact hc'.outside _ (hold d hd _ ((hc.leads d hd).into n hn))
    · refine hc'.leads.congr (fun n hn => (hc.size n (hleft n hn)).symm) fun n hn => ?_
      rw [Function.comp_apply, hfix n hn]
  · rcases (hc'.edges a t b).mp hedge with ⟨⟨-, a₁, b₁, hedge₁, rfl, rfl⟩, -⟩ | ⟨ht, hpair⟩
    · rcases hc.edges a₁ t b₁ hedge₁ with ⟨a₀, b₀, hedge₀, rfl, rfl⟩ | ⟨ht, d, hd, hpair⟩
      · exact Or.inl ⟨a₀, b₀, hedge₀, rfl, rfl⟩
      · have ha := hc'.outside a₁ (hold d hd a₁ (hpair.subset (by simp)))
        have hb := hc'.outside b₁ (hold d hd b₁ (hpair.subset (by simp)))
        rw [ha, hb]
        exact Or.inr ⟨ht, d, List.mem_append_left _ hd, hpair⟩
    · exact Or.inr ⟨ht, (c, leaders), by simp, hpair⟩
  · have hback : ∀ {l k : Nat}, l ∉ c → m' k = l → k = l := by
      intro l k hl hk
      by_cases hkc : k ∈ c
      · exact absurd (hk ▸ hc'.leads.mem _ (hc'.leads.into k hkc)) hl
      · exact (hc'.outside k hkc).symm.trans hk
    rw [hc'.edges]
    rcases hmem hd with hd | rfl
    · have hac := hold d hd a ha
      have hbc := hold d hd b hb
      rw [← hc.within d hd a ha b hb t ht]
      constructor
      · rintro (⟨⟨-, a₁, b₁, hedge, ha₁, hb₁⟩, -⟩ | ⟨-, hpair⟩)
        · rw [← hback hac ha₁, ← hback hbc hb₁]
          exact hedge
        · exact absurd (hc'.leads.mem a (hpair.subset (by simp))) hac
      · intro hedge
        refine Or.inl ⟨⟨g.loopless hedge, a, b, hedge, hc'.outside a hac, hc'.outside b hbc⟩, ?_⟩
        rintro ⟨hal, -, -⟩
        exact hac (hc'.leads.mem a hal)
    · refine or_iff_right ?_
      rintro ⟨-, hnot⟩
      exact hnot ⟨ha, ht, hb⟩

end Collapsed

/-- The components that are left to collapse. -/
structure Remaining (h₀ : History E) (done : List (List Nat × List Nat))
    (components : List (List Nat)) : Prop where
  new : ∀ d ∈ done, ∀ c ∈ components, List.Disjoint d.1 c
  disjoint : components.Pairwise List.Disjoint
  nonempty : ∀ c ∈ components, c ≠ []
  nodup : ∀ c ∈ components, c.Nodup
  layouts : ∀ c ∈ components, ∀ n ∈ c, n ∈ h₀.system.layouts

omit [IntEqClasses E] [LawfulIntEqClasses E] in
theorem Remaining.tail {h₀ : History E} {done : List (List Nat × List Nat)} {c : List Nat}
    {components : List (List Nat)} (h : Remaining h₀ done (c :: components)) (leaders : List Nat) :
    Remaining h₀ (done ++ [(c, leaders)]) components where
  new := fun d hd e he => by
    rcases List.mem_append.mp hd with hd | hd
    · exact h.new d hd e (List.mem_cons_of_mem _ he)
    · obtain rfl := List.mem_singleton.mp hd
      exact (List.pairwise_cons.mp h.disjoint).1 e he
  disjoint := (List.pairwise_cons.mp h.disjoint).2
  nonempty := fun e he => h.nonempty e (List.mem_cons_of_mem _ he)
  nodup := fun e he => h.nodup e (List.mem_cons_of_mem _ he)
  layouts := fun e he => h.layouts e (List.mem_cons_of_mem _ he)

namespace Collapsed

variable {done : List (List Nat × List Nat)} {m : Nat → Nat} {h₀ h : History E}
  {g₀ g : TypeGraph} {c : List Nat} {components : List (List Nat)}

omit [LawfulIntEqClasses E] in
theorem mem_layouts_of_remaining (hc : Collapsed done m h₀ g₀ h g)
    (hr : Remaining h₀ done (c :: components)) : ∀ n ∈ c, n ∈ h.system.layouts :=
  hc.mem_layouts (fun d hd => hr.new d hd c List.mem_cons_self) (hr.layouts c List.mem_cons_self)

theorem collapseSCC (hc : Collapsed done m h₀ g₀ h g) (hr : Remaining h₀ done (c :: components))
    {s' : LayoutTypeSystem E} (hcollapse : h.system.collapseSCC c = some s') :
    ∃ h' g' m' leaders, h'.system = s' ∧
      Collapsed (done ++ [(c, leaders)]) (m' ∘ m) h₀ g₀ h' g' := by
  obtain ⟨h', g', m', leaders, rfl, hc'⟩ := collapseSCC_collapses hc.stores
    (hr.nodup c List.mem_cons_self) (hc.mem_layouts_of_remaining hr) hcollapse
  exact ⟨h', g', m', leaders, rfl, hc.collapse (fun d hd => hr.new d hd c List.mem_cons_self)
    (hr.layouts c List.mem_cons_self) hc'⟩

/-- All components of a list collapse. -/
theorem foldlM (components : List (List Nat)) :
    ∀ {done : List (List Nat × List Nat)} {m : Nat → Nat} {h : History E} {g : TypeGraph}
      {s' : LayoutTypeSystem E}, Collapsed done m h₀ g₀ h g → Remaining h₀ done components →
      components.foldlM LayoutTypeSystem.collapseSCC h.system = some s' →
      ∃ h' g' m' done', h'.system = s' ∧ Collapsed done' m' h₀ g₀ h' g' ∧
        done'.map Prod.fst = done.map Prod.fst ++ components := by
  induction components with
  | nil =>
    intro done m h g s' hc _ hfold
    cases hfold
    exact ⟨h, g, m, done, rfl, hc, by simp⟩
  | cons c components ih =>
    intro done m h g s' hc hr hfold
    obtain ⟨s₁, hone, hrest⟩ := Option.bind_eq_some_iff.mp hfold
    obtain ⟨h₁, g₁, m₁, leaders, rfl, hc₁⟩ := hc.collapseSCC hr hone
    obtain ⟨h', g', m', done', rfl, hc', hdone⟩ := ih hc₁ (hr.tail leaders) hrest
    exact ⟨h', g', m', done', rfl, hc', by simpa using hdone⟩

end Collapsed

/-! ## Edges between components -/

omit [LawfulIntEqClasses E] in
theorem idxOf_lt_of_infix {l : List Nat} (hnodup : l.Nodup) {a b : Nat} (h : [a, b] <:+: l) :
    l.idxOf a < l.idxOf b := by
  obtain ⟨init, last, rfl⟩ := h
  have hinit := List.disjoint_of_nodup_append (List.nodup_append.mp hnodup).1
  have ha : a ∉ init := fun hmem => hinit hmem (by simp)
  have hb : b ∉ init := fun hmem => hinit hmem (by simp)
  have hne : a ≠ b := by
    rintro rfl
    simp [List.nodup_append] at hnodup
  rw [List.append_assoc, List.idxOf_append_of_notMem ha, List.idxOf_append_of_notMem hb]
  simp [hne]

namespace Collapsed

variable {done : List (List Nat × List Nat)} {m : Nat → Nat} {h₀ h : History E}
  {g₀ g : TypeGraph} {isEdge : TypeLinkTag → Bool}

omit [LawfulIntEqClasses E]

/-- A node and what is left of it are in one component. -/
theorem mutual_left (hc : Collapsed done m h₀ g₀ h g)
    (hcomp : Components (Linked isEdge h₀.system) (done.map Prod.fst)) (n : Nat) :
    Mutual (Linked isEdge h₀.system) n (m n) := by
  by_cases hn : ∃ c ∈ done, n ∈ c.1
  · obtain ⟨c, hcd, hnc⟩ := hn
    have hleads := hc.leads c hcd
    exact (hcomp.component c.1 (List.mem_map_of_mem hcd) n hnc _).mp
      (hleads.mem _ (hleads.into n hnc))
  · rw [hc.outside n fun c hcd hnc => hn ⟨c, hcd, hnc⟩]
    exact Mutual.refl _ n

/-- Two nodes that are left of a component are among its leaders. -/
theorem exists_leaders (hc : Collapsed done m h₀ g₀ h g)
    (hcomp : Components (Linked isEdge h₀.system) (done.map Prod.fst)) {a b : Nat}
    (hab : Mutual (Linked isEdge h₀.system) a b) (hne : a ≠ b) :
    ∃ c ∈ done, m a ∈ c.2 ∧ m b ∈ c.2 := by
  obtain ⟨nodes, hnodes, ha⟩ := hcomp.covers a b hab hne
  obtain ⟨c, hcd, rfl⟩ := List.mem_map.mp hnodes
  have hb := (hcomp.component c.1 (List.mem_map_of_mem hcd) a ha b).mpr hab
  exact ⟨c, hcd, (hc.leads c hcd).into a ha, (hc.leads c hcd).into b hb⟩

/-- The leaders of all components are distinct. -/
theorem nodup_leaders (hc : Collapsed done m h₀ g₀ h g)
    (hcomp : Components (Linked isEdge h₀.system) (done.map Prod.fst)) :
    (done.map Prod.snd).flatten.Nodup := by
  refine List.nodup_flatten.mpr ⟨?_, ?_⟩
  · rintro l hl
    obtain ⟨c, hcd, rfl⟩ := List.mem_map.mp hl
    exact (hc.leads c hcd).nodup
  · refine List.pairwise_map.mpr ((List.pairwise_map.mp hcomp.disjoint).imp_of_mem ?_)
    exact fun {c d} hcd hdd hdisjoint n hnc hnd =>
      hdisjoint ((hc.leads c hcd).mem n hnc) ((hc.leads d hdd).mem n hnd)

/-- The edges that are left lead where the nodes could be reached before. -/
theorem reaches (hs : Stores h₀ g₀) (hc : Collapsed done m h₀ g₀ h g)
    (hcomp : Components (Linked isEdge h₀.system) (done.map Prod.fst)) {a b : Nat}
    (hab : Linked isEdge h.system a b) : ReflTransGen (Linked isEdge h₀.system) a b := by
  obtain ⟨t, ht, hedge⟩ := (hc.stores.represents.linked_iff isEdge a b).mp hab
  rcases hc.edges a t b hedge with ⟨a₀, b₀, hedge₀, rfl, rfl⟩ | ⟨-, c, hcd, hpair⟩
  · have hlink := (hs.represents.linked_iff isEdge a₀ b₀).mpr ⟨t, ht, hedge₀⟩
    exact ((hc.mutual_left hcomp a₀).2.tail hlink).trans (hc.mutual_left hcomp b₀).1
  · have hmem : ∀ n ∈ [a, b], n ∈ c.1 := fun n hn => (hc.leads c hcd).mem n (hpair.subset hn)
    exact ((hcomp.component c.1 (List.mem_map_of_mem hcd) a (hmem a (by simp)) b).mp
      (hmem b (by simp))).1

/-- An edge that is left within a component leads from a leader to the next. -/
theorem next_of_linked (hc : Collapsed done m h₀ g₀ h g)
    (hcomp : Components (Linked isEdge h₀.system) (done.map Prod.fst))
    (hpointer : ∀ t, isEdge t → isPointerEdge t = false) {a b : Nat}
    (hab : Linked isEdge h.system a b) (hmutual : Mutual (Linked isEdge h₀.system) a b) :
    isEdge offset0Tag ∧ ∃ c ∈ done, [a, b] <:+: c.2 := by
  obtain ⟨t, ht, hedge⟩ := (hc.stores.represents.linked_iff isEdge a b).mp hab
  have hfixed : ∀ n ∈ g.vertices, m n = n := fun n hn =>
    ((hc.layouts n).mp ((hc.stores.represents.vertices n).mpr hn)).2
  obtain ⟨c, hcd, ha, hb⟩ := hc.exists_leaders hcomp hmutual (g.loopless hedge)
  rw [hfixed a (g.source_mem hedge)] at ha
  rw [hfixed b (g.target_mem hedge)] at hb
  obtain ⟨rfl, hpair⟩ := (hc.within c hcd a ha b hb t (hpointer t ht)).mp hedge
  exact ⟨ht, c, hcd, hpair⟩

/-- No cycle of the collapsed edges is left. -/
theorem acyclic (hs : Stores h₀ g₀) (hc : Collapsed done m h₀ g₀ h g)
    (hcomp : Components (Linked isEdge h₀.system) (done.map Prod.fst))
    (hpointer : ∀ t, isEdge t → isPointerEdge t = false) :
    Acyclic (Linked isEdge h.system) := by
  refine acyclic_of_lt (r := Linked isEdge h₀.system)
    (fun n => (done.map Prod.snd).flatten.idxOf n) (fun a b hab => hc.reaches hs hcomp hab) fun a b hab hba => ?_
  obtain ⟨-, c, hcd, hpair⟩ := hc.next_of_linked hcomp hpointer hab ⟨hc.reaches hs hcomp hab, hba⟩
  exact idxOf_lt_of_infix (hc.nodup_leaders hcomp)
    (hpair.trans (List.infix_of_mem_flatten (List.mem_map_of_mem hcd)))

/-- No edge is left at all if every edge was on a cycle, and the new ones are of another kind. -/
theorem not_linked (hs : Stores h₀ g₀) (hc : Collapsed done m h₀ g₀ h g)
    (hcomp : Components (Linked isEdge h₀.system) (done.map Prod.fst))
    (hpointer : ∀ t, isEdge t → isPointerEdge t = false) (hnew : isEdge offset0Tag = false)
    (hcycle : ∀ a b, Linked isEdge h₀.system a b → ReflTransGen (Linked isEdge h₀.system) b a)
    (a b : Nat) : ¬ Linked isEdge h.system a b := by
  intro hab
  have hmutual : ∀ {x y}, ReflTransGen (Linked isEdge h₀.system) x y →
      ReflTransGen (Linked isEdge h₀.system) y x := by
    intro x y hxy
    induction hxy with
    | refl => exact ReflTransGen.refl
    | tail _ hedge ih => exact (hcycle _ _ hedge).trans ih
  have hreach := hc.reaches hs hcomp hab
  obtain ⟨hoff, -⟩ := hc.next_of_linked hcomp hpointer hab ⟨hreach, hmutual hreach⟩
  rw [hnew] at hoff
  cases hoff

end Collapsed

/-! ## The classes of a component -/

/-- The nodes of a component have become the classes of a chain of leaders. -/
structure IsChain (s s' : LayoutTypeSystem E) (c : Set Nat) (leaders : List Nat) : Prop where
  mem : ∀ l ∈ leaders, l ∈ c ∧ l ∈ s'.layouts
  covers : ∀ n ∈ c, ∃ l ∈ leaders, s'.eqClasses.haveSameEqClass n l = true
  apart : leaders.Pairwise fun a b => s'.eqClasses.haveSameEqClass a b = false
  sameSize : ∀ a ∈ c, ∀ b ∈ c, (s.nodes a).size = (s.nodes b).size →
    s'.eqClasses.haveSameEqClass a b = true
  empty : ∀ n ∈ c, (s.nodes n).size = 0 → ∀ k ∈ c,
    (∀ k' ∈ c, (s.nodes k').size ≤ (s.nodes k).size) → s'.eqClasses.haveSameEqClass n k = true
  descending : leaders.Pairwise fun a b => (s'.nodes b).size < (s'.nodes a).size
  links : ∀ a ∈ leaders, ∀ b ∈ leaders, ∀ t, isPointerEdge t = false →
    (⟨b, t⟩ ∈ (s'.nodes a).successors ↔ t = offset0Tag ∧ [a, b] <:+: leaders)

namespace Collapsed

variable {done : List (List Nat × List Nat)} {m : Nat → Nat} {h₀ h : History E}
  {g₀ g : TypeGraph} {isEdge : TypeLinkTag → Bool}

omit [LawfulIntEqClasses E] in
/-- Two nodes are in one class when the same node is left of them. -/
theorem haveSameEqClass_iff (hs : Stores h₀ g₀) (hc : Collapsed done m h₀ g₀ h g) {a b : Nat}
    (ha : a ∈ h₀.system.layouts) (hb : b ∈ h₀.system.layouts) :
    h.system.eqClasses.haveSameEqClass a b = true ↔ m a = m b := by
  have hlt : ∀ n ∈ h₀.system.layouts, n < h.system.nid := fun n hn =>
    hc.nid ▸ hs.invariant.created n hn
  rw [hc.stores.invariant.consistent.classes a (hlt a ha) b (hlt b hb)]
  simp [hc.owner, hs.invariant.own a ha, hs.invariant.own b hb]

omit [LawfulIntEqClasses E] in
theorem isChain (hs : Stores h₀ g₀) (hc : Collapsed done m h₀ g₀ h g) {c : List Nat × List Nat}
    (hcd : c ∈ done) (hlayouts : ∀ n ∈ c.1, n ∈ h₀.system.layouts)
    (honly : OnlyLargestRepeats h₀.system {n | n ∈ c.1}) :
    IsChain h₀.system h.system {n | n ∈ c.1} c.2 := by
  have hleads := hc.leads c hcd
  have hleft : ∀ l ∈ c.2, l ∈ h.system.layouts := fun l hl =>
    (hc.layouts l).mpr ⟨hlayouts l (hleads.mem l hl), hleads.fixed l hl⟩
  have hclass : ∀ {a b : Nat}, a ∈ c.1 → b ∈ c.1 →
      (h.system.eqClasses.haveSameEqClass a b = true ↔ m a = m b) := fun ha hb =>
    hc.haveSameEqClass_iff hs (hlayouts _ ha) (hlayouts _ hb)
  have hhead : ∀ {a b : Nat}, c.2.head? = some (m a) → c.2.head? = some (m b) → m a = m b :=
    fun ha hb => Option.some.inj (ha.symm.trans hb)
  refine ⟨fun l hl => ⟨hleads.mem l hl, hleft l hl⟩, fun n hn => ?_, ?_, fun a ha b hb hsize => ?_,
    fun n hn hzero k hk hle => ?_, ?_, fun a ha b hb t ht => ?_⟩
  · refine ⟨m n, hleads.into n hn, (hclass hn (hleads.mem _ (hleads.into n hn))).mpr ?_⟩
    exact (hleads.fixed _ (hleads.into n hn)).symm
  · refine hleads.nodup.imp_of_mem fun {a b} ha hb hne => ?_
    rw [← Bool.not_eq_true, hclass (hleads.mem a ha) (hleads.mem b hb), hleads.fixed a ha,
      hleads.fixed b hb]
    exact hne
  · refine (hclass ha hb).mpr ?_
    by_cases hab : a = b
    · rw [hab]
    · have hlargest := honly a ha b hb hab hsize
      exact hhead (hleads.largest a ha hlargest) (hleads.largest b hb (hsize ▸ hlargest))
  · exact (hclass hn hk).mpr (hhead (hleads.zero honly n hn hzero) (hleads.largest k hk hle))
  · refine (hleads.strict honly).imp_of_mem fun {a b} ha hb hlt => ?_
    rw [hc.size a (hleft a ha), hc.size b (hleft b hb)]
    exact hlt
  · rw [hc.stores.represents.successors a (hleft a ha)]
    exact hc.within c hcd a ha b hb t ht

omit [LawfulIntEqClasses E] in
/-- A node that is alone in its component is not merged. -/
theorem left_of_alone (hc : Collapsed done m h₀ g₀ h g)
    (hcomp : Components (Linked isEdge h₀.system) (done.map Prod.fst)) {a : Nat}
    (halone : ∀ b, Mutual (Linked isEdge h₀.system) a b → a = b) : m a = a :=
  (halone (m a) (hc.mutual_left hcomp a)).symm

omit [LawfulIntEqClasses E] in
theorem isChain_of_alone (hs : Stores h₀ g₀) (hc : Collapsed done m h₀ g₀ h g)
    (hcomp : Components (Linked isEdge h₀.system) (done.map Prod.fst)) {a : Nat}
    (ha : a ∈ h₀.system.layouts)
    (halone : ∀ b, Mutual (Linked isEdge h₀.system) a b → a = b) :
    IsChain h₀.system h.system {b | Mutual (Linked isEdge h₀.system) a b} [a] := by
  have hleft : a ∈ h.system.layouts := (hc.layouts a).mpr ⟨ha, hc.left_of_alone hcomp halone⟩
  have hclass : h.system.eqClasses.haveSameEqClass a a = true :=
    (hc.haveSameEqClass_iff hs ha ha).mpr rfl
  refine ⟨fun l hl => ?_, fun n hn => ?_, List.pairwise_singleton _ _, fun x hx y hy _ => ?_,
    fun x hx _ y hy _ => ?_, List.pairwise_singleton _ _, fun x hx y hy t _ => ?_⟩
  · rw [List.mem_singleton.mp hl]
    exact ⟨Mutual.refl _ a, hleft⟩
  · exact ⟨a, List.mem_singleton_self a, halone n hn ▸ hclass⟩
  · rw [← halone x hx, ← halone y hy]
    exact hclass
  · rw [← halone x hx, ← halone y hy]
    exact hclass
  · rw [List.mem_singleton.mp hx, List.mem_singleton.mp hy]
    have hpair : ¬ [a, a] <:+: [a] := fun hpair => by simpa using hpair.length_le
    rw [hc.stores.represents.successors a hleft]
    exact ⟨fun hedge => absurd rfl (g.loopless hedge), fun h => absurd h.2 hpair⟩

end Collapsed

/-! ## All components -/

/-- Every component has become a chain, if no size but its largest one occurs twice in it. -/
def CollapsesTo (isEdge : TypeLinkTag → Bool) (s s' : LayoutTypeSystem E) : Prop :=
  ∀ a ∈ s.layouts, OnlyLargestRepeats s {b | Mutual (Linked isEdge s) a b} →
    ∃ leaders, IsChain s s' {b | Mutual (Linked isEdge s) a b} leaders

variable {isEdge : TypeLinkTag → Bool}

omit [LawfulIntEqClasses E] in
theorem Collapsed.collapsesTo {done : List (List Nat × List Nat)} {m : Nat → Nat} {h₀ : History E}
    {g₀ g : TypeGraph} (hs : Stores h₀ g₀) (hc : Collapsed done m h₀ g₀ h g)
    (hcomp : Components (Linked isEdge h₀.system) (done.map Prod.fst)) :
    CollapsesTo isEdge h₀.system h.system := by
  intro a ha honly
  by_cases halone : ∀ b, Mutual (Linked isEdge h₀.system) a b → a = b
  · exact ⟨[a], hc.isChain_of_alone hs hcomp ha halone⟩
  · push Not at halone
    obtain ⟨b, hab, hne⟩ := halone
    obtain ⟨nodes, hnodes, hac⟩ := hcomp.covers a b hab hne
    obtain ⟨c, hcd, rfl⟩ := List.mem_map.mp hnodes
    have heq : {b | Mutual (Linked isEdge h₀.system) a b} = {n | n ∈ c.1} :=
      Set.ext fun n => (hcomp.component c.1 hnodes a hac n).symm
    have hlayouts : ∀ n ∈ c.1, n ∈ h₀.system.layouts := fun n hn => by
      obtain ⟨_, hlinked⟩ := hcomp.exists_edge hnodes hn
      exact hlinked.1
    rw [heq] at honly ⊢
    exact ⟨c.2, hc.isChain hs hcd hlayouts honly⟩

omit [IntEqClasses E] [LawfulIntEqClasses E] in
/-- At first all components that were found are left to collapse. -/
theorem remaining_toCollapse {sccs : Nat → List (List Nat)}
    (hcomp : Components (Linked isEdge h.system) (toCollapse sccs h.system)) :
    Remaining h [] (toCollapse sccs h.system) where
  new := by simp
  disjoint := hcomp.disjoint
  nonempty := fun c hc => List.ne_nil_of_length_pos (Nat.lt_of_succ_lt (hcomp.large c hc))
  nodup := hcomp.nodup
  layouts := mem_layouts_of_toCollapse hcomp

theorem collapseSCCs_collapsed {g : TypeGraph} (hs : Stores h g) {sccs : Nat → List (List Nat)}
    (hcomp : Components (Linked isEdge h.system) (toCollapse sccs h.system))
    (hcollapse : collapseSCCs sccs h.system = some s') :
    ∃ h' g' m done, h'.system = s' ∧ Collapsed done m h g h' g' ∧
      done.map Prod.fst = toCollapse sccs h.system :=
  (Collapsed.refl hs).foldlM _ (remaining_toCollapse hcomp) hcollapse

end DataLayout
