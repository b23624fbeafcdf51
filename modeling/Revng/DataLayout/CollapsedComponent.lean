import Revng.DataLayout.MergedSizes

/-!
# What becomes of a component

After the leaders of a component have been linked there are no edges between them but pointers and
those from each to the next (`Collapses`).
-/

namespace DataLayout

open LayoutTypeSystem LabelledGraph

variable {E : Type} [IntEqClasses E] [LawfulIntEqClasses E]

/-! ## Linking the leaders -/

/-- Only links have changed. -/
structure KeepsNodes (h h' : History E) : Prop where
  nid : h'.system.nid = h.system.nid
  owner : h'.owner = h.owner
  layouts : h'.system.layouts = h.system.layouts
  size : ∀ n, (h'.system.nodes n).size = (h.system.nodes n).size
  nonScalar : ∀ n, (h'.system.nodes n).nonScalar = (h.system.nodes n).nonScalar

omit [IntEqClasses E] [LawfulIntEqClasses E] in
theorem KeepsNodes.refl (h : History E) : KeepsNodes h h :=
  ⟨rfl, rfl, rfl, fun _ => rfl, fun _ => rfl⟩

variable {h : History E}

omit [IntEqClasses E] [LawfulIntEqClasses E] in
theorem KeepsNodes.trans {h' h'' : History E} (hk : KeepsNodes h h') (hk' : KeepsNodes h' h'') :
    KeepsNodes h h'' where
  nid := hk'.nid.trans hk.nid
  owner := hk'.owner.trans hk.owner
  layouts := hk'.layouts.trans hk.layouts
  size := fun n => (hk'.size n).trans (hk.size n)
  nonScalar := fun n => (hk'.nonScalar n).trans (hk.nonScalar n)

omit [IntEqClasses E] [LawfulIntEqClasses E] in
theorem KeepsNodes.sized {h' : History E} (hk : KeepsNodes h h')
    (hsized : NonScalarSized h.system) : NonScalarSized h'.system := fun n hn => by
  rw [hk.size, hk.nonScalar]
  exact hsized n (hk.layouts ▸ hn)

variable {g : TypeGraph} {s' : LayoutTypeSystem E}

omit [LawfulIntEqClasses E] in
theorem eraseEdge_stores (hs : Stores h g) {src : Nat} {edge : Link}
    (herase : h.system.eraseEdge src edge = some s') :
    ∃ h', h'.system = s' ∧ Stores h' (g.disconnect src edge.tag edge.node) ∧ KeepsNodes h h' := by
  have hinv := hs.invariant.relinks (relinks_eraseEdge herase)
  obtain ⟨-, -, herase⟩ := Option.bind_eq_some_iff.mp herase
  cases herase
  refine ⟨_, rfl, ⟨hinv, hs.represents.eraseLink src edge.node edge.tag⟩, rfl, rfl, rfl, fun n => ?_,
    fun n => ?_⟩
  · simp only [eraseLink, modify_apply]
    split <;> split <;> rfl
  · simp only [eraseLink, modify_apply]
    split <;> split <;> rfl

variable {leaders : List Nat}

omit [LawfulIntEqClasses E] in
theorem eraseLeaderEdge_stores (hs : Stores h g) {leader : Nat} {edge : Link}
    (herase : eraseLeaderEdge leaders leader h.system edge = some s') :
    ∃ h' g', h'.system = s' ∧ Stores h' g' ∧ KeepsNodes h h' ∧
      ∀ a t b, (a, t, b) ∈ g'.edges ↔ (a, t, b) ∈ g.edges ∧
        ¬ (a = leader ∧ isPointerEdge t = false ∧ b ∈ leaders ∧ (⟨b, t⟩ : Link) = edge) := by
  unfold eraseLeaderEdge at herase
  split at herase
  next hpointer =>
    cases herase
    refine ⟨h, g, rfl, hs, KeepsNodes.refl _, fun a t b => (and_iff_left ?_).symm⟩
    rintro ⟨-, ht, -, rfl⟩
    simp [hpointer] at ht
  next hpointer =>
    split at herase
    next hnode =>
      cases herase
      refine ⟨h, g, rfl, hs, KeepsNodes.refl _, fun a t b => (and_iff_left ?_).symm⟩
      rintro ⟨-, -, hb, rfl⟩
      exact hnode hb
    next hnode =>
      obtain ⟨h', rfl, hs', hk⟩ := eraseEdge_stores hs herase
      refine ⟨h', _, rfl, hs', hk, fun a t b => and_congr_right fun _ => not_congr ?_⟩
      simp only [Set.mem_singleton_iff, Prod.mk.injEq]
      constructor
      · rintro ⟨rfl, rfl, rfl⟩
        exact ⟨rfl, by simpa using hpointer, not_not.mp hnode, rfl⟩
      · rintro ⟨rfl, -, -, rfl⟩
        exact ⟨rfl, rfl, rfl⟩

omit [LawfulIntEqClasses E] in
/-- The edges in a list that lead from a leader to leaders are erased. -/
theorem foldlM_eraseLeaderEdge_stores {leader : Nat} (edges : List Link) :
    ∀ {h : History E} {g : TypeGraph} {s' : LayoutTypeSystem E}, Stores h g →
      edges.foldlM (eraseLeaderEdge leaders leader) h.system = some s' →
      ∃ h' g', h'.system = s' ∧ Stores h' g' ∧ KeepsNodes h h' ∧
        ∀ a t b, (a, t, b) ∈ g'.edges ↔ (a, t, b) ∈ g.edges ∧
          ¬ (a = leader ∧ isPointerEdge t = false ∧ b ∈ leaders ∧ ⟨b, t⟩ ∈ edges) := by
  induction edges with
  | nil =>
    intro h g s' hs hfold
    cases hfold
    exact ⟨h, g, rfl, hs, KeepsNodes.refl _, by simp⟩
  | cons edge edges ih =>
    intro h g s' hs hfold
    obtain ⟨s₁, hone, hrest⟩ := Option.bind_eq_some_iff.mp hfold
    obtain ⟨h₁, g₁, rfl, hs₁, hk₁, hedges₁⟩ := eraseLeaderEdge_stores hs hone
    obtain ⟨h', g', rfl, hs', hk', hedges'⟩ := ih hs₁ hrest
    refine ⟨h', g', rfl, hs', hk₁.trans hk', fun a t b => ?_⟩
    rw [hedges', hedges₁, List.mem_cons]
    tauto

omit [LawfulIntEqClasses E] in
theorem eraseLeaderEdges_stores (hs : Stores h g) {leader : Nat}
    (hleader : leader ∈ h.system.layouts)
    (herase : eraseLeaderEdges leaders leader h.system = some s') :
    ∃ h' g', h'.system = s' ∧ Stores h' g' ∧ KeepsNodes h h' ∧
      ∀ a t b, (a, t, b) ∈ g'.edges ↔ (a, t, b) ∈ g.edges ∧
        ¬ (a = leader ∧ isPointerEdge t = false ∧ b ∈ leaders) := by
  obtain ⟨h', g', rfl, hs', hk, hedges⟩ := foldlM_eraseLeaderEdge_stores _ hs herase
  refine ⟨h', g', rfl, hs', hk, fun a t b => ?_⟩
  rw [hedges]
  refine and_congr_right fun hedge => not_congr ⟨?_, ?_⟩
  · rintro ⟨ha, ht, hb, -⟩
    exact ⟨ha, ht, hb⟩
  · rintro ⟨rfl, ht, hb⟩
    exact ⟨rfl, ht, hb, NeighborsSet.mem_inOrder.mpr ((hs.represents.successors a hleader b t).mpr hedge)⟩

def offset0Tag : TypeLinkTag := .instanceTag ⟨0, [], []⟩

omit [LawfulIntEqClasses E] in
theorem addInstanceLink_stores (hs : Stores h g) {src tgt : Nat} (hne : src ≠ tgt)
    (hadd : h.system.addInstanceLink (some src) (some tgt) ⟨0, [], []⟩ = some s') :
    ∃ h' g', h'.system = s' ∧ Stores h' g' ∧ KeepsNodes h h' ∧
      ∀ a t b, (a, t, b) ∈ g'.edges ↔
        (a = src ∧ t = offset0Tag ∧ b = tgt) ∨ (a, t, b) ∈ g.edges := by
  have hinv := hs.invariant.relinks (relinks_addInstanceLink hadd)
  have hoffset : ¬ 0xFFFF < 0 := by decide
  simp only [addInstanceLink, if_neg hoffset, addLink, if_neg hne] at hadd
  split at hadd
  next hmem =>
    cases hadd
    refine ⟨_, _, rfl, ⟨hinv, hs.represents.insertLink hmem.1 hmem.2 hne _⟩, ⟨rfl, rfl, rfl, ?_, ?_⟩, ?_⟩
    · intro n
      simp only [insertLink, modify_apply]
      split <;> split <;> rfl
    · intro n
      simp only [insertLink, modify_apply]
      split <;> split <;> rfl
    · intro a t b
      simp [LabelledGraph.connect, offset0Tag]
  · cases hadd

omit [LawfulIntEqClasses E] in
/-- The leaders of the list lose their edges to leaders, and get one to the next. -/
theorem linkLeaders_stores (list : List Nat) :
    ∀ {h : History E} {g : TypeGraph} {s' : LayoutTypeSystem E}, Stores h g → list.Nodup →
      (∀ l ∈ list, l ∈ h.system.layouts) → linkLeaders leaders list h.system = some s' →
      ∃ h' g', h'.system = s' ∧ Stores h' g' ∧ KeepsNodes h h' ∧
        ∀ a t b, (a, t, b) ∈ g'.edges ↔
          ((a, t, b) ∈ g.edges ∧ ¬ (a ∈ list ∧ isPointerEdge t = false ∧ b ∈ leaders)) ∨
            (t = offset0Tag ∧ [a, b] <:+: list) := by
  induction list with
  | nil =>
    intro h g s' hs _ _ hlink
    cases hlink
    exact ⟨h, g, rfl, hs, KeepsNodes.refl _, by simp⟩
  | cons leader rest ih =>
    intro h g s' hs hnodup hlayouts hlink
    obtain ⟨hleader, hrest⟩ := List.nodup_cons.mp hnodup
    cases rest with
    | nil =>
      obtain ⟨h', g', rfl, hs', hk, hedges⟩ :=
        eraseLeaderEdges_stores hs (hlayouts leader List.mem_cons_self) hlink
      refine ⟨h', g', rfl, hs', hk, fun a t b => ?_⟩
      rw [hedges]
      simp [List.infix_cons_iff]
    | cons next rest =>
      obtain ⟨s₁, herase, hlink⟩ := Option.bind_eq_some_iff.mp hlink
      obtain ⟨s₂, hadd, hlink⟩ := Option.bind_eq_some_iff.mp hlink
      obtain ⟨h₁, g₁, rfl, hs₁, hk₁, hedges₁⟩ :=
        eraseLeaderEdges_stores hs (hlayouts leader List.mem_cons_self) herase
      have hne : leader ≠ next := fun heq => hleader (heq ▸ List.mem_cons_self)
      obtain ⟨h₂, g₂, rfl, hs₂, hk₂, hedges₂⟩ := addInstanceLink_stores hs₁ hne hadd
      have hlayouts₂ : ∀ l ∈ next :: rest, l ∈ h₂.system.layouts := fun l hl => by
        rw [hk₂.layouts, hk₁.layouts]
        exact hlayouts l (List.mem_cons_of_mem _ hl)
      obtain ⟨h', g', rfl, hs', hk', hedges'⟩ := ih hs₂ hrest hlayouts₂ hlink
      refine ⟨h', g', rfl, hs', (hk₁.trans hk₂).trans hk', fun a t b => ?_⟩
      have hpair : [a, b] <:+: leader :: next :: rest ↔
          (a = leader ∧ b = next) ∨ [a, b] <:+: next :: rest := by
        rw [List.infix_cons_iff, List.cons_prefix_cons, List.cons_prefix_cons]
        simp
      have hmem : a ∈ leader :: next :: rest ↔ a = leader ∨ a ∈ next :: rest := List.mem_cons
      rw [hedges', hedges₂, hedges₁, hpair, hmem]
      by_cases ha : a = leader
      · subst ha
        simp only [true_and, hleader, false_and, not_false_eq_true, and_true, true_or]
        rw [and_or_left, or_comm (a := t = offset0Tag ∧ b = next), or_assoc]
      · simp only [ha, false_and, false_or, not_false_eq_true, and_true]

/-! ## Collapsing a component -/

/-- The component `c` has become its leaders. -/
structure Collapses (c : List Nat) (m : Nat → Nat) (leaders : List Nat) (h : History E)
    (g : TypeGraph) (h' : History E) (g' : TypeGraph) : Prop where
  stores : Stores h' g'
  nid : h'.system.nid = h.system.nid
  owner : h'.owner = fun x => (h.owner x).map m
  layouts : ∀ n, n ∈ h'.system.layouts ↔ n ∈ h.system.layouts ∧ m n = n
  maps : ∀ n ∈ h.system.layouts, m n ∈ h'.system.layouts
  size : ∀ n ∈ h'.system.layouts, (h'.system.nodes n).size = (h.system.nodes n).size
  sized : NonScalarSized h.system → NonScalarSized h'.system
  outside : ∀ n, n ∉ c → m n = n
  leads : Leads h.system c m leaders
  edges : ∀ a t b, (a, t, b) ∈ g'.edges ↔
    ((a ≠ b ∧ ∃ a₀ b₀, (a₀, t, b₀) ∈ g.edges ∧ m a₀ = a ∧ m b₀ = b) ∧
      ¬ (a ∈ leaders ∧ isPointerEdge t = false ∧ b ∈ leaders)) ∨
      (t = offset0Tag ∧ [a, b] <:+: leaders)

omit [IntEqClasses E] [LawfulIntEqClasses E] in
theorem OnlyLargestRepeats.perm {s : LayoutTypeSystem E} {c d : List Nat} (hperm : c.Perm d)
    (h : OnlyLargestRepeats s {n | n ∈ c}) : OnlyLargestRepeats s {n | n ∈ d} :=
  fun a ha b hb hne heq n hn =>
    h a (hperm.mem_iff.mpr ha) b (hperm.mem_iff.mpr hb) hne heq n (hperm.mem_iff.mpr hn)

omit [IntEqClasses E] [LawfulIntEqClasses E] in
theorem Leads.perm {s : LayoutTypeSystem E} {c d : List Nat} {m : Nat → Nat} (hperm : c.Perm d)
    (h : Leads s c m leaders) : Leads s d m leaders where
  nodup := h.nodup
  mem := fun l hl => hperm.mem_iff.mp (h.mem l hl)
  into := fun n hn => h.into n (hperm.mem_iff.mpr hn)
  fixed := h.fixed
  descending := h.descending
  sameSize := fun n hn => h.sameSize n (hperm.mem_iff.mpr hn)
  largest := fun n hn hle => h.largest n (hperm.mem_iff.mpr hn) fun k hk =>
    hle k (hperm.mem_iff.mp hk)
  zero := fun honly n hn => h.zero (honly.perm hperm.symm) n (hperm.mem_iff.mpr hn)
  strict := fun honly => h.strict (honly.perm hperm.symm)

omit [IntEqClasses E] [LawfulIntEqClasses E] in
theorem sortBySize_sorted (s : LayoutTypeSystem E) (c : List Nat) :
    (sortBySize s c).Pairwise fun a b => (s.nodes b).size ≤ (s.nodes a).size := by
  refine (List.pairwise_mergeSort ?_ ?_ c).imp fun h => of_decide_eq_true h
  · simp only [decide_eq_true_eq]
    omega
  · simp only [Bool.or_eq_true, decide_eq_true_eq]
    omega

/-- The leaders of a sorted component can be merged further. -/
theorem mergeSizes_mergeable (hs : Stores h g) {first : Nat} {rest : List Nat}
    (hm : Mergeable h.system first rest)
    (hsorted : rest.Pairwise fun a b => (h.system.nodes b).size ≤ (h.system.nodes a).size)
    (hsizes : mergeSizes (h.system.nodes first).size first [] rest h.system = some (leaders, s')) :
    ∃ h' g', h'.system = s' ∧
      Contracts (mergedInto (rest.filter fun n => (h.system.nodes n).size =
        (h.system.nodes first).size) first) h g h' g' ∧
      Mergeable h'.system first (rest.filter fun n => (h.system.nodes n).size ≠
        (h.system.nodes first).size) ∧
      leaders = first :: rest.filter fun n => (h.system.nodes n).size ≠
        (h.system.nodes first).size := by
  obtain ⟨h', g', rfl, hc, hleaders⟩ := mergeSizes_contracts rest hs hm hsorted hm.size hsizes
  rw [List.nil_append] at hc
  have hsublist : (rest.filter fun n => (h.system.nodes n).size ≠
      (h.system.nodes first).size).Sublist rest := List.filter_sublist
  have hleft : ∀ n ∈ first :: rest.filter fun n => (h.system.nodes n).size ≠
      (h.system.nodes first).size, n ∈ h'.system.layouts := by
    intro n hn
    refine (hc.layouts n).mpr ⟨hm.layouts n ((hsublist.cons_cons first).subset hn), ?_⟩
    rcases List.mem_cons.mp hn with rfl | hn
    · exact ite_self _
    · simp only [List.mem_filter, decide_eq_true_eq] at hn
      exact if_neg fun hmem => hn.2 (by simpa using (List.mem_filter.mp hmem).2)
  refine ⟨h', g', rfl, hc, ⟨hm.nodup.sublist (hsublist.cons_cons first), hleft, fun n hn => ?_⟩,
    hleaders⟩
  rw [hc.size n (hleft n (List.mem_cons_of_mem _ hn)), hc.size first (hleft _ List.mem_cons_self)]
  exact hm.size n (hsublist.subset hn)

/-- Merging by size makes leaders of a sorted component. -/
theorem merge_contracts (hs : Stores h g) {first : Nat} {rest leaders₁ : List Nat}
    {s₁ s₂ : LayoutTypeSystem E} (hnodup : (first :: rest).Nodup)
    (hlayouts : ∀ n ∈ first :: rest, n ∈ h.system.layouts)
    (hsorted : (first :: rest).Pairwise fun a b =>
      (h.system.nodes b).size ≤ (h.system.nodes a).size)
    (hsizes : mergeSizes (h.system.nodes first).size first [] rest h.system = some (leaders₁, s₁))
    (hempty : mergeEmpty leaders₁ s₁ = some (leaders, s₂)) :
    ∃ h' g' m, h'.system = s₂ ∧ Contracts m h g h' g' ∧
      (∀ n, n ∉ first :: rest → m n = n) ∧ Leads h.system (first :: rest) m leaders := by
  obtain ⟨hle, hsortedRest⟩ := List.pairwise_cons.mp hsorted
  obtain ⟨h₁, g₁, rfl, hc₁, hm, rfl⟩ :=
    mergeSizes_mergeable hs ⟨hnodup, hlayouts, hle⟩ hsortedRest hsizes
  obtain ⟨h₂, g₂, kept, empty, rfl, hc₂, rfl, hothers, hzero, hlast⟩ :=
    mergeEmpty_contracts hc₁.stores hm hempty
  have hsplit : SizeSplit h.system first rest kept empty := by
    have hsize : ∀ n ∈ kept ++ empty, (h₁.system.nodes n).size = (h.system.nodes n).size :=
      fun n hn => hc₁.size n (hm.layouts n (List.mem_cons_of_mem _ (hothers ▸ hn)))
    refine ⟨hnodup, hsorted, hothers, fun n hn => ?_, fun last hl hsmall => ?_⟩
    · rw [← hsize n (List.mem_append_right _ hn)]
      exact hzero n hn
    · refine hlast last (hothers ▸ hl) ?_
      rw [hsize last (List.mem_of_getLast? hl)]
      exact hsmall
  exact ⟨h₂, g₂, _, rfl, hc₁.trans hc₂, fun n hn => hsplit.left_of_notMem hn, hsplit.leads⟩

theorem collapseSCC_collapses (hs : Stores h g) {c : List Nat} (hnodup : c.Nodup)
    (hlayouts : ∀ n ∈ c, n ∈ h.system.layouts) (hcollapse : collapseSCC h.system c = some s') :
    ∃ h' g' m leaders, h'.system = s' ∧ Collapses c m leaders h g h' g' := by
  have hperm : (sortBySize h.system c).Perm c := List.mergeSort_perm _ _
  have hsorted := sortBySize_sorted h.system c
  unfold collapseSCC at hcollapse
  split at hcollapse
  · cases hcollapse
  next first rest hsort =>
    rw [hsort] at hperm hsorted
    obtain ⟨⟨leaders₁, s₁⟩, hsizes, hcollapse⟩ := Option.bind_eq_some_iff.mp hcollapse
    obtain ⟨⟨leaders, s₂⟩, hempty, hcollapse⟩ := Option.bind_eq_some_iff.mp hcollapse
    obtain ⟨h₂, g₂, m, rfl, hc, hout, hleads⟩ := merge_contracts hs (hperm.nodup_iff.mpr hnodup)
      (fun n hn => hlayouts n (hperm.mem_iff.mp hn)) hsorted hsizes hempty
    have hleads' := hleads.perm hperm
    have hout' : ∀ n, n ∉ c → m n = n := fun n hn => hout n fun hmem => hn (hperm.mem_iff.mp hmem)
    by_cases hlength : leaders.length < 2
    · simp only [hlength, if_true, Option.pure_def, Option.some.injEq] at hcollapse
      -- a single leader has no edges to leaders
      obtain ⟨l, rfl⟩ : ∃ l, leaders = [l] := by
        cases leaders with
        | nil => exact absurd (hleads.into first List.mem_cons_self) List.not_mem_nil
        | cons l rest =>
          rw [List.length_cons] at hlength
          exact ⟨l, by rw [List.length_eq_zero_iff.mp (by omega : rest.length = 0)]⟩
      refine ⟨h₂, g₂, m, [l], hcollapse, hc.stores, hc.nid, hc.owner, hc.layouts, hc.maps, hc.size, hc.sized,
        hout',
        hleads', fun a t b => ?_⟩
      have hpair : ¬ [a, b] <:+: [l] := fun hpair => by simpa using hpair.length_le
      rw [hc.quotient a t b, or_iff_left fun h => hpair h.2]
      refine (and_iff_left_of_imp ?_).symm
      rintro ⟨hne, -⟩ ⟨ha, -, hb⟩
      exact hne ((List.mem_singleton.mp ha).trans (List.mem_singleton.mp hb).symm)
    · simp only [hlength, if_false] at hcollapse
      have hleaders : ∀ l ∈ leaders, l ∈ h₂.system.layouts := fun l hl =>
        (hc.layouts l).mpr ⟨hlayouts l (hleads'.mem l hl), hleads'.fixed l hl⟩
      obtain ⟨h', g', rfl, hs', hk, hedges⟩ :=
        linkLeaders_stores leaders hc.stores hleads'.nodup hleaders hcollapse
      refine ⟨h', g', m, leaders, rfl, hs', hk.nid.trans hc.nid, hk.owner.trans hc.owner,
        fun n => ?_, fun n hn => ?_, fun n hn => ?_, fun hsized => hk.sized (hc.sized hsized), hout',
        hleads', fun a t b => ?_⟩
      · rw [hk.layouts, hc.layouts]
      · rw [hk.layouts]
        exact hc.maps n hn
      · rw [hk.size, hc.size n (hk.layouts ▸ hn)]
      · rw [hedges, hc.quotient]

end DataLayout
