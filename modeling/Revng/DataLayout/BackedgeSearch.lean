import Revng.DataLayout.RemoveBackedges
import Revng.Lib.FirstPaths

/-!
# What the search marks

The nodes on the stack are on the first path to its top, so an edge that leads to a node on the stack
closes a loop of this path.  In the end all such edges were seen, and the marked edges are those that
the root exposes (`mem_toRemove_iff`).
-/

namespace DataLayout

open OrderedGraph Relation

/-- The graph of the edges that the search runs over. -/
def edgeGraph (edges : Nat → List Link) : OrderedGraph Nat Link where
  out := fun n => {l | l ∈ edges n}
  tgt := Link.node

def hasOffset (l : Link) : Prop := isInstanceOffNon0 l.tag = true

def EdgeInfo.of (f : Nat × Link) : EdgeInfo := ⟨f.1, f.2.node, f.2.tag⟩

theorem EdgeInfo.of_injective : Function.Injective EdgeInfo.of := by
  rintro ⟨a, ⟨b, t⟩⟩ ⟨a', ⟨b', t'⟩⟩ h
  cases h
  rfl

namespace Search

variable {edges : Nat → List Link} {root : Nat} {d : Search} {p : List Link} {n i : Nat} {e : Link}
  {stack : List StackEntry}

/-! ## The stack -/

/-- The stack holds the nodes of a path from the root. -/
inductive Stacked (edges : Nat → List Link) (root : Nat) : List StackEntry → List Link → Prop
  | root (i : Nat) : Stacked edges root [⟨root, i⟩] []
  | push {n i : Nat} {stack : List StackEntry} {p : List Link} {e : Link}
      (h : Stacked edges root (⟨n, i + 1⟩ :: stack) p) (he : (edges n)[i]? = some e) (j : Nat) :
      Stacked edges root (⟨e.node, j⟩ :: ⟨n, i + 1⟩ :: stack) (p ++ [e])

theorem Stacked.advance (h : Stacked edges root (⟨n, i⟩ :: stack) p) (j : Nat) :
    Stacked edges root (⟨n, j⟩ :: stack) p := by
  cases h with
  | root => exact .root j
  | push h he => exact .push h he j

theorem Stacked.map_node {stack : List StackEntry} (h : Stacked edges root stack p) :
    stack.map StackEntry.node = ((edgeGraph edges).nodes root p).reverse := by
  induction h with
  | root => rfl
  | push _ _ _ ih =>
    rw [nodes_append, List.reverse_append, ← ih]
    rfl

theorem Stacked.ends_eq (h : Stacked edges root (⟨n, i⟩ :: stack) p) :
    (edgeGraph edges).ends root p = n := by
  cases h with
  | root => rfl
  | push h he =>
    rw [ends_append]
    rfl

/-- The edges with an offset on a path. -/
def tracked (edges : Nat → List Link) (root : Nat) (p : List Link) : List EdgeInfo :=
  ((((edgeGraph edges).arcs root p).filter fun f => isInstanceOffNon0 f.2.tag).map
    EdgeInfo.of).reverse

theorem mem_tracked {f : Nat × Link} :
    EdgeInfo.of f ∈ tracked edges root p ↔ f ∈ (edgeGraph edges).arcs root p ∧ hasOffset f.2 := by
  rw [tracked, List.mem_reverse, List.mem_map_of_injective EdgeInfo.of_injective, List.mem_filter]
  rfl

theorem tracked_append (h : (edgeGraph edges).ends root p = n) :
    tracked edges root (p ++ [e]) =
      if isInstanceOffNon0 e.tag then ⟨n, e.node, e.tag⟩ :: tracked edges root p
      else tracked edges root p := by
  rw [tracked, tracked, arcs_append, h]
  cases hoff : isInstanceOffNon0 e.tag <;> simp [arcs, hoff, EdgeInfo.of]

/-! ## The edges that were seen -/

/-- All edges of a node that is finished were seen, and those of a node on the stack up to where its
iterator is. -/
def Scanned (edges : Nat → List Link) (d : Search) (n : Nat) (e : Link) : Prop :=
  e ∈ edges n ∧ n ∈ d.visited ∧
    ∀ entry ∈ d.visitStack, entry.node = n → e ∈ (edges n).take entry.nextToVisitIt

/-- What was seen so far was visited, and the loops that were seen are marked. -/
structure Progress (edges : Nat → List Link) (root : Nat) (d : Search) : Prop where
  root_mem : root ∈ d.visited
  targets : ∀ n e, Scanned edges d n e → e.node ∈ d.visited
  nodup : d.toRemove.Nodup
  sound : ∀ info ∈ d.toRemove, ∃ f ∈ (edgeGraph edges).exposed hasOffset root, EdgeInfo.of f = info
  complete : ∀ q e, (edgeGraph edges).Closes root q e →
    Scanned edges d ((edgeGraph edges).ends root q) e →
    ∀ f, hasOffset f.2 → f ∈ (edgeGraph edges).arcs root q ∨
      f = ((edgeGraph edges).ends root q, e) → EdgeInfo.of f ∈ d.toRemove

/-- The search is at the end of the path `p`. -/
structure At (edges : Nat → List Link) (root : Nat) (d : Search) (p : List Link) : Prop where
  stacked : Stacked edges root d.visitStack p
  inStack : d.inStack = ((edgeGraph edges).nodes root p).toFinset
  visited : ∀ n ∈ (edgeGraph edges).nodes root p, n ∈ d.visited
  tracked : d.backedgesOnStack = tracked edges root p
  first : ∀ p₁ p₂, p = p₁ ++ p₂ → (edgeGraph edges).IsFirst root p₁
  levels : ∀ p₁ e p₂, p = p₁ ++ e :: p₂ → ∃ seen ⊆ d.visited,
    (edgeGraph edges).Level root p₁ e {n | n ∈ seen}

/-! ## What holds at the end of a path -/

theorem mem_take_of_lt {l : List Link} (hsorted : l.Pairwise (· < ·)) (he : l[i]? = some e)
    {f : Link} (hf : f ∈ l) (hlt : f < e) : f ∈ l.take i := by
  obtain ⟨j, hj, rfl⟩ := List.mem_iff_getElem.mp hf
  obtain ⟨hi, rfl⟩ := List.getElem?_eq_some_iff.mp he
  refine List.mem_take_iff_getElem.mpr ⟨j, ?_, rfl⟩
  by_contra hge
  have hle : i ≤ j := by omega
  rcases hle.lt_or_eq with hij | rfl
  · exact (List.pairwise_iff_getElem.mp hsorted i j hi hj hij).asymm hlt
  · exact hlt.false

theorem mem_take_succ {l : List Link} (he : l[i]? = some e) {f : Link} :
    f ∈ l.take (i + 1) ↔ f ∈ l.take i ∨ f = e := by
  rw [List.take_add_one, he]
  simp

namespace At

variable (h : At edges root d p) (hstack : d.visitStack = ⟨n, i⟩ :: stack)

include h

theorem isFirst : (edgeGraph edges).IsFirst root p := h.first p [] (by simp)

theorem nodup_nodes : (d.visitStack.map StackEntry.node).Nodup := by
  rw [h.stacked.map_node, List.nodup_reverse]
  exact h.isFirst.simple

theorem length_eq : d.visitStack.length = d.inStack.card := by
  have hlength := congrArg List.length h.stacked.map_node
  rw [List.length_map, List.length_reverse] at hlength
  rw [h.inStack, List.toFinset_card_of_nodup h.isFirst.simple, hlength]

include hstack

theorem ends_eq : (edgeGraph edges).ends root p = n := (hstack ▸ h.stacked).ends_eq

/-- The node at the top is on the stack once. -/
theorem entry_eq {entry : StackEntry} (hentry : entry ∈ d.visitStack) (hnode : entry.node = n) :
    entry = ⟨n, i⟩ := by
  have hnodup := h.nodup_nodes
  rw [hstack, List.map_cons, List.nodup_cons] at hnodup
  rw [hstack] at hentry
  rcases List.mem_cons.mp hentry with rfl | hmem
  · rfl
  · exact absurd (List.mem_map.mpr ⟨entry, hmem, hnode⟩) hnodup.1

theorem scanned_of_take {f : Link} (hf : f ∈ (edges n).take i) : Scanned edges d n f :=
  ⟨List.mem_of_mem_take hf, h.visited n (h.ends_eq hstack ▸ ends_mem_nodes),
    fun _ hentry hnode => by rwa [h.entry_eq hstack hentry hnode]⟩

omit hstack in
/-- All edges of a node that is off the path were seen. -/
theorem scanned_of_notMem {v : Nat} (hv : v ∈ d.visited)
    (hoff : v ∉ (edgeGraph edges).nodes root p) {f : Link} (hf : f ∈ edges v) :
    Scanned edges d v f := by
  refine ⟨hf, hv, fun entry hentry hnode => absurd ?_ hoff⟩
  rw [← List.mem_reverse, ← h.stacked.map_node]
  exact List.mem_map.mpr ⟨entry, hentry, hnode⟩

/-- When the iterator of the top goes on, one edge more was seen. -/
theorem scanned_of_advance (he : (edges n)[i]? = some e) {d' : Search}
    (hstack' : ∀ entry, entry = ⟨n, i + 1⟩ ∨ entry ∈ stack → entry ∈ d'.visitStack) {k : Nat}
    {f : Link} (hk : k ∈ d.visited) (hf : Scanned edges d' k f) :
    Scanned edges d k f ∨ (k = n ∧ f = e) := by
  obtain ⟨hmem, -, hseen⟩ := hf
  by_cases hkn : k = n
  · subst hkn
    have htop := (mem_take_succ he).mp (hseen ⟨k, i + 1⟩ (hstack' _ (Or.inl rfl)) rfl)
    refine htop.imp (fun htop => ⟨hmem, hk, fun entry hentry hnode => ?_⟩) fun heq => ⟨rfl, heq⟩
    rw [h.entry_eq hstack hentry hnode]
    exact htop
  · refine Or.inl ⟨hmem, hk, fun entry hentry hnode => ?_⟩
    rw [hstack] at hentry
    rcases List.mem_cons.mp hentry with rfl | hentry
    · exact absurd hnode.symm hkn
    · exact hseen entry (hstack' entry (Or.inr hentry)) hnode

end At

/-- One more edge of the top was seen. -/
theorem Progress.scan (hprog : Progress edges root d) (h : At edges root d p)
    (hstack : d.visitStack = ⟨n, i⟩ :: stack) {d' : Search}
    (hscanned : ∀ k f, Scanned edges d' k f → Scanned edges d k f ∨ (k = n ∧ f = e))
    (hvisited : d.visited ⊆ d'.visited) (htarget : e.node ∈ d'.visited)
    (hkept : ∀ info ∈ d.toRemove, info ∈ d'.toRemove) (hnodup : d'.toRemove.Nodup)
    (hsound : ∀ info ∈ d'.toRemove,
      ∃ f ∈ (edgeGraph edges).exposed hasOffset root, EdgeInfo.of f = info)
    (hloop : e.node ∈ (edgeGraph edges).nodes root p → ∀ f, hasOffset f.2 →
      f ∈ (edgeGraph edges).arcs root p ∨ f = (n, e) → EdgeInfo.of f ∈ d'.toRemove) :
    Progress edges root d' where
  root_mem := hvisited hprog.root_mem
  targets := fun k f hf => by
    rcases hscanned k f hf with hf | ⟨-, rfl⟩
    · exact hvisited (hprog.targets k f hf)
    · exact htarget
  nodup := hnodup
  sound := hsound
  complete := fun q f hcloses hf a ha hmem => by
    rcases hscanned _ f hf with hf | ⟨hends, rfl⟩
    · exact hkept _ (hprog.complete q f hcloses hf a ha hmem)
    · -- the first path to the top is the one on the stack
      obtain rfl : q = p := hcloses.first.unique h.isFirst (hends.trans (h.ends_eq hstack).symm)
      rw [hends] at hmem
      exact hloop hcloses.back a ha hmem

/-! ## The rounds of the loop -/

/-- What was visited when the top goes on with an edge. -/
theorem At.level (h : At edges root d p) (hprog : Progress edges root d)
    (hsorted : (edges n).Pairwise (· < ·)) (hstack : d.visitStack = ⟨n, i⟩ :: stack)
    (he : (edges n)[i]? = some e) : (edgeGraph edges).Level root p e {n | n ∈ d.visited} where
  onPath := h.visited
  closed := fun v hv hoff f hf => hprog.targets v f (h.scanned_of_notMem hv hoff hf)
  before := fun f hf hlt => by
    rw [h.ends_eq hstack] at hf
    exact hprog.targets n f (h.scanned_of_take hstack (mem_take_of_lt hsorted he hf hlt))

/-- A node that was not visited is pushed. -/
theorem At.push (h : At edges root d p) (hprog : Progress edges root d)
    (hsorted : (edges n).Pairwise (· < ·)) (hstack : d.visitStack = ⟨n, i⟩ :: stack)
    (he : (edges n)[i]? = some e) (hnew : e.node ∉ d.visited) {d' : Search}
    (hd' : d' = { d with
      visited := insert e.node d.visited
      inStack := insert e.node d.inStack
      visitStack := ⟨e.node, 0⟩ :: ⟨n, i + 1⟩ :: stack
      backedgesOnStack := if isInstanceOffNon0 e.tag then ⟨n, e.node, e.tag⟩ :: d.backedgesOnStack
        else d.backedgesOnStack }) :
    At edges root d' (p ++ [e]) ∧ Progress edges root d' := by
  subst hd'
  have hoff : e.node ∉ (edgeGraph edges).nodes root p := fun hmem => hnew (h.visited _ hmem)
  have hnodes : (edgeGraph edges).nodes root (p ++ [e]) =
      (edgeGraph edges).nodes root p ++ [e.node] := nodes_append
  have hends : (edgeGraph edges).ends root (p ++ [e]) = e.node := by
    rw [ends_append]
    rfl
  have hlevels : ∀ p₁ f p₂, p ++ [e] = p₁ ++ f :: p₂ → ∃ seen ⊆ d.visited,
      (edgeGraph edges).Level root p₁ f {n | n ∈ seen} := by
    intro p₁ f p₂ hsplit
    rcases List.eq_nil_or_concat' p₂ with rfl | ⟨p₃, x, rfl⟩
    · obtain ⟨rfl, heq⟩ := List.append_inj' hsplit rfl
      cases heq
      exact ⟨d.visited, Finset.Subset.refl _, h.level hprog hsorted hstack he⟩
    · rw [← List.cons_append, ← List.append_assoc] at hsplit
      exact h.levels p₁ f p₃ (List.append_inj' hsplit rfl).1
  have hfirst : (edgeGraph edges).IsFirst root (p ++ [e]) := by
    refine isFirst_of_levels (isPath_append.mpr ⟨h.isFirst.path, ?_, trivial⟩) ?_ ?_
    · rw [h.ends_eq hstack]
      exact List.mem_of_getElem? he
    · rw [hnodes]
      exact h.isFirst.simple.append (List.nodup_singleton _) (by simpa using hoff)
    · intro p₁ f p₂ hsplit
      obtain ⟨seen, hsub, hlevel⟩ := hlevels p₁ f p₂ hsplit
      exact ⟨_, hlevel, fun hmem => hnew (hsub (hends ▸ hmem))⟩
  refine ⟨⟨?_, ?_, ?_, ?_, ?_, ?_⟩, ?_⟩
  · exact .push ((hstack ▸ h.stacked).advance (i + 1)) he 0
  · simp only [h.inStack, hnodes, List.toFinset_append]
    ext k
    simp
  · intro k hk
    rw [hnodes] at hk
    rcases List.mem_append.mp hk with hk | hk
    · exact Finset.mem_insert_of_mem (h.visited k hk)
    · rw [List.mem_singleton.mp hk]
      exact Finset.mem_insert_self _ _
  · rw [tracked_append (h.ends_eq hstack), h.tracked]
  · intro p₁ p₂ hsplit
    rcases List.eq_nil_or_concat' p₂ with rfl | ⟨p₃, x, rfl⟩
    · rw [List.append_nil] at hsplit
      exact hsplit ▸ hfirst
    · rw [← List.append_assoc] at hsplit
      exact h.first p₁ p₃ (List.append_inj' hsplit rfl).1
  · intro p₁ f p₂ hsplit
    obtain ⟨seen, hsub, hlevel⟩ := hlevels p₁ f p₂ hsplit
    exact ⟨seen, hsub.trans (Finset.subset_insert _ _), hlevel⟩
  · refine hprog.scan h hstack (fun k f hf => ?_) (Finset.subset_insert _ _)
      (Finset.mem_insert_self _ _) (fun _ hmem => hmem) hprog.nodup hprog.sound
      fun hmem => absurd hmem hoff
    -- no edge of the new node was seen yet
    have hk : k ≠ e.node := by
      rintro rfl
      have htake := hf.2.2 ⟨e.node, 0⟩ List.mem_cons_self rfl
      simp at htake
    exact h.scanned_of_advance hstack he
      (fun entry hentry => List.mem_cons_of_mem _ (List.mem_cons.mpr hentry))
      (Finset.mem_of_mem_insert_of_ne hf.2.1 hk) hf

/-- An edge to a node that was visited is passed, and the loop it closes is marked. -/
theorem At.pass (h : At edges root d p) (hprog : Progress edges root d)
    (hstack : d.visitStack = ⟨n, i⟩ :: stack) (he : (edges n)[i]? = some e)
    (hvisited : e.node ∈ d.visited) {marked : List EdgeInfo}
    (hkept : ∀ info ∈ d.toRemove, info ∈ marked) (hnodup : marked.Nodup)
    (hsound : ∀ info ∈ marked, ∃ f ∈ (edgeGraph edges).exposed hasOffset root, EdgeInfo.of f = info)
    (hloop : e.node ∈ (edgeGraph edges).nodes root p → ∀ f, hasOffset f.2 →
      f ∈ (edgeGraph edges).arcs root p ∨ f = (n, e) → EdgeInfo.of f ∈ marked) :
    At edges root { d with visitStack := ⟨n, i + 1⟩ :: stack, toRemove := marked } p ∧
      Progress edges root { d with visitStack := ⟨n, i + 1⟩ :: stack, toRemove := marked } := by
  refine ⟨⟨(hstack ▸ h.stacked).advance (i + 1), h.inStack, h.visited, h.tracked, h.first, h.levels⟩,
    ?_⟩
  exact hprog.scan h hstack (fun k f hf => h.scanned_of_advance hstack he
    (fun entry hentry => List.mem_cons.mpr hentry) hf.2.1 hf) (Finset.Subset.refl _) hvisited hkept
    hnodup hsound hloop

theorem mark_eq (d : Search) (info : EdgeInfo) :
    ∃ marked, d.mark info = { d with toRemove := marked } ∧
      (d.toRemove.Nodup → marked.Nodup) ∧ ∀ x, x ∈ marked ↔ x ∈ d.toRemove ∨ x = info := by
  unfold mark
  split
  next hmem =>
    refine ⟨d.toRemove, rfl, id, fun x => (or_iff_left_of_imp ?_).symm⟩
    rintro rfl
    exact hmem
  next hmem =>
    exact ⟨_, rfl, fun hnodup => hnodup.append (List.nodup_singleton _) (by simpa using hmem),
      by simp⟩

theorem foldl_mark_eq (infos : List EdgeInfo) : ∀ d : Search,
    ∃ marked, infos.foldl mark d = { d with toRemove := marked } ∧
      (d.toRemove.Nodup → marked.Nodup) ∧ ∀ x, x ∈ marked ↔ x ∈ d.toRemove ∨ x ∈ infos := by
  induction infos with
  | nil => exact fun d => ⟨d.toRemove, rfl, id, by simp⟩
  | cons info infos ih =>
    intro d
    obtain ⟨marked, hone, hnodup, hmem⟩ := mark_eq d info
    obtain ⟨marked', hrest, hnodup', hmem'⟩ := ih (d.mark info)
    rw [hone] at hnodup'
    refine ⟨marked', by rw [List.foldl_cons, hrest, hone], fun h => hnodup' (hnodup h), fun x => ?_⟩
    rw [hmem', hone, List.mem_cons, ← or_assoc]
    exact or_congr_left (hmem x)

theorem closeLoop_eq (hstack : d.visitStack = ⟨n, i⟩ :: stack) (e : Link) :
    ∃ marked, closeLoop d e = some { d with toRemove := marked } ∧
      (d.toRemove.Nodup → marked.Nodup) ∧ ∀ x, x ∈ marked ↔ x ∈ d.toRemove ∨ x ∈ d.backedgesOnStack ∨
        (hasOffset e ∧ x = EdgeInfo.of (n, e)) := by
  obtain ⟨marked, hfold, hnodup, hmem⟩ := foldl_mark_eq d.backedgesOnStack.reverse d
  have hclose : closeLoop d e =
      if isInstanceOffNon0 e.tag then
        some ((d.backedgesOnStack.reverse.foldl mark d).mark ⟨n, e.node, e.tag⟩)
      else some (d.backedgesOnStack.reverse.foldl mark d) := by
    rw [closeLoop, hstack]
  rw [hclose, hfold]
  split
  next hoff =>
    obtain ⟨marked', hone, hnodup', hmem'⟩ :=
      mark_eq { d with toRemove := marked } ⟨n, e.node, e.tag⟩
    refine ⟨marked', congrArg some hone, fun h => hnodup' (hnodup h), fun x => ?_⟩
    rw [hmem', hmem, List.mem_reverse, or_assoc]
    simp [hasOffset, hoff, EdgeInfo.of]
  next hoff =>
    refine ⟨marked, rfl, hnodup, fun x => ?_⟩
    rw [hmem, List.mem_reverse]
    simp [hasOffset, hoff]

/-- The loop that an edge closes is marked. -/
theorem At.closeLoop (h : At edges root d p) (hprog : Progress edges root d)
    (hstack : d.visitStack = ⟨n, i⟩ :: stack) (he : (edges n)[i]? = some e)
    (hback : e.node ∈ (edgeGraph edges).nodes root p) :
    ∃ d', Search.closeLoop { d with visitStack := ⟨n, i + 1⟩ :: stack } e = some d' ∧
      d'.visited = d.visited ∧ d'.visitStack = ⟨n, i + 1⟩ :: stack ∧ At edges root d' p ∧
      Progress edges root d' := by
  obtain ⟨marked, hclose, hnodup, hmem⟩ :=
    closeLoop_eq (d := { d with visitStack := ⟨n, i + 1⟩ :: stack }) rfl e
  have hcloses : (edgeGraph edges).Closes root p e := by
    refine ⟨h.isFirst, ?_, hback⟩
    rw [h.ends_eq hstack]
    exact List.mem_of_getElem? he
  refine ⟨_, hclose, rfl, rfl, h.pass hprog hstack he (h.visited _ hback)
    (fun x hx => (hmem x).mpr (Or.inl hx)) (hnodup hprog.nodup) (fun x hx => ?_) fun _ f hoff hf => (hmem _).mpr ?_⟩
  · rcases (hmem x).mp hx with hx | hx | ⟨hoff, rfl⟩
    · exact hprog.sound x hx
    · have hx : x ∈ Search.tracked edges root p := h.tracked ▸ hx
      obtain ⟨f, -, rfl⟩ := List.mem_map.mp (List.mem_reverse.mp hx)
      obtain ⟨harc, hoff⟩ := mem_tracked.mp hx
      exact ⟨f, ⟨hoff, p, e, hcloses, Or.inl harc⟩, rfl⟩
    · exact ⟨(n, e), ⟨hoff, p, e, hcloses, Or.inr (by rw [h.ends_eq hstack])⟩, rfl⟩
  · rcases hf with harc | rfl
    · exact Or.inr (Or.inl (h.tracked ▸ mem_tracked.mpr ⟨harc, hoff⟩))
    · exact Or.inr (Or.inr ⟨hoff, rfl⟩)

/-- All edges of the top were seen when it is popped. -/
theorem Progress.pop (hprog : Progress edges root d) (hstack : d.visitStack = ⟨n, i⟩ :: stack)
    (hend : (edges n)[i]? = none) {d' : Search} (hvisited : d'.visited = d.visited)
    (hstack' : d'.visitStack = stack) (hmarked : d'.toRemove = d.toRemove) :
    Progress edges root d' := by
  have hscanned : ∀ k f, Scanned edges d' k f → Scanned edges d k f := by
    rintro k f ⟨hmem, hk, hseen⟩
    refine ⟨hmem, hvisited ▸ hk, fun entry hentry hnode => ?_⟩
    rw [hstack] at hentry
    rcases List.mem_cons.mp hentry with rfl | hentry
    · obtain rfl : n = k := hnode
      rwa [List.take_of_length_le (List.getElem?_eq_none_iff.mp hend)]
    · exact hseen entry (hstack' ▸ hentry) hnode
  refine ⟨hvisited ▸ hprog.root_mem, fun k f hf => hvisited ▸ hprog.targets k f (hscanned k f hf),
    hmarked ▸ hprog.nodup, hmarked ▸ hprog.sound, fun q f hcloses hf a ha hmem => ?_⟩
  rw [hmarked]
  exact hprog.complete q f hcloses (hscanned _ f hf) a ha hmem

/-- The path without its last edge. -/
theorem At.parent (h : At edges root d (p ++ [e])) {d' : Search} (hvisited : d'.visited = d.visited)
    (hstacked : Stacked edges root d'.visitStack p) (hin : d'.inStack = d.inStack.erase e.node)
    (htracked : d'.backedgesOnStack = Search.tracked edges root p) : At edges root d' p where
  stacked := hstacked
  inStack := by
    have hsimple := h.isFirst.simple
    rw [nodes_append] at hsimple
    have hoff : e.node ∉ (edgeGraph edges).nodes root p := fun hmem =>
      List.disjoint_of_nodup_append hsimple hmem (List.mem_singleton_self _)
    rw [hin, h.inStack, nodes_append, List.toFinset_append]
    ext k
    simp only [Finset.mem_erase, Finset.mem_union, List.mem_toFinset]
    constructor
    · rintro ⟨hne, hk | hk⟩
      · exact hk
      · exact absurd (List.mem_singleton.mp hk) hne
    · exact fun hk => ⟨fun heq => hoff (heq ▸ hk), Or.inl hk⟩
  visited := fun n hn => by
    rw [hvisited]
    exact h.visited n (nodes_append ▸ List.mem_append_left _ hn)
  tracked := htracked
  first := fun p₁ p₂ hsplit => h.first p₁ (p₂ ++ [e]) (by rw [hsplit, List.append_assoc])
  levels := fun p₁ f p₂ hsplit => by
    obtain ⟨seen, hsub, hlevel⟩ := h.levels p₁ f (p₂ ++ [e]) (by rw [hsplit]; simp)
    exact ⟨seen, hvisited ▸ hsub, hlevel⟩

/-- A node without further edges is popped. -/
theorem At.pop (h : At edges root d p) (hstack : d.visitStack = ⟨n, i⟩ :: stack) :
    ∃ d', Search.pop edges d = some d' ∧ d'.visited = d.visited ∧ d'.visitStack = stack ∧
      d'.toRemove = d.toRemove ∧ (stack = [] ∨ ∃ p', At edges root d' p') := by
  have hlength := h.length_eq
  have hmem : n ∈ d.inStack := by
    rw [h.inStack, List.mem_toFinset, ← h.ends_eq hstack]
    exact ends_mem_nodes
  have hstacked := h.stacked
  rw [hstack] at hstacked
  cases hstacked with
  | root =>
    refine ⟨{ d with inStack := d.inStack.erase root, visitStack := [] }, ?_, rfl, rfl, rfl,
      Or.inl rfl⟩
    simp only [Search.pop, guard, if_pos hlength]
    rw [hstack]
    simp [hmem]
  | @push m j stack q e hparent he =>
    have htracked := h.tracked
    rw [tracked_append hparent.ends_eq] at htracked
    have hpop : Search.pop edges d = some { d with
        inStack := d.inStack.erase e.node
        visitStack := ⟨m, j + 1⟩ :: stack
        backedgesOnStack := Search.tracked edges root q } := by
      simp only [Search.pop, guard, if_pos hlength]
      rw [hstack]
      cases hoff : isInstanceOffNon0 e.tag with
      | true =>
        rw [hoff, if_pos rfl] at htracked
        simp [hmem, he, hoff, htracked]
      | false =>
        rw [hoff, if_neg Bool.false_ne_true] at htracked
        simp [hmem, he, hoff, htracked]
    exact ⟨_, hpop, rfl, rfl, rfl, Or.inr ⟨q, h.parent rfl hparent rfl rfl⟩⟩

/-- How many rounds the nodes that were not visited and those on the stack can take. -/
def remaining (edges : Nat → List Link) (nodes : Finset Nat) (d : Search) : Nat :=
  ∑ n ∈ nodes \ d.visited, ((edges n).length + 1) +
    (d.visitStack.map fun entry => (edges entry.node).length - entry.nextToVisitIt + 1).sum

section Rounds

variable {nodes : Finset Nat} {d' : Search}

theorem remaining_pop (hstack : d.visitStack = ⟨n, i⟩ :: stack) (hvisited : d'.visited = d.visited)
    (hstack' : d'.visitStack = stack) : remaining edges nodes d' < remaining edges nodes d := by
  simp only [remaining, hstack, hvisited, hstack', List.map_cons, List.sum_cons]
  omega

theorem remaining_advance (hstack : d.visitStack = ⟨n, i⟩ :: stack) (he : (edges n)[i]? = some e)
    (hvisited : d'.visited = d.visited) (hstack' : d'.visitStack = ⟨n, i + 1⟩ :: stack) :
    remaining edges nodes d' < remaining edges nodes d := by
  obtain ⟨hi, -⟩ := List.getElem?_eq_some_iff.mp he
  simp only [remaining, hstack, hvisited, hstack', List.map_cons, List.sum_cons]
  omega

theorem remaining_push (hstack : d.visitStack = ⟨n, i⟩ :: stack) (he : (edges n)[i]? = some e)
    (hnew : e.node ∈ nodes \ d.visited) (hvisited : d'.visited = insert e.node d.visited)
    (hstack' : d'.visitStack = ⟨e.node, 0⟩ :: ⟨n, i + 1⟩ :: stack) :
    remaining edges nodes d' < remaining edges nodes d := by
  obtain ⟨hi, -⟩ := List.getElem?_eq_some_iff.mp he
  have hsum := Finset.add_sum_erase (nodes \ d.visited) (fun n => (edges n).length + 1) hnew
  simp only [remaining, hstack, hvisited, hstack', List.map_cons, List.sum_cons, Finset.sdiff_insert]
  omega

/-- What a round does, where the assertion about the sizes of the stacks holds. -/
theorem visitTop_eq (hlength : d.visitStack.length = d.inStack.card)
    (hstack : d.visitStack = ⟨n, i⟩ :: stack) :
    Search.visitTop edges d =
      match (edges n)[i]? with
      | none => Search.pop edges d
      | some e =>
        if e.node ∈ d.visited then
          if e.node ∈ d.inStack then
            Search.closeLoop { d with visitStack := ⟨n, i + 1⟩ :: stack } e
          else some { d with visitStack := ⟨n, i + 1⟩ :: stack }
        else some { d with
          visited := insert e.node d.visited
          inStack := insert e.node d.inStack
          visitStack := ⟨e.node, 0⟩ :: ⟨n, i + 1⟩ :: stack
          backedgesOnStack := if isInstanceOffNon0 e.tag then
            ⟨n, e.node, e.tag⟩ :: d.backedgesOnStack else d.backedgesOnStack } := by
  obtain ⟨visited, inStack, backedges, visitStack, toRemove⟩ := d
  obtain rfl : visitStack = ⟨n, i⟩ :: stack := hstack
  simp only [Search.visitTop, tryPushNextChild, guard, if_pos hlength]
  cases (edges n)[i]? with
  | none => rfl
  | some e =>
    by_cases hvisited : e.node ∈ visited
    · by_cases hback : e.node ∈ inStack
      · simp [hvisited, hback]
      · simp [hvisited, hback]
    · cases hoff : isInstanceOffNon0 e.tag <;> simp [hvisited, track, hoff]

/-- A round of the loop: no assertion fails, and there is less to do. -/
theorem At.visitTop (h : At edges root d p) (hprog : Progress edges root d)
    (hsorted : ∀ n, (edges n).Pairwise (· < ·))
    (hclosed : ∀ n ∈ nodes, ∀ e ∈ edges n, e.node ∈ nodes) (hnodes : d.visited ⊆ nodes) :
    ∃ d', Search.visitTop edges d = some d' ∧ Progress edges root d' ∧ d'.visited ⊆ nodes ∧
      remaining edges nodes d' < remaining edges nodes d ∧
      (d'.visitStack = [] ∨ ∃ p', At edges root d' p') := by
  have hlength := h.length_eq
  obtain ⟨n, i, stack, hstack⟩ : ∃ n i stack, d.visitStack = ⟨n, i⟩ :: stack := by
    have hstacked := h.stacked
    cases hd : d.visitStack with
    | nil =>
      rw [hd] at hstacked
      cases hstacked
    | cons entry stack => exact ⟨entry.node, entry.nextToVisitIt, stack, rfl⟩
  have htop : n ∈ nodes := hnodes (h.visited n (h.ends_eq hstack ▸ ends_mem_nodes))
  cases he : (edges n)[i]? with
  | none =>
    obtain ⟨d', hpop, hvisited, hstack', hmarked, hat⟩ := h.pop hstack
    have hround : Search.visitTop edges d = some d' := by
      rw [visitTop_eq hlength hstack, he]
      exact hpop
    exact ⟨d', hround, hprog.pop hstack he hvisited hstack' hmarked, hvisited ▸ hnodes,
      remaining_pop hstack hvisited hstack', hat.imp_left fun hnil => hstack'.trans hnil⟩
  | some e =>
    by_cases hvisited : e.node ∈ d.visited
    · by_cases hback : e.node ∈ d.inStack
      · have hpath : e.node ∈ (edgeGraph edges).nodes root p := by
          rwa [h.inStack, List.mem_toFinset] at hback
        obtain ⟨d', hclose, hvisited', hstack', hat, hprog'⟩ := h.closeLoop hprog hstack he hpath
        have hround : Search.visitTop edges d = some d' := by
          simpa only [visitTop_eq hlength hstack, he, if_pos hvisited, if_pos hback] using hclose
        exact ⟨d', hround, hprog', hvisited' ▸ hnodes,
          remaining_advance hstack he hvisited' hstack', Or.inr ⟨p, hat⟩⟩
      · have hpath : e.node ∉ (edgeGraph edges).nodes root p := by
          rwa [h.inStack, List.mem_toFinset] at hback
        obtain ⟨hat, hprog'⟩ := h.pass hprog hstack he hvisited (fun _ hmem => hmem) hprog.nodup
          hprog.sound fun hmem => absurd hmem hpath
        have hround : Search.visitTop edges d =
            some { d with visitStack := ⟨n, i + 1⟩ :: stack } := by
          simp only [visitTop_eq hlength hstack, he, if_pos hvisited, if_neg hback]
        exact ⟨_, hround, hprog', hnodes, remaining_advance hstack he rfl rfl, Or.inr ⟨p, hat⟩⟩
    · have hnew := hclosed n htop e (List.mem_of_getElem? he)
      obtain ⟨hat, hprog'⟩ := h.push hprog (hsorted n) hstack he hvisited rfl
      have hround : Search.visitTop edges d = some { d with
          visited := insert e.node d.visited
          inStack := insert e.node d.inStack
          visitStack := ⟨e.node, 0⟩ :: ⟨n, i + 1⟩ :: stack
          backedgesOnStack := if isInstanceOffNon0 e.tag then
            ⟨n, e.node, e.tag⟩ :: d.backedgesOnStack else d.backedgesOnStack } := by
        simp only [visitTop_eq hlength hstack, he, if_neg hvisited]
      exact ⟨_, hround, hprog', Finset.insert_subset hnew hnodes, remaining_push hstack he
        (Finset.mem_sdiff.mpr ⟨hnew, hvisited⟩) rfl rfl, Or.inr ⟨_, hat⟩⟩

/-- The loop ends before its bound. -/
theorem exists_visit (hsorted : ∀ n, (edges n).Pairwise (· < ·))
    (hclosed : ∀ n ∈ nodes, ∀ e ∈ edges n, e.node ∈ nodes) (fuel : Nat) :
    ∀ {d : Search}, Progress edges root d → d.visited ⊆ nodes →
      (d.visitStack = [] ∨ ∃ p, At edges root d p) → remaining edges nodes d ≤ fuel →
      ∃ d', visit edges fuel d = some d' ∧ Progress edges root d' ∧ d'.visitStack = [] := by
  induction fuel with
  | zero =>
    intro d hprog hnodes hat hfuel
    have hempty : d.visitStack = [] := by
      refine hat.resolve_right ?_
      rintro ⟨p, hat⟩
      obtain ⟨d', -, -, -, hless, -⟩ := hat.visitTop hprog hsorted hclosed hnodes
      omega
    exact ⟨d, if_pos hempty, hprog, hempty⟩
  | succ fuel ih =>
    intro d hprog hnodes hat hfuel
    by_cases hempty : d.visitStack = []
    · exact ⟨d, if_pos hempty, hprog, hempty⟩
    · obtain ⟨p, hat⟩ := hat.resolve_left hempty
      obtain ⟨d₁, hround, hprog₁, hnodes₁, hless, hat₁⟩ :=
        hat.visitTop hprog hsorted hclosed hnodes
      obtain ⟨d', hvisit, hprog', hempty'⟩ := ih hprog₁ hnodes₁ hat₁ (by omega)
      refine ⟨d', ?_, hprog', hempty'⟩
      rw [visit, if_neg hempty, hround]
      exact hvisit

theorem at_start (edges : Nat → List Link) (root : Nat) : At edges root (start root) [] where
  stacked := .root 0
  inStack := rfl
  visited := fun n hn => by simpa [nodes, start] using hn
  tracked := rfl
  first := fun p₁ p₂ hsplit => by
    obtain ⟨rfl, -⟩ := List.append_eq_nil_iff.mp hsplit.symm
    exact ⟨trivial, List.nodup_singleton root, fun q _ _ _ => not_lt.mp fun hlt => by cases hlt⟩
  levels := fun p₁ e p₂ hsplit => by simp at hsplit

theorem progress_start (edges : Nat → List Link) (root : Nat) :
    Progress edges root (start root) := by
  have hnone : ∀ n e, ¬ Scanned edges (start root) n e := by
    rintro n e ⟨-, hn, hseen⟩
    obtain rfl : n = root := by simpa [start] using hn
    have htake := hseen ⟨n, 0⟩ (by simp [start]) rfl
    simp at htake
  exact ⟨by simp [start], fun n e hseen => absurd hseen (hnone n e), List.nodup_nil,
    by simp [start], fun q e _ hseen => absurd hseen (hnone _ e)⟩

/-- The search marks the edges that the root exposes. -/
theorem exists_search (hsorted : ∀ n, (edges n).Pairwise (· < ·))
    (hclosed : ∀ n ∈ nodes, ∀ e ∈ edges n, e.node ∈ nodes) (hroot : root ∈ nodes) :
    ∃ d, visit edges (∑ n ∈ nodes, ((edges n).length + 1)) (start root) = some d ∧
      d.toRemove.Nodup ∧
      ∀ f, EdgeInfo.of f ∈ d.toRemove ↔ f ∈ (edgeGraph edges).exposed hasOffset root := by
  have hbound : remaining edges nodes (start root) ≤ ∑ n ∈ nodes, ((edges n).length + 1) := by
    have hsum := Finset.add_sum_erase nodes (fun n => (edges n).length + 1) hroot
    simp only [remaining, start, Finset.sdiff_singleton_eq_erase, List.map_cons, List.map_nil,
      List.sum_cons, List.sum_nil]
    omega
  obtain ⟨d, hvisit, hprog, hempty⟩ := exists_visit hsorted hclosed _ (progress_start edges root)
    (by simpa [start] using hroot) (Or.inr ⟨[], at_start edges root⟩) hbound
  have hscanned : ∀ n e, e ∈ edges n → n ∈ d.visited → Scanned edges d n e := fun n e he hn =>
    ⟨he, hn, by simp [hempty]⟩
  have hreached : ∀ n, ReflTransGen (edgeGraph edges).Linked root n → n ∈ d.visited := by
    intro n hn
    induction hn with
    | refl => exact hprog.root_mem
    | tail _ hedge ih =>
      obtain ⟨e, he, rfl⟩ := hedge
      exact hprog.targets _ e (hscanned _ e he ih)
  refine ⟨d, hvisit, hprog.nodup, fun f => ⟨fun hmem => ?_, ?_⟩⟩
  · obtain ⟨f', hf', heq⟩ := hprog.sound _ hmem
    rwa [← EdgeInfo.of_injective heq]
  · rintro ⟨hoff, q, e, hcloses, hf⟩
    refine hprog.complete q e hcloses (hscanned _ e hcloses.mem ?_) f hoff hf
    exact hreached _ (reaches_of_isPath hcloses.first.path)

end Rounds

end Search

end DataLayout
