import Revng.Support.Graphs

/-!
# Entry points of a graph

`entryPoints` takes the nodes without predecessors first, and then one node for each component that
nothing enters and that they do not reach.

To find such a component from one of its nodes it looks at the first component that the iterator
gives.  That one is at the end of the graph, not at its start, so a component that nothing enters
but that has an edge to another one is never found (`entryPoints_iff`).
-/

namespace Support

open Relation StrongComponents

/-! ## Covers -/

namespace Graph

variable {α : Type} (g : Graph α)

/-- Every node is reachable from one of the points. -/
def Covers (points : List α) : Prop := ∀ n, ∃ p ∈ points, ReflTransGen g.Edge p n

/-- No proper subset of the points will do. -/
def IsMinimalCover (points : List α) : Prop :=
  g.Covers points ∧ ∀ subset : List α, subset ⊆ points → g.Covers subset → points ⊆ subset

/-- No edge leaves the component of the node. -/
def IsEnd (a : α) : Prop := ∀ b c, Mutual g.Edge a b → g.Edge b c → Mutual g.Edge a c

/-- Every component that nothing enters is a node without predecessors, or at the end. -/
def SourcesEnd : Prop := ∀ a, IsSource g.Edge a → g.inverseChildren a ≠ [] → g.IsEnd a

/-- Such a component is all that its nodes reach. -/
theorem IsEnd.mutual {g : Graph α} {a b : α} (h : g.IsEnd a) (hab : ReflTransGen g.Edge a b) :
    Mutual g.Edge a b := by
  induction hab with
  | refl => exact .refl _ a
  | tail _ hstep ih => exact h _ _ ih hstep

end Graph

/-! ## Entry points -/

section

variable {α : Type} [DecidableEq α] (g : Graph α)

/-- A node in the first loop.  The state is the result and what was visited. -/
def visitEntry (postOrderExt : α → List α → List α) (state : List α × List α) (node : α) :
    List α × List α :=
  -- A node with predecessors is reached by a visit from one of them.
  if g.inverseChildren node ≠ [] then state
  else (state.1 ++ [node], postOrderExt node state.2)

def hasPredecessorOutsideSCC (scc : List α) : Bool :=
  scc.any fun node => (g.inverseChildren node).any (· ∉ scc)

/-- A node in the second loop. -/
def visitSCC (sccBegin : α → List (List α)) (state : List α × List α) (node : α) :
    List α × List α :=
  if node ∈ state.2 then state
  else
    match sccBegin node with
    | [] => state
    | scc :: _ =>
        match scc.head? with
        | none => state
        | some entry =>
            -- The whole component was visited by one of the previous iterations.
            if entry ∈ state.2 then state
            else if hasPredecessorOutsideSCC g scc then (state.1, state.2 ++ scc)
            else (state.1 ++ [entry], state.2 ++ scc)

def entryPoints (postOrderExt : α → List α → List α) (sccBegin : α → List (List α)) : List α :=
  (g.nodes.foldl (visitSCC g sccBegin) (g.nodes.foldl (visitEntry g postOrderExt) ([], []))).1

end

/-! ## The first loop -/

section

variable {α : Type} {g : Graph α}

theorem eq_of_reaches {a b : α} (hb : g.inverseChildren b = []) (h : ReflTransGen g.Edge a b) :
    a = b := by
  rcases h.cases_tail with heq | ⟨c, -, hcb⟩
  · exact heq.symm
  · have hc := (g.mem_inverseChildren c b).2 hcb
    rw [hb] at hc
    cases hc

/-- What holds of the result and what was visited in both loops. -/
structure Found (g : Graph α) (state : List α × List α) : Prop where
  /-- Components are visited as a whole. -/
  whole : ∀ x ∈ state.2, ∀ y, Mutual g.Edge x y → y ∈ state.2
  /-- A component that was visited and that nothing enters has its node. -/
  elected : ∀ x ∈ state.2, IsSource g.Edge x → ∃ r ∈ state.1, Mutual g.Edge r x
  visited : ∀ r ∈ state.1, r ∈ state.2
  source : ∀ r ∈ state.1, IsSource g.Edge r
  distinct : ∀ r ∈ state.1, ∀ r' ∈ state.1, Mutual g.Edge r r' → r = r'
  ends : ∀ r ∈ state.1, g.inverseChildren r ≠ [] → g.IsEnd r

/-- The first loop: what was visited is what the result reaches. -/
structure Reached (g : Graph α) (state : List α × List α) : Prop where
  easy : ∀ r ∈ state.1, g.inverseChildren r = []
  visited : ∀ r ∈ state.1, r ∈ state.2
  closed : ∀ x ∈ state.2, ∀ y, g.Edge x y → y ∈ state.2
  reached : ∀ x ∈ state.2, ∃ r ∈ state.1, ReflTransGen g.Edge r x

variable {state : List α × List α}

theorem Reached.found (h : Reached g state) : Found g state where
  whole x hx y hxy := by
    have hclosed : ∀ a b, ReflTransGen g.Edge a b → a ∈ state.2 → b ∈ state.2 := by
      intro a b hab ha
      induction hab with
      | refl => exact ha
      | tail _ hstep ih => exact h.closed _ ih _ hstep
    exact hclosed x y hxy.1 hx
  elected x hx hsource := by
    obtain ⟨r, hr, hrx⟩ := h.reached x hx
    exact ⟨r, hr, hrx, hsource r hrx⟩
  visited := h.visited
  source r hr b hb := by rw [eq_of_reaches (h.easy r hr) hb]
  distinct r hr r' hr' hmutual := eq_of_reaches (h.easy r' hr') hmutual.1
  ends r hr hne := absurd (h.easy r hr) hne

variable {postOrderExt : α → List α → List α}

theorem Reached.visitEntry (hpost : ∀ a v, DepthFirst.Visits g.children [a] v (postOrderExt a v))
    (h : Reached g state) (node : α) : Reached g (visitEntry g postOrderExt state node) := by
  rw [Support.visitEntry]
  split_ifs with hnode
  · exact h
  · rw [not_not] at hnode
    have hvisits := hpost node state.2
    refine ⟨fun r hr => ?_, fun r hr => ?_, fun x hx y hxy => ?_, fun x hx => ?_⟩
    · rcases List.mem_append.1 hr with hr | hr
      · exact h.easy r hr
      · rwa [List.mem_singleton.1 hr]
    · rcases List.mem_append.1 hr with hr | hr
      · exact hvisits.subset r (h.visited r hr)
      · exact hvisits.starts r hr
    · by_cases hold : x ∈ state.2
      · exact hvisits.subset y (h.closed x hold y hxy)
      · exact hvisits.closed x hx hold y hxy
    · by_cases hold : x ∈ state.2
      · obtain ⟨r, hr, hrx⟩ := h.reached x hold
        exact ⟨r, List.mem_append_left _ hr, hrx⟩
      · obtain ⟨r, hr, hrx⟩ := hvisits.reached x hx hold
        exact ⟨r, List.mem_append_right _ hr, hrx⟩

theorem mem_foldl_visitEntry {nodes : List α} {r : α} (hr : r ∈ nodes)
    (heasy : g.inverseChildren r = []) : r ∈ (nodes.foldl (visitEntry g postOrderExt) state).1 := by
  have hgrows : ∀ (nodes : List α) (state : List α × List α), r ∈ state.1 →
      r ∈ (nodes.foldl (visitEntry g postOrderExt) state).1 := by
    intro nodes
    induction nodes with
    | nil => exact fun _ h => h
    | cons node nodes ih =>
      intro state h
      refine ih _ ?_
      rw [visitEntry]
      split_ifs
      · exact h
      · exact List.mem_append_left _ h
  induction nodes generalizing state with
  | nil => cases hr
  | cons node nodes ih =>
    rcases List.mem_cons.1 hr with rfl | hr
    · refine hgrows nodes _ ?_
      rw [visitEntry, if_neg (not_not.2 heasy)]
      exact List.mem_append_right _ List.mem_cons_self
    · exact ih hr

theorem reached_foldl (hpost : ∀ a v, DepthFirst.Visits g.children [a] v (postOrderExt a v))
    (nodes : List α) (h : Reached g state) :
    Reached g (nodes.foldl (visitEntry g postOrderExt) state) := by
  induction nodes generalizing state with
  | nil => exact h
  | cons node nodes ih => exact ih (h.visitEntry hpost node)

theorem reached_nil (g : Graph α) : Reached g ([], []) where
  easy := List.forall_mem_nil _
  visited := List.forall_mem_nil _
  closed := List.forall_mem_nil _
  reached := List.forall_mem_nil _

/-! ## The second loop -/

/-- A component that is not at its end, or that something enters, is marked and has no node. -/
theorem Found.mark (h : Found g state) {scc : List α}
    (hscc : ∀ a ∈ scc, ∀ b, b ∈ scc ↔ Mutual g.Edge a b) (hsource : ∀ a ∈ scc, ¬IsSource g.Edge a) :
    Found g (state.1, state.2 ++ scc) where
  whole x hx y hxy := by
    rcases List.mem_append.1 hx with hx | hx
    · exact List.mem_append_left _ (h.whole x hx y hxy)
    · exact List.mem_append_right _ ((hscc x hx y).2 hxy)
  elected x hx hxs := by
    rcases List.mem_append.1 hx with hx | hx
    · exact h.elected x hx hxs
    · exact absurd hxs (hsource x hx)
  visited r hr := List.mem_append_left _ (h.visited r hr)
  source := h.source
  distinct := h.distinct
  ends := h.ends

/-- A component at the end that nothing enters gets its node. -/
theorem Found.elect (h : Found g state) {scc : List α} {entry : α}
    (hscc : ∀ a ∈ scc, ∀ b, b ∈ scc ↔ Mutual g.Edge a b)
    (hclosed : ∀ a ∈ scc, ∀ b, g.Edge a b → b ∈ scc) (hentry : entry ∈ scc) (hnew : entry ∉ state.2)
    (hsource : IsSource g.Edge entry) :
    Found g (state.1 ++ [entry], state.2 ++ scc) where
  whole x hx y hxy := by
    rcases List.mem_append.1 hx with hx | hx
    · exact List.mem_append_left _ (h.whole x hx y hxy)
    · exact List.mem_append_right _ ((hscc x hx y).2 hxy)
  elected x hx hxs := by
    rcases List.mem_append.1 hx with hx | hx
    · obtain ⟨r, hr, hrx⟩ := h.elected x hx hxs
      exact ⟨r, List.mem_append_left _ hr, hrx⟩
    · exact ⟨entry, List.mem_append_right _ List.mem_cons_self, (hscc entry hentry x).1 hx⟩
  visited r hr := by
    rcases List.mem_append.1 hr with hr | hr
    · exact List.mem_append_left _ (h.visited r hr)
    · rw [List.mem_singleton.1 hr]
      exact List.mem_append_right _ hentry
  source r hr := by
    rcases List.mem_append.1 hr with hr | hr
    · exact h.source r hr
    · rwa [List.mem_singleton.1 hr]
  distinct r hr r' hr' hmutual := by
    -- what was visited holds all of its component, and the new node was not
    rcases List.mem_append.1 hr with hr | hr
    · rcases List.mem_append.1 hr' with hr' | hr'
      · exact h.distinct r hr r' hr' hmutual
      · rw [List.mem_singleton.1 hr'] at hmutual
        exact absurd (h.whole r (h.visited r hr) entry hmutual) hnew
    · rcases List.mem_append.1 hr' with hr' | hr'
      · rw [List.mem_singleton.1 hr] at hmutual
        exact absurd (h.whole r' (h.visited r' hr') entry hmutual.symm) hnew
      · rw [List.mem_singleton.1 hr, List.mem_singleton.1 hr']
  ends r hr hne := by
    rcases List.mem_append.1 hr with hr | hr
    · exact h.ends r hr hne
    · rw [List.mem_singleton.1 hr]
      intro b c hb hbc
      exact (hscc entry hentry c).1 (hclosed b ((hscc entry hentry b).2 hb) c hbc)

variable [DecidableEq α] {sccBegin : α → List (List α)}

theorem isSource_of_closed {scc : List α} (hscc : ∀ a ∈ scc, ∀ b, b ∈ scc ↔ Mutual g.Edge a b)
    (h : hasPredecessorOutsideSCC g scc = false) {a : α} (ha : a ∈ scc) : IsSource g.Edge a := by
  have hinside : ∀ b c, g.Edge b c → c ∈ scc → b ∈ scc := by
    intro b c hbc hc
    rw [hasPredecessorOutsideSCC, List.any_eq_false] at h
    by_contra hb
    exact h c hc (List.any_eq_true.2 ⟨b, (g.mem_inverseChildren b c).2 hbc, by simpa using hb⟩)
  intro b hba
  have hb : b ∈ scc := by
    induction hba using ReflTransGen.head_induction_on with
    | refl => exact ha
    | head hstep _ ih => exact hinside _ _ hstep ih
  exact ((hscc a ha b).1 hb).1

/-- What a node does in the second loop. -/
theorem visitSCC_cases (hsccs : ∀ n, Sorted g.Edge n (sccBegin n)) (state : List α × List α)
    (node : α) :
    (visitSCC g sccBegin state node = state ∧ node ∈ state.2) ∨
      ∃ scc entry, entry ∈ scc ∧ (∀ a ∈ scc, ∀ b, b ∈ scc ↔ Mutual g.Edge a b) ∧
        (∀ a ∈ scc, ∀ b, g.Edge a b → b ∈ scc) ∧ (∀ a ∈ scc, ReflTransGen g.Edge node a) ∧
        ((visitSCC g sccBegin state node = state ∧ entry ∈ state.2) ∨
          (entry ∉ state.2 ∧ hasPredecessorOutsideSCC g scc = true ∧
            visitSCC g sccBegin state node = (state.1, state.2 ++ scc)) ∨
          (entry ∉ state.2 ∧ hasPredecessorOutsideSCC g scc = false ∧
            visitSCC g sccBegin state node = (state.1 ++ [entry], state.2 ++ scc))) := by
  rw [visitSCC]
  by_cases hnode : node ∈ state.2
  · exact .inl ⟨if_pos hnode, hnode⟩
  right
  have hsorted := hsccs node
  rw [if_neg hnode]
  cases hbegin : sccBegin node with
  | nil =>
    rw [hbegin] at hsorted
    obtain ⟨c, hc, -⟩ := hsorted.covers node .refl
    cases hc
  | cons scc rest =>
    rw [hbegin] at hsorted
    cases scc with
    | nil => exact absurd rfl (hsorted.nonempty [] List.mem_cons_self)
    | cons entry more =>
      refine ⟨entry :: more, entry, List.mem_cons_self, hsorted.component _ List.mem_cons_self,
        fun a ha b hab => hsorted.closed_head ha hab, hsorted.reached _ List.mem_cons_self, ?_⟩
      by_cases hentry : entry ∈ state.2
      · exact .inl ⟨if_pos hentry, hentry⟩
      · cases hpred : hasPredecessorOutsideSCC g (entry :: more) with
        | true => exact .inr (.inl ⟨hentry, rfl, by simp [hentry, hpred]⟩)
        | false => exact .inr (.inr ⟨hentry, rfl, by simp [hentry, hpred]⟩)

theorem not_isSource_of_entered {scc : List α}
    (hscc : ∀ a ∈ scc, ∀ b, b ∈ scc ↔ Mutual g.Edge a b)
    (h : hasPredecessorOutsideSCC g scc = true) {a : α} (ha : a ∈ scc) : ¬IsSource g.Edge a := by
  obtain ⟨m, hm, hpred⟩ := List.any_eq_true.1 h
  obtain ⟨p, hp, hout⟩ := List.any_eq_true.1 hpred
  have hedge : g.Edge p m := (g.mem_inverseChildren p m).1 hp
  have hpa : ReflTransGen g.Edge p a := .head hedge ((hscc m hm a).1 ha).1
  exact fun hsource => of_decide_eq_true hout ((hscc a ha p).2 ⟨hsource p hpa, hpa⟩)

theorem Found.visitSCC (hsccs : ∀ n, Sorted g.Edge n (sccBegin n)) (h : Found g state) (node : α) :
    Found g (visitSCC g sccBegin state node) := by
  rcases visitSCC_cases hsccs state node with ⟨heq, -⟩ | ⟨scc, entry, hentry, hscc, hclosed, -, hcases⟩
  · rwa [heq]
  · rcases hcases with ⟨heq, -⟩ | ⟨-, hpred, heq⟩ | ⟨hnew, hpred, heq⟩
    · rwa [heq]
    · rw [heq]
      exact h.mark hscc fun a ha => not_isSource_of_entered hscc hpred ha
    · rw [heq]
      exact h.elect hscc hclosed hentry hnew (isSource_of_closed hscc hpred hentry)

/-- The second loop only adds to what was visited. -/
theorem subset_visitSCC (hsccs : ∀ n, Sorted g.Edge n (sccBegin n)) (state : List α × List α)
    (node : α) : state.1 ⊆ (visitSCC g sccBegin state node).1 ∧
      state.2 ⊆ (visitSCC g sccBegin state node).2 := by
  rcases visitSCC_cases hsccs state node with ⟨heq, -⟩ | ⟨scc, entry, -, -, -, -, hcases⟩
  · rw [heq]
    exact ⟨List.Subset.refl _, List.Subset.refl _⟩
  · rcases hcases with ⟨heq, -⟩ | ⟨-, -, heq⟩ | ⟨-, -, heq⟩
    · rw [heq]
      exact ⟨List.Subset.refl _, List.Subset.refl _⟩
    · rw [heq]
      exact ⟨List.Subset.refl _, List.subset_append_left _ _⟩
    · rw [heq]
      exact ⟨List.subset_append_left _ _, List.subset_append_left _ _⟩

/-- A component at the end is visited by each of its nodes. -/
theorem Found.mem_visitSCC (hsccs : ∀ n, Sorted g.Edge n (sccBegin n)) (h : Found g state)
    {node : α} (hend : g.IsEnd node) : node ∈ (Support.visitSCC g sccBegin state node).2 := by
  rcases visitSCC_cases hsccs state node with ⟨heq, hnode⟩ | ⟨scc, entry, hentry, hscc, -, hr, hcases⟩
  · rwa [heq]
  · have hmutual := hend.mutual (hr entry hentry)
    have hnode : node ∈ scc := (hscc entry hentry node).2 hmutual.symm
    rcases hcases with ⟨heq, hold⟩ | ⟨-, -, heq⟩ | ⟨-, -, heq⟩
    · rw [heq]
      exact h.whole entry hold node hmutual.symm
    · rw [heq]
      exact List.mem_append_right _ hnode
    · rw [heq]
      exact List.mem_append_right _ hnode

/-- The second loop over some nodes: it keeps what holds, and visits those of them that are at the
end. -/
theorem Found.foldl (hsccs : ∀ n, Sorted g.Edge n (sccBegin n)) (nodes : List α)
    {state : List α × List α} (h : Found g state) :
    Found g (nodes.foldl (Support.visitSCC g sccBegin) state) ∧
      state.1 ⊆ (nodes.foldl (Support.visitSCC g sccBegin) state).1 ∧
      state.2 ⊆ (nodes.foldl (Support.visitSCC g sccBegin) state).2 ∧
      ∀ n ∈ nodes, g.IsEnd n → n ∈ (nodes.foldl (Support.visitSCC g sccBegin) state).2 := by
  induction nodes generalizing state with
  | nil => exact ⟨h, List.Subset.refl _, List.Subset.refl _, List.forall_mem_nil _⟩
  | cons node nodes ih =>
    obtain ⟨hfound, hresult, hvisited, hends⟩ := ih (h.visitSCC hsccs node)
    obtain ⟨hresult', hvisited'⟩ := subset_visitSCC hsccs state node
    refine ⟨hfound, fun r hr => hresult (hresult' hr), fun x hx => hvisited (hvisited' hx),
      List.forall_mem_cons.2 ⟨fun hend => hvisited (h.mem_visitSCC hsccs hend), hends⟩⟩

/-! ## Both loops -/

/-- Every node is reached from the result, and from no less than the result, exactly when each
component that nothing enters is a node without predecessors or at the end. -/
theorem entryPoints_iff (g : Graph α) (postOrderExt : α → List α → List α)
    (sccBegin : α → List (List α))
    (hpost : ∀ a v, DepthFirst.Visits g.children [a] v (postOrderExt a v))
    (hsccs : ∀ n, Sorted g.Edge n (sccBegin n)) :
    g.IsMinimalCover (entryPoints g postOrderExt sccBegin) ↔ g.SourcesEnd := by
  have hfirst := reached_foldl hpost g.nodes (reached_nil g)
  obtain ⟨hfound, hgrows, hvisited, hends⟩ := hfirst.found.foldl hsccs g.nodes
  constructor
  · intro h a hsource hpred
    obtain ⟨p, hp, hpa⟩ := h.1 a
    have hmutual : Mutual g.Edge p a := ⟨hpa, hsource p hpa⟩
    have hne : g.inverseChildren p ≠ [] := by
      intro heasy
      rw [eq_of_reaches heasy hmutual.2] at hpred
      exact hpred heasy
    exact fun b c hb hbc =>
      hmutual.symm.trans (hfound.ends p hp hne b c (hmutual.trans hb) hbc)
  · intro h
    constructor
    · intro n
      have := g.finite
      obtain ⟨a, hsource, han⟩ := exists_source g.Edge n
      by_cases heasy : g.inverseChildren a = []
      · exact ⟨a, hgrows (mem_foldl_visitEntry (g.complete a) heasy), han⟩
      · obtain ⟨r, hr, hra⟩ := hfound.elected a (hends a (g.complete a) (h a hsource heasy)) hsource
        exact ⟨r, hr, hra.1.trans han⟩
    · intro subset hsubset hcovers r hr
      obtain ⟨p, hp, hpr⟩ := hcovers r
      have heq := hfound.distinct p (hsubset hp) r hr ⟨hpr, hfound.source r hr p hpr⟩
      exact heq ▸ hp

end

/-! ## Runs on the small graphs -/

def cyclePostOrder (leaves : Bool) : Fin 3 → List (Fin 3) → List (Fin 3) :=
  DepthFirst.depthFirst (cycle leaves).children 3

theorem visits_cyclePostOrder (leaves : Bool) (a : Fin 3) (v : List (Fin 3)) :
    DepthFirst.Visits (cycle leaves).children [a] v (cyclePostOrder leaves a v) :=
  DepthFirst.visits_depthFirst (fun _ _ _ _ => Finset.mem_univ _) 3
    (Finset.mem_univ a) (Finset.card_filter_le _ _)

/-- Nothing is found of a cycle that an edge leaves. -/
theorem not_isMinimalCover_leaving :
    ¬∀ (g : Graph (Fin 3)) (postOrderExt : Fin 3 → List (Fin 3) → List (Fin 3))
      (sccBegin : Fin 3 → List (List (Fin 3))),
      (∀ a v, DepthFirst.Visits g.children [a] v (postOrderExt a v)) →
      (∀ n, Sorted g.Edge n (sccBegin n)) →
      g.IsMinimalCover (entryPoints g postOrderExt sccBegin) := by
  intro h
  have hcovers := (h (cycle true) (cyclePostOrder true) (cycleSCCs true)
    (visits_cyclePostOrder true) (sorted_cycleSCCs true)).1 0
  have hnone : entryPoints (cycle true) (cyclePostOrder true) (cycleSCCs true) = [] := by decide
  rw [hnone] at hcovers
  obtain ⟨p, hp, -⟩ := hcovers
  cases hp

/-- A cycle that nothing leaves gets its node. -/
theorem entryPoints_closed : entryPoints (cycle false) (cyclePostOrder false) (cycleSCCs false) =
      [2, 0] ∧
    ((cycle false).IsMinimalCover
      (entryPoints (cycle false) (cyclePostOrder false) (cycleSCCs false)) ↔
      (cycle false).SourcesEnd) :=
  ⟨by decide, entryPoints_iff (cycle false) (cyclePostOrder false) (cycleSCCs false)
    (visits_cyclePostOrder false) (sorted_cycleSCCs false)⟩

end Support
