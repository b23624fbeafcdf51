import Revng.DataLayout.EqClasses
import Revng.DataLayout.TypeGraph
import Revng.Lib.Reachability
import Revng.Lib.StrongComponents

/-!
# Runs of the type system

A history is a system with the memory of what became of every node that was created:
which node it was merged into in the end, or that this one was removed.  The invariant of
all runs is that the sets store a graph on the nodes of the system, and that the classes
of `VectEqClasses` are those of the nodes with the same owner.
-/

namespace DataLayout

open LayoutTypeSystem

variable {E : Type}

/-! ## Operations that only change links -/

/-- The system has the same nodes and classes, and still stores a graph. -/
structure Relinks (s s' : LayoutTypeSystem E) : Prop where
  nid : s'.nid = s.nid
  layouts : s'.layouts = s.layouts
  eqClasses : s'.eqClasses = s.eqClasses
  graph : ∀ g, Represents s.layouts s.nodes g → ∃ g', Represents s'.layouts s'.nodes g'

theorem Relinks.refl (s : LayoutTypeSystem E) : Relinks s s := ⟨rfl, rfl, rfl, fun g h => ⟨g, h⟩⟩

variable {s : LayoutTypeSystem E}

theorem Relinks.trans {t u : LayoutTypeSystem E} (h : Relinks s t) (h' : Relinks t u) :
    Relinks s u where
  nid := h'.nid.trans h.nid
  layouts := h'.layouts.trans h.layouts
  eqClasses := h'.eqClasses.trans h.eqClasses
  graph := fun g hg => by
    obtain ⟨g', hg'⟩ := h.graph g hg
    exact h'.graph g' hg'

variable {s' : LayoutTypeSystem E}

variable {src tgt : Option Nat}

theorem relinks_addLink {tag : TypeLinkTag} {r : Option TypeLinkTag × Bool}
    (h : s.addLink src tgt tag = some (s', r)) : Relinks s s' := by
  unfold addLink at h
  split at h
  next src tgt =>
    split at h
    · cases h
      exact Relinks.refl s
    next hne =>
      split at h
      next hmem =>
        cases h
        exact ⟨rfl, rfl, rfl, fun g hg => ⟨_, hg.insertLink hmem.1 hmem.2 hne tag⟩⟩
      · cases h
  · cases h
    exact Relinks.refl s

theorem relinks_addEqualityLink (h : s.addEqualityLink src tgt = some s') : Relinks s s' := by
  unfold addEqualityLink at h
  obtain ⟨⟨s₁, r⟩, h₁, h⟩ := Option.bind_eq_some_iff.mp h
  obtain ⟨⟨s₂, r'⟩, h₂, h⟩ := Option.bind_eq_some_iff.mp h
  obtain ⟨-, -, h⟩ := Option.bind_eq_some_iff.mp h
  cases h
  exact (relinks_addLink h₁).trans (relinks_addLink h₂)

theorem relinks_addInstanceLink {oe : OffsetExpression}
    (h : s.addInstanceLink src tgt oe = some s') : Relinks s s' := by
  unfold addInstanceLink at h
  split at h
  · cases h
    exact Relinks.refl s
  · obtain ⟨⟨s₁, r⟩, h₁, rfl⟩ := Option.map_eq_some_iff.mp h
    exact relinks_addLink h₁

theorem relinks_addPointerLink (h : s.addPointerLink src tgt = some s') : Relinks s s' := by
  obtain ⟨⟨s₁, r⟩, h₁, rfl⟩ := Option.map_eq_some_iff.mp h
  exact relinks_addLink h₁

theorem relinks_eraseLink (s : LayoutTypeSystem E) (src tgt : Nat) (tag : TypeLinkTag) :
    Relinks s { s with nodes := eraseLink s.nodes src tgt tag } :=
  ⟨rfl, rfl, rfl, fun _ hg => ⟨_, hg.eraseLink src tgt tag⟩⟩

theorem relinks_moveEdgeTarget {oldTgt newTgt : Option Nat} {inverseEdge : Link} {offsetToSum : Int}
    (hne : newTgt ≠ some inverseEdge.node)
    (h : s.moveEdgeTarget oldTgt newTgt inverseEdge offsetToSum = some s') : Relinks s s' := by
  unfold moveEdgeTarget at h
  split at h
  next oldTgt newTgt =>
    obtain ⟨_, hguard, h⟩ := Option.bind_eq_some_iff.mp h
    obtain ⟨hold, hnew, -, hpred⟩ := (Option.guard_eq_some' _).mp hguard
    have herase := relinks_eraseLink s inverseEdge.node oldTgt inverseEdge.tag
    split at h
    · cases h
      refine ⟨rfl, rfl, rfl, fun g hg => ?_⟩
      exact ⟨_, (hg.eraseLink _ _ _).insertLink (hg.mem_of_predecessor hold hpred) hnew
        (fun heq => hne (congrArg some heq.symm)) _⟩
    · obtain ⟨-, -, h⟩ := Option.bind_eq_some_iff.mp h
      exact herase.trans (relinks_addInstanceLink h)
  · cases h
    exact Relinks.refl s

theorem relinks_moveEdgeSource {oldSrc newSrc : Option Nat} {edge : Link} {offsetToSum : Int}
    (hne : newSrc ≠ some edge.node)
    (h : s.moveEdgeSource oldSrc newSrc edge offsetToSum = some s') : Relinks s s' := by
  unfold moveEdgeSource at h
  split at h
  next oldSrc newSrc =>
    obtain ⟨_, hguard, h⟩ := Option.bind_eq_some_iff.mp h
    obtain ⟨hold, hnew, hsucc, -⟩ := (Option.guard_eq_some' _).mp hguard
    have herase := relinks_eraseLink s oldSrc edge.node edge.tag
    split at h
    · cases h
      refine ⟨rfl, rfl, rfl, fun g hg => ?_⟩
      exact ⟨_, (hg.eraseLink _ _ _).insertLink hnew (hg.mem_of_successor hold hsucc)
        (fun heq => hne (congrArg some heq)) _⟩
    · obtain ⟨-, -, h⟩ := Option.bind_eq_some_iff.mp h
      exact herase.trans (relinks_addInstanceLink h)
  · cases h
    exact Relinks.refl s

theorem relinks_eraseEdge {src : Nat} {edge : Link} (h : s.eraseEdge src edge = some s') :
    Relinks s s' := by
  obtain ⟨-, -, h⟩ := Option.bind_eq_some_iff.mp h
  cases h
  exact relinks_eraseLink s src edge.node edge.tag

theorem relinks_dropOutgoingEdges {n : Nat} (h : s.dropOutgoingEdges n = some s') :
    Relinks s s' := by
  obtain ⟨-, -, h⟩ := Option.bind_eq_some_iff.mp h
  have hfold : ∀ (edges : List Link) (t : LayoutTypeSystem E),
      edges.foldlM (fun s edge => s.eraseEdge n edge) t = some s' → Relinks t s' := by
    intro edges
    induction edges with
    | nil =>
      intro t ht
      cases ht
      exact Relinks.refl s'
    | cons edge edges ih =>
      intro t ht
      obtain ⟨u, hone, hrest⟩ := Option.bind_eq_some_iff.mp ht
      exact (relinks_eraseEdge hone).trans (ih u hrest)
  exact hfold _ s h

variable [IntEqClasses E]

/-! ## Runs -/

inductive Op where
  | createArtificialLayoutType
  | addEqualityLink (src tgt : Option Nat)
  | addInstanceLink (src tgt : Option Nat) (oe : OffsetExpression)
  | addPointerLink (src tgt : Option Nat)
  | mergeNodes (toMerge : List Nat)
  | removeNode (toRemove : Nat)
  | moveEdgeTarget (oldTgt newTgt : Option Nat) (inverseEdge : Link) (offsetToSum : Int)
  | moveEdgeSource (oldSrc newSrc : Option Nat) (edge : Link) (offsetToSum : Int)
  | eraseEdge (src : Nat) (edge : Link)
  | dropOutgoingEdges (n : Nat)

def Op.apply : Op → LayoutTypeSystem E → Option (LayoutTypeSystem E)
  | .createArtificialLayoutType, s => some s.createArtificialLayoutType
  | .addEqualityLink src tgt, s => s.addEqualityLink src tgt
  | .addInstanceLink src tgt oe, s => s.addInstanceLink src tgt oe
  | .addPointerLink src tgt, s => s.addPointerLink src tgt
  | .mergeNodes toMerge, s => s.mergeNodes toMerge
  | .removeNode toRemove, s => s.removeNode toRemove
  | .moveEdgeTarget oldTgt newTgt inverseEdge offsetToSum, s =>
      s.moveEdgeTarget oldTgt newTgt inverseEdge offsetToSum
  | .moveEdgeSource oldSrc newSrc edge offsetToSum, s =>
      s.moveEdgeSource oldSrc newSrc edge offsetToSum
  | .eraseEdge src edge, s => s.eraseEdge src edge
  | .dropOutgoingEdges n, s => s.dropOutgoingEdges n

/-- An edge is not moved to its other end. -/
def Op.NoLoop : Op → Prop
  | .moveEdgeTarget _ newTgt inverseEdge _ => newTgt ≠ some inverseEdge.node
  | .moveEdgeSource _ newSrc edge _ => newSrc ≠ some edge.node
  | _ => True

/-- Which node of the system every created node has become, if it was not removed. -/
def Op.owner (nid : Nat) (owner : Nat → Option Nat) : Op → Nat → Option Nat
  | .createArtificialLayoutType => Function.update owner nid (some nid)
  | .mergeNodes (into :: toMerge) =>
      toMerge.foldl (fun owner src x => if owner x = some src then some into else owner x) owner
  | .removeNode k => fun x => if owner x = some k then none else owner x
  | _ => owner

structure History (E : Type) where
  system : LayoutTypeSystem E
  owner : Nat → Option Nat

def History.start : History E := ⟨.empty, fun _ => none⟩

/-- A new node is its own owner. -/
def History.create (h : History E) : History E :=
  ⟨h.system.createArtificialLayoutType,
    Function.update h.owner h.system.nid (some h.system.nid)⟩

/-- One operation. -/
def History.Step (op : Op) (h h' : History E) : Prop :=
  op.NoLoop ∧ op.apply h.system = some h'.system ∧
    h'.owner = op.owner h.system.nid h.owner

/-- What holds in every history. -/
structure History.Invariant (h : History E) : Prop where
  graph : ∃ g, Represents h.system.layouts h.system.nodes g
  created : ∀ n ∈ h.system.layouts, n < h.system.nid
  own : ∀ n ∈ h.system.layouts, h.owner n = some n
  owner : ∀ x < h.system.nid, ∀ n, h.owner x = some n → n ∈ h.system.layouts
  classified : Classified h.system.eqClasses h.system.nid h.owner

section Invariant

variable [LawfulIntEqClasses E]

theorem History.invariant_start : (History.start (E := E)).Invariant where
  graph := ⟨_, represents_empty _⟩
  created := by simp [History.start, LayoutTypeSystem.empty]
  own := by simp [History.start, LayoutTypeSystem.empty]
  owner := by simp [History.start]
  classified := classified_empty _

variable {h : History E}

theorem History.Invariant.create (hinv : h.Invariant) (hn : h.system.nid + 1 < 2 ^ 32) :
    h.create.Invariant where
  graph := by
    obtain ⟨g, hg⟩ := hinv.graph
    exact ⟨_, hg.create fun hmem => (hinv.created _ hmem).false⟩
  created := fun n hn => by
    rcases Finset.mem_insert.mp hn with rfl | hn
    · exact Nat.lt_succ_self _
    · exact (hinv.created n hn).trans (Nat.lt_succ_self _)
  own := fun n hn => by
    rcases Finset.mem_insert.mp hn with rfl | hn
    · exact Function.update_self ..
    · exact (Function.update_of_ne (hinv.created n hn).ne _ _).trans (hinv.own n hn)
  owner := fun x hx n howner => by
    rcases Nat.lt_succ_iff_lt_or_eq.mp hx with hx | rfl
    · have hold : h.owner x = some n := (Function.update_of_ne hx.ne _ _).symm.trans howner
      exact Finset.mem_insert_of_mem (hinv.owner x hx n hold)
    · obtain rfl : h.system.nid = n := by simpa [History.create] using howner
      exact Finset.mem_insert_self _ _
  classified := hinv.classified.growBy1 hn fun x hx howner =>
    (hinv.created _ (hinv.owner x hx _ howner)).false

variable {s' : LayoutTypeSystem E}

omit [LawfulIntEqClasses E] in
theorem History.Invariant.relinks (hinv : h.Invariant) (hs : Relinks h.system s') :
    (History.mk s' h.owner).Invariant where
  graph := by
    obtain ⟨g, hg⟩ := hinv.graph
    exact hs.graph g hg
  created := by
    simp only [hs.layouts, hs.nid]
    exact hinv.created
  own := by
    simp only [hs.layouts]
    exact hinv.own
  owner := by
    simp only [hs.layouts, hs.nid]
    exact hinv.owner
  classified := by
    simp only [hs.eqClasses, hs.nid]
    exact hinv.classified

section Links

omit [LawfulIntEqClasses E]

variable {h : History E} (hinv : h.Invariant) {s' : LayoutTypeSystem E} (src tgt : Nat)

include hinv

theorem History.Invariant.addEqualityLink
    (h' : h.system.addEqualityLink (some src) (some tgt) = some s') :
    (History.mk s' h.owner).Invariant :=
  hinv.relinks (relinks_addEqualityLink h')

theorem History.Invariant.addInstanceLink (oe : OffsetExpression)
    (h' : h.system.addInstanceLink (some src) (some tgt) oe = some s') :
    (History.mk s' h.owner).Invariant :=
  hinv.relinks (relinks_addInstanceLink h')

theorem History.Invariant.eraseEdge (edge : Link) (h' : h.system.eraseEdge src edge = some s') :
    (History.mk s' h.owner).Invariant :=
  hinv.relinks (relinks_eraseEdge h')

end Links

theorem History.Invariant.mergeNode (hinv : h.Invariant) {src into : Nat}
    (hs : h.system.mergeNode into src = some s') :
    (History.mk s' fun x => if h.owner x = some src then some into else h.owner x).Invariant := by
  obtain ⟨_, hguard, hs⟩ := Option.bind_eq_some_iff.mp hs
  obtain ⟨hne, hsrc, hinto⟩ := (Option.guard_eq_some' _).mp hguard
  obtain ⟨size, -, hs⟩ := Option.bind_eq_some_iff.mp hs
  cases hs
  obtain ⟨g, hg⟩ := hinv.graph
  have hlt : ∀ n ∈ h.system.layouts.erase src, n < h.system.nid := fun n hn =>
    hinv.created n (Finset.mem_of_mem_erase hn)
  refine ⟨⟨_, (hg.modify ?_ ?_).fixPredSucc hsrc hinto hne.symm⟩, hlt, ?_, ?_, ?_⟩
  · rfl
  · rfl
  · intro n hn
    obtain ⟨hnsrc, hn⟩ := Finset.mem_erase.mp hn
    have hown := hinv.own n hn
    simp [hown, hnsrc]
  · intro x hx n howner
    simp only at howner
    split at howner
    · cases howner
      exact Finset.mem_erase.mpr ⟨hne.symm, hinto⟩
    next hnot =>
      refine Finset.mem_erase.mpr ⟨fun heq => hnot (heq ▸ howner), hinv.owner x hx n howner⟩
  · exact hinv.classified.merge (hinv.created src hsrc) (hinv.created into hinto)
      (hinv.own src hsrc) (hinv.own into hinto)

theorem History.Invariant.removeNode (hinv : h.Invariant) {k : Nat}
    (hs : h.system.removeNode k = some s') :
    (History.mk s' fun x => if h.owner x = some k then none else h.owner x).Invariant := by
  obtain ⟨_, hguard, hs⟩ := Option.bind_eq_some_iff.mp hs
  have hk := (Option.guard_eq_some' _).mp hguard
  cases hs
  obtain ⟨g, hg⟩ := hinv.graph
  have hlt : ∀ n ∈ h.system.layouts.erase k, n < h.system.nid := fun n hn =>
    hinv.created n (Finset.mem_of_mem_erase hn)
  refine ⟨⟨_, hg.removeNode hk⟩, hlt, ?_, ?_, ?_⟩
  · intro n hn
    obtain ⟨hnk, hn⟩ := Finset.mem_erase.mp hn
    have hown := hinv.own n hn
    simp [hown, hnk]
  · intro x hx n howner
    simp only at howner
    split at howner
    · cases howner
    next hnot =>
      refine Finset.mem_erase.mpr ⟨fun heq => hnot (heq ▸ howner), hinv.owner x hx n howner⟩
  · exact hinv.classified.remove (hinv.created k hk) (hinv.own k hk)

/-- The nodes are merged one by one. -/
theorem History.Invariant.mergeNodes {into : Nat} (toMerge : List Nat) :
    ∀ {h : History E}, h.Invariant → ∀ {s' : LayoutTypeSystem E},
      h.system.mergeNodes (into :: toMerge) = some s' →
        (History.mk s' (toMerge.foldl
          (fun owner src x => if owner x = some src then some into else owner x)
          h.owner)).Invariant := by
  induction toMerge with
  | nil =>
    intro h hinv s' hs
    cases hs
    exact hinv
  | cons src toMerge ih =>
    intro h hinv s' hs
    obtain ⟨t, hone, hrest⟩ := Option.bind_eq_some_iff.mp hs
    exact ih (hinv.mergeNode hone) hrest

/-- A node gets an identifier that `unsigned` can hold, and the classes can count. -/
def Op.Counted (op : Op) (h : History E) : Prop :=
  op = .createArtificialLayoutType → h.system.nid + 1 < 2 ^ 32

theorem History.Invariant.step {op : Op} {h' : History E} (hcounted : op.Counted h)
    (hstep : History.Step op h h') (hinv : h.Invariant) : h'.Invariant := by
  obtain ⟨s', owner'⟩ := h'
  obtain ⟨hloop, happly, howner⟩ := hstep
  obtain rfl : owner' = op.owner h.system.nid h.owner := howner
  cases op with
  | createArtificialLayoutType =>
    obtain rfl : h.system.createArtificialLayoutType = s' := Option.some.inj happly
    exact hinv.create (hcounted rfl)
  | addEqualityLink src tgt => exact hinv.relinks (relinks_addEqualityLink happly)
  | addInstanceLink src tgt oe => exact hinv.relinks (relinks_addInstanceLink happly)
  | addPointerLink src tgt => exact hinv.relinks (relinks_addPointerLink happly)
  | mergeNodes toMerge =>
    cases toMerge with
    | nil => cases happly
    | cons into toMerge => exact hinv.mergeNodes toMerge happly
  | removeNode k => exact hinv.removeNode happly
  | moveEdgeTarget oldTgt newTgt inverseEdge offsetToSum =>
    exact hinv.relinks (relinks_moveEdgeTarget hloop happly)
  | moveEdgeSource oldSrc newSrc edge offsetToSum =>
    exact hinv.relinks (relinks_moveEdgeSource hloop happly)
  | eraseEdge src edge => exact hinv.relinks (relinks_eraseEdge happly)
  | dropOutgoingEdges n => exact hinv.relinks (relinks_dropOutgoingEdges happly)

/-! ## Consistency -/

/-- What `verifyConsistency` asks of the links, and the classes are those of the nodes that
were merged together or removed. -/
structure History.Consistent (h : History E) : Prop where
  mirror : ∀ n ∈ h.system.layouts, ∀ m ∈ h.system.layouts, ∀ t,
    ⟨m, t⟩ ∈ (h.system.nodes n).successors ↔ ⟨n, t⟩ ∈ (h.system.nodes m).predecessors
  noSelfEdges : ∀ n ∈ h.system.layouts,
    ∀ l ∈ (h.system.nodes n).successors ∪ (h.system.nodes n).predecessors, l.node ≠ n
  noDangling : ∀ n ∈ h.system.layouts,
    ∀ l ∈ (h.system.nodes n).successors ∪ (h.system.nodes n).predecessors,
      l.node ∈ h.system.layouts
  classes : ∀ x < h.system.nid, ∀ y < h.system.nid,
    h.system.eqClasses.haveSameEqClass x y = true ↔ h.owner x = h.owner y

omit [LawfulIntEqClasses E] in
theorem History.Invariant.consistent (hinv : h.Invariant) : h.Consistent where
  mirror := fun n hn m hm t => by
    obtain ⟨g, hg⟩ := hinv.graph
    rw [hg.successors n hn, hg.predecessors m hm]
  noSelfEdges := fun n hn l hl => by
    obtain ⟨g, hg⟩ := hinv.graph
    rcases Finset.mem_union.mp hl with hl | hl
    · exact hg.notMem_successors_self hn l hl
    · exact hg.notMem_predecessors_self hn l hl
  noDangling := fun n hn l hl => by
    obtain ⟨g, hg⟩ := hinv.graph
    rcases Finset.mem_union.mp hl with hl | hl
    · exact hg.mem_of_successor (t := l.tag) hn hl
    · exact hg.mem_of_predecessor (t := l.tag) hn hl
  classes := fun x hx y hy => by
    have hlt := hinv.classified.lt
    rw [VectEqClasses.haveSameEqClass, unsigned_of_lt (hx.trans hlt), unsigned_of_lt (hy.trans hlt),
      decide_eq_true_iff]
    exact hinv.classified.same x hx y hy

end Invariant

/-- The system is consistent after every run in which `unsigned` can count the nodes. -/
theorem consistent_of_run [LawfulIntEqClasses E] {h : History E}
    (hrun : TransitionSystem.Run History.Step Op.Counted History.start h) : h.Consistent :=
  History.Invariant.consistent <| hrun.invariant History.invariant_start
    fun _ _ _ hcounted hstep hinv => hinv.step hcounted hstep

theorem History.step_of_apply (op : Op) {h : History E} (hloop : op.NoLoop)
    (happly : op.apply h.system = some s') :
    History.Step op h ⟨s', op.owner h.system.nid h.owner⟩ := ⟨hloop, happly, rfl⟩

theorem run_create {ok : Op → History E → Prop} {h : History E}
    (hrun : TransitionSystem.Run History.Step ok History.start h)
    (hok : ok .createArtificialLayoutType h) :
    TransitionSystem.Run History.Step ok History.start h.create :=
  hrun.tail hok (History.step_of_apply .createArtificialLayoutType trivial rfl)

/-- Any number of nodes can be created. -/
theorem exists_run_create (n : Nat) :
    ∃ h : History E, TransitionSystem.Run History.Step (fun _ _ => True) History.start h ∧
      h.system.nid = n ∧ ∀ x < n, h.owner x = some x := by
  induction n with
  | zero => exact ⟨History.start, .refl _, rfl, by simp⟩
  | succ n ih =>
    obtain ⟨h, hrun, rfl, howner⟩ := ih
    refine ⟨h.create, run_create hrun trivial, rfl, fun x hx => ?_⟩
    rcases Nat.lt_succ_iff_lt_or_eq.mp hx with hx | rfl
    · exact (Function.update_of_ne hx.ne _ _).trans (howner x hx)
    · exact Function.update_self ..

/-- Among more than `2 ^ 32` nodes there are two that the classes cannot tell apart. -/
theorem not_consistent_of_run :
    ¬ ∀ h : History LeaderTable,
      TransitionSystem.Run History.Step (fun _ _ => True) History.start h → h.Consistent := by
  intro hall
  obtain ⟨h, hrun, hnid, howner⟩ := exists_run_create (E := LeaderTable) (2 ^ 32 + 1)
  have hsame : h.system.eqClasses.haveSameEqClass 0 (2 ^ 32) = true := by
    simp [VectEqClasses.haveSameEqClass, unsigned]
  have heq := ((hall h hrun).classes 0 (by omega) (2 ^ 32) (by omega)).mp hsame
  rw [howner 0 (by omega), howner (2 ^ 32) (by omega)] at heq
  cases heq

/-- A node that points to another one is merged into a third one. -/
theorem consistent_of_run_merge :
    ∃ h : History LeaderTable, h.system.layouts = {0, 1} ∧ h.owner 2 = some 0 ∧ h.Consistent := by
  have hcreated := run_create (run_create (run_create
    (.refl (History.start (E := LeaderTable)) : TransitionSystem.Run _ Op.Counted _ _)
    fun _ => by decide) fun _ => by decide) fun _ => by decide
  have hlinked := hcreated.tail (fun h => by cases h)
    (History.step_of_apply (.addPointerLink (some 2) (some 1)) trivial rfl)
  have hmerged := hlinked.tail (fun h => by cases h)
    (History.step_of_apply (.mergeNodes [0, 2]) trivial rfl)
  exact ⟨_, by decide, by decide, consistent_of_run hmerged⟩

/-!
## Collapsing components

`collapseSCCs` collapses the strongly connected components of the graph of some of the edges.  The
nodes of a component are ordered by size, the larger ones first.  Those as large as the first one
are merged, and so is the last one if its size is zero.  The nodes that are left lose the edges
between them, and each gets an instance-at-offset-0 edge to the next one.

The loop that merges nodes of equal size compares them to the largest size all the time.  So nodes
of a smaller size are not merged even when they have the same size.
-/

open StrongComponents

/-! ## Kinds of edges -/

def isEqualityEdge (t : TypeLinkTag) : Bool := t.kind = .equality

def isInstanceEdge (t : TypeLinkTag) : Bool := t.kind = .inst

def isInstanceOff0 (t : TypeLinkTag) : Bool :=
  isInstanceEdge t ∧ t.offsetExpr.offset = 0 ∧ t.offsetExpr.strides = [] ∧
    t.offsetExpr.tripCounts = []

def isPointerEdge (t : TypeLinkTag) : Bool := t.kind = .pointer

variable {E : Type}

namespace LayoutTypeSystem

/-- `EdgeFilteredGraph`: the edges of the given kind. -/
def Linked (isEdge : TypeLinkTag → Bool) (s : LayoutTypeSystem E) (a b : Nat) : Prop :=
  a ∈ s.layouts ∧ ∃ t, isEdge t ∧ ⟨b, t⟩ ∈ (s.nodes a).successors

/-! ## The components -/

/-- A component of the iterator: the visited nodes and the components that will be collapsed. -/
def visitSCC (visited : Finset Nat × List (List Nat)) (scc : List Nat) :
    Finset Nat × List (List Nat) :=
  match scc with
  | [] => visited
  | first :: _ =>
      if first ∈ visited.1 then visited
      else (visited.1 ∪ scc.toFinset, if 1 < scc.length then visited.2 ++ [scc] else visited.2)

/-- The components with more than one node, where `sccs` are those that `llvm::scc_iterator` finds
from a node on. -/
def toCollapse (sccs : Nat → List (List Nat)) (s : LayoutTypeSystem E) : List (List Nat) :=
  (s.layouts.sort.foldl (fun visited n =>
    if n ∈ visited.1 then visited else (sccs n).foldl visitSCC visited) (∅, [])).2

variable [IntEqClasses E]

/-! ## Merging the nodes of a component -/

/-- The loop over the nodes of a component, where `leader` and `same` are those that will be merged
next.  It returns the leaders. -/
def mergeSizes (currentSize leader : Nat) (same : List Nat) :
    List Nat → LayoutTypeSystem E → Option (List Nat × LayoutTypeSystem E)
  | [], s => (s.mergeNodes (leader :: same)).map ([leader], ·)
  | n :: rest, s =>
      if (s.nodes n).size = currentSize then
        mergeSizes currentSize leader (same ++ [n]) rest s
      else do
        let s ← s.mergeNodes (leader :: same)
        let (leaders, s) ← mergeSizes currentSize n [] rest s
        return (leader :: leaders, s)

/-- The last leader is merged into the first one if its size is zero. -/
def mergeEmpty (leaders : List Nat) (s : LayoutTypeSystem E) :
    Option (List Nat × LayoutTypeSystem E) :=
  match leaders.head?, leaders.getLast? with
  | some first, some last =>
      if 1 < leaders.length ∧ (s.nodes last).size = 0 then
        (s.mergeNodes [first, last]).map (leaders.dropLast, ·)
      else some (leaders, s)
  | _, _ => some (leaders, s)

/-! ## Linking the leaders -/

/-- An edge of a leader is erased, if it leads to a leader and is no pointer. -/
def eraseLeaderEdge (leaders : List Nat) (leader : Nat) (s : LayoutTypeSystem E) (edge : Link) :
    Option (LayoutTypeSystem E) :=
  if isPointerEdge edge.tag then some s
  else if edge.node ∉ leaders then some s
  else s.eraseEdge leader edge

def eraseLeaderEdges (leaders : List Nat) (leader : Nat) (s : LayoutTypeSystem E) :
    Option (LayoutTypeSystem E) :=
  (s.nodes leader).successors.inOrder.foldlM (eraseLeaderEdge leaders leader) s

def linkLeaders (leaders : List Nat) : List Nat → LayoutTypeSystem E → Option (LayoutTypeSystem E)
  | [], s => some s
  | [leader], s => eraseLeaderEdges leaders leader s
  | leader :: next :: rest, s => do
      let s ← eraseLeaderEdges leaders leader s
      let s ← s.addInstanceLink (some leader) (some next) ⟨0, [], []⟩
      linkLeaders leaders (next :: rest) s

/-! ## The collapse -/

/-- `sizeGreater` orders the nodes. -/
def sortBySize (s : LayoutTypeSystem E) (scc : List Nat) : List Nat :=
  scc.mergeSort fun a b => (s.nodes b).size ≤ (s.nodes a).size

def collapseSCC (s : LayoutTypeSystem E) (scc : List Nat) : Option (LayoutTypeSystem E) :=
  match sortBySize s scc with
  | [] => none
  | first :: rest => do
      let (leaders, s) ← mergeSizes (s.nodes first).size first [] rest s
      let (leaders, s) ← mergeEmpty leaders s
      if leaders.length < 2 then return s
      linkLeaders leaders leaders s

def collapseSCCs (sccs : Nat → List (List Nat)) (s : LayoutTypeSystem E) :
    Option (LayoutTypeSystem E) :=
  (toCollapse sccs s).foldlM collapseSCC s

end LayoutTypeSystem

theorem Represents.linked_iff {s : LayoutTypeSystem E} {g : TypeGraph}
    (hs : Represents s.layouts s.nodes g) (isEdge : TypeLinkTag → Bool) (a b : Nat) :
    LayoutTypeSystem.Linked isEdge s a b ↔ ∃ t, isEdge t ∧ (a, t, b) ∈ g.edges := by
  constructor
  · rintro ⟨ha, t, ht, hmem⟩
    exact ⟨t, ht, (hs.successors a ha b t).mp hmem⟩
  · rintro ⟨t, ht, hedge⟩
    have ha := (hs.vertices a).mpr (g.source_mem hedge)
    exact ⟨ha, t, ht, (hs.successors a ha b t).mpr hedge⟩

end DataLayout
