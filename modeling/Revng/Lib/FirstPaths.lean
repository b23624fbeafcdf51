import Mathlib.Data.List.Lex
import Revng.Lib.StrongComponents

/-!
# First paths

The edges of a graph are ordered.  The first path to a vertex is the least of the paths to it that
visit no vertex twice, where the paths are compared edge by edge.  These are the paths on which a
depth-first search finds the vertices (`isFirst_of_levels`).
-/

/-- The edges of a graph start from its vertices, and every edge has a target. -/
structure OrderedGraph (V E : Type*) where
  out : V → Set E
  tgt : E → V

namespace OrderedGraph

open Relation StrongComponents

variable {V E : Type*} (g : OrderedGraph V E)

/-! ## Paths -/

def IsPath : V → List E → Prop
  | _, [] => True
  | a, e :: p => e ∈ g.out a ∧ IsPath (g.tgt e) p

/-- The vertex a path leads to. -/
def ends : V → List E → V
  | a, [] => a
  | _, e :: p => ends (g.tgt e) p

def nodes (a : V) (p : List E) : List V := a :: p.map g.tgt

/-- The edges of a path, each with its source. -/
def arcs : V → List E → List (V × E)
  | _, [] => []
  | a, e :: p => (a, e) :: arcs (g.tgt e) p

variable {g} {a b r : V} {e d : E} {p q : List E}

theorem isPath_append : ∀ {a : V} {p q : List E},
    g.IsPath a (p ++ q) ↔ g.IsPath a p ∧ g.IsPath (g.ends a p) q
  | _, [], _ => by simp [IsPath, ends]
  | _, e :: p, q => by
      simp only [List.cons_append, IsPath, ends]
      rw [isPath_append (p := p), and_assoc]

theorem ends_append : ∀ {a : V} {p q : List E}, g.ends a (p ++ q) = g.ends (g.ends a p) q
  | _, [], _ => rfl
  | _, _ :: p, _ => ends_append (p := p)

theorem arcs_append : ∀ {a : V} {p q : List E},
    g.arcs a (p ++ q) = g.arcs a p ++ g.arcs (g.ends a p) q
  | _, [], _ => rfl
  | _, _ :: p, _ => congrArg _ (arcs_append (p := p))

theorem nodes_append : g.nodes a (p ++ q) = g.nodes a p ++ q.map g.tgt := by
  simp [nodes]

theorem ends_mem_nodes : ∀ {a : V} {p : List E}, g.ends a p ∈ g.nodes a p
  | _, [] => List.mem_cons_self
  | _, e :: p => List.mem_cons_of_mem _ (ends_mem_nodes (a := g.tgt e) (p := p))

/-- A vertex of a path splits it. -/
theorem exists_split_of_mem_nodes : ∀ {a : V} {p : List E}, b ∈ g.nodes a p →
    ∃ p₁ p₂, p = p₁ ++ p₂ ∧ g.ends a p₁ = b
  | a, [], h => ⟨[], [], rfl, (List.mem_singleton.mp h).symm⟩
  | a, e :: p, h => by
      rcases List.mem_cons.mp h with rfl | h
      · exact ⟨[], e :: p, rfl, rfl⟩
      · obtain ⟨p₁, p₂, rfl, hends⟩ := exists_split_of_mem_nodes (a := g.tgt e) (p := p) h
        exact ⟨e :: p₁, p₂, rfl, hends⟩

/-- So does an edge. -/
theorem exists_split_of_mem_arcs : ∀ {a : V} {p : List E} {f : V × E}, f ∈ g.arcs a p →
    ∃ p₁ p₂, p = p₁ ++ f.2 :: p₂ ∧ g.ends a p₁ = f.1
  | a, e :: p, f, h => by
      rcases List.mem_cons.mp h with rfl | h
      · exact ⟨[], p, rfl, rfl⟩
      · obtain ⟨p₁, p₂, rfl, hends⟩ := exists_split_of_mem_arcs (a := g.tgt e) (p := p) h
        exact ⟨e :: p₁, p₂, rfl, hends⟩

theorem mem_out_of_mem_arcs (hp : g.IsPath a p) {f : V × E} (hf : f ∈ g.arcs a p) :
    f.2 ∈ g.out f.1 := by
  obtain ⟨p₁, p₂, rfl, hends⟩ := exists_split_of_mem_arcs hf
  exact hends ▸ (isPath_append.mp hp).2.1

variable (g) in
def Linked (a b : V) : Prop := ∃ e ∈ g.out a, g.tgt e = b

theorem reaches_of_isPath : ∀ {a : V} {p : List E}, g.IsPath a p →
    ReflTransGen g.Linked a (g.ends a p)
  | _, [], _ => ReflTransGen.refl
  | _, e :: _, h => .head ⟨e, h.1, rfl⟩ (reaches_of_isPath h.2)

theorem exists_isPath (h : ReflTransGen g.Linked a b) : ∃ p, g.IsPath a p ∧ g.ends a p = b := by
  induction h with
  | refl => exact ⟨[], trivial, rfl⟩
  | tail _ hedge ih =>
    obtain ⟨p, hp, rfl⟩ := ih
    obtain ⟨e, he, rfl⟩ := hedge
    exact ⟨p ++ [e], isPath_append.mpr ⟨hp, he, trivial⟩, ends_append⟩

/-! ## First paths -/

section FirstPaths

variable [LinearOrder E]

/-- No other simple path with the same end is before this one. -/
structure IsFirst (g : OrderedGraph V E) (r : V) (p : List E) : Prop where
  path : g.IsPath r p
  simple : (g.nodes r p).Nodup
  least : ∀ q, g.IsPath r q → (g.nodes r q).Nodup → g.ends r q = g.ends r p → p ≤ q

theorem IsFirst.unique (hp : g.IsFirst r p) (hq : g.IsFirst r q) (h : g.ends r p = g.ends r q) :
    p = q :=
  le_antisymm (hp.least q hq.path hq.simple h.symm) (hq.least p hp.path hp.simple h)

/-- Where a path parts from a later one. -/
theorem exists_split_of_lt (h : q < p) : (∃ e p₂, p = q ++ e :: p₂) ∨
    ∃ p₁ d e q₂ p₂, q = p₁ ++ d :: q₂ ∧ p = p₁ ++ e :: p₂ ∧ d < e := by
  induction h with
  | nil => exact Or.inl ⟨_, _, rfl⟩
  | rel h => exact Or.inr ⟨[], _, _, _, _, rfl, rfl, h⟩
  | cons _ ih =>
    rcases ih with ⟨e, p₂, rfl⟩ | ⟨p₁, d, e, q₂, p₂, rfl, rfl, hlt⟩
    · exact Or.inl ⟨e, p₂, rfl⟩
    · exact Or.inr ⟨_ :: p₁, d, e, q₂, p₂, rfl, rfl, hlt⟩

/-- What was visited before the search went on from the end of `p` with the edge `e`: nothing new is
reached from there, but from the path itself. -/
structure Level (g : OrderedGraph V E) (r : V) (p : List E) (e : E) (visited : Set V) : Prop where
  onPath : ∀ v ∈ g.nodes r p, v ∈ visited
  closed : ∀ v ∈ visited, v ∉ g.nodes r p → ∀ d ∈ g.out v, g.tgt d ∈ visited
  before : ∀ d ∈ g.out (g.ends r p), d < e → g.tgt d ∈ visited

/-- A path from a vertex that was visited stays in what was visited, if it keeps off the path. -/
theorem Level.ends_mem {visited : Set V} (h : Level g r p e visited) : ∀ {a : V} {q : List E},
    a ∈ visited → g.IsPath a q → (∀ v ∈ g.nodes a q, v ∉ g.nodes r p) → g.ends a q ∈ visited
  | _, [], ha, _, _ => ha
  | a, d :: q, ha, hq, hoff => by
      have hd := h.closed a ha (hoff a List.mem_cons_self) d hq.1
      exact Level.ends_mem h (a := g.tgt d) hd hq.2 fun v hv => hoff v (List.mem_cons_of_mem a hv)

/-- A path is first if at each of its edges all of it that follows was not visited. -/
theorem isFirst_of_levels (hp : g.IsPath r p) (hsimple : (g.nodes r p).Nodup)
    (hlevels : ∀ p₁ e p₂, p = p₁ ++ e :: p₂ → ∃ visited, Level g r p₁ e visited ∧
      g.ends r p ∉ visited) : g.IsFirst r p := by
  refine ⟨hp, hsimple, fun q hq hqsimple hends => not_lt.mp fun hlt => ?_⟩
  rcases exists_split_of_lt hlt with ⟨e, p₂, rfl⟩ | ⟨p₁, d, e, q₂, p₂, rfl, rfl, hde⟩
  · obtain ⟨visited, hlevel, hnew⟩ := hlevels q e p₂ rfl
    exact hnew (hends ▸ hlevel.onPath _ ends_mem_nodes)
  · obtain ⟨visited, hlevel, hnew⟩ := hlevels p₁ e p₂ rfl
    obtain ⟨-, hd, hq₂⟩ := isPath_append.mp hq
    refine hnew (hends ▸ ?_)
    rw [ends_append]
    refine hlevel.ends_mem (a := g.tgt d) (hlevel.before d hd hde) hq₂ fun v hv hvp => ?_
    rw [nodes_append] at hqsimple
    exact List.disjoint_of_nodup_append hqsimple hvp hv

/-- A path that takes the first edge everywhere is first. -/
theorem isFirst_of_least (hp : g.IsPath r p) (hsimple : (g.nodes r p).Nodup)
    (hleast : ∀ f ∈ g.arcs r p, ∀ d ∈ g.out f.1, f.2 ≤ d) : g.IsFirst r p := by
  refine ⟨hp, hsimple, fun q hq _ hends => not_lt.mp fun hlt => ?_⟩
  rcases exists_split_of_lt hlt with ⟨e, p₂, rfl⟩ | ⟨p₁, d, e, q₂, p₂, rfl, rfl, hde⟩
  · -- the path goes on to another vertex
    rw [nodes_append] at hsimple
    have hlast : g.ends r (q ++ e :: p₂) ∈ (e :: p₂).map g.tgt := by
      rw [ends_append]
      exact ends_mem_nodes (a := g.tgt e) (p := p₂)
    exact List.disjoint_of_nodup_append hsimple ends_mem_nodes (hends ▸ hlast)
  · have hmem : (g.ends r p₁, e) ∈ g.arcs r (p₁ ++ e :: p₂) := by
      rw [arcs_append]
      exact List.mem_append_right _ List.mem_cons_self
    exact absurd hde (not_lt.mpr (hleast _ hmem d (isPath_append.mp hq).2.1))

end FirstPaths

/-!
## Edges exposed by loops

Some edges of a graph are weak, and the other ones form no cycle.  A root exposes the weak edges on
the first paths from it that an edge closes to a loop, and the weak edges that close one.  The roots
take turns, and what one exposes is removed before the next one's turn.

A cycle that a root reaches is broken unless it has an edge to a vertex that was found on another
path before (`exists_exposed`).  What is removed is on a cycle unless it is before the loop on the
path.  So `breakable_iff` says when exactly all cycles are broken by edges on cycles.
-/

variable {g' : OrderedGraph V E} {c : List E}

/-! ## Removing edges -/

variable (g) in
def without (X : Set (V × E)) : OrderedGraph V E where
  out := fun a => {e ∈ g.out a | (a, e) ∉ X}
  tgt := g.tgt

variable {X : Set (V × E)}

theorem without_empty : g.without ∅ = g := by
  simp [without]

/-- A graph with some of the edges of another one. -/
structure IsPart (k g : OrderedGraph V E) : Prop where
  out : ∀ a, k.out a ⊆ g.out a
  tgt : k.tgt = g.tgt

theorem IsPart.refl (g : OrderedGraph V E) : IsPart g g := ⟨fun _ => subset_rfl, rfl⟩

theorem IsPart.without (h : IsPart g' g) (X : Set (V × E)) : IsPart (g'.without X) g :=
  ⟨fun a _ he => h.out a he.1, h.tgt⟩

theorem isPart_without : IsPart (g.without X) g := (IsPart.refl g).without X

theorem arcs_congr (h : g'.tgt = g.tgt) : ∀ {a : V} {p : List E}, g'.arcs a p = g.arcs a p
  | _, [] => rfl
  | a, e :: p => by
      simp only [arcs, h]
      rw [arcs_congr h (p := p)]

theorem ends_congr (h : g'.tgt = g.tgt) : ∀ {a : V} {p : List E}, g'.ends a p = g.ends a p
  | _, [] => rfl
  | a, e :: p => by
      simp only [ends, h]
      rw [ends_congr h (p := p)]

theorem IsPart.arcs_eq (h : IsPart g' g) {a : V} {p : List E} : g'.arcs a p = g.arcs a p :=
  arcs_congr h.tgt

theorem IsPart.ends_eq (h : IsPart g' g) {a : V} {p : List E} : g'.ends a p = g.ends a p :=
  ends_congr h.tgt

theorem IsPart.isPath (h : IsPart g' g) : ∀ {a : V} {p : List E}, g'.IsPath a p → g.IsPath a p
  | _, [], _ => trivial
  | _, _ :: _, hp => ⟨h.out _ hp.1, h.isPath (h.tgt ▸ hp.2)⟩

theorem IsPart.reaches (h : IsPart g' g) (hab : ReflTransGen g'.Linked a b) :
    ReflTransGen g.Linked a b := by
  obtain ⟨p, hp, hends⟩ := exists_isPath hab
  rw [h.ends_eq] at hends
  exact hends ▸ reaches_of_isPath (h.isPath hp)

theorem isPath_without : ∀ {a : V} {p : List E},
    (g.without X).IsPath a p ↔ g.IsPath a p ∧ ∀ f ∈ g.arcs a p, f ∉ X
  | _, [] => by simp [IsPath, arcs]
  | a, e :: p => by
      simp only [IsPath, arcs, List.forall_mem_cons]
      rw [isPath_without (p := p)]
      simp only [without, Set.mem_ofPred_eq]
      tauto

/-! ## Cycles -/

variable (g) in
/-- An edge is on a cycle, if its source can be reached from its target. -/
def OnCycle (f : V × E) : Prop := ReflTransGen g.Linked (g.tgt f.2) f.1

variable (g) in
/-- A closed walk. -/
structure IsCycle (a : V) (c : List E) : Prop where
  path : g.IsPath a c
  ends : g.ends a c = a
  nonempty : c ≠ []

theorem exists_isCycle (h : TransGen g.Linked a a) : ∃ c, g.IsCycle a c := by
  obtain ⟨b, ⟨e, he, rfl⟩, hreach⟩ := TransGen.head'_iff.mp h
  obtain ⟨p, hp, hends⟩ := exists_isPath hreach
  exact ⟨e :: p, ⟨he, hp⟩, hends, List.cons_ne_nil e p⟩

theorem IsCycle.transGen (h : g.IsCycle a c) : TransGen g.Linked a a := by
  obtain ⟨hpath, hends, hnonempty⟩ := h
  cases c with
  | nil => exact absurd rfl hnonempty
  | cons e p => exact TransGen.head' ⟨e, hpath.1, rfl⟩ (hends ▸ reaches_of_isPath hpath.2)

/-- A cycle can be walked from each of its edges. -/
theorem IsCycle.exists_walk (h : g.IsCycle a c) {f : V × E} (hf : f ∈ g.arcs a c) :
    ∃ w, g.IsPath (g.tgt f.2) w ∧ g.ends (g.tgt f.2) w = f.1 ∧
      ∀ k ∈ g.arcs (g.tgt f.2) w, k ∈ g.arcs a c := by
  obtain ⟨c₁, c₂, rfl, hsrc⟩ := exists_split_of_mem_arcs hf
  obtain ⟨hpath, hends, -⟩ := h
  obtain ⟨hc₁, -, hc₂⟩ := isPath_append.mp hpath
  rw [ends_append] at hends
  have hback : g.ends (g.tgt f.2) c₂ = a := hends
  refine ⟨c₂ ++ c₁, isPath_append.mpr ⟨hc₂, hback ▸ hc₁⟩, ?_, fun k hk => ?_⟩
  · rw [ends_append, hback, hsrc]
  · rw [arcs_append, hback, List.mem_append] at hk
    rw [arcs_append, List.mem_append]
    exact hk.elim (fun hk => Or.inr (List.mem_cons_of_mem _ hk)) Or.inl

theorem IsCycle.reaches_back (h : g.IsCycle a c) {f : V × E} (hf : f ∈ g.arcs a c) :
    ReflTransGen g.Linked f.1 a := by
  obtain ⟨c₁, c₂, rfl, hsrc⟩ := exists_split_of_mem_arcs hf
  have hends := h.ends
  rw [ends_append, hsrc] at hends
  have hpath := reaches_of_isPath (hsrc ▸ (isPath_append.mp h.path).2)
  rwa [hends] at hpath

theorem isCycle_without (h : g.IsCycle a c) (hX : ∀ f ∈ g.arcs a c, f ∉ X) :
    (g.without X).IsCycle a c :=
  ⟨isPath_without.mpr ⟨h.path, hX⟩, isPart_without.ends_eq.trans h.ends, h.nonempty⟩

/-- No cycle is left if every one had a removed edge. -/
theorem acyclic_without_iff : Acyclic (g.without X).Linked ↔
    ∀ a c, g.IsCycle a c → ∃ f ∈ g.arcs a c, f ∈ X := by
  constructor
  · intro hacyclic a c hc
    by_contra hnone
    exact hacyclic a (isCycle_without hc fun f hf hX => hnone ⟨f, hf, hX⟩).transGen
  · intro hall a ha
    obtain ⟨c, hc⟩ := exists_isCycle ha
    obtain ⟨hpath, hnone⟩ := isPath_without.mp hc.path
    obtain ⟨f, hf, hX⟩ := hall a c ⟨hpath, isPart_without.ends_eq.symm.trans hc.ends, hc.nonempty⟩
    exact hnone f hf hX

/-! ## What a root exposes -/

variable [LinearOrder E] (weak : E → Prop)

/-- An edge leads from the end of a first path back to a vertex of the path. -/
structure Closes (g : OrderedGraph V E) (r : V) (p : List E) (e : E) : Prop where
  first : g.IsFirst r p
  mem : e ∈ g.out (g.ends r p)
  back : g.tgt e ∈ g.nodes r p

variable (g) in
/-- The weak edges on a path that an edge closes to a loop, and those that close one. -/
def exposed (r : V) : Set (V × E) :=
  {f | weak f.2 ∧ ∃ p e, g.Closes r p e ∧ (f ∈ g.arcs r p ∨ f = (g.ends r p, e))}

variable (g) in
/-- An edge continues the first path to its source as the one to its target, or leads back to the
path. -/
def Follows (r : V) (f : V × E) : Prop :=
  ∃ p, g.IsFirst r p ∧ g.ends r p = f.1 ∧ (g.tgt f.2 ∈ g.nodes r p ∨ g.IsFirst r (p ++ [f.2]))

variable {weak}

/-- Two graphs that agree on vertices which no edge leads out of. -/
structure AgreesOn (U : Set V) (g' g : OrderedGraph V E) : Prop where
  closed : ∀ a ∈ U, ∀ e ∈ g.out a, g.tgt e ∈ U
  out : ∀ a ∈ U, g'.out a = g.out a
  tgt : g'.tgt = g.tgt

namespace AgreesOn

variable {U : Set V} (h : AgreesOn U g' g)

include h

omit [LinearOrder E] in
theorem isPath_iff : ∀ {a : V} {p : List E}, a ∈ U → (g'.IsPath a p ↔ g.IsPath a p)
  | _, [], _ => Iff.rfl
  | a, e :: p, ha => by
      simp only [IsPath, h.out a ha, h.tgt]
      exact and_congr_right fun he => isPath_iff (h.closed a ha e he)

omit [LinearOrder E] in
theorem ends_mem : ∀ {a : V} {p : List E}, a ∈ U → g.IsPath a p → g.ends a p ∈ U
  | _, [], ha, _ => ha
  | a, e :: _, ha, hp => ends_mem (a := g.tgt e) (h.closed a ha e hp.1) hp.2

theorem isFirst_iff (hr : r ∈ U) : g'.IsFirst r p ↔ g.IsFirst r p := by
  have hnodes : ∀ q, g'.nodes r q = g.nodes r q := fun q => by rw [nodes, nodes, h.tgt]
  constructor
  · rintro ⟨hp, hsimple, hleast⟩
    refine ⟨(h.isPath_iff hr).mp hp, hnodes p ▸ hsimple, fun q hq hqsimple hends => ?_⟩
    refine hleast q ((h.isPath_iff hr).mpr hq) (hnodes q ▸ hqsimple) ?_
    rw [ends_congr h.tgt, ends_congr h.tgt, hends]
  · rintro ⟨hp, hsimple, hleast⟩
    refine ⟨(h.isPath_iff hr).mpr hp, hnodes p ▸ hsimple, fun q hq hqsimple hends => ?_⟩
    refine hleast q ((h.isPath_iff hr).mp hq) (hnodes q ▸ hqsimple) ?_
    rw [ends_congr h.tgt, ends_congr h.tgt] at hends
    exact hends

/-- What a root exposes depends only on what it reaches. -/
theorem exposed_eq (hr : r ∈ U) : g'.exposed weak r = g.exposed weak r := by
  have hcloses : ∀ p e, g'.Closes r p e ↔ g.Closes r p e := by
    intro p e
    have hnodes : g'.nodes r p = g.nodes r p := by rw [nodes, nodes, h.tgt]
    constructor
    · rintro ⟨hfirst, hmem, hback⟩
      have hfirst := (h.isFirst_iff hr).mp hfirst
      rw [ends_congr h.tgt, h.out _ (h.ends_mem hr hfirst.path)] at hmem
      rw [h.tgt, hnodes] at hback
      exact ⟨hfirst, hmem, hback⟩
    · rintro ⟨hfirst, hmem, hback⟩
      refine ⟨(h.isFirst_iff hr).mpr hfirst, ?_, ?_⟩
      · rwa [ends_congr h.tgt, h.out _ (h.ends_mem hr hfirst.path)]
      · rwa [h.tgt, hnodes]
  simp only [exposed, hcloses, arcs_congr h.tgt, ends_congr h.tgt]

end AgreesOn

/-- A walk that leaves what is below a first path `s` has an edge that closes a loop there. -/
theorem exists_closes_below {s : List E} : ∀ {v : V} {w q : List E}, g.IsPath v w →
    (∀ f ∈ g.arcs v w, g.Follows r f) → g.IsFirst r q → g.ends r q = v → s <+: q →
    (∀ p, g.IsFirst r p → g.ends r p = g.ends v w → ¬ s <+: p) →
    ∃ q' d, g.Closes r q' d ∧ s <+: q'
  | v, [], q, _, _, hq, hv, hs, hout => absurd hs (hout q hq hv)
  | v, d :: w, q, hw, hfollows, hq, hv, hs, hout => by
      obtain ⟨p, hp, hends, hcase⟩ := hfollows (v, d) List.mem_cons_self
      obtain rfl : p = q := hp.unique hq (hends.trans hv.symm)
      rcases hcase with hback | hnext
      · exact ⟨p, d, ⟨hq, hv ▸ hw.1, hback⟩, hs⟩
      · refine exists_closes_below (v := g.tgt d) hw.2
          (fun f hf => hfollows f (List.mem_cons_of_mem _ hf)) hnext ?_
          (hs.trans (List.prefix_append p [d])) hout
        rw [ends_append]
        rfl

/-- A cycle is broken, if the edges follow first paths and one of them is weak. -/
theorem exists_exposed (hc : g.IsCycle a c) (hfollows : ∀ f ∈ g.arcs a c, g.Follows r f)
    (hweak : ∃ f ∈ g.arcs a c, weak f.2) : ∃ f ∈ g.arcs a c, f ∈ g.exposed weak r := by
  obtain ⟨f, hf, hweak⟩ := hweak
  refine ⟨f, hf, hweak, ?_⟩
  obtain ⟨p, hp, hends, hback | hnext⟩ := hfollows f hf
  · exact ⟨p, f.2, ⟨hp, hends ▸ mem_out_of_mem_arcs hc.path hf, hback⟩, Or.inr (by rw [hends])⟩
  · obtain ⟨w, hw, hsrc, hmem⟩ := hc.exists_walk hf
    -- the walk comes back to the source, which is not below the edge
    have hout : ∀ p', g.IsFirst r p' → g.ends r p' = g.ends (g.tgt f.2) w → ¬ (p ++ [f.2]) <+: p' := by
      intro p' hp' hends' hprefix
      obtain rfl : p = p' := hp.unique hp' (by rw [hends, hends', hsrc])
      have hlength := hprefix.length_le
      rw [List.length_append, List.length_singleton] at hlength
      omega
    obtain ⟨q, d, hcloses, t, rfl⟩ := exists_closes_below hw (fun k hk => hfollows k (hmem k hk))
      hnext (by rw [ends_append]; rfl) (List.prefix_rfl) hout
    refine ⟨_, d, hcloses, Or.inl ?_⟩
    rw [List.append_assoc, arcs_append, hends]
    exact List.mem_append_right _ List.mem_cons_self

/-! ## The turns of the roots -/

variable (weak)

/-- What all roots expose, one after the other. -/
def exposedAll : OrderedGraph V E → List V → Set (V × E)
  | _, [] => ∅
  | g, r :: roots => g.exposed weak r ∪ exposedAll (g.without (g.exposed weak r)) roots

/-- Something holds of every root and the graph at its turn. -/
def AtTurns (P : OrderedGraph V E → V → Prop) : OrderedGraph V E → List V → Prop
  | _, [] => True
  | g, r :: roots => P g r ∧ AtTurns P (g.without (g.exposed weak r)) roots

variable {weak} {roots : List V} {P : OrderedGraph V E → V → Prop}

theorem reaches_of_exposed {f : V × E} (hf : f ∈ g.exposed weak r) :
    ReflTransGen g.Linked r f.1 := by
  obtain ⟨-, p, e, hcloses, harc | rfl⟩ := hf
  · obtain ⟨p₁, p₂, rfl, hends⟩ := exists_split_of_mem_arcs harc
    exact hends ▸ reaches_of_isPath (isPath_append.mp hcloses.first.path).1
  · exact reaches_of_isPath hcloses.first.path

theorem mem_out_of_exposed {f : V × E} (hf : f ∈ g.exposed weak r) : f.2 ∈ g.out f.1 := by
  obtain ⟨-, p, e, hcloses, harc | rfl⟩ := hf
  · exact mem_out_of_mem_arcs hcloses.first.path harc
  · exact hcloses.mem

theorem exists_root_of_exposedAll : ∀ {g : OrderedGraph V E} {roots : List V} {f : V × E},
    f ∈ exposedAll weak g roots → ∃ r ∈ roots, ReflTransGen g.Linked r f.1
  | g, r :: roots, f, hf => by
      rcases hf with hf | hf
      · exact ⟨r, List.mem_cons_self, reaches_of_exposed hf⟩
      · obtain ⟨r', hr', hreach⟩ := exists_root_of_exposedAll hf
        exact ⟨r', List.mem_cons_of_mem _ hr', isPart_without.reaches hreach⟩

/-- What holds of every part of the graph, in which all is exposed that the root exposes there. -/
theorem atTurns_of_forall : ∀ {k : OrderedGraph V E} {roots : List V}, IsPart k g →
    exposedAll weak k roots ⊆ X →
    (∀ (k : OrderedGraph V E) r, IsPart k g → k.exposed weak r ⊆ X → P k r) → AtTurns weak P k roots
  | _, [], _, _, _ => trivial
  | k, r :: _, hpart, hsub, hP =>
    ⟨hP k r hpart fun _ hf => hsub (Or.inl hf),
      atTurns_of_forall (hpart.without _) (fun _ hf => hsub (Or.inr hf)) hP⟩

/-- When all cycles are broken by edges that are on cycles: every cycle is reached, a cycle is
broken if it has an edge to a vertex that was found on another path before, and the weak edges on
the path before a loop are on cycles. -/
structure Breakable (weak : E → Prop) (g : OrderedGraph V E) (roots : List V) : Prop where
  reached : ∀ a c, g.IsCycle a c → ∃ r ∈ roots, ReflTransGen g.Linked r a
  crossed : AtTurns weak (fun k r => ∀ a c, ReflTransGen k.Linked r a → k.IsCycle a c →
    (∃ f ∈ k.arcs a c, ¬ k.Follows r f) → ∃ f ∈ k.arcs a c, f ∈ exposedAll weak g roots) g roots
  entered : AtTurns weak (fun k r => ∀ p₁ p₂ e, k.Closes r (p₁ ++ p₂) e → k.ends r p₁ = k.tgt e →
    ∀ f ∈ k.arcs r p₁, weak f.2 → g.OnCycle f) g roots

/-- Every cycle that a root reaches is broken at some turn. -/
theorem exists_exposedAll : ∀ {g : OrderedGraph V E} {roots : List V} {a : V} {c : List E},
    exposedAll weak g roots ⊆ X →
    AtTurns weak (fun k r => ∀ a c, ReflTransGen k.Linked r a → k.IsCycle a c →
      (∃ f ∈ k.arcs a c, ¬ k.Follows r f) → ∃ f ∈ k.arcs a c, f ∈ X) g roots →
    g.IsCycle a c → (∃ f ∈ g.arcs a c, weak f.2) → (∃ r ∈ roots, ReflTransGen g.Linked r a) →
    ∃ f ∈ g.arcs a c, f ∈ X
  | _, [], _, _, _, _, _, _, hroot => by simp at hroot
  | g, r :: roots, a, c, hsub, hcrossed, hc, hweak, ⟨r', hr', hreach⟩ => by
      by_cases hra : ReflTransGen g.Linked r a
      · by_cases hcross : ∃ f ∈ g.arcs a c, ¬ g.Follows r f
        · exact hcrossed.1 a c hra hc hcross
        · push Not at hcross
          obtain ⟨f, hf, hexposed⟩ := exists_exposed hc hcross hweak
          exact ⟨f, hf, hsub (Or.inl hexposed)⟩
      · -- what the first root exposes does not lead to the cycle
        have hkeep : ∀ f, ReflTransGen g.Linked f.1 a → f ∉ g.exposed weak r := fun f hf hexposed =>
          hra ((reaches_of_exposed hexposed).trans hf)
        have hr'roots : r' ∈ roots := by
          rcases List.mem_cons.mp hr' with rfl | hr'
          · exact absurd hreach hra
          · exact hr'
        obtain ⟨p, hp, hends⟩ := exists_isPath hreach
        have hpath : (g.without (g.exposed weak r)).IsPath r' p := by
          refine isPath_without.mpr ⟨hp, fun f hf => hkeep f ?_⟩
          obtain ⟨p₁, p₂, rfl, hsrc⟩ := exists_split_of_mem_arcs hf
          have hrest := reaches_of_isPath (isPath_append.mp hp).2
          rwa [← ends_append, hends, hsrc] at hrest
        have hreach' := reaches_of_isPath hpath
        rw [isPart_without.ends_eq, hends] at hreach'
        obtain ⟨f, hf, hX⟩ := exists_exposedAll (fun _ hf => hsub (Or.inr hf)) hcrossed.2
          (isCycle_without hc fun f hf => hkeep f (hc.reaches_back hf))
          (by rwa [isPart_without.arcs_eq]) ⟨r', hr'roots, hreach'⟩
        exact ⟨f, isPart_without.arcs_eq ▸ hf, hX⟩

/-- What a root exposes is before the loop on its path, or on the loop. -/
theorem onCycle_of_exposed {k : OrderedGraph V E} {f : V × E} (hf : f ∈ k.exposed weak r) :
    k.OnCycle f ∨ ∃ p₁ p₂ e, k.Closes r (p₁ ++ p₂) e ∧ k.ends r p₁ = k.tgt e ∧ f ∈ k.arcs r p₁ := by
  obtain ⟨-, p, e, hcloses, hcase⟩ := hf
  obtain ⟨p₁, p₂, rfl, hsplit⟩ := exists_split_of_mem_nodes hcloses.back
  have hmem := hcloses.mem
  have hpath := (isPath_append.mp hcloses.first.path).2
  rw [ends_append, hsplit] at hmem
  rw [hsplit] at hpath
  rcases hcase with harc | rfl
  · rw [arcs_append, hsplit, List.mem_append] at harc
    rcases harc with harc | harc
    · exact Or.inr ⟨p₁, p₂, e, hcloses, hsplit, harc⟩
    · -- the loop goes on to the end of the path and back
      obtain ⟨p₃, p₄, rfl, hsrc⟩ := exists_split_of_mem_arcs harc
      have hbefore := reaches_of_isPath (isPath_append.mp hpath).1
      have hafter := reaches_of_isPath (isPath_append.mp hpath).2.2
      rw [hsrc] at hbefore
      rw [ends_append, hsrc] at hmem
      exact Or.inl ((hafter.tail ⟨e, hmem, rfl⟩).trans hbefore)
  · left
    rw [OnCycle, ends_append, hsplit]
    exact reaches_of_isPath hpath

/-- What is exposed is on a cycle, if the edges before the loops are. -/
theorem onCycle_of_exposedAll : ∀ {k : OrderedGraph V E} {roots : List V} {f : V × E}, IsPart k g →
    AtTurns weak (fun k r => ∀ p₁ p₂ e, k.Closes r (p₁ ++ p₂) e → k.ends r p₁ = k.tgt e →
      ∀ f ∈ k.arcs r p₁, weak f.2 → g.OnCycle f) k roots →
    f ∈ exposedAll weak k roots → g.OnCycle f
  | k, r :: _, f, hpart, hentered, hf => by
      rcases hf with hf | hf
      · rcases onCycle_of_exposed hf with hloop | ⟨p₁, p₂, e, hcloses, hsplit, harc⟩
        · rw [OnCycle, ← hpart.tgt]
          exact hpart.reaches hloop
        · exact hentered.1 p₁ p₂ e hcloses hsplit f harc hf.1
      · exact onCycle_of_exposedAll (hpart.without _) hentered.2 hf

omit [LinearOrder E] in
/-- The edges that are not weak make up no cycle. -/
theorem exists_weak (hstrong : Acyclic fun a b => ∃ e ∈ g.out a, ¬ weak e ∧ g.tgt e = b)
    (hc : g.IsCycle a c) : ∃ f ∈ g.arcs a c, weak f.2 := by
  by_contra hnone
  have hcycle := isCycle_without (X := {f | weak f.2}) hc fun f hf hweak => hnone ⟨f, hf, hweak⟩
  refine hstrong a (TransGen.mono (fun x y hxy => ?_) a a hcycle.transGen)
  obtain ⟨e, ⟨he, hweak⟩, rfl⟩ := hxy
  exact ⟨e, he, hweak, rfl⟩

/-- All cycles are broken by edges that are on cycles exactly when the graph is breakable. -/
theorem breakable_iff (hstrong : Acyclic fun a b => ∃ e ∈ g.out a, ¬ weak e ∧ g.tgt e = b) :
    Acyclic (g.without (exposedAll weak g roots)).Linked ∧
      (∀ f ∈ exposedAll weak g roots, g.OnCycle f) ↔ Breakable weak g roots := by
  rw [acyclic_without_iff]
  constructor
  · rintro ⟨hbroken, honCycle⟩
    refine ⟨fun a c hc => ?_, ?_, ?_⟩
    · obtain ⟨f, hf, hX⟩ := hbroken a c hc
      obtain ⟨r, hr, hreach⟩ := exists_root_of_exposedAll hX
      exact ⟨r, hr, hreach.trans (hc.reaches_back hf)⟩
    · refine atTurns_of_forall (IsPart.refl g) subset_rfl fun k r hpart _ a c _ hc _ => ?_
      rw [hpart.arcs_eq]
      exact hbroken a c ⟨hpart.isPath hc.path, hpart.ends_eq ▸ hc.ends, hc.nonempty⟩
    · refine atTurns_of_forall (IsPart.refl g) subset_rfl fun k r _ hsub p₁ p₂ e hcloses _ f hf hweak => ?_
      refine honCycle f (hsub ⟨hweak, _, e, hcloses, Or.inl ?_⟩)
      rw [arcs_append]
      exact List.mem_append_left _ hf
  · rintro ⟨hreached, hcrossed, hentered⟩
    refine ⟨fun a c hc => ?_, fun f hf => ?_⟩
    · exact exists_exposedAll subset_rfl hcrossed hc (exists_weak hstrong hc) (hreached a c hc)
    · exact onCycle_of_exposedAll (IsPart.refl g) hentered hf

end OrderedGraph
