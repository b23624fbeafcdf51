import Mathlib.Data.Fintype.Card
import Mathlib.Order.WellFounded

/-!
# Strongly connected components

Two vertices are in one component when each reaches the other one.  A graph without cycles can be
made of another one by changing only what is inside of its components: the edges between the
components have no cycles to begin with (`acyclic_of_lt`).
-/

namespace StrongComponents

open Relation

variable {α : Type*} {r r' : α → α → Prop} {a b c : α}

/-- Each of the two vertices reaches the other one. -/
def Mutual (r : α → α → Prop) (a b : α) : Prop := ReflTransGen r a b ∧ ReflTransGen r b a

theorem Mutual.refl (r : α → α → Prop) (a : α) : Mutual r a a :=
  ⟨ReflTransGen.refl, ReflTransGen.refl⟩

theorem Mutual.symm (h : Mutual r a b) : Mutual r b a := ⟨h.2, h.1⟩

theorem Mutual.trans (h : Mutual r a b) (h' : Mutual r b c) : Mutual r a c :=
  ⟨h.1.trans h'.1, h'.2.trans h.2⟩

/-- A vertex that is in a component with another one has an edge. -/
theorem Mutual.exists_edge (h : Mutual r a b) (hne : a ≠ b) : ∃ c, r a c := by
  obtain heq | ⟨c, hedge, -⟩ := h.1.cases_head
  · exact absurd heq hne
  · exact ⟨c, hedge⟩

/-- A list of components: those of the vertices that are reached from `entry`. -/
structure Enumerates (r : α → α → Prop) (entry : α) (components : List (List α)) : Prop where
  nonempty : ∀ c ∈ components, c ≠ []
  nodup : ∀ c ∈ components, c.Nodup
  component : ∀ c ∈ components, ∀ a ∈ c, ∀ b, b ∈ c ↔ Mutual r a b
  covers : ∀ b, ReflTransGen r entry b → ∃ c ∈ components, b ∈ c

/-- The components that `entry` reaches, in an order in which no edge goes to a later one. -/
structure Sorted (r : α → α → Prop) (entry : α) (components : List (List α)) : Prop
    extends Enumerates r entry components where
  reached : ∀ c ∈ components, ∀ a ∈ c, ReflTransGen r entry a
  order : components.Pairwise fun c d => ∀ a ∈ c, ∀ b ∈ d, ¬r a b

/-- No edge leaves the first component. -/
theorem Sorted.closed_head {entry : α} {first : List α} {rest : List (List α)}
    (h : Sorted r entry (first :: rest)) (ha : a ∈ first) (hab : r a b) : b ∈ first := by
  have hreached := (h.reached first List.mem_cons_self a ha).tail hab
  obtain ⟨c, hc, hb⟩ := h.covers b hreached
  rcases List.mem_cons.mp hc with rfl | hc
  · exact hb
  · exact absurd hab (List.rel_of_pairwise_cons h.order hc a ha b hb)

/-- Whatever reaches the vertex is reached by it. -/
def IsSource (r : α → α → Prop) (a : α) : Prop := ∀ b, ReflTransGen r b a → ReflTransGen r a b

/-- In a finite graph every vertex is reached from a source. -/
theorem exists_source [Finite α] (r : α → α → Prop) (a : α) :
    ∃ b, IsSource r b ∧ ReflTransGen r b a := by
  let before : α → α → Prop := fun x y => ReflTransGen r x y ∧ ¬ReflTransGen r y x
  have htrans : IsTrans α before :=
    ⟨fun x y z hxy hyz => ⟨hxy.1.trans hyz.1, fun hzx => hxy.2 (hyz.1.trans hzx)⟩⟩
  have hirrefl : Std.Irrefl before := ⟨fun x hx => hx.2 hx.1⟩
  have hwf : WellFounded before := Finite.wellFounded_of_trans_of_irrefl before
  obtain ⟨b, hb, hmin⟩ := hwf.has_min {b | ReflTransGen r b a} ⟨a, .refl⟩
  refine ⟨b, fun c hc => ?_, hb⟩
  by_contra hnot
  exact hmin c (hc.trans hb) ⟨hc, hnot⟩

/-- Components that hold all vertices that are in one component with another vertex. -/
structure Components (r : α → α → Prop) (components : List (List α)) : Prop where
  nodup : ∀ c ∈ components, c.Nodup
  component : ∀ c ∈ components, ∀ a ∈ c, ∀ b, b ∈ c ↔ Mutual r a b
  disjoint : components.Pairwise List.Disjoint
  large : ∀ c ∈ components, 1 < c.length
  covers : ∀ a b, Mutual r a b → a ≠ b → ∃ c ∈ components, a ∈ c

/-- A vertex of such a component has an edge. -/
theorem Components.exists_edge {components : List (List α)} (h : Components r components)
    {c : List α} (hc : c ∈ components) (ha : a ∈ c) : ∃ b, r a b := by
  obtain ⟨x, rest, rfl⟩ := List.exists_cons_of_length_pos (Nat.lt_of_succ_lt (h.large c hc))
  obtain ⟨y, rest, rfl⟩ := List.exists_cons_of_length_pos (Nat.lt_of_succ_lt_succ (h.large _ hc))
  have hne : x ≠ y := fun heq => (List.nodup_cons.mp (h.nodup _ hc)).1 (heq ▸ List.mem_cons_self)
  -- one of the first two vertices is another one
  by_cases hax : a = x
  · have hy := (h.component _ hc a ha y).mp (List.mem_cons_of_mem _ List.mem_cons_self)
    exact hy.exists_edge (hax ▸ hne)
  · exact ((h.component _ hc a ha x).mp List.mem_cons_self).exists_edge hax

/-- There are none if every vertex is alone in its component. -/
theorem Components.eq_nil {components : List (List α)} (h : Components r components)
    (halone : ∀ a b, Mutual r a b → a = b) : components = [] := by
  refine List.eq_nil_iff_forall_not_mem.mpr fun c hc => ?_
  match c, h.large c hc, h.nodup c hc, h.component c hc with
  | x :: y :: rest, _, hnodup, hcomponent =>
    have hxy := (hcomponent x List.mem_cons_self y).mp (List.mem_cons_of_mem _ List.mem_cons_self)
    exact (List.nodup_cons.mp hnodup).1 (halone x y hxy ▸ List.mem_cons_self)

def Acyclic (r : α → α → Prop) : Prop := ∀ a, ¬ TransGen r a a

/-- The edges of `r'` stay within what `r` reaches, and those within a component go up. -/
theorem acyclic_of_lt (rank : α → Nat) (hle : ∀ a b, r' a b → ReflTransGen r a b)
    (hlt : ∀ a b, r' a b → ReflTransGen r b a → rank a < rank b) : Acyclic r' := by
  -- the vertices of a cycle are in one component, so the rank goes up along all of it
  have hup : ∀ a b, TransGen r' a b → ReflTransGen r b a → rank a < rank b := by
    intro a b hab
    induction hab with
    | single hedge => exact hlt a _ hedge
    | @tail b c hab hedge ih =>
      intro hca
      have hreach : ReflTransGen r a b := reflTransGen_closed hle _ _ hab.to_reflTransGen
      exact Nat.lt_trans (ih ((hle b c hedge).trans hca))
        (hlt b c hedge (hca.trans hreach))
  exact fun a ha => Nat.lt_irrefl _ (hup a a ha ReflTransGen.refl)

end StrongComponents
