import Mathlib.Data.Set.Lattice
import Mathlib.Order.CompletePartialOrder
import Mathlib.Order.Interval.Set.OrdConnected

/-!
# Groups of intervals

Items with a start and a stop, sorted by their starts, are put in groups: an item that starts
before the last group ends joins it, and any other one opens a group.  Each group covers all that is
between its ends, and the groups do not overlap (`Grouped.insertItem`).
-/

namespace IntervalGroups

structure Cluster (α : Type*) where
  items : List α
  first : Nat
  last : Nat

variable {α : Type*} {start stop : α → Nat}

def Cluster.single (start stop : α → Nat) (a : α) : Cluster α := ⟨[a], start a, stop a⟩

def Cluster.add (stop : α → Nat) (g : Cluster α) (a : α) : Cluster α :=
  ⟨g.items ++ [a], g.first, max g.last (stop a)⟩

/-- The groups are listed from the last one on. -/
def insertItem (start stop : α → Nat) : List (Cluster α) → α → List (Cluster α)
  | [], a => [.single start stop a]
  | g :: earlier, a =>
      if g.last ≤ start a then .single start stop a :: g :: earlier else g.add stop a :: earlier

/-- What a group covers is the union of its items. -/
structure Cluster.Valid (start stop : α → Nat) (g : Cluster α) : Prop where
  nonempty : g.items ≠ []
  within : ∀ a ∈ g.items, g.first ≤ start a ∧ stop a ≤ g.last
  covers : ∀ x, g.first ≤ x → x < g.last → ∃ a ∈ g.items, start a ≤ x ∧ x < stop a
  first_lt : g.first < g.last

/-- The groups of some sorted items. -/
structure Grouped (start stop : α → Nat) (groups : List (Cluster α)) (items : List α) : Prop where
  valid : ∀ g ∈ groups, g.Valid start stop
  separated : groups.Pairwise fun later earlier => earlier.last ≤ later.first
  items : groups.reverse.flatMap Cluster.items = items

/-- One of two intervals ends before the other one starts. -/
def Apart (start stop : α → Nat) (a b : α) : Prop := stop a ≤ start b ∨ stop b ≤ start a

instance : Std.Symm (Apart start stop) := ⟨fun _ _ => Or.symm⟩

theorem Apart.disjoint {a b : α} (h : Apart start stop a b) :
    Disjoint (Set.Ico (start a) (stop a)) (Set.Ico (start b) (stop b)) := by
  rw [Set.disjoint_left]
  rintro x ⟨hstart, hstop⟩ ⟨hstart', hstop'⟩
  rcases h with h | h
  · exact (hstop.trans_le (h.trans hstart')).false
  · exact (hstop'.trans_le (h.trans hstart)).false

theorem Cluster.Valid.single {a : α} (h : start a < stop a) :
    (Cluster.single start stop a).Valid start stop where
  nonempty := List.cons_ne_nil _ _
  within b hb := by
    obtain rfl := List.mem_singleton.mp hb
    exact ⟨le_rfl, le_rfl⟩
  covers x hfirst hlast := ⟨a, List.mem_singleton_self a, hfirst, hlast⟩
  first_lt := h

theorem Cluster.Valid.add {g : Cluster α} (hg : g.Valid start stop) {a : α} (hfirst : g.first ≤ start a)
    (hlast : start a < g.last) : (g.add stop a).Valid start stop where
  nonempty := by simp [Cluster.add]
  within b hb := by
    rcases List.mem_append.mp hb with hb | hb
    · exact ⟨(hg.within b hb).1, (hg.within b hb).2.trans (le_max_left _ _)⟩
    · obtain rfl := List.mem_singleton.mp hb
      exact ⟨hfirst, le_max_right _ _⟩
  covers x hx hlt := by
    by_cases hold : x < g.last
    · obtain ⟨b, hb, hstart, hstop⟩ := hg.covers x hx hold
      exact ⟨b, List.mem_append_left _ hb, hstart, hstop⟩
    · -- the item starts before the group ends, so it covers all that is added
      refine ⟨a, by simp [Cluster.add], by omega, ?_⟩
      change x < max g.last (stop a) at hlt
      omega
  first_lt := hg.first_lt.trans_le (le_max_left _ _)

theorem Grouped.insertItem {groups : List (Cluster α)} {items : List α}
    (h : Grouped start stop groups items) {a : α} (hsorted : ∀ b ∈ items, start b ≤ start a)
    (hlt : start a < stop a) :
    Grouped start stop (insertItem start stop groups a) (items ++ [a]) := by
  have hfirst : ∀ g ∈ groups, g.first ≤ start a := by
    intro g hg
    obtain ⟨b, hb⟩ := List.exists_mem_of_ne_nil _ (h.valid g hg).nonempty
    refine ((h.valid g hg).within b hb).1.trans (hsorted b ?_)
    rw [← h.items]
    exact List.mem_flatMap.mpr ⟨g, List.mem_reverse.mpr hg, hb⟩
  cases groups with
  | nil =>
    obtain rfl : [] = items := h.items
    exact ⟨by simpa [IntervalGroups.insertItem] using Cluster.Valid.single hlt,
      List.pairwise_singleton _ _, rfl⟩
  | cons g earlier =>
    obtain ⟨hbefore, hearlier⟩ := List.pairwise_cons.mp h.separated
    have hg := h.valid g List.mem_cons_self
    have hvalid : ∀ g' ∈ earlier, g'.Valid start stop := fun g' hg' =>
      h.valid g' (List.mem_cons_of_mem _ hg')
    have hitems := h.items
    rw [List.reverse_cons, List.flatMap_append] at hitems
    rw [IntervalGroups.insertItem]
    split
    next hopens =>
      refine ⟨List.forall_mem_cons.mpr ⟨.single hlt, h.valid⟩, ?_, ?_⟩
      · refine List.pairwise_cons.mpr ⟨fun g' hg' => ?_, h.separated⟩
        rcases List.mem_cons.mp hg' with rfl | hg'
        · exact hopens
        · exact (hbefore g' hg').trans (hg.first_lt.le.trans hopens)
      · rw [List.reverse_cons, List.flatMap_append, h.items]
        simp [Cluster.single]
    next hjoins =>
      have hadd := hg.add (hfirst g List.mem_cons_self) (Nat.not_le.mp hjoins)
      refine ⟨List.forall_mem_cons.mpr ⟨hadd, hvalid⟩, ?_, ?_⟩
      · exact List.pairwise_cons.mpr ⟨hbefore, hearlier⟩
      · rw [List.reverse_cons, List.flatMap_append, ← hitems]
        simp [Cluster.add]

theorem grouped_nil : Grouped start stop ([] : List (Cluster α)) [] :=
  ⟨by simp, List.Pairwise.nil, rfl⟩

/-- The items of a cluster take all that is between its ends. -/
theorem Cluster.Valid.iUnion_items {g : Cluster α} (hg : g.Valid start stop) :
    ⋃ a ∈ g.items, Set.Ico (start a) (stop a) = Set.Ico g.first g.last := by
  ext x
  simp only [Set.mem_iUnion, Set.mem_Ico, exists_prop]
  constructor
  · rintro ⟨a, ha, hstart, hstop⟩
    obtain ⟨hfirst, hlast⟩ := hg.within a ha
    exact ⟨hfirst.trans hstart, hstop.trans_le hlast⟩
  · exact fun hx => hg.covers x hx.1 hx.2

end IntervalGroups
