import Mathlib.Algebra.Group.Nat.Defs

/-!
# Offsets along paths

The edges of a graph lead to byte offsets, and the offsets along a path add up.  When an edge is
replaced by a path through new nodes, whose offsets add up to those of the edge, the old nodes are
reached at the same offsets (`reaches_iff`).
-/

namespace ByteOffsets

variable {α : Type*} {edge edge' : α → α → Nat → Prop} {old : α → Prop}

/-- There is a path from `a` to `b` whose offsets add up to the given one. -/
inductive Reaches (edge : α → α → Nat → Prop) : α → α → Nat → Prop
  | refl (a : α) : Reaches edge a a 0
  | step {a b c : α} {x y : Nat} : edge a b x → Reaches edge b c y → Reaches edge a c (x + y)

variable {a b : α} {x : Nat}

theorem Reaches.single (h : edge a b x) : Reaches edge a b x :=
  .step h (.refl b)

theorem Reaches.trans {c : α} {y : Nat} (h : Reaches edge a b x) (h' : Reaches edge b c y) :
    Reaches edge a c (x + y) := by
  induction h with
  | refl a => rwa [Nat.zero_add]
  | step hedge _ ih =>
    rw [Nat.add_assoc]
    exact .step hedge (ih h')

/-- A path to `b` that passes only through new nodes. -/
inductive Through (old : α → Prop) (edge : α → α → Nat → Prop) : α → α → Nat → Prop
  | single {a b : α} {x : Nat} : edge a b x → Through old edge a b x
  | step {a b c : α} {x y : Nat} :
      edge a b x → ¬ old b → Through old edge b c y → Through old edge a c (x + y)

theorem Through.reaches (h : Through old edge a b x) : Reaches edge a b x := by
  induction h with
  | single hedge => exact .single hedge
  | step hedge _ _ ih => exact .step hedge ih

theorem Through.mono {old' : α → Prop} (hold : ∀ a, old' a → old a) (h : Through old edge a b x) :
    Through old' edge a b x := by
  induction h with
  | single hedge => exact .single hedge
  | step hedge hnew _ ih => exact .step hedge (fun h => hnew (hold _ h)) ih

theorem Through.trans {c : α} {y : Nat} (h : Through old edge a b x) (hb : ¬ old b)
    (h' : Through old edge b c y) : Through old edge a c (x + y) := by
  induction h with
  | single hedge => exact .step hedge hb h'
  | step hedge hnew _ ih =>
    rw [Nat.add_assoc]
    exact .step hedge hnew (ih hb h')

/-- The edges of the path become paths. -/
theorem Through.lift (h : Through old edge a b x) (nodes : α → Prop)
    (hnodes : ∀ a b x, nodes a → edge a b x → nodes b) (ha : nodes a)
    (hedge : ∀ c d y, nodes c → c = a ∨ ¬ old c → edge c d y → Through old edge' c d y) :
    Through old edge' a b x := by
  induction h with
  | single hab => exact hedge _ _ _ ha (Or.inl rfl) hab
  | step hab hnew _ ih =>
    refine (hedge _ _ _ ha (Or.inl rfl) hab).trans hnew (ih (hnodes _ _ _ ha hab) ?_)
    intro c d y hc hor
    refine hedge c d y hc (Or.inr ?_)
    rcases hor with rfl | hnot
    · exact hnew
    · exact hnot

/-- Every edge between old nodes has become a path. -/
structure Splits (old : α → Prop) (edge edge' : α → α → Nat → Prop) : Prop where
  closed : ∀ a b x, old a → edge a b x → old b
  split : ∀ a b x, old a → edge a b x → Reaches edge' a b x

theorem Splits.reaches (h : Splits old edge edge') (ha : old a) (hreach : Reaches edge a b x) :
    Reaches edge' a b x := by
  induction hreach with
  | refl a => exact .refl a
  | step hedge _ ih => exact (h.split _ _ _ ha hedge).trans (ih (h.closed _ _ _ ha hedge))

/-- There are no other edges. -/
structure Refines (old : α → Prop) (edge edge' : α → α → Nat → Prop) : Prop
    extends Splits old edge edge' where
  joined : ∀ a b x, old a → edge' a b x →
    edge a b x ∨ ¬ old b ∧ ∀ c y, edge' b c y → edge a c (x + y)

/-- A path to an old node follows old edges, and it enters and leaves the new ones. -/
theorem Refines.reaches_of_reaches (h : Refines old edge edge') (hreach : Reaches edge' a b x)
    (hb : old b) : (old a → Reaches edge a b x) ∧
      ∀ c y, old c → ¬ old a → (∀ d z, edge' a d z → edge c d (y + z)) →
        Reaches edge c b (y + x) := by
  induction hreach with
  | refl a => exact ⟨fun _ => .refl a, fun c y _ ha _ => absurd hb ha⟩
  | @step a b c x y hedge _ ih =>
    obtain ⟨hold, hnew⟩ := ih hb
    refine ⟨fun ha => ?_, fun d z hd _ hjoin => ?_⟩
    · rcases h.joined _ _ _ ha hedge with hedge | ⟨hb', hjoin⟩
      · exact .step hedge (hold (h.closed _ _ _ ha hedge))
      · exact hnew a x ha hb' hjoin
    · have hjoined := hjoin _ _ hedge
      rw [← Nat.add_assoc]
      exact .step hjoined (hold (h.closed _ _ _ hd hjoined))

theorem Refines.reaches_iff (h : Refines old edge edge') (ha : old a) (hb : old b) :
    Reaches edge a b x ↔ Reaches edge' a b x :=
  ⟨fun hreach => h.toSplits.reaches ha hreach, fun hreach => (h.reaches_of_reaches hreach hb).1 ha⟩

end ByteOffsets
