import Mathlib.Data.Fintype.EquivFin
import Revng.Lib.DepthFirst
import Revng.Lib.StrongComponents

/-!
# Finite graphs

The algorithms on graphs are written over the two directions of the edges.  `cycle` is a small graph
to run them on, and `cycleSCCs` are its strongly connected components.
-/

namespace Support

open Relation StrongComponents

/-! ## Graphs -/

/-- A finite graph, with both directions of its edges. -/
structure Graph (α : Type) where
  nodes : List α
  nodup : nodes.Nodup
  complete : ∀ a, a ∈ nodes
  children : α → List α
  inverseChildren : α → List α
  mem_inverseChildren : ∀ a b, a ∈ inverseChildren b ↔ b ∈ children a

namespace Graph

variable {α : Type} (g : Graph α)

def Edge (a b : α) : Prop := b ∈ g.children a

theorem finite (g : Graph α) : Finite α :=
  Finite.of_surjective g.nodes.get fun a => List.get_of_mem (g.complete a)

end Graph

/-! ## Set vectors -/

namespace SmallSetVector

/-- `SmallSetVector::insert`: a value that is not there goes to the end. -/
def insert {α : Type} [DecidableEq α] (values : List α) (value : α) : List α :=
  if value ∈ values then values else values ++ [value]

theorem mem_insert {α : Type} [DecidableEq α] {values : List α} {value a : α} :
    a ∈ insert values value ↔ a ∈ values ∨ a = value := by
  rw [insert]
  split_ifs with hold
  · constructor
    · exact .inl
    · rintro (ha | rfl)
      · exact ha
      · exact hold
  · rw [List.mem_append, List.mem_singleton]

/-- A loop that inserts `a` in the steps that meet the condition. -/
theorem mem_foldl_iff {α β : Type} {step : List α → β → List α} {a : α} (inserts : β → Prop)
    (hstep : ∀ values x, a ∈ step values x ↔ a ∈ values ∨ inserts x) (xs : List β)
    (values : List α) : a ∈ xs.foldl step values ↔ a ∈ values ∨ ∃ x ∈ xs, inserts x := by
  induction xs generalizing values with
  | nil => simp
  | cons x xs ih =>
    rw [List.foldl_cons, ih, hstep, or_assoc]
    simp only [List.mem_cons, exists_eq_or_imp]

end SmallSetVector

/-! ## Two small graphs -/

/-- Two nodes that reach each other, and a third one behind them if the flag is set. -/
def cycle (leaves : Bool) : Graph (Fin 3) where
  nodes := [0, 1, 2]
  nodup := by decide
  complete := by decide
  children
    | 0 => [1]
    | 1 => if leaves then [0, 2] else [0]
    | 2 => []
  inverseChildren
    | 0 => [1]
    | 1 => [0]
    | 2 => if leaves then [1] else []
  mem_inverseChildren := by
    revert leaves
    decide

def cycleSCCs (leaves : Bool) : Fin 3 → List (List (Fin 3))
  | 2 => [[2]]
  | _ => if leaves then [[2], [0, 1]] else [[0, 1]]

theorem cycle_reaches_iff (leaves : Bool) (a b : Fin 3) :
    ReflTransGen (cycle leaves).Edge a b ↔ b ∈ DepthFirst.depthFirst (cycle leaves).children 3 a [] :=
  (DepthFirst.mem_depthFirst (fun _ _ _ _ => Finset.mem_univ _) (Finset.mem_univ a)).symm

theorem cycle_mutual_iff (leaves : Bool) (a b : Fin 3) :
    Mutual (cycle leaves).Edge a b ↔ (a = 2 ↔ b = 2) := by
  rw [Mutual, cycle_reaches_iff, cycle_reaches_iff]
  revert leaves a b
  decide

theorem sorted_cycleSCCs (leaves : Bool) (n : Fin 3) :
    Sorted (cycle leaves).Edge n (cycleSCCs leaves n) where
  nonempty := by revert leaves n; decide
  nodup := by revert leaves n; decide
  component := by
    simp only [cycle_mutual_iff]
    revert leaves n
    decide
  covers := by
    simp only [cycle_reaches_iff]
    revert leaves n
    decide
  reached := by
    simp only [cycle_reaches_iff]
    revert leaves n
    decide
  order := by
    have hlast : (cycleSCCs leaves n).Pairwise fun c _ => c = [2] := by
      revert leaves n
      decide
    refine hlast.imp fun hc a ha b _ => ?_
    rw [hc, List.mem_singleton] at ha
    rw [ha]
    exact List.not_mem_nil

end Support
