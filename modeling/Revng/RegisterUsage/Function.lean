import Mathlib.Data.List.Count

/-!
# Functions for the analyses of register usage

A function is abstracted to a graph of blocks that read, write and clobber registers.
-/

namespace RegisterUsage

/-- Without `Invalid`: the analyses abort on it, and no operation that is created has it. -/
inductive OperationType where
  | read
  | write
  | clobber
  deriving DecidableEq

/-- The index of a register is a `uint8_t`. -/
abbrev Register := Fin 256

structure Operation where
  type : OperationType
  target : Register
  deriving DecidableEq

structure Function (Node : Type) where
  nodes : List Node
  successors : Node → List Node
  predecessors : Node → List Node
  operations : Node → List Operation

/-- An operation and its address. -/
structure Site (Node : Type) extends Operation where
  node : Node
  position : Nat
  deriving DecidableEq

variable {Node : Type}

/-- Every edge has its two halves. -/
def Function.Mirrored [DecidableEq Node] (f : Function Node) : Prop :=
  ∀ m n, (f.successors m).count n = (f.predecessors n).count m

/-- The edges are between nodes of the function. -/
structure Function.Valid [DecidableEq Node] (f : Function Node) : Prop where
  mirrored : f.Mirrored
  nodup : f.nodes.Nodup
  known : ∀ m n, n ∈ f.successors m → m ∈ f.nodes ∧ n ∈ f.nodes

theorem Function.Mirrored.mem_predecessors [DecidableEq Node] {f : Function Node}
    (h : f.Mirrored) {m n : Node} : m ∈ f.predecessors n ↔ n ∈ f.successors m := by
  rw [← List.count_pos_iff, ← h, List.count_pos_iff]

def Function.sites (f : Function Node) (n : Node) : List (Site Node) :=
  (f.operations n).zipIdx.map fun o => ⟨o.1, n, o.2⟩

/-- A block and its only successor, which write one register. -/
def Function.twoBlocks : Function Bool where
  nodes := [false, true]
  successors n := if n then [] else [true]
  predecessors n := if n then [false] else []
  operations _ := [⟨.write, 0⟩]

theorem Function.valid_twoBlocks : Function.twoBlocks.Valid where
  mirrored m n := by cases m <;> cases n <;> rfl
  nodup := by simp [Function.twoBlocks]
  known m n := by cases m <;> cases n <;> simp [Function.twoBlocks]

end RegisterUsage
