import Revng.Lib.FlowPaths
import Revng.Mfp.MaximalFixedPoint
import Revng.RegisterUsage.Function

/-!
# Liveness

A register is alive where a path from there reads it before it is written or clobbered.  What the
backward analysis does along a path finds the first operation on the register
(`mem_foldr_transfer`).
-/

namespace RegisterUsage

open FlowPaths

variable {Node : Type}

/-- The first operation on the register reads it. -/
def ReadFirst (x : Register) (ops : List Operation) : Prop :=
  ∃ o, ops.find? (·.target = x) = some o ∧ o.type = .read

/-- The register is read on some path from the end of the block, before it is written. -/
def Function.LiveAfter (f : Function Node) (n : Node) (x : Register) : Prop :=
  ∃ path, (n :: path).IsChain (fun a b => b ∈ f.successors a) ∧
    ReadFirst x (path.flatMap f.operations)

/-- The register is read on some path from the start of the block, before it is written. -/
def Function.LiveBefore (f : Function Node) (n : Node) (x : Register) : Prop :=
  ∃ path, (n :: path).IsChain (fun a b => b ∈ f.successors a) ∧
    ReadFirst x ((n :: path).flatMap f.operations)

namespace Liveness

def step (o : Operation) (s : Finset Register) : Finset Register :=
  match o.type with
  | .read => insert o.target s
  | .write | .clobber => s.erase o.target

def inst (f : Function Node) : Mfp.MonotoneFrameworkInstance Node (Finset Register) where
  isLessOrEqual lhs rhs := decide (rhs ∩ lhs = lhs)
  combineValues lhs rhs := lhs ∪ rhs
  applyTransferFunction n initialState := (f.operations n).foldr step initialState

theorem mem_foldr_step {x : Register} {ops : List Operation} :
    x ∈ ops.foldr step ∅ ↔ ReadFirst x ops := by
  induction ops with
  | nil => simp [ReadFirst]
  | cons o rest ih =>
    obtain ⟨type, target⟩ := o
    by_cases hx : target = x
    · cases type <;> simp [ReadFirst, step, hx]
    · cases type <;> simp [ReadFirst, step, hx, Ne.symm hx, ih]

theorem facts : Facts fun (s : Finset Register) x => x ∈ s where
  le_iff _ _ := Iff.rfl
  realized P := by
    classical
    exact ⟨Finset.univ.filter P, by simp⟩

theorem distributive_step (o : Operation) :
    Distributive (fun (s : Finset Register) x => x ∈ s) (step o) := by
  refine ⟨fun y => o.type = .read ∧ y = o.target, fun x y => x = y ∧ (o.type = .read ∨
    y ≠ o.target), fun a y => ?_⟩
  obtain ⟨type, target⟩ := o
  cases type <;> simp [step, and_comm]

theorem distributive (f : Function Node) (n : Node) :
    Distributive (fun s x => x ∈ s) ((inst f).applyTransferFunction n) :=
  .foldr distributive_step (f.operations n)

theorem lawful (f : Function Node) : (inst f).Lawful where
  isLessOrEqual_iff lhs rhs := by simp [inst]
  combineValues_eq _ _ := rfl
  monotone n := (distributive f n).monotone facts.le_iff

theorem mem_foldr_transfer {f : Function Node} {x : Register} (path : List Node) :
    x ∈ path.foldr (inst f).applyTransferFunction ⊥ ↔ ReadFirst x (path.flatMap f.operations) := by
  rw [← mem_foldr_step, List.foldr_flatMap]
  rfl

end Liveness

end RegisterUsage
