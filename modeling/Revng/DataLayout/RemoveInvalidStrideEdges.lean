import Revng.DataLayout.FieldExtents
import Revng.DataLayout.VerifyDAG
import Revng.Lib.PostOrder

/-!
# Removing edges with invalid strides

`RemoveInvalidStrideEdges` visits the instance edges in post-order.  It erases the edges of a node
that repeat an element in steps that are smaller than the element.  If a node lost an edge its size
is computed again, from the children it still has.
-/

namespace DataLayout

open LayoutTypeSystem PostOrder

/-- The loop over the strides, from the smaller ones on. -/
def stridesAreValid : List (WithBot Nat × Nat) → Nat → Option Bool
  | [], _ => some true
  | (tripCount, stride) :: rest, innerSize => do
      guard (0 < stride)
      if stride < innerSize then return false
      let numElems := tripCount.unbotD 1
      guard (numElems ≠ 0)
      stridesAreValid rest (uint64 (stride * (numElems - 1) + innerSize))

def hasValidStrides (succNode : LayoutTypeSystemNode) (edgeTag : TypeLinkTag) : Option Bool :=
  if succNode.size = 0 then some false
  else do
    let oe := edgeTag.offsetExpr
    guard (oe.tripCounts.length = oe.strides.length)
    stridesAreValid (oe.tripCounts.zip oe.strides).reverse succNode.size

variable {E : Type}

namespace LayoutTypeSystem

def isInstanceRoot (s : LayoutTypeSystem E) (n : Nat) : Bool :=
  ∀ l ∈ (s.nodes n).predecessors, ¬ isInstanceEdge l.tag

/-- The nodes that the edges of `InstanceNodeT` lead to. -/
def instanceChildren (s : LayoutTypeSystem E) (n : Nat) : List Nat :=
  ((s.nodes n).successors.inOrder.filter fun l => isInstanceEdge l.tag).map Link.node

/-- The loop over the edges of `n`, which remembers whether one was removed. -/
def removeIfInvalid (n : Nat) (st : LayoutTypeSystem E × Bool) (edge : Link) :
    Option (LayoutTypeSystem E × Bool) := do
  let (s, _) := st
  if ¬ isInstanceEdge edge.tag then return st
  if ← hasValidStrides (s.nodes edge.node) edge.tag then return st
  guard (⟨n, edge.tag⟩ ∈ (s.nodes edge.node).predecessors)
  return ({ s with nodes := eraseLink s.nodes n edge.node edge.tag }, true)

/-- The size that the children of a node give it. -/
def sizeFromChildren (s : LayoutTypeSystem E) (n : Nat) : Option Nat :=
  ((s.nodes n).successors.inOrder.filter fun l => isNotPointerEdge l.tag).foldlM
    (fun newSize l => do
      return max newSize (← getFieldUpperMember (s.nodes l.node) l.tag)) 0

/-- What the visit does when it leaves `n`. -/
def removeInvalidEdgesOf (n : Nat) (s : LayoutTypeSystem E) : Option (LayoutTypeSystem E) := do
  let (s, removedChild) ← (s.nodes n).successors.inOrder.foldlM (removeIfInvalid n) (s, false)
  if removedChild then
    let newSize ← s.sizeFromChildren n
    return { s with nodes := s.nodes.modify n fun node => { node with size := newSize } }
  else return s

def removeInvalidStrideEdges (s : LayoutTypeSystem E) : Option (LayoutTypeSystem E) :=
  (postOrderFrom isInstanceRoot instanceChildren removeInvalidEdgesOf (s.layouts.card + 1)
    s.layouts.sort s).map Prod.snd

end LayoutTypeSystem

/-!
## Valid strides

The strides of a field are valid if no element is larger than the stride that repeats it.  The check
of the model finds that out, where the extent of the field fits in an `uint64_t`
(`hasValidStrides_eq`).
-/

/-- No stride is smaller than the extent that it repeats. -/
def StridesFit : Dimensions → ℕ → Prop
  | [], _ => True
  | (tripCount, stride) :: outer, size =>
      size ≤ stride ∧ StridesFit outer ((tripCount.unbotD 1 - 1) * stride + size)

instance : ∀ (dimensions : Dimensions) (size : ℕ), Decidable (StridesFit dimensions size)
  | [], _ => inferInstanceAs (Decidable True)
  | (tripCount, stride) :: outer, size =>
      have := instDecidableStridesFit outer ((tripCount.unbotD 1 - 1) * stride + size)
      inferInstanceAs (Decidable (_ ∧ _))

/-- An edge to a node of the given size is kept. -/
def HasValidStrides (size : ℕ) (tag : TypeLinkTag) : Prop :=
  0 < size ∧ StridesFit tag.offsetExpr.dimensions size

instance (size : ℕ) (tag : TypeLinkTag) : Decidable (HasValidStrides size tag) :=
  inferInstanceAs (Decidable (_ ∧ _))

theorem stridesAreValid_eq (dimensions : Dimensions) : ∀ {size : ℕ},
    (∀ d ∈ dimensions, d.1 ≠ (0 : ℕ) ∧ 0 < d.2) → extent dimensions size < 2 ^ 64 →
    stridesAreValid dimensions size = some (decide (StridesFit dimensions size)) := by
  induction dimensions with
  | nil => exact fun _ _ => congrArg some (decide_eq_true trivial).symm
  | cons d outer ih =>
    obtain ⟨tripCount, stride⟩ := d
    intro size hwf hfits
    obtain ⟨htrip, hstride⟩ := hwf _ List.mem_cons_self
    have hinner : (tripCount.unbotD 1 - 1) * stride + size < 2 ^ 64 :=
      (le_extent outer _).trans_lt hfits
    have hrest := ih (fun e he => hwf e (List.mem_cons_of_mem _ he)) hfits
    have hnum : tripCount.unbotD 1 ≠ 0 := by
      cases tripCount with
      | bot => decide
      | coe n => exact fun hzero => htrip (congrArg WithBot.some hzero)
    have hnext : uint64 (stride * (tripCount.unbotD 1 - 1) + size) =
        (tripCount.unbotD 1 - 1) * stride + size := by
      rw [Nat.mul_comm, uint64_of_lt hinner]
    simp only [stridesAreValid, guard, if_pos hstride, if_pos hnum, hnext, hrest, StridesFit]
    by_cases hlt : stride < size
    · simp [hlt, Nat.not_le.mpr hlt]
    · simp [hlt, Nat.not_lt.mp hlt]

theorem hasValidStrides_eq {child : LayoutTypeSystemNode} {tag : TypeLinkTag}
    (hwf : tag.offsetExpr.WellFormed)
    (hfits : extent tag.offsetExpr.dimensions child.size < 2 ^ 64) :
    hasValidStrides child tag = some (decide (HasValidStrides child.size tag)) := by
  unfold hasValidStrides
  split
  next hzero => simp [HasValidStrides, hzero]
  next hsize =>
    have hloop := stridesAreValid_eq _ hwf.dimensions hfits
    simp only [guard, if_pos hwf.lengths.symm, HasValidStrides, Nat.pos_of_ne_zero hsize, true_and]
    exact hloop

end DataLayout
