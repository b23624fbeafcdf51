import Revng.DataLayout.TypeSystemRuns

/-!
# The extent of a field

An array repeats its elements in steps of the stride, so it extends over all but one of the steps
and one element.  The functions of the model compute that extent where it fits in an `uint64_t`
(`getFieldUpperMember_eq`).
-/

namespace DataLayout

/-- The levels of an array, the innermost one first. -/
abbrev Dimensions := List (WithBot ℕ × ℕ)

/-- The bytes from the first one of an element to the last one of the array. -/
def extent : Dimensions → ℕ → ℕ
  | [], size => size
  | (tripCount, stride) :: outer, size => extent outer ((tripCount.unbotD 1 - 1) * stride + size)

def OffsetExpression.dimensions (oe : OffsetExpression) : Dimensions :=
  (oe.tripCounts.zip oe.strides).reverse

/-- What is asserted of the strides and trip counts. -/
structure OffsetExpression.WellFormed (oe : OffsetExpression) : Prop where
  lengths : oe.strides.length = oe.tripCounts.length
  dimensions : ∀ d ∈ oe.dimensions, d.1 ≠ (0 : ℕ) ∧ 0 < d.2

/-- The offset after the last byte of a field. -/
def upperMember (size : ℕ) (tag : TypeLinkTag) : ℕ :=
  nonNegative tag.offsetExpr.offset + extent tag.offsetExpr.dimensions size

/-- The offset after the last byte of a field, whose offset does not count as signed. -/
def fieldEnd (size : ℕ) (tag : TypeLinkTag) : ℕ :=
  tag.offsetExpr.offset + extent tag.offsetExpr.dimensions size

/-! ## Larger elements -/

theorem extent_mono (dimensions : Dimensions) : ∀ {size size' : ℕ}, size ≤ size' →
    extent dimensions size ≤ extent dimensions size' := by
  induction dimensions with
  | nil => exact fun h => h
  | cons d outer ih => exact fun h => ih (Nat.add_le_add_left h _)

theorem le_extent (dimensions : Dimensions) : ∀ size : ℕ, size ≤ extent dimensions size := by
  induction dimensions with
  | nil => exact fun size => le_rfl
  | cons d outer ih => exact fun size => (Nat.le_add_left _ _).trans (ih _)

theorem upperMember_mono {size size' : ℕ} (h : size ≤ size') (tag : TypeLinkTag) :
    upperMember size tag ≤ upperMember size' tag := Nat.add_le_add_left (extent_mono _ h) _

theorem extent_le_upperMember (size : ℕ) (tag : TypeLinkTag) :
    extent tag.offsetExpr.dimensions size ≤ upperMember size tag := Nat.le_add_left _ _

/-! ## What the functions compute -/

theorem uint64_of_lt {n : ℕ} (h : n < 2 ^ 64) : uint64 n = n := Nat.mod_eq_of_lt h

theorem foldlM_arraySize (dimensions : Dimensions) : ∀ {size : ℕ},
    (∀ d ∈ dimensions, d.1 ≠ (0 : ℕ) ∧ 0 < d.2) → extent dimensions size < 2 ^ 64 →
    dimensions.foldlM arraySize size = some (extent dimensions size) := by
  induction dimensions with
  | nil => exact fun _ _ => rfl
  | cons d outer ih =>
    intro size hwf hfits
    obtain ⟨htrip, hstride⟩ := hwf d List.mem_cons_self
    have hinner : (d.1.unbotD 1 - 1) * d.2 + size < 2 ^ 64 :=
      (le_extent outer _).trans_lt hfits
    have hone : arraySize size d = some ((d.1.unbotD 1 - 1) * d.2 + size) := by
      simp only [arraySize, guard, if_pos hstride, if_pos htrip, uint64_of_lt hinner]
      rfl
    rw [List.foldlM_cons, hone]
    exact ih (fun e he => hwf e (List.mem_cons_of_mem _ he)) hfits

section Fields

variable {child : LayoutTypeSystemNode} {tag : TypeLinkTag}

theorem getFieldSize_eq (hkind : isInstanceEdge tag) (hwf : tag.offsetExpr.WellFormed)
    (hsize : 0 < child.size) (hfits : extent tag.offsetExpr.dimensions child.size < 2 ^ 64) :
    getFieldSize child tag = some (extent tag.offsetExpr.dimensions child.size) := by
  have hinst : tag.kind = .inst := by simpa [isInstanceEdge] using hkind
  have hfold := foldlM_arraySize _ hwf.dimensions hfits
  have hpos : extent tag.offsetExpr.dimensions child.size ≠ 0 :=
    (hsize.trans_le (le_extent _ _)).ne'
  rw [OffsetExpression.dimensions] at hfold hpos
  simp only [getFieldSize, guard, if_pos hsize, hinst, if_pos hwf.lengths, hfold,
    OffsetExpression.dimensions]
  simp only [Option.pure_def, Option.bind_eq_bind, Option.bind_some, if_pos hpos]

theorem getFieldUpperMember_eq (hkind : isInstanceEdge tag) (hwf : tag.offsetExpr.WellFormed)
    (hsize : 0 < child.size) (hfits : upperMember child.size tag < 2 ^ 64) :
    getFieldUpperMember child tag = some (upperMember child.size tag) := by
  rw [getFieldUpperMember, getFieldSize_eq hkind hwf hsize
    ((extent_le_upperMember _ _).trans_lt hfits)]
  exact congrArg some (uint64_of_lt hfits)

end Fields

end DataLayout
