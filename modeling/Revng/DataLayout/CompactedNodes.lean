import Mathlib.Order.Lattice.Nat
import Revng.DataLayout.CompactCompatibleArrays
import Revng.DataLayout.NodeRewrites

/-!
# Edges that are compacted

An edge repeats its target (`Repeats`), and the array that some edges are compacted to holds all of
them (`Collected`).  So each target is still reached at the same offsets through the element of the
array.
-/

namespace DataLayout

open LayoutTypeSystem ByteOffsets Repetitions

variable {E : Type} {s t t' : LayoutTypeSystem E} {n : Nat} {l edge : Link} {tag : TypeLinkTag}
  {size : Nat} {current : CompactedArrayInfo} {compacted : List Link} {c e : Repetition}

/-! ## Edges as repetitions -/

/-- A field with at most one stride, whose elements fit in it and whose end does not overflow. -/
structure Compactable (size : Nat) (tag : TypeLinkTag) : Prop where
  lengths : tag.offsetExpr.strides.length = tag.offsetExpr.tripCounts.length
  one : tag.offsetExpr.strides.length ≤ 1
  trip : ∀ count ∈ tag.offsetExpr.tripCounts, count ≠ (0 : ℕ)
  stride : ∀ stride ∈ tag.offsetExpr.strides, size ≤ stride ∧ stride < 2 ^ 63
  positive : 0 < size
  limit : tag.offsetExpr.offset ≤ 0xFFFF
  ends : fieldEnd size tag < 2 ^ 63

/-- The elements of a field are those of `e`. -/
structure Repeats (e : Repetition) (size : Nat) (tag : TypeLinkTag) : Prop where
  start : e.start = tag.offsetExpr.offset
  element : e.element = size
  stop : e.stop = fieldEnd size tag
  fieldAt : ∀ x, FieldAt tag x → ∃ j < e.count, x = e.start + j * e.stride

theorem Compactable.cases (h : Compactable size tag) :
    (tag.offsetExpr.strides = [] ∧ tag.offsetExpr.tripCounts = []) ∨
      ∃ stride count, tag.offsetExpr.strides = [stride] ∧ tag.offsetExpr.tripCounts = [count] ∧
        0 < count.unbotD 1 ∧ size ≤ stride ∧ stride < 2 ^ 63 := by
  have hlengths := h.lengths
  have hone := h.one
  have htrip := h.trip
  have hstride := h.stride
  rcases hs : tag.offsetExpr.strides with _ | ⟨stride, _ | ⟨_, _⟩⟩
  · rw [hs] at hlengths
    exact Or.inl ⟨rfl, List.length_eq_zero_iff.mp hlengths.symm⟩
  · rw [hs] at hlengths hstride
    obtain ⟨count, ht⟩ := List.length_eq_one_iff.mp hlengths.symm
    rw [ht] at htrip
    obtain ⟨hle, hlt⟩ := hstride stride List.mem_cons_self
    refine Or.inr ⟨stride, count, rfl, ht, ?_, hle, hlt⟩
    have hcount := htrip count List.mem_cons_self
    cases count with
    | bot => exact Nat.one_pos
    | coe k => exact Nat.pos_of_ne_zero fun hzero => hcount (congrArg WithBot.some hzero)
  · simp [hs] at hone

theorem isStridedInstance_iff (hinst : isInstanceEdge tag) :
    isStridedInstance tag ↔ tag.offsetExpr.strides ≠ [] := by
  simp [isStridedInstance, hinst]

/-- An edge is an array of its own, also when it is an element of an array around it. -/
theorem exists_makeCompactedArrayInfo {child : LayoutTypeSystemNode}
    (h : Compactable child.size tag) (hinst : isInstanceEdge tag) (outerStride : Nat)
    (houter : outerStride = 0 ↔ isStridedInstance tag) (hlt : outerStride < 2 ^ 63) :
    ∃ info e, makeCompactedArrayInfo child tag outerStride = some info ∧ Describes info e ∧
      Repeats e child.size tag := by
  have hpos := h.positive
  have hends := h.ends
  rw [isStridedInstance_iff hinst] at houter
  rcases h.cases with ⟨hstrides, htrips⟩ | ⟨stride, count, hstrides, htrips, hcount, hle, hsmall⟩
  · have hne : outerStride ≠ 0 := fun hzero => houter.mp hzero hstrides
    have hdims : tag.offsetExpr.dimensions = [] := by
      simp [OffsetExpression.dimensions, hstrides]
    have hfield : fieldEnd child.size tag = tag.offsetExpr.offset + child.size := by
      rw [fieldEnd, hdims]
      rfl
    rw [hfield] at hends
    have hstop : uint64 (tag.offsetExpr.offset + max outerStride child.size * (1 - 1) + child.size) =
        tag.offsetExpr.offset + child.size := by
      rw [Nat.sub_self, Nat.mul_zero, Nat.add_zero]
      exact uint64_of_lt (by omega)
    refine ⟨⟨tag.offsetExpr.offset, tag.offsetExpr.offset + child.size, max outerStride child.size,
      child.size, min tag.offsetExpr.offset (max outerStride child.size - child.size)⟩,
      ⟨tag.offsetExpr.offset, max outerStride child.size, 1, child.size, hpos, le_max_right _ _,
        Nat.one_pos⟩, ?_, ⟨rfl, ?_, rfl, rfl, min_le_left _ _, ?_, ?_, ?_⟩,
      ⟨rfl, rfl, ?_, fun x hx => ⟨0, Nat.one_pos, ?_⟩⟩⟩
    · simp only [makeCompactedArrayInfo, guard, hinst, hstrides, htrips, hne, hpos, hstop,
        List.length_nil, Nat.zero_le, Nat.zero_ne_one, le_max_right, Nat.one_pos, if_true,
        Option.pure_def, Option.bind_eq_bind, Option.bind_some, ne_eq, not_false_eq_true]
    · simp [Repetition.stop]
    · exact (Nat.add_le_add_right (min_le_right _ _) _).trans
        (Nat.sub_add_cancel (le_max_right _ _)).le
    · simpa [Repetition.stop] using hends
    · exact max_lt hlt (by omega)
    · rw [hfield]
      simp [Repetition.stop]
    · obtain ⟨y, hy, rfl⟩ := hx
      rw [hdims] at hy
      obtain rfl : y = 0 := hy
      simp
  · have hzero : outerStride = 0 := houter.mpr (by simp [hstrides])
    subst hzero
    have hdims : tag.offsetExpr.dimensions = [(count, stride)] := by
      simp [OffsetExpression.dimensions, hstrides, htrips]
    have hfield : fieldEnd child.size tag =
        tag.offsetExpr.offset + stride * (count.unbotD 1 - 1) + child.size := by
      rw [fieldEnd, hdims, extent, extent, Nat.mul_comm, Nat.add_assoc]
    rw [hfield] at hends
    have hstop : uint64 (tag.offsetExpr.offset + stride * (count.unbotD 1 - 1) + child.size) =
        tag.offsetExpr.offset + stride * (count.unbotD 1 - 1) + child.size :=
      uint64_of_lt (by omega)
    refine ⟨⟨tag.offsetExpr.offset,
      tag.offsetExpr.offset + stride * (count.unbotD 1 - 1) + child.size, stride, child.size,
      min tag.offsetExpr.offset (stride - child.size)⟩,
      ⟨tag.offsetExpr.offset, stride, count.unbotD 1, child.size, hpos, hle, hcount⟩, ?_,
      ⟨rfl, rfl, rfl, rfl, min_le_left _ _, ?_, hends, hsmall⟩,
      ⟨rfl, rfl, hfield.symm, fun x hx => ?_⟩⟩
    · simp only [makeCompactedArrayInfo, guard, hinst, hstrides, htrips, hpos, hle, hcount, hstop,
        List.length_singleton, le_refl, List.headD_cons, if_true, if_false, Option.pure_def,
        Option.bind_eq_bind, Option.bind_some, ne_eq, not_true_eq_false]
    · exact (Nat.add_le_add_right (min_le_right _ _) _).trans (Nat.sub_add_cancel hle).le
    · obtain ⟨y, hy, rfl⟩ := hx
      rw [hdims] at hy
      obtain ⟨j, z, hj, rfl, rfl⟩ := hy
      exact ⟨j, hj, rfl⟩

/-! ## Looking for siblings -/

namespace LayoutTypeSystem

/-- The instance edges of a node can be compacted. -/
def EdgesCompactable (t : LayoutTypeSystem E) (n : Nat) : Prop :=
  ∀ l ∈ t.instanceEdges n, Compactable (t.nodes l.node).size l.tag

/-- The end of the last field of a node. -/
def lastByte (t : LayoutTypeSystem E) (n : Nat) : Nat :=
  (t.instanceEdges n).sup fun l => fieldEnd (t.nodes l.node).size l.tag

end LayoutTypeSystem

theorem fieldEnd_le_lastByte (hl : l ∈ t.instanceEdges n) :
    fieldEnd (t.nodes l.node).size l.tag ≤ t.lastByte n :=
  Finset.le_sup (f := fun l => fieldEnd (t.nodes l.node).size l.tag) hl

/-- The array `c` has an element around each one of the edge. -/
def HoldsEdge (t : LayoutTypeSystem E) (c : Repetition) (l : Link) : Prop :=
  ∃ e, Repeats e (t.nodes l.node).size l.tag ∧ Holds c e

/-- The array that some edges of `n` are compacted to so far. -/
structure Collected (t : LayoutTypeSystem E) (n : Nat) (first : Link) (stride : Nat) (c : Repetition)
    (current : CompactedArrayInfo) (compacted : List Link) : Prop where
  describes : Describes current c
  stride : c.stride = stride
  stop_le : c.stop ≤ t.lastByte n
  nodup : compacted.Nodup
  first : compacted.head? = some first
  edges : ∀ l ∈ compacted, l ∈ t.instanceEdges n
  holds : ∀ l ∈ compacted, HoldsEdge t c l

/-- One round finds a sibling, or it does not. -/
theorem exists_compactSibling (ht : t.EdgesCompactable n) (hc : Describes current c)
    {stridedEdges : Bool} {outerStride : Nat} (houter : outerStride = 0 ↔ stridedEdges)
    (hlt : outerStride < 2 ^ 63) (hl : l ∈ (t.nodes n).successors) :
    ∃ r, t.compactSibling stridedEdges outerStride current l = some r ∧
      ∀ best, r = some best → l ∈ t.instanceEdges n ∧
        ∃ e d, Repeats e (t.nodes l.node).size l.tag ∧ Compacts best c e d := by
  unfold compactSibling
  generalize hconsidered : (if stridedEdges = true then isStridedInstance l.tag
    else isNonStridedInstance l.tag) = considered
  cases considered with
  | false => exact ⟨none, rfl, by simp⟩
  | true =>
    have hkind : isInstanceEdge l.tag ∧ (stridedEdges ↔ isStridedInstance l.tag) := by
      cases stridedEdges with
      | false =>
        have hnon : isNonStridedInstance l.tag := hconsidered
        simp only [isNonStridedInstance, Bool.and_eq_true, Bool.not_eq_true'] at hnon
        simp [hnon]
      | true =>
        have hstrided : isStridedInstance l.tag := hconsidered
        exact ⟨(Bool.and_eq_true_iff.mp hstrided).1, by simp [hstrided]⟩
    obtain ⟨hinst, hstrided⟩ := hkind
    have hedge := mem_instanceEdges.mpr ⟨hl, hinst⟩
    obtain ⟨sibling, e, hmake, he, hrepeats⟩ := exists_makeCompactedArrayInfo (ht l hedge) hinst
      outerStride (houter.trans hstrided) hlt
    simp only [Bool.not_true, Bool.false_eq_true, if_false, hmake, Option.pure_def,
      Option.bind_eq_bind, Option.bind_some, ne_eq, ite_not]
    by_cases hstride : sibling.stride = current.stride
    · have hsame : c.stride = e.stride := by rw [← hc.stride, ← he.stride, hstride]
      obtain ⟨r, hr, hshifted⟩ := exists_tryShiftLowerAndCompact hc he hsame
      obtain ⟨r', hr', hshifted'⟩ := exists_tryShiftLowerAndCompact he hc hsame.symm
      obtain ⟨best, hbest, hcompacts⟩ := exists_pickBest hc he hsame hshifted hshifted'
      rw [if_pos hstride, hr, hr']
      simp only [Option.bind_some, hbest]
      split
      · exact ⟨none, rfl, by simp⟩
      · split
        · exact ⟨none, rfl, by simp⟩
        · exact ⟨best, rfl, fun best hb => ⟨hedge, e, (hcompacts best hb).imp fun d hd =>
            ⟨hrepeats, hd⟩⟩⟩
    · exact ⟨none, by rw [if_neg hstride], by simp⟩

/-- A sibling joins the others. -/
theorem Collected.add {first : Link} {stride : Nat} {best : CompactedArrayInfo} {d : Repetition}
    (h : Collected t n first stride c current compacted) (hedge : l ∈ t.instanceEdges n)
    (hnot : l ∉ compacted) (he : Repeats e (t.nodes l.node).size l.tag)
    (hd : Compacts best c e d) : Collected t n first stride d best (compacted ++ [l]) where
  describes := hd.describes
  stride := hd.left.stride.trans h.stride
  stop_le := by
    rw [hd.stop]
    exact max_le h.stop_le (he.stop.trans_le (fieldEnd_le_lastByte hedge))
  nodup := by
    refine List.nodup_append.mpr ⟨h.nodup, List.nodup_singleton l, fun a ha b hb => ?_⟩
    rw [List.mem_singleton.mp hb]
    exact fun heq => hnot (heq ▸ ha)
  first := by rw [List.head?_append, h.first, Option.some_or]
  edges := List.forall_mem_append.mpr ⟨h.edges, by simpa using hedge⟩
  holds := by
    refine List.forall_mem_append.mpr ⟨fun m hm => ?_, ?_⟩
    · obtain ⟨e', he', hholds⟩ := h.holds m hm
      exact ⟨e', he', hd.left.trans hholds⟩
    · rw [List.forall_mem_singleton]
      exact ⟨e, he, hd.right⟩

/-- What each round preserves holds when the loop over the siblings ends. -/
theorem exists_compactSiblings
    {compact : CompactedArrayInfo → Link → Option (Option CompactedArrayInfo)}
    {P : CompactedArrayInfo → List Link → Prop} {siblings : List Link}
    (hround : ∀ current compacted edge, P current compacted → edge ∈ siblings → edge ∉ compacted →
      ∃ r, compact current edge = some r ∧ ∀ best, r = some best → P best (compacted ++ [edge]))
    (rest : List Link) (current : CompactedArrayInfo) (compacted : List Link) :
    (∀ l ∈ rest, l ∈ siblings) → P current compacted →
      ∃ current' compacted', compactSiblings compact siblings rest current compacted =
        some (current', compacted') ∧ P current' compacted' := by
  induction rest, current, compacted using compactSiblings.induct siblings with
  | case1 current compacted =>
    intro _ hP
    rw [compactSiblings]
    exact ⟨current, compacted, rfl, hP⟩
  | case2 current compacted edge next hmem ih =>
    intro hrest hP
    rw [compactSiblings, dif_pos hmem]
    exact ih (fun l hl => hrest l (List.mem_cons_of_mem _ hl)) hP
  | case3 current compacted edge next hmem ih ih' =>
    intro hrest hP
    have hnext : ∀ l ∈ next, l ∈ siblings := fun l hl => hrest l (List.mem_cons_of_mem _ hl)
    obtain ⟨r, hr, hbest⟩ := hround current compacted edge hP (hrest edge List.mem_cons_self) hmem
    rw [compactSiblings, dif_neg hmem, hr, Option.bind_some]
    cases r with
    | none => exact ih hnext hP
    | some best =>
      refine ih' best (fun l hl => ?_) (hbest best rfl)
      split at hl
      · exact hl
      · exact hnext l hl

theorem Collected.exists_getEdgeToCompactWithCurrent {first : Link} {stride : Nat}
    (h : Collected t n first stride c current compacted) (ht : t.EdgesCompactable n)
    (stridedEdges : Bool) : ∃ current' compacted',
      t.getEdgeToCompactWithCurrent stridedEdges n current compacted = some (current', compacted') ∧
        ∃ d, Collected t n first stride d current' compacted' := by
  have houter : (if stridedEdges then 0 else current.stride) = 0 ↔ stridedEdges = true := by
    have hpos := c.stride_pos
    rw [← h.describes.stride] at hpos
    cases stridedEdges with
    | false => simp [hpos.ne']
    | true => simp
  have hlt : (if stridedEdges then 0 else current.stride) < 2 ^ 63 := by
    have hsmall := h.describes.stride_lt
    rw [← h.describes.stride] at hsmall
    split
    · decide
    · exact hsmall
  refine exists_compactSiblings (P := fun current compacted =>
    ∃ d, Collected t n first stride d current compacted) ?_ _ _ _ (fun l hl => hl) ⟨c, h⟩
  rintro current compacted edge ⟨d, hd⟩ hmem hnot
  obtain ⟨r, hr, hbest⟩ := exists_compactSibling ht hd.describes houter hlt
    (NeighborsSet.mem_inOrder.mp hmem)
  refine ⟨r, hr, fun best hb => ?_⟩
  obtain ⟨hedge, e, d', he, hd'⟩ := hbest best hb
  exact ⟨d', hd.add hedge hnot he hd'⟩

/-- The search starts from one array. -/
theorem exists_collected (ht : t.EdgesCompactable n) (hedge : edge ∈ t.instanceEdges n)
    (hstrided : isStridedInstance edge.tag) :
    ∃ current c, makeCompactedArrayInfo (t.nodes edge.node) edge.tag 0 = some current ∧
      Collected t n edge c.stride c current [edge] := by
  obtain ⟨current, c, hmake, hc, hrepeats⟩ := exists_makeCompactedArrayInfo (ht edge hedge)
    (mem_instanceEdges.mp hedge).2 0 (by simp [hstrided]) (by decide)
  refine ⟨current, c, hmake, hc, rfl, hrepeats.stop.trans_le (fieldEnd_le_lastByte hedge),
    List.nodup_singleton _, rfl, by simpa using hedge, ?_⟩
  rw [List.forall_mem_singleton]
  exact ⟨c, hrepeats, .refl c⟩

/-!
## Nodes with compacted arrays

When edges of a node are compacted its fields end where they did before, and what they lead to is
still reached at the same offsets (`Compacting`).  Each round of the loop over the child edges ends
an edge or makes several edges into one, so the loop ends (`exists_compactChildEdges`).
-/

variable {t'' : LayoutTypeSystem E} {left : Finset Nat} {new : Nat} {first : Link} {stride : Nat}

/-! ## The new edges -/

/-- The tag of a field in the element of the array. -/
def elementTag (c : Repetition) (tag : TypeLinkTag) : TypeLinkTag :=
  .instanceTag ⟨(tag.offsetExpr.offset - c.start) % c.stride, [], []⟩

def arrayTag (c : Repetition) : TypeLinkTag := .instanceTag ⟨c.start, [c.stride], [(c.count : ℕ)]⟩

theorem fieldAt_arrayTag {k : Nat} (hk : k < c.count) :
    FieldAt (arrayTag c) (c.start + k * c.stride) := ⟨k * c.stride, ⟨k, 0, hk, rfl, rfl⟩, rfl⟩

theorem fieldEnd_arrayTag : fieldEnd c.element (arrayTag c) = c.stop := by
  change c.start + ((c.count - 1) * c.stride + c.element) = _
  rw [Repetition.stop, Nat.mul_comm, Nat.add_assoc]

/-- Each place of a field is one in an element of the array. -/
theorem HoldsEdge.split (h : HoldsEdge t c l) {x : Nat} (hx : FieldAt l.tag x) :
    ∃ y z, FieldAt (arrayTag c) y ∧ FieldAt (elementTag c l.tag) z ∧ x = y + z := by
  obtain ⟨e, he, hholds⟩ := h
  obtain ⟨j, hj, rfl⟩ := he.fieldAt x hx
  obtain ⟨k, hk, hplace⟩ := hholds.exists_index hj
  rw [hplace, he.start]
  exact ⟨_, _, fieldAt_arrayTag hk, fieldAt_plain.mpr rfl, rfl⟩

theorem HoldsEdge.start_le (h : HoldsEdge t c l) : c.start ≤ l.tag.offsetExpr.offset := by
  obtain ⟨e, he, hholds⟩ := h
  exact hholds.start_le.trans_eq he.start

/-- The new edge can be compacted again. -/
theorem compactable_arrayTag (hc : Describes current c) (hlimit : c.start ≤ 0xFFFF) :
    Compactable c.element (arrayTag c) where
  lengths := rfl
  one := le_rfl
  trip count hcount := by
    rw [List.mem_singleton.mp hcount]
    exact fun hzero => c.count_pos.ne' (WithBot.coe_injective hzero)
  stride st hst := by
    rw [List.mem_singleton.mp hst]
    exact ⟨c.element_le, hc.stride_lt⟩
  positive := c.element_pos
  limit := hlimit
  ends := fieldEnd_arrayTag.trans_lt hc.stop_lt

/-! ## Compacting edges -/

theorem exists_compactEdge [IntEqClasses E] (hc : Describes current c) (ht : t.Consistent)
    (hn : n ∈ t.layouts) (hnew : new ∈ t.layouts) (hne : n ≠ new)
    (hl : l ∈ (t.nodes n).successors) (hneTgt : l.node ≠ new)
    (hstart : c.start ≤ l.tag.offsetExpr.offset) (hlimit : l.tag.offsetExpr.offset ≤ 0xFFFF) :
    ∃ t', compactEdge n new current t l = some t' ∧
      EdgesMoved t n new (elementTag c) [l] t' := by
  have htgt : l.node ∈ t.layouts := ht.successor_mem hn hl
  have hsmall : ¬ 0xFFFF < (l.tag.offsetExpr.offset - c.start) % c.stride :=
    Nat.not_lt.mpr ((Nat.mod_le _ _).trans ((Nat.sub_le _ _).trans hlimit))
  set nodes := insertLink t.nodes new l.node (elementTag c l.tag) with hnodes
  have hlink : LayoutTypeSystem.HasLink { t with nodes } n l.node l.tag :=
    ⟨mem_successors_insert.mpr (Or.inr hl),
      mem_predecessors_insertLink.mpr (Or.inr ((ht.mirror n hn l.node htgt l.tag).mp hl))⟩
  refine ⟨_, ?_, edgesMoved_of_links ht hnew hne htgt hneTgt (Or.inr rfl)⟩
  have hadd : t.addInstanceLink (some new) (some l.node)
      ⟨(l.tag.offsetExpr.offset - c.start) % c.stride, [], []⟩ = some { t with nodes } := by
    simp only [addInstanceLink, if_neg hsmall, addLink, if_neg hneTgt.symm,
      if_pos (And.intro hnew htgt), Option.map_some, hnodes, elementTag]
  have herase : LayoutTypeSystem.eraseEdge { t with nodes } n l =
      some { t with nodes := eraseLink nodes n l.node l.tag } := by
    rw [LayoutTypeSystem.eraseEdge, guard, if_pos ⟨hn, hlink⟩]
    rfl
  simp only [compactEdge, guard, hc.start, hc.stride, if_pos hstart, Option.pure_def,
    Option.bind_eq_bind, Option.bind_some, hadd]
  exact herase

/-- The first edge is compacted as the last one. -/
theorem perm_compacted (compacted : List Link) :
    (compacted.drop 1 ++ compacted.take 1).Perm compacted := by
  conv_rhs => rw [← List.take_append_drop 1 compacted]
  exact List.perm_append_comm

/-- What the edges of `n` have become, where some were compacted. -/
structure Compacting (t : LayoutTypeSystem E) (n : Nat) (t' : LayoutTypeSystem E) : Prop where
  rewritten : NodeRewritten t n t'
  lastByte_le : t'.lastByte n ≤ t.lastByte n
  compactable : t'.EdgesCompactable n

theorem Compacting.trans (h : Compacting t n t') (h' : Compacting t' n t'') (hn : n ∈ t.layouts) :
    Compacting t n t'' :=
  ⟨h.rewritten.trans h'.rewritten hn, h'.lastByte_le.trans h.lastByte_le, h'.compactable⟩

section Collected

variable (h : Collected t n first stride c current compacted) (hlimits : t.EdgesCompactable n)
include h hlimits

theorem Collected.start_le : c.start ≤ 0xFFFF := by
  have hfirst : first ∈ compacted := List.mem_of_mem_head? h.first
  exact (h.holds first hfirst).start_le.trans (hlimits first (h.edges first hfirst)).limit

theorem Collected.exists_compactEdges [IntEqClasses E] (ht : t.Consistent) (hids : t.IdsBelow)
    (hn : n ∈ t.layouts) : ∃ erased t', compactEdges n current compacted t = some erased ∧
      addArrayLink n t.nid current erased = some t' ∧
      Regrouped t n (elementTag c) (compacted.drop 1 ++ compacted.take 1) (arrayTag c) t' ∧
      (t'.nodes t.nid).size = c.element := by
  have hne : ∀ {m}, m ∈ t.layouts → m ≠ t.nid := fun hm => (hids _ hm).ne
  have hedge : ∀ l ∈ compacted.drop 1 ++ compacted.take 1, l ∈ compacted := fun l hl =>
    (perm_compacted compacted).mem_iff.mp hl
  obtain ⟨erased, t', hrun, -, hlink, hregrouped, hfields⟩ := exists_regrouped
    (f := fun node => { node with size := current.accessedElementSize }) ht hids hn rfl rfl
    (fun l => l.node ≠ t.nid ∧ c.start ≤ l.tag.offsetExpr.offset ∧ l.tag.offsetExpr.offset ≤ 0xFFFF)
    (fun t l ht hn' hnew hl hP => exists_compactEdge h.describes ht hn' hnew (hne hn) hl hP.1 hP.2.1
      hP.2.2) ((perm_compacted compacted).nodup_iff.mpr h.nodup)
    (fun l hl => by
      have hl := hedge l hl
      have hsucc := (mem_instanceEdges.mp (h.edges l hl)).1
      exact ⟨hsucc, hne (ht.successor_mem hn hsucc), (h.holds l hl).start_le,
        (hlimits l (h.edges l hl)).limit⟩)
    ⟨c.start, [c.stride], [(c.count : ℕ)]⟩ (h.start_le hlimits)
  refine ⟨erased, t', hrun, ?_, hregrouped, hfields.size.trans h.describes.element⟩
  have hcount : getTripCount c.start c.stop c.stride = some c.count := by
    have hsteps : steps (c.stop - c.start) c.stride = 0 + c.count :=
      steps_stop 0 (by simp) (by rw [Nat.zero_add]; exact c.element_le)
    rw [getTripCount_eq c.start_lt_stop h.describes.stop_lt c.stride_pos h.describes.stride_lt,
      hsteps, Nat.zero_add]
  simp only [addArrayLink, h.describes.start, h.describes.stop, h.describes.stride, hcount,
    Option.bind_eq_bind, Option.bind_some]
  exact hlink

/-- The fields end where they did, since the array ends where one of its edges does. -/
theorem Collected.compacting {moved : List Link} (hids : t.IdsBelow) (hn : n ∈ t.layouts)
    (hmoved : ∀ l ∈ moved, l ∈ compacted)
    (hr : Regrouped t n (elementTag c) moved (arrayTag c) t')
    (hsize : (t'.nodes t.nid).size = c.element) (ht : t.Consistent) : Compacting t n t' := by
  have hold : ∀ l ∈ t.instanceEdges n, (t'.nodes l.node).size = (t.nodes l.node).size :=
    fun l hl => (hr.fields _ (ht.successor_mem hn (mem_instanceEdges.mp hl).1)).size
  have hedges : ∀ l ∈ t'.instanceEdges n, l = ⟨t.nid, arrayTag c⟩ ∨ l ∈ t.instanceEdges n := by
    intro l hl
    obtain ⟨hsucc, hinst⟩ := mem_instanceEdges.mp hl
    exact ((hr.source l).mp hsucc).imp_right fun hmem => mem_instanceEdges.mpr ⟨hmem.1, hinst⟩
  refine ⟨hr.nodeRewritten hids (fun l hl => h.edges l (hmoved l hl)) rfl (fun _ _ => rfl)
    fun l hl x hx => (h.holds l (hmoved l hl)).split hx, Finset.sup_le fun l hl => ?_,
    fun l hl => ?_⟩
  · rcases hedges l hl with rfl | hmem
    · rw [hsize, fieldEnd_arrayTag]
      exact h.stop_le
    · rw [hold l hmem]
      exact fieldEnd_le_lastByte hmem
  · rcases hedges l hl with rfl | hmem
    · rw [hsize]
      exact compactable_arrayTag h.describes (h.start_le hlimits)
    · rw [hold l hmem]
      exact hlimits l hmem

omit hlimits in
/-- There is one edge instead of two or more. -/
theorem Collected.card_lt {moved : List Link} (hmany : 1 < compacted.length)
    (hmoved : ∀ l, l ∈ moved ↔ l ∈ compacted)
    (hr : Regrouped t n (elementTag c) moved (arrayTag c) t') :
    (t'.nodes n).successors.card < (t.nodes n).successors.card := by
  have hsub : compacted.toFinset ⊆ (t.nodes n).successors := fun l hl =>
    (mem_instanceEdges.mp (h.edges l (List.mem_toFinset.mp hl))).1
  have hcard : compacted.toFinset.card = compacted.length := List.toFinset_card_of_nodup h.nodup
  have hle : (t'.nodes n).successors ⊆
      insert ⟨t.nid, arrayTag c⟩ ((t.nodes n).successors \ compacted.toFinset) := by
    intro l hl
    rw [Finset.mem_insert, Finset.mem_sdiff, List.mem_toFinset, ← hmoved]
    exact (hr.source l).mp hl
  have hinsert := (Finset.card_le_card hle).trans (Finset.card_insert_le _ _)
  rw [Finset.card_sdiff_of_subset hsub, hcard] at hinsert
  have hall := Finset.card_le_card hsub
  omega

end Collected

/-! ## The loop over the child edges -/

theorem Compacting.refl (ht : t.Consistent) (hids : t.IdsBelow) (hn : n ∈ t.layouts)
    (hlimits : t.EdgesCompactable n) : Compacting t n t :=
  ⟨.refl ht hids hn, le_rfl, hlimits⟩

theorem edgesAfter_suffix (t : LayoutTypeSystem E) (n : Nat) (edge : Link) :
    t.edgesAfter n edge <:+ (t.nodes n).successors.inOrder :=
  OrderedSet.filter_lt_suffix (NeighborsSet.inOrder_sorted _) edge

/-- At most the edge to the new node is added to those that follow. -/
theorem length_edgesAfter_le {edge : Link} {next moved : List Link}
    {newTag : TypeLinkTag → TypeLinkTag} {tag : TypeLinkTag}
    (hr : Regrouped t n newTag moved tag t')
    (hrest : edge :: next <:+ (t.nodes n).successors.inOrder) :
    (t'.edgesAfter n edge).length ≤ next.length + 1 := by
  have hnext : t.edgesAfter n edge = next :=
    OrderedSet.filter_lt_of_suffix (NeighborsSet.inOrder_sorted _) hrest
  have hnodup : (t'.edgesAfter n edge).Nodup := (Finset.sort_nodup _ _).filter _
  have hsub : t'.edgesAfter n edge ⊆ ⟨t.nid, tag⟩ :: next := by
    intro l hl
    obtain ⟨hmem, hlt⟩ := List.mem_filter.mp hl
    rcases (hr.source l).mp (NeighborsSet.mem_inOrder.mp hmem) with rfl | ⟨hold, -⟩
    · exact List.mem_cons_self
    · refine List.mem_cons_of_mem _ ?_
      rw [← hnext]
      exact List.mem_filter.mpr ⟨NeighborsSet.mem_inOrder.mpr hold, hlt⟩
  exact (List.subperm_of_subset hnodup hsub).length_le

theorem exists_compactChildEdges [IntEqClasses E] (fuel : Nat) :
    ∀ {t : LayoutTypeSystem E} {rest : List Link}, t.Consistent → t.IdsBelow → n ∈ t.layouts →
      t.EdgesCompactable n → rest <:+ (t.nodes n).successors.inOrder →
      (t.nodes n).successors.card + rest.length < fuel →
      ∃ t', compactChildEdges n fuel rest t = some t' ∧ Compacting t n t' := by
  induction fuel with
  | zero => exact fun _ _ _ _ _ hfuel => absurd hfuel (Nat.not_lt_zero _)
  | succ fuel ih =>
    intro t rest ht hids hn hlimits hrest hfuel
    match rest with
    | [] => exact ⟨t, rfl, .refl ht hids hn hlimits⟩
    | edge :: next =>
      have hnext := (List.suffix_cons edge next).trans hrest
      have hskip := ih ht hids hn hlimits hnext (by rw [List.length_cons] at hfuel; omega)
      rw [compactChildEdges]
      by_cases hstrided : isStridedInstance edge.tag
      · have hsucc := NeighborsSet.mem_inOrder.mp (hrest.subset List.mem_cons_self)
        have hedge : edge ∈ t.instanceEdges n :=
          mem_instanceEdges.mpr ⟨hsucc, (Bool.and_eq_true_iff.mp hstrided).1⟩
        obtain ⟨start, a, hmake, ha⟩ := exists_collected hlimits hedge hstrided
        obtain ⟨current, compacted, hfirst, b, hb⟩ :=
          ha.exists_getEdgeToCompactWithCurrent hlimits true
        obtain ⟨current', compacted', hsecond, c, hc⟩ :=
          hb.exists_getEdgeToCompactWithCurrent hlimits false
        simp only [hstrided, Bool.not_true, Bool.false_eq_true, if_false, hmake, hfirst, hsecond,
          guard, if_pos hc.first, Option.pure_def, Option.bind_eq_bind, Option.bind_some]
        by_cases hmany : compacted'.length ≤ 1
        · rw [if_pos hmany]
          exact hskip
        · obtain ⟨erased, t₁, herased, hlink, hr, hsize⟩ :=
            hc.exists_compactEdges hlimits ht hids hn
          have h₁ := hc.compacting hlimits hids hn
            (fun l hl => (perm_compacted compacted').mem_iff.mp hl) hr hsize ht
          have hcard := hc.card_lt (Nat.not_le.mp hmany)
            (fun l => (perm_compacted compacted').mem_iff) hr
          have hlength := length_edgesAfter_le hr hrest
          rw [List.length_cons] at hfuel
          simp only [if_neg hmany, herased, hlink, Option.bind_some]
          have hsuffix : (if erased.edgesAfter n edge = [] then [] else t₁.edgesAfter n edge) <:+
              (t₁.nodes n).successors.inOrder := by
            split
            · exact List.nil_suffix
            · exact edgesAfter_suffix t₁ n edge
          have hbound : (t₁.nodes n).successors.card +
              (if erased.edgesAfter n edge = [] then [] else t₁.edgesAfter n edge).length <
                fuel := by
            split
            · rw [List.length_nil]
              omega
            · omega
          obtain ⟨t', hrun, h'⟩ := ih h₁.rewritten.consistent h₁.rewritten.idsBelow
            (h₁.rewritten.subset hn) h₁.compactable hsuffix hbound
          exact ⟨t', hrun, h₁.trans h' hn⟩
      · simpa [hstrided] using hskip

theorem exists_compactArraysOf [IntEqClasses E] (ht : t.Consistent) (hids : t.IdsBelow)
    (hn : n ∈ t.layouts) (hlimits : t.EdgesCompactable n) :
    ∃ t', compactArraysOf n t = some t' ∧ Compacting t n t' := by
  unfold compactArraysOf
  split
  · exact ⟨t, rfl, .refl ht hids hn hlimits⟩
  · refine exists_compactChildEdges _ ht hids hn hlimits List.suffix_rfl ?_
    rw [NeighborsSet.inOrder, Finset.length_sort]
    omega

/-! ## The whole pass -/

theorem lastByte_congr (hsucc : (t'.nodes n).successors = (t.nodes n).successors)
    (hsize : ∀ l ∈ (t.nodes n).successors, (t'.nodes l.node).size = (t.nodes l.node).size) :
    t'.lastByte n = t.lastByte n := by
  have hedges : t'.instanceEdges n = t.instanceEdges n := by
    rw [LayoutTypeSystem.instanceEdges, hsucc, LayoutTypeSystem.instanceEdges]
  rw [LayoutTypeSystem.lastByte, hedges, LayoutTypeSystem.lastByte]
  exact Finset.sup_congr rfl fun l hl => by rw [hsize l (mem_instanceEdges.mp hl).1]

theorem EdgesCompactable.congr (hlimits : s.EdgesCompactable n)
    (hsucc : (t.nodes n).successors = (s.nodes n).successors)
    (hsize : ∀ l ∈ (s.nodes n).successors, (t.nodes l.node).size = (s.nodes l.node).size) :
    t.EdgesCompactable n := fun l hl => by
  obtain ⟨hmem, hinst⟩ := mem_instanceEdges.mp hl
  rw [hsucc] at hmem
  rw [hsize l hmem]
  exact hlimits l (mem_instanceEdges.mpr ⟨hmem, hinst⟩)

/-- The pass completes.  What a node had at an offset is still reached there, and its last field
ends where it did or earlier. -/
theorem compactCompatibleArrays_keeps [IntEqClasses E] (hs : s.IsDAG) (hids : s.IdsBelow)
    (hlimits : ∀ n ∈ s.layouts, s.EdgesCompactable n) :
    ∃ t, s.compactCompatibleArrays = some t ∧ s.layouts ⊆ t.layouts ∧
      ∀ n ∈ s.layouts, (∀ m x, Reaches s.HasAt n m x → Reaches t.HasAt n m x) ∧
        t.lastByte n ≤ s.lastByte n := by
  obtain ⟨left, t, hrun, hr, hbytes, hleft⟩ := exists_rewriting hs hids compactArraysOf
    (fun left t => ∀ n ∈ left, t.lastByte n ≤ s.lastByte n) (by simp)
    fun left t n hr hbytes hn hnot => by
      have hsucc := hr.pending n hn hnot
      have hsize : ∀ l ∈ (s.nodes n).successors, (t.nodes l.node).size = (s.nodes l.node).size :=
        fun l hl => hr.size _ (hs.target_mem hn hl)
      obtain ⟨t', hrun, h⟩ := exists_compactArraysOf hr.consistent hr.idsBelow (hr.subset hn)
        (EdgesCompactable.congr (hlimits n hn) hsucc hsize)
      refine ⟨t', hrun, h.rewritten, fun m hm => ?_⟩
      by_cases hmn : m = n
      · subst hmn
        exact h.lastByte_le.trans (lastByte_congr hsucc hsize).le
      · have hmLeft := (Finset.mem_insert.mp hm).resolve_left hmn
        have hmem := hr.subset (hr.leftMem m hmLeft)
        rw [lastByte_congr (h.rewritten.others m hmem hmn).1 fun l hl =>
          h.rewritten.size _ (hr.consistent.successor_mem hmem hl)]
        exact hbytes m hmLeft
  refine ⟨t, ?_, hr.subset, fun n hn => ⟨fun m x hreach => ?_, hbytes n (hleft n hn)⟩⟩
  · rw [compactCompatibleArrays, hrun]
    rfl
  · exact (hr.splits hs hleft).reaches hn hreach

/-- Two arrays of the same stride, where the second one has an element in the gaps of the first
one. -/
def interleavedArrays : LayoutTypeSystem LeaderTable :=
  ofEdges 3 {(0, ⟨1, .instanceTag ⟨0, [16], [(4 : ℕ)]⟩⟩), (0, ⟨2, .instanceTag ⟨8, [16], [(4 : ℕ)]⟩⟩)}
    fun n => if n = 0 then 64 else 8

theorem compactCompatibleArrays_interleavedArrays : ∃ t : LayoutTypeSystem LeaderTable,
    interleavedArrays.compactCompatibleArrays = some t ∧ interleavedArrays.layouts ⊆ t.layouts ∧
      ∀ n ∈ interleavedArrays.layouts,
        (∀ m x, Reaches interleavedArrays.HasAt n m x → Reaches t.HasAt n m x) ∧
          t.lastByte n ≤ interleavedArrays.lastByte n := by
  refine compactCompatibleArrays_keeps (isDAG_ofEdges (by decide) (by decide) (by decide))
    (fun n hn => Finset.mem_range.mp hn) fun n hn l hl => ?_
  have hedges : ∀ n ∈ interleavedArrays.layouts, ∀ l ∈ interleavedArrays.instanceEdges n,
      l.tag.offsetExpr.strides = [16] ∧ l.tag.offsetExpr.tripCounts = [((4 : ℕ) : WithBot ℕ)] ∧
        l.tag.offsetExpr.offset ≤ 8 ∧ (interleavedArrays.nodes l.node).size = 8 := by decide
  obtain ⟨hstrides, htrips, hoffset, hsize⟩ := hedges n hn l hl
  rw [hsize]
  refine ⟨by simp [hstrides, htrips], by simp [hstrides], ?_, ?_, by decide, by omega, ?_⟩
  · rw [htrips]
    decide
  · rw [hstrides]
    decide
  · rw [fieldEnd, OffsetExpression.dimensions, hstrides, htrips]
    change l.tag.offsetExpr.offset + 56 < _
    omega

end DataLayout
