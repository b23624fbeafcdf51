import Revng.DataLayout.EdgeMoves
import Revng.DataLayout.FieldExtents
import Revng.Lib.PostOrder
import Revng.Lib.Repetitions

/-!
# Compacting compatible arrays

`CompactCompatibleArrays` visits the nodes in post-order.  It starts from an array of a node, and
looks for siblings that overlap it and have the same stride.  Two arrays are compacted when one of
them can be shifted to a lower offset where their elements match, and the array that has both ends
where one of them does.  The edges that were compacted come from a new node, which is the element of
the compacted array.

The nodes that are created on the way have a predecessor, so the loop over the roots passes over
them.
-/

namespace DataLayout

open LayoutTypeSystem PostOrder

def isStridedInstance (t : TypeLinkTag) : Bool := isInstanceEdge t && !t.offsetExpr.strides.isEmpty

def isNonStridedInstance (t : TypeLinkTag) : Bool := isInstanceEdge t && !isStridedInstance t

/-- `lldiv` divides signed numbers. -/
def getTripCount (startOffset endOffset stride : Nat) : Option Nat := do
  guard (startOffset < endOffset)
  guard (stride ≠ 0)
  let numer := int64 (endOffset - startOffset)
  let denom := int64 stride
  return ((numer.tdiv denom + if numer.tmod denom = 0 then 0 else 1) % 2 ^ 64).toNat

structure CompactedArrayInfo where
  startOffset : Nat
  endOffset : Nat
  stride : Nat
  accessedElementSize : Nat
  slack : Nat
  deriving DecidableEq

def makeCompactedArrayInfo (child : LayoutTypeSystemNode) (tag : TypeLinkTag) (outerStride : Nat) :
    Option CompactedArrayInfo := do
  guard (isInstanceEdge tag)
  let oe := tag.offsetExpr
  guard (oe.strides.length ≤ 1)
  guard (oe.strides.length = 1 ↔ outerStride = 0)
  guard (oe.tripCounts.length ≤ 1)
  guard (oe.tripCounts.length = 1 ↔ outerStride = 0)
  guard (0 < child.size)
  let stride := if outerStride ≠ 0 then max outerStride child.size else oe.strides.headD 0
  guard (child.size ≤ stride)
  let tripCount := if outerStride ≠ 0 then 1 else (oe.tripCounts.headD ⊥).unbotD 1
  guard (0 < tripCount)
  return {
    startOffset := oe.offset
    endOffset := uint64 (oe.offset + stride * (tripCount - 1) + child.size)
    stride
    accessedElementSize := child.size
    slack := min oe.offset (stride - child.size) }

/-- How far `toShift` has to be shifted for its elements to start like those of `alignTo`. -/
def requiredSlack (toShift alignTo : CompactedArrayInfo) : Nat :=
  let stride := toShift.stride
  let toShiftAlignment := toShift.startOffset % stride
  let toMatchAlignment := alignTo.startOffset % stride
  if toMatchAlignment < toShiftAlignment then toShiftAlignment - toMatchAlignment
  else if toShiftAlignment < toMatchAlignment then
    subtract (uint64 (toShiftAlignment + stride)) toMatchAlignment
  else 0

/-- It has no result when an assertion fails, and the result is empty when the arrays do not fit. -/
def tryShiftLowerAndCompact (toShift alignTo : CompactedArrayInfo) :
    Option (Option CompactedArrayInfo) := do
  guard (toShift.stride = alignTo.stride)
  let stride := toShift.stride
  let slack := requiredSlack toShift alignTo
  guard (slack < stride)
  if toShift.slack < slack then return none
  guard (slack ≤ toShift.startOffset)
  let newStartOffset := min (toShift.startOffset - slack) alignTo.startOffset
  let newSlack := min (toShift.slack - slack) alignTo.slack
  guard (toShift.accessedElementSize ≤ stride - slack)
  let newElementSize := max (toShift.accessedElementSize + slack) alignTo.accessedElementSize
  let tripCountA ← getTripCount newStartOffset toShift.endOffset stride
  let tripCountB ← getTripCount newStartOffset alignTo.endOffset stride
  let tripCount := max tripCountA tripCountB
  let newEndOffset := uint64 (newStartOffset + stride * (tripCount - 1) + newElementSize)
  if max toShift.endOffset alignTo.endOffset < newEndOffset then return none
  return some {
    startOffset := newStartOffset
    endOffset := newEndOffset
    stride
    accessedElementSize := newElementSize
    slack := newSlack }

def pickBest : Option CompactedArrayInfo → Option CompactedArrayInfo →
    Option (Option CompactedArrayInfo)
  | none, maybeB => some maybeB
  | maybeA, none => some maybeA
  | some a, some b => do
      guard (a.stride = b.stride)
      guard (a.startOffset % a.stride = b.startOffset % b.stride)
      guard (a.endOffset = b.endOffset)
      if a.startOffset < b.startOffset then return some b
      if b.startOffset < a.startOffset then return some a
      guard (a = b)
      return some a

/-! ## Looking for siblings -/

/-- The siblings that may still be compacted. -/
def leftToCompact (rest siblings compacted : List Link) : Finset Link :=
  (rest ++ siblings).toFinset \ compacted.toFinset

theorem leftToCompact_next (edge : Link) (next siblings compacted : List Link) :
    leftToCompact next siblings compacted ⊆ leftToCompact (edge :: next) siblings compacted :=
  Finset.sdiff_subset_sdiff (fun l hl => by simp_all) (Finset.Subset.refl _)

/-- One of them is compacted, also when the loop starts again. -/
theorem card_leftToCompact_lt {edge : Link} {next siblings compacted rest : List Link}
    (hmem : edge ∉ compacted) (hrest : rest = siblings ∨ rest = next) :
    (leftToCompact rest siblings (compacted ++ [edge])).card <
      (leftToCompact (edge :: next) siblings compacted).card := by
  refine Finset.card_lt_card (Finset.ssubset_iff_of_subset (fun l hl => ?_) |>.mpr ⟨edge, ?_, ?_⟩)
  · simp only [leftToCompact, Finset.mem_sdiff, List.mem_toFinset, List.mem_append, List.mem_cons,
      not_or] at hl ⊢
    refine ⟨?_, hl.2.1⟩
    rcases hrest with rfl | rfl <;> tauto
  · simp [leftToCompact, hmem]
  · simp [leftToCompact]

/-- The loop over the siblings.  It starts again from the first one when the array has grown. -/
def compactSiblings (compact : CompactedArrayInfo → Link → Option (Option CompactedArrayInfo))
    (siblings rest : List Link) (current : CompactedArrayInfo) (compacted : List Link) :
    Option (CompactedArrayInfo × List Link) :=
  match rest with
  | [] => some (current, compacted)
  | edge :: next =>
      if _hmem : edge ∈ compacted then compactSiblings compact siblings next current compacted
      else
        (compact current edge).bind fun
          | none => compactSiblings compact siblings next current compacted
          | some best =>
              compactSiblings compact siblings
                (if best.startOffset < current.startOffset ∨ current.endOffset < best.endOffset then
                  siblings else next)
                best (compacted ++ [edge])
termination_by ((leftToCompact rest siblings compacted).card, rest.length)
decreasing_by
  · exact Prod.Lex.right' _ (Finset.card_le_card (leftToCompact_next ..)) (Nat.lt_succ_self _)
  · exact Prod.Lex.right' _ (Finset.card_le_card (leftToCompact_next ..)) (Nat.lt_succ_self _)
  · exact Prod.Lex.left _ _ (card_leftToCompact_lt _hmem (by split <;> simp))

variable {E : Type}

namespace LayoutTypeSystem

/-- One round of the loop over the siblings. -/
def compactSibling (stridedEdges : Bool) (s : LayoutTypeSystem E) (outerStride : Nat)
    (current : CompactedArrayInfo) (edge : Link) : Option (Option CompactedArrayInfo) := do
  let considered := if stridedEdges then isStridedInstance edge.tag else isNonStridedInstance edge.tag
  if !considered then return none
  let sibling ← makeCompactedArrayInfo (s.nodes edge.node) edge.tag outerStride
  if sibling.stride ≠ current.stride then return none
  if current.endOffset ≤ sibling.startOffset then return none
  if sibling.endOffset ≤ current.startOffset then return none
  let fittedShiftingCurrent ← tryShiftLowerAndCompact current sibling
  let fittedShiftingSibling ← tryShiftLowerAndCompact sibling current
  pickBest fittedShiftingCurrent fittedShiftingSibling

def getEdgeToCompactWithCurrent (stridedEdges : Bool) (s : LayoutTypeSystem E) (n : Nat)
    (current : CompactedArrayInfo) (compacted : List Link) :
    Option (CompactedArrayInfo × List Link) :=
  let outerStride := if stridedEdges then 0 else current.stride
  let siblings := (s.nodes n).successors.inOrder
  compactSiblings (s.compactSibling stridedEdges outerStride) siblings siblings current compacted

/-! ## Compacting edges -/

variable [IntEqClasses E]

/-- The edge comes from the element of the array instead. -/
def compactEdge (n new : Nat) (current : CompactedArrayInfo) (s : LayoutTypeSystem E) (edge : Link) :
    Option (LayoutTypeSystem E) := do
  let oldOffset := edge.tag.offsetExpr.offset
  guard (current.startOffset ≤ oldOffset)
  let offsetInArray := (oldOffset - current.startOffset) % current.stride
  let s ← s.addInstanceLink (some new) (some edge.node) ⟨offsetInArray, [], []⟩
  s.eraseEdge n edge

/-- The new node is the element of the array, and the first edge is compacted as the last one. -/
def compactEdges (n : Nat) (current : CompactedArrayInfo) (compacted : List Link)
    (s : LayoutTypeSystem E) : Option (LayoutTypeSystem E) :=
  (compacted.drop 1 ++ compacted.take 1).foldlM (compactEdge n s.nid current)
    (s.createWith fun node => { node with size := current.accessedElementSize })

def addArrayLink (n new : Nat) (current : CompactedArrayInfo) (s : LayoutTypeSystem E) :
    Option (LayoutTypeSystem E) := do
  let tripCount ← getTripCount current.startOffset current.endOffset current.stride
  s.addInstanceLink (some n) (some new) ⟨current.startOffset, [current.stride], [tripCount]⟩

/-- The edges of `n` from the one on that follows an edge. -/
def edgesAfter (s : LayoutTypeSystem E) (n : Nat) (edge : Link) : List Link :=
  (s.nodes n).successors.inOrder.filter fun l => edge < l

/-- The loop over the child edges of `n`.  The edge to a new node comes last, so it is visited as
well, unless the iterator is at the end before the edge is added. -/
def compactChildEdges (n : Nat) : Nat → List Link → LayoutTypeSystem E → Option (LayoutTypeSystem E)
  | 0, _, _ => none
  | _ + 1, [], s => some s
  | fuel + 1, edge :: next, s => do
      if !isStridedInstance edge.tag then compactChildEdges n fuel next s
      else
        let current ← makeCompactedArrayInfo (s.nodes edge.node) edge.tag 0
        let (current, compacted) ← s.getEdgeToCompactWithCurrent true n current [edge]
        let (current, compacted) ← s.getEdgeToCompactWithCurrent false n current compacted
        guard (compacted.head? = some edge)
        if compacted.length ≤ 1 then compactChildEdges n fuel next s
        else
          let erased ← compactEdges n current compacted s
          let s' ← addArrayLink n s.nid current erased
          let childEdgeNext := erased.edgesAfter n edge
          compactChildEdges n fuel (if childEdgeNext = [] then [] else s'.edgesAfter n edge) s'

/-- What the visit does when it leaves `n`.  Each round ends one edge or makes two or more edges into
one, so twice as many rounds as there are edges are enough. -/
def compactArraysOf (n : Nat) (s : LayoutTypeSystem E) : Option (LayoutTypeSystem E) :=
  if s.isLeaf n then some s
  else
    compactChildEdges n (2 * (s.nodes n).successors.card + 1) (s.nodes n).successors.inOrder s

def compactCompatibleArrays (s : LayoutTypeSystem E) : Option (LayoutTypeSystem E) :=
  (postOrderFrom isRoot nonPointerChildren compactArraysOf (s.layouts.card + 1) s.layouts.sort
    s).map Prod.snd

end LayoutTypeSystem

/-!
## Compacted arrays

The numbers of a `CompactedArrayInfo` describe a repetition of its element.  When two arrays are
compacted the result holds both of them and ends where one of them does.  No assertion on the way
fails (`exists_tryShiftLowerAndCompact`, `exists_pickBest`).
-/

open Repetitions

variable {info info' : CompactedArrayInfo} {a b : Repetition}

structure Describes (info : CompactedArrayInfo) (a : Repetition) : Prop where
  start : info.startOffset = a.start
  stop : info.endOffset = a.stop
  stride : info.stride = a.stride
  element : info.accessedElementSize = a.element
  slack_le : info.slack ≤ a.start
  slack_add : info.slack + a.element ≤ a.stride
  stop_lt : a.stop < 2 ^ 63
  stride_lt : a.stride < 2 ^ 63

/-! ## Trip counts -/

theorem int64_of_lt {n : Nat} (h : n < 2 ^ 63) : int64 n = n := if_pos h

theorem getTripCount_eq {start stop stride : Nat} (hlt : start < stop) (hstop : stop < 2 ^ 63)
    (hpos : 0 < stride) (hstride : stride < 2 ^ 63) :
    getTripCount start stop stride = some (steps (stop - start) stride) := by
  have hdistance : stop - start < 2 ^ 63 := by omega
  have hquot := Nat.div_le_self (stop - start) stride
  simp only [getTripCount, guard, if_pos hlt, if_pos hpos.ne', int64_of_lt hdistance,
    int64_of_lt hstride, ← Int.ofNat_tdiv, ← Int.ofNat_tmod, Option.pure_def, Option.bind_eq_bind,
    Option.bind_some, Int.natCast_eq_zero, Option.some.injEq, steps]
  generalize (stop - start) / stride = quot at hquot ⊢
  split <;> omega

/-! ## Shifting -/

section Slack

variable (ha : Describes info a) (hb : Describes info' b)
include ha hb

/-- The difference of the two alignments, where the second one may be the larger one. -/
theorem requiredSlack_cases (hstride : a.stride = b.stride) :
    requiredSlack info info' < a.stride ∧
      a.start % a.stride + (if a.start % a.stride < b.start % a.stride then a.stride else 0) =
        b.start % a.stride + requiredSlack info info' := by
  have hlt := Nat.mod_lt a.start a.stride_pos
  have hlt' := Nat.mod_lt b.start a.stride_pos
  have hsmall := ha.stride_lt
  rw [requiredSlack, ha.stride, ha.start, hb.start]
  generalize a.start % a.stride = x at hlt ⊢
  generalize b.start % a.stride = y at hlt' ⊢
  simp only [subtract, uint64]
  split
  · rw [if_neg (by omega)]
    omega
  · split <;> omega

theorem requiredSlack_modEq (hstride : a.stride = b.stride) :
    a.start ≡ b.start + requiredSlack info info' [MOD a.stride] := by
  obtain ⟨-, hsum⟩ := requiredSlack_cases ha hb hstride
  have hwrap : a.start % a.stride + (if a.start % a.stride < b.start % a.stride then a.stride else 0)
      ≡ a.start [MOD a.stride] := by
    refine (Nat.ModEq.add (Nat.mod_modEq _ _) ?_ : _ ≡ a.start + 0 [MOD a.stride])
    split
    · exact (Nat.modEq_zero_iff_dvd).mpr (dvd_refl _)
    · exact Nat.ModEq.refl 0
  rw [hsum] at hwrap
  exact hwrap.symm.trans ((Nat.mod_modEq _ _).add_right _)

theorem aligned_of_slack (hstride : a.stride = b.stride)
    (hslack : requiredSlack info info' ≤ info.slack) :
    Aligned a b (requiredSlack info info') where
  stride := hstride
  shift_le := hslack.trans ha.slack_le
  element_le := by
    have hle := ha.slack_add
    omega
  aligned := requiredSlack_modEq ha hb hstride

/-- Arrays that are aligned stay aligned when they change places. -/
theorem requiredSlack_comm (hstride : a.stride = b.stride) (hzero : requiredSlack info info' = 0) :
    requiredSlack info' info = 0 := by
  obtain ⟨-, hsum⟩ := requiredSlack_cases ha hb hstride
  obtain ⟨hlt, hsum'⟩ := requiredSlack_cases hb ha hstride.symm
  have ha' := Nat.mod_lt a.start a.stride_pos
  have hb' := Nat.mod_lt b.start a.stride_pos
  rw [← hstride] at hlt hsum'
  rw [hzero] at hsum
  split at hsum
  · omega
  · split at hsum' <;> omega

/-- The result of a shift: the first array is moved down, and joined with the second one. -/
structure Shifted (info info' : CompactedArrayInfo) (a b : Repetition) (best : CompactedArrayInfo) :
    Prop where
  slack : requiredSlack info info' ≤ info.slack
  best : ∃ h : Aligned a b (requiredSlack info info'), Describes best h.join ∧
    h.join.stop = max a.stop b.stop ∧
    best.slack = min (info.slack - requiredSlack info info') info'.slack

theorem exists_tryShiftLowerAndCompact (hstride : a.stride = b.stride) :
    ∃ r, tryShiftLowerAndCompact info info' = some r ∧
      ∀ best, r = some best → Shifted info info' a b best := by
  have hsame : info.stride = info'.stride := ha.stride.trans (hstride.trans hb.stride.symm)
  obtain ⟨hlt, -⟩ := requiredSlack_cases ha hb hstride
  rw [← ha.stride] at hlt
  unfold tryShiftLowerAndCompact
  simp only [guard, if_pos hsame, if_pos hlt, Option.pure_def, Option.bind_eq_bind,
    Option.bind_some]
  by_cases hslack : info.slack < requiredSlack info info'
  · exact ⟨none, by rw [if_pos hslack], by simp⟩
  have hle := Nat.not_lt.mp hslack
  have h := aligned_of_slack ha hb hstride hle
  have hstart : min (info.startOffset - requiredSlack info info') info'.startOffset =
      h.join.start := by
    rw [ha.start, hb.start]
    rfl
  have helement : max (info.accessedElementSize + requiredSlack info info')
      info'.accessedElementSize = h.join.element := by
    rw [ha.element, hb.element]
    rfl
  have hfirst : requiredSlack info info' ≤ info.startOffset := ha.start ▸ h.shift_le
  have hfits : info.accessedElementSize ≤ info.stride - requiredSlack info info' := by
    have hle := h.element_le
    rw [ha.element, ha.stride]
    omega
  have hcount : ∀ {c : Repetition}, h.join.start < c.stop → c.stop < 2 ^ 63 →
      getTripCount h.join.start c.stop info.stride =
        some (steps (c.stop - h.join.start) a.stride) := fun hlt hstop => by
    rw [ha.stride]
    exact getTripCount_eq hlt hstop a.stride_pos ha.stride_lt
  have hcountA := hcount (h.holds_left.start_le.trans_lt a.start_lt_stop) ha.stop_lt
  have hcountB := hcount (h.holds_right.start_le.trans_lt b.start_lt_stop) hb.stop_lt
  have hjoin : max (steps (a.stop - h.join.start) a.stride)
      (steps (b.stop - h.join.start) a.stride) = h.join.count := rfl
  simp only [if_neg hslack, if_pos hfirst, if_pos hfits, hstart, helement, ha.stop, hb.stop, hcountA,
    hcountB, hjoin, Option.bind_some]
  have hmax : max a.stop b.stop < 2 ^ 63 := max_lt ha.stop_lt hb.stop_lt
  have hstop : uint64 (h.join.start + info.stride * (h.join.count - 1) + h.join.element) =
      h.join.stop := by
    have hle := h.stop_le
    have hsmall := ha.stride_lt
    rw [ha.stride]
    exact uint64_of_lt (show h.join.stop < 2 ^ 64 by omega)
  rw [hstop]
  by_cases hgrows : max a.stop b.stop < h.join.stop
  · exact ⟨none, by rw [if_pos hgrows], by simp⟩
  rw [if_neg hgrows]
  have hends : h.join.stop = max a.stop b.stop := le_antisymm (Nat.not_lt.mp hgrows) h.max_stop_le
  refine ⟨_, rfl, ?_⟩
  rintro _ ⟨⟩
  refine ⟨hle, h, ⟨rfl, rfl, ha.stride, rfl, ?_, ?_, hends ▸ hmax, ha.stride_lt⟩, hends, rfl⟩
  · -- the slack of each array is at most what is before it
    have hslackA := ha.slack_le
    have hslackB := hb.slack_le
    change min _ _ ≤ min _ _
    omega
  · have haddA := ha.slack_add
    have haddB := hb.slack_add
    rw [← hstride] at haddB
    change min _ _ + max _ _ ≤ a.stride
    omega

end Slack

/-! ## The best candidate -/

/-- What two arrays are compacted to. -/
structure Compacts (best : CompactedArrayInfo) (a b c : Repetition) : Prop where
  describes : Describes best c
  left : Holds c a
  right : Holds c b
  stop : c.stop = max a.stop b.stop

theorem Shifted.compacts {best : CompactedArrayInfo} (h : Shifted info info' a b best) :
    ∃ c, Compacts best a b c := by
  obtain ⟨haligned, hbest, hstop, -⟩ := h.best
  exact ⟨_, hbest, haligned.holds_left, haligned.holds_right, hstop⟩

theorem Compacts.symm {best : CompactedArrayInfo} {c : Repetition} (h : Compacts best a b c) :
    Compacts best b a c :=
  ⟨h.describes, h.right, h.left, h.stop.trans (max_comm _ _)⟩

/-- If both arrays can be shifted they were aligned before, and both candidates are the same. -/
theorem Shifted.eq (ha : Describes info a) (hb : Describes info' b) (hstride : a.stride = b.stride)
    {best best' : CompactedArrayInfo} (h : Shifted info info' a b best)
    (h' : Shifted info' info b a best') : best = best' := by
  obtain ⟨haligned, hbest, hstop, hslack⟩ := h.best
  obtain ⟨haligned', hbest', hstop', hslack'⟩ := h'.best
  rcases Nat.eq_zero_or_pos (requiredSlack info info') with hzero | hpos
  · have hzero' := requiredSlack_comm ha hb hstride hzero
    have hstart : haligned.join.start = haligned'.join.start := by
      change min (a.start - _) b.start = min (b.start - _) a.start
      rw [hzero, hzero', Nat.sub_zero, Nat.sub_zero, min_comm]
    have helement : haligned.join.element = haligned'.join.element := by
      change max (a.element + _) b.element = max (b.element + _) a.element
      rw [hzero, hzero', Nat.add_zero, Nat.add_zero, max_comm]
    rw [hzero, Nat.sub_zero] at hslack
    rw [hzero', Nat.sub_zero, min_comm] at hslack'
    obtain ⟨start, stop, stride, element, slack⟩ := best
    obtain ⟨start', stop', stride', element', slack'⟩ := best'
    obtain rfl : start = start' := hbest.start.trans (hstart.trans hbest'.start.symm)
    obtain rfl : stop = stop' := by
      rw [show stop = _ from hbest.stop, show stop' = _ from hbest'.stop, hstop, hstop', max_comm]
    obtain rfl : stride = stride' := hbest.stride.trans (hstride.trans hbest'.stride.symm)
    obtain rfl : element = element' := hbest.element.trans (helement.trans hbest'.element.symm)
    obtain rfl : slack = slack' := hslack.trans hslack'.symm
    rfl
  · refine absurd ?_ (haligned.stop_ne haligned' hpos)
    rw [hstop, hstop', max_comm]

theorem exists_pickBest (ha : Describes info a) (hb : Describes info' b)
    (hstride : a.stride = b.stride) {r r' : Option CompactedArrayInfo}
    (hr : ∀ best, r = some best → Shifted info info' a b best)
    (hr' : ∀ best, r' = some best → Shifted info' info b a best) :
    ∃ r'', pickBest r r' = some r'' ∧ ∀ best, r'' = some best → ∃ c, Compacts best a b c := by
  cases r with
  | none =>
    refine ⟨r', by cases r' <;> rfl, fun best hbest => ?_⟩
    obtain ⟨c, hc⟩ := (hr' best hbest).compacts
    exact ⟨c, hc.symm⟩
  | some best =>
    cases r' with
    | none => exact ⟨some best, rfl, fun best hbest => (hr best hbest).compacts⟩
    | some best' =>
      obtain rfl := (hr best rfl).eq ha hb hstride (hr' best' rfl)
      refine ⟨some best, ?_, fun best hbest => (hr best hbest).compacts⟩
      simp [pickBest, guard]

end DataLayout
