import Revng.ADT.WidthChanges

/-!
# The sets that the operations build

A set is built by the constructors and the operations that return a set.  Truncation
reduces the bounds one by one and may leave them out of order, and `setWidth` on a full set
without a width leaves a bound of another width.  Where no step does so, every set built is
well-formed (`Construction.agrees_of_orderly`).
-/

namespace ADT

open PartialLoops SortedMerge Toggles

/-- A way to build a set with the public operations. -/
inductive Construction where
  | default
  | ofWidth (bitWidth : Nat) (isFullSet : Bool)
  | ofRange (range : ConstantRange)
  | complement (c : Construction)
  | unionWith (c d : Construction)
  | intersectWith (c d : Construction)
  | setWidth (c : Construction) (newBitWidth : Nat)
  | zext (c : Construction) (newSize : Nat)
  | zextOrTrunc (c : Construction) (newSize : Nat)
  | sext (c : Construction) (newSize : Nat)
  | sextOrTrunc (c : Construction) (newSize : Nat)
  | changeSize (c : Construction) (newSize : Nat) (signExtend : Bool)

/-- The set that is built, if no assertion fails on the way. -/
def Construction.run : Construction → Option ConstantRangeSet
  | default => some .default
  | ofWidth bitWidth isFullSet => some (.ofWidth bitWidth isFullSet)
  | ofRange range => some (.ofRange range)
  | complement c => return (← c.run).complement
  | unionWith c d => do (← c.run).unionWith (← d.run)
  | intersectWith c d => do (← c.run).intersectWith (← d.run)
  | setWidth c newBitWidth => do (← c.run).setWidth newBitWidth
  | zext c newSize => do (← c.run).zext newSize
  | zextOrTrunc c newSize => do (← c.run).zextOrTrunc newSize
  | sext c newSize => do (← c.run).sext newSize
  | sextOrTrunc c newSize => do (← c.run).sextOrTrunc newSize
  | changeSize c newSize signExtend => do (← c.run).changeSize newSize signExtend

namespace ConstantRangeSet

variable {s t u : ConstantRangeSet} {newSize : Nat} {signExtend : Bool}

/-! ## Widths -/

/-- The bounds have the width of the set, or they have no bits and `setWidth` gave the set a
width. -/
def Sized (s : ConstantRangeSet) : Prop :=
  (∀ b ∈ s.bounds, b.bitWidth = s.bitWidth) ∨ ∀ b ∈ s.bounds, b.bitWidth = 0

theorem setWidth_eq_some {newBitWidth : Nat} : s.setWidth newBitWidth = some t ↔
    s.bitWidth = 0 ∧ t = ⟨s.bounds, newBitWidth⟩ ∨
      s.bitWidth ≠ 0 ∧ s.bitWidth = newBitWidth ∧ t = s := by
  by_cases hzero : s.bitWidth = 0
  · simp only [setWidth, hzero, if_true, Option.pure_def, Option.some.injEq, true_and,
      ne_eq, not_true_eq_false, false_and, or_false]
    exact eq_comm
  · by_cases heq : s.bitWidth = newBitWidth
    · rw [heq] at hzero
      simp only [setWidth, heq, hzero, if_false, Option.pure_def, false_and, false_or, ne_eq,
        not_false_eq_true, true_and]
      exact Option.some_inj.trans eq_comm
    · simp [setWidth, hzero, heq]

/-- An integer without bits is zero. -/
theorem eq_zero_of_bitWidth {b : APInt} (h : b.bitWidth = 0) : b = .ofNat 0 0 := by
  have hlt := b.isLt
  rw [h] at hlt
  exact APInt.ext h (by simpa using hlt)

theorem merge_sized {And : Bool} (h : s.merge And t = some u) : u.Sized := by
  obtain ⟨-, hsw, htw, rfl⟩ := merge_eq_some.mp h
  refine Or.inl fun b hb => ?_
  obtain ⟨z, hz, rfl⟩ := List.mem_map.mp ((combine_sublist _ _ _ _ _).subset hb)
  exact (value_mem_of_mem_zipmap hz).elim (hsw _) (htw _)

theorem Sized.complement (hs : s.Sized) : s.complement.Sized := by
  rcases s.complement_cases with ⟨-, h⟩ | ⟨b, bs, hbounds, ⟨hb, h⟩ | ⟨hb, h⟩⟩
  · exact Or.inl (h ▸ (wellFormed_ofWidth _ _).widths)
  · rw [h]
    exact hs.imp (fun hs c hc => hs c (by simp [hbounds, hc]))
      fun hs c hc => hs c (by simp [hbounds, hc])
  · rw [h]
    rcases hs with hs | hs
    · exact Or.inl (by simpa [hbounds] using hs)
    · -- a bound without bits is zero
      have hb' := eq_zero_of_bitWidth (hs b (by simp [hbounds]))
      exact absurd (hb' ▸ APInt.value_ofNat_zero 0) hb

/-- The result of a conversion, where it returns. -/
theorem changeSize_eq_some (h : s.changeSize newSize signExtend = some t) :
    newSize = s.bitWidth ∧ t = s ∨
      newSize ≠ s.bitWidth ∧ t.bitWidth = newSize ∧ s.bounds.mapM (fun bound =>
        if s.bitWidth < newSize then
          if signExtend then bound.sext newSize else bound.zext newSize
        else bound.trunc newSize) = some t.bounds := by
  by_cases hsame : newSize = s.bitWidth
  · exact Or.inl ⟨hsame, by simpa [changeSize, hsame, eq_comm] using h⟩
  · simp only [changeSize, hsame, if_false, Option.bind_eq_bind, Option.bind_eq_some_iff] at h
    obtain ⟨bounds, hbounds, h⟩ := h
    cases h
    exact Or.inr ⟨hsame, rfl, hbounds⟩

theorem bitWidth_of_conversion {b c : APInt} {p : Prop} [Decidable p]
    (h : (if p then if signExtend = true then b.sext newSize else b.zext newSize
      else b.trunc newSize) = some c) : c.bitWidth = newSize := by
  by_cases hp : p
  · cases signExtend
    · simp only [hp, if_true, Bool.false_eq_true, if_false, APInt.zext, Option.bind_eq_bind,
        Option.bind_eq_some_iff] at h
      obtain ⟨-, -, h⟩ := h
      cases h
      rfl
    · simp only [hp, if_true, APInt.sext, Option.bind_eq_bind, Option.bind_eq_some_iff] at h
      obtain ⟨-, -, h⟩ := h
      split at h <;> · cases h; rfl
  · simp only [hp, if_false, APInt.trunc, Option.bind_eq_bind, Option.bind_eq_some_iff] at h
    obtain ⟨-, -, h⟩ := h
    cases h
    rfl

theorem exists_of_mem_mapM {α β : Type*} {f : α → Option β} {xs : List α} {ys : List β}
    (h : xs.mapM f = some ys) {y : β} (hy : y ∈ ys) : ∃ x ∈ xs, f x = some y := by
  induction xs generalizing ys with
  | nil =>
    cases h
    simp at hy
  | cons x xs ih =>
    simp only [List.mapM_cons, Option.bind_eq_bind, Option.bind_eq_some_iff, Option.pure_def,
      Option.some.injEq] at h
    obtain ⟨z, hz, zs, hzs, rfl⟩ := h
    rcases List.mem_cons.mp hy with rfl | hy
    · exact ⟨x, by simp, hz⟩
    · obtain ⟨x', hx', hy⟩ := ih hzs hy
      exact ⟨x', by simp [hx'], hy⟩

theorem Sized.changeSize (hs : s.Sized) (h : s.changeSize newSize signExtend = some t) :
    t.Sized := by
  rcases changeSize_eq_some h with ⟨-, rfl⟩ | ⟨-, hbit, hbounds⟩
  · exact hs
  · refine Or.inl fun c hc => ?_
    obtain ⟨b, -, hb⟩ := exists_of_mem_mapM hbounds hc
    exact (bitWidth_of_conversion hb).trans hbit.symm

theorem Sized.setWidth (hs : s.Sized) {newBitWidth : Nat} (h : s.setWidth newBitWidth = some t) :
    t.Sized := by
  rcases setWidth_eq_some.mp h with ⟨hzero, rfl⟩ | ⟨-, -, rfl⟩
  · exact Or.inr (hs.elim (fun hs b hb => (hs b hb).trans hzero) id)
  · exact hs

theorem zext_eq_some (h : s.zext newSize = some t) :
    s.bitWidth ≤ newSize ∧ s.changeSize newSize false = some t := by
  simp only [zext, Option.bind_eq_bind, Option.bind_eq_some_iff, Option.guard_eq_some'] at h
  obtain ⟨_, hle, h⟩ := h
  exact ⟨hle, h⟩

theorem sext_eq_some (h : s.sext newSize = some t) :
    s.bitWidth ≤ newSize ∧ s.changeSize newSize true = some t := by
  simp only [sext, Option.bind_eq_bind, Option.bind_eq_some_iff, Option.guard_eq_some'] at h
  obtain ⟨_, hle, h⟩ := h
  exact ⟨hle, h⟩

/-! ## Bounds without bits -/

/-- The same set with bounds of its width. -/
def withWidths (s : ConstantRangeSet) : ConstantRangeSet :=
  ⟨s.bounds.map fun _ => .ofNat s.bitWidth 0, s.bitWidth⟩

section Bitless

variable (hs : ∀ b ∈ s.bounds, b.bitWidth = 0)
include hs

theorem values_withWidths : s.withWidths.values = s.values := by
  simp only [values, withWidths, List.map_map]
  refine List.map_congr_left fun b hb => ?_
  simp [eq_zero_of_bitWidth (hs b hb)]

theorem changeSize_of_bitless (hne : newSize ≠ s.bitWidth)
    (hsize : s.bitWidth < newSize ∨ newSize = 0) :
    s.changeSize newSize signExtend = s.withWidths.changeSize newSize signExtend := by
  have hbound : ∀ b ∈ s.bounds, (if s.bitWidth < newSize then
      if signExtend = true then b.sext newSize else b.zext newSize
      else b.trunc newSize) = some (.ofNat newSize 0) := by
    intro b hb
    rw [eq_zero_of_bitWidth (hs b hb)]
    rcases hsize with hlt | rfl
    · cases signExtend <;> simp [hlt, APInt.sext, APInt.zext]
    · simp [APInt.trunc]
  have hconverted : (APInt.ofNat s.bitWidth 0).converted signExtend newSize = .ofNat newSize 0 := by
    simp [APInt.converted]
  rw [changeSize_of_widths (s := s.withWidths) (by simp [withWidths]) hne]
  simp only [changeSize, hne, if_false, mapM_eq_some_map hbound, withWidths, List.map_map,
    Function.comp_def, hconverted]
  rfl

theorem exact_withWidths_iff (hne : newSize ≠ s.bitWidth)
    (hsize : s.bitWidth < newSize ∨ newSize = 0) :
    s.withWidths.Exact newSize signExtend ↔ s.Exact newSize signExtend := by
  have hmembers : s.withWidths.members = s.members := by
    simp only [members, values_withWidths hs]
    rfl
  rw [Exact, Exact, changeSize_of_bitless hs hne hsize, hmembers]

end Bitless

theorem exact_iff_of_widths (hw : ∀ b ∈ s.bounds, b.bitWidth = s.bitWidth) :
    s.Exact newSize signExtend ↔ s.Convertible newSize signExtend := by
  rw [Convertible]
  split
  · next hsame => exact exact_iff_of_width hsame
  next hne =>
  split
  · next hlt => exact exact_iff_of_extension hw hlt
  · next hnot =>
      rw [exact_iff_of_truncation hw (by omega)]
      refine (and_iff_right fun b hb => ?_).symm
      rw [hw b hb]
      omega

/-- When a conversion is exact. -/
theorem Sized.exact_iff (hs : s.Sized) :
    s.Exact newSize signExtend ↔ s.Convertible newSize signExtend := by
  rcases hs with hs | hs
  · exact exact_iff_of_widths hs
  by_cases hbits : s.bitWidth = 0
  · exact exact_iff_of_widths fun b hb => (hs b hb).trans hbits.symm
  cases hbounds : s.bounds with
  | nil => exact exact_iff_of_widths (by simp [hbounds])
  | cons b bs =>
    have hb := eq_zero_of_bitWidth (hs b (by simp [hbounds]))
    have hnwf : ¬ s.WellFormed := fun h =>
      hbits ((h.widths b (by simp [hbounds])).symm.trans (hs b (by simp [hbounds])))
    rw [Convertible]
    split
    · next hsame => exact exact_iff_of_width hsame
    next hne =>
    split
    · next hlt =>
        -- the bounds are zeros, so one of them alone is the full set
        rw [← exact_withWidths_iff hs hne (Or.inl hlt),
          exact_iff_of_extension (s := s.withWidths) (by simp [withWidths]) hlt,
          values_withWidths hs]
        refine iff_of_false (fun h => ?_) fun h => hnwf h.1
        have hasc := h.1.values_ascending
        have hoff := h.2
        rw [values_withWidths hs] at hasc
        cases bs with
        | nil => simp [values, hbounds, hb, isOn] at hoff
        | cons c cs =>
          have hc := eq_zero_of_bitWidth (hs c (by simp [hbounds]))
          simp [values, hbounds, hb, hc] at hasc
    · next hnot =>
        by_cases hzero : newSize = 0
        · have hgt : newSize < s.withWidths.bitWidth := by
            simp only [withWidths]
            omega
          rw [← exact_withWidths_iff hs hne (Or.inr hzero),
            exact_iff_of_truncation (by simp [withWidths]) hgt, values_withWidths hs]
          exact (and_iff_right fun b _ => by omega).symm
        · -- a bound without bits cannot be truncated
          have hle : ¬ newSize ≤ 0 := by omega
          refine iff_of_false ?_ fun h => hle (hs b (by simp [hbounds]) ▸ h.1 b (by simp [hbounds]))
          rintro ⟨t, ht, -⟩
          simp [ConstantRangeSet.changeSize, hne, hbounds, hnot, hb, APInt.trunc, hle] at ht

/-! ## Steps that keep the order -/

/-- Reducing the bounds by a truncation keeps them strictly increasing. -/
def KeepsOrder (s : ConstantRangeSet) (newSize : Nat) : Prop :=
  newSize < s.bitWidth → (s.values.map (· % 2 ^ newSize)).Pairwise (· < ·)

/-- The set has a width, or it has no bounds that would keep another one. -/
def TakesWidth (s : ConstantRangeSet) (newBitWidth : Nat) : Prop :=
  s.bitWidth = 0 → newBitWidth = 0 ∨ s.bounds = []

theorem WellFormed.changeSize_iff (hs : s.WellFormed)
    (h : s.changeSize newSize signExtend = some t) : t.WellFormed ↔ s.KeepsOrder newSize := by
  by_cases hsame : newSize = s.bitWidth
  · obtain rfl : t = s := by simpa [changeSize, hsame, eq_comm] using h
    exact iff_of_true hs fun hlt => absurd hsame hlt.ne
  rw [changeSize_of_widths hs.widths hsame, Option.some.injEq] at h
  subst h
  have hwf : (⟨s.bounds.map (APInt.converted signExtend newSize), newSize⟩ :
      ConstantRangeSet).WellFormed ↔
      (s.bounds.map fun b => (b.converted signExtend newSize).value).Pairwise (· < ·) := by
    refine ⟨fun h => ?_, fun h => ⟨by simp, ?_⟩⟩
    · simpa [values, Function.comp_def] using h.values_ascending
    · exact List.pairwise_map.mp (by simpa [Function.comp_def] using h)
  rw [hwf]
  rcases Nat.lt_or_gt_of_ne hsame with hlt | hgt
  · have hvalues : (s.bounds.map fun b => (b.converted signExtend newSize).value)
        = s.values.map (· % 2 ^ newSize) := by
      simp only [values, List.map_map]
      refine List.map_congr_left fun b hb => value_converted_of_le ?_
      rw [hs.widths b hb]
      omega
    rw [hvalues]
    exact ⟨fun h _ => h, fun h => h hlt⟩
  · have hvalues : (s.bounds.map fun b => (b.converted signExtend newSize).value)
        = s.values.map (extended s.bitWidth newSize signExtend) := by
      simp only [values, List.map_map]
      refine List.map_congr_left fun b hb => ?_
      rw [Function.comp_apply, ← hs.widths b hb, value_converted (hs.widths b hb ▸ hgt)]
    rw [hvalues, extended_ascending]
    exact iff_of_true hs.values_ascending fun hlt => absurd hgt hlt.not_gt

theorem WellFormed.setWidth_iff (hs : s.WellFormed) {newBitWidth : Nat}
    (h : s.setWidth newBitWidth = some t) : t.WellFormed ↔ s.TakesWidth newBitWidth := by
  rcases setWidth_eq_some.mp h with ⟨hzero, rfl⟩ | ⟨hne, -, rfl⟩
  · constructor
    · intro ht _
      cases hbounds : s.bounds with
      | nil => exact Or.inr rfl
      | cons b bs =>
        have hb : b ∈ s.bounds := by simp [hbounds]
        exact Or.inl ((ht.widths b hb).symm.trans ((hs.widths b hb).trans hzero))
    · intro htakes
      refine ⟨fun b hb => ?_, hs.ascending⟩
      rcases htakes hzero with hnew | hnil
      · exact (hs.widths b hb).trans (hzero.trans hnew.symm)
      · simp [hnil] at hb
  · exact iff_of_true hs fun hzero => absurd hzero hne

/-- What the operations on two sets agree with.  An operation that asserts the widths has a
result exactly on compatible sets. -/
structure Agrees (s t : ConstantRangeSet) : Prop where
  increasing : s.values.Pairwise (· < ·)
  complement : s.complement.members = {x | x.bitWidth = s.bitWidth} \ s.members
  unionWith : ∀ u, s.unionWith t = some u → u.members = s.members ∪ t.members
  intersectWith : ∀ u, s.intersectWith t = some u → u.members = s.members ∩ t.members
  difference : s.Compatible t → ∀ u, s.intersectWith t.complement = some u →
    u.members = s.members \ t.members
  contains : ∀ b, s.contains t = some b → (b = true ↔ t.members ⊆ s.members)
  size : ∃ n, s.size = some n ∧ n.value = s.members.ncard
  equal : ∀ b, s.equal t = some b → (b = true ↔ s.members = t.members)
  merges : ∀ And, (∃ u, s.merge And t = some u) ↔ s.Compatible t
  subtracts : (∃ u, s.intersectWith t.complement = some u) ↔ s.Compatible t.complement
  compares : s.Compatible t → ∃ b, s.contains t = some b
  equates : s.bitWidth = t.bitWidth → ∃ b, s.equal t = some b

theorem WellFormed.agrees (hs : s.WellFormed) (ht : t.WellFormed) : s.Agrees t where
  increasing := hs.values_ascending
  complement := s.members_complement
  unionWith _ h := hs.members_unionWith ht h
  intersectWith _ h := hs.members_intersectWith ht h
  difference hst u h := by
    rw [hs.members_intersectWith ht.complement h, members_complement]
    ext x
    simp only [Set.mem_inter_iff, Set.mem_sdiff, Set.mem_ofPred_eq]
    refine and_congr_right fun hx => and_iff_right_of_imp fun _ => ?_
    rcases hst with hw | rfl | rfl
    · exact hx.1.trans hw
    · simp [members_of_bounds_nil (s := default) rfl] at hx
    · -- the complement of `ConstantRangeSet()` has a bound without bits
      obtain ⟨-, -, hbits, -⟩ := merge_eq_some.mp h
      have hbit := hbits (.ofNat 0 0) (by simp [ConstantRangeSet.complement, isEmptySet, default, ofWidth])
      rw [bitWidth_complement, APInt.bitWidth_ofNat] at hbit
      have hsw := hx.1
      omega
  contains _ h := hs.contains_iff ht h
  size := hs.size_eq
  equal _ h := hs.equal_iff ht h
  merges And := WellFormed.merge_isSome_iff And hs ht
  subtracts := WellFormed.merge_isSome_iff true hs ht.complement
  compares h := hs.contains_isSome ht h
  equates h := ⟨_, hs.equal_of_width ht h⟩

end ConstantRangeSet

open ConstantRangeSet

theorem Construction.run_sized {c : Construction} {s : ConstantRangeSet} (h : c.run = some s) :
    s.Sized := by
  induction c generalizing s with
  | default => cases h; exact Or.inl wellFormed_default.widths
  | ofWidth w full => cases h; exact Or.inl (wellFormed_ofWidth w full).widths
  | ofRange r => cases h; exact Or.inl (wellFormed_ofRange r).widths
  | complement c ih =>
    simp only [run, Option.bind_eq_bind, Option.bind_eq_some_iff, Option.pure_def,
      Option.some.injEq] at h
    obtain ⟨t, ht, rfl⟩ := h
    exact (ih ht).complement
  | unionWith c d ihc ihd =>
    simp only [run, Option.bind_eq_bind, Option.bind_eq_some_iff] at h
    obtain ⟨t, -, u, -, h⟩ := h
    exact merge_sized h
  | intersectWith c d ihc ihd =>
    simp only [run, Option.bind_eq_bind, Option.bind_eq_some_iff] at h
    obtain ⟨t, -, u, -, h⟩ := h
    exact merge_sized h
  | setWidth c n ih =>
    obtain ⟨t, ht, h⟩ := Option.bind_eq_some_iff.mp h
    exact (ih ht).setWidth h
  | zext c n ih =>
    obtain ⟨t, ht, h⟩ := Option.bind_eq_some_iff.mp h
    exact (ih ht).changeSize (zext_eq_some h).2
  | zextOrTrunc c n ih =>
    obtain ⟨t, ht, h⟩ := Option.bind_eq_some_iff.mp h
    exact (ih ht).changeSize h
  | sext c n ih =>
    obtain ⟨t, ht, h⟩ := Option.bind_eq_some_iff.mp h
    exact (ih ht).changeSize (sext_eq_some h).2
  | sextOrTrunc c n ih =>
    obtain ⟨t, ht, h⟩ := Option.bind_eq_some_iff.mp h
    exact (ih ht).changeSize h
  | changeSize c n signExtend ih =>
    obtain ⟨t, ht, h⟩ := Option.bind_eq_some_iff.mp h
    exact (ih ht).changeSize h

/-! ## Runs -/

/-- No truncation on the way leaves the bounds out of order, and no bound without bits gets
into a set with a width. -/
def Construction.Orderly : Construction → Prop
  | default | ofWidth _ _ | ofRange _ => True
  | complement c => c.Orderly
  | unionWith c d | intersectWith c d => c.Orderly ∧ d.Orderly
  | setWidth c newBitWidth => c.Orderly ∧ ∀ s, c.run = some s → s.TakesWidth newBitWidth
  | zext c _ | sext c _ => c.Orderly
  | zextOrTrunc c newSize | sextOrTrunc c newSize | changeSize c newSize _ =>
      c.Orderly ∧ ∀ s, c.run = some s → s.KeepsOrder newSize

theorem Construction.run_wellFormed {c : Construction} {s : ConstantRangeSet}
    (h : c.run = some s) (hc : c.Orderly) : s.WellFormed := by
  induction c generalizing s with
  | default => cases h; exact wellFormed_default
  | ofWidth w full => cases h; exact wellFormed_ofWidth w full
  | ofRange r => cases h; exact wellFormed_ofRange r
  | complement c ih =>
    simp only [run, Option.bind_eq_bind, Option.bind_eq_some_iff, Option.pure_def,
      Option.some.injEq] at h
    obtain ⟨t, ht, rfl⟩ := h
    exact (ih ht hc).complement
  | unionWith c d ihc ihd =>
    simp only [run, Option.bind_eq_bind, Option.bind_eq_some_iff] at h
    obtain ⟨t, ht, u, hu, h⟩ := h
    exact ((ihc ht hc.1).merge (ihd hu hc.2) h).1
  | intersectWith c d ihc ihd =>
    simp only [run, Option.bind_eq_bind, Option.bind_eq_some_iff] at h
    obtain ⟨t, ht, u, hu, h⟩ := h
    exact ((ihc ht hc.1).merge (ihd hu hc.2) h).1
  | setWidth c n ih =>
    obtain ⟨t, ht, h⟩ := Option.bind_eq_some_iff.mp h
    exact ((ih ht hc.1).setWidth_iff h).mpr (hc.2 t ht)
  | zext c n ih =>
    obtain ⟨t, ht, h⟩ := Option.bind_eq_some_iff.mp h
    obtain ⟨hle, h⟩ := zext_eq_some h
    exact ((ih ht hc).changeSize_iff h).mpr fun hlt => absurd hle hlt.not_ge
  | zextOrTrunc c n ih =>
    obtain ⟨t, ht, h⟩ := Option.bind_eq_some_iff.mp h
    exact ((ih ht hc.1).changeSize_iff h).mpr (hc.2 t ht)
  | sext c n ih =>
    obtain ⟨t, ht, h⟩ := Option.bind_eq_some_iff.mp h
    obtain ⟨hle, h⟩ := sext_eq_some h
    exact ((ih ht hc).changeSize_iff h).mpr fun hlt => absurd hle hlt.not_ge
  | sextOrTrunc c n ih =>
    obtain ⟨t, ht, h⟩ := Option.bind_eq_some_iff.mp h
    exact ((ih ht hc.1).changeSize_iff h).mpr (hc.2 t ht)
  | changeSize c n signExtend ih =>
    obtain ⟨t, ht, h⟩ := Option.bind_eq_some_iff.mp h
    exact ((ih ht hc.1).changeSize_iff h).mpr (hc.2 t ht)

/-- In every run that is orderly the operations agree with the members. -/
theorem Construction.agrees_of_orderly {c d : Construction} {s t : ConstantRangeSet} (hs : c.run = some s)
    (ht : d.run = some t) (hc : c.Orderly) (hd : d.Orderly) : s.Agrees t :=
  (run_wellFormed hs hc).agrees (run_wellFormed ht hd)

/-- The range `[5, 0x103)` of sixteen bits. -/
def acrossBlocks : ConstantRange := ⟨.ofNat 16 5, .ofNat 16 0x103, rfl, by decide⟩

/-- The range `[5, 7)` of sixteen bits. -/
def insideBlock : ConstantRange := ⟨.ofNat 16 5, .ofNat 16 7, rfl, by decide⟩

/-- `[5, 7)` can be truncated to eight bits. -/
theorem Construction.agrees_insideBlock :
    ∃ s, (zextOrTrunc (ofRange insideBlock) 8).run = some s ∧ s.Agrees s := by
  have hc : (zextOrTrunc (ofRange insideBlock) 8).Orderly := by
    refine ⟨trivial, fun s hs _ => ?_⟩
    cases hs
    decide
  exact ⟨_, rfl, agrees_of_orderly rfl rfl hc hc⟩

/-- `[5, 0x103)` truncated to eight bits has the bounds 5 and 3. -/
theorem Construction.not_agrees : ¬ ∀ (c d : Construction) (s t : ConstantRangeSet),
    c.run = some s → d.run = some t → s.Agrees t := by
  intro h
  have hagrees := h (zextOrTrunc (ofRange acrossBlocks) 8) default _ _ rfl rfl
  exact absurd hagrees.increasing (by decide)

/-! ## Conversions of the sets that are built -/

/-- Which conversions are exact. -/
theorem Construction.exact_iff_convertible {c : Construction} {s : ConstantRangeSet} (h : c.run = some s)
    (newSize : Nat) (signExtend : Bool) :
    s.Exact newSize signExtend ↔ s.Convertible newSize signExtend :=
  (run_sized h).exact_iff

theorem Construction.exact_iff_insideBlock :
    ∃ s, (ofRange insideBlock).run = some s ∧ (s.Exact 8 false ↔ s.Convertible 8 false) :=
  ⟨_, rfl, exact_iff_convertible (c := ofRange insideBlock) rfl 8 false⟩

/-- The full set of eight bits extended to sixteen is the full set again. -/
theorem Construction.not_exact : ¬ ∀ (c : Construction) (s : ConstantRangeSet),
    c.run = some s → ∀ newSize signExtend, s.Exact newSize signExtend := by
  intro h
  have hexact := h (ofWidth 8 true) _ rfl 16 false
  have hoff := ((exact_iff_of_widths (wellFormed_ofWidth 8 true).widths).mp hexact).2
  exact absurd hoff (by decide)

end ADT
