import Revng.ADT.ConstantRangeSet

/-!
# The algebra of constant range sets

On well-formed sets the operations agree with the sets of members, and a well-formed set is
determined by its members.
-/

namespace ADT

open SortedMerge Toggles

namespace APInt

theorem value_ofNat_of_lt {w n : Nat} (h : n < 2 ^ w) : (ofNat w n).value = n :=
  Nat.mod_eq_of_lt h

@[simp] theorem bitWidth_ofNat (w n : Nat) : (ofNat w n).bitWidth = w := rfl

@[simp] theorem value_ofNat_zero (w : Nat) : (ofNat w 0).value = 0 := Nat.zero_mod _

theorem ofNat_value (x : APInt) : ofNat x.bitWidth x.value = x :=
  APInt.ext rfl (Nat.mod_eq_of_lt x.isLt)

theorem sub_of_le {l r : APInt} (hw : l.bitWidth = r.bitWidth) (h : r.value ≤ l.value) :
    l.sub r = some (ofNat l.bitWidth (l.value - r.value)) := by
  have hguard : (guard (l.bitWidth = r.bitWidth) : Option Unit) = some () :=
    (Option.guard_eq_some' _).mpr hw
  simp only [sub, hguard, Option.bind_eq_bind, Option.bind_some, Option.pure_def]
  refine congrArg some (APInt.ext rfl ?_)
  simp only [ofNat, Nat.add_sub_assoc h, Nat.add_mod_left]

theorem zext_of_le {x : APInt} {w : Nat} (h : x.bitWidth ≤ w) :
    x.zext w = some (ofNat w x.value) := by simp [zext, h]

theorem add_ofNat {x : APInt} {w n : Nat} (h : x.bitWidth = w) :
    x.add (ofNat w n) = some (ofNat w (x.value + n)) := by
  simp [add, h, ofNat, Nat.add_mod]

end APInt

namespace ConstantRangeSet

variable {s t u : ConstantRangeSet}

/-! ## Members -/

theorem WellFormed.values_ascending (hs : s.WellFormed) : s.values.Pairwise (· < ·) :=
  List.pairwise_map.mpr hs.ascending

theorem WellFormed.value_lt (hs : s.WellFormed) {n : Nat} (hn : n ∈ s.values) :
    n < 2 ^ s.bitWidth := by
  obtain ⟨b, hb, rfl⟩ := List.mem_map.mp hn
  exact hs.widths b hb ▸ b.isLt

theorem mem_members {x : APInt} :
    x ∈ s.members ↔ x.bitWidth = s.bitWidth ∧ isOn s.values x.value = true := Iff.rfl

theorem members_of_bounds_nil (h : s.bounds = []) : s.members = ∅ := by
  ext x
  simp [mem_members, values, h, isOn]

/-- The first bound of a set that has one is a member. -/
theorem WellFormed.head_mem {b : APInt} {bs : List APInt} (hs : s.WellFormed)
    (h : s.bounds = b :: bs) : b ∈ s.members := by
  have hasc := hs.values_ascending
  simp only [values, h, List.map_cons] at hasc
  refine ⟨hs.widths b (by simp [h]), ?_⟩
  simp only [values, h, List.map_cons]
  exact isOn_head hasc

theorem WellFormed.members_eq_empty_iff (hs : s.WellFormed) :
    s.members = ∅ ↔ s.bounds = [] := by
  refine ⟨fun h => ?_, members_of_bounds_nil⟩
  cases hb : s.bounds with
  | nil => rfl
  | cons b bs => exact absurd (hs.head_mem hb) (h ▸ Set.notMem_empty b)

/-- Sets of one width with the same members have the same bounds. -/
theorem WellFormed.values_eq_of_members (hs : s.WellFormed) (ht : t.WellFormed)
    (hw : s.bitWidth = t.bitWidth) (h : s.members = t.members) : s.values = t.values := by
  refine eq_of_isOn hs.values_ascending ht.values_ascending fun n hn => ?_
  have hlt : n < 2 ^ s.bitWidth := hn.elim hs.value_lt fun hn => hw ▸ ht.value_lt hn
  have hmem := Set.ext_iff.mp h ⟨s.bitWidth, n, hlt⟩
  simpa [mem_members, hw] using hmem

/-- Members of different widths differ. -/
theorem bitWidth_eq_of_members (h : s.members = t.members) (hs : s.members.Nonempty) :
    s.bitWidth = t.bitWidth := by
  obtain ⟨x, hx⟩ := hs
  exact hx.1.symm.trans (h ▸ hx : x ∈ t.members).1

/-! ## Constructors and complement -/

theorem wellFormed_default : default.WellFormed := ⟨by simp [default], by simp [default, Ascending]⟩

theorem wellFormed_ofWidth (w : Nat) (full : Bool) : (ofWidth w full).WellFormed := by
  cases full
  · exact ⟨by simp [ofWidth], by simp [ofWidth, Ascending]⟩
  · exact ⟨by simp [ofWidth], by simp [ofWidth, Ascending]⟩

theorem wellFormed_ofRange (r : ConstantRange) : (ofRange r).WellFormed := by
  have hw := r.sameWidth
  simp only [ofRange]
  split
  · exact ⟨by simp, by simp [Ascending]⟩
  next hfull =>
  split
  · exact ⟨by simp, by simp [Ascending]⟩
  next hempty =>
  split
  · next hwrapped =>
      -- the upper end is above zero and below the lower end
      simp only [ConstantRange.isWrappedSet, APInt.ugt, APInt.isZero, Bool.and_eq_true,
        decide_eq_true_eq, Bool.not_eq_true', decide_eq_false_iff_not] at hwrapped
      refine ⟨by simp [ConstantRange.getBitWidth, hw], ?_⟩
      simp only [Ascending, List.pairwise_cons, List.mem_cons, List.not_mem_nil, or_false,
        forall_eq_or_imp, forall_eq, APInt.value_ofNat_zero]
      exact ⟨⟨by omega, by omega⟩, by omega, by simp, .nil⟩
  next hwrapped =>
  split
  · next hupper =>
      refine ⟨by simp [ConstantRange.getBitWidth, hw], ?_⟩
      have hne : r.lower ≠ r.upper := by
        intro heq
        rcases r.proper heq with h | h
        · exact hfull (by simp [ConstantRange.isFullSet, ← heq, h])
        · exact hempty (by simp [ConstantRange.isEmptySet, ← heq, h])
      have hvalue : r.lower.value ≠ r.upper.value := fun h => hne (APInt.ext hw h)
      have hupper' : r.upper.value ≠ 0 := by
        intro h
        exact hupper (APInt.ext (by simp [ConstantRange.getBitWidth, hw]) (by simp [h]))
      simp only [ConstantRange.isWrappedSet, APInt.ugt, APInt.isZero, Bool.and_eq_true,
        decide_eq_true_eq, Bool.not_eq_true', decide_eq_false_iff_not, not_and, not_not]
        at hwrapped
      have hlt : r.lower.value < r.upper.value := by
        by_contra hnot
        exact hupper' (hwrapped (by omega))
      simpa [Ascending] using hlt
  · exact ⟨by simp [ConstantRange.getBitWidth], by simp [Ascending]⟩

/-- What `complement` does to the first bound. -/
theorem complement_cases (s : ConstantRangeSet) :
    (s.bounds = [] ∧ s.complement = ofWidth s.bitWidth true) ∨
      ∃ b bs, s.bounds = b :: bs ∧
        (b.value = 0 ∧ s.complement = ⟨bs, s.bitWidth⟩ ∨
          b.value ≠ 0 ∧ s.complement = ⟨.ofNat s.bitWidth 0 :: b :: bs, s.bitWidth⟩) := by
  cases hbounds : s.bounds with
  | nil => exact Or.inl ⟨rfl, by simp [complement, isEmptySet, hbounds]⟩
  | cons b bs =>
    refine Or.inr ⟨b, bs, rfl, ?_⟩
    by_cases hb : b.value = 0
    · exact Or.inl ⟨hb, by simp [complement, isEmptySet, hbounds, APInt.isZero, hb]⟩
    · exact Or.inr ⟨hb, by simp [complement, isEmptySet, hbounds, APInt.isZero, hb]⟩

theorem bitWidth_complement (s : ConstantRangeSet) : s.complement.bitWidth = s.bitWidth := by
  rcases s.complement_cases with ⟨-, h⟩ | ⟨b, bs, -, ⟨-, h⟩ | ⟨-, h⟩⟩
  · rw [h]; rfl
  · rw [h]
  · rw [h]

theorem WellFormed.complement (hs : s.WellFormed) : s.complement.WellFormed := by
  obtain ⟨hwidths, hasc⟩ := hs
  rcases s.complement_cases with ⟨-, h⟩ | ⟨b, bs, hbounds, hcase⟩
  · exact h ▸ wellFormed_ofWidth _ _
  rw [hbounds] at hwidths hasc
  obtain ⟨hb, hbs⟩ := List.pairwise_cons.mp hasc
  rcases hcase with ⟨-, h⟩ | ⟨hne, h⟩
  · exact h ▸ ⟨fun c hc => hwidths c (List.mem_cons_of_mem b hc), hbs⟩
  · rw [h]
    refine ⟨by simpa using hwidths, List.pairwise_cons.mpr ⟨fun c hc => ?_, hasc⟩⟩
    have hpos : 0 < b.value := Nat.pos_of_ne_zero hne
    rcases List.mem_cons.mp hc with rfl | hc
    · simpa using hpos
    · simpa using hpos.trans (hb c hc)

/-- The complement flips every status. -/
theorem isOn_complement (s : ConstantRangeSet) (n : Nat) :
    isOn s.complement.values n = !isOn s.values n := by
  rcases s.complement_cases with ⟨hbounds, h⟩ | ⟨b, bs, hbounds, ⟨hb, h⟩ | ⟨hb, h⟩⟩
  · simp [h, ofWidth, values, hbounds, isOn]
  · simp [h, values, hbounds, isOn, hb]
  · simp [h, values, hbounds, isOn]

theorem members_complement (s : ConstantRangeSet) :
    s.complement.members = {x | x.bitWidth = s.bitWidth} \ s.members := by
  ext x
  simp only [mem_members, bitWidth_complement, isOn_complement, Set.mem_sdiff, Set.mem_ofPred_eq,
    Bool.not_eq_true', not_and]
  cases isOn s.values x.value <;> simp

/-! ## Union and intersection -/

/-- The status of the result of `merge`. -/
def mergeOutput (And left right : Bool) : Bool := if And then left && right else left || right

variable {w : Nat}

theorem forall_mem_filterMap_cons {side : Zipped APInt → Option APInt} {z : Zipped APInt}
    {zs : List (Zipped APInt)} :
    (∀ b ∈ (z :: zs).filterMap side, b.bitWidth = w) ↔
      (side z).all (·.bitWidth = w) = true ∧ ∀ b ∈ zs.filterMap side, b.bitWidth = w := by
  cases h : side z with
  | none => simp [List.filterMap_cons_none h]
  | some b => simp [List.filterMap_cons_some h]

variable {And : Bool}

/-- The loop asserts the width of every bound. -/
theorem mergeLoop_eq_some {last left right : Bool} {zs : List (Zipped APInt)} {out : List APInt} :
    mergeLoop And w last left right zs = some out ↔
      (∀ b ∈ zs.filterMap Zipped.first, b.bitWidth = w) ∧
        (∀ b ∈ zs.filterMap Zipped.second, b.bitWidth = w) ∧
        combine (mergeOutput And) last left right zs = out := by
  induction zs generalizing last left right out with
  | nil => simp [mergeLoop, combine]
  | cons z zs ih =>
    simp only [mergeLoop, combine, mergeOutput, Option.bind_eq_bind, Option.bind_eq_some_iff,
      Option.guard_eq_some', exists_const, ih, Option.pure_def, Option.some.injEq,
      forall_mem_filterMap_cons]
    constructor
    · rintro ⟨hfirst, hsecond, _, ⟨hfirsts, hseconds, rfl⟩, hout⟩
      exact ⟨⟨hfirst, hfirsts⟩, ⟨hsecond, hseconds⟩, hout⟩
    · rintro ⟨⟨hfirst, hfirsts⟩, ⟨hsecond, hseconds⟩, hout⟩
      exact ⟨hfirst, hsecond, _, ⟨hfirsts, hseconds, rfl⟩, hout⟩

theorem merge_eq_some : s.merge And t = some u ↔
    (s.bitWidth = 0 ∨ t.bitWidth = 0 ∨ s.bitWidth = t.bitWidth) ∧
      (∀ b ∈ s.bounds, b.bitWidth = max s.bitWidth t.bitWidth) ∧
      (∀ b ∈ t.bounds, b.bitWidth = max s.bitWidth t.bitWidth) ∧
      u = ⟨combine (mergeOutput And) false false false (zipmap APInt.value s.bounds t.bounds),
        max s.bitWidth t.bitWidth⟩ := by
  simp only [merge, Option.bind_eq_bind, Option.bind_eq_some_iff, Option.guard_eq_some',
    exists_const, mergeLoop_eq_some, filterMap_first_zipmap, filterMap_second_zipmap,
    Option.pure_def, Option.some.injEq]
  constructor
  · rintro ⟨hguard, _, ⟨hs, ht, rfl⟩, rfl⟩
    exact ⟨hguard, hs, ht, rfl⟩
  · rintro ⟨hguard, hs, ht, rfl⟩
    exact ⟨hguard, _, ⟨hs, ht, rfl⟩, rfl⟩

/-- Two sets can be merged when they have one width, or one of them is `ConstantRangeSet()`. -/
def Compatible (s t : ConstantRangeSet) : Prop :=
  s.bitWidth = t.bitWidth ∨ s = default ∨ t = default

theorem eq_default_of_nil (hw : s.bitWidth = 0) (hb : s.bounds = []) : s = default := by
  cases s
  simp_all [default]

theorem WellFormed.merge_isSome_iff (And : Bool) (hs : s.WellFormed)
    (ht : t.WellFormed) : (∃ u, s.merge And t = some u) ↔ s.Compatible t := by
  constructor
  · rintro ⟨u, h⟩
    obtain ⟨hguard, hsw, htw, -⟩ := merge_eq_some.mp h
    by_contra hnot
    obtain ⟨hne, hs', ht'⟩ : s.bitWidth ≠ t.bitWidth ∧ s ≠ default ∧ t ≠ default := by
      simpa [Compatible, not_or] using hnot
    -- a bound of the narrower set would have the width of the other one
    rcases hguard with hzero | hzero | heq
    · refine hs' (eq_default_of_nil hzero (List.eq_nil_iff_forall_not_mem.mpr fun b hb => ?_))
      have hb' := hsw b hb
      rw [hs.widths b hb] at hb'
      omega
    · refine ht' (eq_default_of_nil hzero (List.eq_nil_iff_forall_not_mem.mpr fun b hb => ?_))
      have hb' := htw b hb
      rw [ht.widths b hb] at hb'
      omega
    · exact hne heq
  · rintro (heq | rfl | rfl)
    · refine ⟨_, merge_eq_some.mpr ⟨Or.inr (Or.inr heq), fun b hb => ?_, fun b hb => ?_, rfl⟩⟩
      · rw [hs.widths b hb, heq, max_self]
      · rw [ht.widths b hb, heq, max_self]
    · exact ⟨_, merge_eq_some.mpr ⟨Or.inl rfl, by simp [default],
        by simpa [default] using ht.widths, rfl⟩⟩
    · exact ⟨_, merge_eq_some.mpr ⟨Or.inr (Or.inl rfl), by simpa [default] using hs.widths,
        by simp [default], rfl⟩⟩

/-- What `merge` does to the statuses. -/
theorem WellFormed.merge (hs : s.WellFormed) (ht : t.WellFormed) (h : s.merge And t = some u) :
    u.WellFormed ∧ ∀ n, isOn u.values n = mergeOutput And (isOn s.values n) (isOn t.values n) := by
  obtain ⟨-, hsw, htw, rfl⟩ := merge_eq_some.mp h
  have hmerged := merged_zipmap hs.ascending ht.ascending
  refine ⟨⟨fun b hb => ?_, combine_ascending _ _ _ _ hmerged⟩, fun n => ?_⟩
  · obtain ⟨z, hz, rfl⟩ := List.mem_map.mp ((combine_sublist _ _ _ _ _).subset hb)
    exact (value_mem_of_mem_zipmap hz).elim (hsw _) (htw _)
  · have hoff : mergeOutput And false false = false := by cases And <;> rfl
    have hcombine := isOn_combine hoff hmerged n
    simpa only [values, filterMap_first_zipmap, filterMap_second_zipmap, Bool.false_xor]
      using hcombine

/-- The members of a set that was merged, seen at the width of the result. -/
theorem WellFormed.mem_iff_of_width (hs : s.WellFormed) (hw : ∀ b ∈ s.bounds, b.bitWidth = w)
    {x : APInt} : x ∈ s.members ↔ x.bitWidth = w ∧ isOn s.values x.value = true := by
  cases hbounds : s.bounds with
  | nil => simp [members_of_bounds_nil hbounds, values, hbounds, isOn]
  | cons b bs =>
    have hb : b ∈ s.bounds := by simp [hbounds]
    rw [mem_members, ← hs.widths b hb, hw b hb]

theorem WellFormed.mem_merge (hs : s.WellFormed) (ht : t.WellFormed) (h : s.merge And t = some u)
    (x : APInt) :
    x ∈ u.members ↔ if And then x ∈ s.members ∧ x ∈ t.members
      else x ∈ s.members ∨ x ∈ t.members := by
  have hon := (hs.merge ht h).2 x.value
  obtain ⟨-, hsw, htw, rfl⟩ := merge_eq_some.mp h
  rw [hs.mem_iff_of_width hsw, ht.mem_iff_of_width htw, mem_members, hon]
  cases And
  · simp only [mergeOutput, Bool.false_eq_true, if_false, Bool.or_eq_true]
    exact and_or_left
  · simp only [mergeOutput, if_true, Bool.and_eq_true]
    exact and_and_left

theorem WellFormed.members_unionWith (hs : s.WellFormed) (ht : t.WellFormed)
    (h : s.unionWith t = some u) : u.members = s.members ∪ t.members :=
  Set.ext fun x => by simpa using hs.mem_merge ht h x

theorem WellFormed.members_intersectWith (hs : s.WellFormed) (ht : t.WellFormed)
    (h : s.intersectWith t = some u) : u.members = s.members ∩ t.members :=
  Set.ext fun x => by simpa using hs.mem_merge ht h x

/-! ## Comparison -/

theorem equalBounds_of_width : ∀ {ls rs : List APInt}, ls.length = rs.length →
    (∀ b ∈ ls, b.bitWidth = w) → (∀ b ∈ rs, b.bitWidth = w) →
    equalBounds ls rs = some (decide (ls.map APInt.value = rs.map APInt.value))
  | [], [], _, _, _ => rfl
  | [], _ :: _, h, _, _ => by simp at h
  | _ :: _, [], h, _, _ => by simp at h
  | l :: ls, r :: rs, h, hls, hrs => by
      have hw : l.bitWidth = r.bitWidth := (hls l (by simp)).trans (hrs r (by simp)).symm
      have ih := equalBounds_of_width (by simpa using h) (fun b hb => hls b (by simp [hb]))
        (fun b hb => hrs b (by simp [hb]))
      by_cases hv : l.value = r.value
      · simp [equalBounds, APInt.equal, hw, hv, ih]
      · simp [equalBounds, APInt.equal, hw, hv]

/-- Sets of one width are compared by the values of their bounds. -/
theorem WellFormed.equal_of_width (hs : s.WellFormed) (ht : t.WellFormed)
    (hw : s.bitWidth = t.bitWidth) : s.equal t = some (decide (s.values = t.values)) := by
  rw [equal]
  split
  · next hlen => exact equalBounds_of_width hlen hs.widths (hw ▸ ht.widths)
  · next hlen =>
      have hne : s.values ≠ t.values := fun h => hlen (by simpa [values] using congrArg List.length h)
      simp [hne]

/-- Where two sets can be compared, they are equal exactly when their members are. -/
theorem WellFormed.equal_iff (hs : s.WellFormed) (ht : t.WellFormed) {b : Bool}
    (h : s.equal t = some b) : b = true ↔ s.members = t.members := by
  by_cases hw : s.bitWidth = t.bitWidth
  · rw [hs.equal_of_width ht hw, Option.some.injEq] at h
    subst h
    rw [decide_eq_true_eq]
    refine ⟨fun hv => ?_, hs.values_eq_of_members ht hw⟩
    ext x
    rw [mem_members, mem_members, hw, hv]
  · -- sets of different widths have the same members only when they have none
    have hnil : s.members = t.members ↔ s.bounds = [] ∧ t.bounds = [] := by
      constructor
      · intro heq
        have hempty : s.members = ∅ := Set.not_nonempty_iff_eq_empty.mp
          fun hne => hw (bitWidth_eq_of_members heq hne)
        exact ⟨hs.members_eq_empty_iff.mp hempty, ht.members_eq_empty_iff.mp (heq ▸ hempty)⟩
      · rintro ⟨hs', ht'⟩
        rw [members_of_bounds_nil hs', members_of_bounds_nil ht']
    rw [hnil]
    cases hsb : s.bounds with
    | nil =>
      cases htb : t.bounds with
      | nil => simp [equal, hsb, htb, equalBounds] at h; simp [← h]
      | cons r rs => simp [equal, hsb, htb] at h; simp [← h]
    | cons l ls =>
      have hl := hs.widths l (by simp [hsb])
      cases htb : t.bounds with
      | nil => simp [equal, hsb, htb] at h; simp [← h]
      | cons r rs =>
        have hr := ht.widths r (by simp [htb])
        have hlr : l.bitWidth ≠ r.bitWidth := by omega
        by_cases hlen : ls.length = rs.length
        · simp [equal, hsb, htb, hlen, equalBounds, APInt.equal, hlr] at h
        · simp [equal, hsb, htb, hlen] at h
          simp [← h]

theorem WellFormed.contains_iff (hs : s.WellFormed) (ht : t.WellFormed) {b : Bool}
    (h : s.contains t = some b) : b = true ↔ t.members ⊆ s.members := by
  obtain ⟨u, hu, heq⟩ := Option.bind_eq_some_iff.mp h
  rw [(hs.merge ht hu).1.equal_iff ht heq, hs.members_intersectWith ht hu]
  exact Set.inter_eq_right

theorem equal_isSome_of_nil (h : s.bounds = []) : ∃ b, s.equal t = some b := by
  cases htb : t.bounds with
  | nil => exact ⟨true, by simp [equal, h, htb, equalBounds]⟩
  | cons r rs => exact ⟨false, by simp [equal, h, htb]⟩

theorem WellFormed.contains_isSome (hs : s.WellFormed) (ht : t.WellFormed)
    (hst : s.Compatible t) : ∃ b, s.contains t = some b := by
  obtain ⟨u, hu⟩ := (merge_isSome_iff true hs ht).mpr hst
  have hu' := (hs.merge ht hu).1
  have hmembers := hs.members_intersectWith ht hu
  have hcontains : s.contains t = u.equal t := by simp [contains, intersectWith, hu]
  rw [hcontains]
  rcases hst with hw | rfl | rfl
  · obtain ⟨-, -, -, rfl⟩ := merge_eq_some.mp hu
    exact ⟨_, hu'.equal_of_width ht (by simp [hw])⟩
  · rw [members_of_bounds_nil (s := default) rfl, Set.empty_inter] at hmembers
    exact equal_isSome_of_nil (hu'.members_eq_empty_iff.mp hmembers)
  · rw [members_of_bounds_nil (s := default) rfl, Set.inter_empty] at hmembers
    exact equal_isSome_of_nil (hu'.members_eq_empty_iff.mp hmembers)

/-! ## Size -/

/-- The loop adds up the lengths of the ranges. -/
theorem sizeLoop_none : ∀ {bs : List APInt} {size : APInt},
    (∀ b ∈ bs, b.bitWidth = w) → InOrder (bs.map APInt.value) → size.bitWidth = w + 1 →
    sizeLoop (w + 1) none size bs =
      some (.ofNat (w + 1) (size.value + (spans (2 ^ w) (bs.map APInt.value)).length))
  | [], size, _, _, hsize => by
      simp only [sizeLoop, List.map_nil, spans, List.length_nil, Nat.add_zero, ← hsize,
        APInt.ofNat_value]
  | [a], size, hw, _, hsize => by
      have ha := hw a (by simp)
      have hlt : a.value < 2 ^ w := ha ▸ a.isLt
      have hpow : 2 ^ (w + 1) = 2 * 2 ^ w := Nat.pow_succ'
      have hlast : a.zext (w + 1) = some (.ofNat (w + 1) a.value) := APInt.zext_of_le (by omega)
      have hav : (APInt.ofNat (w + 1) a.value).value = a.value :=
        APInt.value_ofNat_of_lt (by omega)
      have htop : (APInt.getHighBitsSet (w + 1) 1).value = 2 ^ w := by
        rw [APInt.getHighBitsSet, APInt.value_ofNat_of_lt] <;> simp only [Nat.add_sub_cancel] <;>
          omega
      have hsub := APInt.sub_of_le (l := APInt.getHighBitsSet (w + 1) 1)
        (r := .ofNat (w + 1) a.value) rfl (by omega)
      rw [hav, htop] at hsub
      simp only [sizeLoop, hlast, Option.bind_eq_bind, Option.bind_some, hsub, List.map_cons,
        List.map_nil, spans, List.length_range']
      exact APInt.add_ofNat hsize
  | a :: b :: bs, size, hw, hord, hsize => by
      have ha := hw a (by simp)
      have hb := hw b (by simp)
      obtain ⟨hab, -, hord⟩ := hord
      have hlt : b.value < 2 ^ w := hb ▸ b.isLt
      have hpow : 2 ^ (w + 1) = 2 * 2 ^ w := Nat.pow_succ'
      have hsub := APInt.sub_of_le (hb.trans ha.symm) hab.le
      have hdiff : (APInt.ofNat b.bitWidth (b.value - a.value)).value = b.value - a.value :=
        APInt.value_ofNat_of_lt (by rw [hb]; omega)
      have hext : (APInt.ofNat b.bitWidth (b.value - a.value)).zext (w + 1)
          = some (.ofNat (w + 1) (b.value - a.value)) := by
        rw [APInt.zext_of_le (by simp [hb]), hdiff]
      have hrest : (APInt.ofNat (w + 1) (size.value + (b.value - a.value))).bitWidth = w + 1 := rfl
      have ih := sizeLoop_none (fun c hc => hw c (by simp [hc])) hord hrest
      simp only [sizeLoop, hsub, Option.bind_eq_bind, Option.bind_some, hext,
        APInt.add_ofNat hsize, ih, List.map_cons, spans, List.length_append, List.length_range']
      refine congrArg some (APInt.ext rfl ?_)
      simp only [APInt.ofNat, Nat.mod_add_mod, Nat.add_assoc]

theorem mem_spans_values (hw : ∀ b ∈ s.bounds, b.bitWidth = s.bitWidth) (hord : InOrder s.values)
    {n : Nat} : n ∈ spans (2 ^ s.bitWidth) s.values ↔ n < 2 ^ s.bitWidth ∧ isOn s.values n = true := by
  refine mem_spans hord fun m hm => ?_
  obtain ⟨b, hb, rfl⟩ := List.mem_map.mp hm
  exact (hw b hb ▸ b.isLt).le

theorem ncard_members (hw : ∀ b ∈ s.bounds, b.bitWidth = s.bitWidth) (hord : InOrder s.values) :
    s.members.ncard = (spans (2 ^ s.bitWidth) s.values).length := by
  have hnodup := (spans_ascending (2 ^ s.bitWidth) hord).imp (fun h => Nat.ne_of_lt h)
  have hinj : Set.InjOn APInt.value s.members := fun x hx y hy h =>
    APInt.ext (hx.1.trans hy.1.symm) h
  have himage : APInt.value '' s.members = ↑(spans (2 ^ s.bitWidth) s.values).toFinset := by
    ext n
    simp only [Set.mem_image, List.coe_toFinset, Set.mem_ofPred_eq, mem_spans_values hw hord]
    constructor
    · rintro ⟨x, hx, rfl⟩
      exact ⟨hx.1 ▸ x.isLt, hx.2⟩
    · rintro ⟨hlt, hon⟩
      exact ⟨⟨s.bitWidth, n, hlt⟩, ⟨rfl, hon⟩, rfl⟩
  rw [← hinj.ncard_image, himage, Set.ncard_coe_finset,
    List.toFinset_card_of_nodup hnodup]

theorem length_spans_lt (hw : ∀ b ∈ s.bounds, b.bitWidth = s.bitWidth) (hord : InOrder s.values) :
    (spans (2 ^ s.bitWidth) s.values).length < 2 ^ (s.bitWidth + 1) := by
  have hnodup := (spans_ascending (2 ^ s.bitWidth) hord).imp (fun h => Nat.ne_of_lt h)
  have hsub : (spans (2 ^ s.bitWidth) s.values).toFinset ⊆ Finset.range (2 ^ s.bitWidth) := by
    intro n hn
    exact Finset.mem_range.mpr ((mem_spans_values hw hord).mp (List.mem_toFinset.mp hn)).1
  have hle := Finset.card_le_card hsub
  rw [List.toFinset_card_of_nodup hnodup, Finset.card_range] at hle
  exact hle.trans_lt (Nat.pow_lt_pow_right (by decide) (Nat.lt_succ_self _))

theorem size_of_inOrder (hw : ∀ b ∈ s.bounds, b.bitWidth = s.bitWidth) (hord : InOrder s.values) :
    s.size = some (.ofNat (s.bitWidth + 1) (spans (2 ^ s.bitWidth) s.values).length) := by
  rw [size]
  split
  · next hnil =>
      have hbounds : s.bounds = [] := List.length_eq_zero_iff.mp hnil
      simp [values, hbounds, spans]
  · rw [sizeLoop_none hw hord rfl]
    simp [values]

theorem WellFormed.size_eq (hs : s.WellFormed) :
    ∃ n, s.size = some n ∧ n.value = s.members.ncard := by
  have hord := inOrder_of_pairwise hs.values_ascending
  refine ⟨_, size_of_inOrder hs.widths hord, ?_⟩
  rw [APInt.value_ofNat_of_lt (length_spans_lt hs.widths hord), ncard_members hs.widths hord]

end ConstantRangeSet

end ADT
