import Revng.ADT.SetAlgebra
import Revng.Lib.PartialLoops

/-!
# Width changes

`zextOrTrunc` and `sextOrTrunc` convert a set bound by bound.  A range without an end, a
range across the sign boundary and the folding of a truncation do not commute with that
(`exact_iff`).
-/

namespace ADT

open PartialLoops SortedMerge Toggles

namespace APInt

/-- The value after a conversion, in the new width. -/
def converted (signExtend : Bool) (newSize : Nat) (x : APInt) : APInt :=
  if x.bitWidth < newSize && signExtend && 2 ^ (x.bitWidth - 1) ≤ x.value then
    ofNat newSize (x.value + 2 ^ newSize - 2 ^ x.bitWidth)
  else ofNat newSize x.value

/-- The conversion of one integer that corresponds to a conversion of a set. -/
def extOrTrunc (signExtend : Bool) (newSize : Nat) (x : APInt) : Option APInt :=
  if signExtend then x.sextOrTrunc newSize else x.zextOrTrunc newSize

theorem sext_of_le {x : APInt} {w : Nat} (h : x.bitWidth ≤ w) :
    x.sext w = if 2 ^ (x.bitWidth - 1) ≤ x.value then
      some (ofNat w (x.value + 2 ^ w - 2 ^ x.bitWidth)) else some (ofNat w x.value) := by
  simp [sext, h]

theorem trunc_of_le {x : APInt} {w : Nat} (h : w ≤ x.bitWidth) :
    x.trunc w = some (ofNat w x.value) := by simp [trunc, h]

theorem extOrTrunc_eq (signExtend : Bool) (newSize : Nat) (x : APInt) :
    x.extOrTrunc signExtend newSize = some (x.converted signExtend newSize) := by
  rcases Nat.lt_trichotomy x.bitWidth newSize with hlt | heq | hgt
  · cases signExtend
    · simp [extOrTrunc, zextOrTrunc, converted, hlt, zext_of_le hlt.le]
    · simp only [extOrTrunc, sextOrTrunc, converted, hlt, if_true, sext_of_le hlt.le, decide_true,
        Bool.true_and, decide_eq_true_eq]
      split <;> rfl
  · subst heq
    cases signExtend <;>
      simp [extOrTrunc, zextOrTrunc, sextOrTrunc, converted, ofNat_value]
  · have hnot : ¬ x.bitWidth < newSize := by omega
    cases signExtend <;>
      simp [extOrTrunc, zextOrTrunc, sextOrTrunc, converted, hgt, hnot, trunc_of_le hgt.le]

theorem converted_self (signExtend : Bool) (x : APInt) :
    x.converted signExtend x.bitWidth = x := by
  simp [converted, ofNat_value]

@[simp] theorem bitWidth_converted (signExtend : Bool) (newSize : Nat) (x : APInt) :
    (x.converted signExtend newSize).bitWidth = newSize := by
  rw [converted]
  split <;> rfl

end APInt

namespace ConstantRangeSet

variable {s t : ConstantRangeSet} {newSize : Nat}

/-- Bounds of the width of the set are converted one by one. -/
theorem changeSize_of_widths (hw : ∀ b ∈ s.bounds, b.bitWidth = s.bitWidth)
    (hne : newSize ≠ s.bitWidth) (signExtend : Bool) :
    s.changeSize newSize signExtend =
      some ⟨s.bounds.map (APInt.converted signExtend newSize), newSize⟩ := by
  have hbound : ∀ b ∈ s.bounds, (if s.bitWidth < newSize then
      if signExtend = true then b.sext newSize else b.zext newSize
      else b.trunc newSize) = some (b.converted signExtend newSize) := by
    intro b hb
    have hb := hw b hb
    rw [← APInt.extOrTrunc_eq, ← hb]
    by_cases hlt : b.bitWidth < newSize
    · cases signExtend <;>
        simp [APInt.extOrTrunc, APInt.zextOrTrunc, APInt.sextOrTrunc, hlt]
    · have hgt : newSize < b.bitWidth := by omega
      cases signExtend <;>
        simp [APInt.extOrTrunc, APInt.zextOrTrunc, APInt.sextOrTrunc, hlt, hgt]
  simp only [changeSize, hne, if_false, mapM_eq_some_map hbound]
  rfl

/-! ## Exact conversions -/

/-- The conversion returns a well-formed set of exactly the converted members. -/
def Exact (s : ConstantRangeSet) (newSize : Nat) (signExtend : Bool) : Prop :=
  ∃ t, s.changeSize newSize signExtend = some t ∧ t.WellFormed ∧
    t.members = {y | ∃ x ∈ s.members, x.extOrTrunc signExtend newSize = some y}

/-- The greatest integer that an extension keeps below the ones it adds. -/
def lastKept (bitWidth : Nat) (signExtend : Bool) : Nat :=
  if signExtend then 2 ^ (bitWidth - 1) - 1 else 2 ^ bitWidth - 1

/-- Bounds can be converted one by one: an extension adds no integers after the last one it
keeps, and a truncation folds the ranges apart from each other. -/
def Convertible (s : ConstantRangeSet) (newSize : Nat) (signExtend : Bool) : Prop :=
  if newSize = s.bitWidth then s.WellFormed
  else if s.bitWidth < newSize then
    s.WellFormed ∧ isOn s.values (lastKept s.bitWidth signExtend) = false
  else
    (∀ b ∈ s.bounds, newSize ≤ b.bitWidth) ∧ (s.values.map (· % 2 ^ newSize)).Pairwise (· < ·) ∧
      (InBlocks (2 ^ newSize) (2 ^ (s.bitWidth - newSize)) s.values ∨
        ∃ a, s.values = [a] ∧ a % 2 ^ newSize = 0)

theorem image_extOrTrunc (s : ConstantRangeSet) (newSize : Nat) (signExtend : Bool) :
    {y | ∃ x ∈ s.members, x.extOrTrunc signExtend newSize = some y}
      = APInt.converted signExtend newSize '' s.members := by
  simp only [APInt.extOrTrunc_eq, Option.some.injEq]
  rfl

theorem exact_iff_of_width (h : newSize = s.bitWidth) {signExtend : Bool} :
    s.Exact newSize signExtend ↔ s.WellFormed := by
  have hsame : s.changeSize newSize signExtend = some s := by simp [changeSize, h]
  have himage : APInt.converted signExtend newSize '' s.members = s.members := by
    refine Set.ext fun y => ⟨?_, fun hy => ⟨y, hy, ?_⟩⟩
    · rintro ⟨x, hx, rfl⟩
      rwa [h, ← hx.1, APInt.converted_self]
    · rw [h, ← hy.1, APInt.converted_self]
  rw [Exact, hsame, image_extOrTrunc, himage]
  constructor
  · rintro ⟨t, ht, hwf, -⟩
    exact Option.some.inj ht ▸ hwf
  · intro hwf
    exact ⟨s, rfl, hwf, rfl⟩

/-! ### Extensions -/

/-- What an extension does to the value of a bound. -/
def extended (bitWidth newSize : Nat) (signExtend : Bool) (v : Nat) : Nat :=
  if v ≤ lastKept bitWidth signExtend then v else v + (2 ^ newSize - 2 ^ bitWidth)

variable {w : Nat} {signExtend : Bool}

theorem lastKept_lt (w : Nat) (signExtend : Bool) : lastKept w signExtend < 2 ^ w := by
  have hpos := Nat.two_pow_pos w
  have hle : 2 ^ (w - 1) ≤ 2 ^ w := Nat.pow_le_pow_right (by decide) (Nat.sub_le w 1)
  rw [lastKept]
  split <;> omega

theorem value_converted {x : APInt} (hlt : x.bitWidth < newSize) :
    (x.converted signExtend newSize).value = extended x.bitWidth newSize signExtend x.value := by
  have hpow := Nat.pow_lt_pow_right (a := 2) (by decide) hlt
  have hx := x.isLt
  rw [APInt.converted, extended, lastKept]
  by_cases h : signExtend = true ∧ 2 ^ (x.bitWidth - 1) ≤ x.value
  · have hnot : ¬ x.value ≤ 2 ^ (x.bitWidth - 1) - 1 := by
      have hpos := Nat.two_pow_pos (x.bitWidth - 1)
      omega
    rw [if_pos (by simp [hlt, h.1, h.2]), if_pos h.1, if_neg hnot,
      APInt.value_ofNat_of_lt (by omega)]
    omega
  · have hle : x.value ≤ if signExtend = true then 2 ^ (x.bitWidth - 1) - 1
        else 2 ^ x.bitWidth - 1 := by
      split
      · next hsign =>
          have hnot : ¬ 2 ^ (x.bitWidth - 1) ≤ x.value := fun hle => h ⟨hsign, hle⟩
          omega
      · omega
    rw [if_neg (by simpa [hlt] using h), if_pos hle, APInt.value_ofNat_of_lt (by omega)]

theorem extended_le_iff {a b : Nat} :
    extended w newSize signExtend a ≤ extended w newSize signExtend b ↔ a ≤ b := by
  simp only [extended]
  split <;> split <;> omega

theorem extended_ascending {bs : List Nat} :
    (bs.map (extended w newSize signExtend)).Pairwise (· < ·) ↔ bs.Pairwise (· < ·) := by
  rw [List.pairwise_map]
  simp only [← not_le, extended_le_iff]

theorem isOn_extended (bs : List Nat) (v : Nat) :
    isOn (bs.map (extended w newSize signExtend)) (extended w newSize signExtend v) = isOn bs v :=
  isOn_map fun _ _ => extended_le_iff

/-- Among the integers that the extension adds, the status stays the one of the last kept. -/
theorem isOn_added {bs : List Nat} {n : Nat} (hlow : lastKept w signExtend < n)
    (hhigh : n ≤ lastKept w signExtend + (2 ^ newSize - 2 ^ w)) :
    isOn (bs.map (extended w newSize signExtend)) n = isOn bs (lastKept w signExtend) := by
  induction bs with
  | nil => rfl
  | cons b bs ih =>
    have hiff : extended w newSize signExtend b ≤ n ↔ b ≤ lastKept w signExtend := by
      rw [extended]
      split <;> omega
    simp [isOn, hiff, ih]

theorem exists_extended_or_added {n : Nat} (hn : n < 2 ^ newSize) :
    (∃ v < 2 ^ w, extended w newSize signExtend v = n) ∨
      lastKept w signExtend < n ∧ n ≤ lastKept w signExtend + (2 ^ newSize - 2 ^ w) := by
  have hkept := lastKept_lt w signExtend
  by_cases hlow : n ≤ lastKept w signExtend
  · exact Or.inl ⟨n, by omega, by rw [extended, if_pos hlow]⟩
  by_cases hhigh : n ≤ lastKept w signExtend + (2 ^ newSize - 2 ^ w)
  · exact Or.inr ⟨by omega, hhigh⟩
  · refine Or.inl ⟨n - (2 ^ newSize - 2 ^ w), by omega, ?_⟩
    rw [extended, if_neg (by omega)]
    omega

theorem exact_iff_of_extension (hw : ∀ b ∈ s.bounds, b.bitWidth = s.bitWidth)
    (hlt : s.bitWidth < newSize) : s.Exact newSize signExtend ↔
      s.WellFormed ∧ isOn s.values (lastKept s.bitWidth signExtend) = false := by
  have hpow := Nat.pow_lt_pow_right (a := 2) (by decide) hlt
  have hkept := lastKept_lt s.bitWidth signExtend
  obtain ⟨t, ht⟩ : ∃ t, t = (⟨s.bounds.map (APInt.converted signExtend newSize), newSize⟩ :
    ConstantRangeSet) := ⟨_, rfl⟩
  have hsize : s.changeSize newSize signExtend = some t :=
    ht ▸ changeSize_of_widths hw (by omega) signExtend
  have hvalues : t.values = s.values.map (extended s.bitWidth newSize signExtend) := by
    simp only [ht, values, List.map_map]
    refine List.map_congr_left fun b hb => ?_
    have hb' := hw b hb
    have hlt' : b.bitWidth < newSize := hb' ▸ hlt
    simp only [Function.comp_apply, value_converted hlt', hb']
  have hwf : t.WellFormed ↔ s.WellFormed := by
    have hasc : t.values.Pairwise (· < ·) ↔ s.values.Pairwise (· < ·) := by
      rw [hvalues, extended_ascending]
    refine ⟨fun h => ⟨hw, List.pairwise_map.mp (hasc.mp h.values_ascending)⟩, fun h => ⟨?_, ?_⟩⟩
    · simp [ht]
    · exact List.pairwise_map.mp (hasc.mpr h.values_ascending)
  have hbit : t.bitWidth = newSize := by rw [ht]
  rw [Exact, hsize, image_extOrTrunc]
  simp only [Option.some.injEq, exists_eq_left', hwf]
  refine and_congr_right fun hs => ?_
  constructor
  · intro himage
    by_contra hon
    -- the integer after the last kept one would be a member
    have hnew : (⟨newSize, lastKept s.bitWidth signExtend + 1, by omega⟩ : APInt) ∈ t.members := by
      refine ⟨hbit.symm, ?_⟩
      have hadded : isOn t.values (lastKept s.bitWidth signExtend + 1)
          = isOn s.values (lastKept s.bitWidth signExtend) :=
        hvalues ▸ isOn_added (by omega) (by omega)
      simpa [hadded] using hon
    rw [himage] at hnew
    obtain ⟨x, hx, hconv⟩ := hnew
    have hvalue := congrArg APInt.value hconv
    rw [value_converted (hx.1 ▸ hlt), hx.1, extended] at hvalue
    simp only at hvalue
    split at hvalue <;> omega
  · intro hoff
    ext y
    constructor
    · rintro ⟨hyw, hy⟩
      rw [hvalues] at hy
      have hn : y.value < 2 ^ newSize := hbit ▸ hyw ▸ y.isLt
      rcases exists_extended_or_added hn with ⟨v, hv, hvy⟩ | ⟨hlow, hhigh⟩
      · refine ⟨⟨s.bitWidth, v, hv⟩, ⟨rfl, ?_⟩, APInt.ext (by simp [hyw, hbit]) ?_⟩
        · rw [← isOn_extended s.values v, hvy]
          exact hy
        · rw [value_converted hlt]
          exact hvy
      · rw [isOn_added hlow hhigh, hoff] at hy
        cases hy
    · rintro ⟨x, hx, rfl⟩
      refine ⟨by simp [hbit], ?_⟩
      rw [hvalues, value_converted (hx.1 ▸ hlt), hx.1, isOn_extended]
      exact hx.2

/-! ### Truncations -/

theorem value_converted_of_le {x : APInt} (h : newSize ≤ x.bitWidth) :
    (x.converted signExtend newSize).value = x.value % 2 ^ newSize := by
  have hnot : ¬ x.bitWidth < newSize := by omega
  simp [APInt.converted, hnot, APInt.ofNat]

/-- The members of a set, block by block. -/
theorem mem_truncated (hgt : newSize < s.bitWidth) {y : APInt} (hy : y.bitWidth = newSize) :
    y ∈ APInt.converted signExtend newSize '' s.members ↔
      ∃ q < 2 ^ (s.bitWidth - newSize), isOn s.values (q * 2 ^ newSize + y.value) = true := by
  have hsplit : 2 ^ s.bitWidth = 2 ^ (s.bitWidth - newSize) * 2 ^ newSize := by
    rw [← Nat.pow_add, Nat.sub_add_cancel hgt.le]
  have hylt : y.value < 2 ^ newSize := hy ▸ y.isLt
  constructor
  · rintro ⟨x, hx, rfl⟩
    have hvalue : (x.converted signExtend newSize).value = x.value % 2 ^ newSize :=
      value_converted_of_le (by rw [hx.1]; omega)
    refine ⟨x.value / 2 ^ newSize, ?_, ?_⟩
    · rw [Nat.div_lt_iff_lt_mul (Nat.two_pow_pos newSize), ← hsplit, ← hx.1]
      exact x.isLt
    · rw [hvalue, Nat.div_add_mod']
      exact hx.2
  · rintro ⟨q, hq, hon⟩
    have hmul := Nat.mul_le_mul_right (2 ^ newSize) (Nat.succ_le_of_lt hq)
    rw [Nat.succ_mul, ← hsplit] at hmul
    refine ⟨⟨s.bitWidth, q * 2 ^ newSize + y.value, by omega⟩, ⟨rfl, hon⟩, ?_⟩
    refine APInt.ext (by simp [hy]) ?_
    rw [value_converted_of_le hgt.le]
    simp only [Nat.mul_add_mod_self_right, Nat.mod_eq_of_lt hylt]

theorem exact_iff_of_truncation (hw : ∀ b ∈ s.bounds, b.bitWidth = s.bitWidth)
    (hgt : newSize < s.bitWidth) : s.Exact newSize signExtend ↔
      (s.values.map (· % 2 ^ newSize)).Pairwise (· < ·) ∧
        (InBlocks (2 ^ newSize) (2 ^ (s.bitWidth - newSize)) s.values ∨
          ∃ a, s.values = [a] ∧ a % 2 ^ newSize = 0) := by
  have hpos := Nat.two_pow_pos newSize
  obtain ⟨t, ht⟩ : ∃ t, t = (⟨s.bounds.map (APInt.converted signExtend newSize), newSize⟩ :
    ConstantRangeSet) := ⟨_, rfl⟩
  have hsize : s.changeSize newSize signExtend = some t :=
    ht ▸ changeSize_of_widths hw (by omega) signExtend
  have hbit : t.bitWidth = newSize := by rw [ht]
  have hvalues : t.values = s.values.map (· % 2 ^ newSize) := by
    simp only [ht, values, List.map_map]
    refine List.map_congr_left fun b hb => ?_
    have hle : newSize ≤ b.bitWidth := by rw [hw b hb]; omega
    exact value_converted_of_le hle
  have hwf : t.WellFormed ↔ (s.values.map (· % 2 ^ newSize)).Pairwise (· < ·) := by
    rw [← hvalues]
    exact ⟨WellFormed.values_ascending, fun h => ⟨by simp [ht], List.pairwise_map.mp h⟩⟩
  have hblocks : ∀ a ∈ s.values, a / 2 ^ newSize < 2 ^ (s.bitWidth - newSize) := by
    intro a ha
    obtain ⟨b, hb, rfl⟩ := List.mem_map.mp ha
    rw [Nat.div_lt_iff_lt_mul hpos, ← Nat.pow_add, Nat.sub_add_cancel hgt.le, ← hw b hb]
    exact b.isLt
  rw [Exact, hsize, image_extOrTrunc]
  simp only [Option.some.injEq, exists_eq_left', hwf]
  refine and_congr_right fun hr => ?_
  rw [← isFolded_iff hpos hr hblocks]
  constructor
  · intro himage x hx
    have hy : (⟨newSize, x, hx⟩ : APInt) ∈ APInt.converted signExtend newSize '' s.members ↔
        ∃ q < 2 ^ (s.bitWidth - newSize), isOn s.values (q * 2 ^ newSize + x) = true :=
      mem_truncated hgt rfl
    rw [← himage, mem_members, hvalues] at hy
    simpa [hbit] using hy
  · intro hfolded
    ext y
    by_cases hy : y.bitWidth = newSize
    · rw [mem_truncated hgt hy, mem_members, hvalues, ← hfolded _ (hy ▸ y.isLt)]
      simp [hy, hbit]
    · refine iff_of_false (fun h => hy (h.1.trans hbit)) ?_
      rintro ⟨x, -, rfl⟩
      exact hy (by simp)

end ConstantRangeSet

end ADT
