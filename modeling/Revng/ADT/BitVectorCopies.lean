import Revng.ADT.BitVectorOrder

/-!
# Copies and ranges of bit vectors

A copy goes into the storage there is when that is large enough, and leaves the words behind
those of the other vector as they were.  A range is cleared by its leading bits up to a word,
its trailing bits from a word on, and the words between.  `assign_iff` and `zero_iff` say when
the result is the other vector, or the vector without the range.
-/

namespace ADT.LazySmallBitVector

open WordArray SmallStorage

variable {v a b : LazySmallBitVector} {l o u : LargeStorage} {i k : Nat}

/-! ## Copies -/

theorem exists_assign (h : o.wordCount ≤ l.wordCount) :
    ∃ u, l.assign o = some u ∧ u.wordCount = l.wordCount ∧ ∀ i, bit u.storage i =
      if i / 64 < o.wordCount then bit o.storage i else bit l.storage i := by
  have hbits : o.bitCount ≤ l.bitCount := Nat.mul_le_mul_right _ h
  rw [LargeStorage.assign, if_pos hbits]
  refine ⟨_, rfl, ?_, fun i => ?_⟩
  · show (o.storage ++ l.storage.drop o.wordCount).length = l.storage.length
    rw [List.length_append, List.length_drop]
    exact Nat.add_sub_cancel' h
  · rw [bit, word_append]
    split
    next hi =>
      have hi : i / 64 < o.wordCount := hi
      rw [if_pos hi, bit]
    next hi =>
      have hi : ¬i / 64 < o.wordCount := hi
      have hword : o.wordCount + (i / 64 - o.storage.length) = i / 64 :=
        Nat.add_sub_cancel' (Nat.not_lt.mp hi)
      rw [if_neg hi, word_drop, hword, bit]

/-- Into a storage that is large enough. -/
theorem exists_assign_large (ha : (large l).Addressable) (ho : (large o).Addressable)
    (hle : o.capacity ≤ l.capacity) :
    ∃ u, (large l).assign (large o) = some (large u) ∧ (large u).Addressable ∧ ∀ i,
      bit u.storage i = if i < o.capacity then bit o.storage i else bit l.storage i := by
  have hbig : o.capacity > maxSmallSize := Nat.lt_of_lt_of_le (by decide) (two_words_le ho)
  have hcapacity := capacity_large ho
  have hcapacity' := capacity_large ha
  obtain ⟨u, hu, hcount, hbits⟩ := exists_assign (show o.wordCount ≤ l.wordCount by omega)
  refine ⟨u, ?_, ?_, fun i => ?_⟩
  · have henlarged : (large l).enlarged o.capacity = some (large l) := if_neg (Nat.not_lt.mpr hle)
    rw [assign, if_pos hbig, henlarged, Option.bind_eq_bind, Option.bind_some]
    dsimp only
    rw [hu]
    rfl
  · rw [Addressable, LargeStorage.bitCount, hcount]
    exact ha
  · rw [hbits]
    exact if_congr (by omega) rfl rfl

/-- Into a new storage, whose capacity may be cut. -/
theorem exists_assign_new (ha : a.Addressable) (ho : (large o).Addressable)
    (hlt : a.capacity < o.capacity) :
    ∃ u, a.assign (large o) = some (large u) ∧
      (large u).capacity = unsigned (a.pointersCount o.capacity * 64) ∧
      ∀ i, bit u.storage i = bit o.storage i := by
  have hbig : o.capacity > maxSmallSize := Nat.lt_of_lt_of_le (by decide) (two_words_le ho)
  have hcapacity := capacity_large ho
  obtain ⟨-, hge, -, -⟩ := capacity_bounds ha
  have hpointers : a.pointersCount o.capacity = (max o.capacity (2 * a.capacity) + 63) / 64 := rfl
  obtain ⟨l, hl⟩ := exists_alloc hlt (by rw [hpointers]; omega)
  have hcount := wordCount_of_alloc hl
  obtain ⟨u, hu, hcount', hbits⟩ := exists_assign (show o.wordCount ≤ l.wordCount by
    rw [hcount, hpointers]
    omega)
  refine ⟨u, ?_, ?_, fun i => ?_⟩
  · have henlarged : a.enlarged o.capacity = some (large l) := by
      rw [enlarged, if_pos hlt, hl]
      rfl
    rw [assign, if_pos hbig, henlarged, Option.bind_eq_bind, Option.bind_some]
    dsimp only
    rw [hu]
    rfl
  · rw [capacity, LargeStorage.capacity, LargeStorage.bitCount, hcount', hcount, bitsPerPointer]
  · rw [hbits]
    split
    next => rfl
    next hi =>
      rw [bit_of_alloc hl, capacity_of_addressable ha (by omega), bit_of_wordCount_le (by omega)]

/-- The copies that have all bits of the other vector, and no more. -/
def Copies (a b : LazySmallBitVector) : Prop :=
  b.isSmall = true ∨
    b.capacity ≤ a.capacity ∧ (∀ i, b.capacity ≤ i → a.get i = false) ∨
    a.capacity < b.capacity ∧ (a.capacity < 2 ^ 31 ∨
      ∀ i, 2 * a.capacity - 2 ^ 32 ≤ i → b.get i = false)

/-- With the same bits, all that can be missing is that they are seen. -/
theorem copy_iff (v : LazySmallBitVector) (hb : b.Addressable)
    (hbits : ∀ i, bit v.words i = bit b.words i) :
    ((∀ i, v.get i = b.get i) ∧ v.equal b = true) ↔ v.Visible := by
  constructor
  · rintro ⟨hget, -⟩ i
    rw [hget, get_of_addressable hb, hbits]
  · intro hv
    refine ⟨fun i => by rw [hv, hbits, get_of_addressable hb], ?_⟩
    rw [equal_iff hv hb.visible]
    exact (value_eq_iff (by decide)).mpr hbits

theorem copies_new_iff (ha : a.Addressable) (ho : (large o).Addressable)
    (hlt : a.capacity < o.capacity) (hbits : ∀ i, bit u.storage i = bit o.storage i) :
    (∀ i, unsigned (a.pointersCount o.capacity * 64) ≤ i → bit (large u).words i = false) ↔
      a.Copies (large o) := by
  have hget (i : Nat) : bit (large u).words i = (large o).get i :=
    (hbits i).trans (get_of_addressable ho i).symm
  have hpointers : a.pointersCount o.capacity = (max o.capacity (2 * a.capacity) + 63) / 64 := rfl
  obtain ⟨-, -, hcap, hmod⟩ := capacity_bounds ha
  have hcap' : o.capacity < 2 ^ 32 := (capacity_bounds ho).2.2.1
  have hcopies : a.Copies (large o) ↔ a.capacity < 2 ^ 31 ∨
      ∀ i, 2 * a.capacity - 2 ^ 32 ≤ i → (large o).get i = false := by
    have hlt' : a.capacity < (large o).capacity := hlt
    rw [Copies, isSmall, or_iff_right Bool.false_ne_true,
      or_iff_right fun h => Nat.not_le.mpr hlt' h.1, and_iff_right hlt']
  rw [hcopies]
  simp only [hget]
  rcases Nat.lt_or_ge a.capacity (2 ^ 31) with hsmall | hbig
  · refine iff_of_true (fun i hi => ?_) (Or.inl hsmall)
    rw [unsigned, hpointers] at hi
    have hle : o.capacity ≤ i := by
      have hcut := capacity_le (large o)
      have hcut : o.capacity ≤ 2 ^ 32 - 64 := hcut
      omega
    exact (get_of_addressable ho i).trans (capacity_of_addressable ho hle)
  · have hcut : unsigned (a.pointersCount o.capacity * 64) = 2 * a.capacity - 2 ^ 32 := by
      rw [hpointers, Nat.max_eq_right (by omega), unsigned]
      omega
    rw [hcut, or_iff_right (Nat.not_lt.mpr hbig)]

theorem assign_iff (ha : a.Addressable) (hb : b.Addressable) :
    (∃ v, a.assign b = some v ∧ (∀ i, v.get i = b.get i) ∧ v.equal b = true) ↔ a.Copies b := by
  cases b with
  | small o =>
    refine iff_of_true ⟨small o, rfl, fun _ => rfl, ?_⟩ (Or.inl rfl)
    exact (equal_iff hb.visible hb.visible).mpr rfl
  | large o =>
    rcases Nat.lt_or_ge a.capacity o.capacity with hlt | hle
    · obtain ⟨u, hu, hcapacity, hbits⟩ := exists_assign_new ha hb hlt
      have hcopy := copy_iff (large u) hb hbits
      rw [visible_iff, hcapacity] at hcopy
      simp only [hu, Option.some.injEq, exists_eq_left', hcopy]
      exact copies_new_iff ha hb hlt hbits
    · obtain ⟨l, rfl⟩ : ∃ l, a = large l := by
        have htwo : 128 ≤ o.capacity := two_words_le hb
        cases a with
        | small s =>
          have hle : o.capacity ≤ 63 := hle
          omega
        | large l => exact ⟨l, rfl⟩
      obtain ⟨u, hu, haddressable, hbits⟩ := exists_assign_large ha hb hle
      simp only [hu, Option.some.injEq, exists_eq_left']
      have hcopies : (large l).Copies (large o) ↔ ∀ i, o.capacity ≤ i → (large l).get i = false := by
        have hle' : (large o).capacity ≤ (large l).capacity := hle
        rw [Copies, isSmall, or_iff_right Bool.false_ne_true,
          or_iff_left fun h => Nat.not_lt.mpr hle' h.1, and_iff_right hle']
        rfl
      rw [hcopies]
      constructor
      · rintro ⟨hget, -⟩ i hi
        have hkept := hbits i
        rw [if_neg (Nat.not_lt.mpr hi)] at hkept
        calc (large l).get i = bit l.storage i := get_of_addressable ha i
          _ = bit u.storage i := hkept.symm
          _ = (large u).get i := (get_of_addressable haddressable i).symm
          _ = (large o).get i := hget i
          _ = false := (get_of_addressable hb i).trans (capacity_of_addressable hb hi)
      · intro hzero
        refine (copy_iff (large u) hb fun i => ?_).mpr haddressable.visible
        rw [words, words, hbits]
        split
        next => rfl
        next hi =>
          have hi : o.capacity ≤ i := Nat.not_lt.mp hi
          have hstale := hzero i hi
          rw [get_of_addressable ha, words] at hstale
          rw [hstale]
          exact (capacity_of_addressable hb hi).symm

/-! ## Ranges -/

theorem getLsbD_ones (hk : k < 64) (j : Nat) :
    ((one <<< k) - 1).getLsbD j = decide (j < k) := by
  have hpow : 2 ^ k < 2 ^ 64 := Nat.pow_lt_pow_right (by decide) hk
  have hones : ((one <<< k) - 1).toNat = 2 ^ k - 1 := by
    have hshift : (one <<< k).toNat = 2 ^ k := by
      rw [BitVec.toNat_shiftLeft, Nat.shiftLeft_eq]
      exact (congrArg (· % 2 ^ 64) (Nat.one_mul _)).trans (Nat.mod_eq_of_lt hpow)
    have hle : (1 : Word) ≤ one <<< k := by
      rw [BitVec.le_def, hshift]
      exact Nat.two_pow_pos k
    rw [BitVec.toNat_sub_of_le hle, hshift]
    rfl
  rw [BitVec.getLsbD, hones, Nat.testBit_two_pow_sub_one]

/-- The vector without the bits of a range. -/
def IsCleared (v : LazySmallBitVector) (start count : Nat) (v' : LazySmallBitVector) : Prop :=
  ∀ i, v'.get i = (v.get i && !decide (start ≤ i ∧ i < start + count))

variable {start count : BitVec 64}

theorem zero_small_spec (s : SmallStorage) (h : start.toNat + count.toNat ≤ 63)
    (hstart : start.toNat < 63) :
    ∃ v', (small s).zero start count = some v' ∧
      (small s).IsCleared start.toNat count.toNat v' := by
  have hsum : (start + count).toNat = start.toNat + count.toNat :=
    BitVec.toNat_add_of_lt (by omega)
  have hcond : ¬(start.toNat ≥ (small s).capacity ∨ (start + count).toNat > (small s).capacity) := by
    rw [hsum, capacity, bitsPerPointer]
    omega
  have hshift {x : Word} {n : Nat} (hn : n ≤ 63) : shiftL x n = some (x <<< n) :=
    if_pos (Nat.lt_succ_of_le hn)
  rw [zero, if_neg hcond, hshift (by omega), Option.bind_eq_bind, Option.bind_some, hshift (by omega)]
  refine ⟨_, rfl, fun i => ?_⟩
  rw [get_of_addressable (v := small _) trivial, get_of_addressable (v := small _) trivial,
    bit_setSmall, bit_words_small]
  rcases Nat.lt_or_ge i 63 with hi | hi
  · have hi' : i < 64 := Nat.lt_succ_of_lt hi
    rw [decide_eq_true hi, Bool.true_and, Bool.true_and, BitVec.getLsbD_and, BitVec.getLsbD_not,
      BitVec.getLsbD_shiftLeft, getLsbD_ones (by omega), decide_eq_true hi', Bool.true_and,
      Bool.true_and, getSmall, BitVec.getLsbD_ushiftRight, Nat.add_comm 1 i]
    congr 2
    rw [← decide_not, ← Bool.decide_and]
    exact decide_eq_decide.mpr (by omega)
  · simp [Nat.not_lt.mpr hi]

theorem exists_blank (hk : k < l.wordCount) (mask : Word) :
    ∃ u, l.update k (· &&& ~~~mask) = some u ∧ u.wordCount = l.wordCount ∧ ∀ i, bit u.storage i =
      (bit l.storage i && !(decide (i / 64 = k) && mask.getLsbD (i % 64))) := by
  obtain ⟨u, hu, hcount, hbits⟩ := exists_update hk (· &&& ~~~mask)
  refine ⟨u, hu, Nat.eq_of_mul_eq_mul_right (by decide) hcount, fun i => ?_⟩
  rw [hbits]
  split
  next hi =>
    rw [BitVec.getLsbD_and, BitVec.getLsbD_not, decide_eq_true (Nat.mod_lt i (by decide)),
      decide_eq_true hi, Bool.true_and, Bool.true_and, bit, hi]
  next hi => rw [decide_eq_false hi, Bool.false_and, Bool.not_false, Bool.and_true]

/-- The bits from an index up to the next word. -/
def headBits (start : Nat) : Nat := (64 - start % 64) % 64

theorem blankLeading_spec (count : BitVec 64) (hstart : start.toNat < 64 * l.wordCount)
    (hcount : 64 * l.wordCount < 2 ^ 32) :
    ∃ u start', blankLeading l start count =
        some (u, start', count - .ofNat 64 (headBits start.toNat)) ∧
      u.wordCount = l.wordCount ∧ start'.toNat = start.toNat + headBits start.toNat ∧
      ∀ i, bit u.storage i = (bit l.storage i &&
        !decide (start.toNat ≤ i ∧ i < start.toNat + headBits start.toNat)) := by
  by_cases hzero : start.toNat % bitsPerPointer = 0
  · have hhead : headBits start.toNat = 0 := by
      rw [headBits, show start.toNat % 64 = 0 from hzero]
    refine ⟨l, start, ?_, rfl, by rw [hhead, Nat.add_zero], fun i => ?_⟩
    · rw [blankLeading, if_neg (not_not.mpr hzero), hhead, BitVec.sub_zero]
    · rw [hhead, decide_eq_false (by omega), Bool.not_false, Bool.and_true]
  · have hne : start.toNat % 64 ≠ 0 := hzero
    have hhead : headBits start.toNat = 64 - start.toNat % 64 := Nat.mod_eq_of_lt (by omega)
    obtain ⟨u, hu, hwords, hbits⟩ := exists_blank (l := l)
      (show start.toNat / 64 < l.wordCount by omega)
      (((one <<< (64 - start.toNat % 64)) - 1) <<< (start.toNat % 64))
    refine ⟨u, start + .ofNat 64 (64 - start.toNat % 64), ?_, hwords, ?_, fun i => ?_⟩
    · have hu : l.update (start.toNat / bitsPerPointer) (· &&& ~~~(((one <<< (bitsPerPointer -
        start.toNat % bitsPerPointer)) - 1) <<< (start.toNat % bitsPerPointer))) = some u := hu
      rw [blankLeading, if_pos hzero, hhead]
      dsimp only
      rw [hu]
      rfl
    · rw [BitVec.toNat_add_of_lt, BitVec.toNat_ofNat, Nat.mod_eq_of_lt (by omega), hhead]
      rw [BitVec.toNat_ofNat]
      omega
    · have hj : i % 64 < 64 := Nat.mod_lt i (by decide)
      rw [hbits, BitVec.getLsbD_shiftLeft, getLsbD_ones (by omega), hhead]
      congr 2
      rw [← decide_not, ← Bool.decide_and, ← Bool.decide_and, ← Bool.decide_and]
      exact decide_eq_decide.mpr (by omega)

theorem blankTrailing_spec (hstop : (start + count).toNat ≤ 64 * l.wordCount)
    (htail : (start + count).toNat % 64 = count.toNat % 64) :
    ∃ u, blankTrailing l start count = some (u, count - .ofNat 64 (count.toNat % 64)) ∧
      u.wordCount = l.wordCount ∧ ∀ i, bit u.storage i = (bit l.storage i &&
        !decide ((start + count).toNat - count.toNat % 64 ≤ i ∧ i < (start + count).toNat)) := by
  by_cases hzero : count.toNat % bitsPerPointer = 0
  · have hzero' : count.toNat % 64 = 0 := hzero
    refine ⟨l, ?_, rfl, fun i => ?_⟩
    · rw [blankTrailing, if_neg (not_not.mpr hzero), hzero', BitVec.sub_zero]
    · rw [decide_eq_false (by omega), Bool.not_false, Bool.and_true]
  · have hne : count.toNat % 64 ≠ 0 := hzero
    obtain ⟨u, hu, hwords, hbits⟩ := exists_blank (l := l)
      (show (start + count).toNat / 64 < l.wordCount by omega) ((one <<< (count.toNat % 64)) - 1)
    refine ⟨u, ?_, hwords, fun i => ?_⟩
    · have hu : l.update ((start + count).toNat / bitsPerPointer)
        (· &&& ~~~((one <<< (count.toNat % bitsPerPointer)) - 1)) = some u := hu
      rw [blankTrailing, if_pos hzero, hu]
      rfl
    · rw [hbits, getLsbD_ones (Nat.mod_lt _ (by decide)), ← Bool.decide_and]
      congr 2
      exact decide_eq_decide.mpr (by omega)

theorem and_not_or (x : Bool) (p q : Prop) [Decidable p] [Decidable q] :
    (x && !decide p && !decide q) = (x && !decide (p ∨ q)) := by
  rw [Bool.and_assoc, Bool.decide_or, Bool.not_or]

theorem toNat_sub_ofNat {x : BitVec 64} {n : Nat} (hn : n < 64) (hle : n ≤ x.toNat) :
    (x - .ofNat 64 n).toNat = x.toNat - n := by
  have hn : (BitVec.ofNat 64 n).toNat = n := Nat.mod_eq_of_lt (by omega)
  rw [BitVec.toNat_sub_of_le (by rw [BitVec.le_def, hn]; exact hle), hn]

theorem zeroLarge_spec (hstart : start.toNat < 64 * l.wordCount)
    (hstop : start.toNat + count.toNat ≤ 64 * l.wordCount) (hcount : 64 * l.wordCount < 2 ^ 32)
    (hhead : headBits start.toNat ≤ count.toNat) :
    ∃ u, zeroLarge l start count = some u ∧ u.wordCount = l.wordCount ∧ ∀ i, bit u.storage i =
      (bit l.storage i && !decide (start.toNat ≤ i ∧ i < start.toNat + count.toNat)) := by
  obtain ⟨u, first, hu, hwords, hfirst, hbits⟩ := blankLeading_spec count hstart hcount
  have haligned : (start.toNat + headBits start.toNat) % 64 = 0 := by rw [headBits]; omega
  have hsmall : headBits start.toNat < 64 := Nat.mod_lt _ (by decide)
  have hrest := toNat_sub_ofNat hsmall hhead
  generalize count - .ofNat 64 (headBits start.toNat) = rest at hu hrest
  have hlast : (first + rest).toNat = start.toNat + count.toNat := by
    rw [BitVec.toNat_add_of_lt (by omega)]
    omega
  obtain ⟨t, ht, hwords', hbits'⟩ := blankTrailing_spec (l := u)
    (show (first + rest).toNat ≤ 64 * u.wordCount by omega) (by omega)
  have htail : rest.toNat % 64 < 64 := Nat.mod_lt _ (by decide)
  have hmiddle := toNat_sub_ofNat htail (Nat.mod_le rest.toNat 64)
  generalize rest - .ofNat 64 (rest.toNat % 64) = middle at ht hmiddle
  rw [zeroLarge, hu, Option.bind_eq_bind, Option.bind_some]
  dsimp only
  rw [ht, Option.bind_eq_bind, Option.bind_some]
  dsimp only
  rw [hlast] at hbits'
  split
  next hne =>
    have hne : middle.toNat ≠ 0 := fun hzero => hne (BitVec.eq_of_toNat_eq hzero)
    obtain ⟨z, hz, hcount', hbits''⟩ := exists_zero (l := t)
      (show first.toNat / 64 + middle.toNat / 64 ≤ t.wordCount by omega) (by omega)
    refine ⟨z, hz, ?_, fun i => ?_⟩
    · rw [Nat.eq_of_mul_eq_mul_right (by decide) hcount', hwords', hwords]
    · rw [hbits'']
      split
      next hin => rw [decide_eq_true (by omega), Bool.not_true, Bool.and_false]
      next hout =>
        rw [hbits', hbits, and_not_or]
        congr 2
        exact decide_eq_decide.mpr (by omega)
  next heq =>
    have hzero : middle.toNat = 0 := congrArg BitVec.toNat (not_not.mp heq)
    refine ⟨t, rfl, hwords'.trans hwords, fun i => ?_⟩
    rw [hbits', hbits, and_not_or]
    congr 2
    exact decide_eq_decide.mpr (by omega)

theorem of_blankTrailing {rest : BitVec 64} (h : blankTrailing l start count = some (u, rest)) :
    u.wordCount = l.wordCount ∧ rest = count - .ofNat 64 (count.toNat % 64) := by
  rw [blankTrailing] at h
  split at h
  next =>
    obtain ⟨t, ht, heq⟩ := Option.bind_eq_some_iff.mp h
    cases heq
    refine ⟨?_, rfl⟩
    rw [LargeStorage.update] at ht
    split at ht
    next => cases ht; exact List.length_modify _ _ _
    next => cases ht
  next hzero =>
    cases h
    have hzero : count.toNat % 64 = 0 := not_not.mp hzero
    exact ⟨rfl, by rw [hzero, BitVec.sub_zero]⟩

/-- The count has become negative, so too many words are to be cleared. -/
theorem zeroLarge_eq_none (hstart : start.toNat < 64 * l.wordCount)
    (hcount : 64 * l.wordCount < 2 ^ 32)
    (hneg : 2 ^ 63 ≤ (count - .ofNat 64 (headBits start.toNat)).toNat) :
    zeroLarge l start count = none := by
  obtain ⟨u, first, hu, hwords, -, -⟩ := blankLeading_spec count hstart hcount
  generalize count - .ofNat 64 (headBits start.toNat) = rest at hu hneg
  rw [zeroLarge, hu, Option.bind_eq_bind, Option.bind_some]
  dsimp only
  cases ht : blankTrailing u first rest with
  | none => rfl
  | some result =>
    obtain ⟨t, middle⟩ := result
    obtain ⟨hwords', hmiddle⟩ := of_blankTrailing ht
    have hmiddle := congrArg BitVec.toNat hmiddle
    rw [toNat_sub_ofNat (Nat.mod_lt _ (by decide)) (Nat.mod_le _ _)] at hmiddle
    have hne : middle ≠ 0 := fun hzero => by
      rw [hzero] at hmiddle
      have hmiddle : 0 = rest.toNat - rest.toNat % 64 := hmiddle
      omega
    rw [Option.bind_eq_bind, Option.bind_some]
    dsimp only
    rw [if_pos hne, LargeStorage.zero, if_neg]
    rw [bitsPerPointer]
    omega

/-- The ranges that are cleared, and no other bits. -/
def Clears (v : LazySmallBitVector) (start count : Nat) : Prop :=
  v.capacity ≤ start ∨
    start + count ≤ v.capacity ∧
      (v.isSmall = true ∨ start % bitsPerPointer = 0 ∨
        bitsPerPointer ≤ start % bitsPerPointer + count) ∨
    v.capacity < start + count ∧ start + count < 2 ^ 64 ∧ ∀ i, start ≤ i → v.get i = false

/-- Where nothing is done. -/
theorem clears_of_outside_iff (h : v.Addressable)
    (hout : start.toNat ≥ v.capacity ∨ (start + count).toNat > v.capacity) :
    v.IsCleared start.toNat count.toNat v ↔ v.Clears start.toNat count.toNat := by
  have hcap := (capacity_bounds h).2.2.1
  have hlt := count.isLt
  have hsum : (start + count).toNat = (start.toNat + count.toNat) % 2 ^ 64 := BitVec.toNat_add _ _
  have hbehind (i : Nat) (hi : v.capacity ≤ i) : v.get i = false :=
    (get_of_addressable h i).trans (capacity_of_addressable h hi)
  constructor
  · intro hcleared
    rcases Nat.lt_or_ge start.toNat v.capacity with hin | hge
    · refine Or.inr (Or.inr ⟨by omega, by omega, fun i hi => ?_⟩)
      rcases Nat.lt_or_ge i v.capacity with hi' | hi'
      · rw [hcleared, decide_eq_true (by omega), Bool.not_true, Bool.and_false]
      · exact hbehind i hi'
    · exact Or.inl hge
  · intro hclears i
    by_cases hi : start.toNat ≤ i ∧ i < start.toNat + count.toNat
    · have hzero : v.get i = false := by
        rcases hclears with hge | ⟨hle, -⟩ | ⟨-, -, hzero⟩
        · exact hbehind i (by omega)
        · exact hbehind i (by omega)
        · exact hzero i hi.1
      rw [hzero, Bool.false_and]
    · rw [decide_eq_false hi, Bool.not_false, Bool.and_true]

theorem zero_small_iff (s : SmallStorage)
    (hin : ¬(start.toNat ≥ (small s).capacity ∨ (start + count).toNat > (small s).capacity)) :
    (∃ v', (small s).zero start count = some v' ∧
      (small s).IsCleared start.toNat count.toNat v') ↔
      (small s).Clears start.toNat count.toNat := by
  have hsum : (start + count).toNat = (start.toNat + count.toNat) % 2 ^ 64 := BitVec.toNat_add _ _
  have hbounds : ¬(start.toNat ≥ 63 ∨ (start + count).toNat > 63) := hin
  by_cases hle : start.toNat + count.toNat ≤ 63
  · exact iff_of_true (zero_small_spec s hle (by omega)) (Or.inr (Or.inl ⟨hle, Or.inl rfl⟩))
  · have hcount : ¬count.toNat < bitsPerPointer := by
      rw [bitsPerPointer]
      omega
    refine iff_of_false ?_ ?_
    · rintro ⟨v', hv', -⟩
      rw [zero.eq_def, if_neg hin, shiftL, if_neg hcount] at hv'
      cases hv'
    · rw [Clears, capacity, bitsPerPointer]
      omega

theorem zero_large_iff (h : (large l).Addressable)
    (hin : ¬(start.toNat ≥ (large l).capacity ∨ (start + count).toNat > (large l).capacity)) :
    (∃ v', (large l).zero start count = some v' ∧
      (large l).IsCleared start.toNat count.toNat v') ↔
      (large l).Clears start.toNat count.toNat := by
  have hcapacity : (large l).capacity = 64 * l.wordCount := capacity_large h
  have hcap := (capacity_bounds h).2.2.1
  have hsum : (start + count).toNat = (start.toNat + count.toNat) % 2 ^ 64 := BitVec.toNat_add _ _
  have hlt := count.isLt
  have hzero : (large l).zero start count = large <$> zeroLarge l start count := by
    rw [zero.eq_def, if_neg hin]
  rw [hzero]
  by_cases hgood : start.toNat + count.toNat ≤ 64 * l.wordCount ∧
      headBits start.toNat ≤ count.toNat
  · obtain ⟨u, hu, hwords, hbits⟩ :=
      zeroLarge_spec (l := l) (by omega) hgood.1 (by omega) hgood.2
    have haddressable : (large u).Addressable := by
      rw [Addressable, LargeStorage.bitCount, hwords]
      exact h
    refine iff_of_true ⟨large u, by rw [hu]; rfl, fun i => ?_⟩ ?_
    · rw [get_of_addressable haddressable, get_of_addressable h]
      exact hbits i
    · rw [headBits] at hgood
      rw [Clears, hcapacity, bitsPerPointer]
      omega
  · have hnone : zeroLarge l start count = none := by
      refine zeroLarge_eq_none (by omega) (by omega) ?_
      have hhead : headBits start.toNat < 64 := Nat.mod_lt _ (by decide)
      rw [BitVec.toNat_sub, BitVec.toNat_ofNat]
      omega
    refine iff_of_false ?_ ?_
    · rintro ⟨v', hv', -⟩
      rw [hnone] at hv'
      cases hv'
    · rw [headBits] at hgood
      rw [Clears, hcapacity, bitsPerPointer]
      rintro (hge | ⟨hle, hsmall | hhead⟩ | ⟨hgt, hfits, -⟩)
      · omega
      · cases hsmall
      · omega
      · omega

theorem zero_iff (h : v.Addressable) (start count : BitVec 64) :
    (∃ v', v.zero start count = some v' ∧ v.IsCleared start.toNat count.toNat v') ↔
      v.Clears start.toNat count.toNat := by
  by_cases hout : start.toNat ≥ v.capacity ∨ (start + count).toNat > v.capacity
  · have hzero : v.zero start count = some v := by rw [zero.eq_def, if_pos hout]
    simp only [hzero, Option.some.injEq, exists_eq_left']
    exact clears_of_outside_iff h hout
  · cases v with
    | small s => exact zero_small_iff s hout
    | large l => exact zero_large_iff h hout

/-- A copy and a cleared range of vectors whose capacity is not cut. -/
theorem copy_and_clear_iff (ha : a.Addressable) (hb : b.Addressable) (start count : BitVec 64) :
    ((∃ v, a.assign b = some v ∧ (∀ i, v.get i = b.get i) ∧ v.equal b = true) ↔ a.Copies b) ∧
    ((∃ v, a.zero start count = some v ∧ ∀ i, v.get i =
        (a.get i && !decide (start.toNat ≤ i ∧ i < start.toNat + count.toNat))) ↔
      a.Clears start.toNat count.toNat) :=
  ⟨assign_iff ha hb, zero_iff ha start count⟩

/-- A vector of the heap with the word 5 first. -/
def heap (wordCount : Nat) (h : 1 ≤ wordCount) : LazySmallBitVector :=
  large ⟨5 :: List.replicate wordCount 0, by simpa using h⟩

theorem copy_and_clear_iff_heap :
    ((∃ v, (heap 1 le_rfl).assign (heap 3 (by decide)) = some v ∧
        (∀ i, v.get i = (heap 3 (by decide)).get i) ∧ v.equal (heap 3 (by decide)) = true) ↔
      (heap 1 le_rfl).Copies (heap 3 (by decide))) ∧
    ((∃ v, (heap 1 le_rfl).zero 64 64 = some v ∧ ∀ i, v.get i =
        ((heap 1 le_rfl).get i && !decide (64 ≤ i ∧ i < 64 + 64))) ↔
      (heap 1 le_rfl).Clears 64 64) :=
  copy_and_clear_iff (a := heap 1 le_rfl) (b := heap 3 (by decide)) (by decide) (by decide) 64 64

/-- Bit 200 of the copy is stale, and a range within a word is not cleared. -/
theorem not_copy_and_clear :
    (∃ a b v, empty.set 200 = some a ∧ empty.set 70 = some b ∧ a.assign b = some v ∧
      v.get 200 = true ∧ b.get 200 = false ∧ v.equal b = false) ∧
    ∃ a, empty.set 100 = some a ∧ a.zero 3 1 = none :=
  ⟨⟨_, _, _, rfl, rfl, rfl, by decide +kernel, by decide +kernel, by decide +kernel⟩,
    _, rfl, by decide +kernel⟩

end ADT.LazySmallBitVector
