import Revng.ADT.BitVectorRuns

/-!
# Shifts of bit vectors

The words are shifted in place, each with the bits it takes from its neighbour.  For an amount of
whole words the carry would be a shift by the width of a word, so only the last word can be
moved.  `shiftLeft_iff` and `shiftRight_iff` say for which amounts the result is the shifted
sequence of bits.
-/

namespace ADT.LazySmallBitVector

open WordArray SmallStorage

variable {v v' : LazySmallBitVector} {l l' : LargeStorage} {n i k bits toSkip sourceIndex : Nat}

/-! ## Required bits -/

theorem requiredBitsLoop_eq (rounds : Nat) (x : Word) (h : x.toNat < 2 ^ rounds) :
    requiredBitsLoop rounds x = x.toNat.size := by
  induction rounds generalizing x with
  | zero =>
    have hzero : x.toNat = 0 := Nat.lt_one_iff.mp h
    rw [hzero]
    rfl
  | succ rounds ih =>
    rw [requiredBitsLoop]
    split
    next hx =>
      have hhalf : (x >>> 1).toNat = x.toNat / 2 := by
        rw [BitVec.toNat_ushiftRight, Nat.shiftRight_one]
      have hpos : x.toNat ≠ 0 := fun hzero => hx (BitVec.eq_of_toNat_eq hzero)
      rw [ih _ (by rw [hhalf]; omega), hhalf]
      rcases Nat.lt_or_ge 1 x.toNat with h2 | h1
      · rw [size_eq_add_size (n := x.toNat) (k := 1) (by omega), Nat.pow_one, Nat.add_comm]
      · rw [show x.toNat = 1 by omega]
        decide
    next hx =>
      rw [not_not.mp hx]
      rfl

theorem requiredBits_word (x : Word) : x.requiredBits = x.toNat.size :=
  requiredBitsLoop_eq 64 x x.isLt

theorem requiredBitsBelow_eq (k : Nat) (h : ∀ i, k ≤ i → word l.storage i = 0) :
    l.requiredBitsBelow k = unsigned (value l.storage).size := by
  induction k with
  | zero =>
    rw [value_eq_zero fun i => h i (Nat.zero_le i)]
    rfl
  | succ k ih =>
    rw [LargeStorage.requiredBitsBelow]
    split
    next hk => rw [size_value hk (value_drop_eq_zero h), requiredBits_word]; rfl
    next hk =>
      refine ih fun i hi => ?_
      rcases Nat.eq_or_lt_of_le hi with rfl | hi
      · exact not_not.mp hk
      · exact h i hi

theorem size_small_le (s : SmallStorage) : (value (small s).words).size ≤ 63 :=
  (size_le_iff (by decide)).mpr fun _ hi => capacity_of_addressable trivial hi

/-- Cut to an `unsigned`, as the capacity is. -/
theorem requiredBits_eq (v : LazySmallBitVector) :
    v.requiredBits = unsigned (value v.words).size := by
  cases v with
  | small s =>
    have hle := size_small_le s
    rw [requiredBits, requiredBits_word, unsigned, Nat.mod_eq_of_lt (by omega), words, value,
      value, Nat.mul_zero, Nat.zero_add]
  | large l => exact requiredBitsBelow_eq _ fun i hi => word_of_le hi

theorem requiredBits_of_addressable (h : v.Addressable) :
    v.requiredBits = (value v.words).size := by
  have hle : (value v.words).size ≤ v.capacity :=
    (size_le_iff (by decide)).mpr fun i hi => capacity_of_addressable h hi
  rw [requiredBits_eq, unsigned, Nat.mod_eq_of_lt (Nat.lt_of_le_of_lt hle (capacity_bounds h).2.2.1)]

theorem requiredBits_le_iff (h : v.Addressable) :
    v.requiredBits ≤ k ↔ ∀ i, k ≤ i → bit v.words i = false := by
  rw [requiredBits_of_addressable h]
  exact size_le_iff (by decide)

theorem requiredBits_le_capacity (h : v.Addressable) : v.requiredBits ≤ v.capacity :=
  (requiredBits_le_iff h).mpr fun _ hi => capacity_of_addressable h hi

theorem bit_requiredBits_sub_one (h : v.Addressable) (hpos : 0 < v.requiredBits) :
    bit v.words (v.requiredBits - 1) = true := by
  rw [requiredBits_of_addressable h] at hpos ⊢
  exact bit_size_sub_one (by decide) hpos

/-! ## Shifts to the right -/

@[simp]
theorem wordCount_set (l : LargeStorage) (i : Nat) (x : Word) :
    (l.set i x).wordCount = l.wordCount :=
  List.length_set

theorem word_storage_set (h : i < l.wordCount) (x : Word) (k : Nat) :
    word (l.set i x).storage k = if k = i then x else word l.storage k := by
  rw [LargeStorage.set, word_set]
  exact if_congr (and_iff_left h) rfl rfl

variable {left : Nat}

theorem wordCount_shiftRightLoop (h : shiftRightLoop sourceIndex bits left i l = some l') :
    l'.wordCount = l.wordCount := by
  induction left generalizing i l with
  | zero =>
    cases h
    rfl
  | succ left ih =>
    obtain ⟨carried, -, hrest⟩ := Option.bind_eq_some_iff.mp h
    rw [ih hrest, wordCount_set]

/-- Each word is read before it is written. -/
theorem shiftRightLoop_spec (sourceIndex : Nat) (hbits : 0 < bits)
    (hleft : i + left ≤ l.wordCount) :
    ∃ l', shiftRightLoop sourceIndex bits left i l = some l' ∧ ∀ k, word l'.storage k =
      if i ≤ k ∧ k < i + left then
        word l.storage (sourceIndex + k) >>> bits |||
          word l.storage (sourceIndex + (k + 1)) <<< (64 - bits)
      else word l.storage k := by
  induction left generalizing i l with
  | zero => exact ⟨l, rfl, fun k => by rw [if_neg (by omega)]⟩
  | succ left ih =>
    have hcarried (x : Word) : shiftL x (bitsPerPointer - bits) = some (x <<< (64 - bits)) :=
      if_pos (Nat.sub_lt (by decide) hbits)
    rw [shiftRightLoop, hcarried, Option.bind_eq_bind, Option.bind_some]
    have hi : i < l.wordCount := by omega
    obtain ⟨l', hl', hwords⟩ := ih (i := i + 1)
      (l := l.set i (word l.storage (sourceIndex + i) >>> bits |||
        word l.storage (sourceIndex + (i + 1)) <<< (64 - bits)))
      (by rw [wordCount_set]; omega)
    refine ⟨l', hl', fun k => ?_⟩
    rw [hwords]
    by_cases hk : k = i
    · rw [if_neg (by omega), word_storage_set hi, if_pos hk, if_pos (by omega), hk]
    · by_cases hin : i + 1 ≤ k ∧ k < i + 1 + left
      · rw [if_pos hin, word_storage_set hi, if_neg (by omega), word_storage_set hi,
          if_neg (by omega), if_pos (by omega)]
      · rw [if_neg hin, word_storage_set hi, if_neg hk, if_neg (by omega)]

/-- The amounts by which a vector can be shifted to the right. -/
def ShiftsRight : LazySmallBitVector → Nat → Prop
  | small _, n => n ≤ maxSmallSize
  | large l, n => n = l.capacity ∨ 1 ≤ n ∧ n < bitsPerPointer

theorem get_shiftRight_small (s : SmallStorage) (n i : Nat) :
    (small (ofWord (s.storage >>> n))).get i = (small s).get (i + n) := by
  rw [get_of_addressable (v := small _) trivial, get_of_addressable (v := small _) trivial,
    bit_words_small, bit_words_small]
  rcases Nat.lt_or_ge (i + n) 63 with hi | hi
  · simp [ofWord, hi, show i < 63 by omega, Nat.add_comm n, Nat.add_right_comm]
  · rw [decide_eq_false (Nat.not_lt.mpr hi), Bool.false_and]
    simp [ofWord, BitVec.getLsbD_of_ge s.storage (n + (i + 1)) (by omega)]

variable {amount : BitVec 32}

theorem shiftRight_large_spec (h : (large l).Addressable) (hpos : 1 ≤ amount.toNat)
    (hlt : amount.toNat < 64) :
    ∃ v', (large l).shiftRight amount = some v' ∧
      ∀ i, v'.get i = (large l).get (i + amount.toNat) := by
  have hcapacity := capacity_large h
  have htwo : 2 ≤ l.wordCount := l.two_le
  have hindex : amount.toNat / bitsPerPointer = 0 := Nat.div_eq_of_lt hlt
  have hbits : amount.toNat % bitsPerPointer = amount.toNat := Nat.mod_eq_of_lt hlt
  obtain ⟨u, hu, hwords⟩ := shiftRightLoop_spec 0 hpos
    (by omega : 0 + (l.wordCount - 1) ≤ l.wordCount)
  have hcount := wordCount_shiftRightLoop hu
  simp only [Nat.zero_add] at hwords
  let u' := u.set (l.wordCount - 1) (u.wordAt (l.wordCount - 1) >>> amount.toNat)
  have hu' : (large l).shiftRight amount = some (large u') := by
    have hle : amount.toNat ≤ (large l).capacity := by rw [capacity]; omega
    rw [shiftRight, if_pos hle]
    dsimp only
    rw [if_neg (by omega), hindex, hbits, Nat.sub_zero, hu, Option.bind_eq_bind, Option.bind_some,
      Nat.zero_add]
    rfl
  have haddressable : (large u').Addressable := by
    have hcount' : u'.wordCount = l.wordCount := (wordCount_set _ _ _).trans hcount
    rw [Addressable, LargeStorage.bitCount, hcount']
    exact h
  refine ⟨large u', hu', fun i => ?_⟩
  rw [get_of_addressable haddressable, get_of_addressable h]
  have hj : i % 64 < 64 := Nat.mod_lt _ (by decide)
  have hi : 64 * (i / 64) + i % 64 = i := Nat.div_add_mod i 64
  have hnext {k : Nat} (hk : l.wordCount ≤ k) : word l.storage k = 0 := word_of_le hk
  rw [words, words, bit, word_storage_set (by omega), LargeStorage.wordAt, hwords, hwords]
  rcases Nat.lt_trichotomy (i / 64) (l.wordCount - 1) with hk | hk | hk
  · rw [if_neg (by omega), if_pos ⟨Nat.zero_le _, hk⟩, getLsbD_shiftRight hj hlt, hi]
  · rw [if_pos hk, if_neg (by omega), ← hk,
      getLsbD_shiftRight_last hj (hnext (by omega)) hlt, hi]
  · rw [if_neg (by omega), if_neg (by omega), hnext (by omega)]
    exact BitVec.getLsbD_zero.trans (bit_of_wordCount_le (by omega)).symm

theorem shiftRight_capacity_spec (h : (large l).Addressable) (hcap : amount.toNat = l.capacity) :
    ∃ v', (large l).shiftRight amount = some v' ∧
      ∀ i, v'.get i = (large l).get (i + amount.toNat) := by
  have htwo : 2 ≤ l.wordCount := l.two_le
  obtain ⟨u, hu, hcount, hbits⟩ :=
    exists_zero (by omega : 0 + l.wordCount ≤ l.wordCount) (by omega)
  have hle : amount.toNat ≤ (large l).capacity := Nat.le_of_eq hcap
  refine ⟨large u, ?_, fun i => ?_⟩
  · rw [shiftRight, if_pos hle]
    dsimp only
    rw [if_pos hcap, LargeStorage.zeroFrom, hu]
    rfl
  · have hcapacity := capacity_large h
    rw [get_of_addressable h, get_of_addressable (v := large u) (hcount.trans_lt h), words, words, hbits,
      bit_of_wordCount_le (i := i + amount.toNat) (by omega)]
    split
    next => rfl
    next hi => exact bit_of_wordCount_le (by omega)

/-- Only the carries of a shift by whole words are missing, or the assertion of `zero` fails. -/
theorem shiftRight_large_eq_none (h : (large l).Addressable) (hne : amount.toNat ≠ l.capacity)
    (hout : ¬(1 ≤ amount.toNat ∧ amount.toNat < 64)) : (large l).shiftRight amount = none := by
  have hcapacity := capacity_large h
  have htwo : 2 ≤ l.wordCount := l.two_le
  rw [shiftRight.eq_def]
  split
  next hle =>
    have hle : amount.toNat ≤ l.capacity := hle
    dsimp only
    rw [if_neg hne]
    cases hu : shiftRightLoop (amount.toNat / bitsPerPointer) (amount.toNat % bitsPerPointer)
        (l.wordCount - amount.toNat / bitsPerPointer - 1) 0 l with
    | none => rfl
    | some u =>
      have hcount := wordCount_shiftRightLoop hu
      have hpos : amount.toNat / bitsPerPointer > 0 := by
        rcases Nat.eq_zero_or_pos amount.toNat with hzero | hpos
        · rw [hzero, Nat.zero_div, Nat.zero_mod] at hu
          obtain ⟨left, hleft⟩ : ∃ left, l.wordCount - 0 - 1 = left + 1 :=
            ⟨l.wordCount - 2, by omega⟩
          rw [hleft] at hu
          cases hu
        · exact Nat.div_pos (Nat.not_lt.mp fun hlt => hout ⟨hpos, hlt⟩) (by decide)
      rw [Option.bind_eq_bind, Option.bind_some, if_pos hpos, LargeStorage.zeroFrom,
        LargeStorage.zero, if_neg]
      · rfl
      · rw [wordCount_set, hcount]
        rw [bitsPerPointer] at hpos ⊢
        omega
  next => rfl

theorem shiftRight_iff (h : v.Addressable) (amount : BitVec 32) :
    (∃ v', v.shiftRight amount = some v' ∧ ∀ i, v'.get i = v.get (i + amount.toNat)) ↔
      v.ShiftsRight amount.toNat := by
  cases v with
  | small s =>
    rw [ShiftsRight, shiftRight.eq_def]
    constructor
    · rintro ⟨v', hv', -⟩
      split at hv'
      next hle => exact hle
      next => cases hv'
    · intro hle
      have hle : amount.toNat ≤ (small s).capacity := hle
      rw [if_pos hle]
      exact ⟨_, rfl, get_shiftRight_small s _⟩
  | large l =>
    by_cases hcap : amount.toNat = l.capacity
    · exact iff_of_true (shiftRight_capacity_spec h hcap) (Or.inl hcap)
    · by_cases hin : 1 ≤ amount.toNat ∧ amount.toNat < 64
      · exact iff_of_true (shiftRight_large_spec h hin.1 hin.2) (Or.inr hin)
      · refine iff_of_false ?_ (not_or_intro hcap hin)
        rw [shiftRight_large_eq_none h hcap hin]
        rintro ⟨v', hv', -⟩
        cases hv'

/-! ## Shifts to the left -/

theorem wordCount_shiftLeftLoop (h : shiftLeftLoop toSkip bits left l = some l') :
    l'.wordCount = l.wordCount := by
  induction left generalizing l with
  | zero =>
    cases h
    rfl
  | succ left ih =>
    obtain ⟨carried, -, hrest⟩ := Option.bind_eq_some_iff.mp h
    rw [ih hrest, wordCount_set]

/-- Each word is read before it is written, now from the highest on. -/
theorem shiftLeftLoop_spec (hbits : 0 < bits ∨ left = 0) (hleft : toSkip + left < l.wordCount) :
    ∃ l', shiftLeftLoop toSkip bits left l = some l' ∧
      (∀ k, k < left → word l'.storage (toSkip + (k + 1)) =
        word l.storage (k + 1) <<< bits ||| word l.storage k >>> (64 - bits)) ∧
      ∀ k, k ≤ toSkip ∨ toSkip + left < k → word l'.storage k = word l.storage k := by
  induction left generalizing l with
  | zero => exact ⟨l, rfl, fun k hk => absurd hk (Nat.not_lt_zero k), fun k _ => rfl⟩
  | succ left ih =>
    have hbits : 0 < bits := hbits.resolve_right (Nat.succ_ne_zero left)
    have hcarried (x : Word) : shiftR x (bitsPerPointer - bits) = some (x >>> (64 - bits)) :=
      if_pos (Nat.sub_lt (by decide) hbits)
    rw [shiftLeftLoop, hcarried, Option.bind_eq_bind, Option.bind_some]
    obtain ⟨l', hl', hmoved, hkept⟩ := ih (Or.inl hbits)
      (l := l.set (toSkip + (left + 1)) (word l.storage (left + 1) <<< bits |||
        word l.storage left >>> (64 - bits)))
      (by rw [wordCount_set]; omega)
    refine ⟨l', hl', fun k hk => ?_, fun k hk => ?_⟩
    · rcases Nat.eq_or_lt_of_le (Nat.le_of_lt_succ hk) with rfl | hk
      · rw [hkept _ (Or.inr (by omega)), word_storage_set hleft, if_pos rfl]
      · rw [hmoved k hk, word_storage_set hleft, if_neg (by omega), word_storage_set hleft,
          if_neg (by omega)]
    · rw [hkept k (by omega), word_storage_set hleft, if_neg (by omega)]

/-- No carry is a shift by the width of a word. -/
def Moves (wordCount n : Nat) : Prop :=
  n % bitsPerPointer ≠ 0 ∨ n / bitsPerPointer + 1 = wordCount

theorem moveLeft_spec (hlt : n < 64 * l.wordCount) (hmoves : Moves l.wordCount n) :
    ∃ l', moveLeft l n = some (large l') ∧ l'.wordCount = l.wordCount ∧
      ∀ i, bit l'.storage i =
        (decide (n ≤ i ∧ i < 64 * l.wordCount) && bit l.storage (i - n)) := by
  rw [Moves, bitsPerPointer] at hmoves
  have hskip : n / 64 + (l.wordCount - 1 - n / 64) < l.wordCount := by omega
  obtain ⟨u, hu, hmoved, hkept⟩ := shiftLeftLoop_spec
    (show 0 < n % 64 ∨ l.wordCount - 1 - n / 64 = 0 by omega) hskip
  have hcount := wordCount_shiftLeftLoop hu
  obtain ⟨u', hu', hcount', hbits'⟩ := exists_update (l := u)
    (show n / 64 < u.wordCount by omega) fun _ => u.wordAt 0 <<< (n % 64)
  have hwords : u'.wordCount = l.wordCount :=
    (Nat.eq_of_mul_eq_mul_right (by decide) hcount').trans hcount
  have hbits (i : Nat) (hi : n / 64 ≤ i / 64) : bit u'.storage i =
      (decide (n ≤ i ∧ i < 64 * l.wordCount) && bit l.storage (i - n)) := by
    have hj : i % 64 < 64 := Nat.mod_lt i (by decide)
    rw [hbits']
    split
    next heq =>
      rw [LargeStorage.wordAt, hkept 0 (Or.inl (Nat.zero_le _)), getLsbD_shiftLeft_first hj]
      congr 1
      · exact decide_eq_decide.mpr ⟨fun h => by omega, fun h => by omega⟩
      · congr 1
        omega
    next hne =>
      obtain ⟨k, hk⟩ : ∃ k, i / 64 = n / 64 + (k + 1) := ⟨i / 64 - n / 64 - 1, by omega⟩
      rw [bit, hk]
      by_cases hin : k < l.wordCount - 1 - n / 64
      · rw [hmoved k hin, getLsbD_shiftLeft hj (Nat.mod_lt n (by decide)), decide_eq_true (by omega),
          Bool.true_and]
        congr 1
        omega
      · rw [hkept _ (Or.inr (by omega)), ← hk, ← bit.eq_def, bit_of_wordCount_le (by omega),
          decide_eq_false (by omega), Bool.false_and]
  have hu : shiftLeftLoop (n / bitsPerPointer) (n % bitsPerPointer)
    (l.wordCount - 1 - n / bitsPerPointer) l = some u := hu
  have hu' : u.update (n / bitsPerPointer) (fun _ => u.wordAt 0 <<< (n % bitsPerPointer)) =
    some u' := hu'
  rw [moveLeft, hu, Option.bind_eq_bind, Option.bind_some, hu', Option.bind_some]
  rcases Nat.eq_zero_or_pos (n / bitsPerPointer) with hzero | hpos
  · rw [if_neg (Nat.not_lt.mpr (Nat.le_of_eq hzero))]
    rw [bitsPerPointer] at hzero
    exact ⟨u', rfl, hwords, fun i => hbits i (by omega)⟩
  · obtain ⟨t, ht, hcountt, hbitst⟩ := exists_zero (l := u') (by omega : 0 + n / 64 ≤ u'.wordCount)
      (by omega)
    have ht : u'.zero 0 (n / bitsPerPointer) = some t := ht
    rw [if_pos hpos, ht]
    refine ⟨t, rfl, (Nat.eq_of_mul_eq_mul_right (by decide) hcountt).trans hwords, fun i => ?_⟩
    rw [hbitst]
    split
    next hi => rw [decide_eq_false (by omega), Bool.false_and]
    next hi => exact hbits i (by omega)

theorem moveLeft_eq_none (h : ¬(n < 64 * l.wordCount ∧ Moves l.wordCount n)) :
    moveLeft l n = none := by
  rw [Moves, bitsPerPointer] at h
  rw [moveLeft]
  simp only [bitsPerPointer]
  by_cases hlt : n < 64 * l.wordCount
  · -- The first carry is a shift by 64.
    obtain ⟨left, hleft⟩ : ∃ left, l.wordCount - 1 - n / 64 = left + 1 :=
      ⟨l.wordCount - 2 - n / 64, by omega⟩
    have hzero : n % 64 = 0 := by omega
    rw [hleft, hzero]
    rfl
  · cases hu : shiftLeftLoop (n / 64) (n % 64) (l.wordCount - 1 - n / 64) l with
    | none => rfl
    | some u =>
      have hcount := wordCount_shiftLeftLoop hu
      rw [Option.bind_eq_bind, Option.bind_some, LargeStorage.update, if_neg (by omega)]
      rfl

theorem of_moveLeft (h : moveLeft l n = some v) : n < 64 * l.wordCount ∧ Moves l.wordCount n ∧
    ∃ l', v = large l' ∧ l'.wordCount = l.wordCount := by
  by_cases hmoves : n < 64 * l.wordCount ∧ Moves l.wordCount n
  · obtain ⟨l', hl', hcount, -⟩ := moveLeft_spec hmoves.1 hmoves.2
    rw [hl'] at h
    exact ⟨hmoves.1, hmoves.2, l', (Option.some.inj h).symm, hcount⟩
  · rw [moveLeft_eq_none hmoves] at h
    cases h

/-- The bits are moved up, and the lowest are zero. -/
def IsShiftedLeft (v : LazySmallBitVector) (n : Nat) (v' : LazySmallBitVector) : Prop :=
  (∀ i, v'.get (i + n) = v.get i) ∧ ∀ i, i < n → v'.get i = false

/-- The amounts by which a vector can be shifted to the left. -/
def ShiftsLeft : LazySmallBitVector → Nat → Prop
  | small s, n =>
      (small s).requiredBits + n ≤ maxSmallSize ∨
        (small s).requiredBits = 0 ∧ n ≠ bitsPerPointer ∨
        bitsPerPointer < (small s).requiredBits + n ∧ (small s).requiredBits + n ≤ 2 ^ 32 - 64
  | large l, n =>
      (large l).requiredBits = 0 ∨
        (large l).requiredBits + n ≤ l.capacity ∧ Moves l.wordCount n ∨
        l.capacity < (large l).requiredBits + n ∧
          (large l).CanGrowTo ((large l).requiredBits + n + 1) ∧
          Moves ((large l).pointersCount ((large l).requiredBits + n + 1)) n

theorem isShiftedLeft_of_moveLeft {u : LargeStorage} (h : v.Addressable)
    (haddressable : (large u).Addressable) (hbits : ∀ i, bit u.storage i = bit v.words i)
    (hle : v.requiredBits + n ≤ u.capacity) (hlt : n < u.capacity) (hmoves : Moves u.wordCount n) :
    ∃ v', moveLeft u n = some v' ∧ v.IsShiftedLeft n v' := by
  have hcapacity := capacity_large haddressable
  obtain ⟨u', hu', hcount, hbits'⟩ := moveLeft_spec (by omega) hmoves
  have haddressable' : (large u').Addressable := by
    rw [Addressable, LargeStorage.bitCount, hcount]
    exact haddressable
  refine ⟨large u', hu', fun i => ?_, fun i hi => ?_⟩
  · rw [get_of_addressable haddressable', get_of_addressable h, words, hbits', Nat.add_sub_cancel,
      hbits]
    rcases Nat.lt_or_ge i v.requiredBits with hi | hi
    · rw [decide_eq_true (by omega), Bool.true_and]
    · rw [(requiredBits_le_iff h).mp hi i (Nat.le_refl i), Bool.and_false]
  · rw [get_of_addressable haddressable', words, hbits', decide_eq_false (by omega),
      Bool.false_and]

/-- A vector of zeros is not changed, but moved to the heap if it is small. -/
theorem isShiftedLeft_zero (h : v.Addressable) (hzero : v.requiredBits = 0) (n : Nat)
    (v' : LazySmallBitVector) (hbits : ∀ i, bit v'.words i = bit v.words i) :
    v.IsShiftedLeft n v' := by
  have hv := (requiredBits_le_iff h).mp (Nat.le_of_eq hzero)
  have hv' (i : Nat) : v'.get i = false := by
    rw [get_eq, hbits, hv i (Nat.zero_le i), Bool.and_false]
  refine ⟨fun i => ?_, fun i _ => hv' i⟩
  rw [hv', get_of_addressable h, hv i (Nat.zero_le i)]

/-- The highest bit of the result is one that `operator[]` sees. -/
theorem IsShiftedLeft.lt_capacity (h : v.Addressable) (hpos : 0 < v.requiredBits)
    (hshifted : v.IsShiftedLeft n v') : v.requiredBits - 1 + n < v'.capacity := by
  have hget := hshifted.1 (v.requiredBits - 1)
  rw [get_of_addressable h, bit_requiredBits_sub_one h hpos, get_eq, Bool.and_eq_true,
    decide_eq_true_iff] at hget
  exact hget.1

theorem of_shiftLeftLarge {required : Nat} (hne : required ≠ 0)
    (h : shiftLeftLarge l required amount = some v') :
    ∃ u, moveLeft u amount.toNat = some v' ∧
      (u = l ∨ l.capacity < unsigned (required + amount.toNat) ∧
        (large l).alloc (unsigned (unsigned (required + amount.toNat) + 1)) = some u) := by
  rw [shiftLeftLarge, if_neg hne] at h
  dsimp only at h
  split at h
  next hgt =>
    obtain ⟨u, hu, hmove⟩ := Option.bind_eq_some_iff.mp h
    exact ⟨u, hmove, Or.inr ⟨hgt, hu⟩⟩
  next => exact ⟨l, h, Or.inl rfl⟩

theorem capacity_le (v : LazySmallBitVector) : v.capacity ≤ 2 ^ 32 - 64 := by
  cases v with
  | small s =>
    show bitsPerPointer - 1 ≤ 2 ^ 32 - 64
    decide
  | large l =>
    rw [capacity, LargeStorage.capacity, LargeStorage.bitCount, bitsPerPointer, unsigned]
    omega

/-- A result has room for the highest bit only if the capacity is not cut. -/
theorem shiftsLeft_of_result (h : (large l).Addressable)
    (hresult : shiftLeftLarge l (large l).requiredBits amount = some v')
    (hshifted : (large l).IsShiftedLeft amount.toNat v') : (large l).ShiftsLeft amount.toNat := by
  rcases Nat.eq_zero_or_pos (large l).requiredBits with hzero | hpos
  · exact Or.inl hzero
  · right
    have hlt := hshifted.lt_capacity h hpos
    obtain ⟨-, -, hcap, hmod⟩ := capacity_bounds h
    have htwo := two_words_le h
    obtain ⟨u, hu, hcase⟩ := of_shiftLeftLarge (Nat.ne_of_gt hpos) hresult
    obtain ⟨-, hmoves, l', rfl, hcount⟩ := of_moveLeft hu
    have hcapacity : (large l').capacity = unsigned (u.wordCount * 64) := by
      rw [← hcount]
      rfl
    rcases hcase with rfl | ⟨hgt, halloc⟩
    · rw [hcapacity] at hlt
      exact Or.inl ⟨by rw [LargeStorage.capacity, LargeStorage.bitCount, bitsPerPointer]; omega,
        hmoves⟩
    · have hwords := wordCount_of_alloc halloc
      have hle := capacity_le (large l')
      have hnew : unsigned ((large l).requiredBits + amount.toNat) =
          (large l).requiredBits + amount.toNat := Nat.mod_eq_of_lt (by omega)
      have hnew' : unsigned ((large l).requiredBits + amount.toNat + 1) =
          (large l).requiredBits + amount.toNat + 1 := Nat.mod_eq_of_lt (by omega)
      rw [hnew] at hgt hwords
      rw [hnew'] at hwords
      have hgt' : (large l).capacity < (large l).requiredBits + amount.toNat := hgt
      have hgrow : (large l).CanGrowTo ((large l).requiredBits + amount.toNat + 1) := by
        rw [pointersCount, excessDivide, bitsPerPointer] at hwords
        rw [hcapacity, unsigned] at hlt
        rw [CanGrowTo]
        omega
      exact Or.inr ⟨hgt, hgrow, hwords ▸ hmoves⟩

theorem shiftLeftLarge_spec (h : (large l).Addressable)
    (hshifts : (large l).ShiftsLeft amount.toNat) :
    ∃ v', shiftLeftLarge l (large l).requiredBits amount = some v' ∧
      (large l).IsShiftedLeft amount.toNat v' := by
  rcases Nat.eq_zero_or_pos (large l).requiredBits with hzero | hpos
  · refine ⟨large l, if_pos hzero, isShiftedLeft_zero h hzero _ _ fun _ => rfl⟩
  · rw [shiftLeftLarge, if_neg (Nat.ne_of_gt hpos)]
    have hcap := (capacity_bounds h).2.2.1
    rcases hshifts.resolve_left (Nat.ne_of_gt hpos) with ⟨hle, hmoves⟩ | ⟨hgt, hgrow, hmoves⟩
    · have hlt : (large l).requiredBits + amount.toNat < 2 ^ 32 := Nat.lt_of_le_of_lt hle hcap
      dsimp only
      rw [unsigned, Nat.mod_eq_of_lt hlt, if_neg (Nat.not_lt.mpr hle)]
      exact isShiftedLeft_of_moveLeft h h (fun _ => rfl) hle (by omega) hmoves
    · obtain ⟨hsize, hgrow'⟩ := id hgrow
      obtain ⟨u, hu, haddressable, hle, hbits⟩ :=
        alloc_spec h (Nat.lt_succ_of_lt hgt) hgrow
      dsimp only
      rw [unsigned, Nat.mod_eq_of_lt (by omega), if_pos hgt, unsigned, Nat.mod_eq_of_lt (by omega),
        hu, Option.bind_eq_bind, Option.bind_some]
      refine isShiftedLeft_of_moveLeft h haddressable hbits (Nat.le_of_succ_le hle) ?_ ?_
      · have hle : (large l).requiredBits + amount.toNat + 1 ≤ u.capacity := hle
        omega
      · rwa [wordCount_of_alloc hu]

theorem bit_shiftLeft_small (s : SmallStorage) (hn : n < 64) (i : Nat) :
    bit (small (ofWord ((s.storage &&& ~~~1) <<< n))).words i =
      (decide (n ≤ i ∧ i < 63) && bit (small s).words (i - n)) := by
  have hone (j : Nat) : (1 : Word).getLsbD j = decide (j = 0) := by
    rw [show (1 : Word) = 1#64 from rfl, BitVec.getLsbD_one]
    simp
  have huntagged (j : Nat) :
      (s.storage &&& ~~~1).getLsbD j = (s.storage.getLsbD j && !decide (j = 0)) := by
    rw [BitVec.getLsbD_and, BitVec.getLsbD_not, hone]
    rcases Nat.lt_or_ge j 64 with hj | hj
    · simp [hj]
    · simp [BitVec.getLsbD_of_ge s.storage j hj]
  rw [bit_words_small, bit_words_small]
  rcases Nat.lt_or_ge i 63 with hi | hi
  · rw [ofWord, BitVec.getLsbD_or, BitVec.getLsbD_shiftLeft, huntagged, hone]
    rcases Nat.lt_or_ge i n with hlow | hlow
    · rcases Nat.eq_or_lt_of_le hlow with heq | hlt
      · simp [← heq, hi]
      · simp [hi, hlt, Nat.not_le.mpr hlow]
    · have hsub : i + 1 - n = i - n + 1 := by omega
      simp [hi, hlow, hsub, show ¬i + 1 < n by omega, show i - n < 63 by omega,
        show i + 1 < 64 by omega]
  · simp [Nat.not_lt.mpr hi]

theorem isShiftedLeft_small_iff (s : SmallStorage) (hn : n < 64) :
    (small s).IsShiftedLeft n (small (ofWord ((s.storage &&& ~~~1) <<< n))) ↔
      (small s).requiredBits + n ≤ 63 := by
  have hget (u : SmallStorage) (i : Nat) : (small u).get i = bit (small u).words i :=
    get_of_addressable (v := small u) trivial i
  have hle : (small s).requiredBits + n ≤ 63 ↔ ∀ i, 63 - n ≤ i → bit (small s).words i = false := by
    rw [← requiredBits_le_iff (v := small s) trivial]
    omega
  simp only [IsShiftedLeft, hget, bit_shiftLeft_small s hn, Nat.add_sub_cancel, hle]
  constructor
  · rintro ⟨hmoved, -⟩ i hi
    rw [← hmoved i, decide_eq_false (by omega), Bool.false_and]
  · refine fun hzero => ⟨fun i => ?_, fun i hi => ?_⟩
    · rcases Nat.lt_or_ge i (63 - n) with hi | hi
      · rw [decide_eq_true (by omega), Bool.true_and]
      · rw [hzero i hi, Bool.and_false]
    · rw [decide_eq_false (by omega), Bool.false_and]

/-- Where the result has at most 64 bits. -/
theorem shiftLeft_small_iff (s : SmallStorage)
    (hsize : unsigned ((small s).requiredBits + amount.toNat) ≤ bitsPerPointer) :
    (∃ v', (small s).shiftLeft amount = some v' ∧ (small s).IsShiftedLeft amount.toNat v') ↔
      (small s).ShiftsLeft amount.toNat := by
  have hrequired : (small s).requiredBits ≤ 63 := requiredBits_le_capacity (v := small s) trivial
  have hlt := amount.isLt
  rw [shiftLeft, if_pos hsize, shiftL]
  have hshifts : (small s).ShiftsLeft amount.toNat ↔ (small s).requiredBits + amount.toNat ≤ 63 := by
    rw [unsigned] at hsize
    simp only [ShiftsLeft, maxSmallSize, bitsPerPointer] at hsize ⊢
    omega
  rw [hshifts]
  by_cases hn : amount.toNat < bitsPerPointer
  · rw [if_pos hn, Option.bind_eq_bind, Option.bind_some]
    rw [← isShiftedLeft_small_iff s hn]
    simp
  · rw [if_neg hn]
    rw [bitsPerPointer] at hn
    refine iff_of_false ?_ (by omega)
    rintro ⟨v', hv', -⟩
    cases hv'

/-- Where the result is moved to the heap.  Its last word has the highest bit, so an amount of
whole words leaves only that word to be moved. -/
theorem shiftLeft_small_large_iff (s : SmallStorage)
    (hsize : ¬unsigned ((small s).requiredBits + amount.toNat) ≤ bitsPerPointer) :
    (∃ v', (small s).shiftLeft amount = some v' ∧ (small s).IsShiftedLeft amount.toNat v') ↔
      (small s).ShiftsLeft amount.toNat := by
  have haddressable : (small s).Addressable := trivial
  have hrequired : (small s).requiredBits ≤ 63 := requiredBits_le_capacity haddressable
  have hamount := amount.isLt
  have hnew : unsigned ((small s).requiredBits + amount.toNat) =
      (small s).requiredBits + amount.toNat := by
    rw [unsigned, bitsPerPointer] at hsize
    rw [unsigned]
    omega
  have hgt : 64 < (small s).requiredBits + amount.toNat := by
    rw [← hnew]
    exact Nat.not_le.mp hsize
  obtain ⟨u, hu⟩ := exists_alloc (v := small s) (n := (small s).requiredBits + amount.toNat)
    (show 63 < _ by omega) (Nat.le_of_succ_le (two_le_pointersCount s _))
  have hbits := bit_of_alloc hu
  rw [shiftLeft, if_neg hsize, hnew, hu, Option.bind_eq_bind, Option.bind_some]
  rcases Nat.eq_zero_or_pos (small s).requiredBits with hzero | hpos
  · refine iff_of_true
      ⟨large u, if_pos hzero, isShiftedLeft_zero haddressable hzero _ (large u) hbits⟩ ?_
    exact Or.inr (Or.inl ⟨hzero, by rw [bitsPerPointer]; omega⟩)
  · have hwords := wordCount_of_alloc hu
    have hcount : (small s).pointersCount ((small s).requiredBits + amount.toNat) =
      (max ((small s).requiredBits + amount.toNat) 126 + 63) / 64 := rfl
    by_cases hle : (small s).requiredBits + amount.toNat ≤ 2 ^ 32 - 64
    · refine iff_of_true ?_ (Or.inr (Or.inr ⟨hgt, hle⟩))
      obtain ⟨u', hu', haddressable', hle', -⟩ := alloc_spec haddressable
        (show 63 < _ by omega) ⟨hle, show 63 < 2 ^ 31 by decide⟩
      cases hu.symm.trans hu'
      have hle' : (small s).requiredBits + amount.toNat ≤ u.capacity := hle'
      rw [shiftLeftLarge, if_neg (Nat.ne_of_gt hpos), hnew]
      dsimp only
      rw [if_neg (Nat.not_lt.mpr hle')]
      refine isShiftedLeft_of_moveLeft haddressable haddressable' hbits hle' (by omega) ?_
      rw [Moves, bitsPerPointer]
      omega
    · refine iff_of_false ?_ ?_
      · rintro ⟨v', hv', hshifted⟩
        have hlt := hshifted.lt_capacity haddressable hpos
        obtain ⟨t, ht, hcase⟩ := of_shiftLeftLarge (Nat.ne_of_gt hpos) hv'
        obtain ⟨-, -, l', rfl, hcount'⟩ := of_moveLeft ht
        have hcapacity : (large l').capacity = unsigned (t.wordCount * 64) := by
          rw [← hcount']
          rfl
        have hfits : (small s).requiredBits + amount.toNat < 2 ^ 32 :=
          hnew ▸ Nat.mod_lt _ (by decide)
        have hcut : u.capacity = 0 := by
          rw [capacity_of_alloc hu, hcount, Nat.max_eq_left (by omega), unsigned]
          omega
        rcases hcase with rfl | ⟨-, halloc⟩
        · have hcapacity' : (large l').capacity = t.capacity := hcapacity
          omega
        · have hlt' := (of_alloc halloc).1
          have hwords' := wordCount_of_alloc halloc
          rw [pointersCount, excessDivide, bitsPerPointer, capacity, hcut, hnew] at hwords'
          rw [hnew] at hlt'
          rw [hcapacity] at hlt
          rw [unsigned] at hlt hlt' hwords'
          omega
      · rw [ShiftsLeft, maxSmallSize, bitsPerPointer]
        omega

theorem shiftLeft_iff (h : v.Addressable) (amount : BitVec 32) :
    (∃ v', v.shiftLeft amount = some v' ∧ v.IsShiftedLeft amount.toNat v') ↔
      v.ShiftsLeft amount.toNat := by
  cases v with
  | small s =>
    by_cases hsize : unsigned ((small s).requiredBits + amount.toNat) ≤ bitsPerPointer
    · exact shiftLeft_small_iff s hsize
    · exact shiftLeft_small_large_iff s hsize
  | large l =>
    exact ⟨fun ⟨v', hv', hshifted⟩ => shiftsLeft_of_result h hv' hshifted, shiftLeftLarge_spec h⟩

/-- The shifts in both directions. -/
theorem shifts_iff (h : v.Addressable) (amount : BitVec 32) :
    ((∃ v', v.shiftLeft amount = some v' ∧
        (∀ i, v'.get (i + amount.toNat) = v.get i) ∧ ∀ i, i < amount.toNat → v'.get i = false) ↔
      v.ShiftsLeft amount.toNat) ∧
    ((∃ v', v.shiftRight amount = some v' ∧ ∀ i, v'.get i = v.get (i + amount.toNat)) ↔
      v.ShiftsRight amount.toNat) :=
  ⟨shiftLeft_iff h amount, shiftRight_iff h amount⟩

theorem shifts_iff_seventy :
    ((∃ v', (small ⟨3, rfl⟩).shiftLeft 70 = some v' ∧
        (∀ i, v'.get (i + 70) = (small ⟨3, rfl⟩).get i) ∧ ∀ i, i < 70 → v'.get i = false) ↔
      (small ⟨3, rfl⟩).ShiftsLeft 70) ∧
    ((∃ v', (small ⟨3, rfl⟩).shiftRight 70 = some v' ∧
        ∀ i, v'.get i = (small ⟨3, rfl⟩).get (i + 70)) ↔
      (small ⟨3, rfl⟩).ShiftsRight 70) :=
  shifts_iff (v := small ⟨3, rfl⟩) trivial 70

/-- The highest of 64 bits is not in the word with the tag, and a vector on the heap cannot be
shifted by one word to the right. -/
theorem not_shifts :
    (∃ v v', empty.set 62 = some v ∧ v.get 62 = true ∧ v.shiftLeft 1 = some v' ∧
      v'.get 63 = false) ∧
    ∃ v, empty.set 100 = some v ∧ v.get 100 = true ∧ v.shiftRight 64 = none :=
  ⟨⟨small ⟨1 <<< 63 ||| 1, by decide⟩, _, rfl, by decide, rfl, by decide⟩,
    _, rfl, by decide +kernel, by decide +kernel⟩

end ADT.LazySmallBitVector
