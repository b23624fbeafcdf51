import Mathlib.Data.Nat.Bitwise
import Revng.ADT.LazySmallBitVector

/-!
# Boolean operations on bit vectors

The bits of a vector are those of its words, and `operator[]` sees the ones below the capacity
(`get_eq`).  As long as the capacities stay below 2³² bits (`Addressable`) these are all, and
`set`, `unset`, `|=`, `&=`, `^=` and growth are the pointwise operations (`run_bits`).
-/

namespace ADT.LazySmallBitVector

open WordArray SmallStorage

variable {v v' other : LazySmallBitVector} {l : LargeStorage} {n i : Nat}

/-! ## Bits -/

def words : LazySmallBitVector → List Word
  | small s => [s.getSmall]
  | large l => l.storage

/-- The capacity fits an `unsigned`. -/
def Addressable : LazySmallBitVector → Prop
  | small _ => True
  | large l => l.bitCount < 2 ^ 32

instance : Decidable v.Addressable := by
  cases v
  · exact instDecidableTrue
  · exact Nat.decLt _ _

theorem bit_words_small (s : SmallStorage) (i : Nat) :
    bit (small s).words i = (decide (i < 63) && s.storage.getLsbD (i + 1)) := by
  have hshift (j : Nat) : s.getSmall.getLsbD j = s.storage.getLsbD (j + 1) := by
    rw [getSmall, BitVec.getLsbD_ushiftRight, Nat.add_comm]
  rw [words, bit]
  by_cases hi : i < 64
  · rw [Nat.div_eq_of_lt hi, Nat.mod_eq_of_lt hi, word_cons_zero, hshift]
    rcases Nat.lt_or_ge i 63 with h | h
    · simp [h]
    · rw [BitVec.getLsbD_of_ge _ _ (Nat.succ_le_succ h), Bool.and_false]
  · have hzero : word [s.getSmall] (i / 64) = 0#64 := word_of_le (by
      rw [List.length_singleton]
      omega)
    rw [hzero, BitVec.getLsbD_zero, decide_eq_false (by omega), Bool.false_and]

/-- `operator[]` sees the bits below the capacity. -/
theorem get_eq (v : LazySmallBitVector) (i : Nat) :
    v.get i = (decide (i < v.capacity) && bit v.words i) := by
  rw [get.eq_def]
  by_cases hi : i < v.capacity
  · rw [if_neg (Nat.not_le.mpr hi), decide_eq_true hi, Bool.true_and]
    cases v with
    | small s =>
      have hi : i < 63 := hi
      rw [bit_words_small, decide_eq_true hi, Bool.true_and]
      simp
    | large l => simp [words, bit, LargeStorage.wordAt, bitsPerPointer]
  · rw [if_pos (Nat.not_lt.mp hi), decide_eq_false hi, Bool.false_and]

theorem capacity_of_addressable (h : v.Addressable) (hi : v.capacity ≤ i) :
    bit v.words i = false := by
  cases v with
  | small s =>
    have hi : 63 ≤ i := hi
    rw [bit_words_small, decide_eq_false (by omega), Bool.false_and]
  | large l =>
    rw [capacity, LargeStorage.capacity, unsigned, Nat.mod_eq_of_lt h] at hi
    exact bit_of_le (by decide) (by rwa [Nat.mul_comm])

theorem get_of_addressable (h : v.Addressable) (i : Nat) : v.get i = bit v.words i := by
  rw [get_eq]
  by_cases hi : i < v.capacity
  · rw [decide_eq_true hi, Bool.true_and]
  · rw [decide_eq_false hi, Bool.false_and, capacity_of_addressable h (Nat.not_lt.mp hi)]

/-! ## Growth -/

theorem of_alloc (h : v.alloc n = some l) : v.capacity < n ∧
    v.words.length ≤ v.pointersCount n ∧
    l.storage = v.words ++ List.replicate (v.pointersCount n - v.words.length) 0 := by
  rw [alloc.eq_def] at h
  split at h
  next hn =>
    refine ⟨hn, ?_⟩
    cases v with
    | small s =>
      cases h
      have := two_le_pointersCount s n
      exact ⟨Nat.le_of_lt this, rfl⟩
    | large old =>
      dsimp only at h
      split at h
      next hle => cases h; exact ⟨hle, rfl⟩
      next => cases h
  next => cases h

theorem exists_alloc (hn : v.capacity < n) (hle : v.words.length ≤ v.pointersCount n) :
    ∃ l, v.alloc n = some l := by
  rw [alloc.eq_def, if_pos hn]
  cases v with
  | small s => exact ⟨_, rfl⟩
  | large old =>
    have hle : old.wordCount ≤ (large old).pointersCount n := hle
    dsimp only
    rw [if_pos hle]
    exact ⟨_, rfl⟩

theorem bit_of_alloc (h : v.alloc n = some l) (i : Nat) : bit l.storage i = bit v.words i := by
  obtain ⟨-, -, hstorage⟩ := of_alloc h
  refine bit_congr ?_
  rw [hstorage, word_append]
  split
  next => rfl
  next hi => rw [word_replicate_zero, word_of_le (Nat.not_lt.mp hi)]

theorem wordCount_of_alloc (h : v.alloc n = some l) : l.wordCount = v.pointersCount n := by
  obtain ⟨-, hlen, hstorage⟩ := of_alloc h
  rw [LargeStorage.wordCount, hstorage, List.length_append, List.length_replicate,
    Nat.add_sub_cancel' hlen]

/-- The capacity is that of the words, without the tag and the cut. -/
theorem capacity_bounds (h : v.Addressable) : v.capacity ≤ 64 * v.words.length ∧
    64 * v.words.length ≤ v.capacity + 1 ∧ v.capacity < 2 ^ 32 ∧
    (v.capacity = 63 ∨ v.capacity % 64 = 0) := by
  cases v with
  | small s => simp [capacity, words, bitsPerPointer]
  | large l =>
    have hcap : l.capacity = l.wordCount * 64 := Nat.mod_eq_of_lt h
    have hlt : l.wordCount * 64 < 2 ^ 32 := h
    have hlen : l.storage.length = l.wordCount := rfl
    simp only [capacity, words, hcap, hlen]
    omega

/-- A size that a vector can grow to. -/
def CanGrowTo (v : LazySmallBitVector) (n : Nat) : Prop := n ≤ 2 ^ 32 - 64 ∧ v.capacity < 2 ^ 31

theorem alloc_spec (h : v.Addressable) (hn : v.capacity < n) (hgrow : v.CanGrowTo n) :
    ∃ l, v.alloc n = some l ∧ (large l).Addressable ∧ n ≤ l.capacity ∧
      ∀ i, bit l.storage i = bit v.words i := by
  obtain ⟨hle, hge, hlt, hmod⟩ := capacity_bounds h
  have hcount : v.pointersCount n = (max n (2 * v.capacity) + 63) / 64 := rfl
  obtain ⟨l, hl⟩ := exists_alloc hn (by rw [hcount]; omega)
  have hbits : l.bitCount = v.pointersCount n * 64 := by
    rw [LargeStorage.bitCount, wordCount_of_alloc hl, bitsPerPointer]
  obtain ⟨hgrow, hgrow'⟩ := hgrow
  have haddressable : l.bitCount < 2 ^ 32 := by omega
  refine ⟨l, hl, haddressable, ?_, bit_of_alloc hl⟩
  rw [LargeStorage.capacity, unsigned, Nat.mod_eq_of_lt haddressable]
  omega

theorem enlarged_spec (h : v.Addressable) (hgrow : n ≤ v.capacity ∨ v.CanGrowTo n) :
    ∃ v', v.enlarged n = some v' ∧ v'.Addressable ∧ n ≤ v'.capacity ∧
      ∀ i, bit v'.words i = bit v.words i := by
  rw [enlarged]
  by_cases hn : n > v.capacity
  · obtain ⟨l, hl, haddressable, hle, hbits⟩ :=
      alloc_spec h hn (hgrow.resolve_left (Nat.not_le.mpr hn))
    rw [if_pos hn, hl]
    exact ⟨large l, rfl, haddressable, hle, hbits⟩
  · rw [if_neg hn]
    exact ⟨v, rfl, h, Nat.not_lt.mp hn, fun _ => rfl⟩

theorem reserve_spec (h : v.Addressable) {size : BitVec 32}
    (hgrow : (size + 1).toNat < v.capacity ∨ v.capacity < size.toNat ∧ v.CanGrowTo size.toNat) :
    ∃ v', v.reserve size = some v' ∧ v'.Addressable ∧ ∀ i, bit v'.words i = bit v.words i := by
  rw [reserve]
  split
  next hge =>
    obtain ⟨hn, hgrow⟩ := hgrow.resolve_left (Nat.not_lt.mpr hge)
    obtain ⟨l, hl, haddressable, -, hbits⟩ := alloc_spec h hn hgrow
    rw [hl]
    exact ⟨large l, rfl, haddressable, hbits⟩
  next => exact ⟨v, rfl, h, fun _ => rfl⟩

/-- A capacity that is cut is known all the same. -/
theorem capacity_of_alloc (h : v.alloc n = some l) :
    l.capacity = unsigned (v.pointersCount n * 64) := by
  rw [LargeStorage.capacity, LargeStorage.bitCount, wordCount_of_alloc h, bitsPerPointer]

/-! ## Single bits -/

theorem getLsbD_one_shift {k : Nat} (hk : k < 64) (j : Nat) :
    (one <<< k).getLsbD j = decide (j = k) := by
  have hone (i : Nat) : one.getLsbD i = decide (i = 0) := by
    rw [show one = 1#64 from rfl, BitVec.getLsbD_one]
    simp
  rw [BitVec.getLsbD_shiftLeft, hone]
  by_cases hj : j = k
  · simp [hj, hk]
  · simp [hj]
    omega

theorem exists_update {k : Nat} (hk : k < l.wordCount) (f : Word → Word) :
    ∃ l', l.update k f = some l' ∧ l'.bitCount = l.bitCount ∧ ∀ i, bit l'.storage i =
      if i / 64 = k then (f (word l.storage k)).getLsbD (i % 64) else bit l.storage i := by
  rw [LargeStorage.update, if_pos hk]
  refine ⟨_, rfl, ?_, fun i => ?_⟩
  · rw [LargeStorage.bitCount, LargeStorage.wordCount, List.length_modify]
    rfl
  · have hk : k < l.storage.length := hk
    rw [bit, word_modify]
    split
    next hi => rw [if_pos hi.1, hi.1]
    next hi => rw [if_neg fun heq => hi ⟨heq, hk⟩, bit]

theorem div_lt_wordCount (h : (large l).Addressable) (hi : i < (large l).capacity) :
    i / 64 < l.wordCount := by
  have hlt := (capacity_bounds h).1
  have hlen : (large l).words.length = l.wordCount := rfl
  omega

theorem set_spec (h : v.Addressable) {index : BitVec 32} (hindex : index.toNat < intMax) :
    ∃ v', v.set index = some v' ∧ v'.Addressable ∧
      ∀ i, bit v'.words i = (decide (i = index.toNat) || bit v.words i) := by
  obtain ⟨-, -, -, hmod⟩ := capacity_bounds h
  have hgrow : index.toNat + 1 ≤ v.capacity ∨ v.CanGrowTo (index.toNat + 1) := by
    rw [CanGrowTo]
    rw [intMax] at hindex
    omega
  obtain ⟨v', hv', haddressable, hle, hbits⟩ := enlarged_spec h hgrow
  rw [set, if_pos hindex, hv']
  cases v' with
  | small s =>
    have hsmall : index.toNat < maxSmallSize := hle
    rw [Option.bind_eq_bind, Option.bind_some]
    dsimp only
    rw [if_pos hsmall]
    refine ⟨_, rfl, trivial, fun i => ?_⟩
    rw [← hbits, bit_words_small, bit_words_small, BitVec.getLsbD_or,
      getLsbD_one_shift (by rw [maxSmallSize, bitsPerPointer] at hsmall; omega)]
    rw [maxSmallSize, bitsPerPointer] at hsmall
    by_cases hi : i = index.toNat
    · simp [hi, hsmall]
    · simp [hi]
  | large l =>
    obtain ⟨l', hl', hcount, hbits'⟩ :=
      exists_update (div_lt_wordCount haddressable hle) (· ||| one <<< (index.toNat % 64))
    rw [Option.bind_eq_bind, Option.bind_some]
    simp only [bitsPerPointer, hl']
    refine ⟨large l', rfl, hcount.trans_lt haddressable, fun i => ?_⟩
    rw [← hbits, words, words, hbits', BitVec.getLsbD_or,
      getLsbD_one_shift (Nat.mod_lt _ (by decide))]
    split
    next hi =>
      rw [bit, hi, Bool.or_comm]
      congr 1
      exact decide_eq_decide.mpr ⟨fun h => by omega, fun h => by omega⟩
    next hi => rw [decide_eq_false (by rintro rfl; exact hi rfl), Bool.false_or]

theorem unset_spec (h : v.Addressable) {index : BitVec 32} (hindex : index.toNat < intMax) :
    ∃ v', v.unset index = some v' ∧ v'.Addressable ∧
      ∀ i, bit v'.words i = (!decide (i = index.toNat) && bit v.words i) := by
  rw [unset.eq_def, if_pos hindex]
  by_cases hcap : index.toNat ≥ v.capacity
  · rw [if_pos hcap]
    refine ⟨v, rfl, h, fun i => ?_⟩
    by_cases hi : i = index.toNat
    · rw [hi, capacity_of_addressable h hcap, Bool.and_false]
    · rw [decide_eq_false hi, Bool.not_false, Bool.true_and]
  · rw [if_neg hcap]
    have hle : index.toNat < v.capacity := Nat.not_le.mp hcap
    cases v with
    | small s =>
      have hsmall : index.toNat < maxSmallSize := hle
      dsimp only
      rw [if_pos hsmall]
      rw [maxSmallSize, bitsPerPointer] at hsmall
      refine ⟨_, rfl, trivial, fun i => ?_⟩
      rw [bit_words_small, bit_words_small, BitVec.getLsbD_and, BitVec.getLsbD_not,
        getLsbD_one_shift (by omega)]
      by_cases hi : i = index.toNat
      · simp [hi]
      · rcases Nat.lt_or_ge i 63 with h63 | h63
        · simp [hi, h63, Nat.succ_lt_succ h63]
        · simp [Nat.not_lt.mpr h63]
    | large l =>
      obtain ⟨l', hl', hcount, hbits'⟩ := exists_update (div_lt_wordCount h hle)
        (· &&& ~~~(one <<< (index.toNat % 64)))
      simp only [bitsPerPointer, hl']
      refine ⟨large l', rfl, hcount.trans_lt h, fun i => ?_⟩
      rw [words, words, hbits', BitVec.getLsbD_and, BitVec.getLsbD_not,
        getLsbD_one_shift (Nat.mod_lt _ (by decide)),
        decide_eq_true (Nat.mod_lt i (by decide)), Bool.true_and]
      split
      next hi =>
        rw [bit, hi, Bool.and_comm]
        congr 2
        exact decide_eq_decide.mpr ⟨fun h => by omega, fun h => by omega⟩
      next hi =>
        rw [decide_eq_false (by rintro rfl; exact hi rfl), Bool.not_false, Bool.true_and]

/-! ## Boolean operations -/

theorem bit_updateBelow {max : Nat} (hmax : max ≤ l.wordCount) (f : Nat → Word → Word) (i : Nat) :
    bit (l.updateBelow max f).storage i =
      if i / 64 < max then (f (i / 64) (word l.storage (i / 64))).getLsbD (i % 64)
      else bit l.storage i := by
  rw [LargeStorage.updateBelow, bit, word_mapIdx]
  split
  next hi =>
    split
    next => rfl
    next => rfl
  next hi =>
    have hle : l.wordCount ≤ i / 64 := Nat.not_lt.mp hi
    rw [if_neg (by omega), bit, word_of_le hle]

theorem bitCount_updateBelow (max : Nat) (f : Nat → Word → Word) :
    (l.updateBelow max f).bitCount = l.bitCount := by
  rw [LargeStorage.bitCount, LargeStorage.wordCount, LargeStorage.updateBelow, List.length_mapIdx]
  rfl

theorem exists_zero {start count : Nat} (h : start + count ≤ l.wordCount)
    (hstart : start < l.wordCount) :
    ∃ l', l.zero start count = some l' ∧ l'.bitCount = l.bitCount ∧ ∀ i, bit l'.storage i =
      if start ≤ i / 64 ∧ i / 64 < start + count then false else bit l.storage i := by
  rw [LargeStorage.zero, if_pos ⟨h, hstart⟩]
  refine ⟨_, rfl, ?_, fun i => ?_⟩
  · rw [LargeStorage.bitCount, LargeStorage.wordCount, List.length_mapIdx]
    rfl
  · rw [bit, word_mapIdx]
    split
    next hi =>
      split
      next => exact BitVec.getLsbD_zero
      next => rfl
    next hi =>
      have hle : l.wordCount ≤ i / 64 := Nat.not_lt.mp hi
      rw [if_neg (by omega), bit, word_of_le hle]

theorem bit_setSmall (x : Word) (i : Nat) :
    bit (small (setSmall x)).words i = (decide (i < 63) && x.getLsbD i) := by
  rw [bit_words_small]
  rcases Nat.lt_or_ge i 63 with hi | hi
  · simp only [setSmall, ofWord, BitVec.getLsbD_or, BitVec.getLsbD_shiftLeft, hi,
      Nat.succ_lt_succ hi, decide_true, Bool.true_and, Nat.add_sub_cancel]
    simp
  · simp [Nat.not_lt.mpr hi]

theorem two_words_le (h : (large l).Addressable) : 128 ≤ (large l).capacity := by
  have hge := (capacity_bounds h).2.1
  have hlen : 2 ≤ (large l).words.length := l.two_le
  have hmod := (capacity_bounds h).2.2.2
  omega

theorem capacity_large (h : (large l).Addressable) : l.capacity = 64 * l.wordCount :=
  (Nat.mod_eq_of_lt h).trans (Nat.mul_comm _ _)

theorem combine_spec {f : Word → Word → Word} {g : Bool → Bool → Bool}
    (hf : ∀ x y j, (f x y).getLsbD j = g (x.getLsbD j) (y.getLsbD j))
    (hg : ∀ b, g b false = b) (h : v.Addressable) (ho : other.Addressable)
    (hgrow : other.capacity ≤ v.capacity ∨ v.capacity < 2 ^ 31) :
    ∃ v', v.combine other f = some v' ∧ v'.Addressable ∧
      ∀ i, bit v'.words i = g (bit v.words i) (bit other.words i) := by
  have hcan : other.capacity ≤ v.capacity ∨ v.CanGrowTo other.capacity := by
    obtain ⟨-, -, hlt, hmod⟩ := capacity_bounds ho
    rw [CanGrowTo]
    omega
  obtain ⟨u, hu, haddressable, hle, hbits⟩ := enlarged_spec h hcan
  simp only [← hbits]
  rw [combine, hu, Option.bind_eq_bind, Option.bind_some]
  cases u with
  | small s =>
    cases other with
    | small o =>
      refine ⟨_, rfl, trivial, fun i => ?_⟩
      rw [bit_words_small, bit_words_small, bit_words_small]
      rcases Nat.lt_or_ge i 63 with hi | hi
      · simp [ofWord, hf, hi]
      · simp [Nat.not_lt.mpr hi, hg]
    | large o =>
      have hlarge := two_words_le ho
      have hsmall : (large o).capacity ≤ 63 := hle
      omega
  | large l =>
    cases other with
    | small o =>
      obtain ⟨l', hl', hcount, hbits'⟩ :=
        exists_update (Nat.lt_of_lt_of_le Nat.zero_lt_two l.two_le) (f · o.getSmall)
      dsimp only
      rw [hl']
      refine ⟨large l', rfl, hcount.trans_lt haddressable, fun i => ?_⟩
      rw [words, words, words, hbits']
      split
      next hi => rw [bit, bit, hf, hi]; rfl
      next hi =>
        have hlen : [o.getSmall].length ≤ i / 64 := by rw [List.length_singleton]; omega
        rw [bit_of_word_eq_zero (word_of_le hlen), hg]
    | large o =>
      have hmax : min l.capacity o.capacity / bitsPerPointer = o.wordCount := by
        have hle : o.capacity ≤ l.capacity := hle
        rw [Nat.min_eq_right hle, capacity_large ho, bitsPerPointer]
        omega
      have hwords : o.wordCount ≤ l.wordCount := by
        have hle : o.capacity ≤ l.capacity := hle
        rw [capacity_large ho, capacity_large haddressable] at hle
        omega
      dsimp only
      rw [hmax]
      refine ⟨_, rfl, (bitCount_updateBelow _ _).trans_lt haddressable, fun i => ?_⟩
      rw [words, words, words, bit_updateBelow hwords]
      split
      next hi => exact hf _ _ _
      next hi => rw [bit_of_word_eq_zero (word_of_le (Nat.not_lt.mp hi)), hg]

theorem bit_and_small (s : SmallStorage) {y : Word}
    (hy : ∀ i, i < 63 → y.getLsbD i = bit other.words i) (i : Nat) :
    bit (small (setSmall (s.getSmall &&& y))).words i =
      (bit (small s).words i && bit other.words i) := by
  rw [bit_setSmall, bit_words_small, BitVec.getLsbD_and, getSmall,
    BitVec.getLsbD_ushiftRight, Nat.add_comm 1 i]
  rcases Nat.lt_or_ge i 63 with hi | hi
  · simp [hi, hy i hi]
  · simp [Nat.not_lt.mpr hi]

theorem bit_of_wordCount_le (h : l.wordCount ≤ i / 64) : bit l.storage i = false :=
  bit_of_word_eq_zero (word_of_le h)

theorem bit_small_of_one_le (s : SmallStorage) (h : 1 ≤ i / 64) : bit (small s).words i = false :=
  bit_of_word_eq_zero (word_of_le h)

theorem andAssign_large_small (h : (large l).Addressable) (o : SmallStorage) :
    ∃ v', (large l).andAssign (small o) = some v' ∧ v'.Addressable ∧
      ∀ i, bit v'.words i = (bit (large l).words i && bit (small o).words i) := by
  have hpos : 1 < l.wordCount := l.two_le
  obtain ⟨u, hu, hcount, hbits⟩ :=
    exists_zero (by omega : 1 + (l.wordCount - 1) ≤ l.wordCount) hpos
  obtain ⟨l', hl', hcount', hbits'⟩ :=
    exists_update (Nat.lt_of_lt_of_le Nat.zero_lt_two u.two_le) (· &&& o.getSmall)
  rw [andAssign, if_pos hpos, hu, Option.bind_eq_bind, Option.bind_some]
  dsimp only
  rw [hl']
  refine ⟨large l', rfl, (hcount'.trans hcount).trans_lt h, fun i => ?_⟩
  show bit l'.storage i = (bit l.storage i && bit (small o).words i)
  rw [hbits']
  split
  next hi =>
    rw [BitVec.getLsbD_and, ← hi, ← bit.eq_def, hbits, if_neg (by omega), words, bit, bit, hi]
    rfl
  next hi =>
    rw [bit_small_of_one_le o (by omega), Bool.and_false, hbits]
    split
    next => rfl
    next hin => exact bit_of_wordCount_le (by omega)

/-- The words of both, once those behind the other storage are zero. -/
theorem bit_and_large {u o : LargeStorage} (hcount : u.bitCount = l.bitCount)
    (hbits : ∀ i, bit u.storage i = (bit l.storage i && decide (i / 64 < o.wordCount))) (i : Nat) :
    bit (u.updateBelow (min o.wordCount u.wordCount) fun i x => x &&& o.wordAt i).storage i =
      (bit l.storage i && bit o.storage i) := by
  have hwords : u.wordCount = l.wordCount := Nat.eq_of_mul_eq_mul_right (by decide) hcount
  rw [bit_updateBelow (Nat.min_le_right _ _)]
  by_cases hi : i / 64 < o.wordCount
  · rw [hbits, decide_eq_true hi, Bool.and_true]
    split
    next hin =>
      rw [BitVec.getLsbD_and, ← bit.eq_def, hbits, decide_eq_true hi, Bool.and_true]
      rfl
    next hin => rw [bit_of_wordCount_le (by omega), Bool.false_and]
  · rw [if_neg (by omega), hbits, decide_eq_false hi, Bool.and_false,
      bit_of_wordCount_le (Nat.not_lt.mp hi), Bool.and_false]

theorem andAssign_large_large (h : (large l).Addressable) (o : LargeStorage) :
    ∃ v', (large l).andAssign (large o) = some v' ∧ v'.Addressable ∧
      ∀ i, bit v'.words i = (bit (large l).words i && bit (large o).words i) := by
  rw [andAssign]
  by_cases hcount : l.wordCount > o.wordCount
  · obtain ⟨u, hu, hbitCount, hbits⟩ := exists_zero
      (by omega : o.wordCount + (l.wordCount - o.wordCount) ≤ l.wordCount) hcount
    rw [if_pos hcount, hu, Option.bind_eq_bind, Option.bind_some]
    refine ⟨_, rfl, ((bitCount_updateBelow _ _).trans hbitCount).trans_lt h,
      bit_and_large hbitCount fun i => ?_⟩
    rw [hbits]
    by_cases hi : i / 64 < o.wordCount
    · rw [if_neg (by omega), decide_eq_true hi, Bool.and_true]
    · rw [decide_eq_false hi, Bool.and_false]
      split
      next => rfl
      next hin => exact bit_of_wordCount_le (by omega)
  · rw [if_neg hcount, Option.bind_eq_bind, Option.bind_some]
    refine ⟨_, rfl, (bitCount_updateBelow _ _).trans_lt h, bit_and_large rfl fun i => ?_⟩
    by_cases hi : i / 64 < o.wordCount
    · rw [decide_eq_true hi, Bool.and_true]
    · rw [bit_of_wordCount_le (by omega), Bool.false_and]

theorem andAssign_spec (h : v.Addressable) (other : LazySmallBitVector) :
    ∃ v', v.andAssign other = some v' ∧ v'.Addressable ∧
      ∀ i, bit v'.words i = (bit v.words i && bit other.words i) := by
  cases v with
  | small s =>
    have hlow {i : Nat} (ws : List Word) (hi : i < 63) : (word ws 0).getLsbD i = bit ws i := by
      rw [bit, Nat.div_eq_of_lt (by omega), Nat.mod_eq_of_lt (by omega)]
    cases other with
    | small o => exact ⟨_, rfl, trivial, bit_and_small s fun i hi => hlow [o.getSmall] hi⟩
    | large o => exact ⟨_, rfl, trivial, bit_and_small s fun i hi => hlow o.storage hi⟩
  | large l =>
    cases other with
    | small o => exact andAssign_large_small h o
    | large o => exact andAssign_large_large h o

theorem orAssign_spec (h : v.Addressable) (ho : other.Addressable)
    (hgrow : other.capacity ≤ v.capacity ∨ v.capacity < 2 ^ 31) :
    ∃ v', v.orAssign other = some v' ∧ v'.Addressable ∧
      ∀ i, bit v'.words i = (bit v.words i || bit other.words i) :=
  combine_spec (fun _ _ _ => BitVec.getLsbD_or) Bool.or_false h ho hgrow

theorem xorAssign_spec (h : v.Addressable) (ho : other.Addressable)
    (hgrow : other.capacity ≤ v.capacity ∨ v.capacity < 2 ^ 31) :
    ∃ v', v.xorAssign other = some v' ∧ v'.Addressable ∧
      ∀ i, bit v'.words i = (bit v.words i ^^ bit other.words i) :=
  combine_spec (fun _ _ _ => BitVec.getLsbD_xor) Bool.xor_false h ho hgrow

/-! ## Runs -/

/-- An operation on one of several vectors, with one of them on the right. -/
inductive BitOperation (ι : Type) where
  | set (i : ι) (index : BitVec 32)
  | unset (i : ι) (index : BitVec 32)
  | orAssign (i j : ι)
  | andAssign (i j : ι)
  | xorAssign (i j : ι)
  | reserve (i : ι) (size : BitVec 32)

variable {ι : Type}

def BitOperation.target : BitOperation ι → ι
  | set i _ | unset i _ | orAssign i _ | andAssign i _ | xorAssign i _ | reserve i _ => i

/-- What becomes of the vector. -/
def BitOperation.perform (s : ι → LazySmallBitVector) :
    BitOperation ι → Option LazySmallBitVector
  | set i index => (s i).set index
  | unset i index => (s i).unset index
  | orAssign i j => (s i).orAssign (s j)
  | andAssign i j => (s i).andAssign (s j)
  | xorAssign i j => (s i).xorAssign (s j)
  | reserve i size => (s i).reserve size

/-- The operation on infinite sequences of bits. -/
def BitOperation.pointwise (b : ι → Nat → Bool) : BitOperation ι → Nat → Bool
  | set i index, k => decide (k = index.toNat) || b i k
  | unset i index, k => !decide (k = index.toNat) && b i k
  | orAssign i j, k => b i k || b j k
  | andAssign i j, k => b i k && b j k
  | xorAssign i j, k => b i k ^^ b j k
  | reserve i _, k => b i k

/-- The operands are addressable and remain so. -/
def BitOperation.Fits (s : ι → LazySmallBitVector) : BitOperation ι → Prop
  | set i index | unset i index => (s i).Addressable ∧ index.toNat < intMax
  | orAssign i j | xorAssign i j => (s i).Addressable ∧ (s j).Addressable ∧
      ((s j).capacity ≤ (s i).capacity ∨ (s i).capacity < 2 ^ 31)
  | andAssign i j => (s i).Addressable ∧ (s j).Addressable
  | reserve i size => (s i).Addressable ∧ ((size + 1).toNat < (s i).capacity ∨
      (s i).capacity < size.toNat ∧ (s i).CanGrowTo size.toNat)

variable {s : ι → LazySmallBitVector} {operation : BitOperation ι}

instance : Decidable (v.CanGrowTo n) := inferInstanceAs (Decidable (_ ∧ _))

instance : Decidable (operation.Fits s) :=
  match operation with
  | .set _ _ | .unset _ _ | .andAssign _ _ => inferInstanceAs (Decidable (_ ∧ _))
  | .orAssign _ _ | .xorAssign _ _ => inferInstanceAs (Decidable (_ ∧ _ ∧ (_ ∨ _)))
  | .reserve _ _ => inferInstanceAs (Decidable (_ ∧ (_ ∨ _ ∧ _)))

theorem BitOperation.perform_bits (h : operation.Fits s) :
    ∃ v, operation.perform s = some v ∧
      ∀ k, v.get k = operation.pointwise (fun i => (s i).get) k := by
  have hget {u : LazySmallBitVector} (hu : u.Addressable) (k : Nat) : bit u.words k = u.get k :=
    (get_of_addressable hu k).symm
  cases operation with
  | set i index =>
    obtain ⟨hi, hindex⟩ := h
    obtain ⟨v, hv, haddressable, hbits⟩ := set_spec hi hindex
    exact ⟨v, hv, fun k => by rw [← hget haddressable, hbits, hget hi]; rfl⟩
  | unset i index =>
    obtain ⟨hi, hindex⟩ := h
    obtain ⟨v, hv, haddressable, hbits⟩ := unset_spec hi hindex
    exact ⟨v, hv, fun k => by rw [← hget haddressable, hbits, hget hi]; rfl⟩
  | orAssign i j =>
    obtain ⟨hi, hj, hgrow⟩ := h
    obtain ⟨v, hv, haddressable, hbits⟩ := orAssign_spec hi hj hgrow
    exact ⟨v, hv, fun k => by rw [← hget haddressable, hbits, hget hi, hget hj]; rfl⟩
  | andAssign i j =>
    obtain ⟨hi, hj⟩ := h
    obtain ⟨v, hv, haddressable, hbits⟩ := andAssign_spec hi (s j)
    exact ⟨v, hv, fun k => by rw [← hget haddressable, hbits, hget hi, hget hj]; rfl⟩
  | xorAssign i j =>
    obtain ⟨hi, hj, hgrow⟩ := h
    obtain ⟨v, hv, haddressable, hbits⟩ := xorAssign_spec hi hj hgrow
    exact ⟨v, hv, fun k => by rw [← hget haddressable, hbits, hget hi, hget hj]; rfl⟩
  | reserve i size =>
    obtain ⟨hi, hgrow⟩ := h
    obtain ⟨v, hv, haddressable, hbits⟩ := reserve_spec hi hgrow
    exact ⟨v, hv, fun k => by rw [← hget haddressable, hbits, hget hi]; rfl⟩

variable [DecidableEq ι]

def step (s : ι → LazySmallBitVector) (operation : BitOperation ι) :
    Option (ι → LazySmallBitVector) :=
  Function.update s operation.target <$> operation.perform s

def run (s : ι → LazySmallBitVector) (operations : List (BitOperation ι)) :
    Option (ι → LazySmallBitVector) :=
  operations.foldlM step s

def pointwiseStep (b : ι → Nat → Bool) (operation : BitOperation ι) : ι → Nat → Bool :=
  Function.update b operation.target (operation.pointwise b)

def pointwiseRun (b : ι → Nat → Bool) (operations : List (BitOperation ι)) : ι → Nat → Bool :=
  operations.foldl pointwiseStep b

/-- Each operation fits the state it is performed in. -/
def AllFit (s : ι → LazySmallBitVector) : List (BitOperation ι) → Prop
  | [] => True
  | operation :: operations => operation.Fits s ∧
      ∀ s', step s operation = some s' → AllFit s' operations

def decidableAllFit (s : ι → LazySmallBitVector) :
    (operations : List (BitOperation ι)) → Decidable (AllFit s operations)
  | [] => isTrue trivial
  | operation :: operations =>
      match hs : step s operation with
      | none => decidable_of_iff (operation.Fits s) (by simp [AllFit, hs])
      | some s' =>
          have := decidableAllFit s' operations
          decidable_of_iff (operation.Fits s ∧ AllFit s' operations) (by simp [AllFit, hs])

instance (operations : List (BitOperation ι)) : Decidable (AllFit s operations) :=
  decidableAllFit s operations

theorem step_bits (h : operation.Fits s) :
    ∃ s', step s operation = some s' ∧
      (fun i => (s' i).get) = pointwiseStep (fun i => (s i).get) operation := by
  obtain ⟨v, hv, hbits⟩ := BitOperation.perform_bits h
  refine ⟨Function.update s operation.target v, by rw [step, hv]; rfl, funext fun i => ?_⟩
  rw [pointwiseStep]
  by_cases hi : i = operation.target
  · subst hi
    rw [Function.update_self, Function.update_self]
    exact funext hbits
  · rw [Function.update_of_ne hi, Function.update_of_ne hi]

variable {operations before : List (BitOperation ι)}

theorem run_bits_of_allFit (h : AllFit s operations) :
    ∃ s', run s operations = some s' ∧
      ∀ i k, (s' i).get k = pointwiseRun (fun i => (s i).get) operations i k := by
  induction operations generalizing s with
  | nil => exact ⟨s, rfl, fun i k => rfl⟩
  | cons operation operations ih =>
    obtain ⟨hfits, hrest⟩ := h
    obtain ⟨s', hs', hbits⟩ := step_bits hfits
    obtain ⟨t, ht, hbits'⟩ := ih (hrest s' hs')
    refine ⟨t, ?_, fun i k => ?_⟩
    · rw [run, List.foldlM_cons, hs']
      exact ht
    · rw [hbits', hbits]
      rfl

theorem allFit_before (h : AllFit s operations) (hbefore : before <+: operations) :
    AllFit s before := by
  induction before generalizing s operations with
  | nil => trivial
  | cons operation before ih =>
    cases operations with
    | nil => cases List.prefix_nil.mp hbefore
    | cons _ operations =>
      obtain ⟨rfl, hrest⟩ := List.cons_prefix_cons.mp hbefore
      exact ⟨h.1, fun s' hs' => ih (h.2 s' hs') hrest⟩

/-- The bits in every state that a run reaches. -/
theorem run_bits (h : AllFit s operations) (hbefore : before <+: operations) :
    ∃ s', run s before = some s' ∧
      ∀ i k, (s' i).get k = pointwiseRun (fun i => (s i).get) before i k :=
  run_bits_of_allFit (allFit_before h hbefore)

/-- Two vectors, of which one is moved to the heap. -/
theorem run_bits_two :
    let operations : List (BitOperation Bool) := [.set false 3, .set true 100, .set true 3,
      .orAssign false true, .xorAssign true false, .unset false 100, .reserve true 200,
      .andAssign true false]
    ∃ s', run (fun _ => empty) operations = some s' ∧ ∀ i k,
      (s' i).get k = pointwiseRun (fun _ => empty.get) operations i k :=
  run_bits (by decide +kernel) List.prefix_rfl

/-- A vector with bit 3, grown to 2³² bits. -/
theorem exists_cut : ∃ l, empty.set 3 = some (small ⟨17, rfl⟩) ∧
    (small ⟨17, rfl⟩).reserve 0xFFFFFFFE = some (large l) ∧ (large l).capacity = 0 ∧
      bit l.storage 3 = true := by
  obtain ⟨l, hl⟩ := exists_alloc (v := small ⟨17, rfl⟩) (n := 0xFFFFFFFE) (by decide) (by decide)
  have hcount : unsigned (pointersCount (small ⟨17, rfl⟩) 0xFFFFFFFE * 64) = 0 := by decide +kernel
  refine ⟨l, rfl, ?_, (capacity_of_alloc hl).trans hcount, (bit_of_alloc hl 3).trans rfl⟩
  have hl : (small ⟨17, rfl⟩).alloc (0xFFFFFFFE : BitVec 32).toNat = some l := hl
  rw [reserve, if_pos (by decide +kernel), hl]
  rfl

/-- The capacity of 2³² bits is cut to none, so bit 3 is lost; and a size below the capacity
cannot be reserved. -/
theorem not_run_bits :
    (∃ s', run (fun _ : Unit => empty) [.set () 3, .reserve () 0xFFFFFFFE] = some s' ∧
      (s' ()).get 3 = false ∧
      pointwiseRun (fun _ => empty.get) [.set () 3, .reserve () 0xFFFFFFFE] () 3 = true) ∧
    run (fun _ : Unit => empty) [.reserve () 62] = none := by
  refine ⟨?_, by decide +kernel⟩
  obtain ⟨l, hset, hreserve, hcapacity, -⟩ := exists_cut
  have hset' : step (fun _ : Unit => empty) (.set () 3) = some fun _ => small ⟨17, rfl⟩ := by
    rw [step, BitOperation.perform, hset]
    exact congrArg some (funext fun _ => rfl)
  have hreserve' : step (fun _ : Unit => small ⟨17, rfl⟩) (.reserve () 0xFFFFFFFE) =
      some fun _ => large l := by
    rw [step, BitOperation.perform, hreserve]
    exact congrArg some (funext fun _ => rfl)
  refine ⟨fun _ => large l, ?_, ?_, by decide +kernel⟩
  · rw [run, List.foldlM_cons, hset', Option.bind_eq_bind, Option.bind_some, List.foldlM_cons,
      hreserve']
    rfl
  · rw [get_eq, hcapacity]
    rfl

end ADT.LazySmallBitVector
