import Revng.ADT.BitVectorShifts

/-!
# The order of bit vectors, and their set bits

Comparisons and iterators read the words, and `operator[]` reads the bits below the capacity.
Where it sees all set bits (`Visible`), `==` and `<` are those of the numbers, and an iterator
visits the set bits in order.  Where it does not, an iterator fails at a bit that is set and not
seen (`denotes_iff`).
-/

namespace ADT.LazySmallBitVector

open WordArray SmallStorage

variable {v a b : LazySmallBitVector} {l o : LargeStorage} {k p start : Nat}

/-! ## Visible bits -/

/-- The number that the bits denote. -/
def number (v : LazySmallBitVector) : Nat := value v.words

/-- `operator[]` sees all set bits. -/
def Visible (v : LazySmallBitVector) : Prop := ∀ i, v.get i = bit v.words i

theorem Addressable.visible (h : v.Addressable) : v.Visible := get_of_addressable h

theorem Visible.lt_capacity (h : v.Visible) (hp : bit v.words p = true) : p < v.capacity := by
  have hget := h p
  rw [hp, get_eq, hp, Bool.and_true] at hget
  exact of_decide_eq_true hget

theorem visible_iff : v.Visible ↔ ∀ i, v.capacity ≤ i → bit v.words i = false := by
  constructor
  · intro h i hi
    exact Bool.eq_false_iff.mpr fun hset => Nat.not_lt.mpr hi (h.lt_capacity hset)
  · intro h i
    rw [get_eq]
    rcases Nat.lt_or_ge i v.capacity with hi | hi
    · rw [decide_eq_true hi, Bool.true_and]
    · rw [h i hi, Bool.and_false]

/-- The words from the capacity on are zero. -/
theorem Visible.word_eq_zero (h : (large l).Visible) (hk : l.capacity / 64 ≤ k) :
    word l.storage k = 0 := by
  refine BitVec.eq_of_getLsbD_eq fun j hj => ?_
  rw [getLsbD_word (by decide) hj, BitVec.ofNat_eq_ofNat, BitVec.getLsbD_zero]
  refine Bool.eq_false_iff.mpr fun hset => ?_
  have hlt : 64 * k + j < l.capacity := h.lt_capacity hset
  rw [LargeStorage.capacity, LargeStorage.bitCount, bitsPerPointer, unsigned] at hk hlt
  omega

theorem Visible.requiredBits_eq_size (h : v.Visible) : v.requiredBits = v.number.size := by
  have hle : v.number.size ≤ v.capacity := (size_le_iff (by decide)).mpr (visible_iff.mp h)
  have hcapacity := capacity_le v
  rw [requiredBits_eq]
  exact Nat.mod_eq_of_lt (by rw [number] at hle; omega)

/-! ## Equality -/

theorem number_eq_iff : a.number = b.number ↔ ∀ i, word a.words i = word b.words i := by
  rw [number, number, value_eq_iff (by decide), words_eq_iff (by decide)]

theorem all_zero_iff {max : Nat} :
    (List.range' max (l.wordCount - max)).all (l.wordAt · = 0) = true ↔
      ∀ i, max ≤ i → l.wordAt i = 0 := by
  rw [List.all_eq_true]
  constructor
  · intro h i hi
    rcases Nat.lt_or_ge i l.wordCount with hcount | hcount
    · exact of_decide_eq_true (h i (List.mem_range'_1.mpr ⟨hi, by omega⟩))
    · exact word_of_le hcount
  · intro h i hi
    exact decide_eq_true (h i (List.mem_range'_1.mp hi).1)

theorem any_ne_zero_iff {max : Nat} :
    (List.range' max (l.wordCount - max)).any (l.wordAt · ≠ 0) = true ↔
      ∃ i, max ≤ i ∧ l.wordAt i ≠ 0 := by
  rw [List.any_eq_true]
  constructor
  · rintro ⟨i, hi, hne⟩
    exact ⟨i, (List.mem_range'_1.mp hi).1, of_decide_eq_true hne⟩
  · rintro ⟨i, hi, hne⟩
    have hcount : i < l.wordCount := Nat.lt_of_not_le fun hle => hne (word_of_le hle)
    exact ⟨i, List.mem_range'_1.mpr ⟨hi, by omega⟩, decide_eq_true hne⟩

/-- The first word, and all the others zero. -/
theorem number_eq_small_iff (s : SmallStorage) :
    (large l).number = (small s).number ↔
      l.wordAt 0 = s.getSmall ∧ ∀ i, 1 ≤ i → l.wordAt i = 0 := by
  rw [number_eq_iff]
  constructor
  · intro h
    exact ⟨h 0, fun i hi => (h i).trans (word_of_le hi)⟩
  · rintro ⟨hzero, hrest⟩ i
    cases i with
    | zero => exact hzero
    | succ i =>
      rw [word_of_le (show (small s).words.length ≤ i + 1 from Nat.le_add_left 1 i)]
      exact hrest _ (Nat.le_add_left 1 i)

/-- The words of both below a bound, and those of one from there on. -/
theorem number_eq_large_iff {max : Nat} (ho : ∀ k, max ≤ k → word o.storage k = 0) :
    (large l).number = (large o).number ↔
      (∀ i, i < max → l.wordAt i = o.wordAt i) ∧ ∀ i, max ≤ i → l.wordAt i = 0 := by
  rw [number_eq_iff]
  constructor
  · intro h
    exact ⟨fun i _ => h i, fun i hi => (h i).trans (ho i hi)⟩
  · rintro ⟨hlow, hhigh⟩ i
    rcases Nat.lt_or_ge i max with hi | hi
    · exact hlow i hi
    · exact (hhigh i hi).trans (ho i hi).symm

theorem storage_toNat (s : SmallStorage) : s.storage.toNat = 2 * s.getSmall.toNat + 1 := by
  have htag := s.tagged
  rw [BitVec.getLsbD, Nat.testBit_zero, decide_eq_true_iff] at htag
  rw [getSmall, BitVec.toNat_ushiftRight, Nat.shiftRight_one]
  omega

theorem number_small (s : SmallStorage) : (small s).number = s.getSmall.toNat := by
  rw [number, words, value, value, Nat.mul_zero, Nat.zero_add]

theorem equal_iff (ha : a.Visible) (hb : b.Visible) :
    a.equal b = true ↔ a.number = b.number := by
  cases a with
  | small s =>
    cases b with
    | small o =>
      rw [equal, decide_eq_true_iff, number_small, number_small, ← BitVec.toNat_inj,
        storage_toNat, storage_toNat]
      omega
    | large o =>
      rw [eq_comm (a := (small s).number), number_eq_small_iff, equal, Bool.and_eq_true,
        all_zero_iff, decide_eq_true_iff]
  | large l =>
    cases b with
    | small o =>
      rw [number_eq_small_iff, equal, Bool.and_eq_true, all_zero_iff, decide_eq_true_iff]
    | large o =>
      rw [equal, Bool.and_eq_true, List.all_eq_true]
      simp only [List.mem_range, decide_eq_true_iff]
      split
      next hgt =>
        rw [all_zero_iff, Nat.min_eq_right (Nat.le_of_lt hgt),
          number_eq_large_iff fun _ => hb.word_eq_zero]
        rfl
      next hle =>
        rw [all_zero_iff, Nat.min_eq_left (Nat.not_lt.mp hle), eq_comm,
          number_eq_large_iff fun _ => ha.word_eq_zero]
        simp only [eq_comm (a := l.wordAt _)]
        rfl

/-! ## Order -/

theorem lessThanBelow_iff (k : Nat) (h : ∀ i, k ≤ i → word l.storage i = word o.storage i) :
    lessThanBelow l o k = true ↔ (large l).number < (large o).number := by
  induction k with
  | zero =>
    have heq : (large l).number = (large o).number := number_eq_iff.mpr fun i => h i (Nat.zero_le i)
    rw [heq]
    exact iff_of_false Bool.false_ne_true (Nat.lt_irrefl _)
  | succ k ih =>
    rw [lessThanBelow]
    split
    next hne =>
      rw [decide_eq_true_iff]
      exact (value_lt_iff hne (value_drop_congr (by decide) h)).symm
    next heq =>
      refine ih fun i hi => ?_
      rcases Nat.eq_or_lt_of_le hi with rfl | hi
      · exact not_not.mp heq
      · exact h i hi

theorem lessThan_large_small_iff (s : SmallStorage) :
    (large l).lessThan (small s) = true ↔ (large l).number < (small s).number := by
  have hs (i : Nat) (hi : 1 ≤ i) : word (small s).words i = 0 := word_of_le hi
  rw [lessThan, Bool.and_eq_true, all_zero_iff, decide_eq_true_iff, number, number,
    value_lt_iff_and hs]
  refine and_congr_right fun hrest => ?_
  rw [value_eq_word_zero hs, value_eq_word_zero (show ∀ i, 1 ≤ i → word (large l).words i = 0 from
    hrest), BitVec.lt_def]
  rfl

theorem lessThan_small_large_iff (s : SmallStorage) :
    (small s).lessThan (large o) = true ↔ (small s).number < (large o).number := by
  have hs (i : Nat) (hi : 1 ≤ i) : word (small s).words i = 0 := word_of_le hi
  rw [lessThan, Bool.or_eq_true, any_ne_zero_iff, decide_eq_true_iff, number, number,
    value_lt_iff_or hs]
  refine or_congr_right' fun hrest => ?_
  have hrest (i : Nat) (hi : 1 ≤ i) : word (large o).words i = 0 := by
    by_contra hne
    exact hrest ⟨i, hi, hne⟩
  rw [value_eq_word_zero hs, value_eq_word_zero hrest, BitVec.lt_def]
  rfl

/-- Above the words of both, one has none and the other decides. -/
theorem lessThan_large_large_iff (hl : (large l).Visible) (ho : (large o).Visible) :
    (large l).lessThan (large o) = true ↔ (large l).number < (large o).number := by
  rw [lessThan]
  split
  next hgt =>
    rw [Bool.and_eq_true, all_zero_iff, Nat.min_eq_right (Nat.le_of_lt hgt), number, number,
      words, words, value_lt_iff_and fun _ => ho.word_eq_zero]
    refine and_congr_right fun hhigh => lessThanBelow_iff _ fun i hi => ?_
    exact (hhigh i hi).trans (ho.word_eq_zero hi).symm
  next hle =>
    rw [Bool.or_eq_true, any_ne_zero_iff, Nat.min_eq_left (Nat.not_lt.mp hle), number, number,
      words, words, value_lt_iff_or fun _ => hl.word_eq_zero]
    refine or_congr_right' fun hhigh => lessThanBelow_iff _ fun i hi => ?_
    rw [hl.word_eq_zero hi]
    by_contra hne
    exact hhigh ⟨i, hi, fun hzero => hne hzero.symm⟩

theorem lessThan_iff (ha : a.Visible) (hb : b.Visible) :
    a.lessThan b = true ↔ a.number < b.number := by
  cases a with
  | small s =>
    cases b with
    | small o =>
      rw [lessThan, decide_eq_true_iff, number_small, number_small, BitVec.lt_def,
        storage_toNat, storage_toNat]
      omega
    | large o => exact lessThan_small_large_iff s
  | large l =>
    cases b with
    | small o => exact lessThan_large_small_iff o
    | large o => exact lessThan_large_large_iff ha hb

/-! ## The next set bit -/

theorem findFirstBit_spec {x : Word} (hx : x ≠ 0) :
    ∃ j, findFirstBit x = j + 1 ∧ x.getLsbD j = true ∧ ∀ i, i < j → x.getLsbD i = false := by
  rw [findFirstBit]
  cases hfind : (List.range bitsPerPointer).find? x.getLsbD with
  | some j =>
    obtain ⟨hj, -, hlow⟩ := List.find?_range_eq_some.mp hfind
    exact ⟨j, rfl, hj, fun i hi => by simpa using hlow i hi⟩
  | none =>
    refine absurd (BitVec.eq_of_getLsbD_eq fun i hi => ?_) hx
    have hnone := List.find?_eq_none.mp hfind i (List.mem_range.mpr hi)
    exact (Bool.eq_false_iff.mpr hnone).trans BitVec.getLsbD_zero.symm

/-- The first set bit from an index on. -/
structure IsFirst (ws : List Word) (start p : Nat) : Prop where
  le : start ≤ p
  set : bit ws p = true
  unset : ∀ i, start ≤ i → i < p → bit ws i = false

/-- What `findNext` should return: the first set bit, counted from one, or zero. -/
def IsNext (v : LazySmallBitVector) (start n : Nat) : Prop :=
  n = 0 ∧ (∀ i, start ≤ i → bit v.words i = false) ∨ ∃ p, n = p + 1 ∧ IsFirst v.words start p

/-- In the word that a bit is in, the rest of the word is shifted down. -/
theorem getLsbD_rest {ws : List Word} {start i : Nat} (hi : start % 64 + i < 64) :
    (word ws (start / 64) >>> (start % 64)).getLsbD i = bit ws (start + i) := by
  rw [BitVec.getLsbD_ushiftRight, getLsbD_word (by decide) hi, ← Nat.add_assoc, Nat.div_add_mod]

theorem isFirst_of_rest {ws : List Word} {start j : Nat}
    (hset : (word ws (start / 64) >>> (start % 64)).getLsbD j = true)
    (hlow : ∀ i, i < j → (word ws (start / 64) >>> (start % 64)).getLsbD i = false) :
    IsFirst ws start (start + j) := by
  have hj : start % 64 + j < 64 := by
    rw [BitVec.getLsbD_ushiftRight] at hset
    by_contra hge
    rw [BitVec.getLsbD_of_ge _ _ (Nat.not_lt.mp hge)] at hset
    cases hset
  refine ⟨Nat.le_add_right start j, by rw [← getLsbD_rest hj, hset], fun i hi hlt => ?_⟩
  obtain ⟨k, rfl⟩ := Nat.exists_eq_add_of_le hi
  rw [← getLsbD_rest (by omega), hlow k (by omega)]

theorem rest_ne_zero {ws : List Word} {start t : Nat} (ht : bit ws t = true) (hle : start ≤ t)
    (hdiv : t / 64 = start / 64) : word ws (start / 64) >>> (start % 64) ≠ 0 := by
  intro hzero
  have hrest : (word ws (start / 64) >>> (start % 64)).getLsbD (t - start) =
      bit ws (start + (t - start)) := getLsbD_rest (by omega)
  rw [hzero, Nat.add_sub_cancel' hle, ht] at hrest
  cases BitVec.getLsbD_zero.symm.trans hrest

/-- A set bit in a later word is not passed by. -/
theorem findNextLoop_spec {left index t : Nat} (ht : bit l.storage t = true)
    (hcapacity : t < l.capacity) (hindex : index < t / 64) (hleft : t / 64 ≤ index + left) :
    ∃ p, findNextLoop l left index = some (p + 1) ∧ IsFirst l.storage (64 * (index + 1)) p := by
  have hcut : l.capacity ≤ 2 ^ 32 - 64 := capacity_le (large l)
  have hcount : t / 64 < l.wordCount := by
    by_contra hge
    rw [bit_of_wordCount_le (Nat.not_lt.mp hge)] at ht
    cases ht
  induction left generalizing index with
  | zero => omega
  | succ left ih =>
    have hlow : unsigned ((index + 1) * bitsPerPointer) = 64 * (index + 1) := by
      rw [bitsPerPointer, unsigned]
      omega
    rw [findNextLoop, if_neg (by omega), if_pos (by omega)]
    split
    next hzero =>
      have hunset {i : Nat} (hi : i / 64 = index + 1) : bit l.storage i = false :=
        bit_of_word_eq_zero (by rw [hi]; exact hzero)
      have hne : t / 64 ≠ index + 1 := fun heq => by
        rw [hunset heq] at ht
        cases ht
      obtain ⟨p, hp, hle, hset, hfirst⟩ := ih (show index + 1 < t / 64 by omega) (by omega)
      refine ⟨p, hp, by omega, hset, fun i hi hlt => ?_⟩
      rcases Nat.lt_or_ge i (64 * (index + 1 + 1)) with hin | hout
      · exact hunset (by omega)
      · exact hfirst i hout hlt
    next hne =>
      obtain ⟨j, hj, hset, hlow'⟩ := findFirstBit_spec hne
      have hfirst : IsFirst l.storage (64 * (index + 1)) (64 * (index + 1) + j) := by
        have hword : word l.storage (64 * (index + 1) / 64) >>> (64 * (index + 1) % 64) =
            l.wordAt (index + 1) := by
          rw [Nat.mul_div_cancel_left _ (by decide), Nat.mul_mod_right, BitVec.ushiftRight_zero]
          rfl
        exact isFirst_of_rest (by rw [hword]; exact hset) (by rw [hword]; exact hlow')
      have hle : 64 * (index + 1) + j ≤ t := by
        by_contra hlt
        rw [hfirst.unset t (by omega) (by omega)] at ht
        cases ht
      refine ⟨_, ?_, hfirst⟩
      rw [hj, unsigned, bitsPerPointer, Nat.mod_eq_of_lt (by omega)]
      congr 1
      omega

theorem findNext_spec (h : v.Visible) (start : Nat) :
    ∃ n, v.findNext start = some n ∧ v.IsNext start n := by
  have hsize := h.requiredBits_eq_size
  rw [findNext.eq_def]
  split
  next hge =>
    rw [ge_iff_le, hsize] at hge
    exact ⟨0, rfl, Or.inl ⟨rfl, (size_le_iff (by decide)).mp hge⟩⟩
  next hlt =>
    rw [ge_iff_le, Nat.not_le, hsize] at hlt
    -- There is a set bit from `start` on: the highest one.
    have htop : bit v.words (v.number.size - 1) = true :=
      bit_size_sub_one (by decide) (Nat.zero_lt_of_lt hlt)
    have hcut := capacity_le v
    cases v with
    | small s =>
      have hsize := size_small_le s
      have hle : start < 63 := Nat.lt_of_lt_of_le hlt hsize
      have hword : word (small s).words (start / 64) >>> (start % 64) = s.getSmall >>> start := by
        rw [Nat.div_eq_of_lt (by omega), Nat.mod_eq_of_lt (by omega)]
        rfl
      have hne : s.getSmall >>> start ≠ 0 := by
        rw [← hword]
        refine rest_ne_zero htop (by omega) ?_
        have hsize : (small s).number.size ≤ 63 := hsize
        omega
      obtain ⟨j, hj, hset, hlow⟩ := findFirstBit_spec hne
      dsimp only
      rw [hj]
      rw [← hword] at hset hlow
      exact ⟨_, rfl, Or.inr ⟨start + j, rfl, isFirst_of_rest hset hlow⟩⟩
    | large l =>
      dsimp only
      split
      next hne =>
        obtain ⟨j, hj, hset, hlow⟩ := findFirstBit_spec hne
        have hfirst : IsFirst (large l).words start (start + j) := isFirst_of_rest hset hlow
        have hcapacity := h.lt_capacity hfirst.set
        refine ⟨_, rfl, Or.inr ⟨start + j, ?_, hfirst⟩⟩
        rw [hj, unsigned, Nat.mod_eq_of_lt (by omega)]
        rfl
      next hzero =>
        have hzero : word (large l).words (start / 64) >>> (start % 64) = 0 := not_not.mp hzero
        have hrest (t : Nat) (hle : start ≤ t) (hdiv : t / 64 = start / 64) :
            bit (large l).words t = false :=
          Bool.eq_false_iff.mpr fun ht => rest_ne_zero ht hle hdiv hzero
        have hlater : start / 64 < ((large l).number.size - 1) / 64 := by
          refine Nat.lt_of_le_of_ne (Nat.div_le_div_right (by omega)) fun heq => ?_
          rw [hrest _ (by omega) heq.symm] at htop
          cases htop
        have hcount : ((large l).number.size - 1) / 64 < l.wordCount := by
          by_contra hge
          rw [words, bit_of_wordCount_le (Nat.not_lt.mp hge)] at htop
          cases htop
        obtain ⟨p, hp, hle, hset, hunset⟩ :=
          findNextLoop_spec htop (h.lt_capacity htop) hlater
            (show _ ≤ start / 64 + l.wordCount by omega)
        refine ⟨p + 1, hp, Or.inr ⟨p, rfl, by omega, hset, fun i hi hlt => ?_⟩⟩
        rcases Nat.lt_or_ge i (64 * (start / 64 + 1)) with hin | hout
        · exact hrest i hi (by omega)
        · exact hunset i hout hlt

/-! ## Iteration -/

theorem visitedFrom_zero (v : LazySmallBitVector) (steps : Nat) : v.visitedFrom steps 0 = some [] := by
  cases steps <;> rfl

theorem visitedFrom_succ (v : LazySmallBitVector) (steps p : Nat) :
    v.visitedFrom (steps + 1) (p + 1) = (v.increment (p + 1)).bind fun n =>
      (v.visitedFrom steps n).bind fun visited => some (p :: visited) :=
  rfl

/-- From a set bit on, each step goes to a later one. -/
theorem visitedFrom_spec (h : v.Visible) (steps p : Nat) (hp : bit v.words p = true)
    (hsteps : v.number.size ≤ p + steps) :
    ∃ xs, v.visitedFrom steps (p + 1) = some xs ∧ xs.Pairwise (· < ·) ∧
      ∀ i, i ∈ xs ↔ p ≤ i ∧ bit v.words i = true := by
  induction steps generalizing p with
  | zero =>
    have hunset : bit v.words p = false := bit_of_size_le (by decide) hsteps
    rw [hunset] at hp
    cases hp
  | succ steps ih =>
    have hincrement : v.increment (p + 1) = v.findNext (p + 1) :=
      if_pos (Or.inr ((h p).trans hp))
    obtain ⟨n, hn, hnext⟩ := findNext_spec h (p + 1)
    rw [visitedFrom_succ, hincrement, hn, Option.bind_some]
    rcases hnext with ⟨rfl, hnone⟩ | ⟨q, rfl, hfirst⟩
    · refine ⟨[p], by rw [visitedFrom_zero]; rfl, List.pairwise_singleton _ p, fun i => ?_⟩
      rw [List.mem_singleton]
      constructor
      · rintro rfl
        exact ⟨Nat.le_refl i, hp⟩
      · rintro ⟨hle, hset⟩
        by_contra hne
        rw [hnone i (by omega)] at hset
        cases hset
    · obtain ⟨hle, hset, hunset⟩ := hfirst
      obtain ⟨xs, hxs, hsorted, hmem⟩ := ih q hset (by omega)
      refine ⟨p :: xs, by rw [hxs]; rfl, List.pairwise_cons.mpr ⟨fun i hi => ?_, hsorted⟩,
        fun i => ?_⟩
      · have := ((hmem i).mp hi).1
        omega
      · rw [List.mem_cons, hmem]
        constructor
        · rintro (rfl | ⟨hqi, hi⟩)
          · exact ⟨Nat.le_refl i, hp⟩
          · exact ⟨by omega, hi⟩
        · rintro ⟨hpi, hi⟩
          rcases Nat.eq_or_lt_of_le hpi with rfl | hlt
          · exact Or.inl rfl
          · refine Or.inr ⟨?_, hi⟩
            by_contra hqi
            rw [hunset i hlt (by omega)] at hi
            cases hi

/-- An iterator visits the set bits in order, and `findNext` finds the first from an index on. -/
def Iterates (v : LazySmallBitVector) : Prop :=
  (∃ steps xs, v.visited steps = some xs ∧ xs.Pairwise (· < ·) ∧
    ∀ i, i ∈ xs ↔ bit v.words i = true) ∧
  ∀ start : BitVec 32, ∃ n, v.findNext start.toNat = some n ∧ v.IsNext start.toNat n

theorem Visible.iterates (h : v.Visible) : v.Iterates := by
  refine ⟨?_, fun start => findNext_spec h start.toNat⟩
  obtain ⟨n, hn, hnext⟩ := findNext_spec h 0
  have hbegin : v.begin = some n := by
    rw [begin]
    split
    next hzero =>
      have hnone : v.findNext 0 = some 0 := if_pos (Nat.le_of_eq (of_decide_eq_true hzero))
      exact hnone.symm.trans hn
    next => exact (if_pos (Or.inl rfl)).trans hn
  refine ⟨v.number.size, ?_⟩
  rw [visited, hbegin, Option.bind_eq_bind, Option.bind_some]
  rcases hnext with ⟨rfl, hnone⟩ | ⟨p, rfl, hfirst⟩
  · refine ⟨[], visitedFrom_zero v _, List.Pairwise.nil, fun i => ?_⟩
    rw [hnone i (Nat.zero_le i)]
    simp
  · obtain ⟨xs, hxs, hsorted, hmem⟩ :=
      visitedFrom_spec h v.number.size p hfirst.set (Nat.le_add_left _ _)
    refine ⟨xs, hxs, hsorted, fun i => ?_⟩
    rw [hmem]
    refine and_iff_right_of_imp fun hi => ?_
    by_contra hlt
    rw [hfirst.unset i (Nat.zero_le i) (Nat.not_le.mp hlt)] at hi
    cases hi

/-- A visited bit is one that `operator[]` sees. -/
theorem get_of_visitedFrom {steps n : Nat} {xs : List Nat} (h : v.visitedFrom steps n = some xs) :
    ∀ i, i ∈ xs → v.get i = true := by
  induction steps generalizing n xs with
  | zero =>
    cases n with
    | zero => cases h; exact fun i hi => absurd hi List.not_mem_nil
    | succ p => cases h
  | succ steps ih =>
    cases n with
    | zero => cases h; exact fun i hi => absurd hi List.not_mem_nil
    | succ p =>
      rw [visitedFrom_succ] at h
      obtain ⟨n, hn, hrest⟩ := Option.bind_eq_some_iff.mp h
      obtain ⟨visited, hvisited, heq⟩ := Option.bind_eq_some_iff.mp hrest
      cases heq
      intro i hi
      rcases List.mem_cons.mp hi with rfl | hi
      · rw [increment] at hn
        split at hn
        next hseen => exact hseen.resolve_left (Nat.succ_ne_zero i)
        next => cases hn
      · exact ih hvisited i hi

theorem Iterates.visible (h : v.Iterates) : v.Visible := by
  obtain ⟨⟨steps, xs, hxs, -, hmem⟩, -⟩ := h
  obtain ⟨n, -, hvisited⟩ := Option.bind_eq_some_iff.mp hxs
  intro i
  by_cases hset : bit v.words i = true
  · rw [get_of_visitedFrom hvisited i ((hmem i).mpr hset), hset]
  · rw [get_eq, Bool.eq_false_iff.mpr hset, Bool.and_false]

/-- Numbers, their order and their bits, exactly where all bits are seen. -/
theorem denotes_iff (a b : LazySmallBitVector) :
    ((a.equal b = true ↔ a.number = b.number) ∧ (a.lessThan b = true ↔ a.number < b.number) ∧
      a.Iterates ∧ b.Iterates) ↔ a.Visible ∧ b.Visible := by
  constructor
  · rintro ⟨-, -, ha, hb⟩
    exact ⟨ha.visible, hb.visible⟩
  · rintro ⟨ha, hb⟩
    exact ⟨equal_iff ha hb, lessThan_iff ha hb, ha.iterates, hb.iterates⟩

/-- Bit 3 is set, but the capacity is cut to none. -/
theorem not_denotes : ∃ u v, empty.set 3 = some u ∧ u.reserve 0xFFFFFFFE = some v ∧
    bit v.words 3 = true ∧ v.get 3 = false ∧ ¬v.Iterates := by
  obtain ⟨l, hset, hreserve, hcapacity, hbit⟩ := exists_cut
  have hget : (large l).get 3 = false := by
    rw [get_eq, hcapacity]
    rfl
  refine ⟨_, large l, hset, hreserve, hbit, hget, fun hiterates => ?_⟩
  have hseen := hiterates.visible 3
  rw [hget, words, hbit] at hseen
  cases hseen

end ADT.LazySmallBitVector
