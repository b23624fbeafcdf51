import Mathlib.Algebra.Group.Nat.Defs
import Mathlib.Data.Nat.Size
import Mathlib.Tactic.ByContra

/-!
# Arrays of words

A list of words denotes a number, the first word its lowest digits.  The bits of the number are
those of the words (`testBit_value`), so facts of single bits and facts of the order can be
used side by side.

The order of two numbers is that of the highest words in which they differ.
-/

namespace WordArray

variable {w : Nat}

/-- A word of the list, or zero behind its end. -/
def word (ws : List (BitVec w)) (i : Nat) : BitVec w := ws.getD i 0

def bit (ws : List (BitVec w)) (i : Nat) : Bool := (word ws (i / w)).getLsbD (i % w)

def value : List (BitVec w) → Nat
  | [] => 0
  | x :: ws => 2 ^ w * value ws + x.toNat

variable {x : BitVec w} {ws vs : List (BitVec w)} {i k : Nat}

/-! ## Words -/

@[simp]
theorem word_nil (i : Nat) : word ([] : List (BitVec w)) i = 0 := by simp [word]

@[simp]
theorem word_cons_zero : word (x :: ws) 0 = x := rfl

@[simp]
theorem word_cons_succ : word (x :: ws) (i + 1) = word ws i := rfl

theorem word_of_le (h : ws.length ≤ i) : word ws i = 0 := by
  rw [word, List.getD_eq_getElem?_getD, List.getElem?_eq_none h]
  rfl

theorem word_of_lt (h : i < ws.length) : word ws i = ws[i] := by
  rw [word, List.getD_eq_getElem?_getD, List.getElem?_eq_getElem h]
  rfl

theorem word_append : word (ws ++ vs) i =
    if i < ws.length then word ws i else word vs (i - ws.length) := by
  simp only [word, List.getD_eq_getElem?_getD, List.getElem?_append]
  split <;> rfl

theorem word_replicate_zero (n : Nat) : word (List.replicate n (0 : BitVec w)) i = 0 := by
  simp only [word, List.getD_eq_getElem?_getD, List.getElem?_replicate]
  split <;> rfl

theorem word_set : word (ws.set k x) i = if i = k ∧ k < ws.length then x else word ws i := by
  simp only [word, List.getD_eq_getElem?_getD, List.getElem?_set]
  grind

theorem word_modify (f : BitVec w → BitVec w) :
    word (ws.modify k f) i = if i = k ∧ k < ws.length then f (word ws i) else word ws i := by
  simp only [word, List.getD_eq_getElem?_getD, List.getElem?_modify]
  grind

theorem word_mapIdx (f : Nat → BitVec w → BitVec w) :
    word (ws.mapIdx f) i = if i < ws.length then f i (word ws i) else 0 := by
  simp only [word, List.getD_eq_getElem?_getD, List.getElem?_mapIdx]
  grind

theorem word_drop : word (ws.drop k) i = word ws (k + i) := by
  rw [word, word, List.getD_eq_getElem?_getD, List.getD_eq_getElem?_getD, List.getElem?_drop]

/-! ## The number -/

theorem testBit_value (hw : 0 < w) (ws : List (BitVec w)) (i : Nat) :
    (value ws).testBit i = bit ws i := by
  induction ws generalizing i with
  | nil => simp [value, bit]
  | cons x ws ih =>
    rw [value, Nat.testBit_two_pow_mul_add _ x.isLt, bit]
    split
    next hi => rw [Nat.div_eq_of_lt hi, Nat.mod_eq_of_lt hi]; rfl
    next hi =>
      rw [ih, bit, Nat.div_eq_sub_div hw (Nat.not_lt.mp hi), word_cons_succ,
        ← Nat.mod_eq_sub_mod (Nat.not_lt.mp hi)]

theorem bit_of_le (hw : 0 < w) (h : w * ws.length ≤ i) : bit ws i = false := by
  rw [bit, word_of_le ((Nat.le_div_iff_mul_le hw).mpr (by rwa [Nat.mul_comm]))]
  exact BitVec.getLsbD_zero

theorem bit_of_word_eq_zero (h : word ws (i / w) = 0) : bit ws i = false := by
  rw [bit, h]
  exact BitVec.getLsbD_zero

theorem value_eq_iff (hw : 0 < w) : value ws = value vs ↔ ∀ i, bit ws i = bit vs i := by
  refine ⟨fun h i => ?_, fun h => Nat.eq_of_testBit_eq fun i => ?_⟩
  · rw [← testBit_value hw, h, testBit_value hw]
  · rw [testBit_value hw, testBit_value hw, h]

/-- A word is a run of bits. -/
theorem getLsbD_word (hw : 0 < w) {j : Nat} (hj : j < w) :
    (word ws i).getLsbD j = bit ws (w * i + j) := by
  rw [bit, Nat.mul_add_div hw, Nat.div_eq_of_lt hj, Nat.add_zero, Nat.mul_add_mod,
    Nat.mod_eq_of_lt hj]

theorem bit_congr (h : word ws (i / w) = word vs (i / w)) : bit ws i = bit vs i := by
  rw [bit, h, bit]

theorem words_eq_iff (hw : 0 < w) : (∀ i, bit ws i = bit vs i) ↔ ∀ i, word ws i = word vs i := by
  refine ⟨fun h i => BitVec.eq_of_getLsbD_eq fun j hj => ?_, fun h i => bit_congr (h _)⟩
  rw [getLsbD_word hw hj, getLsbD_word hw hj, h]

/-! ## Shifts -/

theorem getLsbD_shiftRight {b j : Nat} (hj : j < w) (hb : b < w) :
    (word ws i >>> b ||| word ws (i + 1) <<< (w - b)).getLsbD j = bit ws (w * i + j + b) := by
  have hw : 0 < w := Nat.zero_lt_of_lt hj
  rw [BitVec.getLsbD_or, BitVec.getLsbD_ushiftRight, BitVec.getLsbD_shiftLeft]
  rcases Nat.lt_or_ge (b + j) w with hlow | hlow
  · rw [getLsbD_word hw hlow, decide_eq_true (show j < w - b by omega), Bool.not_true,
      Bool.and_false, Bool.false_and, Bool.or_false, Nat.add_comm b j, Nat.add_assoc]
  · rw [BitVec.getLsbD_of_ge _ _ hlow, decide_eq_false (show ¬j < w - b by omega),
      decide_eq_true hj, Bool.not_false, Bool.true_and, Bool.true_and, Bool.false_or,
      getLsbD_word hw (by omega), Nat.mul_succ]
    congr 1
    omega

/-- The last word, which has none behind it to carry from. -/
theorem getLsbD_shiftRight_last {b j : Nat} (hj : j < w) (hlast : word ws (i + 1) = 0)
    (hb : b < w) : (word ws i >>> b).getLsbD j = bit ws (w * i + j + b) := by
  rw [← getLsbD_shiftRight hj hb, hlast]
  simp

theorem getLsbD_shiftLeft {b j : Nat} (hj : j < w) (hb : b < w) :
    (word ws (i + 1) <<< b ||| word ws i >>> (w - b)).getLsbD j =
      bit ws (w * (i + 1) + j - b) := by
  have hw : 0 < w := Nat.zero_lt_of_lt hj
  rw [BitVec.getLsbD_or, BitVec.getLsbD_ushiftRight, BitVec.getLsbD_shiftLeft]
  rcases Nat.lt_or_ge j b with hlow | hlow
  · rw [decide_eq_true hlow, Bool.not_true, Bool.and_false, Bool.false_and, Bool.false_or,
      getLsbD_word hw (by omega), Nat.mul_succ]
    congr 1
    omega
  · rw [decide_eq_false (Nat.not_lt.mpr hlow), decide_eq_true hj, Bool.not_false, Bool.true_and,
      Bool.true_and, BitVec.getLsbD_of_ge _ (w - b + j) (by omega), Bool.or_false,
      getLsbD_word hw (by omega), Nat.add_sub_assoc hlow]

/-- The first word. -/
theorem getLsbD_shiftLeft_first {b j : Nat} (hj : j < w) :
    (word ws 0 <<< b).getLsbD j = (decide (b ≤ j) && bit ws (j - b)) := by
  have hw : 0 < w := Nat.zero_lt_of_lt hj
  rw [BitVec.getLsbD_shiftLeft, decide_eq_true hj, Bool.true_and]
  rcases Nat.lt_or_ge j b with hlow | hlow
  · rw [decide_eq_true hlow, decide_eq_false (Nat.not_le.mpr hlow), Bool.not_true, Bool.false_and,
      Bool.false_and]
  · rw [decide_eq_false (Nat.not_lt.mpr hlow), decide_eq_true hlow, Bool.not_false, Bool.true_and,
      Bool.true_and, getLsbD_word hw (by omega), Nat.mul_zero, Nat.zero_add]

/-! ## The order -/

theorem value_drop (k : Nat) (ws : List (BitVec w)) :
    value (ws.drop k) = value ws / 2 ^ (w * k) := by
  induction k generalizing ws with
  | zero => simp
  | succ k ih =>
    cases ws with
    | nil => simp [value]
    | cons x ws =>
      rw [List.drop_succ_cons, ih, value, Nat.mul_succ, Nat.add_comm (w * k), Nat.pow_add,
        ← Nat.div_div_eq_div_mul, Nat.mul_add_div (Nat.two_pow_pos w),
        Nat.div_eq_of_lt x.isLt, Nat.add_zero]

/-- The words from one on, by the first of them and the rest. -/
theorem value_drop_eq (k : Nat) (ws : List (BitVec w)) :
    value (ws.drop k) = 2 ^ w * value (ws.drop (k + 1)) + (word ws k).toNat := by
  by_cases hk : k < ws.length
  · rw [List.drop_eq_getElem_cons hk, value, word_of_lt hk]
  · rw [Nat.not_lt] at hk
    rw [List.drop_eq_nil_of_le hk, List.drop_eq_nil_of_le (Nat.le_succ_of_le hk), word_of_le hk]
    simp [value]

theorem value_eq_zero (h : ∀ i, word ws i = 0) : value ws = 0 := by
  induction ws with
  | nil => rfl
  | cons x ws ih =>
    have hx : x = 0 := h 0
    rw [value, ih fun i => h (i + 1), hx]
    simp

theorem value_drop_eq_zero (h : ∀ i, k ≤ i → word ws i = 0) : value (ws.drop k) = 0 :=
  value_eq_zero fun i => by rw [word_drop]; exact h _ (Nat.le_add_right k i)

theorem value_lt_of_words (h : ∀ i, k ≤ i → word ws i = 0) : value ws < 2 ^ (w * k) := by
  have hdrop := value_drop_eq_zero h
  rw [value_drop] at hdrop
  exact Nat.lt_of_div_eq_zero (Nat.two_pow_pos _) hdrop

theorem le_value_of_word (hi : k ≤ i) (hne : word ws i ≠ 0) : 2 ^ (w * k) ≤ value ws := by
  have hpos : 0 < (word ws i).toNat :=
    Nat.pos_of_ne_zero fun hzero => hne (BitVec.eq_of_toNat_eq hzero)
  have hdrop := value_drop_eq i ws
  rw [value_drop] at hdrop
  have hdiv : 0 < value ws / 2 ^ (w * i) := by omega
  calc 2 ^ (w * k) ≤ 2 ^ (w * i) := Nat.pow_le_pow_right Nat.two_pos (Nat.mul_le_mul_left w hi)
    _ ≤ value ws := (Nat.div_pos_iff.mp hdiv).2

theorem value_drop_congr (hw : 0 < w) (h : ∀ i, k ≤ i → word ws i = word vs i) :
    value (ws.drop k) = value (vs.drop k) := by
  rw [value_eq_iff hw, words_eq_iff hw]
  intro i
  rw [word_drop, word_drop]
  exact h _ (Nat.le_add_right k i)

theorem value_eq_word_zero (h : ∀ i, 1 ≤ i → word ws i = 0) : value ws = (word ws 0).toNat := by
  rw [← List.drop_zero (l := ws), value_drop_eq, value_drop_eq_zero h, List.drop_zero,
    Nat.mul_zero, Nat.zero_add]

/-- A number is the less only if it has no higher words than the other. -/
theorem value_lt_iff_and (h : ∀ i, k ≤ i → word vs i = 0) :
    value ws < value vs ↔ (∀ i, k ≤ i → word ws i = 0) ∧ value ws < value vs := by
  refine ⟨fun hlt => ⟨fun i hi => ?_, hlt⟩, And.right⟩
  by_contra hne
  exact absurd (Nat.lt_trans hlt (value_lt_of_words h)) (Nat.not_lt.mpr (le_value_of_word hi hne))

theorem value_lt_iff_or (h : ∀ i, k ≤ i → word ws i = 0) :
    value ws < value vs ↔ (∃ i, k ≤ i ∧ word vs i ≠ 0) ∨ value ws < value vs := by
  refine ⟨Or.inr, ?_⟩
  rintro (⟨i, hi, hne⟩ | hlt)
  · exact Nat.lt_of_lt_of_le (value_lt_of_words h) (le_value_of_word hi hne)
  · exact hlt

/-- The highest words in which they differ decide. -/
theorem value_lt_iff (hne : word ws k ≠ word vs k)
    (h : value (ws.drop (k + 1)) = value (vs.drop (k + 1))) :
    value ws < value vs ↔ word ws k < word vs k := by
  have hws := value_drop_eq k ws
  have hvs := value_drop_eq k vs
  rw [value_drop, h] at hws
  rw [value_drop] at hvs
  have hnat : (word ws k).toNat ≠ (word vs k).toNat := fun heq => hne (BitVec.eq_of_toNat_eq heq)
  rw [BitVec.lt_def]
  constructor
  · intro hlt
    have hdiv := Nat.div_le_div_right (c := 2 ^ (w * k)) (Nat.le_of_lt hlt)
    omega
  · intro hlt
    have hdiv : value ws / 2 ^ (w * k) < value vs / 2 ^ (w * k) := by omega
    exact Nat.lt_of_div_lt_div hdiv

theorem size_eq_add_size {n : Nat} (h : n / 2 ^ k ≠ 0) : n.size = k + (n / 2 ^ k).size := by
  have hpos := Nat.two_pow_pos k
  have hsize : 0 < (n / 2 ^ k).size := Nat.size_pos.mpr (Nat.pos_of_ne_zero h)
  apply Nat.le_antisymm
  · rw [Nat.size_le, Nat.pow_add, Nat.mul_comm, ← Nat.div_lt_iff_lt_mul hpos]
    exact Nat.lt_size_self _
  · have hlow : 2 ^ ((n / 2 ^ k).size - 1) ≤ n / 2 ^ k := Nat.lt_size.mp (by omega)
    have hlt : k + ((n / 2 ^ k).size - 1) < n.size := by
      rw [Nat.lt_size, Nat.pow_add]
      exact Nat.le_trans (Nat.mul_le_mul_left _ hlow) (Nat.mul_div_le n _)
    omega

/-- The size of the number, by its highest word. -/
theorem size_value (hne : word ws k ≠ 0) (h : value (ws.drop (k + 1)) = 0) :
    (value ws).size = w * k + (word ws k).toNat.size := by
  have hdiv := value_drop_eq k ws
  rw [h, Nat.mul_zero, Nat.zero_add, value_drop] at hdiv
  rw [size_eq_add_size (k := w * k), hdiv]
  rw [hdiv]
  exact fun hzero => hne (BitVec.eq_of_toNat_eq hzero)

theorem bit_of_size_le (hw : 0 < w) (h : (value ws).size ≤ i) : bit ws i = false := by
  rw [← testBit_value hw]
  exact Nat.testBit_lt_two_pow (Nat.size_le.mp h)

theorem bit_size_sub_one (hw : 0 < w) (h : 0 < (value ws).size) :
    bit ws ((value ws).size - 1) = true := by
  have hlow : 2 ^ ((value ws).size - 1) ≤ value ws := Nat.lt_size.mp (by omega)
  have hhigh : value ws < 2 ^ ((value ws).size - 1 + 1) := by
    rw [Nat.sub_add_cancel h]
    exact Nat.lt_size_self _
  rw [← testBit_value hw, Nat.testBit_eq_decide_div_mod_eq,
    Nat.div_eq_of_lt_le (by rwa [Nat.one_mul]) (by rwa [Nat.pow_succ, Nat.mul_comm] at hhigh)]
  rfl

theorem size_le_iff (hw : 0 < w) : (value ws).size ≤ k ↔ ∀ i, k ≤ i → bit ws i = false := by
  refine ⟨fun h i hi => bit_of_size_le hw (Nat.le_trans h hi), fun h => ?_⟩
  rw [← Nat.not_lt]
  intro hlt
  have htop : bit ws ((value ws).size - 1) = true := bit_size_sub_one hw (by omega)
  rw [h _ (by omega)] at htop
  cases htop

end WordArray
