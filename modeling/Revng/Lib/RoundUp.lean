import Mathlib.Algebra.Order.Group.Nat

/-!
# Rounding up

`roundUp n a` is the first multiple of `a` from `n` on.  Of two powers of two one divides the other, so
that a multiple of one of them stays so when it is rounded up to the other (`dvd_roundUp_of_dvd`).
-/

namespace RoundUp

variable {a b k m n : ℕ}

def roundUp (n a : ℕ) : ℕ := (n + a - 1) / a * a

theorem dvd_roundUp (n a : ℕ) : a ∣ roundUp n a := Nat.dvd_mul_left a _

theorem le_roundUp (n : ℕ) (ha : 0 < a) : n ≤ roundUp n a := by
  have hdiv : (n + a - 1) % a + (n + a - 1) / a * a = n + a - 1 := by
    rw [Nat.mul_comm]
    exact Nat.mod_add_div _ _
  have hmod : (n + a - 1) % a < a := Nat.mod_lt _ ha
  unfold roundUp
  omega

theorem roundUp_lt (n : ℕ) (ha : 0 < a) : roundUp n a < n + a := by
  have hdiv : (n + a - 1) / a * a ≤ n + a - 1 := Nat.div_mul_le_self _ _
  unfold roundUp
  omega

theorem roundUp_le (hn : n ≤ m) (ham : a ∣ m) : roundUp n a ≤ m := by
  obtain ⟨q, rfl⟩ := ham
  rcases Nat.eq_zero_or_pos a with rfl | ha
  · simp [roundUp]
  · have hlt : n + a - 1 < a * (q + 1) := by
      rw [Nat.mul_add]
      omega
    have hq : (n + a - 1) / a < q + 1 := Nat.div_lt_of_lt_mul hlt
    calc roundUp n a = a * ((n + a - 1) / a) := Nat.mul_comm _ _
      _ ≤ a * q := Nat.mul_le_mul_left a (Nat.le_of_lt_succ hq)

theorem roundUp_of_dvd (ha : 0 < a) (hn : a ∣ n) : roundUp n a = n :=
  Nat.le_antisymm (roundUp_le le_rfl hn) (le_roundUp n ha)

/-- Where the multiple lies below `m`, which is one as well, it is reached without passing `m`. -/
theorem add_le_of_roundUp_lt (ha : 0 < a) (ham : a ∣ m) (h : roundUp n a < m) : n + a ≤ m := by
  have hle : roundUp n a + a ≤ m := by
    obtain ⟨q, hq⟩ := dvd_roundUp n a
    obtain ⟨p, rfl⟩ := ham
    rw [hq] at h ⊢
    have hlt : q < p := Nat.lt_of_mul_lt_mul_left h
    calc a * q + a = a * (q + 1) := (Nat.mul_succ a q).symm
      _ ≤ a * p := Nat.mul_le_mul_left a hlt
  have hn : n ≤ roundUp n a := le_roundUp n ha
  omega

/-! ## Powers of two -/

theorem dvd_of_le (ha : a.isPowerOfTwo) (hb : b.isPowerOfTwo) (hab : a ≤ b) : a ∣ b := by
  obtain ⟨i, rfl⟩ := ha
  obtain ⟨j, rfl⟩ := hb
  exact Nat.pow_dvd_pow 2 ((Nat.pow_le_pow_iff_right (by decide)).1 hab)

/-- The multiples of a smaller power of two stay so when they are rounded up. -/
theorem dvd_roundUp_of_dvd (ha : a.isPowerOfTwo) (hb : b.isPowerOfTwo) (hn : a ∣ n) :
    a ∣ roundUp n b := by
  rcases Nat.le_total a b with h | h
  · exact Nat.dvd_trans (dvd_of_le ha hb h) (dvd_roundUp n b)
  · have hdvd : b ∣ n := Nat.dvd_trans (dvd_of_le hb ha h) hn
    rwa [roundUp_of_dvd (Nat.pos_of_isPowerOfTwo hb) hdvd]

/-- Masking off the low bits rounds down. -/
theorem and_two_pow_sub {w : ℕ} (hn : n < 2 ^ w) (hk : k ≤ w) :
    n &&& (2 ^ w - 2 ^ k) = n / 2 ^ k * 2 ^ k := by
  have hlt : 2 ^ k - 1 < 2 ^ w :=
    Nat.lt_of_lt_of_le (Nat.sub_one_lt (Nat.two_pow_pos k).ne') (Nat.pow_le_pow_right (by decide) hk)
  have hmask : 2 ^ w - 2 ^ k = 2 ^ w - (2 ^ k - 1 + 1) := by
    rw [Nat.sub_add_cancel (Nat.two_pow_pos k)]
  refine Nat.eq_of_testBit_eq fun i => ?_
  rw [Nat.testBit_and, hmask, Nat.testBit_two_pow_sub_succ hlt, Nat.testBit_two_pow_sub_one,
    Nat.testBit_mul_two_pow, Nat.testBit_div_two_pow]
  rcases Nat.lt_or_ge i k with h | h
  · simp [h, Nat.not_le_of_lt h]
  · rw [Nat.sub_add_cancel h]
    rcases Nat.lt_or_ge i w with hw | hw
    · simp [h, hw, Nat.not_lt_of_le h]
    · have hbit : n.testBit i = false :=
        Nat.testBit_lt_two_pow (Nat.lt_of_lt_of_le hn (Nat.pow_le_pow_right (by decide) hw))
      simp [hbit]

/-- How a machine word is rounded up, where that does not pass the largest one. -/
theorem add_and_two_pow_sub {w : ℕ} (ha : a.isPowerOfTwo) (haw : a ≤ 2 ^ w)
    (h : roundUp n a < 2 ^ w) : (n + a - 1) % 2 ^ w &&& (2 ^ w - a) = roundUp n a := by
  have hpos : 0 < a := Nat.pos_of_isPowerOfTwo ha
  have hle : n + a ≤ 2 ^ w := add_le_of_roundUp_lt hpos (dvd_of_le ha ⟨w, rfl⟩ haw) h
  have hlt : n + a - 1 < 2 ^ w := by omega
  obtain ⟨k, rfl⟩ := ha
  rw [Nat.mod_eq_of_lt hlt, and_two_pow_sub hlt ((Nat.pow_le_pow_iff_right (by decide)).1 haw)]
  rfl

end RoundUp
