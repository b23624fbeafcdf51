import Mathlib.Data.Int.ModEq
import Mathlib.Tactic.Ring

/-!
# Repeated elements

A repetition has one element after the other, in steps of a stride that is at least as large as the
element.  One repetition holds another one if it has an element around each of its elements
(`Holds.exists_index`).  Two repetitions with one stride are held by a third one after the first
one is moved down, so that the starts of the elements match (`Aligned.join`).
-/

namespace Repetitions

structure Repetition where
  start : Nat
  stride : Nat
  count : Nat
  element : Nat
  element_pos : 0 < element
  element_le : element ≤ stride
  count_pos : 0 < count

variable {a b c : Repetition}

/-- The end of the last element. -/
def Repetition.stop (a : Repetition) : Nat := a.start + a.stride * (a.count - 1) + a.element

theorem Repetition.stride_pos (a : Repetition) : 0 < a.stride := a.element_pos.trans_le a.element_le

theorem Repetition.start_lt_stop (a : Repetition) : a.start < a.stop := by
  have hpos := a.element_pos
  unfold Repetition.stop
  omega

/-! ## Steps -/

/-- How many steps lead over a distance. -/
def steps (distance stride : Nat) : Nat :=
  distance / stride + if distance % stride = 0 then 0 else 1

theorem steps_eq {stride count rest : Nat} (hpos : 0 < rest) (hle : rest ≤ stride) :
    steps (stride * count + rest) stride = count + 1 := by
  have hstride : 0 < stride := hpos.trans_le hle
  rcases Nat.lt_or_eq_of_le hle with hlt | rfl
  · rw [steps, Nat.mul_add_div hstride, Nat.div_eq_of_lt hlt, Nat.mul_add_mod,
      Nat.mod_eq_of_lt hlt, if_neg hpos.ne', Nat.add_zero]
  · rw [steps, ← Nat.mul_succ, Nat.mul_div_cancel_left _ hstride, Nat.mul_mod_right, if_pos rfl]

theorem mul_steps_sub_one_le (distance stride : Nat) :
    stride * (steps distance stride - 1) ≤ distance := by
  have hmul := Nat.mul_div_le distance stride
  unfold steps
  split
  · exact (Nat.mul_le_mul_left _ (Nat.sub_le _ _)).trans hmul
  · exact hmul

/-- The distance to the end of `b` from a start that is aligned with some part of its elements. -/
theorem steps_stop {start skipped : Nat} (before : Nat)
    (hstart : b.start = start + b.stride * skipped + before) (hfits : before + b.element ≤ b.stride) :
    steps (b.stop - start) b.stride = skipped + b.count := by
  have hpos := b.element_pos
  have hdistance : b.stop - start =
      b.stride * (skipped + (b.count - 1)) + (before + b.element) := by
    rw [Repetition.stop, hstart, Nat.mul_add]
    omega
  rw [hdistance, steps_eq (Nat.add_pos_right _ hpos) hfits, Nat.add_assoc,
    Nat.sub_add_cancel b.count_pos]

/-! ## Elements inside of elements -/

/-- Each element of `b` is inside of one of `a`, at the same place. -/
structure Holds (a b : Repetition) : Prop where
  stride : a.stride = b.stride
  start_le : a.start ≤ b.start
  element_le : (b.start - a.start) % a.stride + b.element ≤ a.element
  stop_le : b.stop ≤ a.stop

theorem Holds.refl (a : Repetition) : Holds a a where
  stride := rfl
  start_le := le_rfl
  element_le := by rw [Nat.sub_self, Nat.zero_mod, Nat.zero_add]
  stop_le := le_rfl

theorem Holds.trans (h : Holds a b) (h' : Holds b c) : Holds a c where
  stride := h.stride.trans h'.stride
  start_le := h.start_le.trans h'.start_le
  element_le := by
    have hsum : c.start - a.start = (c.start - b.start) + (b.start - a.start) := by
      have hab := h.start_le
      have hbc := h'.start_le
      omega
    have hab := h.element_le
    have hbc := h'.element_le
    rw [← h.stride] at hbc
    have hle := Nat.mod_le ((c.start - b.start) % a.stride + (b.start - a.start) % a.stride) a.stride
    rw [hsum, Nat.add_mod]
    omega
  stop_le := h'.stop_le.trans h.stop_le

theorem Holds.exists_index (h : Holds a b) {j : Nat} (hj : j < b.count) :
    ∃ k < a.count, b.start + j * b.stride =
      a.start + k * a.stride + (b.start - a.start) % a.stride := by
  set skipped := (b.start - a.start) / a.stride with hskipped
  set before := (b.start - a.start) % a.stride with hbefore
  have hstart : b.start = a.start + (a.stride * skipped + before) := by
    rw [hskipped, hbefore, Nat.div_add_mod]
    exact (Nat.add_sub_cancel' h.start_le).symm
  have hsum : a.stride * (skipped + j) = a.stride * skipped + a.stride * j := Nat.mul_add _ _ _
  refine ⟨skipped + j, ?_, ?_⟩
  · -- the element of `b` ends before the last one of `a`
    by_contra hcount
    have hstop := h.stop_le
    have hlast : b.stride * j ≤ b.stride * (b.count - 1) :=
      Nat.mul_le_mul_left _ (Nat.le_sub_one_of_lt hj)
    have hmul : a.stride * a.count ≤ a.stride * (skipped + j) :=
      Nat.mul_le_mul_left _ (Nat.not_lt.mp hcount)
    have hsucc : a.stride * a.count = a.stride * (a.count - 1) + a.stride := by
      rw [← Nat.mul_succ, Nat.succ_eq_add_one, Nat.sub_add_cancel a.count_pos]
    have hle := a.element_le
    have hpos := b.element_pos
    rw [← h.stride] at hlast
    rw [Repetition.stop, Repetition.stop, ← h.stride] at hstop
    omega
  · rw [← h.stride, Nat.mul_comm j, Nat.mul_comm (skipped + j), hsum, hstart]
    omega

/-! ## Two repetitions with one stride -/

/-- `a` can be moved down by `shift`, to where its elements start like those of `b`. -/
structure Aligned (a b : Repetition) (shift : Nat) : Prop where
  stride : a.stride = b.stride
  shift_le : shift ≤ a.start
  element_le : a.element + shift ≤ a.stride
  aligned : a.start ≡ b.start + shift [MOD a.stride]

section Join

variable {shift : Nat} (h : Aligned a b shift)
include h

theorem Aligned.shift_lt : shift < a.stride := by
  have hle := h.element_le
  have hpos := a.element_pos
  omega

/-- How many elements of the joined repetition are before those of `a` and `b`. -/
theorem Aligned.exists_skipped : ∃ i j,
    a.start = min (a.start - shift) b.start + a.stride * i + shift ∧
      b.start = min (a.start - shift) b.start + a.stride * j := by
  have hshift := h.shift_le
  have haligned : a.start - shift ≡ b.start [MOD a.stride] := by
    refine Nat.ModEq.add_right_cancel' shift ?_
    rw [Nat.sub_add_cancel hshift]
    exact h.aligned
  rcases Nat.le_total (a.start - shift) b.start with hle | hle
  · obtain ⟨j, hj⟩ := (Nat.modEq_iff_dvd' hle).mp haligned
    refine ⟨0, j, ?_, ?_⟩ <;> rw [min_eq_left hle] <;> omega
  · obtain ⟨i, hi⟩ := (Nat.modEq_iff_dvd' hle).mp haligned.symm
    refine ⟨i, 0, ?_, ?_⟩ <;> rw [min_eq_right hle] <;> omega

end Join

/-- What holds both repetitions after `a` was moved. -/
def Aligned.join {shift : Nat} (h : Aligned a b shift) : Repetition where
  start := min (a.start - shift) b.start
  stride := a.stride
  count := max (steps (a.stop - min (a.start - shift) b.start) a.stride)
    (steps (b.stop - min (a.start - shift) b.start) a.stride)
  element := max (a.element + shift) b.element
  element_pos := lt_max_of_lt_right b.element_pos
  element_le := max_le h.element_le (h.stride ▸ b.element_le)
  count_pos := by
    obtain ⟨i, -, hi, -⟩ := h.exists_skipped
    rw [steps_stop shift hi (by rw [Nat.add_comm]; exact h.element_le)]
    exact lt_max_of_lt_left (Nat.add_pos_right _ a.count_pos)

/-- `a` holds what starts in its elements and has no more of them. -/
theorem holds_of_skipped {skipped : Nat} (before : Nat) (hstride : a.stride = b.stride)
    (hstart : b.start = a.start + a.stride * skipped + before) (hbefore : before < a.stride)
    (helement : before + b.element ≤ a.element) (hcount : skipped + b.count ≤ a.count) :
    Holds a b where
  stride := hstride
  start_le := by omega
  element_le := by
    have hdistance : b.start - a.start = a.stride * skipped + before := by omega
    rwa [hdistance, Nat.mul_add_mod, Nat.mod_eq_of_lt hbefore]
  stop_le := by
    have hpos := b.count_pos
    have hmul : a.stride * (skipped + (b.count - 1)) ≤ a.stride * (a.count - 1) :=
      Nat.mul_le_mul_left _ (by omega)
    rw [Nat.mul_add] at hmul
    rw [Repetition.stop, Repetition.stop, hstart, ← hstride]
    omega

section Join

variable {shift : Nat} (h : Aligned a b shift)
include h

theorem Aligned.holds_left : Holds h.join a := by
  obtain ⟨i, -, hi, -⟩ := h.exists_skipped
  have hsteps := steps_stop shift hi (by rw [Nat.add_comm]; exact h.element_le)
  refine holds_of_skipped shift rfl hi h.shift_lt ?_ (hsteps ▸ le_max_left _ _)
  rw [Nat.add_comm]
  exact le_max_left _ _

theorem Aligned.holds_right : Holds h.join b := by
  obtain ⟨-, j, -, hj⟩ := h.exists_skipped
  have hle := b.element_le
  have hsteps : steps (b.stop - h.join.start) a.stride = j + b.count := by
    rw [h.stride]
    refine steps_stop 0 ?_ (by omega)
    rw [← h.stride]
    exact hj
  refine holds_of_skipped 0 h.stride hj (Nat.zero_lt_of_lt h.shift_lt) ?_
    (hsteps ▸ le_max_right _ _)
  rw [Nat.zero_add]
  exact le_max_right _ _

/-- The elements end where those of `a` or those of `b` do. -/
theorem Aligned.max_stop_le : max a.stop b.stop ≤ h.join.stop :=
  max_le h.holds_left.stop_le h.holds_right.stop_le

theorem Aligned.stop_le : h.join.stop ≤ max a.stop b.stop + a.stride := by
  have hlast : ∀ c : Repetition, h.join.start ≤ c.stop →
      h.join.start + a.stride * (steps (c.stop - h.join.start) a.stride - 1) ≤ c.stop :=
    fun c hle => by
      have hmul := mul_steps_sub_one_le (c.stop - h.join.start) a.stride
      omega
  have ha := hlast a (h.holds_left.start_le.trans a.start_lt_stop.le)
  have hb := hlast b (h.holds_right.start_le.trans b.start_lt_stop.le)
  have helement : h.join.element ≤ a.stride := h.join.element_le
  have hcount : h.join.start + a.stride * (h.join.count - 1) ≤ max a.stop b.stop := by
    rcases max_choice (steps (a.stop - h.join.start) a.stride)
      (steps (b.stop - h.join.start) a.stride) with hmax | hmax
    · rw [show h.join.count = _ from hmax]
      exact ha.trans (le_max_left _ _)
    · rw [show h.join.count = _ from hmax]
      exact hb.trans (le_max_right _ _)
  exact Nat.add_le_add hcount helement

end Join

theorem modEq_add_mul (x stride k : Nat) : x + stride * k ≡ x [MOD stride] :=
  (Nat.modEq_iff_dvd' (Nat.le_add_right _ _)).mpr ⟨k, Nat.add_sub_cancel_left _ _⟩ |>.symm

theorem Aligned.stop_modEq {shift : Nat} (h : Aligned a b shift) :
    h.join.stop ≡ b.start + h.join.element [MOD a.stride] := by
  obtain ⟨-, j, -, hj⟩ := h.exists_skipped
  have hstart : b.start ≡ h.join.start [MOD a.stride] := by
    rw [hj]
    exact modEq_add_mul _ _ _
  exact (modEq_add_mul h.join.start a.stride _).trans hstart.symm |>.add_right _

/-- The ways down from `a` to `b` and back are a stride together. -/
theorem Aligned.shift_add_shift {shift shift' : Nat} (h : Aligned a b shift)
    (h' : Aligned b a shift') (hpos : 0 < shift) : shift + shift' = a.stride := by
  have haligned := h'.aligned
  rw [← h.stride] at haligned
  have hround : a.start + 0 ≡ a.start + (shift' + shift) [MOD a.stride] := by
    rw [Nat.add_zero, ← Nat.add_assoc]
    exact h.aligned.trans (haligned.add_right shift)
  have hzero : shift' + shift ≡ 0 [MOD a.stride] := (Nat.ModEq.add_left_cancel' _ hround).symm
  obtain ⟨k, hk⟩ := (Nat.modEq_zero_iff_dvd).mp hzero
  have hlt := h.shift_lt
  have hlt' := h'.shift_lt
  rw [← h.stride] at hlt'
  have hone : k = 1 := by
    have hupper : a.stride * k < a.stride * 2 := by omega
    have hlower : 0 < a.stride * k := by omega
    have h2 := Nat.lt_of_mul_lt_mul_left hupper
    have h0 := Nat.pos_of_mul_pos_left hlower
    omega
  rw [hone, Nat.mul_one] at hk
  omega

/-- Two repetitions that are not aligned yet cannot be moved down to each other in both ways and end
at the same place. -/
theorem Aligned.stop_ne {shift shift' : Nat} (h : Aligned a b shift) (h' : Aligned b a shift')
    (hpos : 0 < shift) : h.join.stop ≠ h'.join.stop := by
  intro hstop
  have hsum := h.shift_add_shift h' hpos
  have hle := h.element_le
  have hle' := h'.element_le
  rw [← h.stride] at hle'
  have hapos := a.element_pos
  have hbpos := b.element_pos
  have helement : h.join.element = a.element + shift := max_eq_left (by omega)
  have helement' : h'.join.element = b.element + shift' := max_eq_left (by omega)
  have hmod := h.stop_modEq
  have hmod' := h'.stop_modEq
  rw [helement] at hmod
  rw [helement', ← h.stride] at hmod'
  have hwrap : a.start + (b.element + shift') ≡ b.start + b.element [MOD a.stride] := by
    have hmoved := h.aligned.add_right (b.element + shift')
    have hstride : b.start + shift + (b.element + shift') = b.start + b.element + a.stride * 1 := by
      omega
    rw [hstride] at hmoved
    exact hmoved.trans (modEq_add_mul _ _ _)
  rw [hstop] at hmod
  have hends : b.element ≡ a.element + shift [MOD a.stride] :=
    Nat.ModEq.add_left_cancel' b.start (hwrap.symm.trans (hmod'.symm.trans hmod))
  have hdvd := (Nat.modEq_iff_dvd' (by omega)).mp hends
  have hfull := Nat.le_of_dvd (by omega) hdvd
  omega

end Repetitions
