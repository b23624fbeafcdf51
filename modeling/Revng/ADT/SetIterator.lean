import Revng.ADT.Constructions

/-!
# Iterating over a constant range set

The iterator counts up from a bound to the next one, where it goes on with the range after
it.  The count wraps at the maximum value: a range that does not end above its start is
walked through the top of the word.  So the members are visited, each once and in order,
exactly when the ranges are in order (`enumerates_iff`).
-/

namespace ADT

open SortedMerge Toggles

/-- The next `n` values from `x`, around the top of the word. -/
def APInt.upFrom (x : APInt) (n : Nat) : List APInt :=
  (List.range n).map fun i => .ofNat x.bitWidth (x.value + i)

/-- `NextBound` is the list of the bounds from there to `End`. -/
structure ConstantRangeSetIterator where
  current : APInt
  nextBound : List APInt
  toLast : Bool
  done : Bool

namespace ConstantRangeSetIterator

/-- The constructor, on the bounds from `Start` to `End`. -/
def ofBounds : List APInt → ConstantRangeSetIterator
  | [] => ⟨.ofNat 1 0, [], false, true⟩
  | start :: bounds => ⟨start, bounds, bounds.isEmpty, false⟩

/-- `operator++`. -/
def increment (it : ConstantRangeSetIterator) : Option ConstantRangeSetIterator := do
  guard (it.done = false)
  if it.toLast && it.current.isMaxValue then return { it with done := true }
  let current := it.current.increment
  if it.toLast then return { it with current }
  match it.nextBound with
  | [] => none
  | bound :: bounds =>
      if ← current.equal bound then
        match bounds with
        | start :: bounds =>
            return { it with current := start, nextBound := bounds, toLast := bounds.isEmpty }
        | [] => return { it with current, nextBound := [], done := true }
      else return { it with current }

/-- `operator==`. -/
def equal (it other : ConstantRangeSetIterator) : Option Bool := do
  guard (it.done || other.done)
  return it.done == other.done

/-- The values that a loop from an iterator to an end visits. -/
def walk (stop : ConstantRangeSetIterator) : (fuel : Nat) → ConstantRangeSetIterator →
    Option (List APInt)
  | 0, it => do
      guard (← it.equal stop)
      return []
  | fuel + 1, it => do
      if ← it.equal stop then return []
      return it.current :: (← walk stop fuel (← it.increment))

/-! ## One range -/

variable {stop : ConstantRangeSetIterator} (hstop : stop.done = true)
include hstop

theorem equal_stop (it : ConstantRangeSetIterator) : it.equal stop = some it.done := by
  simp [equal, hstop]

variable {it : ConstantRangeSetIterator}

theorem walk_of_done (h : it.done = true) (fuel : Nat) : walk stop fuel it = some [] := by
  cases fuel <;> simp [walk, equal_stop hstop, h]

theorem walk_zero (h : it.done = false) : walk stop 0 it = none := by
  simp [walk, equal_stop hstop, h]

theorem walk_succ (h : it.done = false) (fuel : Nat) :
    walk stop (fuel + 1) it =
      it.increment.bind fun next => (walk stop fuel next).map (it.current :: ·) := by
  simp only [walk, equal_stop hstop, h, Option.bind_eq_bind, Option.bind_some, Bool.false_eq_true,
    if_false]
  cases it.increment with
  | none => rfl
  | some next =>
    simp only [Option.bind_some]
    cases walk stop fuel next <;> rfl

/-- More fuel does not change the values. -/
theorem walk_mono {fuel fuel' : Nat} (hle : fuel ≤ fuel') {xs : List APInt}
    (h : walk stop fuel it = some xs) : walk stop fuel' it = some xs := by
  induction fuel generalizing fuel' it xs with
  | zero =>
    cases hdone : it.done with
    | true => rwa [walk_of_done hstop hdone] at h ⊢
    | false => rw [walk_zero hstop hdone] at h; cases h
  | succ fuel ih =>
    obtain ⟨fuel', rfl⟩ := Nat.exists_eq_add_of_le' (show 1 ≤ fuel' by omega)
    cases hdone : it.done with
    | true => rwa [walk_of_done hstop hdone] at h ⊢
    | false =>
      rw [walk_succ hstop hdone] at h ⊢
      obtain ⟨next, hnext, h⟩ := Option.bind_eq_some_iff.mp h
      obtain ⟨ys, hys, rfl⟩ := Option.map_eq_some_iff.mp h
      rw [hnext, Option.bind_some, ih (by omega) hys, Option.map_some]

omit hstop in
theorem upFrom_succ (x : APInt) (n : Nat) : x.upFrom (n + 1) = x :: x.increment.upFrom n := by
  have hhead : APInt.ofNat x.bitWidth (x.value + 0) = x := x.ofNat_value
  simp only [APInt.upFrom, List.range_succ_eq_map, List.map_cons, hhead, List.map_map]
  refine congrArg (x :: ·) (List.map_congr_left fun i _ => APInt.ext rfl ?_)
  simp only [Function.comp_apply, APInt.increment, APInt.ofNat, Nat.mod_add_mod]
  congr 1
  omega

variable {x : APInt}

/-- A last range without an end is walked up to the maximum value. -/
theorem walk_toLast {n : Nat} (hn : x.value + n = 2 ^ x.bitWidth) :
    walk stop n ⟨x, [], true, false⟩ = some (x.upFrom n) := by
  induction n generalizing x with
  | zero =>
    have hlt := x.isLt
    omega
  | succ n ih =>
    rw [walk_succ hstop rfl, upFrom_succ]
    by_cases hmax : x.value = 2 ^ x.bitWidth - 1
    · obtain rfl : n = 0 := by omega
      have hstep : (⟨x, [], true, false⟩ : ConstantRangeSetIterator).increment
          = some ⟨x, [], true, true⟩ := by
        simp [increment, APInt.isMaxValue, hmax]
      rw [hstep, Option.bind_some, walk_of_done hstop rfl]
      rfl
    · have hstep : (⟨x, [], true, false⟩ : ConstantRangeSetIterator).increment
          = some ⟨x.increment, [], true, false⟩ := by
        simp [increment, APInt.isMaxValue, hmax]
      have hlt := x.isLt
      have hvalue : x.increment.value = x.value + 1 := APInt.value_ofNat_of_lt (by omega)
      have hwidth : x.increment.bitWidth = x.bitWidth := rfl
      rw [hstep, Option.bind_some, ih (by rw [hvalue, hwidth]; omega)]
      rfl

variable {b : APInt}

/-- At the next bound the iterator goes on as one that starts after it. -/
theorem increment_at_bound (rest : List APInt) (hw : x.bitWidth = b.bitWidth)
    (hb : x.increment.value = b.value) :
    ∃ next, (⟨x, b :: rest, false, false⟩ : ConstantRangeSetIterator).increment = some next ∧
      ∀ fuel, walk stop fuel next = walk stop fuel (ofBounds rest) := by
  have hw' : x.increment.bitWidth = b.bitWidth := hw
  cases rest with
  | nil =>
    refine ⟨⟨x.increment, [], false, true⟩, by simp [increment, APInt.equal, hw', hb], ?_⟩
    intro fuel
    rw [walk_of_done hstop rfl, walk_of_done hstop rfl]
  | cons c cs =>
    exact ⟨ofBounds (c :: cs), by simp [increment, APInt.equal, hw', hb, ofBounds],
      fun _ => rfl⟩

variable {rest : List APInt}

omit hstop in
theorem increment_before_bound (hw : x.bitWidth = b.bitWidth) (hb : x.increment.value ≠ b.value) :
    (⟨x, b :: rest, false, false⟩ : ConstantRangeSetIterator).increment
      = some ⟨x.increment, b :: rest, false, false⟩ := by
  have hw' : x.increment.bitWidth = b.bitWidth := hw
  simp [increment, APInt.equal, hw', hb]

/-- The values up to the next bound, which is met after `n` steps. -/
theorem walk_range (hw : x.bitWidth = b.bitWidth) {n : Nat} (hpos : 0 < n)
    (hb : (x.value + n) % 2 ^ b.bitWidth = b.value)
    (hbefore : ∀ i, 0 < i → i < n → (x.value + i) % 2 ^ b.bitWidth ≠ b.value) (fuel : Nat) :
    walk stop (n + fuel) ⟨x, b :: rest, false, false⟩ =
      (walk stop fuel (ofBounds rest)).map (x.upFrom n ++ ·) := by
  induction n generalizing x with
  | zero => omega
  | succ n ih =>
    have hvalue : x.increment.value = (x.value + 1) % 2 ^ b.bitWidth := by
      rw [← hw]
      rfl
    rw [show n + 1 + fuel = n + fuel + 1 by omega, walk_succ hstop rfl, upFrom_succ]
    rcases Nat.eq_zero_or_pos n with rfl | hn
    · obtain ⟨next, hnext, hwalk⟩ :=
        increment_at_bound hstop rest hw (hvalue.trans hb)
      rw [hnext, Option.bind_some, hwalk, Nat.zero_add]
      rfl
    · have hne : x.increment.value ≠ b.value := hvalue ▸ hbefore 1 (by omega) (by omega)
      rw [increment_before_bound hw hne, Option.bind_some, ih (x := x.increment) hw hn]
      · simp [Option.map_map, Function.comp_def]
      · rw [hvalue, Nat.mod_add_mod, ← hb]
        congr 1
        omega
      · intro i hi hin
        rw [hvalue, Nat.mod_add_mod]
        have := hbefore (i + 1) (by omega) (by omega)
        rwa [Nat.add_assoc, Nat.add_comm 1 i]

/-! ## All ranges -/

/-- The steps from a bound to the next one, around the top of the word if it is not above. -/
def distance (a b : APInt) : Nat :=
  if a.value < b.value then b.value - a.value else 2 ^ b.bitWidth - a.value + b.value

/-- The values of all ranges. -/
def visited : List APInt → List APInt
  | [] => []
  | [a] => a.upFrom (2 ^ a.bitWidth - a.value)
  | a :: b :: bounds => a.upFrom (distance a b) ++ visited bounds

/-- The two bounds of a range have one width. -/
def PairWidths : List APInt → Prop
  | a :: b :: bounds => a.bitWidth = b.bitWidth ∧ PairWidths bounds
  | _ => True

variable {a : APInt}

theorem walk_cons_cons (hw : a.bitWidth = b.bitWidth) (rest : List APInt) (fuel : Nat) :
    walk stop (distance a b + fuel) (ofBounds (a :: b :: rest)) =
      (walk stop fuel (ofBounds rest)).map (a.upFrom (distance a b) ++ ·) := by
  have ha := a.isLt
  have hb := b.isLt
  rw [hw] at ha
  refine walk_range hstop hw ?_ ?_ (fun i hi hin => ?_) fuel
  · rw [distance]
    split <;> omega
  · rw [distance]
    split
    · rw [Nat.add_sub_cancel' (by omega), Nat.mod_eq_of_lt hb]
    · rw [show a.value + (2 ^ b.bitWidth - a.value + b.value) = 2 ^ b.bitWidth + b.value by omega,
        Nat.add_mod_left, Nat.mod_eq_of_lt hb]
  · rw [distance] at hin
    split at hin
    · rw [Nat.mod_eq_of_lt (by omega)]
      omega
    · by_cases hlt : a.value + i < 2 ^ b.bitWidth
      · rw [Nat.mod_eq_of_lt hlt]
        omega
      · rw [Nat.mod_eq_sub_mod (by omega), Nat.mod_eq_of_lt (by omega)]
        omega

/-- The first step from a bound compares widths with the next one. -/
theorem width_of_walk {fuel : Nat} {xs : List APInt}
    (h : walk stop fuel (ofBounds (a :: b :: rest)) = some xs) : a.bitWidth = b.bitWidth := by
  cases fuel with
  | zero => rw [walk_zero hstop rfl] at h; cases h
  | succ fuel =>
    rw [walk_succ hstop rfl] at h
    obtain ⟨next, hnext, -⟩ := Option.bind_eq_some_iff.mp h
    by_contra hne
    have hne' : a.increment.bitWidth ≠ b.bitWidth := hne
    simp [increment, ofBounds, APInt.equal, hne'] at hnext

theorem eq_visited_of_walk : ∀ {bounds : List APInt} {fuel : Nat} {xs : List APInt},
    walk stop fuel (ofBounds bounds) = some xs → xs = visited bounds ∧ PairWidths bounds
  | [], fuel, xs, h => by
      rw [walk_of_done hstop rfl] at h
      cases h
      exact ⟨rfl, trivial⟩
  | [a], fuel, xs, h => by
      have ha := a.isLt
      have hall := walk_toLast hstop (x := a) (n := 2 ^ a.bitWidth - a.value) (by omega)
      have hsame := walk_mono hstop (Nat.le_add_right fuel (2 ^ a.bitWidth - a.value)) h
      have hall' := walk_mono hstop (Nat.le_add_left (2 ^ a.bitWidth - a.value) fuel) hall
      exact ⟨Option.some.inj (hsame.symm.trans hall'), trivial⟩
  | a :: b :: rest, fuel, xs, h => by
      have hw := width_of_walk hstop h
      have hmono := walk_mono hstop (Nat.le_add_left fuel (distance a b)) h
      rw [walk_cons_cons hstop hw] at hmono
      obtain ⟨ys, hys, rfl⟩ := Option.map_eq_some_iff.mp hmono
      obtain ⟨rfl, hrest⟩ := eq_visited_of_walk hys
      exact ⟨rfl, hw, hrest⟩

theorem exists_walk : ∀ {bounds : List APInt}, PairWidths bounds →
    ∃ fuel, walk stop fuel (ofBounds bounds) = some (visited bounds)
  | [], _ => ⟨0, walk_of_done hstop rfl 0⟩
  | [a], _ => by
      have ha := a.isLt
      exact ⟨2 ^ a.bitWidth - a.value, walk_toLast hstop (by omega)⟩
  | a :: b :: rest, h => by
      obtain ⟨fuel, hfuel⟩ := exists_walk h.2
      exact ⟨distance a b + fuel, by rw [walk_cons_cons hstop h.1, hfuel]; rfl⟩

omit hstop

variable {w : Nat}

theorem pairWidths_of_forall : ∀ {bounds : List APInt},
    (∀ b ∈ bounds, b.bitWidth = w) → PairWidths bounds
  | [], _ => trivial
  | [_], _ => trivial
  | a :: b :: rest, h =>
    ⟨(h a (by simp)).trans (h b (by simp)).symm,
      pairWidths_of_forall fun c hc => h c (by simp [hc])⟩

theorem head_mem_upFrom (x : APInt) {n : Nat} (hn : 0 < n) : x ∈ x.upFrom n :=
  List.mem_map.mpr ⟨0, List.mem_range.mpr hn, x.ofNat_value⟩

theorem distance_pos (hw : a.bitWidth = b.bitWidth) : 0 < distance a b := by
  have ha := a.isLt
  rw [hw] at ha
  rw [distance]
  split <;> omega

theorem head_mem_visited (h : PairWidths (a :: rest)) : a ∈ visited (a :: rest) := by
  cases rest with
  | nil => exact head_mem_upFrom a (Nat.sub_pos_of_lt a.isLt)
  | cons b rest => exact List.mem_append_left _ (head_mem_upFrom a (distance_pos h.1))

/-- When the values visited have one width, so have the bounds. -/
theorem forall_width_of_visited : ∀ {bounds : List APInt}, PairWidths bounds →
    (∀ x ∈ visited bounds, x.bitWidth = w) → ∀ b ∈ bounds, b.bitWidth = w
  | [], _, _, b, hb => by simp at hb
  | [a], h, hx, b, hb => by
      obtain rfl := List.mem_singleton.mp hb
      exact hx b (head_mem_visited h)
  | a :: c :: rest, h, hx, b, hb => by
      have ha := hx a (head_mem_visited h)
      rcases List.mem_cons.mp hb with rfl | hb
      · exact ha
      rcases List.mem_cons.mp hb with rfl | hb
      · exact h.1.symm.trans ha
      · exact forall_width_of_visited h.2 (fun x hx' => hx x (List.mem_append_right _ hx')) b hb

theorem width_of_mem_visited : ∀ {bounds : List APInt},
    (∀ b ∈ bounds, b.bitWidth = w) → ∀ x ∈ visited bounds, x.bitWidth = w
  | [], _, x, hx => by simp [visited] at hx
  | [a], hw, x, hx => by
      obtain ⟨i, -, rfl⟩ := List.mem_map.mp hx
      exact hw a (by simp)
  | a :: b :: rest, hw, x, hx => by
      rcases List.mem_append.mp hx with hx | hx
      · obtain ⟨i, -, rfl⟩ := List.mem_map.mp hx
        exact hw a (by simp)
      · exact width_of_mem_visited (fun c hc => hw c (by simp [hc])) x hx

/-! ## Ranges in order -/

theorem map_value_upFrom {n : Nat} (h : x.value + n ≤ 2 ^ x.bitWidth) :
    (x.upFrom n).map APInt.value = List.range' x.value n := by
  rw [APInt.upFrom, List.map_map, List.range'_eq_map_range]
  refine List.map_congr_left fun i hi => APInt.value_ofNat_of_lt ?_
  have hlt := List.mem_range.mp hi
  omega

/-- Ranges in order are walked without going around the top of the word. -/
theorem map_value_visited : ∀ {bounds : List APInt},
    (∀ b ∈ bounds, b.bitWidth = w) → InOrder (bounds.map APInt.value) →
    (visited bounds).map APInt.value = spans (2 ^ w) (bounds.map APInt.value)
  | [], _, _ => rfl
  | [a], hw, _ => by
      have ha := a.isLt
      simp only [visited, List.map_cons, List.map_nil, spans, ← hw a (by simp)]
      exact map_value_upFrom (by omega)
  | a :: b :: rest, hw, hord => by
      have hb := b.isLt
      have hab : a.value < b.value := hord.1
      have hwidth : a.bitWidth = b.bitWidth := (hw a (by simp)).trans (hw b (by simp)).symm
      have ih := map_value_visited (fun c hc => hw c (by simp [hc])) hord.2.2
      simp only [visited, List.map_append, List.map_cons, spans, ih, distance, if_pos hab]
      rw [map_value_upFrom (by rw [hwidth]; omega)]

/-- A range that does not end above its start goes through the maximum value. -/
theorem max_mem_upFrom (hw : a.bitWidth = b.bitWidth) (h : b.value ≤ a.value) :
    .ofNat a.bitWidth (2 ^ a.bitWidth - 1) ∈ a.upFrom (distance a b) := by
  have ha := a.isLt
  refine List.mem_map.mpr ⟨2 ^ a.bitWidth - 1 - a.value, List.mem_range.mpr ?_, ?_⟩
  · rw [distance, if_neg (by omega), ← hw]
    omega
  · rw [show a.value + (2 ^ a.bitWidth - 1 - a.value) = 2 ^ a.bitWidth - 1 by omega]

theorem last_mem_upFrom (h : a.value < b.value) :
    .ofNat a.bitWidth (b.value - 1) ∈ a.upFrom (distance a b) := by
  refine List.mem_map.mpr ⟨b.value - 1 - a.value, List.mem_range.mpr ?_, ?_⟩
  · rw [distance, if_pos h]
    omega
  · rw [show a.value + (b.value - 1 - a.value) = b.value - 1 by omega]

theorem head_le_of_inOrder {a : Nat} : ∀ {bs : List Nat}, InOrder (a :: bs) →
    ∀ b ∈ a :: bs, a ≤ b
  | [], _, b, hb => by simp at hb; omega
  | c :: cs, h, b, hb => by
      rcases List.mem_cons.mp hb with rfl | hb
      · omega
      rcases List.mem_cons.mp hb with rfl | hb
      · exact h.1.le
      · exact h.1.le.trans (h.2.1 b hb)

/-- When the values visited increase and the maximum value is among them only with an open
last range, the ranges are in order. -/
theorem inOrder_of_visited : ∀ {bounds : List APInt},
    (∀ b ∈ bounds, b.bitWidth = w) → (visited bounds).Pairwise (·.value < ·.value) →
    (.ofNat w (2 ^ w - 1) ∈ visited bounds → bounds.length % 2 = 1) →
    InOrder (bounds.map APInt.value)
  | [], _, _, _ => trivial
  | [_], _, _, _ => trivial
  | a :: b :: rest, hw, hasc, hmax => by
      have ha := hw a (by simp)
      have hwidth : a.bitWidth = b.bitWidth := ha.trans (hw b (by simp)).symm
      have hrest : ∀ c ∈ rest, c.bitWidth = w := fun c hc => hw c (by simp [hc])
      obtain ⟨-, hasc', hcross⟩ := List.pairwise_append.mp hasc
      have hab : a.value < b.value := by
        by_contra hnot
        -- the maximum value would be visited before the range that is open
        have hmem := ha ▸ max_mem_upFrom hwidth (not_lt.mp hnot)
        have hodd := hmax (List.mem_append_left _ hmem)
        cases rest with
        | nil => simp at hodd
        | cons c cs =>
          have hlt := hcross _ hmem c (head_mem_visited (pairWidths_of_forall hrest))
          have hc := c.isLt
          rw [APInt.value_ofNat_of_lt (Nat.sub_lt (Nat.two_pow_pos w) Nat.one_pos)] at hlt
          rw [hrest c (by simp)] at hc
          omega
      have ih := inOrder_of_visited hrest hasc' fun hmem => by
        have hodd := hmax (List.mem_append_right _ hmem)
        simp only [List.length_cons] at hodd
        omega
      refine ⟨hab, fun c hc => ?_, ih⟩
      cases rest with
      | nil => simp at hc
      | cons d ds =>
        have hlast := hcross _ (last_mem_upFrom hab) d
          (head_mem_visited (pairWidths_of_forall hrest))
        have hb := b.isLt
        rw [APInt.value_ofNat_of_lt (by rw [hwidth]; omega)] at hlast
        exact le_trans (by omega) (head_le_of_inOrder ih c hc)

end ConstantRangeSetIterator

namespace ConstantRangeSet

open ConstantRangeSetIterator

/-- `begin`. -/
def beginIterator (s : ConstantRangeSet) : ConstantRangeSetIterator := .ofBounds s.bounds

/-- `end`. -/
def endIterator (_ : ConstantRangeSet) : ConstantRangeSetIterator := .ofBounds []

theorem endIterator_done (s : ConstantRangeSet) : s.endIterator.done = true := rfl

/-- Iterating terminates and visits every member once, in increasing order and in as many
steps as the size says. -/
def Enumerates (s : ConstantRangeSet) : Prop :=
  ∃ fuel xs, s.endIterator.walk fuel s.beginIterator = some xs ∧
    xs.Pairwise (·.value < ·.value) ∧ (∀ x, x ∈ xs ↔ x ∈ s.members) ∧
    ∃ n, s.size = some n ∧ n.value = xs.length

theorem enumerates_of_inOrder {s : ConstantRangeSet} (hw : ∀ b ∈ s.bounds, b.bitWidth = s.bitWidth)
    (hord : InOrder s.values) : s.Enumerates := by
  obtain ⟨fuel, hwalk⟩ := exists_walk s.endIterator_done (pairWidths_of_forall hw)
  have hvalues := map_value_visited hw hord
  have hasc := spans_ascending (2 ^ s.bitWidth) hord
  refine ⟨fuel, _, hwalk, ?_, fun x => ?_, _, size_of_inOrder hw hord, ?_⟩
  · rw [values, ← hvalues] at hasc
    exact List.pairwise_map.mp hasc
  · have hspan : x.value ∈ (visited s.bounds).map APInt.value ↔
        x.value < 2 ^ s.bitWidth ∧ isOn s.values x.value = true :=
      hvalues ▸ mem_spans_values hw hord
    constructor
    · intro hx
      exact ⟨width_of_mem_visited hw x hx, (hspan.mp (List.mem_map_of_mem hx)).2⟩
    · intro hx
      obtain ⟨y, hy, hvalue⟩ := List.mem_map.mp (hspan.mpr ⟨hx.1 ▸ x.isLt, hx.2⟩)
      obtain rfl : y = x := APInt.ext ((width_of_mem_visited hw y hy).trans hx.1.symm) hvalue
      exact hy
  · rw [APInt.value_ofNat_of_lt (length_spans_lt hw hord), values, ← hvalues, List.length_map]

theorem inOrder_of_enumerates {s : ConstantRangeSet} (h : s.Enumerates) :
    (∀ b ∈ s.bounds, b.bitWidth = s.bitWidth) ∧ InOrder s.values := by
  obtain ⟨fuel, xs, hwalk, hasc, hmem, -⟩ := h
  obtain ⟨rfl, hpairs⟩ := eq_visited_of_walk s.endIterator_done hwalk
  have hw := forall_width_of_visited hpairs fun x hx => ((hmem x).mp hx).1
  refine ⟨hw, inOrder_of_visited hw hasc fun hmax => ?_⟩
  have hon := ((hmem _).mp hmax).2
  rw [APInt.value_ofNat_of_lt (Nat.sub_lt (Nat.two_pow_pos _) Nat.one_pos), isOn_of_le] at hon
  · simpa [values] using hon
  · intro n hn
    obtain ⟨b, hb, rfl⟩ := List.mem_map.mp hn
    exact Nat.le_sub_one_of_lt (hw b hb ▸ b.isLt)

/-- When iterating visits the members. -/
theorem enumerates_iff (s : ConstantRangeSet) :
    s.Enumerates ↔ (∀ b ∈ s.bounds, b.bitWidth = s.bitWidth) ∧ InOrder s.values :=
  ⟨inOrder_of_enumerates, fun h => enumerates_of_inOrder h.1 h.2⟩

/-- The range `[0, 0x100)` of sixteen bits. -/
def wholeBlock : ConstantRange := ⟨.ofNat 16 0, .ofNat 16 0x100, rfl, by decide⟩

/-- `[0, 0x100)` truncated to eight bits has the bounds 0 and 0: the iterator visits all
integers and the size is zero. -/
theorem not_enumerates : ¬ ∀ (c : Construction) (s : ConstantRangeSet),
    c.run = some s → s.Enumerates := by
  intro h
  have hord := (inOrder_of_enumerates (h (.zextOrTrunc (.ofRange wholeBlock) 8) _ rfl)).2
  exact absurd hord.1 (by decide)

end ConstantRangeSet

end ADT
