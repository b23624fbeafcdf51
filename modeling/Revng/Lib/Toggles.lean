import Mathlib.Algebra.Group.Nat.Defs
import Revng.Lib.SortedMerge

/-!
# Sets as lists of toggles

A list of points of a linear order stands for the set that is off below every point and
changes its state at each of them.  In ascending order the list is determined by the set,
and two sets are combined by following their toggles in parallel.
-/

namespace Toggles

open SortedMerge

section Order

variable {α : Type*} [LinearOrder α]

/-- Whether the set is on at a point: an odd number of toggles are not above it. -/
def isOn : List α → α → Bool
  | [], _ => false
  | b :: bs, x => decide (b ≤ x) ^^ isOn bs x

variable {bs : List α} {x : α}

theorem isOn_of_lt (h : ∀ b ∈ bs, x < b) : isOn bs x = false := by
  induction bs with
  | nil => rfl
  | cons b bs ih =>
    have hb : ¬ b ≤ x := not_le.mpr (h b (by simp))
    simp [isOn, hb, ih fun c hc => h c (by simp [hc])]

/-- Above every toggle only their number matters. -/
theorem isOn_of_le (h : ∀ b ∈ bs, b ≤ x) : isOn bs x = decide (bs.length % 2 = 1) := by
  induction bs with
  | nil => rfl
  | cons b bs ih =>
    have hb : b ≤ x := h b (by simp)
    rw [isOn, ih fun c hc => h c (by simp [hc])]
    rcases Nat.mod_two_eq_zero_or_one bs.length with hmod | hmod
    · simp [hb, hmod, Nat.add_mod]
    · simp [hb, hmod, Nat.add_mod]

theorem isOn_head {b : α} (h : (b :: bs).Pairwise (· < ·)) : isOn (b :: bs) b = true := by
  simp [isOn, isOn_of_lt (List.pairwise_cons.mp h).1]

theorem isOn_append (bs cs : List α) (x : α) :
    isOn (bs ++ cs) x = (isOn bs x ^^ isOn cs x) := by
  induction bs with
  | nil => simp [isOn]
  | cons b bs ih => simp [isOn, ih]

/-- Two ascending lists that agree at all their toggles are equal. -/
theorem eq_of_isOn {cs : List α} (hbs : bs.Pairwise (· < ·)) (hcs : cs.Pairwise (· < ·))
    (h : ∀ x, x ∈ bs ∨ x ∈ cs → isOn bs x = isOn cs x) : bs = cs := by
  induction bs generalizing cs with
  | nil =>
    cases cs with
    | nil => rfl
    | cons c cs =>
      have hc := h c (by simp)
      rw [isOn_head hcs] at hc
      simp [isOn] at hc
  | cons b bs ih =>
    cases cs with
    | nil =>
      have hb := h b (by simp)
      rw [isOn_head hbs] at hb
      simp [isOn] at hb
    | cons c cs =>
      obtain ⟨hb, hbs'⟩ := List.pairwise_cons.mp hbs
      obtain ⟨hc, hcs'⟩ := List.pairwise_cons.mp hcs
      -- below the lower head one list is on and the other one is not
      have hhead : b = c := by
        rcases lt_trichotomy b c with hlt | heq | hlt
        · have hon := h b (by simp)
          have hoff : isOn (c :: cs) b = false :=
            isOn_of_lt fun d hd => (List.mem_cons.mp hd).elim (· ▸ hlt)
              fun hd => hlt.trans (hc d hd)
          rw [isOn_head hbs, hoff] at hon
          cases hon
        · exact heq
        · have hon := h c (by simp)
          have hoff : isOn (b :: bs) c = false :=
            isOn_of_lt fun d hd => (List.mem_cons.mp hd).elim (· ▸ hlt)
              fun hd => hlt.trans (hb d hd)
          rw [isOn_head hcs, hoff] at hon
          cases hon
      subst hhead
      refine congrArg (b :: ·) (ih hbs' hcs' fun x hx => ?_)
      have hx' := h x (hx.imp (List.mem_cons_of_mem b) (List.mem_cons_of_mem b))
      simpa [isOn] using hx'

/-- A map that keeps the order keeps the states. -/
theorem isOn_map {β : Type*} [LinearOrder β] {f : α → β} (hf : ∀ b ∈ bs, f b ≤ f x ↔ b ≤ x) :
    isOn (bs.map f) (f x) = isOn bs x := by
  induction bs with
  | nil => rfl
  | cons b bs ih =>
    simp [isOn, hf b (by simp), ih fun c hc => hf c (by simp [hc])]

/-! ### Combining two sets -/

variable {γ : Type*} {key : γ → α}

/-- Follow the states of two sets along their merged toggles, and keep the points at which
`op` of the two states changes. -/
def combine (op : Bool → Bool → Bool) : (last left right : Bool) → List (Zipped γ) → List γ
  | _, _, _, [] => []
  | last, left, right, z :: zs =>
      let left := left ^^ z.first.isSome
      let right := right ^^ z.second.isSome
      let output := op left right
      if output != last then z.value :: combine op output left right zs
      else combine op output left right zs

theorem combine_sublist (op : Bool → Bool → Bool) (last left right : Bool)
    (zs : List (Zipped γ)) : (combine op last left right zs).Sublist (zs.map Zipped.value) := by
  induction zs generalizing last left right with
  | nil => exact .slnil
  | cons z zs ih =>
    simp only [combine, List.map_cons]
    split
    · exact (ih _ _ _).cons_cons _
    · exact (ih _ _ _).cons _

/-- Toggles merged in ascending order, with one key where two of them meet. -/
structure Merged (key : γ → α) (zs : List (Zipped γ)) : Prop where
  ascending : zs.Pairwise fun z z' => key z.value < key z'.value
  meet : ∀ l r, Zipped.both l r ∈ zs → key l = key r

variable {zs : List (Zipped γ)}

variable {z : Zipped γ}

theorem Merged.tail (h : Merged key (z :: zs)) :
    Merged key zs where
  ascending := (List.pairwise_cons.mp h.ascending).2
  meet l r hmem := h.meet l r (by simp [hmem])

theorem merged_zipmap {ls rs : List γ} (hls : Ascending key ls) (hrs : Ascending key rs) :
    Merged key (zipmap key ls rs) where
  ascending := hls.zipmap hrs
  meet _ _ hmem := (mem_zipmap_both hmem).2.2

theorem Merged.key_first (_h : Merged key (z :: zs)) {l : γ} (hl : z.first = some l) :
    key l = key z.value := by
  cases z with
  | left l' => cases hl; rfl
  | right r => cases hl
  | both l' r => cases hl; rfl

theorem Merged.key_second (h : Merged key (z :: zs)) {r : γ} (hr : z.second = some r) :
    key r = key z.value := by
  cases z with
  | left l => cases hr
  | right r' => cases hr; rfl
  | both l r' => cases hr; exact (h.meet l _ (by simp)).symm

/-- At and above the first toggle, the side that has it has changed its state. -/
theorem isOn_filterMap_cons {side : Zipped γ → Option γ}
    (hside : ∀ y, side z = some y → key y = key z.value) (hx : key z.value ≤ x) :
    isOn (((z :: zs).filterMap side).map key) x
      = ((side z).isSome ^^ isOn ((zs.filterMap side).map key) x) := by
  cases hz : side z with
  | none => simp [List.filterMap_cons_none hz]
  | some y =>
    have hy : key y ≤ x := hside y hz ▸ hx
    simp [List.filterMap_cons_some hz, isOn, hy]

theorem Merged.lt_value (h : Merged key (z :: zs)) (hx : x < key z.value) :
    ∀ z' ∈ z :: zs, x < key z'.value := by
  intro z' hz'
  rcases List.mem_cons.mp hz' with rfl | hz'
  · exact hx
  · exact hx.trans ((List.pairwise_cons.mp h.ascending).1 z' hz')

/-- Below the first toggle both sides are in their first state. -/
theorem isOn_filterMap_of_lt (side : Zipped γ → Option γ)
    (hside : ∀ z ∈ zs, ∀ y, side z = some y → key y = key z.value)
    (hx : ∀ z ∈ zs, x < key z.value) : isOn ((zs.filterMap side).map key) x = false := by
  refine isOn_of_lt fun b hb => ?_
  obtain ⟨y, hy, rfl⟩ := List.mem_map.mp hb
  obtain ⟨z, hz, hzy⟩ := List.mem_filterMap.mp hy
  exact hside z hz y hzy ▸ hx z hz

theorem Merged.of_mem (h : Merged key zs) (hz : z ∈ zs) :
    Merged key [z] where
  ascending := List.pairwise_singleton _ _
  meet l r hmem := h.meet l r (List.mem_singleton.mp hmem ▸ hz)

/-- The combined set is `op` of the two sets, from any states they are followed from. -/
theorem isOn_combine {op : Bool → Bool → Bool} {last left right : Bool}
    (hlast : op left right = last) (h : Merged key zs) (x : α) :
    (last ^^ isOn ((combine op last left right zs).map key) x)
      = op (left ^^ isOn ((zs.filterMap Zipped.first).map key) x)
          (right ^^ isOn ((zs.filterMap Zipped.second).map key) x) := by
  induction zs generalizing last left right with
  | nil => simpa [combine, isOn] using hlast.symm
  | cons z zs ih =>
    by_cases hx : key z.value ≤ x
    · rw [isOn_filterMap_cons (fun _ => h.key_first) hx,
        isOn_filterMap_cons (fun _ => h.key_second) hx, ← Bool.xor_assoc, ← Bool.xor_assoc,
        ← ih rfl h.tail]
      -- the point is kept exactly when the output changes there
      simp only [combine]
      generalize op (left ^^ z.first.isSome) (right ^^ z.second.isSome) = output
      split
      · next hchanged =>
          simp only [List.map_cons, isOn, hx, decide_true, ← Bool.xor_assoc]
          congr 1
          revert hchanged
          cases output <;> cases last <;> decide
      · next hsame =>
          have heq : output = last := by simpa using hsame
          rw [heq]
    · have habove := h.lt_value (not_le.mp hx)
      have hfirst := isOn_filterMap_of_lt Zipped.first
        (fun z' hz' y => (h.of_mem hz').key_first) habove
      have hsecond := isOn_filterMap_of_lt Zipped.second
        (fun z' hz' y => (h.of_mem hz').key_second) habove
      have hout : isOn ((combine op last left right (z :: zs)).map key) x = false := by
        refine isOn_of_lt fun b hb => ?_
        obtain ⟨y, hy, rfl⟩ := List.mem_map.mp hb
        obtain ⟨z', hz', rfl⟩ := List.mem_map.mp ((combine_sublist op _ _ _ _).subset hy)
        exact habove z' hz'
      rw [hfirst, hsecond, hout]
      simpa using hlast.symm

/-- The points kept are in ascending order. -/
theorem combine_ascending (op : Bool → Bool → Bool) (last left right : Bool) (h : Merged key zs) :
    Ascending key (combine op last left right zs) :=
  List.Pairwise.sublist (combine_sublist op last left right zs)
    (List.pairwise_map.mpr h.ascending)

end Order

/-! ### Ranges of numbers -/

/-- Each range ends above its start and the next one does not start below its end. -/
def InOrder : List Nat → Prop
  | [] => True
  | [_] => True
  | a :: b :: bs => a < b ∧ (∀ c ∈ bs, b ≤ c) ∧ InOrder bs

/-- The numbers of the ranges, one range after the other; an open last range goes up to
`top`. -/
def spans (top : Nat) : List Nat → List Nat
  | [] => []
  | [a] => List.range' a (top - a)
  | a :: b :: bs => List.range' a (b - a) ++ spans top bs

theorem inOrder_of_pairwise : ∀ {bs : List Nat}, bs.Pairwise (· < ·) → InOrder bs
  | [], _ => trivial
  | [_], _ => trivial
  | a :: b :: bs, h => by
      obtain ⟨ha, h⟩ := List.pairwise_cons.mp h
      obtain ⟨hb, h⟩ := List.pairwise_cons.mp h
      exact ⟨ha b (by simp), fun c hc => (hb c hc).le, inOrder_of_pairwise h⟩

theorem le_of_mem_spans {top x : Nat} : ∀ {bs : List Nat}, InOrder bs →
    ∀ {y : Nat}, (∀ b ∈ bs, y ≤ b) → x ∈ spans top bs → y ≤ x
  | [], _, _, _, h => by simp [spans] at h
  | [a], _, y, hy, h => by
      simp only [spans, List.mem_range'_1] at h
      exact (hy a (by simp)).trans h.1
  | a :: b :: bs, hord, y, hy, h => by
      rcases List.mem_append.mp h with h | h
      · exact (hy a (by simp)).trans (List.mem_range'_1.mp h).1
      · exact le_of_mem_spans hord.2.2 (fun c hc => hy c (by simp [hc])) h

/-- The numbers of the ranges are the ones at which the set is on. -/
theorem mem_spans {top x : Nat} : ∀ {bs : List Nat}, InOrder bs → (∀ b ∈ bs, b ≤ top) →
    (x ∈ spans top bs ↔ x < top ∧ isOn bs x = true)
  | [], _, _ => by simp [spans, isOn]
  | [a], _, htop => by
      have ha := htop a (by simp)
      simp only [spans, List.mem_range'_1, isOn, Bool.xor_false, decide_eq_true_eq]
      omega
  | a :: b :: bs, hord, htop => by
      obtain ⟨hab, hbs, hord⟩ := hord
      have ih := mem_spans (x := x) hord fun c hc => htop c (by simp [hc])
      have hb := htop b (by simp)
      simp only [spans, List.mem_append, List.mem_range'_1, ih, isOn]
      by_cases hx : b ≤ x
      · have ha : a ≤ x := by omega
        have hnot : ¬ x < a + (b - a) := by omega
        simp only [hx, ha, hnot, decide_true, ← Bool.xor_assoc, Bool.xor_self, Bool.false_xor,
          and_false, false_or]
      · have hoff : isOn bs x = false := isOn_of_lt fun c hc => by
          have := hbs c hc
          omega
        simp only [hx, hoff, decide_false, Bool.xor_false, decide_eq_true_eq, Bool.false_eq_true,
          and_false, or_false]
        omega

theorem spans_ascending (top : Nat) : ∀ {bs : List Nat}, InOrder bs →
    (spans top bs).Pairwise (· < ·)
  | [], _ => .nil
  | [_], _ => List.pairwise_lt_range'
  | a :: b :: bs, hord => by
      obtain ⟨hab, hbs, hord⟩ := hord
      refine List.pairwise_append.mpr ⟨List.pairwise_lt_range', spans_ascending top hord, ?_⟩
      intro x hx y hy
      have hxb := (List.mem_range'_1.mp hx).2
      have hby := le_of_mem_spans hord hbs hy
      omega

/-!
## Toggles folded by a remainder

The numbers below `blocks * m` are folded to their remainders by `m`.  Reducing every
toggle gives the folded set exactly when each range stays inside one block of `m` numbers
and an open last range starts in the last block, or when the only toggle is at the start of
a block (`isFolded_iff`).
-/

theorem isOn_congr {α : Type*} [LinearOrder α] {bs : List α} {x y : α}
    (h : ∀ b ∈ bs, b ≤ x ↔ b ≤ y) : isOn bs x = isOn bs y := by
  induction bs with
  | nil => rfl
  | cons b bs ih => simp [isOn, h b (by simp), ih fun c hc => h c (by simp [hc])]

/-- Each range lies in one block of `m` numbers, and an open last range starts in the last
one. -/
def InBlocks (m blocks : Nat) : List Nat → Prop
  | [] => True
  | [a] => a / m + 1 = blocks
  | a :: b :: bs => a / m = b / m ∧ InBlocks m blocks bs

variable {m blocks : Nat}

variable {q x : Nat}

/-- The place of a number compared with the place `x` of the block `q`. -/
theorem le_iff_block {a : Nat} (hx : x < m) :
    a ≤ q * m + x ↔ a / m < q ∨ a / m = q ∧ a % m ≤ x := by
  have hm : 0 < m := by omega
  have hdiv := Nat.div_add_mod' a m
  have hmod := Nat.mod_lt a hm
  rcases Nat.lt_trichotomy (a / m) q with hlt | heq | hgt
  · have hmul := Nat.mul_le_mul_right m (Nat.succ_le_of_lt hlt)
    rw [Nat.succ_mul] at hmul
    exact iff_of_true (by omega) (Or.inl hlt)
  · rw [heq] at hdiv
    simp only [heq, Nat.lt_irrefl, true_and, false_or]
    omega
  · have hmul := Nat.mul_le_mul_right m (Nat.succ_le_of_lt hgt)
    rw [Nat.succ_mul] at hmul
    exact iff_of_false (by omega) (by omega)

theorem le_end_iff (hm : 0 < m) {a : Nat} : a ≤ q * m + (m - 1) ↔ a / m ≤ q := by
  have hmod := Nat.mod_lt a hm
  rw [le_iff_block (by omega)]
  omega

/-- The toggles of one block, as places in the block. -/
def places (m q : Nat) (bs : List Nat) : List Nat := (bs.filter (· / m = q)).map (· % m)

variable {bs : List Nat}

theorem isOn_places_cons {a : Nat} :
    isOn (places m q (a :: bs)) x
      = (decide (a / m = q ∧ a % m ≤ x) ^^ isOn (places m q bs) x) := by
  by_cases h : a / m = q
  · simp [places, h, isOn]
  · simp [places, h]

/-- In a block the status starts as the one at the end of the block before. -/
theorem isOn_zero_block (hx : x < m) (bs : List Nat) :
    isOn bs (0 * m + x) = isOn (places m 0 bs) x := by
  induction bs with
  | nil => rfl
  | cons a bs ih =>
    rw [isOn_places_cons, isOn, ih]
    simp only [le_iff_block hx, Nat.not_lt_zero, false_or]

theorem isOn_succ_block (hx : x < m) (bs : List Nat) :
    isOn bs ((q + 1) * m + x) = (isOn bs (q * m + (m - 1)) ^^ isOn (places m (q + 1) bs) x) := by
  have hlast : m - 1 < m := by omega
  induction bs with
  | nil => rfl
  | cons a bs ih =>
    have hmod := Nat.mod_lt a (show 0 < m by omega)
    have hle : a % m ≤ m - 1 := by omega
    rw [isOn_places_cons, isOn, isOn, ih, ← Bool.xor_assoc, ← Bool.xor_assoc]
    congr 1
    rw [Bool.xor_assoc, Bool.xor_comm (isOn bs _), ← Bool.xor_assoc]
    congr 1
    simp only [le_iff_block hx, le_iff_block hlast, hle, and_true]
    by_cases heq : a / m = q + 1
    · have hnot : ¬ q + 1 < q := by omega
      simp [heq, hnot]
    · have hiff : a / m < q + 1 ↔ a / m < q ∨ a / m = q := by omega
      simp [heq, hiff]

/-- Every block but the last one is off at its end. -/
def OffAtEnds (m blocks : Nat) (bs : List Nat) : Prop :=
  ∀ q, q + 1 < blocks → isOn bs (q * m + (m - 1)) = false

theorem OffAtEnds.isOn_block (h : OffAtEnds m blocks bs) (hq : q < blocks) (hx : x < m) :
    isOn bs (q * m + x) = isOn (places m q bs) x := by
  cases q with
  | zero => exact isOn_zero_block hx bs
  | succ q => rw [isOn_succ_block hx, h q hq, Bool.false_xor]

/-- The places of one block stay above what is below all remainders. -/
theorem isOn_places_of_lt (h : ∀ r ∈ bs.map (· % m), x < r) : isOn (places m q bs) x = false :=
  isOn_of_lt fun r hr => h r ((List.filter_sublist.map _).subset hr)

/-- The folded set as the union of the blocks. -/
def IsFolded (m blocks : Nat) (bs : List Nat) : Prop :=
  ∀ x < m, isOn (bs.map (· % m)) x = true ↔ ∃ q < blocks, isOn bs (q * m + x) = true

/-- The same, with every block starting off. -/
def IsFoldedByPlaces (m blocks : Nat) (bs : List Nat) : Prop :=
  ∀ x < m, isOn (bs.map (· % m)) x = true ↔ ∃ q < blocks, isOn (places m q bs) x = true

theorem OffAtEnds.isFolded_iff (h : OffAtEnds m blocks bs) :
    IsFolded m blocks bs ↔ IsFoldedByPlaces m blocks bs := by
  refine forall₂_congr fun x hx => iff_congr Iff.rfl (exists_congr fun q => ?_)
  exact and_congr_right fun hq => by rw [h.isOn_block hq hx]

/-! ### Ranges inside blocks -/

theorem offAtEnds_of_inBlocks (hm : 0 < m) : ∀ {bs : List Nat}, InBlocks m blocks bs →
    OffAtEnds m blocks bs
  | [], _, q, _ => rfl
  | [a], h, q, hq => by
      have ha : a / m + 1 = blocks := h
      have hnot : ¬ a / m ≤ q := by omega
      simp [isOn, le_end_iff hm, hnot]
  | a :: b :: bs, h, q, hq => by
      simp [isOn, le_end_iff hm, h.1, offAtEnds_of_inBlocks hm h.2 q hq]

theorem remainders_cons {a b : Nat} (h : ((a :: b :: bs).map (· % m)).Pairwise (· < ·)) :
    a % m < b % m ∧ (∀ r ∈ bs.map (· % m), b % m < r) ∧ (bs.map (· % m)).Pairwise (· < ·) := by
  obtain ⟨ha, h⟩ := List.pairwise_cons.mp h
  obtain ⟨hb, h⟩ := List.pairwise_cons.mp h
  exact ⟨ha _ (by simp), hb, h⟩

theorem isFoldedByPlaces_of_inBlocks : ∀ {bs : List Nat}, (bs.map (· % m)).Pairwise (· < ·) →
    (∀ a ∈ bs, a / m < blocks) → InBlocks m blocks bs → IsFoldedByPlaces m blocks bs
  | [], _, _, _, x, _ => by simp [isOn, places]
  | [a], _, hlt, _, x, _ => by
      have ha := hlt a (by simp)
      have hnil : ∀ q, isOn (places m q []) x = false := fun q => rfl
      simp only [isOn_places_cons, isOn, List.map_cons, List.map_nil, hnil, Bool.xor_false,
        decide_eq_true_eq]
      refine ⟨fun h => ⟨a / m, ha, rfl, h⟩, ?_⟩
      rintro ⟨_, _, _, h⟩
      exact h
  | a :: b :: bs, hr, hlt, h, x, hx => by
      have ha := hlt a (by simp)
      obtain ⟨hab, hrb, hr⟩ := remainders_cons hr
      have ih := isFoldedByPlaces_of_inBlocks hr (fun c hc => hlt c (by simp [hc])) h.2 x hx
      simp only [isOn_places_cons, isOn, List.map_cons, ← h.1]
      by_cases hxb : b % m ≤ x
      · have hxa : a % m ≤ x := by omega
        simpa [hxa, hxb, ← Bool.xor_assoc] using ih
      · have hbelow : ∀ r ∈ bs.map (· % m), x < r := fun r hr => (not_le.mp hxb).trans (hrb r hr)
        have hoff := isOn_of_lt hbelow
        have hoff' : ∀ q, isOn (places m q bs) x = false := fun q => isOn_places_of_lt hbelow
        simp only [hxb, hoff, hoff', and_false, decide_false, Bool.xor_false, decide_eq_true_eq]
        refine ⟨fun h => ⟨a / m, ha, rfl, h⟩, ?_⟩
        rintro ⟨_, _, _, h⟩
        exact h

theorem inBlocks_of_isFoldedByPlaces (hm : 0 < m) : ∀ {bs : List Nat},
    (bs.map (· % m)).Pairwise (· < ·) → (∀ a ∈ bs, a / m < blocks) → OffAtEnds m blocks bs →
    IsFoldedByPlaces m blocks bs → InBlocks m blocks bs
  | [], _, _, _, _ => trivial
  | [a], _, hlt, hoff, _ => by
      have ha := hlt a (by simp)
      by_contra hnot
      have hnot : a / m + 1 ≠ blocks := hnot
      -- the range would go on through the end of its block
      have hend := hoff (a / m) (by omega)
      simp [isOn, le_end_iff hm] at hend
  | a :: b :: bs, hr, hlt, hoff, h => by
      have ha := hlt a (by simp)
      obtain ⟨hab, hrb, hr⟩ := remainders_cons hr
      have hbm := Nat.mod_lt b hm
      have hblock : a / m = b / m := by
        by_contra hne
        -- the block of `a` is still on where the folded set goes off
        have hfold := (h (b % m) hbm).mpr ⟨a / m, ha, by
          have hrest : isOn (places m (a / m) bs) (b % m) = false := isOn_places_of_lt hrb
          simp [isOn_places_cons, hrest, hab.le, Ne.symm hne]⟩
        have hrest : isOn (bs.map (· % m)) (b % m) = false := isOn_of_lt hrb
        simp [isOn, hrest, hab.le] at hfold
      refine ⟨hblock, inBlocks_of_isFoldedByPlaces hm hr (fun c hc => hlt c (by simp [hc]))
        (fun q hq => ?_) fun x hx => ?_⟩
      · simpa [isOn, le_end_iff hm, hblock] using hoff q hq
      · by_cases hxb : b % m ≤ x
        · have hxa : a % m ≤ x := by omega
          have hx' := h x hx
          simp only [isOn_places_cons, isOn, List.map_cons, ← hblock] at hx'
          simpa [hxa, hxb, ← Bool.xor_assoc] using hx'
        · have hbelow : ∀ r ∈ bs.map (· % m), x < r :=
            fun r hr => (not_le.mp hxb).trans (hrb r hr)
          simp [isOn_of_lt hbelow, isOn_places_of_lt hbelow]

/-- A folded set with two toggles at least has a last toggle above place zero.  It is off
right before it, so only the block of that toggle is on at its end; the last block is. -/
theorem IsFolded.offAtEnds {z : Nat} {init : List Nat} (hne : init ≠ [])
    (hr : ((init ++ [z]).map (· % m)).Pairwise (· < ·)) (hlt : ∀ a ∈ init ++ [z], a / m < blocks)
    (hm : 0 < m) (h : IsFolded m blocks (init ++ [z])) : OffAtEnds m blocks (init ++ [z]) := by
  intro q hq
  by_contra hon
  have hon : isOn (init ++ [z]) (q * m + (m - 1)) = true := by simpa using hon
  have hzm := Nat.mod_lt z hm
  have hinit : ∀ a ∈ init, a % m < z % m := by
    intro a ha
    rw [List.map_append] at hr
    exact (List.pairwise_append.mp hr).2.2 _ (List.mem_map_of_mem ha) _ (by simp)
  obtain ⟨a, ha⟩ := List.exists_mem_of_ne_nil init hne
  have hpos : 0 < z % m := Nat.zero_lt_of_lt (hinit a ha)
  -- there is an odd number of toggles
  have hodd : (init ++ [z]).length % 2 = 1 := by
    have hend := (h (m - 1) (by omega)).mpr ⟨q, by omega, hon⟩
    rw [isOn_of_le] at hend
    · simpa using hend
    · intro r hr
      obtain ⟨c, -, rfl⟩ := List.mem_map.mp hr
      have := Nat.mod_lt c hm
      omega
  have hlast : isOn (init ++ [z]) ((blocks - 1) * m + (m - 1)) = true := by
    rw [isOn_of_le fun c hc => (le_end_iff hm).mpr (Nat.le_sub_one_of_lt (hlt c hc))]
    exact decide_eq_true hodd
  -- right before the last toggle no block is on
  have hbefore : isOn ((init ++ [z]).map (· % m)) (z % m - 1) = false := by
    have hz : ¬ z % m ≤ z % m - 1 := by omega
    have hlen : ¬ init.length % 2 = 1 := by
      simp only [List.length_append, List.length_singleton] at hodd
      omega
    rw [List.map_append, isOn_append, isOn_of_le fun r hr => by
      obtain ⟨c, hc, rfl⟩ := List.mem_map.mp hr
      exact Nat.le_sub_one_of_lt (hinit c hc)]
    simp [isOn, hz, hlen]
  have hblock : ∀ p < blocks, isOn (init ++ [z]) (p * m + (m - 1)) = true → p = z / m := by
    intro p hp hend
    by_contra hpz
    have hsame : isOn (init ++ [z]) (p * m + (m - 1)) = isOn (init ++ [z]) (p * m + (z % m - 1)) := by
      refine isOn_congr fun c hc => ?_
      rw [le_iff_block (by omega), le_iff_block (by omega)]
      rcases List.mem_append.mp hc with hc | hc
      · have := hinit c hc
        omega
      · have hcz : c = z := List.mem_singleton.mp hc
        subst hcz
        omega
    rw [hsame] at hend
    have hfold := (h (z % m - 1) (by omega)).mpr ⟨p, hp, hend⟩
    rw [hbefore] at hfold
    cases hfold
  have hq' := hblock q (by omega) hon
  have hlast' := hblock (blocks - 1) (by omega) hlast
  omega

/-- When reducing every toggle gives the folded set. -/
theorem isFolded_iff (hm : 0 < m) (hr : (bs.map (· % m)).Pairwise (· < ·))
    (hlt : ∀ a ∈ bs, a / m < blocks) :
    IsFolded m blocks bs ↔ InBlocks m blocks bs ∨ ∃ a, bs = [a] ∧ a % m = 0 := by
  constructor
  · intro h
    by_cases hone : ∃ a, bs = [a]
    · obtain ⟨a, rfl⟩ := hone
      by_cases hzero : a % m = 0
      · exact Or.inr ⟨a, rfl, hzero⟩
      -- a later block would be on at its start, where the folded set is off
      refine Or.inl (show a / m + 1 = blocks from ?_)
      by_contra hne
      have ha := hlt a (by simp)
      have hon := (h 0 hm).mpr ⟨a / m + 1, by omega, by
        have hle : a ≤ (a / m + 1) * m + 0 := (le_iff_block hm).mpr (by omega)
        simpa [isOn] using hle⟩
      simp [isOn, hzero] at hon
    · left
      rcases List.eq_nil_or_concat' bs with rfl | ⟨init, z, rfl⟩
      · trivial
      have hne : init ≠ [] := by
        rintro rfl
        exact hone ⟨z, rfl⟩
      have hoff := h.offAtEnds hne hr hlt hm
      exact inBlocks_of_isFoldedByPlaces hm hr hlt hoff (hoff.isFolded_iff.mp h)
  · rintro (h | ⟨a, rfl, hzero⟩)
    · exact (offAtEnds_of_inBlocks hm h).isFolded_iff.mpr (isFoldedByPlaces_of_inBlocks hr hlt h)
    · intro x hx
      have ha := hlt a (by simp)
      have hle : a ≤ a / m * m + x := (le_iff_block hx).mpr (Or.inr ⟨rfl, by omega⟩)
      exact iff_of_true (by simp [isOn, hzero]) ⟨a / m, ha, by simpa [isOn] using hle⟩

end Toggles
