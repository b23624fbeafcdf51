import Mathlib.Algebra.BigOperators.Group.List.Basic
import Mathlib.Algebra.Ring.Nat
import Revng.ABI.ValueDistributor

/-!
# The registers of a value

`Request.left` are the registers that a value may use.  It `fits` if they hold it, `splits` if the rest of
it has to go to the stack, and is placed on the stack otherwise.  `distribute` does so unless it
`miscounts`: the padding in front of a value moves its registers by one, but the register that comes in
is never counted.
-/

namespace ABI

variable {Register : Type}

/-! ## What a value may use -/

namespace Request

variable (d : Definition Register) (q : Request Register)

/-- The registers left to the value. -/
def left : List Register :=
  (q.registers.drop q.occupiedRegisterCount).take (q.lastRegister - q.occupiedRegisterCount)

/-- The number of registers of the size of a pointer that hold the value. -/
def words : ℕ := (q.size + d.getPointerSize - 1) / d.getPointerSize

/-- Padding is due because the next register is odd. -/
def pads : Bool :=
  d.onlyStartDoubleArgumentsFromAnEvenRegister && q.multiAligned d &&
    q.occupiedRegisterCount % 2 = 1 && !q.left.isEmpty

def paddingRegisters : List Register :=
  if q.pads d && q.occupiedRegisterCount + 1 ≠ q.registers.length then q.left.take 1 else []

def padding : List (DistributedValue Register) :=
  (q.paddingRegisters d).map fun register =>
    { registers := [register], size := d.getPointerSize, representsPadding := true }

variable {d q}

theorem length_left : q.left.length = q.lastRegister - q.occupiedRegisterCount := by
  have hle : q.lastRegister ≤ q.registers.length := Nat.min_le_right _ _
  simp only [left, List.length_take, List.length_drop]
  omega

theorem add_length_left_le (h : q.occupiedRegisterCount ≤ q.registers.length) :
    q.occupiedRegisterCount + q.left.length ≤ q.registers.length := by
  have hle : q.lastRegister ≤ q.registers.length := Nat.min_le_right _ _
  rw [length_left]
  omega

/-- The registers taken are a part of those left. -/
theorem drop_take_registers {i j : ℕ} (hj : j ≤ q.left.length) :
    (q.registers.take (q.occupiedRegisterCount + j)).drop (q.occupiedRegisterCount + i) =
      (q.left.take j).drop i := by
  rw [length_left] at hj
  rw [left, List.take_take, Nat.min_eq_left hj, List.drop_take, List.drop_take, List.drop_drop]
  congr 1
  omega

theorem drop_take_left {i j : ℕ} (hj : j ≤ q.left.length) :
    (q.left.take j).drop i = (q.registers.drop (q.occupiedRegisterCount + i)).take (j - i) := by
  rw [← drop_take_registers hj, List.drop_take, Nat.add_sub_add_left]

theorem toList_registers (h : q.left ≠ []) :
    q.registers[q.occupiedRegisterCount]?.toList = q.left.take 1 := by
  have hpos : 0 < q.left.length := List.length_pos_iff.2 h
  rw [length_left] at hpos
  rw [left, List.take_take, Nat.min_eq_left hpos, List.take_one, List.head?_drop]

theorem words_le_iff {k : ℕ} : q.words d ≤ k ↔ q.size ≤ k * d.getPointerSize := by
  have hpos : 0 < d.getPointerSize := d.abi.getPointerSize_pos
  rw [words, ← Nat.lt_succ_iff, Nat.div_lt_iff_lt_mul hpos, Nat.succ_mul]
  omega

theorem last_eq_of_left_ne_nil (h : q.left ≠ []) :
    q.lastRegister = q.occupiedRegisterCount + q.left.length := by
  have hpos : 0 < q.left.length := List.length_pos_iff.2 h
  rw [length_left] at hpos ⊢
  omega

theorem left_ne_nil_of_pads (hpads : q.pads d = true) : q.left ≠ [] := by
  simp only [pads, Bool.and_eq_true] at hpads
  simpa using hpads.2

theorem canUseRegisters_of_allowSplitting (h : q.allowSplitting d = true) :
    q.canUseRegisters d = true := by
  simp only [allowSplitting, Bool.and_eq_true] at h
  exact h.1.1

/-! ## Padding -/

theorem paddingRegisters_of_not_pads (hpads : q.pads d = false) : q.paddingRegisters d = [] := by
  simp [paddingRegisters, hpads]

theorem length_paddingRegisters_le : (q.paddingRegisters d).length ≤ q.left.length := by
  unfold paddingRegisters
  split
  · exact List.length_take_le' _ _
  · exact Nat.zero_le _

theorem padding_of_not_pads (hpads : q.pads d = false) : q.padding d = [] := by
  rw [padding, paddingRegisters_of_not_pads hpads, List.map_nil]

theorem considerPadding_of_not_pads {m n : ℕ} (hpads : q.pads d = false)
    (hm : m = 0 → q.left = []) (hle : m ≤ q.left.length) :
    considerPadding d q (q.occupiedRegisterCount + m) n =
      some { occupied := q.occupiedRegisterCount, considered := q.occupiedRegisterCount + m,
             sizeCounter := n } := by
  have hcond : (d.onlyStartDoubleArgumentsFromAnEvenRegister && q.multiAligned d &&
      (q.occupiedRegisterCount + m ≠ q.occupiedRegisterCount : Bool) &&
      (q.occupiedRegisterCount % 2 = 1 : Bool)) = false := by
    by_cases hempty : q.left = []
    · rw [hempty] at hle
      simp [Nat.le_zero.1 hle]
    · simp only [pads, Bool.and_eq_false_iff] at hpads ⊢
      have hleft : (!q.left.isEmpty) ≠ false := by simpa using hempty
      tauto
  unfold considerPadding
  simp only [hcond]
  rfl

theorem considerPadding_of_pads {m n : ℕ} (hpads : q.pads d = true) (hm : 0 < m)
    (hle : m ≤ q.left.length) (hn : d.getPointerSize ≤ n) :
    considerPadding d q (q.occupiedRegisterCount + m) n =
      some { padding := q.padding d
             occupied := q.occupiedRegisterCount + (q.paddingRegisters d).length
             considered := q.occupiedRegisterCount + min (m + 1) q.left.length
             sizeCounter := n - d.getPointerSize } := by
  have hlength : q.left.length = q.lastRegister - q.occupiedRegisterCount := length_left
  have hleft : q.left ≠ [] := List.ne_nil_of_length_pos (hm.trans_le hle)
  have htake : (q.left.take 1).length = 1 := by
    rw [List.length_take]
    omega
  have hconsidered : (if q.occupiedRegisterCount + m < q.lastRegister then
      q.occupiedRegisterCount + m + 1 else q.occupiedRegisterCount + m) =
      q.occupiedRegisterCount + min (m + 1) q.left.length := by
    split <;> omega
  obtain ⟨register, hregister⟩ := List.length_eq_one_iff.1 htake
  have hcond := hpads
  simp only [pads, Bool.and_eq_true, decide_eq_true_eq] at hcond
  unfold considerPadding
  simp only [hcond.1.1.1, hcond.1.1.2, hcond.1.2, hconsidered, toList_registers hleft, hregister]
  by_cases hlast : q.occupiedRegisterCount + 1 = q.registers.length
  · simp [padding, paddingRegisters, hpads, hlast, hn, hm.ne']
  · simp [padding, paddingRegisters, hpads, hlast, hn, hm.ne', hregister]

end Request

variable [MachineRegister Register]

/-! ## Sizes of registers -/

def bytes (registers : List Register) : ℕ := (registers.map getSize).sum

@[simp] theorem bytes_nil : bytes ([] : List Register) = 0 := rfl

@[simp] theorem bytes_cons (register : Register) (rest : List Register) :
    bytes (register :: rest) = getSize register + bytes rest := by
  simp [bytes]

theorem bytes_append (registers rest : List Register) :
    bytes (registers ++ rest) = bytes registers + bytes rest := by
  simp [bytes]

theorem bytes_take_le (registers : List Register) (n : ℕ) :
    bytes (registers.take n) ≤ bytes registers := by
  conv_rhs => rw [← List.take_append_drop n registers, bytes_append]
  exact Nat.le_add_right _ _

theorem bytes_eq_of_forall {registers : List Register} {size : ℕ}
    (h : ∀ r ∈ registers, getSize r = size) : bytes registers = registers.length * size := by
  induction registers with
  | nil => simp
  | cons register rest ih =>
    rw [List.forall_mem_cons] at h
    rw [bytes_cons, h.1, ih h.2, List.length_cons, Nat.succ_mul, Nat.add_comm]

/-- How many registers are considered: no more than allowed and no more than needed, and fewer than
needed only if there are no others. -/
theorem exists_considerRegisters (size last : ℕ) (registers : List Register) (c n : ℕ) :
    ∃ m ≤ registers.length,
      considerRegisters size last registers c n = (c + m, n + bytes (registers.take m)) ∧
      (0 < m → c + m ≤ last ∧ n + bytes (registers.take (m - 1)) < size) ∧
      (n + bytes (registers.take m) < size → m = registers.length ∨ last ≤ c + m) := by
  induction registers generalizing c n with
  | nil => exact ⟨0, le_rfl, rfl, fun h => absurd h (lt_irrefl 0), fun _ => .inl rfl⟩
  | cons register rest ih =>
    unfold considerRegisters
    split
    · rename_i hcontinue
      obtain ⟨m, hm, heq, hpos, hall⟩ := ih (c + 1) (n + getSize register)
      refine ⟨m + 1, Nat.succ_le_succ hm, ?_, fun _ => ⟨?_, ?_⟩, fun h => ?_⟩
      · rw [heq, List.take_succ_cons, bytes_cons, Nat.add_assoc, Nat.add_assoc, Nat.add_comm 1 m]
      · rcases Nat.eq_zero_or_pos m with rfl | hm
        · exact hcontinue.2
        · have hle := (hpos hm).1
          omega
      · rcases Nat.eq_zero_or_pos m with rfl | hm
        · simpa using hcontinue.1
        · have hlt := (hpos hm).2
          obtain ⟨k, rfl⟩ := Nat.exists_eq_succ_of_ne_zero hm.ne'
          simpa [Nat.add_assoc] using hlt
      · rw [List.take_succ_cons, bytes_cons, ← Nat.add_assoc] at h
        rcases hall h with hm | hm
        · exact .inl (congrArg Nat.succ hm)
        · exact .inr (by omega)
    · rename_i hstop
      refine ⟨0, Nat.zero_le _, by simp, fun h => absurd h (lt_irrefl 0), fun h => .inr ?_⟩
      rw [List.take_zero, bytes_nil, Nat.add_zero] at h
      by_contra hlast
      exact hstop ⟨h, by omega⟩

/-! ## Where a value goes -/

namespace Request

variable (d : Definition Register) (q : Request Register)

def fits : Bool := q.canUseRegisters d && !q.pads d && q.size ≤ bytes q.left

def splits : Bool :=
  q.allowSplitting d &&
    if q.pads d then
      2 ≤ q.left.length && q.left.length ≤ q.words d
    else
      0 < bytes q.left && bytes q.left < q.size

/-- Behind the padding there are just enough registers for the value, which is to take them all. -/
def miscounts : Bool :=
  q.pads d && q.allowSplitting d && 2 ≤ q.words d && q.left.length = q.words d + 1

variable {d q}

theorem exists_counted :
    ∃ m ≤ q.left.length,
      considerRegisters q.size q.lastRegister (q.registers.drop q.occupiedRegisterCount)
        q.occupiedRegisterCount 0 = (q.occupiedRegisterCount + m, bytes (q.left.take m)) ∧
      (0 < m → bytes (q.left.take (m - 1)) < q.size) ∧
      (bytes (q.left.take m) < q.size → m = q.left.length) := by
  obtain ⟨m, hm, heq, hpos, hall⟩ := exists_considerRegisters q.size q.lastRegister
    (q.registers.drop q.occupiedRegisterCount) q.occupiedRegisterCount 0
  have hlength : q.left.length = q.lastRegister - q.occupiedRegisterCount := length_left
  have hlast : q.lastRegister ≤ q.registers.length := Nat.min_le_right _ _
  rw [List.length_drop] at hm hall
  have hmle : m ≤ q.lastRegister - q.occupiedRegisterCount := by
    rcases Nat.eq_zero_or_pos m with rfl | h
    · exact Nat.zero_le _
    · have hle := (hpos h).1
      omega
  have htake (k : ℕ) (hk : k ≤ m) :
      (q.registers.drop q.occupiedRegisterCount).take k = q.left.take k := by
    rw [left, List.take_take, Nat.min_eq_left (hk.trans hmle)]
  rw [htake m le_rfl, Nat.zero_add] at heq hall
  rw [htake (m - 1) (Nat.sub_le m 1), Nat.zero_add] at hpos
  refine ⟨m, hlength ▸ hmle, heq, fun h => (hpos h).2, fun h => ?_⟩
  rcases hall h with hm | hm <;> omega

/-- The pointer sized registers that an even one is looked for in. -/
def EvenRegisters (d : Definition Register) (q : Request Register) : Prop :=
  d.onlyStartDoubleArgumentsFromAnEvenRegister = true → ∀ r ∈ q.left, getSize r = d.getPointerSize

theorem EvenRegisters.bytes_take (h : EvenRegisters d q) (hpads : q.pads d = true) {k : ℕ}
    (hk : k ≤ q.left.length) : bytes (q.left.take k) = k * d.getPointerSize := by
  simp only [pads, Bool.and_eq_true] at hpads
  rw [bytes_eq_of_forall fun r hr => h hpads.1.1.1 r (List.mem_of_mem_take hr), List.length_take,
    Nat.min_eq_left hk]

theorem EvenRegisters.bytes_drop (h : EvenRegisters d q) (hpads : q.pads d = true) :
    bytes (q.left.drop 1) = (q.left.length - 1) * d.getPointerSize := by
  simp only [pads, Bool.and_eq_true] at hpads
  rw [bytes_eq_of_forall fun r hr => h hpads.1.1.1 r (List.mem_of_mem_drop hr), List.length_drop]

/-- The registers are considered until they hold the value. -/
theorem consider_of_not_pads (hsize : 0 < q.size) (hpads : q.pads d = false) :
    ∃ m ≤ q.left.length,
      q.consider d =
        some { occupied := q.occupiedRegisterCount, considered := q.occupiedRegisterCount + m,
               sizeCounter := bytes (q.left.take m) } ∧
      (bytes (q.left.take m) < q.size → m = q.left.length) := by
  obtain ⟨m, hle, heq, -, hall⟩ := q.exists_counted
  have hzero : m = 0 → q.left = [] := by
    rintro rfl
    have hlength := hall (by simpa using hsize)
    exact List.length_eq_zero_iff.1 hlength.symm
  refine ⟨m, hle, ?_, hall⟩
  simp only [consider, heq, considerPadding_of_not_pads hpads hzero hle]

/-- Of the registers considered, the first one is not counted. -/
theorem consider_of_pads (hsize : 0 < q.size) (heven : EvenRegisters d q) (hpads : q.pads d = true) :
    ∃ m, 0 < m ∧ m ≤ q.left.length ∧ m ≤ q.words d ∧ (m < q.left.length → m = q.words d) ∧
      q.consider d =
        some { padding := q.padding d
               occupied := q.occupiedRegisterCount + (q.paddingRegisters d).length
               considered := q.occupiedRegisterCount + min (m + 1) q.left.length
               sizeCounter := (m - 1) * d.getPointerSize } := by
  obtain ⟨m, hle, heq, hpos, hall⟩ := q.exists_counted
  have hm : 0 < m := by
    rcases Nat.eq_zero_or_pos m with rfl | hm
    · have hlength := hall (by simpa using hsize)
      exact absurd (List.length_eq_zero_iff.1 hlength.symm) (left_ne_nil_of_pads hpads)
    · exact hm
  have hbytes := hpos hm
  rw [heven.bytes_take hpads ((Nat.sub_le m 1).trans hle), ← Nat.not_le, ← words_le_iff] at hbytes
  rw [heven.bytes_take hpads hle] at heq hall
  refine ⟨m, hm, hle, by omega, fun hlt => ?_, ?_⟩
  · have hwords : q.words d ≤ m := by
      rw [words_le_iff]
      by_contra hmore
      have hlength := hall (Nat.lt_of_not_le hmore)
      omega
    omega
  · have hcounted : d.getPointerSize ≤ m * d.getPointerSize := Nat.le_mul_of_pos_left _ hm
    simp only [consider, heq, considerPadding_of_pads hpads hm hle hcounted, Nat.sub_one_mul]

end Request

/-! ## What `distribute` does -/

namespace ValueDistributor

open Request RoundUp

variable {d : Definition Register} {q : Request Register} {s : ValueDistributor}

theorem distribute_of_fits (hsize : 0 < q.size) (h : q.fits d = true) :
    ∃ m ≤ q.left.length, q.size ≤ bytes (q.left.take m) ∧
      s.distribute d q =
        some ([{ registers := q.left.take m, size := q.size }], q.occupiedRegisterCount + m,
          s.advance q.alignment
            { registers := q.left.take m, size := q.size : DistributedValue Register }) := by
  simp only [fits, Bool.and_eq_true, Bool.not_eq_true', decide_eq_true_eq] at h
  obtain ⟨⟨hcan, hpads⟩, hfits⟩ := h
  obtain ⟨m, hle, hconsider, hall⟩ := consider_of_not_pads hsize hpads
  have hbytes : q.size ≤ bytes (q.left.take m) := by
    by_contra hlt
    rw [hall (Nat.lt_of_not_le hlt), List.take_length] at hlt
    exact hlt hfits
  refine ⟨m, hle, hbytes, ?_⟩
  have hwindow := drop_take_registers (i := 0) hle
  rw [Nat.add_zero, List.drop_zero] at hwindow
  simp only [distribute, hconsider, Option.bind_eq_bind, Option.bind_some, hwindow, hbytes, hcan,
    decide_true, Bool.and_true, if_true]
  rfl

/-- All the registers left are considered, and those behind the padding are counted. -/
theorem consider_of_splits (hsize : 0 < q.size) (heven : EvenRegisters d q)
    (h : q.splits d = true) :
    let rest := q.left.drop (q.paddingRegisters d).length
    bytes rest < q.size ∧ 0 < bytes rest ∧
      q.consider d =
        some { padding := q.padding d
               occupied := q.occupiedRegisterCount + (q.paddingRegisters d).length
               considered := q.occupiedRegisterCount + q.left.length, sizeCounter := bytes rest } := by
  intro rest
  simp only [splits, Bool.and_eq_true] at h
  cases hpads : q.pads d with
  | false =>
    simp only [hpads, Bool.false_eq_true, if_false, Bool.and_eq_true, decide_eq_true_eq] at h
    obtain ⟨m, hle, hconsider, hall⟩ := consider_of_not_pads hsize hpads
    have hm : m = q.left.length :=
      hall (Nat.lt_of_le_of_lt (bytes_take_le q.left m) h.2.2)
    have hrest : rest = q.left := by
      simp [rest, paddingRegisters, hpads]
    rw [hrest, hconsider, hm, List.take_length]
    refine ⟨h.2.2, h.2.1, ?_⟩
    simp [padding, paddingRegisters, hpads]
  | true =>
    simp only [hpads, if_true, Bool.and_eq_true, decide_eq_true_eq] at h
    obtain ⟨m, hpos, hle, hwords, hall, hconsider⟩ := consider_of_pads hsize heven hpads
    have hm : m = q.left.length := by omega
    have hlast : q.lastRegister ≤ q.registers.length := Nat.min_le_right _ _
    have hlength : q.left.length = q.lastRegister - q.occupiedRegisterCount := length_left
    have hne : q.occupiedRegisterCount + 1 ≠ q.registers.length := by omega
    have hone : (q.paddingRegisters d).length = 1 := by
      simp only [paddingRegisters, hpads, hne, ne_eq, not_false_eq_true, decide_true, Bool.and_self,
        if_true, List.length_take]
      omega
    have hrest : bytes rest = (m - 1) * d.getPointerSize := by
      rw [hm, ← heven.bytes_drop hpads]
      simp only [rest, hone]
    rw [hrest, hconsider, hm, Nat.min_eq_right (Nat.le_succ _)]
    refine ⟨?_, Nat.mul_pos (by omega) d.abi.getPointerSize_pos, rfl⟩
    rw [← Nat.not_le, ← words_le_iff]
    omega

/-- What the registers behind the padding leave of the value goes to the stack. -/
theorem distribute_of_splits (hsize : 0 < q.size) (hsize64 : q.size < 2 ^ 64)
    (heven : EvenRegisters d q) (h : q.splits d = true)
    (hpow : d.minimumStackArgumentSize.isPowerOfTwo)
    (hlt : roundUp (q.size - bytes (q.left.drop (q.paddingRegisters d).length))
      d.minimumStackArgumentSize < 2 ^ 64) :
    ∃ rest sizeOnStack, rest = q.left.drop (q.paddingRegisters d).length ∧
      sizeOnStack = roundUp (q.size - bytes rest) d.minimumStackArgumentSize ∧
      s.distribute d q =
        some (q.padding d ++ [{ registers := rest, size := q.size, sizeOnStack
                                offsetOnStack := s.usedStackOffset
                                postPaddingSize := sizeOnStack + bytes rest - q.size }],
          q.occupiedRegisterCount + q.left.length,
          s.advance q.alignment
            { sizeOnStack, postPaddingSize := sizeOnStack + bytes rest - q.size :
              DistributedValue Register }) := by
  obtain ⟨hless, hmore, hconsider⟩ := consider_of_splits hsize heven h
  refine ⟨_, _, rfl, rfl, ?_⟩
  have hwindow := drop_take_registers (q := q) (i := (q.paddingRegisters d).length) le_rfl
  rw [List.take_length] at hwindow
  have hallow : q.allowSplitting d = true := by
    simp only [splits, Bool.and_eq_true] at h
    exact h.1
  have hne : q.left ≠ [] := by
    intro hnil
    simp [hnil] at hmore
  have hpos : 0 < d.minimumStackArgumentSize := Nat.pos_of_isPowerOfTwo hpow
  have hup := le_roundUp (q.size - bytes (q.left.drop (q.paddingRegisters d).length)) hpos
  have hpadded := paddedSizeOnStack_eq hpow (Nat.sub_ne_zero_of_lt hless) hlt
  have hpost : uint64 (subtract (roundUp (q.size - bytes (q.left.drop (q.paddingRegisters d).length))
      d.minimumStackArgumentSize) q.size + bytes (q.left.drop (q.paddingRegisters d).length)) =
      roundUp (q.size - bytes (q.left.drop (q.paddingRegisters d).length))
        d.minimumStackArgumentSize + bytes (q.left.drop (q.paddingRegisters d).length) - q.size :=
    uint64_subtract_add (by omega) hsize64 (by omega)
  simp only [distribute, hconsider, Option.bind_eq_bind, Option.bind_some, hwindow, hallow,
    last_eq_of_left_ne_nil hne, hmore, Nat.not_le_of_lt hless, hpadded, hpost, decide_true,
    decide_false, Bool.and_true, Bool.false_and, Bool.false_eq_true, if_true, if_false]
  rfl

theorem distribute_of_stack (hsize : 0 < q.size) (heven : EvenRegisters d q)
    (hfits : q.fits d = false) (hsplits : q.splits d = false) (hcounts : q.miscounts d = false) :
    s.distribute d q =
      (s.distributeToStack d q).map fun r =>
        (q.padding d ++ [r.1],
          if d.noRegisterArgumentsCanComeAfterStackOnes then q.registers.length
          else q.occupiedRegisterCount + (q.paddingRegisters d).length, r.2) := by
  obtain ⟨c, hconsider, hpadding, hoccupied, hregisters, hsplit⟩ : ∃ c, q.consider d = some c ∧
      c.padding = q.padding d ∧
      c.occupied = q.occupiedRegisterCount + (q.paddingRegisters d).length ∧
      (q.size ≤ c.sizeCounter && q.canUseRegisters d) = false ∧
      (q.allowSplitting d && c.considered = q.lastRegister && 0 < c.sizeCounter) = false := by
    cases hpads : q.pads d with
    | false =>
      obtain ⟨m, hle, hconsider, hall⟩ := consider_of_not_pads hsize hpads
      have hshort : q.canUseRegisters d = true → bytes (q.left.take m) < q.size := by
        intro hcan
        simp only [fits, hcan, hpads, Bool.not_false, Bool.and_self, Bool.true_and,
          decide_eq_false_iff_not, Nat.not_le] at hfits
        exact Nat.lt_of_le_of_lt (bytes_take_le q.left m) hfits
      refine ⟨_, hconsider, (padding_of_not_pads hpads).symm, ?_, ?_, ?_⟩
      · rw [paddingRegisters_of_not_pads hpads]
        rfl
      · rw [Bool.and_eq_false_iff, decide_eq_false_iff_not, Nat.not_le]
        cases hcan : q.canUseRegisters d with
        | false => exact .inr rfl
        | true => exact .inl (hshort hcan)
      · rw [Bool.eq_false_iff]
        intro htrue
        simp only [Bool.and_eq_true, decide_eq_true_eq] at htrue
        obtain ⟨⟨hallow, -⟩, hmore⟩ := htrue
        have hless := hshort (canUseRegisters_of_allowSplitting hallow)
        have hm := hall hless
        rw [hm, List.take_length] at hless hmore
        simp [splits, hallow, hpads, hless, hmore] at hsplits
    | true =>
      obtain ⟨m, hpos, hle, hwords, hall, hconsider⟩ := consider_of_pads hsize heven hpads
      have hshort : (m - 1) * d.getPointerSize < q.size := by
        rw [← Nat.not_le, ← words_le_iff]
        omega
      refine ⟨_, hconsider, rfl, rfl, ?_, ?_⟩
      · rw [Bool.and_eq_false_iff, decide_eq_false_iff_not, Nat.not_le]
        exact .inl hshort
      · rw [Bool.eq_false_iff]
        intro htrue
        simp only [Bool.and_eq_true, decide_eq_true_eq,
          last_eq_of_left_ne_nil (left_ne_nil_of_pads hpads)] at htrue
        obtain ⟨⟨hallow, hend⟩, hmore⟩ := htrue
        have htwo : 2 ≤ m := by
          have hm := Nat.pos_of_mul_pos_right hmore
          omega
        rcases Nat.lt_or_ge m q.left.length with hlt | hge
        · -- The register that comes in is the last one, but it has not been counted.
          have hm := hall hlt
          have hlength : q.left.length = q.words d + 1 := by omega
          have htwo : 2 ≤ q.words d := by omega
          simp [miscounts, hpads, hallow, hlength, htwo] at hcounts
        · have hlength : q.left.length ≤ q.words d := by omega
          have htwo : 2 ≤ q.left.length := by omega
          simp [splits, hpads, hallow, hlength, htwo] at hsplits
  simp only [distribute, hconsider, Option.bind_eq_bind, Option.bind_some, hregisters, hsplit,
    Bool.false_eq_true, if_false, hpadding, hoccupied]
  cases s.distributeToStack d q <;> rfl

end ValueDistributor

end ABI
