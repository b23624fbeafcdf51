import Revng.ABI.DistributionInvariant

/-!
# One argument

An argument keeps the invariant of the distribution if it `Meets` a condition on the state before it.
Under a position based ABI, its register has to be large enough.  So has a vector register elsewhere, and
`distribute` must not miscount, must not split a value at an offset between two slots, and must not pack a
value behind one that is not right before it.  What is padded or aligned is so to powers of two, and the
stack must not pass 2⁶⁴ bytes.
-/

namespace ABI

open RoundUp Request

variable {Register : Type}

/-! ## Offsets -/

/-- A type has a size. -/
structure ArgumentType.Valid (type : ArgumentType) : Prop where
  size : 0 < type.size
  size64 : type.size < 2 ^ 64
  alignment64 : type.alignment < 2 ^ 64

namespace ValueDistributor

/-- The offset of a value on the stack. -/
def stackOffset (s : ValueDistributor) (d : Definition Register) (q : Request Register) : ℕ :=
  roundUp (s.freeOffset d q) (max s.currentStackAlignment (q.stackAlignment d))

variable {d : Definition Register} {q : Request Register} {s : ValueDistributor}

theorem free_le : s.usedStackOffset - s.lastAddedStackPadding ≤ s.freeOffset d q := by
  unfold freeOffset
  split <;> omega

theorem freeOffset_of_not_packed (h : d.packStackArguments = false) :
    s.freeOffset d q = s.usedStackOffset := by
  simp [freeOffset, h]

/-- A value on the stack goes to the next aligned offset, and is padded. -/
theorem distributeToStack_eq (hsize : 0 < q.size) (hpow : d.minimumStackArgumentSize.isPowerOfTwo)
    (halignment : (max s.currentStackAlignment (q.stackAlignment d)).isPowerOfTwo)
    (halignment64 : max s.currentStackAlignment (q.stackAlignment d) < 2 ^ 64)
    (hlt : s.stackOffset d q + roundUp q.size d.minimumStackArgumentSize < 2 ^ 64) :
    s.distributeToStack d q =
      some ({ size := q.size, prePaddingSize := s.stackOffset d q - s.freeOffset d q
              sizeOnStack := roundUp q.size d.minimumStackArgumentSize
              postPaddingSize := roundUp q.size d.minimumStackArgumentSize - q.size
              offsetOnStack := s.stackOffset d q },
        { s with usedStackOffset := s.stackOffset d q + roundUp q.size d.minimumStackArgumentSize
                 currentStackAlignment := q.stackAlignment d
                 lastAddedStackPadding :=
                   roundUp q.size d.minimumStackArgumentSize - q.size }) := by
  have hup := le_roundUp q.size (Nat.pos_of_isPowerOfTwo hpow)
  have hoffset : alignToPowerOf2 (s.freeOffset d q)
      (max s.currentStackAlignment (q.stackAlignment d)) = some (s.stackOffset d q) :=
    alignToPowerOf2_eq halignment halignment64 ((Nat.le_add_right _ _).trans_lt hlt)
  have hfree : s.freeOffset d q ≤ s.stackOffset d q :=
    le_roundUp _ (Nat.pos_of_isPowerOfTwo halignment)
  have hpadded : paddedSizeOnStack q.size d.minimumStackArgumentSize =
      some (roundUp q.size d.minimumStackArgumentSize) :=
    paddedSizeOnStack_eq hpow hsize.ne' ((Nat.le_add_left _ _).trans_lt hlt)
  have hpost : subtract (roundUp q.size d.minimumStackArgumentSize) q.size =
      roundUp q.size d.minimumStackArgumentSize - q.size :=
    subtract_of_le hup ((Nat.le_add_left _ _).trans_lt hlt)
  unfold distributeToStack
  simp only [hoffset, hfree, hpadded, hpost, guard_true, Option.pure_def, Option.bind_eq_bind,
    Option.bind_some, advance, uint64_of_lt hlt]

end ValueDistributor

/-! ## Registers and types -/

section

variable {d : Definition Register} {s : ValueDistributor} {type : ArgumentType}

/-- The count of the registers that a value may use. -/
def ValueDistributor.registerCount (s : ValueDistributor) (vector : Bool) : ℕ :=
  if vector then s.usedVectorRegisterCount else s.usedGeneralPurposeRegisterCount

def Definition.argumentRegisters (d : Definition Register) (vector : Bool) : List Register :=
  if vector then d.vectorArgumentRegisters else d.generalPurposeArgumentRegisters

theorem takes_window {s' : ValueDistributor} (vector : Bool) {registers : List Register} {i m : ℕ}
    (hi : s.registerCount vector ≤ i) (hm : i + m ≤ s'.registerCount vector)
    (hle : s'.registerCount vector ≤ (d.argumentRegisters vector).length)
    (hsame : s'.registerCount (!vector) = s.registerCount (!vector))
    (heq : registers = ((d.argumentRegisters vector).drop i).take m) : Takes d s s' registers := by
  cases vector with
  | false => exact .generalPurpose i m hi hm hle hsame heq
  | true => exact .vector i m hi hm hle hsame heq

@[simp] theorem ValueDistributor.registerCount_set (vector : Bool) (n : ℕ) :
    (s.setRegisterCount vector n).registerCount vector = n := by
  cases vector <;> rfl

@[simp] theorem ValueDistributor.registerCount_set_not (vector : Bool) (n : ℕ) :
    (s.setRegisterCount vector n).registerCount (!vector) = s.registerCount (!vector) := by
  cases vector <;> rfl

theorem ValueDistributor.setRegisterCount_self (vector : Bool) :
    s.setRegisterCount vector (s.registerCount vector) = s := by
  cases vector <;> rfl

theorem ArgumentType.Valid.passedSize (h : type.Valid) (d : Definition Register) :
    0 < type.passedSize d ∧ type.passedSize d < 2 ^ 64 := by
  unfold ArgumentType.passedSize
  split
  · rcases d.abi.getPointerSize_eq with hp | hp <;> rw [Definition.getPointerSize, hp] <;> decide
  · exact ⟨h.size, h.size64⟩

theorem ArgumentType.Valid.passedAlignment (h : type.Valid) (d : Definition Register) :
    type.passedAlignment d < 2 ^ 64 := by
  unfold ArgumentType.passedAlignment
  split
  · rcases d.abi.getPointerSize_eq with hp | hp <;> rw [Definition.getPointerSize, hp] <;> decide
  · exact h.alignment64

/-- A pointer needs no padding. -/
theorem pads_of_usesPointerToCopy (h : type.usesPointerToCopy d = true) :
    (s.request d type).pads d = false := by
  have hmulti : (s.request d type).multiAligned d = false := by
    simp [multiAligned, ValueDistributor.request, ArgumentType.passedSize,
      ArgumentType.passedAlignment, h]
  simp [pads, hmulti]

theorem markPointerToCopy_eq {value : DistributedValue Register}
    (hvalue : value.usesPointerToCopy = false) :
    ValueDistributor.markPointerToCopy (type.usesPointerToCopy d)
      ((s.request d type).padding d ++ [value]) =
      some ((s.request d type).padding d ++
        [{ value with usesPointerToCopy := type.usesPointerToCopy d }]) := by
  cases husesPointer : type.usesPointerToCopy d with
  | false =>
    cases value
    cases hvalue
    rfl
  | true =>
    rw [padding_of_not_pads (pads_of_usesPointerToCopy husesPointer)]
    rfl

/-- Under a position based ABI, every argument is as large as a pointer at most. -/
theorem passedSize_le (hposition : d.argumentsArePositionBased = true) :
    type.passedSize d ≤ d.getPointerSize := by
  unfold ArgumentType.passedSize ArgumentType.usesPointerToCopy
  rw [if_pos hposition]
  split
  · exact le_rfl
  · rename_i hle
    simpa using hle

end

/-! ## What `distribute` has to meet -/

section

variable [MachineRegister Register]

/-- The condition on the state before a value is distributed. -/
structure MeetsDistribute (d : Definition Register) (s : ValueDistributor)
    (result : List (DistributedValue Register)) (q : Request Register) : Prop where
  counts : q.miscounts d = false
  minimum : q.fits d = false → d.minimumStackArgumentSize.isPowerOfTwo
  aligned : q.fits d = false → q.splits d = false →
    (max s.currentStackAlignment (q.stackAlignment d)).isPowerOfTwo ∧
      q.stackAlignment d ∣ max s.currentStackAlignment (q.stackAlignment d)
  slot : q.splits d = true → d.packStackArguments = true →
    d.minimumStackArgumentSize ∣ s.usedStackOffset
  split64 : q.splits d = true →
    s.usedStackOffset + roundUp (q.size - bytes (q.left.drop (q.paddingRegisters d).length))
      d.minimumStackArgumentSize < 2 ^ 64
  stack64 : q.fits d = false → q.splits d = false →
    s.stackOffset d q + roundUp q.size d.minimumStackArgumentSize < 2 ^ 64
  packed : q.fits d = false → q.splits d = false → s.stackOffset d q < s.usedStackOffset →
    q.paddingRegisters d = [] ∧ ∃ last ∈ result.getLast?, last.OnStack

/-- The condition on a definition and the values it distributes. -/
structure Distributable (d : Definition Register) (s : ValueDistributor) (q : Request Register) :
    Prop where
  size : 0 < q.size
  size64 : q.size < 2 ^ 64
  alignment64 : q.alignment < 2 ^ 64
  minimum : 0 < d.minimumStackArgumentSize
  minimum64 : d.minimumStackArgumentSize < 2 ^ 64
  occupied : q.occupiedRegisterCount ≤ q.registers.length
  even : EvenRegisters d q
  position : d.argumentsArePositionBased = false
  current64 : s.currentStackAlignment < 2 ^ 64
  added : s.lastAddedStackPadding < d.minimumStackArgumentSize
  offset64 : s.usedStackOffset < 2 ^ 64
  slots : d.HasSlots → d.minimumStackArgumentSize ∣ s.usedStackOffset

/-- What the value has been given, after `result` and the padding. -/
structure Distributed (d : Definition Register) (s : ValueDistributor)
    (result : List (DistributedValue Register)) (q : Request Register)
    (value : DistributedValue Register) (next : ℕ) (s' : ValueDistributor) : Prop where
  padding : value.representsPadding = false
  registers : ∃ m, q.occupiedRegisterCount + (q.paddingRegisters d).length + m ≤ next ∧
    value.registers =
      (q.registers.drop (q.occupiedRegisterCount + (q.paddingRegisters d).length)).take m
  next : (∃ k ≤ q.left.length, next = q.occupiedRegisterCount + k) ∨
    (next = q.registers.length ∧ d.noRegisterArgumentsCanComeAfterStackOnes = true)
  holds : value.Holds q.size
  slot : value.OnStack → d.HasSlots ∨ value.registers ≠ [] →
    d.minimumStackArgumentSize ∣ value.offsetOnStack
  aligned : value.OnStack → value.registers = [] → q.stackAlignment d ∣ value.offsetOnStack
  spreads : Spreads d s s' (result ++ q.padding d) value
  current64 : s'.currentStackAlignment < 2 ^ 64
  same : s'.usedGeneralPurposeRegisterCount = s.usedGeneralPurposeRegisterCount ∧
    s'.usedVectorRegisterCount = s.usedVectorRegisterCount ∧ s'.argumentIndex = s.argumentIndex

variable {d : Definition Register} {s : ValueDistributor} {q : Request Register}
  {result : List (DistributedValue Register)}

theorem Distributable.stackAlignment64 (h : Distributable d s q) : q.stackAlignment d < 2 ^ 64 := by
  unfold Request.stackAlignment
  split
  · exact h.alignment64
  · exact h.minimum64

theorem distributed_of_fits (h : Distributable d s q) (hfits : q.fits d = true) :
    ∃ value next s', s.distribute d q = some (q.padding d ++ [value], next, s') ∧
      value.usesPointerToCopy = false ∧ Distributed d s result q value next s' := by
  obtain ⟨m, hm, hbytes, heq⟩ := ValueDistributor.distribute_of_fits (s := s) h.size hfits
  have hpads : q.pads d = false := by
    simp only [fits, Bool.and_eq_true, Bool.not_eq_true'] at hfits
    exact hfits.1.2
  refine ⟨_, _, _, by rw [heq, padding_of_not_pads hpads]; rfl, rfl, ?_⟩
  exact
    { padding := rfl
      registers := by
        rw [paddingRegisters_of_not_pads hpads]
        exact ⟨m, le_rfl, drop_take_left (i := 0) hm⟩
      next := .inl ⟨m, hm, rfl⟩
      holds := .inl ⟨rfl, hbytes⟩
      slot := fun hon => absurd rfl hon
      aligned := fun hon => absurd rfl hon
      spreads := .inRegisters (fun hon => hon rfl) (uint64_of_lt h.offset64) (.inl rfl)
      current64 := h.alignment64
      same := ⟨rfl, rfl, rfl⟩ }

theorem distributed_of_splits (h : Distributable d s q) (hmeets : MeetsDistribute d s result q)
    (hfits : q.fits d = false) (hsplits : q.splits d = true) :
    ∃ value next s', s.distribute d q = some (q.padding d ++ [value], next, s') ∧
      value.usesPointerToCopy = false ∧ Distributed d s result q value next s' := by
  obtain ⟨hless, hmore, -⟩ := ValueDistributor.consider_of_splits h.size h.even hsplits
  have hlt := hmeets.split64 hsplits
  obtain ⟨rest, sizeOnStack, hrest, hsizeOnStack, heq⟩ :=
    ValueDistributor.distribute_of_splits (s := s) h.size h.size64 h.even hsplits
      (hmeets.minimum hfits) ((Nat.le_add_left _ _).trans_lt hlt)
  rw [← hrest] at hless hmore hlt
  rw [← hsizeOnStack] at hlt
  have hne : rest ≠ [] := by
    rintro rfl
    exact absurd hmore (Nat.lt_irrefl 0)
  have hpos := h.minimum
  have hup : q.size - bytes rest ≤ sizeOnStack := hsizeOnStack ▸ le_roundUp _ hpos
  have hupper : sizeOnStack < q.size - bytes rest + d.minimumStackArgumentSize :=
    hsizeOnStack ▸ roundUp_lt _ hpos
  have hslot : d.minimumStackArgumentSize ∣ s.usedStackOffset := by
    by_cases hpack : d.packStackArguments = true
    · exact hmeets.slot hsplits hpack
    · exact h.slots (.inl (Bool.not_eq_true _ ▸ hpack))
  refine ⟨_, _, _, heq, rfl, ?_⟩
  exact
    { padding := rfl
      registers := by
        have hle := length_paddingRegisters_le (d := d) (q := q)
        have hwindow := drop_take_left (q := q) (i := (q.paddingRegisters d).length) le_rfl
        rw [List.take_length] at hwindow
        exact ⟨q.left.length - (q.paddingRegisters d).length, by omega, hrest.trans hwindow⟩
      next := .inl ⟨q.left.length, le_rfl, rfl⟩
      holds := .inr (.inr ⟨hne, by
        change sizeOnStack + bytes rest - q.size < sizeOnStack
        omega, by
        change bytes rest + (sizeOnStack - (sizeOnStack + bytes rest - q.size)) = q.size
        omega⟩)
      slot := fun _ _ => hslot
      aligned := fun _ hnil => absurd hnil hne
      spreads := by
        refine .onStack (Nat.sub_le _ _) (fun _ => le_rfl) (fun hlt => absurd hlt (Nat.lt_irrefl _))
          (Nat.le_add_right _ _) (uint64_of_lt hlt) ?_ ?_ rfl
          (fun hs => ?_) hlt fun hp => ?_
        · change sizeOnStack + bytes rest - q.size < sizeOnStack
          omega
        · change sizeOnStack + bytes rest - q.size < d.minimumStackArgumentSize
          omega
        · exact Nat.dvd_add hslot (hsizeOnStack ▸ dvd_roundUp _ _)
        · exact absurd hp (Bool.eq_false_iff.1 h.position)
      current64 := h.alignment64
      same := ⟨rfl, rfl, rfl⟩ }

theorem distributed_of_stack (h : Distributable d s q) (hmeets : MeetsDistribute d s result q)
    (hfits : q.fits d = false) (hsplits : q.splits d = false) :
    ∃ value next s', s.distribute d q = some (q.padding d ++ [value], next, s') ∧
      value.usesPointerToCopy = false ∧ Distributed d s result q value next s' := by
  have hlt := hmeets.stack64 hfits hsplits
  have hpos := h.minimum
  have hpow := hmeets.minimum hfits
  obtain ⟨hmax, hdvd⟩ := hmeets.aligned hfits hsplits
  have hup := le_roundUp q.size hpos
  have hupper := roundUp_lt q.size hpos
  have hslotted : d.minimumStackArgumentSize ≤ roundUp q.size d.minimumStackArgumentSize :=
    Nat.le_of_dvd (h.size.trans_le hup) (dvd_roundUp _ _)
  have hfree : s.usedStackOffset - s.lastAddedStackPadding ≤ s.stackOffset d q :=
    ValueDistributor.free_le.trans (le_roundUp _ (Nat.pos_of_isPowerOfTwo hmax))
  have hslot (hs : d.HasSlots) : d.minimumStackArgumentSize ∣ s.stackOffset d q := by
    rcases hs with hpack | hposition
    · rw [ValueDistributor.stackOffset, ValueDistributor.freeOffset_of_not_packed hpack]
      exact dvd_roundUp_of_dvd hpow hmax (h.slots (.inl hpack))
    · exact absurd hposition (Bool.eq_false_iff.1 h.position)
  have hstack := ValueDistributor.distributeToStack_eq h.size hpow hmax
    (Nat.max_lt.2 ⟨h.current64, h.stackAlignment64⟩) hlt
  have hadded := h.added
  have hle := length_paddingRegisters_le (d := d) (q := q)
  have hleft := add_length_left_le h.occupied
  refine ⟨_, _, _, by
    rw [ValueDistributor.distribute_of_stack h.size h.even hfits hsplits hmeets.counts, hstack]
    rfl, rfl, ?_⟩
  exact
    { padding := rfl
      registers := by
        refine ⟨0, ?_, rfl⟩
        split <;> omega
      next := by
        split
        · rename_i hno
          exact .inr ⟨rfl, hno⟩
        · exact .inl ⟨_, hle, rfl⟩
      holds := .inr (.inl ⟨rfl, by
        change q.size + (roundUp q.size d.minimumStackArgumentSize - q.size) ≤
          roundUp q.size d.minimumStackArgumentSize
        omega⟩)
      slot := fun _ hs => by
        rcases hs with hs | hs
        · exact hslot hs
        · exact absurd rfl hs
      aligned := fun _ _ => Nat.dvd_trans hdvd (dvd_roundUp _ _)
      spreads := by
        refine .onStack hfree (fun hp => ?_) (fun hover => ?_) ?_ rfl ?_ ?_ rfl (fun hs => ?_) hlt fun hp => ?_
        · exact (ValueDistributor.freeOffset_of_not_packed hp).symm.trans_le
            (le_roundUp _ (Nat.pos_of_isPowerOfTwo hmax))
        · obtain ⟨hnone, hlast⟩ := hmeets.packed hfits hsplits hover
          rw [padding, hnone, List.map_nil, List.append_nil]
          exact hlast
        · change s.usedStackOffset ≤ s.stackOffset d q + roundUp q.size d.minimumStackArgumentSize
          omega
        · change roundUp q.size d.minimumStackArgumentSize - q.size <
            roundUp q.size d.minimumStackArgumentSize
          have hsize := h.size
          omega
        · change roundUp q.size d.minimumStackArgumentSize - q.size < d.minimumStackArgumentSize
          omega
        · exact Nat.dvd_add (hslot hs) (dvd_roundUp _ _)
        · exact absurd hp (Bool.eq_false_iff.1 h.position)
      current64 := h.stackAlignment64
      same := ⟨rfl, rfl, rfl⟩ }

theorem evenRegisters_request {type : ArgumentType}
    (heven : d.onlyStartDoubleArgumentsFromAnEvenRegister = true →
    ∀ r ∈ d.generalPurposeArgumentRegisters, getSize r = d.getPointerSize) :
    EvenRegisters d (s.request d type) := by
  intro honly r hr
  have hmem : r ∈ (s.request d type).registers := List.mem_of_mem_drop (List.mem_of_mem_take hr)
  cases hvector : type.usesVectorRegisters d with
  | false =>
    simp only [ValueDistributor.request, hvector] at hmem
    exact heven honly r hmem
  | true =>
    have hnone : (s.request d type).left = [] := by
      rw [← List.length_eq_zero_iff, length_left]
      simp only [lastRegister, ValueDistributor.request, hvector, if_true, Nat.add_zero, uint64]
      omega
    rw [hnone] at hr
    exact absurd hr List.not_mem_nil

theorem exists_distributed (h : Distributable d s q) (hmeets : MeetsDistribute d s result q) :
    ∃ value next s', s.distribute d q = some (q.padding d ++ [value], next, s') ∧
      value.usesPointerToCopy = false ∧ Distributed d s result q value next s' := by
  cases hfits : q.fits d with
  | true => exact distributed_of_fits h hfits
  | false =>
    cases hsplits : q.splits d with
    | true => exact distributed_of_splits h hmeets hfits hsplits
    | false => exact distributed_of_stack h hmeets hfits hsplits

theorem Distributed.mark {value : DistributedValue Register} {next : ℕ} {s' : ValueDistributor}
    (h : Distributed d s result q value next s') (usesPointerToCopy : Bool) :
    Distributed d s result q { value with usesPointerToCopy } next s' where
  padding := h.padding
  registers := h.registers
  next := h.next
  holds := h.holds
  slot := h.slot
  aligned := h.aligned
  spreads := by
    cases h.spreads with
    | inRegisters hoff hu ha => exact .inRegisters hoff hu ha
    | onStack hfree hpacked hlast hstop hu hless hmin ha hslots h64 hposition =>
      exact .onStack hfree hpacked hlast hstop hu hless hmin ha hslots h64 hposition
  current64 := h.current64
  same := h.same

theorem Distributed.verifyNextRegisterIndex {value : DistributedValue Register} {next : ℕ}
    {s' : ValueDistributor} (h : Distributed d s result q value next s') :
    ValueDistributor.verifyNextRegisterIndex d q next = true := by
  simp only [ValueDistributor.verifyNextRegisterIndex, Bool.or_eq_true, Bool.and_eq_true,
    decide_eq_true_eq]
  rcases h.next with ⟨k, hk, rfl⟩ | hall
  · have hle : q.lastRegister ≤ uint64 (q.occupiedRegisterCount + q.allowedRegisterLimit) :=
      Nat.min_le_left _ _
    rw [length_left] at hk
    omega
  · exact .inr hall

end

/-! ## One argument more -/

section

variable [DecidableEq Register] [MachineRegister Register] {d : Definition Register} {flag : Bool}
  {s : ValueDistributor} {q : Request Register} {arguments : List ArgumentType} {type : ArgumentType}
  {result : List (DistributedValue Register)}

theorem Invariant.registerCount_le (h : Invariant d flag s arguments result) (vector : Bool) :
    s.registerCount vector ≤ (d.argumentRegisters vector).length := by
  cases vector with
  | false => exact h.generalPurpose
  | true => exact h.vector

/-- The padding in front of a value keeps the invariant. -/
theorem Invariant.appendPadding (hverify : d.verify = true)
    (hdisjoint : d.generalPurposeArgumentRegisters.Disjoint d.vectorArgumentRegisters)
    (h : Invariant d flag s arguments result) {vector : Bool}
    (hregisters : q.registers = d.argumentRegisters vector)
    (hoccupied : q.occupiedRegisterCount = s.registerCount vector) :
    Invariant d flag
      (s.setRegisterCount vector (q.occupiedRegisterCount + (q.paddingRegisters d).length)) arguments
      (result ++ q.padding d) := by
  have hle := h.registerCount_le vector
  rw [← hregisters, ← hoccupied] at hle
  have hlength := add_length_left_le hle
  by_cases hpads : (q.pads d && q.occupiedRegisterCount + 1 ≠ q.registers.length) = true
  · have hpos : 0 < q.left.length :=
      List.length_pos_iff.2 (left_ne_nil_of_pads (Bool.and_eq_true_iff.1 hpads).1)
    have hone : q.left.take 1 = (q.registers.drop q.occupiedRegisterCount).take 1 :=
      drop_take_left (i := 0) hpos
    obtain ⟨register, hregister⟩ : ∃ register, q.left.take 1 = [register] :=
      List.length_eq_one_iff.1 (by rw [List.length_take]; omega)
    have hpadding : q.paddingRegisters d = [register] := by
      rw [paddingRegisters, if_pos hpads, hregister]
    rw [Request.padding, hpadding, List.map_cons, List.map_nil]
    refine h.append hverify hdisjoint ?_ (.inRegisters (fun hon => hon rfl) ?_ ?_) ?_ ?_
      fun _ hon => hon rfl
    · refine takes_window vector (i := q.occupiedRegisterCount) (m := 1) hoccupied.ge ?_ ?_ ?_ ?_
      · rw [ValueDistributor.registerCount_set]
        rfl
      · rw [ValueDistributor.registerCount_set, ← hregisters]
        exact (Nat.add_le_add_left hpos _).trans hlength
      · rw [ValueDistributor.registerCount_set_not]
      · rw [← hregisters, ← hone, hregister]
    · cases vector <;> rfl
    · cases vector <;> exact .inr rfl
    · cases vector <;> exact h.alignment64
    · simpa using h.covered
  · have hpadding : q.paddingRegisters d = [] := by
      rw [paddingRegisters, if_neg hpads]
    rw [Request.padding, hpadding, List.map_nil, List.append_nil, List.length_nil, Nat.add_zero, hoccupied,
      ValueDistributor.setRegisterCount_self]
    exact h

/-- The padding of an argument and the argument keep the invariant. -/
theorem Invariant.appendDistributed (hverify : d.verify = true)
    (hdisjoint : d.generalPurposeArgumentRegisters.Disjoint d.vectorArgumentRegisters)
    (h : Invariant d flag s arguments result) (vector : Bool)
    (hregisters : q.registers = d.argumentRegisters vector)
    (hoccupied : q.occupiedRegisterCount = s.registerCount vector)
    {value : DistributedValue Register} {next : ℕ} {s₁ s' : ValueDistributor}
    (hdistributed : Distributed d s result q value next s₁)
    (hsettled : Settled d type value)
    (hcount : s'.registerCount vector = next)
    (hother : s'.registerCount (!vector) = s.registerCount (!vector))
    (hstack : s'.usedStackOffset = s₁.usedStackOffset ∧
      s'.lastAddedStackPadding = s₁.lastAddedStackPadding ∧
      s'.currentStackAlignment = s₁.currentStackAlignment) :
    Invariant d flag s' (arguments ++ [type]) (result ++ q.padding d ++ [value]) := by
  have hpadded := h.appendPadding (q := q) hverify hdisjoint hregisters hoccupied
  have hle := h.registerCount_le vector
  rw [← hregisters, ← hoccupied] at hle
  have hlength := add_length_left_le hle
  obtain ⟨m, hm, heq⟩ := hdistributed.registers
  have hnext : next ≤ q.registers.length := by
    rcases hdistributed.next with ⟨k, hk, rfl⟩ | ⟨rfl, -⟩
    · exact (Nat.add_le_add_left hk _).trans hlength
    · exact le_rfl
  refine hpadded.append hverify hdisjoint ?_ ?_ ?_ ?_ fun htrue => ?_
  · refine takes_window vector (ValueDistributor.registerCount_set vector _).le (hcount ▸ hm)
      (hcount ▸ hregisters ▸ hnext) ?_ (hregisters ▸ heq)
    rw [ValueDistributor.registerCount_set_not, hother]
  · refine hdistributed.spreads.congr ?_ ?_ hstack.1 hstack.2.1
    · cases vector <;> rfl
    · cases vector <;> rfl
  · exact hstack.2.2 ▸ hdistributed.current64
  · have hfilter : (result ++ q.padding d ++ [value]).filter (!·.representsPadding) =
        result.filter (!·.representsPadding) ++ [value] := by
      have hnone : (q.padding d).filter (!·.representsPadding) = [] := by
        simp [Request.padding]
      rw [List.filter_append, List.filter_append, hnone, List.append_nil]
      simp [hdistributed.padding]
    rw [hfilter]
    exact List.rel_append h.covered (.cons hsettled .nil)
  · rw [hdistributed.padding] at htrue
    exact absurd htrue Bool.false_ne_true

/-! ## The three kinds of arguments -/

/-- The condition on the state before an argument of a position based ABI. -/
structure MeetsPosition (d : Definition Register) (s : ValueDistributor) (type : ArgumentType) :
    Prop where
  register : ∀ r ∈ (type.positionRegisters d)[s.nextPositionBasedIndex]?,
    type.passedSize d ≤ getSize r
  minimum : (type.positionRegisters d).length ≤ s.nextPositionBasedIndex → s.usedStackOffset ≠ 0 →
    d.minimumStackArgumentSize.isPowerOfTwo
  stack64 : (type.positionRegisters d).length ≤ s.nextPositionBasedIndex →
    s.usedStackOffset + d.getPointerSize < 2 ^ 64

/-- The condition on the state before an argument. -/
def Meets (d : Definition Register) (s : ValueDistributor)
    (result : List (DistributedValue Register)) (type : ArgumentType) : Prop :=
  if d.argumentsArePositionBased then
    MeetsPosition d s type
  else
    type.alignmentInfo.isSome ∧
      match type.usesVectorRegisters d, d.vectorArgumentRegisters[s.usedVectorRegisterCount]? with
      | true, some register => type.size ≤ getSize register
      | _, _ => MeetsDistribute d s result (s.request d type)

theorem Invariant.distributable (hverify : d.verify = true) (h : Invariant d flag s arguments result)
    (hregular : d.Regular flag) (hvalid : type.Valid) (hposition : d.argumentsArePositionBased = false) :
    Distributable d s (s.request d type) where
  size := (hvalid.passedSize d).1
  size64 := (hvalid.passedSize d).2
  alignment64 := hvalid.passedAlignment d
  minimum := d.minimumStackArgumentSize_pos hverify
  minimum64 := hregular.minimum64
  occupied := h.registerCount_le (type.usesVectorRegisters d)
  even := evenRegisters_request hregular.even
  position := hposition
  current64 := h.alignment64
  added := h.added
  offset64 := h.offset64
  slots := h.slots

/-- An argument that goes through `distribute`. -/
theorem Invariant.distributeArgument (hverify : d.verify = true) (hregular : d.Regular flag)
    (h : Invariant d flag s arguments result) (hvalid : type.Valid)
    (hposition : d.argumentsArePositionBased = false)
    (hmeets : MeetsDistribute d s result (s.request d type)) :
    ∃ values s', s.distributeArgument d type = some (values, s') ∧
      Invariant d flag s' (arguments ++ [type]) (result ++ values) := by
  obtain ⟨value, next, s₁, heq, hvalue, hdistributed⟩ :=
    exists_distributed (h.distributable hverify hregular hvalid hposition) hmeets
  refine ⟨(s.request d type).padding d ++
      [{ value with usesPointerToCopy := type.usesPointerToCopy d }],
    { s₁.setRegisterCount (type.usesVectorRegisters d) next with
      argumentIndex := s₁.argumentIndex + 1 }, ?_, ?_⟩
  · simp only [ValueDistributor.distributeArgument, heq, Option.bind_eq_bind, Option.bind_some,
      markPointerToCopy_eq hvalue, hdistributed.verifyNextRegisterIndex, guard_true]
    rfl
  · rw [← List.append_assoc]
    refine h.appendDistributed hverify hregular.disjoint (type.usesVectorRegisters d) rfl rfl
      (hdistributed.mark _) ⟨rfl, hdistributed.holds, hdistributed.slot,
        fun hon _ => hdistributed.aligned hon⟩
      ?_ ?_ ?_
    · cases type.usesVectorRegisters d <;> rfl
    · cases type.usesVectorRegisters d
      · exact hdistributed.same.2.1
      · exact hdistributed.same.1
    · cases type.usesVectorRegisters d <;> exact ⟨rfl, rfl, rfl⟩

/-- A float in a vector register. -/
theorem Invariant.vectorArgument (hverify : d.verify = true) (hregular : d.Regular flag)
    (h : Invariant d flag s arguments result) (hposition : d.argumentsArePositionBased = false)
    (hvector : type.usesVectorRegisters d = true) {register : Register}
    (hregister : d.vectorArgumentRegisters[s.usedVectorRegisterCount]? = some register)
    (hsize : type.size ≤ getSize register) :
    Invariant d flag { s with usedVectorRegisterCount := s.usedVectorRegisterCount + 1 }
      (arguments ++ [type]) (result ++ [{ registers := [register] }]) := by
  obtain ⟨hlt, hget⟩ := List.getElem?_eq_some_iff.1 hregister
  have hpointer : type.usesPointerToCopy d = false := by
    simp [ArgumentType.usesPointerToCopy, hposition, hvector]
  refine h.append hverify hregular.disjoint
    (.vector s.usedVectorRegisterCount 1 le_rfl le_rfl hlt rfl ?_)
    (.inRegisters (fun hon => hon rfl) rfl (.inr rfl)) h.alignment64 ?_
    fun htrue => absurd htrue Bool.false_ne_true
  · rw [List.take_one, List.head?_drop, hregister]
    rfl
  · rw [List.filter_append]
    refine List.rel_append h.covered (.cons ⟨hpointer.symm, .inl ⟨rfl, ?_⟩, ?_, ?_⟩ .nil)
    · simpa [ArgumentType.passedSize, hpointer] using hsize
    · exact fun hon => absurd rfl hon
    · exact fun hon => absurd rfl hon

/-- An argument of a position based ABI. -/
theorem Invariant.positionArgument (hverify : d.verify = true) (hregular : d.Regular flag)
    (h : Invariant d flag s arguments result)
    (hposition : d.argumentsArePositionBased = true) (hmeets : MeetsPosition d s type) :
    ∃ values s', s.positionBased d type = some (values, s') ∧
      Invariant d flag s' (arguments ++ [type]) (result ++ values) := by
  have hcount : s.registerCount (type.usesVectorPosition d) ≤ s.nextPositionBasedIndex := by
    unfold ValueDistributor.nextPositionBasedIndex ValueDistributor.registerCount
    split <;> omega
  have hzero := h.position hposition
  have hfilter (value : DistributedValue Register) (hp : value.representsPadding = false) :
      (result ++ [value]).filter (!·.representsPadding) =
        result.filter (!·.representsPadding) ++ [value] := by
    simp [hp]
  cases hregister : (type.positionRegisters d)[s.nextPositionBasedIndex]? with
  | some register =>
    obtain ⟨hlt, hget⟩ := List.getElem?_eq_some_iff.1 hregister
    have htaken : ({ s.setRegisterCount (type.usesVectorPosition d) (s.nextPositionBasedIndex + 1) with
        argumentIndex := s.argumentIndex + 1 } : ValueDistributor).registerCount
          (type.usesVectorPosition d) = s.nextPositionBasedIndex + 1 := by
      cases type.usesVectorPosition d <;> rfl
    refine ⟨[{ registers := [register], size := type.passedSize d,
               usesPointerToCopy := type.usesPointerToCopy d }],
      { s.setRegisterCount (type.usesVectorPosition d) (s.nextPositionBasedIndex + 1) with
        argumentIndex := s.argumentIndex + 1 }, ?_, ?_⟩
    · unfold ValueDistributor.registerCount at hcount
      simp only [ValueDistributor.positionBased, hregister, hcount, guard_true]
      rfl
    · refine h.append hverify hregular.disjoint
        (takes_window (type.usesVectorPosition d) hcount htaken.ge (htaken.trans_le hlt) ?_ ?_)
        (.inRegisters (fun hon => hon rfl) ?_ ?_) ?_ ?_ fun htrue => absurd htrue Bool.false_ne_true
      · cases type.usesVectorPosition d <;> rfl
      · rw [List.take_one, List.head?_drop]
        exact (congrArg Option.toList hregister).symm
      · cases type.usesVectorPosition d <;> rfl
      · cases type.usesVectorPosition d <;> exact .inr rfl
      · cases type.usesVectorPosition d <;> exact h.alignment64
      · rw [hfilter _ rfl]
        refine List.rel_append h.covered (.cons ⟨rfl, .inl ⟨rfl, ?_⟩, ?_, ?_⟩ .nil)
        · simpa using hmeets.register register hregister
        · exact fun hon => absurd rfl hon
        · exact fun hon => absurd rfl hon
  | none =>
    have hnone := List.getElem?_eq_none_iff.1 hregister
    have hfits := hmeets.stack64 hnone
    have hslot : d.minimumStackArgumentSize ∣ s.usedStackOffset := h.slots (.inr hposition)
    have hpos := d.minimumStackArgumentSize_pos hverify
    refine ⟨[{ size := type.passedSize d, usesPointerToCopy := type.usesPointerToCopy d
               offsetOnStack := s.usedStackOffset, sizeOnStack := d.getPointerSize }],
      { s with usedStackOffset := s.usedStackOffset + d.getPointerSize
               argumentIndex := s.argumentIndex + 1 }, ?_, ?_⟩
    · have hpadded (hne : s.usedStackOffset ≠ 0) :
          paddedSizeOnStack s.usedStackOffset d.minimumStackArgumentSize =
            some s.usedStackOffset := by
        have hup := roundUp_of_dvd hpos hslot
        rw [paddedSizeOnStack_eq (hmeets.minimum hnone hne) hne (hup.trans_lt h.offset64), hup]
      by_cases hne : s.usedStackOffset = 0
      · simp only [ValueDistributor.positionBased, hregister, hne, uint64_of_lt (hne ▸ hfits)]
        rfl
      · simp only [ValueDistributor.positionBased, hregister, hne, hpadded hne, uint64_of_lt hfits,
          ne_eq, not_false_eq_true, if_true, Option.bind_eq_bind, Option.bind_some, guard_true]
        rfl
    · refine h.append hverify hregular.disjoint
        (.generalPurpose s.usedGeneralPurposeRegisterCount 0 le_rfl le_rfl h.generalPurpose rfl rfl)
        (.onStack (Nat.sub_le _ _) (fun _ => le_rfl) (fun hlt => absurd hlt (Nat.lt_irrefl _))
          (Nat.le_add_right _ _) rfl
          d.abi.getPointerSize_pos hpos hzero
          (fun _ => Nat.dvd_add hslot (hregular.slot (.inl hposition))) hfits fun _ => rfl)
        h.alignment64 ?_ fun htrue => absurd htrue Bool.false_ne_true
      rw [hfilter _ rfl]
      refine List.rel_append h.covered (.cons ⟨rfl, .inr (.inl ⟨rfl, ?_⟩), ?_, ?_⟩ .nil)
      · exact passedSize_le hposition
      · exact fun _ _ => hslot
      · exact fun _ hnot => absurd hposition (Bool.eq_false_iff.1 hnot)

/-- What one argument preserves. -/
theorem Invariant.nextArgument (hverify : d.verify = true) (hregular : d.Regular flag)
    (h : Invariant d flag s arguments result) (hvalid : type.Valid) (hmeets : Meets d s result type) :
    ∃ values s', s.nextArgument d type = some (values, s') ∧
      Invariant d flag s' (arguments ++ [type]) (result ++ values) := by
  unfold Meets at hmeets
  unfold ValueDistributor.nextArgument
  split at hmeets
  · rename_i hposition
    rw [if_pos hposition]
    exact h.positionArgument hverify hregular hposition hmeets
  · rename_i hposition
    rw [Bool.not_eq_true] at hposition
    obtain ⟨hinfo, hmeets⟩ := hmeets
    rw [if_neg (by simp [hposition]), ValueDistributor.nonPositionBased]
    simp only [hinfo, guard_true, Option.bind_eq_bind]
    cases hvector : type.usesVectorRegisters d with
    | false =>
      simp only [hvector] at hmeets ⊢
      exact h.distributeArgument hverify hregular hvalid hposition hmeets
    | true =>
      cases hregister : d.vectorArgumentRegisters[s.usedVectorRegisterCount]? with
      | none =>
        simp only [hvector, hregister] at hmeets ⊢
        exact h.distributeArgument hverify hregular hvalid hposition hmeets
      | some register =>
        simp only [hvector, hregister] at hmeets ⊢
        exact ⟨_, _, rfl, h.vectorArgument hverify hregular hposition hvector hregister hmeets⟩

end

end ABI
