import Revng.ABI.ArgumentSteps

/-!
# Trimmed padding

Where stack arguments are packed, a value that overlaps the next one loses its padding in the end.  Apart
from that nothing of the values changes (`Trimmed`), and afterwards no two of them overlap
(`exists_trimOverlaps`).
-/

namespace ABI

namespace DistributedValue

open LooseSpans

variable {Register : Type} {value value' : DistributedValue Register}

/-- The padding is a part of what is on the stack, and ends below 2⁶⁴. -/
def Proper (value : DistributedValue Register) : Prop :=
  value.OnStack → value.postPaddingSize < value.sizeOnStack ∧ value.stop < 2 ^ 64

/-- All that may change is that there is no padding any more. -/
structure Trimmed (value value' : DistributedValue Register) : Prop where
  registers : value'.registers = value.registers
  pointer : value'.usesPointerToCopy = value.usesPointerToCopy
  padding : value'.representsPadding = value.representsPadding
  offset : value'.offsetOnStack = value.offsetOnStack
  onStack : value'.OnStack ↔ value.OnStack
  proper : value'.Proper
  same : value' = value ∨
    value.OnStack ∧ value'.postPaddingSize = 0 ∧
      value'.sizeOnStack = value.sizeOnStack - value.postPaddingSize

theorem Trimmed.refl (h : value.Proper) : Trimmed value value :=
  ⟨rfl, rfl, rfl, rfl, .rfl, h, .inl rfl⟩

theorem Trimmed.trans {value'' : DistributedValue Register} (h : Trimmed value value')
    (h' : Trimmed value' value'') : Trimmed value value'' where
  registers := h'.registers.trans h.registers
  pointer := h'.pointer.trans h.pointer
  padding := h'.padding.trans h.padding
  offset := h'.offset.trans h.offset
  onStack := h'.onStack.trans h.onStack
  proper := h'.proper
  same := by
    rcases h'.same with hsame' | ⟨hon', hpost', hsize'⟩
    · exact hsame' ▸ h.same
    · rcases h.same with hsame | ⟨hon, hpost, hsize⟩
      · rw [hsame] at hon' hsize'
        exact .inr ⟨hon', hpost', hsize'⟩
      · exact .inr ⟨hon, hpost', by rw [hsize', hpost, hsize, Nat.sub_zero]⟩

theorem trimmed_dropPostPadding (h : value.Proper) (hon : value.OnStack) :
    Trimmed value value.dropPostPadding ∧ value.dropPostPadding.stop = value.content := by
  obtain ⟨hless, hstop⟩ := h hon
  have hsize : value.dropPostPadding.sizeOnStack = value.sizeOnStack - value.postPaddingSize := by
    unfold stop at hstop
    exact subtract_of_le hless.le (by omega)
  have hpos : value.dropPostPadding.sizeOnStack ≠ 0 := by omega
  refine ⟨⟨rfl, rfl, rfl, rfl, iff_of_true hpos hon, fun _ => ⟨?_, ?_⟩, .inr ⟨hon, rfl, hsize⟩⟩, ?_⟩
  · exact Nat.pos_of_ne_zero hpos
  · unfold stop at hstop ⊢
    rw [hsize]
    exact Nat.lt_of_le_of_lt (Nat.add_le_add_left (Nat.sub_le _ _) _) hstop
  · rw [stop, hsize]
    rfl

theorem Trimmed.holds [MachineRegister Register] (h : Trimmed value value') {size : ℕ}
    (hholds : value.Holds size) : value'.Holds size := by
  rcases h.same with hsame | ⟨hon, hpost, hsize⟩
  · exact hsame ▸ hholds
  · unfold OnStack at hon
    unfold Holds at hholds ⊢
    rw [h.registers, hpost, hsize]
    rcases hholds with ⟨hzero, -⟩ | ⟨hnil, hle⟩ | ⟨hne, hless, heq⟩
    · exact absurd hzero hon
    · exact .inr (.inl ⟨hnil, by omega⟩)
    · exact .inr (.inr ⟨hne, by omega, heq⟩)

theorem Trimmed.settled [MachineRegister Register] (h : Trimmed value value')
    {d : Definition Register} {type : ArgumentType} (hsettled : Settled d type value) :
    Settled d type value' where
  pointer := h.pointer ▸ hsettled.pointer
  holds := h.holds hsettled.holds
  slot := fun hon hslots => by
    rw [h.registers] at hslots
    exact h.offset ▸ hsettled.slot (h.onStack.1 hon) hslots
  aligned := fun hon hposition hnil => by
    rw [h.registers] at hnil
    exact h.offset ▸ hsettled.aligned (h.onStack.1 hon) hposition hnil

/-! ## Lists of values -/

abbrev AllTrimmed (values values' : List (DistributedValue Register)) : Prop :=
  List.Forall₂ Trimmed values values'

theorem AllTrimmed.trans {values values' values'' : List (DistributedValue Register)}
    (h : AllTrimmed values values') (h' : AllTrimmed values' values'') :
    AllTrimmed values values'' := by
  induction h generalizing values'' with
  | nil => exact h'
  | cons ht _ ih =>
    cases h' with
    | cons ht' hrest' => exact .cons (ht.trans ht') (ih hrest')

theorem exists_of_mem_trimmed {values values' : List (DistributedValue Register)}
    (h : AllTrimmed values values') (hmem : value' ∈ values') :
    ∃ value ∈ values, Trimmed value value' := by
  induction h with
  | nil => exact absurd hmem List.not_mem_nil
  | cons htrimmed _ ih =>
    rcases List.mem_cons.1 hmem with rfl | hmem
    · exact ⟨_, List.mem_cons_self, htrimmed⟩
    · obtain ⟨v, hv, ht⟩ := ih hmem
      exact ⟨v, List.mem_cons_of_mem _ hv, ht⟩

theorem flatMap_registers_of_trimmed {result result' : List (DistributedValue Register)}
    (h : AllTrimmed result result') :
    result'.flatMap DistributedValue.registers = result.flatMap DistributedValue.registers := by
  induction h with
  | nil => rfl
  | cons ht _ ih => rw [List.flatMap_cons, List.flatMap_cons, ih, ht.registers]

theorem covered_of_trimmed [MachineRegister Register] {d : Definition Register}
    {arguments : List ArgumentType} {result result' : List (DistributedValue Register)}
    (h : AllTrimmed result result')
    (hcovered : List.Forall₂ (Settled d) arguments (result.filter (!·.representsPadding))) :
    List.Forall₂ (Settled d) arguments (result'.filter (!·.representsPadding)) := by
  induction h generalizing arguments with
  | nil => exact hcovered
  | @cons value value' result result' ht hrest ih =>
    cases hpadding : value.representsPadding with
    | true =>
      have hpadding' : value'.representsPadding = true := ht.padding.trans hpadding
      rw [List.filter_cons_of_neg (by simp [hpadding])] at hcovered
      rw [List.filter_cons_of_neg (by simp [hpadding'])]
      exact ih hcovered
    | false =>
      have hpadding' : value'.representsPadding = false := ht.padding.trans hpadding
      rw [List.filter_cons_of_pos (by simp [hpadding])] at hcovered
      rw [List.filter_cons_of_pos (by simp [hpadding'])]
      cases hcovered with
      | cons hsettled hcovered => exact .cons (ht.settled hsettled) (ih hcovered)

/-- A value is trimmed if the next one overlaps it, and overlaps no value then. -/
theorem exists_trimmed {current next : DistributedValue Register}
    {rest : List (DistributedValue Register)}
    (hloose : Loose OnStack offsetOnStack content stop (current :: next :: rest))
    (hproper : current.Proper) :
    ∃ trimmed, trimOverlap current next = some trimmed ∧
      Trimmed current trimmed ∧
      (current.OnStack → ∀ b ∈ next :: rest, b.OnStack → trimmed.stop ≤ b.offsetOnStack) := by
  by_cases hover : current.OnStack ∧ next.OnStack ∧ next.offsetOnStack < current.stop
  · obtain ⟨hon, hnext, hlt⟩ := hover
    obtain ⟨htrimmed, hstop⟩ := trimmed_dropPostPadding hproper hon
    have hcontent := hloose.content_le hon List.mem_cons_self hnext
    have hstop64 : uint64 (current.offsetOnStack + current.sizeOnStack) = current.stop :=
      uint64_of_lt (hproper hon).2
    have hcond : current.sizeOnStack ≠ 0 ∧ next.sizeOnStack ≠ 0 ∧
        next.offsetOnStack < uint64 (current.offsetOnStack + current.sizeOnStack) :=
      ⟨hon, hnext, hstop64 ▸ hlt⟩
    have hguard : uint64 (current.dropPostPadding.offsetOnStack + current.dropPostPadding.sizeOnStack) ≤
        next.offsetOnStack :=
      calc uint64 (current.dropPostPadding.offsetOnStack + current.dropPostPadding.sizeOnStack)
          = current.dropPostPadding.stop :=
            uint64_of_lt (htrimmed.proper (htrimmed.onStack.2 hon)).2
        _ = current.content := hstop
        _ ≤ next.offsetOnStack := hcontent
    refine ⟨current.dropPostPadding, ?_, htrimmed, fun _ b hb hplaced => ?_⟩
    · rw [trimOverlap, if_pos hcond]
      simp only [hguard, guard_true]
      rfl
    · exact hstop.trans_le (hloose.content_le hon hb hplaced)
  · refine ⟨current, if_neg fun hcond => hover ⟨hcond.1, hcond.2.1, ?_⟩, .refl hproper,
      fun hon b hb hplaced => ?_⟩
    · have hstop64 : uint64 (current.offsetOnStack + current.sizeOnStack) = current.stop :=
        uint64_of_lt (hproper hcond.1).2
      exact hstop64 ▸ hcond.2.2
    · refine hloose.stop_le hon (fun n hn hnext => ?_) hb hplaced
      rw [List.head?_cons, Option.mem_some_iff] at hn
      subst hn
      exact Nat.le_of_not_lt fun hlt => hover ⟨hon, hnext, hlt⟩

/-- In the end, no value overlaps a later one. -/
theorem exists_trimOverlaps {values : List (DistributedValue Register)}
    (hloose : Loose OnStack offsetOnStack content stop values) (hproper : ∀ v ∈ values, v.Proper) :
    ∃ values', trimOverlaps values = some values' ∧ AllTrimmed values values' ∧ Ordered values' := by
  induction values with
  | nil => exact ⟨[], rfl, .nil, .nil⟩
  | cons current rest ih =>
    rw [List.forall_mem_cons] at hproper
    obtain ⟨hcurrent, hrest⟩ := hproper
    cases rest with
    | nil => exact ⟨[current], rfl, .cons (.refl hcurrent) .nil, List.pairwise_singleton _ _⟩
    | cons next rest =>
      obtain ⟨rest', heq, htrimmed, hordered⟩ := ih hloose.tail hrest
      obtain ⟨trimmed, hhead, hcurrent, hstop⟩ := exists_trimmed hloose hcurrent
      refine ⟨trimmed :: rest', ?_, .cons hcurrent htrimmed, .cons (fun b hb hon hplaced => ?_) hordered⟩
      · rw [trimOverlaps, hhead, heq]
        rfl
      · obtain ⟨v, hv, ht⟩ := exists_of_mem_trimmed htrimmed hb
        rw [ht.offset]
        exact hstop (hcurrent.onStack.1 hon) v hv (ht.onStack.1 hplaced)

theorem trimLast_spec {values : List (DistributedValue Register)} (hordered : Ordered values)
    (hproper : ∀ v ∈ values, v.Proper) :
    AllTrimmed values (trimLast values) ∧ Ordered (trimLast values) := by
  induction values with
  | nil => exact ⟨.nil, .nil⟩
  | cons value rest ih =>
    rw [List.forall_mem_cons] at hproper
    obtain ⟨hvalue, hrest⟩ := hproper
    cases rest with
    | nil =>
      refine ⟨.cons ?_ .nil, List.pairwise_singleton _ _⟩
      split
      · rename_i hon
        exact (trimmed_dropPostPadding hvalue hon).1
      · exact .refl hvalue
    | cons next rest =>
      obtain ⟨hhead, htail⟩ := List.pairwise_cons.1 hordered
      obtain ⟨htrimmed, hordered⟩ := ih htail hrest
      refine ⟨.cons (.refl hvalue) htrimmed, .cons (fun b hb hon hplaced => ?_) hordered⟩
      obtain ⟨v, hv, ht⟩ := exists_of_mem_trimmed htrimmed hb
      rw [ht.offset]
      exact hhead v hv hon (ht.onStack.1 hplaced)

end DistributedValue

/-!
## The distribution of all arguments

A list of arguments is distributed well if every argument meets its condition in the state before it
(`distributeArguments_wellFormed`).  Without the condition that is not so: on `aapcs`, a 64 bit integer
after a 32 bit one is given two registers and four bytes of the stack (`not_wellFormed_aapcs`).
-/

open DistributedValue LooseSpans

variable {Register : Type} [MachineRegister Register]
  {d : Definition Register} {flag : Bool} {s : ValueDistributor} {arguments : List ArgumentType}
  {result : List (DistributedValue Register)}

/-! ## Runs -/

/-- Every argument meets its condition, after those before it. -/
def MeetsFrom (d : Definition Register) :
    ValueDistributor → List (DistributedValue Register) → List ArgumentType → Prop
  | _, _, [] => True
  | s, result, type :: rest =>
    Meets d s result type ∧
      ∀ values s', s.nextArgument d type = some (values, s') → MeetsFrom d s' (result ++ values) rest

theorem meetsFrom_cons {type : ArgumentType} {rest : List ArgumentType} {s' : ValueDistributor}
    {values : List (DistributedValue Register)} (hmeets : Meets d s result type)
    (heq : s.nextArgument d type = some (values, s'))
    (hrest : MeetsFrom d s' (result ++ values) rest) : MeetsFrom d s result (type :: rest) := by
  refine ⟨hmeets, fun values' t h => ?_⟩
  rw [heq, Option.some_inj, Prod.mk.injEq] at h
  obtain ⟨rfl, rfl⟩ := h
  exact hrest

theorem meets_of_distribute {type : ArgumentType} (hposition : d.argumentsArePositionBased = false)
    (hinfo : type.alignmentInfo.isSome) (hvector : type.usesVectorRegisters d = false)
    (h : MeetsDistribute d s result (s.request d type)) : Meets d s result type := by
  simp only [Meets, hposition, hvector]
  exact ⟨hinfo, h⟩

/-- A value that fits the registers left may always be distributed. -/
theorem meetsDistribute_of_fits {q : Request Register} (h : q.fits d = true) :
    MeetsDistribute d s result q := by
  have hsplits : ¬ q.splits d = true := fun hsplits => by
    simp only [Request.fits, Request.splits, Bool.and_eq_true, Bool.not_eq_true', decide_eq_true_eq]
      at h hsplits
    rw [h.1.2] at hsplits
    simp at hsplits
    omega
  have hnot {p : Prop} (hf : q.fits d = false) : p := Bool.noConfusion (h.symm.trans hf)
  refine ⟨?_, hnot, hnot, fun hs => absurd hs hsplits, fun hs => absurd hs hsplits, hnot, hnot⟩
  simp only [Request.fits, Bool.and_eq_true, Bool.not_eq_true'] at h
  simp [Request.miscounts, h.1.2]

variable [DecidableEq Register]

def MeetsAll (d : Definition Register) (hasReturnValueLocationArgument : Bool)
    (arguments : List ArgumentType) : Prop :=
  ∀ s, ValueDistributor.start d hasReturnValueLocationArgument = some s → MeetsFrom d s [] arguments

/-- The invariant before any argument. -/
theorem invariant_init (hregular : d.Regular flag) {s : ValueDistributor}
    (hgprs : s.usedGeneralPurposeRegisterCount ≤ d.generalPurposeArgumentRegisters.length)
    (hvectors : s.usedVectorRegisterCount = 0) (halignment : s.currentStackAlignment = 0)
    (hadded : s.lastAddedStackPadding = 0) (hused : s.usedStackOffset = firstOffset d flag)
    (hreserved : reservedRegisters d flag =
      d.generalPurposeArgumentRegisters.take s.usedGeneralPurposeRegisterCount)
    (hverify : d.verify = true) : Invariant d flag s [] [] where
  generalPurpose := hgprs
  vector := hvectors ▸ Nat.zero_le _
  nodup := by
    rw [hreserved, List.flatMap_nil, List.append_nil]
    exact (d.nodup_of_verify hverify).1.sublist (List.take_sublist _ _)
  taken := by
    rw [hreserved, List.flatMap_nil, List.append_nil]
    exact fun r hr => .inl hr
  covered := .nil
  padding := by simp
  loose := loose_nil
  ordered := fun _ => .nil
  inside := by simp
  first := by rw [hadded, hused, Nat.sub_zero]
  slots := fun hs => by
    rw [hused]
    unfold firstOffset
    split
    · rename_i hslot
      exact Nat.dvd_add (hregular.unused hs) (hregular.slot (.inr ⟨hs, hslot⟩))
    · exact hregular.unused hs
  added := hadded ▸ d.minimumStackArgumentSize_pos hverify
  alignment64 := halignment ▸ by decide
  offset64 := hused ▸ hregular.first64
  position := fun _ => hadded

theorem exists_start (hverify : d.verify = true) (hregular : d.Regular flag) :
    ∃ s, ValueDistributor.start d flag = some s ∧ Invariant d flag s [] [] := by
  have hfirst := hregular.first64
  cases flag with
  | false =>
    refine ⟨{ usedStackOffset := d.unusedStackArgumentBytes }, ?_,
      invariant_init hregular (Nat.zero_le _) rfl rfl rfl rfl rfl hverify⟩
    simp [ValueDistributor.start, hverify]
  | true =>
    simp only [ValueDistributor.start, hverify, guard_true,
      ValueDistributor.addShadowPointerReturnValueLocationArgument]
    cases hlocation : d.returnValueLocationRegister with
    | none =>
      cases hstack : d.returnValueLocationOnStack with
      | false =>
        refine ⟨_, rfl, invariant_init hregular (Nat.zero_le _) rfl rfl rfl ?_ ?_ hverify⟩
        · simp [firstOffset, reservesSlot, hstack]
        · simp [reservedRegisters, hlocation]
      | true =>
        have hslot : reservesSlot d true = true := by simp [reservesSlot, hlocation, hstack]
        have hdvd : d.unusedStackArgumentBytes % d.getPointerSize = 0 :=
          Nat.mod_eq_zero_of_dvd (hregular.pointer hslot)
        rw [firstOffset, if_pos hslot] at hfirst
        refine ⟨{ usedStackOffset := d.unusedStackArgumentBytes + d.getPointerSize
                  argumentIndex := 1 }, ?_,
          invariant_init hregular (Nat.zero_le _) rfl rfl rfl ?_ ?_ hverify⟩
        · simp [hdvd, uint64_of_lt hfirst]
        · rw [firstOffset, if_pos hslot]
        · simp [reservedRegisters, hlocation]
    | some location =>
      have hoffset : firstOffset d true = d.unusedStackArgumentBytes := by
        simp [firstOffset, reservesSlot, hlocation]
      cases hgprs : d.generalPurposeArgumentRegisters with
      | nil =>
        refine ⟨_, rfl, invariant_init hregular (Nat.zero_le _) rfl rfl rfl hoffset.symm ?_ hverify⟩
        simp [reservedRegisters, hlocation, hgprs]
      | cons first rest =>
        by_cases heq : location = first
        · refine ⟨{ usedStackOffset := d.unusedStackArgumentBytes
                    usedGeneralPurposeRegisterCount := 1, argumentIndex := 1 }, ?_,
            invariant_init hregular ?_ rfl rfl rfl hoffset.symm ?_ hverify⟩
          · simp [heq]
          · simp [hgprs]
          · simp [reservedRegisters, hlocation, hgprs, heq]
        · refine ⟨{ usedStackOffset := d.unusedStackArgumentBytes, argumentIndex := 1 }, ?_,
            invariant_init hregular (Nat.zero_le _) rfl rfl rfl hoffset.symm ?_ hverify⟩
          · simp [heq]
          · simp [reservedRegisters, hlocation, hgprs, heq]

/-- What all arguments preserve. -/
theorem Invariant.distributeAll (hverify : d.verify = true) (hregular : d.Regular flag)
    (h : Invariant d flag s arguments result) {rest : List ArgumentType}
    (hvalid : ∀ type ∈ rest, type.Valid) (hmeets : MeetsFrom d s result rest) :
    ∃ result' s', s.distributeAll d result rest = some result' ∧
      Invariant d flag s' (arguments ++ rest) result' := by
  induction rest generalizing s arguments result with
  | nil => exact ⟨result, s, rfl, (List.append_nil arguments).symm ▸ h⟩
  | cons type rest ih =>
    rw [List.forall_mem_cons] at hvalid
    obtain ⟨values, s', heq, hstep⟩ := h.nextArgument hverify hregular hvalid.1 hmeets.1
    obtain ⟨result', s'', hall, hrun⟩ := ih hstep hvalid.2 (hmeets.2 values s' heq)
    refine ⟨result', s'', ?_, ?_⟩
    · simp only [ValueDistributor.distributeAll, heq, Option.bind_eq_bind, Option.bind_some]
      exact hall
    · rwa [List.append_assoc] at hrun

/-! ## The result -/

theorem Invariant.proper (h : Invariant d flag s arguments result) :
    ∀ value ∈ result, value.Proper := fun value hmem hon =>
  ⟨(h.inside value hmem hon).2.2.2, (h.inside value hmem hon).2.2.1.trans_lt h.offset64⟩

/-- The values are well formed when padding has been dropped so that they are in order. -/
theorem Invariant.wellFormed (h : Invariant d flag s arguments result)
    {result' : List (DistributedValue Register)} (htrimmed : AllTrimmed result result')
    (hordered : Ordered result') : WellFormed d flag arguments result' where
  registers := by
    rw [flatMap_registers_of_trimmed htrimmed]
    exact h.nodup
  covered := covered_of_trimmed htrimmed h.covered
  padding := fun value' hmem hpadding hon => by
    obtain ⟨value, hvalue, ht⟩ := exists_of_mem_trimmed htrimmed hmem
    exact h.padding value hvalue (ht.padding ▸ hpadding) (ht.onStack.1 hon)
  ordered := hordered
  first := fun value' hmem hon => by
    obtain ⟨value, hvalue, ht⟩ := exists_of_mem_trimmed htrimmed hmem
    rw [ht.offset]
    exact (h.inside value hvalue (ht.onStack.1 hon)).1

/-- Distributing the arguments fails no assertion, and the result is well formed. -/
theorem distributeArguments_wellFormed (hverify : d.verify = true) (hregular : d.Regular flag)
    (hvalid : ∀ type ∈ arguments, type.Valid) (hmeets : MeetsAll d flag arguments) :
    ∃ result, distributeArguments d arguments flag = some result ∧
      WellFormed d flag arguments result := by
  obtain ⟨s, hstart, hinit⟩ := exists_start hverify hregular
  obtain ⟨result, s', hall, h⟩ := hinit.distributeAll hverify hregular hvalid (hmeets s hstart)
  rw [List.nil_append] at h
  cases hpack : d.packStackArguments with
  | false =>
      refine ⟨result, ?_, h.wellFormed ?_ (h.ordered hpack)⟩
      · simp [distributeArguments, hstart, hall, hpack]
      · exact List.forall₂_same.2 fun value hmem => .refl (h.proper value hmem)
  | true =>
      obtain ⟨trimmed, htrim, htrimmed, hordered⟩ := exists_trimOverlaps h.loose h.proper
      have hproper : ∀ value ∈ trimmed, value.Proper := fun value hmem => by
        obtain ⟨_, _, ht⟩ := exists_of_mem_trimmed htrimmed hmem
        exact ht.proper
      obtain ⟨hlast, hordered'⟩ := trimLast_spec hordered hproper
      refine ⟨trimLast trimmed, ?_, h.wellFormed (AllTrimmed.trans htrimmed hlast) hordered'⟩
      simp [distributeArguments, hstart, hall, hpack, htrim]

/-! ## AAPCS -/

inductive ArmRegister where
  | r0 | r1 | r2 | r3 | r4 | r5 | r6 | r7 | r8 | r9 | r10 | r11 | r12 | r13 | r14 | r15
  | q0 | q1 | q2 | q3 | q4 | q5 | q6 | q7
  deriving DecidableEq, Repr

open ArmRegister

instance : MachineRegister ArmRegister where
  getReferenceArchitecture _ := .arm
  getSize
    | q0 | q1 | q2 | q3 | q4 | q5 | q6 | q7 => 16
    | _ => 4
  isVectorRegister
    | q0 | q1 | q2 | q3 | q4 | q5 | q6 | q7 => true
    | _ => false

/-- As in `share/revng/abi/AAPCS.yml`. -/
def aapcs : Definition ArmRegister where
  abi := .aapcs
  onlyStartDoubleArgumentsFromAnEvenRegister := true
  argumentsCanBeSplitBetweenRegistersAndStack := true
  noRegisterArgumentsCanComeAfterStackOnes := true
  allowPackedTypesInRegisters := true
  stackAlignment := 8
  minimumStackArgumentSize := 4
  maximumGPRsPerAggregateArgument := 4
  maximumGPRsPerScalarArgument := 4
  generalPurposeArgumentRegisters := [r0, r1, r2, r3]
  generalPurposeReturnValueRegisters := [r0, r1, r2, r3]
  vectorArgumentRegisters := [q0, q1, q2, q3]
  vectorReturnValueRegisters := [q0, q1, q2, q3]
  calleeSavedRegisters := [r4, r5, r6, r7, r8, r10, r11, r14, q4, q5, q6, q7]
  returnValueLocationRegister := some r0
  scalarTypes :=
    [{ kind := .integer, size := 1 }, { kind := .integer, size := 2 }, { kind := .integer, size := 4 },
     { kind := .integer, size := 8 }, { kind := .floatingPoint, size := 2 },
     { kind := .floatingPoint, size := 4 }, { kind := .floatingPoint, size := 8 }]

/-- An integer, aligned at its size. -/
def integerArgument (size : ℕ) : ArgumentType where
  isScalar := true
  isFloatPrimitive := false
  size := size
  alignmentInfo := some ⟨size, true⟩

theorem regular_aapcs : aapcs.Regular false where
  minimum64 := by decide
  disjoint := List.disjoint_left.2 (by decide)
  even := fun _ => by decide
  unused := fun _ => by decide
  slot := fun _ => by decide
  pointer := by decide
  first64 := by decide

theorem valid_integerArgument {k : ℕ} (h : k < 64) : (integerArgument (2 ^ k)).Valid where
  size := Nat.two_pow_pos k
  size64 := Nat.pow_lt_pow_right (by decide) h
  alignment64 := Nat.pow_lt_pow_right (by decide) h

/-- A 64 bit integer that starts from `r2` and ends in `r3` has four bytes on the stack as well. -/
theorem not_wellFormed_aapcs :
    aapcs.verify = true ∧ aapcs.Regular false ∧
      (∀ type ∈ [integerArgument 4, integerArgument 8], type.Valid) ∧
      ¬ ∃ result, distributeArguments aapcs [integerArgument 4, integerArgument 8] false = some result ∧
        WellFormed aapcs false [integerArgument 4, integerArgument 8] result := by
  refine ⟨by decide +kernel, regular_aapcs, ?_, ?_⟩
  · simpa using ⟨valid_integerArgument (k := 2) (by decide), valid_integerArgument (k := 3) (by decide)⟩
  · rintro ⟨result, heq, h⟩
    have hresult : distributeArguments aapcs [integerArgument 4, integerArgument 8] false =
        some [{ registers := [r0], size := 4 },
          { registers := [r1], size := 4, representsPadding := true },
          { registers := [r2, r3], size := 8, sizeOnStack := 4 }] := by decide +kernel
    obtain rfl := Option.some.inj (hresult.symm.trans heq)
    have hcovered : Settled aapcs (integerArgument 8)
        { registers := [r2, r3], size := 8, sizeOnStack := 4 } := by
      cases h.covered with
      | cons _ hrest =>
          cases hrest with
          | cons hsettled _ => exact hsettled
    rcases hcovered.holds with ⟨hzero, -⟩ | ⟨hnil, -⟩ | ⟨-, -, hsum⟩
    · exact absurd hzero (by decide)
    · exact absurd hnil (by decide)
    · exact absurd hsum (by decide)

/-- The other way round, the integers take three registers. -/
theorem distributeArguments_wellFormed_even :
    ∃ result, distributeArguments aapcs [integerArgument 8, integerArgument 4] false = some result ∧
      WellFormed aapcs false [integerArgument 8, integerArgument 4] result := by
  have hfour := valid_integerArgument (k := 2) (by decide)
  have height := valid_integerArgument (k := 3) (by decide)
  have hstart : ValueDistributor.start aapcs false = some {} := by decide +kernel
  have hfirst : ValueDistributor.nextArgument {} aapcs (integerArgument 8) =
      some ([{ registers := [r0, r1], size := 8 }],
        { usedGeneralPurposeRegisterCount := 2, currentStackAlignment := 8, argumentIndex := 1 }) := by
    decide +kernel
  have hsecond : ValueDistributor.nextArgument
      { usedGeneralPurposeRegisterCount := 2, currentStackAlignment := 8, argumentIndex := 1 } aapcs
      (integerArgument 4) =
      some ([{ registers := [r2], size := 4 }],
        { usedGeneralPurposeRegisterCount := 3, currentStackAlignment := 4, argumentIndex := 2 }) := by
    decide +kernel
  refine distributeArguments_wellFormed (by decide +kernel) regular_aapcs
    (by simpa using ⟨height, hfour⟩) fun s hs => ?_
  obtain rfl := Option.some.inj (hstart.symm.trans hs)
  refine meetsFrom_cons (meets_of_distribute rfl rfl rfl ?_) hfirst <|
    meetsFrom_cons (meets_of_distribute rfl rfl rfl ?_) hsecond trivial
  · exact meetsDistribute_of_fits (by decide)
  · exact meetsDistribute_of_fits (by decide)

end ABI
