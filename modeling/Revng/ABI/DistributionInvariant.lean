import Revng.ABI.RegisterWindows
import Revng.Lib.LooseSpans

/-!
# What a distribution keeps

`WellFormed` says what the distributed arguments have to be: no register is used twice, every argument
is where it is in one way, and the parts on the stack come one after another.  `Invariant` is what holds
of the arguments distributed so far.  There, the padding of a value on the stack may still be used by the
value after it, and each value that is added keeps the invariant (`Invariant.append`).
-/

namespace ABI

open LooseSpans RoundUp

variable {Register : Type}

/-! ## The stack -/

namespace DistributedValue

variable (value : DistributedValue Register)

def OnStack : Prop := value.sizeOnStack ≠ 0

def stop : ℕ := value.offsetOnStack + value.sizeOnStack

/-- The end of the part on the stack without its padding. -/
def content : ℕ := value.offsetOnStack + (value.sizeOnStack - value.postPaddingSize)

/-- The parts of the stack follow one after another. -/
def Ordered (values : List (DistributedValue Register)) : Prop :=
  values.Pairwise fun a b => a.OnStack → b.OnStack → a.stop ≤ b.offsetOnStack

/-- The value is in registers only, on the stack only, or split exactly. -/
def Holds [MachineRegister Register] (size : ℕ) : Prop :=
  (value.sizeOnStack = 0 ∧ size ≤ bytes value.registers) ∨
  (value.registers = [] ∧ size + value.postPaddingSize ≤ value.sizeOnStack) ∨
  (value.registers ≠ [] ∧ value.postPaddingSize < value.sizeOnStack ∧
    bytes value.registers + (value.sizeOnStack - value.postPaddingSize) = size)

end DistributedValue

def ArgumentType.stackAlignment (d : Definition Register) (type : ArgumentType) : ℕ :=
  if type.passesNaturalAlignment d then type.passedAlignment d else d.minimumStackArgumentSize

/-- Stack arguments are extended to slots. -/
def Definition.HasSlots (d : Definition Register) : Prop :=
  d.packStackArguments = false ∨ d.argumentsArePositionBased = true

/-- The argument is covered exactly once, and aligned on the stack. -/
structure Settled [MachineRegister Register] (d : Definition Register) (type : ArgumentType)
    (value : DistributedValue Register) : Prop where
  pointer : value.usesPointerToCopy = type.usesPointerToCopy d
  holds : value.Holds (type.passedSize d)
  slot : value.OnStack → d.HasSlots ∨ value.registers ≠ [] →
    d.minimumStackArgumentSize ∣ value.offsetOnStack
  aligned : value.OnStack → d.argumentsArePositionBased = false → value.registers = [] →
    type.stackAlignment d ∣ value.offsetOnStack

/-! ## The return value -/

/-- The register of the pointer to the return value, if it comes first. -/
def reservedRegisters [DecidableEq Register] (d : Definition Register)
    (hasReturnValueLocationArgument : Bool) : List Register :=
  match hasReturnValueLocationArgument, d.returnValueLocationRegister,
      d.generalPurposeArgumentRegisters with
  | true, some location, first :: _ => if location = first then [first] else []
  | _, _, _ => []

def reservesSlot (d : Definition Register) (hasReturnValueLocationArgument : Bool) : Bool :=
  hasReturnValueLocationArgument && d.returnValueLocationRegister.isNone &&
    d.returnValueLocationOnStack

/-- The first offset for arguments. -/
def firstOffset (d : Definition Register) (hasReturnValueLocationArgument : Bool) : ℕ :=
  if reservesSlot d hasReturnValueLocationArgument then
    d.unusedStackArgumentBytes + d.getPointerSize
  else
    d.unusedStackArgumentBytes

/-! ## What a value takes -/

/-- The value takes registers of one kind, from the first one that is not used yet. -/
inductive Takes (d : Definition Register) (s s' : ValueDistributor) (registers : List Register) : Prop
  | generalPurpose (i m : ℕ) :
      s.usedGeneralPurposeRegisterCount ≤ i → i + m ≤ s'.usedGeneralPurposeRegisterCount →
      s'.usedGeneralPurposeRegisterCount ≤ d.generalPurposeArgumentRegisters.length →
      s'.usedVectorRegisterCount = s.usedVectorRegisterCount →
      registers = (d.generalPurposeArgumentRegisters.drop i).take m →
      Takes d s s' registers
  | vector (i m : ℕ) :
      s.usedVectorRegisterCount ≤ i → i + m ≤ s'.usedVectorRegisterCount →
      s'.usedVectorRegisterCount ≤ d.vectorArgumentRegisters.length →
      s'.usedGeneralPurposeRegisterCount = s.usedGeneralPurposeRegisterCount →
      registers = (d.vectorArgumentRegisters.drop i).take m →
      Takes d s s' registers

/-- The value takes the next part of the stack, or none. -/
inductive Spreads (d : Definition Register) (s s' : ValueDistributor)
    (result : List (DistributedValue Register)) (value : DistributedValue Register) : Prop
  | inRegisters :
      ¬ value.OnStack → s'.usedStackOffset = s.usedStackOffset →
      s'.lastAddedStackPadding = 0 ∨ s'.lastAddedStackPadding = s.lastAddedStackPadding →
      Spreads d s s' result value
  | onStack :
      s.usedStackOffset - s.lastAddedStackPadding ≤ value.offsetOnStack →
      (d.packStackArguments = false → s.usedStackOffset ≤ value.offsetOnStack) →
      (value.offsetOnStack < s.usedStackOffset → ∃ last ∈ result.getLast?, last.OnStack) →
      s.usedStackOffset ≤ value.stop → s'.usedStackOffset = value.stop →
      value.postPaddingSize < value.sizeOnStack →
      value.postPaddingSize < d.minimumStackArgumentSize →
      s'.lastAddedStackPadding = value.postPaddingSize →
      (d.HasSlots → d.minimumStackArgumentSize ∣ value.stop) → value.stop < 2 ^ 64 →
      (d.argumentsArePositionBased = true → value.postPaddingSize = 0) →
      Spreads d s s' result value

theorem mem_take_of_mem_window {α : Type} {l : List α} {i m j : ℕ} {a : α}
    (ha : a ∈ (l.drop i).take m) (hj : i + m ≤ j) : a ∈ l.take j := by
  rw [List.take_drop] at ha
  exact List.take_subset_take_left l hj (List.mem_of_mem_drop ha)

theorem not_mem_take_of_mem_window {α : Type} {l : List α} (hl : l.Nodup) {i m j : ℕ} {a : α}
    (ha : a ∈ (l.drop i).take m) (hj : j ≤ i) : a ∉ l.take j := by
  intro hmem
  have hdisjoint := List.disjoint_take_drop hl hj
  exact hdisjoint hmem (List.mem_of_mem_take ha)

theorem Takes.counts {d : Definition Register} {s s' : ValueDistributor} {registers : List Register}
    (h : Takes d s s' registers)
    (hgprs : s.usedGeneralPurposeRegisterCount ≤ d.generalPurposeArgumentRegisters.length)
    (hvectors : s.usedVectorRegisterCount ≤ d.vectorArgumentRegisters.length) :
    s'.usedGeneralPurposeRegisterCount ≤ d.generalPurposeArgumentRegisters.length ∧
      s'.usedVectorRegisterCount ≤ d.vectorArgumentRegisters.length := by
  cases h with
  | generalPurpose i m hi hm hle hsame heq => exact ⟨hle, hsame ▸ hvectors⟩
  | vector i m hi hm hle hsame heq => exact ⟨hsame ▸ hgprs, hle⟩

section

variable [DecidableEq Register] [MachineRegister Register]

structure WellFormed (d : Definition Register) (hasReturnValueLocationArgument : Bool)
    (arguments : List ArgumentType) (result : List (DistributedValue Register)) : Prop where
  registers : (reservedRegisters d hasReturnValueLocationArgument ++
    result.flatMap DistributedValue.registers).Nodup
  covered : List.Forall₂ (Settled d) arguments (result.filter (!·.representsPadding))
  padding : ∀ value ∈ result, value.representsPadding = true → ¬ value.OnStack
  ordered : DistributedValue.Ordered result
  first : ∀ value ∈ result, value.OnStack →
    firstOffset d hasReturnValueLocationArgument ≤ value.offsetOnStack

/-! ## The invariant -/

/-- What `verify` does not ask of a definition. -/
structure Definition.Regular (d : Definition Register) (hasReturnValueLocationArgument : Bool) :
    Prop where
  minimum64 : d.minimumStackArgumentSize < 2 ^ 64
  disjoint : d.generalPurposeArgumentRegisters.Disjoint d.vectorArgumentRegisters
  even : d.onlyStartDoubleArgumentsFromAnEvenRegister = true →
    ∀ r ∈ d.generalPurposeArgumentRegisters, getSize r = d.getPointerSize
  unused : d.HasSlots → d.minimumStackArgumentSize ∣ d.unusedStackArgumentBytes
  slot : d.argumentsArePositionBased = true ∨
    (d.HasSlots ∧ reservesSlot d hasReturnValueLocationArgument = true) →
    d.minimumStackArgumentSize ∣ d.getPointerSize
  pointer : reservesSlot d hasReturnValueLocationArgument = true →
    d.getPointerSize ∣ d.unusedStackArgumentBytes
  first64 : firstOffset d hasReturnValueLocationArgument < 2 ^ 64

structure Invariant (d : Definition Register) (hasReturnValueLocationArgument : Bool)
    (s : ValueDistributor) (arguments : List ArgumentType)
    (result : List (DistributedValue Register)) : Prop where
  generalPurpose : s.usedGeneralPurposeRegisterCount ≤ d.generalPurposeArgumentRegisters.length
  vector : s.usedVectorRegisterCount ≤ d.vectorArgumentRegisters.length
  nodup : (reservedRegisters d hasReturnValueLocationArgument ++
    result.flatMap DistributedValue.registers).Nodup
  taken : ∀ r ∈ reservedRegisters d hasReturnValueLocationArgument ++
      result.flatMap DistributedValue.registers,
    r ∈ d.generalPurposeArgumentRegisters.take s.usedGeneralPurposeRegisterCount ∨
      r ∈ d.vectorArgumentRegisters.take s.usedVectorRegisterCount
  covered : List.Forall₂ (Settled d) arguments (result.filter (!·.representsPadding))
  padding : ∀ value ∈ result, value.representsPadding = true → ¬ value.OnStack
  loose : Loose DistributedValue.OnStack DistributedValue.offsetOnStack DistributedValue.content
    DistributedValue.stop result
  ordered : d.packStackArguments = false → DistributedValue.Ordered result
  inside : ∀ value ∈ result, value.OnStack →
    firstOffset d hasReturnValueLocationArgument ≤ value.offsetOnStack ∧
      value.content ≤ s.usedStackOffset - s.lastAddedStackPadding ∧
      value.stop ≤ s.usedStackOffset ∧ value.postPaddingSize < value.sizeOnStack
  first : firstOffset d hasReturnValueLocationArgument ≤
    s.usedStackOffset - s.lastAddedStackPadding
  slots : d.HasSlots → d.minimumStackArgumentSize ∣ s.usedStackOffset
  added : s.lastAddedStackPadding < d.minimumStackArgumentSize
  alignment64 : s.currentStackAlignment < 2 ^ 64
  offset64 : s.usedStackOffset < 2 ^ 64
  position : d.argumentsArePositionBased = true → s.lastAddedStackPadding = 0

variable {d : Definition Register} {s s' : ValueDistributor}

omit [DecidableEq Register] [MachineRegister Register] in
/-- Of the states, only the offset and its padding matter. -/
theorem Spreads.congr {t t' : ValueDistributor} {result : List (DistributedValue Register)}
    {value : DistributedValue Register} (h : Spreads d s s' result value)
    (hused : t.usedStackOffset = s.usedStackOffset)
    (hadded : t.lastAddedStackPadding = s.lastAddedStackPadding)
    (hused' : t'.usedStackOffset = s'.usedStackOffset)
    (hadded' : t'.lastAddedStackPadding = s'.lastAddedStackPadding) :
    Spreads d t t' result value := by
  cases h with
  | inRegisters hoff hu ha => exact .inRegisters hoff (by omega) (by omega)
  | onStack hfree hpacked hlast hstop hu hless hmin ha hslots h64 hposition =>
    exact .onStack (by omega) (fun hp => hused ▸ hpacked hp) (fun hlt => hlast (by omega))
      (by omega) (by omega) hless hmin
      (by omega) hslots h64 hposition

/-! ## One more value -/

theorem Takes.fresh {registers : List Register} (hverify : d.verify = true)
    (hdisjoint : d.generalPurposeArgumentRegisters.Disjoint d.vectorArgumentRegisters)
    (h : Takes d s s' registers) :
    registers.Nodup ∧
      (∀ r ∈ registers,
        r ∉ d.generalPurposeArgumentRegisters.take s.usedGeneralPurposeRegisterCount ∧
          r ∉ d.vectorArgumentRegisters.take s.usedVectorRegisterCount) ∧
      ∀ r, r ∈ d.generalPurposeArgumentRegisters.take s.usedGeneralPurposeRegisterCount ∨
          r ∈ d.vectorArgumentRegisters.take s.usedVectorRegisterCount ∨ r ∈ registers →
        r ∈ d.generalPurposeArgumentRegisters.take s'.usedGeneralPurposeRegisterCount ∨
          r ∈ d.vectorArgumentRegisters.take s'.usedVectorRegisterCount := by
  obtain ⟨hgprs, hvectors⟩ := d.nodup_of_verify hverify
  cases h with
  | generalPurpose i m hi hm hle hsame heq =>
    subst heq
    refine ⟨(hgprs.sublist (List.drop_sublist i _)).sublist (List.take_sublist m _),
      fun r hr => ⟨not_mem_take_of_mem_window hgprs hr hi, fun hmem => ?_⟩, fun r hr => ?_⟩
    · exact hdisjoint (List.mem_of_mem_drop (List.mem_of_mem_take hr)) (List.mem_of_mem_take hmem)
    · rcases hr with hr | hr | hr
      · exact .inl (List.take_subset_take_left _ (by omega) hr)
      · exact .inr (hsame ▸ hr)
      · exact .inl (mem_take_of_mem_window hr hm)
  | vector i m hi hm hle hsame heq =>
    subst heq
    refine ⟨(hvectors.sublist (List.drop_sublist i _)).sublist (List.take_sublist m _),
      fun r hr => ⟨fun hmem => ?_, not_mem_take_of_mem_window hvectors hr hi⟩, fun r hr => ?_⟩
    · exact hdisjoint (List.mem_of_mem_take hmem) (List.mem_of_mem_drop (List.mem_of_mem_take hr))
    · rcases hr with hr | hr | hr
      · exact .inl (hsame ▸ hr)
      · exact .inr (List.take_subset_take_left _ (by omega) hr)
      · exact .inr (mem_take_of_mem_window hr hm)

theorem Invariant.append {flag : Bool} {arguments arguments' : List ArgumentType}
    {result : List (DistributedValue Register)} {value : DistributedValue Register}
    (hverify : d.verify = true)
    (hdisjoint : d.generalPurposeArgumentRegisters.Disjoint d.vectorArgumentRegisters)
    (h : Invariant d flag s arguments result) (htakes : Takes d s s' value.registers)
    (hspreads : Spreads d s s' result value)
    (halignment64 : s'.currentStackAlignment < 2 ^ 64)
    (hcovered : List.Forall₂ (Settled d) arguments'
      ((result ++ [value]).filter (!·.representsPadding)))
    (hpadding : value.representsPadding = true → ¬ value.OnStack) :
    Invariant d flag s' arguments' (result ++ [value]) := by
  obtain ⟨hnodup, hfresh, htaken⟩ := htakes.fresh hverify hdisjoint
  obtain ⟨hgprs, hvectors⟩ := htakes.counts h.generalPurpose h.vector
  have hregisters : reservedRegisters d flag ++
      (result ++ [value]).flatMap DistributedValue.registers =
        (reservedRegisters d flag ++ result.flatMap DistributedValue.registers) ++
          value.registers := by
    simp
  have hall {p : DistributedValue Register → Prop} (hresult : ∀ v ∈ result, p v) (hv : p value) :
      ∀ v ∈ result ++ [value], p v := by
    intro v hmem
    rcases List.mem_append.1 hmem with hmem | hmem
    · exact hresult v hmem
    · exact List.mem_singleton.1 hmem ▸ hv
  have hnodup' : (reservedRegisters d flag ++
      (result ++ [value]).flatMap DistributedValue.registers).Nodup := by
    rw [hregisters]
    refine h.nodup.append hnodup fun r hr hmem => ?_
    rcases h.taken r hr with ht | ht
    · exact (hfresh r hmem).1 ht
    · exact (hfresh r hmem).2 ht
  have htaken' : ∀ r ∈ reservedRegisters d flag ++
      (result ++ [value]).flatMap DistributedValue.registers,
      r ∈ d.generalPurposeArgumentRegisters.take s'.usedGeneralPurposeRegisterCount ∨
        r ∈ d.vectorArgumentRegisters.take s'.usedVectorRegisterCount := by
    rw [hregisters]
    intro r hr
    rcases List.mem_append.1 hr with hr | hr
    · rcases h.taken r hr with ht | ht
      · exact htaken r (.inl ht)
      · exact htaken r (.inr (.inl ht))
    · exact htaken r (.inr (.inr hr))
  cases hspreads with
  | inRegisters hoff hused hadded =>
    have hle : s.usedStackOffset - s.lastAddedStackPadding ≤
        s'.usedStackOffset - s'.lastAddedStackPadding := by omega
    have hmin := h.added
    exact
      { generalPurpose := hgprs
        vector := hvectors
        nodup := hnodup'
        taken := htaken'
        covered := hcovered
        padding := hall h.padding hpadding
        loose := h.loose.append_of_not_placed hoff
        ordered := fun hp => List.pairwise_append.2 ⟨h.ordered hp, List.pairwise_singleton _ _,
          fun a _ b hb _ hon => absurd (List.mem_singleton.1 hb ▸ hon) hoff⟩
        inside := hall
          (fun v hv hon => ⟨(h.inside v hv hon).1, (h.inside v hv hon).2.1.trans hle,
            hused ▸ (h.inside v hv hon).2.2.1, (h.inside v hv hon).2.2.2⟩)
          fun hon => absurd hon hoff
        first := h.first.trans hle
        slots := fun hs => hused ▸ h.slots hs
        added := by omega
        alignment64 := halignment64
        offset64 := hused ▸ h.offset64
        position := fun hposition => by
          have hzero := h.position hposition
          omega }
  | onStack hfree hpacked hlast hstop hused hless hmin hadded hslots h64 hposition =>
    have hcontent : value.offsetOnStack ≤ s'.usedStackOffset - s'.lastAddedStackPadding := by
      rw [hused, hadded, DistributedValue.stop]
      omega
    exact
      { generalPurpose := hgprs
        vector := hvectors
        nodup := hnodup'
        taken := htaken'
        covered := hcovered
        padding := hall h.padding hpadding
        loose := by
          refine h.loose.append (fun v hv hon => (h.inside v hv hon).2.1.trans hfree) ?_
          rintro ⟨v, hv, hon, hlt⟩
          obtain ⟨last, hmem, hl⟩ :=
            hlast (Nat.lt_of_lt_of_le hlt (h.inside v hv hon).2.2.1)
          have hinside := h.inside last (List.mem_of_getLast? hmem) hl
          exact ⟨last, hmem, hl, (Nat.le_add_right _ _).trans (hinside.2.1.trans hfree)⟩
        ordered := fun hp => List.pairwise_append.2 ⟨h.ordered hp, List.pairwise_singleton _ _,
          fun a ha b hb hon _ => by
            rw [List.mem_singleton.1 hb]
            exact (h.inside a ha hon).2.2.1.trans (hpacked hp)⟩
        inside := hall
          (fun v hv hon => ⟨(h.inside v hv hon).1,
            (h.inside v hv hon).2.1.trans (hfree.trans hcontent),
            (h.inside v hv hon).2.2.1.trans (hused ▸ hstop), (h.inside v hv hon).2.2.2⟩)
          fun _ => ⟨h.first.trans hfree, by
            rw [hused, hadded, DistributedValue.stop, DistributedValue.content]
            omega, hused.ge, hless⟩
        first := h.first.trans (hfree.trans hcontent)
        slots := fun hs => hused ▸ hslots hs
        added := hadded ▸ hmin
        alignment64 := halignment64
        offset64 := hused ▸ h64
        position := fun hp => hadded ▸ hposition hp }

end

end ABI
