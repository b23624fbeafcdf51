import Revng.ABI.RegisterStateDeductions

/-!
# What a deduction makes of a set of registers

Enforcing the ABI succeeds on every set, and the checked deduction makes the same of it unless it fails
(`Enforces`).  Where no register is of both kinds, arguments have no holes afterwards if every unused
position in front of a used one is in front of one that is used by a single register, and return values
if they are of one kind (`deduces_arguments`, `deduces_returnValues`).

Return values of both kinds are left with the holes they have, and a register that is of both kinds leaves
holes in one of them (`not_completes`).
-/

namespace ABI

open SharedPositions (NoHoles Position At settle)

variable {Register : Type}

/-! ## What the deductions make of a set -/

/-- Enforcing the ABI makes `completed` of the set, and the checked deduction makes the same of it or
fails. -/
structure Enforces (enforce check : Finset Register → Option (Finset Register))
    (allowedRegisters : List Register) (state completed : Finset Register) : Prop where
  enforced : enforce state = some completed
  checked : check state = none ∨ check state = some completed
  isAllowed : ∀ register ∈ completed, register ∈ allowedRegisters

/-- Allowed registers are kept, unless they may be replaced. -/
structure Deduces (enforce check : Finset Register → Option (Finset Register))
    (allowedRegisters : List Register) (IsReplaced : Register → Prop)
    (state completed : Finset Register) : Prop
    extends Enforces enforce check allowedRegisters state completed where
  isKept : ∀ register ∈ state, register ∈ allowedRegisters →
    register ∈ completed ∨ IsReplaced register

namespace Definition

/-- A vector register that shares its position with a general purpose one in the set. -/
def IsReplacedArgument (d : Definition Register) (state : Finset Register) (register : Register) :
    Prop :=
  d.argumentsArePositionBased = true ∧ ∃ i, d.vectorArgumentRegisters[i]? = some register ∧
    UsedAt d.generalPurposeArgumentRegisters state i

/-- The position is used by a register of either kind. -/
def PositionUsed (d : Definition Register) (state : Finset Register) (i : ℕ) : Prop :=
  UsedAt d.generalPurposeArgumentRegisters state i ∨ UsedAt d.vectorArgumentRegisters state i

/-- The position is used by registers of both kinds. -/
def PositionClashes (d : Definition Register) (state : Finset Register) (i : ℕ) : Prop :=
  UsedAt d.generalPurposeArgumentRegisters state i ∧ UsedAt d.vectorArgumentRegisters state i

/-- Every position in front of the last used one is used.  If arguments are not based on their position,
each kind of registers has its own positions. -/
def ArgumentsHaveNoHoles (d : Definition Register) (state : Finset Register) : Prop :=
  if d.argumentsArePositionBased then NoHoles (d.PositionUsed state)
  else NoHoles (UsedAt d.generalPurposeArgumentRegisters state) ∧
    NoHoles (UsedAt d.vectorArgumentRegisters state)

def ReturnValuesHaveNoHoles (d : Definition Register) (state : Finset Register) : Prop :=
  NoHoles (UsedAt d.generalPurposeReturnValueRegisters state) ∧
    NoHoles (UsedAt d.vectorReturnValueRegisters state)

/-- An unused position in front of a used one is also in front of one used by a single register. -/
def Anchored (d : Definition Register) (state : Finset Register) : Prop :=
  d.argumentsArePositionBased = true → ∀ i j, i < j → d.PositionUsed state j →
    d.PositionUsed state i ∨ ∃ k, i < k ∧ d.PositionUsed state k ∧ ¬d.PositionClashes state k

/-- Return values are in registers of both kinds. -/
def ReturnsBothKinds (d : Definition Register) (state : Finset Register) : Prop :=
  (∃ i, UsedAt d.generalPurposeReturnValueRegisters state i) ∧
    ∃ i, UsedAt d.vectorReturnValueRegisters state i

end Definition

variable {d : Definition Register} {state : Finset Register}

/-! ## Positions of a definition -/

theorem at_used_eq (d : Definition Register) (state : Finset Register) :
    At (Position.Used state)
      (positions d.generalPurposeArgumentRegisters d.vectorArgumentRegisters) =
      d.PositionUsed state :=
  funext fun i => propext (at_used_positions _ _ i)

theorem at_sole_iff (d : Definition Register) (state : Finset Register) (i : ℕ) :
    At (Position.Sole state)
      (positions d.generalPurposeArgumentRegisters d.vectorArgumentRegisters) i ↔
      d.PositionUsed state i ∧ ¬d.PositionClashes state i :=
  at_sole_positions _ _ i

theorem anchored_iff (hposition : d.argumentsArePositionBased = true) :
    SharedPositions.Anchored state
      (positions d.generalPurposeArgumentRegisters d.vectorArgumentRegisters) ↔ d.Anchored state := by
  simp only [SharedPositions.Anchored, at_used_eq, at_sole_iff, Definition.Anchored, hposition,
    forall_const]

/-- A register with a counterpart is at the position of it. -/
theorem exists_of_mem_positions {gps vrs : List Register} {p : Position Register}
    (hp : p ∈ positions gps vrs) {v : Register} (hv : v ∈ p.other) :
    ∃ i : ℕ, vrs[i]? = some v ∧ gps[i]? = some p.main := by
  induction gps generalizing vrs with
  | nil =>
    obtain ⟨_, -, rfl⟩ := List.mem_map.1 hp
    cases hv
  | cons gp gps ih =>
    cases vrs with
    | nil =>
      obtain ⟨_, -, rfl⟩ := List.mem_map.1 hp
      cases hv
    | cons vr vrs =>
      rcases List.mem_cons.1 hp with rfl | hp
      · exact ⟨0, congrArg some (Option.some.inj hv), rfl⟩
      · obtain ⟨i, hi⟩ := ih hp
        exact ⟨i + 1, hi⟩

variable [DecidableEq Register]

/-! ## Arguments -/

/-- What enforcing the ABI makes of allowed registers. -/
def completedArguments (d : Definition Register) (arguments : Finset Register) : Finset Register :=
  if d.argumentsArePositionBased then
    (settle (positions d.generalPurposeArgumentRegisters d.vectorArgumentRegisters)
      (arguments, false)).1
  else fillKinds d.generalPurposeArgumentRegisters d.vectorArgumentRegisters arguments

theorem deduceArguments_true (d : Definition Register) (state : Finset Register) :
    deduceArguments true d state =
      some (completedArguments d (state.filter (· ∈ allowedArgumentRegisters d))) := by
  show (if d.argumentsArePositionBased = true then _ else _) = _
  rw [deducePositionBasedArguments_true, completedArguments]
  split_ifs <;> rfl

theorem mem_allowedArguments {arguments : Finset Register}
    (h : ∀ register ∈ arguments, register ∈ allowedArgumentRegisters d) {register : Register}
    (hmem : register ∈ completedArguments d arguments) : register ∈ allowedArgumentRegisters d := by
  rw [completedArguments] at hmem
  split_ifs at hmem
  · rcases SharedPositions.subset_settle hmem with hmem | ⟨p, hp, rfl⟩
    · exact h register hmem
    · exact (holders_positions _ _).mem_iff.1 (List.mem_flatMap.2 ⟨p, hp, List.mem_cons_self⟩)
  · rw [allowedArgumentRegisters, List.mem_append]
    rcases mem_fillKinds.1 hmem with hmem | hgp | hvr
    · exact List.mem_append.1 (h register hmem)
    · exact .inl (mem_of_mem_required hgp)
    · exact .inr (mem_of_mem_required hvr)

theorem usedAt_filter {registers allowedRegisters : List Register}
    (h : ∀ register ∈ registers, register ∈ allowedRegisters) :
    UsedAt registers (state.filter (· ∈ allowedRegisters)) = UsedAt registers state :=
  usedAt_congr fun register hmem => by rw [Finset.mem_filter, and_iff_left (h register hmem)]

theorem enforces_completedArguments (d : Definition Register) (state : Finset Register) :
    Enforces d.enforceArgumentRegisterState d.tryDeducingArgumentRegisterState
      (allowedArgumentRegisters d) state
      (completedArguments d (state.filter (· ∈ allowedArgumentRegisters d))) where
  enforced := deduceArguments_true d state
  checked := by
    cases h : d.tryDeducingArgumentRegisterState state with
    | none => exact .inl rfl
    | some completed =>
      exact .inr ((deduceArguments_mono d h).symm.trans (deduceArguments_true d state))
  isAllowed _ := mem_allowedArguments fun _ hmem => (Finset.mem_filter.1 hmem).2

theorem deduces_completedArguments (d : Definition Register)
    (hgps : d.generalPurposeArgumentRegisters.Nodup) (hvrs : d.vectorArgumentRegisters.Nodup)
    (hapart : d.generalPurposeArgumentRegisters.Disjoint d.vectorArgumentRegisters)
    (state : Finset Register) :
    Deduces d.enforceArgumentRegisterState d.tryDeducingArgumentRegisterState
      (allowedArgumentRegisters d) (d.IsReplacedArgument state) state
      (completedArguments d (state.filter (· ∈ allowedArgumentRegisters d))) where
  toEnforces := enforces_completedArguments d state
  isKept register hmem hallowed := by
    have hmem := Finset.mem_filter.2 ⟨hmem, hallowed⟩
    rw [completedArguments]
    split_ifs with hposition
    · have hnodup := (holders_positions d.generalPurposeArgumentRegisters
        d.vectorArgumentRegisters).nodup_iff.2 (hgps.append hvrs hapart)
      refine (SharedPositions.mem_settle_of_mem hnodup hmem).imp_right ?_
      rintro ⟨p, hp, hother, hmain⟩
      obtain ⟨i, hvr, hgp⟩ := exists_of_mem_positions hp hother
      exact ⟨hposition, i, hvr, p.main, hgp, (Finset.mem_filter.1 hmain).1⟩
    · exact .inl (mem_fillKinds.2 (.inl hmem))

theorem anchored_filter (d : Definition Register) (state : Finset Register) :
    d.Anchored (state.filter (· ∈ allowedArgumentRegisters d)) ↔ d.Anchored state := by
  have hgps : UsedAt d.generalPurposeArgumentRegisters
      (state.filter (· ∈ allowedArgumentRegisters d)) = UsedAt d.generalPurposeArgumentRegisters state :=
    usedAt_filter fun _ => List.mem_append_left _
  have hvrs : UsedAt d.vectorArgumentRegisters
      (state.filter (· ∈ allowedArgumentRegisters d)) = UsedAt d.vectorArgumentRegisters state :=
    usedAt_filter fun _ => List.mem_append_right _
  simp only [Definition.Anchored, Definition.PositionUsed, Definition.PositionClashes, hgps, hvrs]

/-- Allowed registers without more holes are left as they are. -/
theorem enforceArgumentRegisterState_completed {arguments : Finset Register}
    (h : ∀ register ∈ arguments, register ∈ allowedArgumentRegisters d)
    (hcompleted : completedArguments d (completedArguments d arguments) =
      completedArguments d arguments) :
    d.enforceArgumentRegisterState (completedArguments d arguments) =
      some (completedArguments d arguments) := by
  have hallowed : ∀ register ∈ completedArguments d arguments,
      register ∈ allowedArgumentRegisters d := fun _ => mem_allowedArguments h
  rw [Definition.enforceArgumentRegisterState, deduceArguments_true,
    Finset.filter_true_of_mem hallowed, hcompleted]

theorem argumentsHaveNoHoles_completed (hgps : d.generalPurposeArgumentRegisters.Nodup)
    (hvrs : d.vectorArgumentRegisters.Nodup)
    (hapart : d.generalPurposeArgumentRegisters.Disjoint d.vectorArgumentRegisters)
    {arguments : Finset Register} (hanchored : d.Anchored arguments) :
    d.ArgumentsHaveNoHoles (completedArguments d arguments) ∧
      completedArguments d (completedArguments d arguments) = completedArguments d arguments := by
  simp only [Definition.ArgumentsHaveNoHoles, completedArguments]
  split_ifs with hposition
  · have hnodup := (holders_positions d.generalPurposeArgumentRegisters
      d.vectorArgumentRegisters).nodup_iff.2 (hgps.append hvrs hapart)
    have hanchored := (anchored_iff hposition).2 hanchored
    rw [← at_used_eq]
    exact ⟨(SharedPositions.noHoles_settle_iff hnodup).2 hanchored,
      SharedPositions.settle_settle hnodup hanchored⟩
  · have hholes := noHoles_fillKinds arguments hgps hvrs hapart
    exact ⟨hholes, fillKinds_of_noHoles hholes.1 hholes.2⟩

/-! ## Return values -/

/-- What enforcing the ABI makes of allowed registers. -/
def completedReturnValues (d : Definition Register) (returnValues : Finset Register) :
    Finset Register :=
  if required d.generalPurposeReturnValueRegisters returnValues ≠ [] ∧
      required d.vectorReturnValueRegisters returnValues ≠ [] then returnValues
  else fillKinds d.generalPurposeReturnValueRegisters d.vectorReturnValueRegisters returnValues

theorem deduceReturnedValues_true (d : Definition Register) (state : Finset Register) :
    deduceReturnedValues true d state =
      some (completedReturnValues d (state.filter (· ∈ allowedReturnValueRegisters d))) :=
  deduceReturnValues_true d _

theorem mem_allowedReturnValues {returnValues : Finset Register}
    (h : ∀ register ∈ returnValues, register ∈ allowedReturnValueRegisters d) {register : Register}
    (hmem : register ∈ completedReturnValues d returnValues) :
    register ∈ allowedReturnValueRegisters d := by
  rw [completedReturnValues] at hmem
  split_ifs at hmem
  · exact h register hmem
  · rw [allowedReturnValueRegisters, List.mem_append]
    rcases mem_fillKinds.1 hmem with hmem | hgp | hvr
    · exact List.mem_append.1 (h register hmem)
    · exact .inl (mem_of_mem_required hgp)
    · exact .inr (mem_of_mem_required hvr)

theorem required_ne_nil_iff {registers : List Register} :
    required registers state ≠ [] ↔ ∃ i, UsedAt registers state i := by
  rw [ne_eq, required_eq_nil_iff, not_forall_not]

theorem completedReturnValues_of_bothKinds (h : d.ReturnsBothKinds state) :
    completedReturnValues d state = state :=
  if_pos ⟨required_ne_nil_iff.2 h.1, required_ne_nil_iff.2 h.2⟩

theorem completedReturnValues_of_oneKind (h : ¬d.ReturnsBothKinds state) :
    completedReturnValues d state =
      fillKinds d.generalPurposeReturnValueRegisters d.vectorReturnValueRegisters state :=
  if_neg fun hboth => h ⟨required_ne_nil_iff.1 hboth.1, required_ne_nil_iff.1 hboth.2⟩

theorem returnValuesHaveNoHoles_completed (hgps : d.generalPurposeReturnValueRegisters.Nodup)
    (hvrs : d.vectorReturnValueRegisters.Nodup)
    (hapart : d.generalPurposeReturnValueRegisters.Disjoint d.vectorReturnValueRegisters)
    (h : ¬d.ReturnsBothKinds state) :
    d.ReturnValuesHaveNoHoles (completedReturnValues d state) := by
  rw [completedReturnValues_of_oneKind h]
  exact noHoles_fillKinds state hgps hvrs hapart

theorem completedReturnValues_of_noHoles (h : d.ReturnValuesHaveNoHoles state) :
    completedReturnValues d state = state := by
  rw [completedReturnValues]
  split_ifs
  · rfl
  · exact fillKinds_of_noHoles h.1 h.2

theorem deduces_completedReturnValues (d : Definition Register) (state : Finset Register) :
    Deduces d.enforceReturnValueRegisterState d.tryDeducingReturnValueRegisterState
      (allowedReturnValueRegisters d) (fun _ => False) state
      (completedReturnValues d (state.filter (· ∈ allowedReturnValueRegisters d))) where
  enforced := deduceReturnedValues_true d state
  checked := by
    cases h : d.tryDeducingReturnValueRegisterState state with
    | none => exact .inl rfl
    | some completed =>
      exact .inr ((deduceReturnedValues_mono d h).symm.trans (deduceReturnedValues_true d state))
  isAllowed _ := mem_allowedReturnValues fun _ hmem => (Finset.mem_filter.1 hmem).2
  isKept register hmem hallowed := by
    have hmem := Finset.mem_filter.2 ⟨hmem, hallowed⟩
    rw [completedReturnValues]
    split_ifs
    · exact .inl hmem
    · exact .inl (mem_fillKinds.2 (.inl hmem))

theorem returnsBothKinds_filter (d : Definition Register) (state : Finset Register) :
    d.ReturnsBothKinds (state.filter (· ∈ allowedReturnValueRegisters d)) ↔
      d.ReturnsBothKinds state := by
  have hgps : UsedAt d.generalPurposeReturnValueRegisters
      (state.filter (· ∈ allowedReturnValueRegisters d)) =
        UsedAt d.generalPurposeReturnValueRegisters state :=
    usedAt_filter fun _ => List.mem_append_left _
  have hvrs : UsedAt d.vectorReturnValueRegisters
      (state.filter (· ∈ allowedReturnValueRegisters d)) =
        UsedAt d.vectorReturnValueRegisters state :=
    usedAt_filter fun _ => List.mem_append_right _
  simp only [Definition.ReturnsBothKinds, hgps, hvrs]

theorem enforceReturnValueRegisterState_of_allowed {returnValues : Finset Register}
    (h : ∀ register ∈ returnValues, register ∈ allowedReturnValueRegisters d)
    (hcompleted : completedReturnValues d returnValues = returnValues) :
    d.enforceReturnValueRegisterState returnValues = some returnValues := by
  rw [Definition.enforceReturnValueRegisterState, deduceReturnedValues_true,
    Finset.filter_true_of_mem h, hcompleted]

/-! ## Both -/

/-- What enforcing the ABI makes of the arguments has no holes and is left as it is. -/
def Definition.CompletesArguments (d : Definition Register) (state : Finset Register) : Prop :=
  ∃ completed,
    Deduces d.enforceArgumentRegisterState d.tryDeducingArgumentRegisterState
      (allowedArgumentRegisters d) (d.IsReplacedArgument state) state completed ∧
    d.ArgumentsHaveNoHoles completed ∧ d.enforceArgumentRegisterState completed = some completed

def Definition.CompletesReturnValues (d : Definition Register) (state : Finset Register) : Prop :=
  ∃ completed,
    Deduces d.enforceReturnValueRegisterState d.tryDeducingReturnValueRegisterState
      (allowedReturnValueRegisters d) (fun _ => False) state completed ∧
    d.ReturnValuesHaveNoHoles completed ∧
      d.enforceReturnValueRegisterState completed = some completed

theorem argumentsAreCompleted (hgps : d.generalPurposeArgumentRegisters.Nodup)
    (hvrs : d.vectorArgumentRegisters.Nodup)
    (hapart : d.generalPurposeArgumentRegisters.Disjoint d.vectorArgumentRegisters)
    (hanchored : d.Anchored state) :
    d.ArgumentsHaveNoHoles
        (completedArguments d (state.filter (· ∈ allowedArgumentRegisters d))) ∧
      d.enforceArgumentRegisterState
          (completedArguments d (state.filter (· ∈ allowedArgumentRegisters d))) =
        some (completedArguments d (state.filter (· ∈ allowedArgumentRegisters d))) := by
  obtain ⟨hholes, hcompleted⟩ := argumentsHaveNoHoles_completed hgps hvrs hapart
    ((anchored_filter d state).2 hanchored)
  exact ⟨hholes, enforceArgumentRegisterState_completed
    (fun _ hmem => (Finset.mem_filter.1 hmem).2) hcompleted⟩

theorem enforceReturnValueRegisterState_completed
    (hgps : d.generalPurposeReturnValueRegisters.Nodup) (hvrs : d.vectorReturnValueRegisters.Nodup)
    (hapart : d.generalPurposeReturnValueRegisters.Disjoint d.vectorReturnValueRegisters) :
    d.enforceReturnValueRegisterState
        (completedReturnValues d (state.filter (· ∈ allowedReturnValueRegisters d))) =
      some (completedReturnValues d (state.filter (· ∈ allowedReturnValueRegisters d))) := by
  by_cases hkinds : d.ReturnsBothKinds (state.filter (· ∈ allowedReturnValueRegisters d))
  · rw [completedReturnValues_of_bothKinds hkinds]
    exact enforceReturnValueRegisterState_of_allowed
      (fun _ hmem => (Finset.mem_filter.1 hmem).2) (completedReturnValues_of_bothKinds hkinds)
  · have hholes := returnValuesHaveNoHoles_completed hgps hvrs hapart hkinds
    exact enforceReturnValueRegisterState_of_allowed
      (deduces_completedReturnValues d state).isAllowed (completedReturnValues_of_noHoles hholes)

/-! ## ABIs of x86-64 -/

inductive X86Register where
  | rax | rbx | rcx | rdx | rbp | rsi | rdi | r8 | r9 | r12 | r13 | r14 | r15
  | zmm0 | zmm1 | zmm2 | zmm3 | zmm4 | zmm5 | zmm6 | zmm7
  deriving DecidableEq, Repr

open X86Register

instance : MachineRegister X86Register where
  getReferenceArchitecture _ := .x86_64
  getSize
    | zmm0 | zmm1 | zmm2 | zmm3 | zmm4 | zmm5 | zmm6 | zmm7 => 64
    | _ => 8
  isVectorRegister
    | zmm0 | zmm1 | zmm2 | zmm3 | zmm4 | zmm5 | zmm6 | zmm7 => true
    | _ => false

/-- As in `share/revng/abi/SystemV_x86_64.yml`. -/
def systemV_x86_64 : Definition X86Register where
  abi := .systemV_x86_64
  stackAlignment := 16
  minimumStackArgumentSize := 8
  maximumGPRsPerAggregateArgument := 2
  maximumGPRsPerScalarArgument := 8
  generalPurposeArgumentRegisters := [rdi, rsi, rdx, rcx, r8, r9]
  generalPurposeReturnValueRegisters := [rax, rdx]
  vectorArgumentRegisters := [zmm0, zmm1, zmm2, zmm3, zmm4, zmm5, zmm6, zmm7]
  vectorReturnValueRegisters := [zmm0, zmm1]
  calleeSavedRegisters := [rbx, rbp, r12, r13, r14, r15]
  returnValueLocationRegister := some rdi
  scalarTypes :=
    [{ kind := .integer, size := 1 }, { kind := .integer, size := 2 }, { kind := .integer, size := 4 },
     { kind := .integer, size := 8 }, { kind := .integer, size := 16 },
     { kind := .floatingPoint, size := 2 }, { kind := .floatingPoint, size := 4 },
     { kind := .floatingPoint, size := 8 },
     { kind := .floatingPoint, size := 16, cTypes := [.longDouble] }]

/-- As in `share/revng/abi/Microsoft_x86_64.yml`. -/
def microsoft_x86_64 : Definition X86Register where
  abi := .microsoft_x86_64
  argumentsArePositionBased := true
  allowPackedTypesInRegisters := true
  stackAlignment := 16
  minimumStackArgumentSize := 8
  unusedStackArgumentBytes := 32
  maximumGPRsPerAggregateArgument := 1
  maximumGPRsPerScalarArgument := 1
  generalPurposeArgumentRegisters := [rcx, rdx, r8, r9]
  generalPurposeReturnValueRegisters := [rax]
  vectorArgumentRegisters := [zmm0, zmm1, zmm2, zmm3]
  vectorReturnValueRegisters := [zmm0]
  calleeSavedRegisters := [r12, r13, r14, r15, rdi, rsi, rbx, rbp, zmm6, zmm7]
  returnValueLocationRegister := some rcx
  scalarTypes :=
    [{ kind := .integer, size := 1 }, { kind := .integer, size := 2 },
     { kind := .integer, size := 4, cTypes := [.long] }, { kind := .integer, size := 8 },
     { kind := .integer, size := 16 }, { kind := .floatingPoint, size := 2 },
     { kind := .floatingPoint, size := 4 }, { kind := .floatingPoint, size := 8 }]

/-- A register in both lists of a definition. -/
def sharedRegister : Definition X86Register :=
  { systemV_x86_64 with vectorArgumentRegisters := [rsi, zmm0] }

/-! ## All registers -/

theorem deduces_registerState [MachineRegister Register] (d : Definition Register)
    (hverify : d.verify = true) (state : Finset Register) :
    (∃ completed,
      Enforces d.enforceArgumentRegisterState d.tryDeducingArgumentRegisterState
        (allowedArgumentRegisters d) state completed ∧
      (d.generalPurposeArgumentRegisters.Disjoint d.vectorArgumentRegisters →
        Deduces d.enforceArgumentRegisterState d.tryDeducingArgumentRegisterState
          (allowedArgumentRegisters d) (d.IsReplacedArgument state) state completed ∧
        (d.Anchored state → d.ArgumentsHaveNoHoles completed ∧
          d.enforceArgumentRegisterState completed = some completed))) ∧
    ∃ completed,
      Deduces d.enforceReturnValueRegisterState d.tryDeducingReturnValueRegisterState
        (allowedReturnValueRegisters d) (fun _ => False) state completed ∧
      (d.generalPurposeReturnValueRegisters.Disjoint d.vectorReturnValueRegisters →
        d.enforceReturnValueRegisterState completed = some completed ∧
        (¬d.ReturnsBothKinds state → d.ReturnValuesHaveNoHoles completed)) ∧
      (d.ReturnsBothKinds state →
        completed = state.filter (· ∈ allowedReturnValueRegisters d)) := by
  obtain ⟨hgpas, hvas⟩ := d.nodup_of_verify hverify
  obtain ⟨hgprs, hvrs⟩ := d.nodup_returnValues_of_verify hverify
  refine ⟨⟨_, enforces_completedArguments d state, fun hapart =>
      ⟨deduces_completedArguments d hgpas hvas hapart state,
        argumentsAreCompleted hgpas hvas hapart⟩⟩,
    _, deduces_completedReturnValues d state, fun hapart =>
      ⟨enforceReturnValueRegisterState_completed hgprs hvrs hapart, fun hkinds =>
        returnValuesHaveNoHoles_completed hgprs hvrs hapart
          (mt (returnsBothKinds_filter d state).1 hkinds)⟩,
    fun hkinds => completedReturnValues_of_bothKinds ((returnsBothKinds_filter d state).2 hkinds)⟩

theorem deduces_registerState_zmm1 :
    ∃ completed, systemV_x86_64.enforceReturnValueRegisterState {zmm1} = some completed ∧
      systemV_x86_64.ReturnValuesHaveNoHoles completed := by
  obtain ⟨-, completed, hdeduces, hapart, -⟩ :=
    deduces_registerState systemV_x86_64 (by decide) {zmm1}
  refine ⟨completed, hdeduces.enforced, (hapart (List.disjoint_left.2 (by decide))).2 ?_⟩
  rintro ⟨⟨i, register, hregister, hmem⟩, -⟩
  obtain rfl := Finset.mem_singleton.1 hmem
  exact absurd (List.mem_of_getElem? hregister) (by decide)

/-- Return values of both kinds, a position with both kinds behind an unused one, and a register of
both kinds. -/
theorem not_completes :
    (systemV_x86_64.verify = true ∧ ¬systemV_x86_64.CompletesReturnValues {rdx, zmm1}) ∧
      (microsoft_x86_64.verify = true ∧ ¬microsoft_x86_64.CompletesArguments {rdx, zmm1}) ∧
      (sharedRegister.verify = true ∧ ¬sharedRegister.CompletesArguments {zmm0}) := by
  refine ⟨⟨by decide, ?_⟩, ⟨by decide, ?_⟩, ⟨by decide, ?_⟩⟩
  · rintro ⟨completed, hdeduces, hholes, -⟩
    have henforced : systemV_x86_64.enforceReturnValueRegisterState {rdx, zmm1} =
        some {rdx, zmm1} := by decide
    obtain rfl := Option.some.inj (henforced.symm.trans hdeduces.enforced)
    obtain ⟨register, hregister, hmem⟩ := hholes.1 0 1 (by decide) ⟨rdx, rfl, by decide⟩
    obtain rfl := Option.some.inj hregister
    exact absurd hmem (by decide)
  · rintro ⟨completed, hdeduces, hholes, -⟩
    have henforced : microsoft_x86_64.enforceArgumentRegisterState {rdx, zmm1} = some {rdx} := by
      decide
    obtain rfl := Option.some.inj (henforced.symm.trans hdeduces.enforced)
    rcases hholes 0 1 (by decide) (.inl ⟨rdx, rfl, by decide⟩) with
      ⟨register, hregister, hmem⟩ | ⟨register, hregister, hmem⟩
    · obtain rfl := Option.some.inj hregister
      exact absurd hmem (by decide)
    · obtain rfl := Option.some.inj hregister
      exact absurd hmem (by decide)
  · rintro ⟨completed, hdeduces, hholes, -⟩
    have henforced : sharedRegister.enforceArgumentRegisterState {zmm0} = some {rsi, zmm0} := by
      decide
    obtain rfl := Option.some.inj (henforced.symm.trans hdeduces.enforced)
    obtain ⟨register, hregister, hmem⟩ := hholes.1 0 1 (by decide) ⟨rsi, rfl, by decide⟩
    obtain rfl := Option.some.inj hregister
    exact absurd hmem (by decide)

end ABI
