import Mathlib.Data.Finset.Filter
import Revng.ABI.Definition
import Revng.Lib.SharedPositions

/-!
# Deductions from the state of registers

`DeductionImpl` completes a set of registers that hold arguments or return values: a register in front
of one that is used has to be used as well.  With `enforceABIConformance` it believes the ABI and
changes the set, and otherwise it gives up on a contradiction.

If arguments are based on their position, a general purpose and a vector register share each position.
A position with both does not count as used for the ones in front of it, so holes can stay
(`Definition.Anchored`).  Return values are not completed when both kinds of registers are used.
-/

namespace ABI

open SharedPositions (NoHoles)

variable {Register : Type}

section Deduction

variable [DecidableEq Register]

abbrev RegisterSet (Register : Type) := Finset Register

/-- Finds the last used register of the first `index` ones, with `0` if none is used. -/
def findLastUsedIndexFrom (registers : List Register) (state : RegisterSet Register) : ℕ → ℕ
  | 0 => 0
  | index + 1 =>
      match registers[index]? with
      | some register =>
          if register ∈ state then index + 1 else findLastUsedIndexFrom registers state index
      | none => findLastUsedIndexFrom registers state index

def findLastUsedIndex (registers : List Register) (state : RegisterSet Register) : ℕ :=
  findLastUsedIndexFrom registers state registers.length

/-! ## Deductions -/

variable (enforceABIConformance : Bool)

/-- No result when the deduction gives up. -/
def ensureRegistersAreAllowed (usedSet : RegisterSet Register) (allowedRegisters : List Register) :
    Option (RegisterSet Register) :=
  if enforceABIConformance then some (usedSet.filter (· ∈ allowedRegisters))
  else if ∀ register ∈ usedSet, register ∈ allowedRegisters then some usedSet
  else none

/-- The state and `IsRequired` after one of the registers without a counterpart. -/
def deduceSingle (x : RegisterSet Register × Bool) (register : Register) :
    RegisterSet Register × Bool :=
  if register ∈ x.1 then (x.1, true)
  else if x.2 then (insert register x.1, x.2)
  else x

/-- The state and `IsRequired` after a position. -/
def singlePositionBasedDeduction (x : RegisterSet Register × Bool) (position : Register × Register) :
    Option (RegisterSet Register × Bool) :=
  let (gpRegister, vRegister) := position
  if gpRegister ∈ x.1 then
    if vRegister ∈ x.1 then
      -- `IsRequired` is left as it is
      if enforceABIConformance then some (x.1.erase vRegister, x.2) else none
    else some (x.1, true)
  else if vRegister ∈ x.1 then some (x.1, true)
  else if x.2 then
    if enforceABIConformance then some (insert gpRegister x.1, x.2) else none
  else some x

def deducePositionBasedArguments (d : Definition Register) (state : RegisterSet Register) :
    Option (RegisterSet Register) :=
  let gpar := d.generalPurposeArgumentRegisters
  let var := d.vectorArgumentRegisters
  let x :=
    if var.length < gpar.length then (gpar.drop var.length).reverse.foldl deduceSingle (state, false)
    else if gpar.length < var.length then
      (var.drop gpar.length).reverse.foldl deduceSingle (state, false)
    else (state, false)
  let positions := (gpar.take var.length).reverse.zip (var.take gpar.length).reverse
  (positions.foldlM (singlePositionBasedDeduction enforceABIConformance) x).map Prod.fst

def fillState (state : RegisterSet Register) (requiredRegisters : List Register) :
    RegisterSet Register :=
  requiredRegisters.foldl (fun state register => insert register state) state

def deduceNonPositionBasedArguments (d : Definition Register) (state : RegisterSet Register) :
    RegisterSet Register :=
  let gps := d.generalPurposeArgumentRegisters
  let requiredGPRs := gps.take (findLastUsedIndex gps state)
  let vrs := d.vectorArgumentRegisters
  let requiredVRs := vrs.take (findLastUsedIndex vrs state)
  fillState state (requiredGPRs ++ requiredVRs)

def deduceReturnValues (d : Definition Register) (state : RegisterSet Register) :
    Option (RegisterSet Register) :=
  let gps := d.generalPurposeReturnValueRegisters
  let requiredGPRs := gps.take (findLastUsedIndex gps state)
  let vrs := d.vectorReturnValueRegisters
  let requiredVRs := vrs.take (findLastUsedIndex vrs state)
  if requiredGPRs ≠ [] then
    if requiredVRs ≠ [] then
      -- There is no way to differentiate between the two.
      if enforceABIConformance then some state else none
    else some (fillState state requiredGPRs)
  else if requiredVRs ≠ [] then some (fillState state requiredVRs)
  else some state

def allowedArgumentRegisters (d : Definition Register) : List Register :=
  d.generalPurposeArgumentRegisters ++ d.vectorArgumentRegisters

def allowedReturnValueRegisters (d : Definition Register) : List Register :=
  d.generalPurposeReturnValueRegisters ++ d.vectorReturnValueRegisters

/-- `DeductionImpl::arguments` -/
def deduceArguments (d : Definition Register) (arguments : RegisterSet Register) :
    Option (RegisterSet Register) := do
  let arguments ← ensureRegistersAreAllowed enforceABIConformance arguments
    (allowedArgumentRegisters d)
  if d.argumentsArePositionBased then deducePositionBasedArguments enforceABIConformance d arguments
  else some (deduceNonPositionBasedArguments d arguments)

/-- `DeductionImpl::returnValues` -/
def deduceReturnedValues (d : Definition Register) (returnValues : RegisterSet Register) :
    Option (RegisterSet Register) := do
  let returnValues ← ensureRegistersAreAllowed enforceABIConformance returnValues
    (allowedReturnValueRegisters d)
  deduceReturnValues enforceABIConformance d returnValues

namespace Definition

def tryDeducingArgumentRegisterState (d : Definition Register) (arguments : RegisterSet Register) :
    Option (RegisterSet Register) :=
  deduceArguments false d arguments

def tryDeducingReturnValueRegisterState (d : Definition Register)
    (returnValues : RegisterSet Register) : Option (RegisterSet Register) :=
  deduceReturnedValues false d returnValues

/-- No result when an assertion fails. -/
def enforceArgumentRegisterState (d : Definition Register) (arguments : RegisterSet Register) :
    Option (RegisterSet Register) :=
  deduceArguments true d arguments

def enforceReturnValueRegisterState (d : Definition Register)
    (returnValues : RegisterSet Register) : Option (RegisterSet Register) :=
  deduceReturnedValues true d returnValues

end Definition

end Deduction

/-!
## Completed sets of registers

With `enforceABIConformance` the deduction for arguments that are based on their position is `settle`
on the positions (`deducePositionBasedArguments_true`), and the one without it agrees with it as long as
it does not give up (`deduceArguments_mono`).  The other deductions complete each kind of registers on
its own (`noHoles_fillKinds`).
-/

open SharedPositions (NoHoles Position At settle)

variable {registers gps vrs : List Register} {register : Register} {state : Finset Register}

/-! ## Registers by their index -/

def UsedAt (registers : List Register) (state : Finset Register) (i : ℕ) : Prop :=
  ∃ register, registers[i]? = some register ∧ register ∈ state

theorem not_usedAt_nil (i : ℕ) : ¬UsedAt [] state i := nofun

variable {state' : Finset Register}

theorem UsedAt.mono {i : ℕ} (h : UsedAt registers state i)
    (hsub : ∀ register ∈ registers, register ∈ state → register ∈ state') :
    UsedAt registers state' i := by
  obtain ⟨register, hregister, hmem⟩ := h
  exact ⟨register, hregister, hsub register (List.mem_of_getElem? hregister) hmem⟩

theorem usedAt_congr (h : ∀ register ∈ registers, register ∈ state ↔ register ∈ state') :
    UsedAt registers state = UsedAt registers state' :=
  funext fun _ => propext ⟨fun hused => hused.mono fun r hr => (h r hr).1,
    fun hused => hused.mono fun r hr => (h r hr).2⟩

/-! ## Shared positions -/

/-- The register without a counterpart is the main one of its position. -/
def positions : List Register → List Register → List (Position Register)
  | [], vrs => vrs.map fun v => ⟨v, none⟩
  | gp :: gps, [] => (gp :: gps).map fun gp => ⟨gp, none⟩
  | gp :: gps, v :: vrs => ⟨gp, some v⟩ :: positions gps vrs

theorem positions_eq (gps vrs : List Register) : positions gps vrs =
    ((gps.take vrs.length).zip (vrs.take gps.length)).map (fun p => ⟨p.1, some p.2⟩) ++
      ((gps.drop vrs.length).map (fun gp => ⟨gp, none⟩) ++
        (vrs.drop gps.length).map fun v => ⟨v, none⟩) := by
  induction gps generalizing vrs with
  | nil => simp [positions]
  | cons gp gps ih =>
    cases vrs with
    | nil => simp [positions]
    | cons v vrs => simp [positions, ih]

theorem holders_positions (gps vrs : List Register) :
    ((positions gps vrs).flatMap Position.holders).Perm (gps ++ vrs) := by
  induction gps generalizing vrs with
  | nil => simp [positions, Position.holders, List.flatMap_map]
  | cons gp gps ih =>
    cases vrs with
    | nil => simp [positions, Position.holders, List.flatMap_map]
    | cons v vrs => exact (((ih vrs).cons v).trans List.perm_middle.symm).cons gp

theorem at_map_single (P : Position Register → Prop) (i : ℕ) :
    At P (registers.map fun register => ⟨register, none⟩) i ↔
      ∃ register, registers[i]? = some register ∧ P ⟨register, none⟩ := by
  constructor
  · rintro ⟨p, hp, hP⟩
    rw [List.getElem?_map, Option.map_eq_some_iff] at hp
    obtain ⟨register, hregister, rfl⟩ := hp
    exact ⟨register, hregister, hP⟩
  · rintro ⟨register, hregister, hP⟩
    exact ⟨_, by rw [List.getElem?_map, hregister]; rfl, hP⟩

theorem at_used_positions (gps vrs : List Register) (i : ℕ) :
    At (Position.Used state) (positions gps vrs) i ↔ UsedAt gps state i ∨ UsedAt vrs state i := by
  induction gps generalizing vrs i with
  | nil => simp [positions, at_map_single, Position.Used, UsedAt]
  | cons gp gps ih =>
    cases vrs with
    | nil =>
      rw [positions, at_map_single, or_iff_left (not_usedAt_nil i)]
      simp [Position.Used, UsedAt]
    | cons v vrs =>
      cases i with
      | zero => simp [positions, At, Position.Used, UsedAt]
      | succ i => exact ih vrs i

theorem at_sole_positions (gps vrs : List Register) (i : ℕ) :
    At (Position.Sole state) (positions gps vrs) i ↔ (UsedAt gps state i ∨ UsedAt vrs state i) ∧
      ¬(UsedAt gps state i ∧ UsedAt vrs state i) := by
  induction gps generalizing vrs i with
  | nil => simp [positions, at_map_single, Position.Sole, Position.Used, Position.Clashes, UsedAt]
  | cons gp gps ih =>
    cases vrs with
    | nil =>
      rw [positions, at_map_single, or_iff_left (not_usedAt_nil i)]
      simp [Position.Sole, Position.Used, Position.Clashes, UsedAt]
    | cons v vrs =>
      cases i with
      | zero => simp [positions, At, Position.Sole, Position.Used, Position.Clashes, UsedAt]
      | succ i => exact ih vrs i

/-! ## Registers that are required -/

variable [DecidableEq Register]

theorem lt_findLastUsedIndexFrom_iff (i index : ℕ) :
    i < findLastUsedIndexFrom registers state index ↔
      ∃ j, i ≤ j ∧ j < index ∧ UsedAt registers state j := by
  induction index with
  | zero => simp [findLastUsedIndexFrom]
  | succ index ih =>
    have hskip (h : ¬UsedAt registers state index) :
        (∃ j, i ≤ j ∧ j < index ∧ UsedAt registers state j) ↔
          ∃ j, i ≤ j ∧ j < index + 1 ∧ UsedAt registers state j := by
      refine exists_congr fun j => and_congr_right fun _ => ?_
      refine ⟨fun hj => ⟨Nat.lt_succ_of_lt hj.1, hj.2⟩, fun hj => ⟨?_, hj.2⟩⟩
      refine Nat.lt_of_le_of_ne (Nat.le_of_lt_succ hj.1) fun heq => h (heq ▸ hj.2)
    rw [findLastUsedIndexFrom]
    split
    · next register hregister =>
      split_ifs with hmem
      · have hused : UsedAt registers state index := ⟨register, hregister, hmem⟩
        refine ⟨fun hlt => ⟨index, Nat.le_of_lt_succ hlt, Nat.lt_succ_self _, hused⟩, ?_⟩
        rintro ⟨j, hle, hlt, -⟩
        omega
      · refine ih.trans (hskip ?_)
        rintro ⟨register', hregister', hmem'⟩
        obtain rfl := Option.some.inj (hregister.symm.trans hregister')
        exact hmem hmem'
    · next hnone =>
      refine ih.trans (hskip ?_)
      rintro ⟨register', hregister', -⟩
      exact nomatch hnone.symm.trans hregister'

theorem lt_findLastUsedIndex_iff (i : ℕ) :
    i < findLastUsedIndex registers state ↔ ∃ j, i ≤ j ∧ UsedAt registers state j := by
  rw [findLastUsedIndex, lt_findLastUsedIndexFrom_iff]
  refine exists_congr fun j => and_congr_right fun _ => and_iff_right_of_imp ?_
  rintro ⟨register, hregister, -⟩
  exact (List.getElem?_eq_some_iff.1 hregister).1

theorem mem_fillState : register ∈ fillState state registers ↔
    register ∈ state ∨ register ∈ registers := by
  rw [fillState]
  induction registers generalizing state with
  | nil => simp
  | cons first registers ih =>
    rw [List.foldl_cons, ih, Finset.mem_insert, List.mem_cons]
    tauto

/-- The registers up to the last one that is used. -/
def required (registers : List Register) (state : Finset Register) : List Register :=
  registers.take (findLastUsedIndex registers state)

theorem mem_required : register ∈ required registers state ↔
    ∃ i j, registers[i]? = some register ∧ i ≤ j ∧ UsedAt registers state j := by
  rw [required, List.mem_take_iff_getElem]
  constructor
  · rintro ⟨i, hi, rfl⟩
    rw [Nat.lt_min, lt_findLastUsedIndex_iff] at hi
    obtain ⟨⟨j, hle, hused⟩, hlt⟩ := hi
    exact ⟨i, j, List.getElem?_eq_getElem hlt, hle, hused⟩
  · rintro ⟨i, j, hregister, hle, hused⟩
    obtain ⟨hlt, rfl⟩ := List.getElem?_eq_some_iff.1 hregister
    exact ⟨i, Nat.lt_min.2 ⟨(lt_findLastUsedIndex_iff i).2 ⟨j, hle, hused⟩, hlt⟩, rfl⟩

theorem required_eq_nil_iff : required registers state = [] ↔ ∀ i, ¬UsedAt registers state i := by
  rw [List.eq_nil_iff_forall_not_mem]
  constructor
  · rintro h i ⟨register, hregister, hmem⟩
    exact h register (mem_required.2 ⟨i, i, hregister, Nat.le_refl i, register, hregister, hmem⟩)
  · intro h register hmem
    obtain ⟨-, j, -, -, hused⟩ := mem_required.1 hmem
    exact h j hused

theorem mem_of_mem_required (h : register ∈ required registers state) : register ∈ registers :=
  List.mem_of_mem_take h

/-- Without holes nothing has to be filled. -/
theorem mem_of_noHoles (h : NoHoles (UsedAt registers state))
    (hmem : register ∈ required registers state) : register ∈ state := by
  obtain ⟨i, j, hregister, hle, hused⟩ := mem_required.1 hmem
  have hi : UsedAt registers state i := by
    rcases Nat.lt_or_eq_of_le hle with hlt | rfl
    · exact h i j hlt hused
    · exact hused
  obtain ⟨register', hregister', hmem'⟩ := hi
  obtain rfl := Option.some.inj (hregister.symm.trans hregister')
  exact hmem'

variable (state) in
/-- What is added from one list leaves no holes in it. -/
theorem noHoles_of_required (hnodup : registers.Nodup)
    (h : ∀ register ∈ registers, register ∈ state' ↔
      register ∈ state ∨ register ∈ required registers state) :
    NoHoles (UsedAt registers state') := by
  rintro i j hlt ⟨register, hregister, hmem⟩
  have hlength := (List.getElem?_eq_some_iff.1 hregister).1
  have hi : registers[i]? = some registers[i] := List.getElem?_eq_getElem (hlt.trans hlength)
  obtain ⟨k, hle, hused⟩ : ∃ k, i ≤ k ∧ UsedAt registers state k := by
    rcases (h register (List.mem_of_getElem? hregister)).1 hmem with hmem | hmem
    · exact ⟨j, hlt.le, register, hregister, hmem⟩
    · obtain ⟨j', k, hregister', hle, hused⟩ := mem_required.1 hmem
      obtain rfl := hnodup.getElem_inj_iff.1 <| Option.some.inj <|
        (List.getElem?_eq_getElem hlength).symm.trans <| hregister.trans <| hregister'.symm.trans <|
          List.getElem?_eq_getElem (List.getElem?_eq_some_iff.1 hregister').1
      exact ⟨k, hlt.le.trans hle, hused⟩
  exact ⟨registers[i], hi, (h _ (List.getElem_mem _)).2 (.inr (mem_required.2 ⟨i, k, hi, hle, hused⟩))⟩

/-! ## Deductions that enforce the ABI -/

theorem singlePositionBasedDeduction_true (x : Finset Register × Bool) (p : Register × Register) :
    singlePositionBasedDeduction true x p = some (SharedPositions.step ⟨p.1, some p.2⟩ x) := by
  simp only [singlePositionBasedDeduction, SharedPositions.step, if_true]
  split_ifs <;> rfl

theorem deducePositionBasedArguments_true (d : Definition Register) (state : Finset Register) :
    deducePositionBasedArguments true d state =
      some (settle (positions d.generalPurposeArgumentRegisters d.vectorArgumentRegisters)
        (state, false)).1 := by
  have hsteps : @singlePositionBasedDeduction Register _ true =
      fun x p => pure (SharedPositions.step ⟨p.1, some p.2⟩ x) :=
    funext fun x => funext fun p => singlePositionBasedDeduction_true x p
  have hsingles : ∀ (registers : List Register) (x : Finset Register × Bool),
      registers.reverse.foldl deduceSingle x =
        settle (registers.map fun register => ⟨register, none⟩) x := fun registers x => by
    rw [List.foldl_reverse, settle, List.foldr_map]
    rfl
  have hshared : ∀ (ps : List (Register × Register)) (x : Finset Register × Bool),
      ps.reverse.foldlM (singlePositionBasedDeduction true) x =
        some (settle (ps.map fun p => ⟨p.1, some p.2⟩) x) := fun ps x => by
    rw [hsteps, List.foldlM_pure, List.foldl_reverse, settle, List.foldr_map]
    rfl
  simp only [deducePositionBasedArguments]
  generalize d.generalPurposeArgumentRegisters = gps
  generalize d.vectorArgumentRegisters = vrs
  have hlength : (gps.take vrs.length).length = (vrs.take gps.length).length := by
    simp only [List.length_take]
    omega
  rw [List.zip, ← List.reverse_zipWith hlength, ← List.zip, hshared, positions_eq, settle, settle,
    List.foldr_append, List.foldr_append]
  split_ifs with hlt hgt
  · rw [hsingles, List.drop_eq_nil_of_le (Nat.le_of_lt hlt)]
    rfl
  · rw [hsingles, List.drop_eq_nil_of_le (Nat.le_of_lt hgt)]
    rfl
  · rw [List.drop_eq_nil_of_le (Nat.le_of_not_lt hlt), List.drop_eq_nil_of_le (Nat.le_of_not_lt hgt)]
    rfl

/-- Each kind of registers is filled up to the last one that is used. -/
def fillKinds (gps vrs : List Register) (state : Finset Register) : Finset Register :=
  fillState state (required gps state ++ required vrs state)

theorem mem_fillKinds : register ∈ fillKinds gps vrs state ↔
    register ∈ state ∨ register ∈ required gps state ∨ register ∈ required vrs state := by
  rw [fillKinds, mem_fillState, List.mem_append]

variable (state) in
theorem noHoles_fillKinds (hgps : gps.Nodup) (hvrs : vrs.Nodup) (hapart : gps.Disjoint vrs) :
    NoHoles (UsedAt gps (fillKinds gps vrs state)) ∧
      NoHoles (UsedAt vrs (fillKinds gps vrs state)) := by
  constructor
  · refine noHoles_of_required state hgps fun register hmem => ?_
    rw [mem_fillKinds, or_iff_left fun hvr => hapart hmem (mem_of_mem_required hvr)]
  · refine noHoles_of_required state hvrs fun register hmem => ?_
    rw [mem_fillKinds, or_iff_right fun hgp => hapart (mem_of_mem_required hgp) hmem]

theorem fillKinds_of_noHoles (hgps : NoHoles (UsedAt gps state))
    (hvrs : NoHoles (UsedAt vrs state)) : fillKinds gps vrs state = state := by
  ext register
  rw [mem_fillKinds]
  refine or_iff_left_of_imp ?_
  rintro (hgp | hvr)
  · exact mem_of_noHoles hgps hgp
  · exact mem_of_noHoles hvrs hvr

theorem deduceReturnValues_true (d : Definition Register) (state : Finset Register) :
    deduceReturnValues true d state =
      some (if required d.generalPurposeReturnValueRegisters state ≠ [] ∧
          required d.vectorReturnValueRegisters state ≠ [] then state
        else fillKinds d.generalPurposeReturnValueRegisters d.vectorReturnValueRegisters state) := by
  have hkinds : ∀ required required' : List Register,
      (if required ≠ [] then
        if required' ≠ [] then if true = true then some state else none
        else some (fillState state required)
      else if required' ≠ [] then some (fillState state required')
      else some state) =
        some (if required ≠ [] ∧ required' ≠ [] then state
          else fillState state (required ++ required')) := by
    rintro (_ | ⟨gp, gps⟩) (_ | ⟨v, vrs⟩) <;> simp [fillState]
  exact hkinds _ _

/-! ## Deductions that do not -/

theorem singlePositionBasedDeduction_mono {x y : Finset Register × Bool} {p : Register × Register}
    (h : singlePositionBasedDeduction false x p = some y) :
    singlePositionBasedDeduction true x p = some y := by
  simp only [singlePositionBasedDeduction] at h ⊢
  split_ifs at h ⊢ <;> exact h

theorem foldlM_mono {α β : Type} {f g : β → α → Option β}
    (hstep : ∀ x a y, f x a = some y → g x a = some y) (l : List α) {x y : β}
    (h : l.foldlM f x = some y) : l.foldlM g x = some y := by
  induction l generalizing x with
  | nil => exact h
  | cons a l ih =>
    rw [List.foldlM_cons, Option.bind_eq_bind, Option.bind_eq_some_iff] at h ⊢
    obtain ⟨z, hz, h⟩ := h
    exact ⟨z, hstep x a z hz, ih h⟩

variable {completed : Finset Register}

theorem ensureRegistersAreAllowed_false {allowed : List Register}
    (h : ensureRegistersAreAllowed false state allowed = some completed) :
    ensureRegistersAreAllowed true state allowed = some completed := by
  rw [ensureRegistersAreAllowed, if_neg Bool.false_ne_true] at h
  split_ifs at h with hall
  rw [← h]
  exact congrArg some (Finset.filter_true_of_mem hall)

theorem deduceArguments_mono (d : Definition Register)
    (h : deduceArguments false d state = some completed) :
    deduceArguments true d state = some completed := by
  rw [deduceArguments, Option.bind_eq_bind, Option.bind_eq_some_iff] at h ⊢
  obtain ⟨arguments, hallowed, h⟩ := h
  refine ⟨arguments, ensureRegistersAreAllowed_false hallowed, ?_⟩
  split_ifs at h ⊢ with hposition
  · rw [deducePositionBasedArguments, Option.map_eq_some_iff] at h ⊢
    obtain ⟨x, hx, rfl⟩ := h
    exact ⟨x, foldlM_mono (fun _ _ _ => singlePositionBasedDeduction_mono) _ hx, rfl⟩
  · exact h

theorem deduceReturnedValues_mono (d : Definition Register)
    (h : deduceReturnedValues false d state = some completed) :
    deduceReturnedValues true d state = some completed := by
  rw [deduceReturnedValues, Option.bind_eq_bind, Option.bind_eq_some_iff] at h ⊢
  obtain ⟨returnValues, hallowed, h⟩ := h
  refine ⟨returnValues, ensureRegistersAreAllowed_false hallowed, ?_⟩
  simp only [deduceReturnValues] at h ⊢
  split_ifs at h ⊢ <;> exact h

end ABI
