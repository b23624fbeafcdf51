import Revng.Lib.FlowPaths
import Revng.Mfp.MaximalFixedPoint
import Revng.RegisterUsage.Function

/-!
# Reaching definitions

The forward analysis tells which writes are alive at a point and which have been read before it.
It knows a write by its index among the writes of the register, in eight bits
(`writeToIndex_injective`).
-/

namespace RegisterUsage

open FlowPaths

variable {Node : Type} {x : Register} {s : Site Node} {older past : List (Site Node)}

/-- `RegisterWriters`: the writes that reach a point alive, and those that have been read. -/
abbrev RegisterWriters := Finset (Fin 256) × Finset (Fin 256)

/-- One entry per register. -/
abbrev WritersSet := Register → RegisterWriters

/-- The write of the register that is alive after the operations, the last one first. -/
def aliveWrite (x : Register) : List (Site Node) → Option (Site Node)
  | [] => none
  | s :: older =>
      if s.target = x then
        match s.type with
        | .write => some s
        | .clobber => none
        | .read => aliveWrite x older
      else aliveWrite x older

/-- One of the operations, the last one first, reads what `s` has written. -/
inductive IsRead (s : Site Node) : List (Site Node) → Prop where
  | here {r older} : r.type = .read → aliveWrite r.target older = some s → IsRead s (r :: older)
  | there {r older} : IsRead s older → IsRead s (r :: older)

theorem isRead_cons {r : Site Node} : IsRead s (r :: older) ↔
    (r.type = .read ∧ aliveWrite r.target older = some s) ∨ IsRead s older := by
  constructor
  · rintro (⟨hr, hs⟩ | h)
    · exact .inl ⟨hr, hs⟩
    · exact .inr h
  · rintro (⟨hr, hs⟩ | h)
    · exact .here hr hs
    · exact .there h

theorem aliveWrite_eq_some (h : aliveWrite x past = some s) :
    s.target = x ∧ s.type = .write ∧ s ∈ past := by
  induction past with
  | nil => cases h
  | cons r older ih =>
    rw [aliveWrite] at h
    split at h
    next hx =>
      split at h
      next hr =>
        cases h
        exact ⟨hx, hr, List.mem_cons_self⟩
      next => cases h
      next => exact (ih h).imp_right (.imp_right (.tail _))
    next => exact (ih h).imp_right (.imp_right (.tail _))

theorem IsRead.mem (h : IsRead s past) : s ∈ past ∧ s.type = .write := by
  induction h with
  | here _ hs => exact ⟨.tail _ (aliveWrite_eq_some hs).2.2, (aliveWrite_eq_some hs).2.1⟩
  | there _ ih => exact ih.imp_left (.tail _)

def Function.history (f : Function Node) (path : List Node) : List (Site Node) :=
  path.flatMap fun n => (f.sites n).reverse

/-- What may have been performed before the block, the last operation first. -/
def Function.Before (f : Function Node) (n : Node) (past : List (Site Node)) : Prop :=
  ∃ path, IsPath (fun a b => b ∈ f.successors a) n path ∧ f.history path = past

/-- What may have been performed after the block, the last operation first. -/
def Function.After (f : Function Node) (n : Node) (past : List (Site Node)) : Prop :=
  ∃ path, IsPath (fun a b => b ∈ f.successors a) n path ∧ f.history (n :: path) = past

namespace ReachingDefinitions

def step (index : Site Node → Fin 256) (s : Site Node) (w : WritersSet) : WritersSet :=
  let writes := w s.target
  Function.update w s.target <|
    match s.type with
    | .write => ({index s}, writes.2)
    | .clobber => (∅, writes.2)
    | .read => (writes.1, writes.2 ∪ writes.1)

/-- The registers with a write that is alive at the point and has not been read at the sink. -/
def compute (programPoint sink : WritersSet) : Finset Register :=
  Finset.univ.filter fun x => ((programPoint x).1 ∩ (sink x).2ᶜ).Nonempty

variable {index : Site Node → Fin 256} {i : Fin 256}

theorem mem_compute {point sink : WritersSet} :
    x ∈ compute point sink ↔ ∃ i ∈ (point x).1, i ∉ (sink x).2 := by
  simp [compute, Finset.Nonempty]

/-- The bits of the sets: of `Reaching` with `false`, of `Read` with `true`. -/
def Holds (w : WritersSet) : Bool × Register × Fin 256 → Prop
  | (false, x, i) => i ∈ (w x).1
  | (true, x, i) => i ∈ (w x).2

theorem facts : Facts Holds where
  le_iff a b := by
    constructor
    · rintro h ⟨_ | _, x, i⟩ hi
      · exact (h x).1 hi
      · exact (h x).2 hi
    · exact fun h x => ⟨fun i => h (false, x, i), fun i => h (true, x, i)⟩
  realized P := by
    classical
    refine ⟨fun x => (Finset.univ.filter fun i => P (false, x, i),
      Finset.univ.filter fun i => P (true, x, i)), ?_⟩
    rintro ⟨_ | _, x, i⟩ <;> simp [Holds]

theorem distributive_step (s : Site Node) : Distributive Holds (step index s) := by
  refine ⟨fun y => s.type = .write ∧ y = (false, s.target, index s), fun z y =>
    (z = y ∧ (s.type = .read ∨ ∀ i, y ≠ (false, s.target, i))) ∨
    (s.type = .read ∧ z = (false, s.target, y.2.2) ∧ y = (true, s.target, y.2.2)), ?_⟩
  rintro a ⟨_ | _, x, i⟩ <;> by_cases hx : x = s.target <;> cases hs : s.type <;>
    simp [Holds, step, hx, hs, or_comm]

/-- A read reads the write that is alive before it. -/
theorem exists_isRead_cons {r : Site Node} :
    (∃ s, IsRead s (r :: older) ∧ s.target = x ∧ index s = i) ↔
      (∃ s, IsRead s older ∧ s.target = x ∧ index s = i) ∨
        r.type = .read ∧ r.target = x ∧ ∃ s, aliveWrite x older = some s ∧ index s = i := by
  simp only [isRead_cons]
  constructor
  · rintro ⟨s, ⟨hr, hs⟩ | hs, htarget, hi⟩
    · have hx : r.target = x := (aliveWrite_eq_some hs).1.symm.trans htarget
      exact .inr ⟨hr, hx, s, hx ▸ hs, hi⟩
    · exact .inl ⟨s, hs, htarget, hi⟩
  · rintro (⟨s, hs, htarget, hi⟩ | ⟨hr, rfl, s, hs, hi⟩)
    · exact ⟨s, .inr hs, htarget, hi⟩
    · exact ⟨s, .inl ⟨hr, hs⟩, (aliveWrite_eq_some hs).1, hi⟩

/-- The bits after the operations, the last one first. -/
theorem mem_foldr_step :
    (i ∈ (past.foldr (step index) ⊥ x).1 ↔ ∃ s, aliveWrite x past = some s ∧ index s = i) ∧
    (i ∈ (past.foldr (step index) ⊥ x).2 ↔
      ∃ s, IsRead s past ∧ s.target = x ∧ index s = i) := by
  induction past with
  | nil => exact ⟨by simp [aliveWrite], iff_of_false (by simp) fun ⟨_, h, _⟩ => by cases h⟩
  | cons r older ih =>
    rw [exists_isRead_cons, ← ih.2, aliveWrite]
    by_cases hx : r.target = x
    · subst hx
      cases hr : r.type <;> simp [step, hr, ih.1, eq_comm]
    · simp [step, hx, Ne.symm hx, ih.1]

variable [DecidableEq Node]

/-- The writes of a register, in order. -/
def writes (f : Function Node) (x : Register) : List (Site Node) :=
  (f.nodes.flatMap f.sites).filter fun s => s.type = .write ∧ s.target = x

/-- `WriteToIndex`: the index of a write among those of its register, as a `uint8_t`. -/
def writeToIndex (f : Function Node) (s : Site Node) : Fin 256 :=
  ⟨(writes f s.target).idxOf s % 256, Nat.mod_lt _ (by decide)⟩

/-- The index tells 256 writes of a register apart. -/
theorem writeToIndex_injective {f : Function Node} {t : Site Node} (hs : s ∈ writes f x)
    (ht : t ∈ writes f x) (hcount : (writes f x).length ≤ 256)
    (h : writeToIndex f s = writeToIndex f t) : s = t := by
  have htarget : s.target = x ∧ t.target = x := by
    simp only [writes, List.mem_filter, decide_eq_true_eq] at hs ht
    exact ⟨hs.2.2, ht.2.2⟩
  have hls := List.idxOf_lt_length_of_mem hs
  have hlt := List.idxOf_lt_length_of_mem ht
  have hval := congrArg Fin.val h
  simp only [writeToIndex, htarget] at hval
  rw [Nat.mod_eq_of_lt (by omega), Nat.mod_eq_of_lt (by omega)] at hval
  exact (List.idxOf_inj hs).mp hval

def inst (f : Function Node) : Mfp.MonotoneFrameworkInstance Node WritersSet where
  isLessOrEqual lhs rhs := decide (∀ x, lhs x ⊓ rhs x = lhs x)
  combineValues lhs rhs := fun x => lhs x ⊔ rhs x
  applyTransferFunction n initialState :=
    (f.sites n).foldl (fun w s => step (writeToIndex f) s w) initialState

theorem foldr_transfer (f : Function Node) (path : List Node) :
    path.foldr (inst f).applyTransferFunction ⊥ =
      (f.history path).foldr (step (writeToIndex f)) ⊥ := by
  simp only [Function.history, List.foldr_flatMap, List.foldr_reverse]
  rfl

theorem distributive (f : Function Node) (n : Node) :
    Distributive Holds ((inst f).applyTransferFunction n) := by
  have h : Distributive Holds fun w => (f.sites n).reverse.foldr (step (writeToIndex f)) w :=
    .foldr distributive_step _
  simp only [List.foldr_reverse] at h
  exact h

theorem lawful (f : Function Node) : (inst f).Lawful where
  isLessOrEqual_iff lhs rhs := by simp [inst, Pi.le_def]
  combineValues_eq _ _ := rfl
  monotone n := (distributive f n).monotone facts.le_iff

end ReachingDefinitions

end RegisterUsage
