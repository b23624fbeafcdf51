import Mathlib.Data.Fintype.Order
import Revng.Lib.Worklist
import Revng.Mfp.Traversal

/-!
# The maximal fixed point

`getMaximalFixedPoint` solves an instance of a monotone framework over a finite graph.
The nodes that an entry label reaches form the worklist; an iteration takes a node off
it, runs the transfer function and passes the new value on to the successors.

The choice of the node is a parameter, `pick`.  The code takes the node that comes first
in the visit order (`pickFirst`), but the outcome is the same for every choice: on the
nodes that have been reached, the least solution of the flow equations between these
nodes.
-/

namespace Mfp

/-! ## The solver -/

structure Graph (Label : Type) where
  entryNode : Option Label
  nodes : List Label
  successors : Label → List Label

structure MonotoneFrameworkInstance (Label L : Type) where
  isLessOrEqual : L → L → Bool
  combineValues : L → L → L
  applyTransferFunction : Label → L → L

/-- How to seed the worklist. -/
inductive EntryLabelsOptions (Label : Type) where
  | entry
  | all
  | labels (labels : List Label)

structure MFPConfiguration (Label L : Type) where
  inst : MonotoneFrameworkInstance Label L
  flow : Graph Label
  bottom : L
  extremalValue : L
  extremalLabels : List Label
  entryLabels : EntryLabelsOptions Label

structure MFPResult (L : Type) where
  inValue : L
  outValue : L
  deriving DecidableEq

/-- `AnalysisResult`, a `std::map`: a label without an entry has `none`. -/
abbrev ResultMap (Label L : Type) := Label → Option (MFPResult L)

structure SolverState (Label L : Type) where
  analysisResult : ResultMap Label L
  worklist : Finset Label

variable {Label L : Type} [DecidableEq Label]

def MFPConfiguration.resolveEntryLabels (cfg : MFPConfiguration Label L) : List Label :=
  match cfg.entryLabels with
  | .entry => cfg.flow.entryNode.toList
  | .all => cfg.flow.nodes
  | .labels labels => labels

/-- The nodes in the order of their priorities. -/
def MFPConfiguration.order [Fintype Label] (cfg : MFPConfiguration Label L) : List Label :=
  (visitOrder cfg.flow.successors cfg.resolveEntryLabels).2

/-- Assign the initial value of one label.  A new entry has the default final value. -/
def setInValue [Inhabited L] (value : L) (results : ResultMap Label L) (label : Label) :
    ResultMap Label L :=
  Function.update results label (some ⟨value, ((results label).map (·.outValue)).getD default⟩)

/-- The state before the first iteration. -/
def initialState [Fintype Label] [Inhabited L] (cfg : MFPConfiguration Label L) :
    SolverState Label L where
  analysisResult := cfg.order.foldl
    (fun results node => if (results node).isSome then results else setInValue cfg.bottom results node)
    (cfg.extremalLabels.foldl (setInValue cfg.extremalValue) fun _ => none)
  worklist := cfg.order.toFinset

/-- Pass the new value `out` on to a successor.  The queries for its entry and its
priority throw when there is none. -/
def processSuccessor (inst : MonotoneFrameworkInstance Label L) (order : List Label) (out : L)
    (s : SolverState Label L) (successor : Label) : Option (SolverState Label L) :=
  (s.analysisResult successor).bind fun results =>
    if inst.isLessOrEqual out results.inValue then some s
    else if successor ∈ order then
      some
        { analysisResult := Function.update s.analysisResult successor
            (some { results with inValue := inst.combineValues results.inValue out })
          worklist := insert successor s.worklist }
    else none

/-- One iteration of the loop, on the node `start` of the worklist. -/
def iteration (inst : MonotoneFrameworkInstance Label L) (flow : Graph Label) (order : List Label)
    (start : Label) (s : SolverState Label L) : Option (SolverState Label L) :=
  (s.analysisResult start).bind fun labelAnalysis =>
    let new := inst.applyTransferFunction start labelAnalysis.inValue
    (flow.successors start).foldlM (processSuccessor inst order new)
      { analysisResult := Function.update s.analysisResult start
          (some { labelAnalysis with outValue := new })
        worklist := s.worklist.erase start }

/-- The node to take off the worklist, given the number of the iteration. -/
abbrev Pick (Label L : Type) := Nat → SolverState Label L → Option Label

/-- The item of least priority comes first. -/
def pickFirst (order : List Label) : Pick Label L :=
  fun _ s => order.find? (· ∈ s.worklist)

/-- The loop.  It has no result when a query throws or the fuel runs out. -/
def iterate (inst : MonotoneFrameworkInstance Label L) (flow : Graph Label) (order : List Label)
    (pick : Pick Label L) : Nat → Nat → SolverState Label L → Option (ResultMap Label L)
  | 0, _, _ => none
  | fuel + 1, index, s =>
      if s.worklist = ∅ then some s.analysisResult
      else
        (pick index s).bind fun start =>
          (iteration inst flow order start s).bind (iterate inst flow order pick fuel (index + 1))

/-- The solver with another choice of the next node. -/
def getMaximalFixedPointPicking [Fintype Label] [Inhabited L] (pick : Pick Label L) (fuel : Nat)
    (cfg : MFPConfiguration Label L) : Option (ResultMap Label L) :=
  iterate cfg.inst cfg.flow cfg.order pick fuel 0 (initialState cfg)

def getMaximalFixedPoint [Fintype Label] [Inhabited L] (fuel : Nat)
    (cfg : MFPConfiguration Label L) : Option (ResultMap Label L) :=
  getMaximalFixedPointPicking (pickFirst cfg.order) fuel cfg

/-! ## The equations -/

/-- The order and the join of the instance are those of the lattice, and the transfer
functions are monotone. -/
structure MonotoneFrameworkInstance.Lawful [SemilatticeSup L]
    (inst : MonotoneFrameworkInstance Label L) : Prop where
  isLessOrEqual_iff : ∀ a b, inst.isLessOrEqual a b = true ↔ a ≤ b
  combineValues_eq : ∀ a b, inst.combineValues a b = a ⊔ b
  monotone : ∀ n, Monotone (inst.applyTransferFunction n)

/-- A choice takes a node of the worklist, as long as that is within the visit order. -/
def Pick.Valid (order : List Label) (pick : Pick Label L) : Prop :=
  ∀ i s, s.worklist.Nonempty → (∀ n ∈ s.worklist, n ∈ order) → ∃ n ∈ s.worklist, pick i s = some n

def MFPConfiguration.Reached (cfg : MFPConfiguration Label L) (n : Label) : Prop :=
  ∃ e ∈ cfg.resolveEntryLabels, Reaches cfg.flow.successors e n

/-- The value a node starts from. -/
def MFPConfiguration.initialValue (cfg : MFPConfiguration Label L) (n : Label) : L :=
  if n ∈ cfg.extremalLabels then cfg.extremalValue else cfg.bottom

/-- The assignment of initial values solves the equations of the nodes in `nodes`: it is
above the value a node starts from and above the final value of its predecessors. -/
structure MFPConfiguration.Solves [SemilatticeSup L] (cfg : MFPConfiguration Label L)
    (nodes : Label → Prop) (X : Label → L) : Prop where
  initial : ∀ n, nodes n → cfg.initialValue n ≤ X n
  flow : ∀ m n, nodes m → nodes n → n ∈ cfg.flow.successors m →
    cfg.inst.applyTransferFunction m (X m) ≤ X n

/-- `X` is the least solution on the nodes in `nodes`. -/
structure MFPConfiguration.LeastSolution [SemilatticeSup L] (cfg : MFPConfiguration Label L)
    (nodes : Label → Prop) (X : Label → L) : Prop where
  solves : cfg.Solves nodes X
  least : ∀ Y, cfg.Solves nodes Y → ∀ n, nodes n → X n ≤ Y n

theorem pickFirst_valid (order : List Label) : (pickFirst order : Pick Label L).Valid order := by
  intro _ s hne horder
  obtain ⟨n, hn⟩ := hne
  have hsome : (order.find? (· ∈ s.worklist)).isSome :=
    List.find?_isSome.mpr ⟨n, horder n hn, by simpa using hn⟩
  obtain ⟨first, hfirst⟩ := Option.isSome_iff_exists.mp hsome
  exact ⟨first, by simpa using List.find?_some hfirst, hfirst⟩

/-! ## The initial state -/

theorem foldl_setInValue [Inhabited L] (value : L) (labels : List Label) (n : Label)
    (results : ResultMap Label L) (h : ∀ r, results n = some r → r = ⟨value, default⟩) :
    labels.foldl (setInValue value) results n =
      if n ∈ labels then some ⟨value, default⟩ else results n := by
  induction labels generalizing results with
  | nil => simp
  | cons label rest ih =>
    have hstep : setInValue value results label n =
        if n = label then some ⟨value, default⟩ else results n := by
      unfold setInValue
      by_cases hn : n = label
      · subst hn
        cases hr : results n with
        | none => simp
        | some r => simp [h r hr]
      · simp [hn]
    rw [List.foldl_cons, ih, hstep]
    · by_cases hn : n = label <;> simp [hn]
    · intro r hr
      rw [hstep] at hr
      split at hr
      next => exact (Option.some.inj hr).symm
      next => exact h r hr

theorem foldl_setMissing [Inhabited L] (value : L) (nodes : List Label) (n : Label)
    (results : ResultMap Label L) :
    nodes.foldl (fun results node =>
        if (results node).isSome then results else setInValue value results node) results n =
      if (results n).isNone ∧ n ∈ nodes then some ⟨value, default⟩ else results n := by
  induction nodes generalizing results with
  | nil => simp
  | cons node rest ih =>
    rw [List.foldl_cons, ih]
    by_cases hn : n = node
    · subst hn
      cases hr : results n with
      | none => simp [setInValue, hr]
      | some r => simp [hr]
    · have hkeep : (if (results node).isSome then results
          else setInValue value results node) n = results n := by
        split
        next => rfl
        next => simp [setInValue, hn]
      simp [hkeep, hn]

section Initial

variable [Fintype Label] {cfg : MFPConfiguration Label L}

theorem mem_order {n : Label} : n ∈ cfg.order ↔ cfg.Reached n :=
  mem_visitOrder

variable [Inhabited L]

theorem initialState_of_reached {n : Label} (h : cfg.Reached n) :
    (initialState cfg).analysisResult n = some ⟨cfg.initialValue n, default⟩ := by
  simp only [initialState, foldl_setMissing, mem_order, h, and_true,
    foldl_setInValue cfg.extremalValue cfg.extremalLabels n (fun _ => none) (by simp),
    MFPConfiguration.initialValue]
  by_cases hn : n ∈ cfg.extremalLabels <;> simp [hn]

theorem initialState_of_not_reached {n : Label} (h : ¬ cfg.Reached n) :
    (initialState cfg).analysisResult n =
      if n ∈ cfg.extremalLabels then some ⟨cfg.extremalValue, default⟩ else none := by
  simp only [initialState, foldl_setMissing, mem_order, h, and_false, if_false,
    foldl_setInValue cfg.extremalValue cfg.extremalLabels n (fun _ => none) (by simp)]

end Initial

/-! ## One iteration -/

section Iteration

variable [SemilatticeSup L] {inst : MonotoneFrameworkInstance Label L} {order : List Label}
  {out : L} {s t u : SolverState Label L}

/-- The value `out` has been passed on to the labels `xs`. -/
structure Processed (out : L) (xs : List Label) (s t : SolverState Label L) : Prop where
  present : ∀ m ∈ xs, (s.analysisResult m).isSome
  entry : ∀ m r, s.analysisResult m = some r →
    t.analysisResult m = some { r with inValue := if m ∈ xs then r.inValue ⊔ out else r.inValue }
  frame : ∀ m, m ∉ xs → t.analysisResult m = s.analysisResult m
  worklist : ∀ m, m ∈ t.worklist ↔ m ∈ s.worklist ∨
    (m ∈ xs ∧ ∃ r, s.analysisResult m = some r ∧ ¬ out ≤ r.inValue)

theorem Processed.refl (out : L) (s : SolverState Label L) : Processed out [] s s where
  present := by simp
  entry m r h := by simp [h]
  frame m _ := rfl
  worklist m := by simp

theorem Processed.isSome {xs : List Label} (h : Processed out xs s t) {m : Label}
    (hm : (s.analysisResult m).isSome) : (t.analysisResult m).isSome := by
  obtain ⟨r, hr⟩ := Option.isSome_iff_exists.mp hm
  simp [h.entry m r hr]

theorem processSuccessor_spec (h : inst.Lawful) {successor : Label}
    (hs : (s.analysisResult successor).isSome) (horder : successor ∈ order) :
    ∃ t, processSuccessor inst order out s successor = some t ∧
      Processed out [successor] s t := by
  obtain ⟨r, hr⟩ := Option.isSome_iff_exists.mp hs
  unfold processSuccessor
  simp only [hr, Option.bind_some, horder, if_true, h.combineValues_eq]
  have hpresent : ∀ m ∈ [successor], (s.analysisResult m).isSome := by simpa using hs
  by_cases hle : out ≤ r.inValue
  · rw [if_pos ((h.isLessOrEqual_iff _ _).mpr hle)]
    refine ⟨s, rfl, hpresent, fun m r' hm => ?_, fun _ _ => rfl, fun m => ?_⟩
    · by_cases hms : m = successor
      · subst hms
        have : r' = r := Option.some.inj (hm.symm.trans hr)
        simp [hm, this, hle]
      · simp [hm, hms]
    · refine ⟨Or.inl, fun hm => hm.resolve_right ?_⟩
      rintro ⟨hms, r', hr', hnot⟩
      rw [List.mem_singleton.mp hms, hr] at hr'
      exact hnot (Option.some.inj hr' ▸ hle)
  · rw [if_neg ((h.isLessOrEqual_iff _ _).not.mpr hle)]
    refine ⟨_, rfl, hpresent, fun m r' hm => ?_, fun m hm => ?_, fun m => ?_⟩
    · by_cases hms : m = successor
      · subst hms
        have : r' = r := Option.some.inj (hm.symm.trans hr)
        simp [this]
      · simp [hm, hms]
    · simp [List.mem_singleton.not.mp hm]
    · by_cases hms : m = successor
      · subst hms
        simp [hr, hle]
      · simp [hms]

theorem Processed.cons {x : Label} {xs : List Label} (h₁ : Processed out [x] s t)
    (h₂ : Processed out xs t u) : Processed out (x :: xs) s u where
  present m hm := by
    by_cases hx : m = x
    · exact h₁.present m (by simp [hx])
    · have hxs := h₂.present m ((List.mem_cons.mp hm).resolve_left hx)
      rwa [h₁.frame m (by simp [hx])] at hxs
  entry m r hm := by
    rw [h₂.entry m _ (h₁.entry m r hm)]
    by_cases hx : m = x <;> by_cases hxs : m ∈ xs <;> simp [hx, hxs]
  frame m hm := by
    rw [List.mem_cons, not_or] at hm
    rw [h₂.frame m hm.2, h₁.frame m (by simp [hm.1])]
  worklist m := by
    rw [h₂.worklist, h₁.worklist]
    by_cases hx : m = x
    · -- after the first visit the value of `x` is above `out`, so a second one is idle
      obtain ⟨r, hr⟩ := Option.isSome_iff_exists.mp (h₁.present m (by simp [hx]))
      have ht := h₁.entry m r hr
      simp [hx] at ht hr
      simp [hx, hr, ht]
    · have hsame := h₁.frame m (by simp [hx])
      simp [hx, hsame]

theorem foldlM_processSuccessor (h : inst.Lawful) (xs : List Label) :
    ∀ s : SolverState Label L, (∀ x ∈ xs, (s.analysisResult x).isSome ∧ x ∈ order) →
      ∃ t, xs.foldlM (processSuccessor inst order out) s = some t ∧ Processed out xs s t := by
  induction xs with
  | nil => exact fun s _ => ⟨s, rfl, .refl out s⟩
  | cons x rest ih =>
    intro s hs
    obtain ⟨s', hone, hp⟩ := processSuccessor_spec h (hs x (by simp)).1 (hs x (by simp)).2
    obtain ⟨t, hrest, hp'⟩ := ih s' fun y hy =>
      ⟨hp.isSome (hs y (by simp [hy])).1, (hs y (by simp [hy])).2⟩
    refine ⟨t, ?_, hp.cons hp'⟩
    rw [List.foldlM_cons, hone]
    exact hrest

/-- What an iteration on `start`, whose new final value is `out`, does to the state. -/
structure Iterated (flow : Graph Label) (start : Label) (out : L) (s t : SolverState Label L) :
    Prop where
  entry : ∀ m r, s.analysisResult m = some r → t.analysisResult m =
    some ⟨if m ∈ flow.successors start then r.inValue ⊔ out else r.inValue,
      if m = start then out else r.outValue⟩
  frame : ∀ m, m ≠ start → m ∉ flow.successors start → t.analysisResult m = s.analysisResult m
  worklist : ∀ m, m ∈ t.worklist ↔ (m ∈ s.worklist ∧ m ≠ start) ∨
    (m ∈ flow.successors start ∧ ∃ r, s.analysisResult m = some r ∧ ¬ out ≤ r.inValue)

theorem iteration_spec (h : inst.Lawful) {flow : Graph Label} {start : Label} {r : MFPResult L}
    (hr : s.analysisResult start = some r)
    (hsucc : ∀ x ∈ flow.successors start, (s.analysisResult x).isSome ∧ x ∈ order) :
    ∃ t, iteration inst flow order start s = some t ∧
      Iterated flow start (inst.applyTransferFunction start r.inValue) s t := by
  unfold iteration
  simp only [hr, Option.bind_some]
  generalize inst.applyTransferFunction start r.inValue = out
  have hentry : ∀ m r', s.analysisResult m = some r' →
      Function.update s.analysisResult start (some { r with outValue := out }) m =
        some { r' with outValue := if m = start then out else r'.outValue } := by
    intro m r' hm
    by_cases hms : m = start
    · subst hms
      have : r' = r := Option.some.inj (hm.symm.trans hr)
      simp [this]
    · simp [hms, hm]
  have hpresent : ∀ x ∈ flow.successors start,
      (Function.update s.analysisResult start (some { r with outValue := out }) x).isSome ∧
        x ∈ order := by
    intro x hx
    obtain ⟨r', hr'⟩ := Option.isSome_iff_exists.mp (hsucc x hx).1
    exact ⟨by rw [hentry x r' hr']; rfl, (hsucc x hx).2⟩
  obtain ⟨t, hfold, hp⟩ := foldlM_processSuccessor h (flow.successors start)
    { analysisResult := Function.update s.analysisResult start (some { r with outValue := out })
      worklist := s.worklist.erase start } hpresent
  refine ⟨t, hfold, fun m r' hm => ?_, fun m hms hm => ?_, fun m => ?_⟩
  · rw [hp.entry m _ (hentry m r' hm)]
  · rw [hp.frame m hm]
    exact Function.update_of_ne hms _ _
  · rw [hp.worklist, Finset.mem_erase, and_comm]
    refine or_congr Iff.rfl (and_congr_right fun hm => ?_)
    obtain ⟨r', hr'⟩ := Option.isSome_iff_exists.mp (hsucc m hm).1
    simp [hentry m r' hr', hr']

end Iteration

/-! ## The loop refines the abstract worklist -/

section Loop

variable [SemilatticeSup L]

/-- The flow problem on the nodes that have been reached. -/
def MFPConfiguration.problem (cfg : MFPConfiguration Label L) (h : cfg.inst.Lawful) :
    Worklist.Problem Label L where
  edge m n := n ∈ cfg.flow.successors m
  domain := cfg.Reached
  closed := by
    rintro m n ⟨e, he, hr⟩ hmn
    exact ⟨e, he, hr.tail hmn⟩
  transfer := cfg.inst.applyTransferFunction
  mono := h.monotone
  init := cfg.initialValue

theorem isSolution_iff {cfg : MFPConfiguration Label L} {h : cfg.inst.Lawful} {X : Label → L} :
    (cfg.problem h).IsSolution X ↔ cfg.Solves cfg.Reached X := by
  constructor
  · exact fun hX => ⟨hX.init, fun m n hm _ hmn => hX.edge m n hm hmn⟩
  · exact fun hX => ⟨hX.initial, fun m n hm hmn =>
      hX.flow m n hm ((cfg.problem h).closed hm hmn) hmn⟩

variable [Inhabited L]

def SolverState.inValue (s : SolverState Label L) (n : Label) : L :=
  ((s.analysisResult n).map (·.inValue)).getD default

def SolverState.outValue (s : SolverState Label L) (n : Label) : L :=
  ((s.analysisResult n).map (·.outValue)).getD default

/-- The state as the abstract algorithm sees it. -/
def SolverState.toWorklist (s : SolverState Label L) : Worklist.State Label L where
  inVal := s.inValue
  outVal := s.outValue
  pending n := n ∈ s.worklist

theorem Iterated.values {flow : Graph Label} {start : Label} {out : L} {s t : SolverState Label L}
    (h : Iterated flow start out s t) (hstart : (s.analysisResult start).isSome)
    (hsucc : ∀ x ∈ flow.successors start, (s.analysisResult x).isSome) (m : Label) :
    t.inValue m = (if m ∈ flow.successors start then s.inValue m ⊔ out else s.inValue m) ∧
      t.outValue m = if m = start then out else s.outValue m := by
  unfold SolverState.inValue SolverState.outValue
  cases hm : s.analysisResult m with
  | some r => simp [h.entry m r hm]
  | none =>
    have hms : m ≠ start := fun heq => by simp [← heq, hm] at hstart
    have hmx : m ∉ flow.successors start := fun hx => by simpa [hm] using hsucc m hx
    simp [h.frame m hms hmx, hm, hms, hmx]

variable [Fintype Label] {cfg : MFPConfiguration Label L} {s t : SolverState Label L}

/-- The loop invariant: every node that has been reached has an entry, the entries of the
others are the initial ones, and the abstract invariant holds. -/
structure Tracks (cfg : MFPConfiguration Label L) (h : cfg.inst.Lawful)
    (s : SolverState Label L) : Prop where
  entries : ∀ n, cfg.Reached n → (s.analysisResult n).isSome
  frame : ∀ n, ¬ cfg.Reached n → s.analysisResult n = (initialState cfg).analysisResult n
  invariant : Worklist.Invariant (cfg.problem h) s.toWorklist

theorem tracks_initialState (h : cfg.inst.Lawful) : Tracks cfg h (initialState cfg) where
  entries n hn := by simp [initialState_of_reached hn]
  frame _ _ := rfl
  invariant := by
    refine Worklist.Invariant.start (fun n hn => ?_) fun n => ?_
    · have hn' : cfg.Reached n := hn
      simp [SolverState.toWorklist, SolverState.inValue, initialState_of_reached hn',
        MFPConfiguration.problem]
    · simp [SolverState.toWorklist, initialState, mem_order, MFPConfiguration.problem]

/-- An iteration does not throw, and it is a step of the abstract algorithm. -/
theorem Tracks.iteration {h : cfg.inst.Lawful} (hs : Tracks cfg h s) {start : Label}
    (hstart : start ∈ s.worklist) :
    ∃ t, Mfp.iteration cfg.inst cfg.flow cfg.order start s = some t ∧ Tracks cfg h t ∧
      Worklist.Step (cfg.problem h) start s.toWorklist t.toWorklist := by
  have hreach : cfg.Reached start := hs.invariant.pending start hstart
  have hsucc : ∀ x ∈ cfg.flow.successors start, cfg.Reached x := fun x hx =>
    (cfg.problem h).closed hreach hx
  have hvalue : ∀ m, cfg.Reached m → ∃ r, s.analysisResult m = some r := fun m hm =>
    Option.isSome_iff_exists.mp (hs.entries m hm)
  obtain ⟨r, hr⟩ := hvalue start hreach
  obtain ⟨t, ht, hit⟩ := iteration_spec h hr fun x hx =>
    ⟨hs.entries x (hsucc x hx), mem_order.mpr (hsucc x hx)⟩
  have hin : s.inValue start = r.inValue := by simp [SolverState.inValue, hr]
  rw [← hin] at hit
  have hstep : Worklist.Step (cfg.problem h) start s.toWorklist t.toWorklist := by
    have hval := hit.values (hs.entries start hreach) fun x hx => hs.entries x (hsucc x hx)
    refine ⟨hstart, ?_, fun m hm => ?_, fun m hm => ?_, fun m hm => ?_, fun m => ?_⟩
    · exact (hval start).2.trans (if_pos rfl)
    · exact (hval m).2.trans (if_neg hm)
    · exact (hval m).1.trans (if_pos hm)
    · exact (hval m).1.trans (if_neg hm)
    · refine (hit.worklist m).trans (or_congr Iff.rfl (and_congr_right fun hm => ?_))
      obtain ⟨r', hr'⟩ := hvalue m (hsucc m hm)
      simp [SolverState.toWorklist, SolverState.inValue, hr', MFPConfiguration.problem]
  refine ⟨t, ht, ⟨fun m hm => ?_, fun m hm => ?_, hstep.invariant hs.invariant⟩, hstep⟩
  · obtain ⟨r', hr'⟩ := hvalue m hm
    simp [hit.entry m r' hr']
  · rw [hit.frame m (fun heq => hm (heq ▸ hreach)) fun hx => hm (hsucc m hx), hs.frame m hm]

/-- From every state of the loop, and whatever nodes are picked, the loop ends. -/
theorem Tracks.iterate [WellFoundedGT L] {h : cfg.inst.Lawful} {pick : Pick Label L}
    (hpick : pick.Valid cfg.order) (s : SolverState Label L) :
    ∀ index, Tracks cfg h s → ∃ fuel t, Tracks cfg h t ∧ t.worklist = ∅ ∧ ∀ m ≥ fuel,
      Mfp.iterate cfg.inst cfg.flow cfg.order pick m index s = some t.analysisResult := by
  have hwf := InvImage.wf SolverState.toWorklist (Worklist.wellFounded_step (cfg.problem h))
  induction s using hwf.induction with
  | h s ih =>
    intro index hs
    by_cases hempty : s.worklist = ∅
    · refine ⟨1, s, hs, hempty, fun m hm => ?_⟩
      obtain ⟨m, rfl⟩ := Nat.exists_eq_add_of_le' hm
      simp [Mfp.iterate, hempty]
    · have horder : ∀ n ∈ s.worklist, n ∈ cfg.order := fun n hn =>
        mem_order.mpr (hs.invariant.pending n hn)
      obtain ⟨start, hstart, hpicked⟩ :=
        hpick index s (Finset.nonempty_iff_ne_empty.mpr hempty) horder
      obtain ⟨s', hiter, hs', hstep⟩ := hs.iteration hstart
      obtain ⟨fuel, t, ht, htempty, hrun⟩ := ih s' ⟨start, hstep⟩ (index + 1) hs'
      refine ⟨fuel + 1, t, ht, htempty, fun m hm => ?_⟩
      obtain ⟨m, rfl⟩ := Nat.exists_eq_add_of_le' (Nat.le_of_add_left_le hm)
      simp only [Mfp.iterate, hempty, if_false, hpicked, Option.bind_some, hiter]
      exact hrun m (by omega)

/-! ## The result -/

/-- When the worklist is empty the result holds the least solution. -/
theorem Tracks.leastSolution {h : cfg.inst.Lawful} (ht : Tracks cfg h t)
    (hempty : t.worklist = ∅) : cfg.LeastSolution cfg.Reached t.inValue where
  solves := isSolution_iff.mp (ht.invariant.isSolution fun n hn => by
    simp [SolverState.toWorklist, hempty] at hn)
  least Y hY := ht.invariant.below Y (isSolution_iff.mpr hY)

theorem Tracks.result_eq {h : cfg.inst.Lawful} (ht : Tracks cfg h t) (hempty : t.worklist = ∅)
    {n : Label} (hn : cfg.Reached n) :
    t.analysisResult n =
      some ⟨t.inValue n, cfg.inst.applyTransferFunction n (t.inValue n)⟩ := by
  obtain ⟨r, hr⟩ := Option.isSome_iff_exists.mp (ht.entries n hn)
  have hout : t.outValue n = cfg.inst.applyTransferFunction n (t.inValue n) :=
    (ht.invariant.settled n hn fun hp => by
      simp [SolverState.toWorklist, hempty] at hp).1
  rw [← hout]
  simp [SolverState.inValue, SolverState.outValue, hr]

/-- The states in which the loop ends have one result. -/
theorem Tracks.result_unique {h : cfg.inst.Lawful} (hs : Tracks cfg h s) (ht : Tracks cfg h t)
    (hsempty : s.worklist = ∅) (htempty : t.worklist = ∅) :
    s.analysisResult = t.analysisResult := by
  funext n
  by_cases hn : cfg.Reached n
  · have hle := hs.leastSolution hsempty
    have hle' := ht.leastSolution htempty
    have heq : s.inValue n = t.inValue n :=
      le_antisymm (hle.least _ hle'.solves n hn) (hle'.least _ hle.solves n hn)
    rw [hs.result_eq hsempty hn, ht.result_eq htempty hn, heq]
  · rw [hs.frame n hn, ht.frame n hn]

/-- The solver terminates, whatever nodes are picked, and always with the same result: the
nodes that an entry label reaches have the least solution of the equations between them,
and an extremal label that is not reached is left as it was initialised. -/
theorem getMaximalFixedPoint_leastSolution [WellFoundedGT L] (cfg : MFPConfiguration Label L)
    (h : cfg.inst.Lawful) :
    ∃ result : ResultMap Label L,
      (∃ fuel, ∀ m ≥ fuel, getMaximalFixedPoint m cfg = some result) ∧
      (∀ pick : Pick Label L, pick.Valid cfg.order →
        ∃ fuel, ∀ m ≥ fuel, getMaximalFixedPointPicking pick m cfg = some result) ∧
      (∃ X, cfg.LeastSolution cfg.Reached X ∧ ∀ n, cfg.Reached n →
        result n = some ⟨X n, cfg.inst.applyTransferFunction n (X n)⟩) ∧
      ∀ n, ¬ cfg.Reached n → result n =
        if n ∈ cfg.extremalLabels then some ⟨cfg.extremalValue, default⟩ else none := by
  have hinit := tracks_initialState h
  obtain ⟨fuel, t, ht, htempty, hrun⟩ :=
    Tracks.iterate (pickFirst_valid cfg.order) (initialState cfg) 0 hinit
  refine ⟨t.analysisResult, ⟨fuel, hrun⟩, fun pick hpick => ?_,
    ⟨t.inValue, ht.leastSolution htempty, fun n hn => ht.result_eq htempty hn⟩, fun n hn => ?_⟩
  · obtain ⟨fuel', t', ht', htempty', hrun'⟩ :=
      Tracks.iterate hpick (initialState cfg) 0 hinit
    rw [ht.result_unique ht' htempty htempty']
    exact ⟨fuel', hrun'⟩
  · rw [ht.frame n hn, initialState_of_not_reached hn]

end Loop

/-- The framework of one bit: what is true at a node is true at its successors. -/
def bitFramework : MonotoneFrameworkInstance (Fin 2) Bool where
  isLessOrEqual a b := decide (a ≤ b)
  combineValues a b := a || b
  applyTransferFunction _ x := x

theorem bitFramework_lawful : bitFramework.Lawful where
  isLessOrEqual_iff a b := by simp [bitFramework]
  combineValues_eq a b := rfl
  monotone n := monotone_id

/-- Two nodes in a loop.  The entry node is extremal. -/
def loopConfiguration : MFPConfiguration (Fin 2) Bool where
  inst := bitFramework
  flow := ⟨some 0, [0, 1], fun n => [n + 1]⟩
  bottom := false
  extremalValue := true
  extremalLabels := [0]
  entryLabels := .entry

theorem getMaximalFixedPoint_leastSolution_loop :
    ∃ result, (∃ fuel, ∀ m ≥ fuel, getMaximalFixedPoint m loopConfiguration = some result) ∧
      ∃ X, loopConfiguration.LeastSolution loopConfiguration.Reached X ∧
        ∀ n, loopConfiguration.Reached n → result n = some ⟨X n, X n⟩ := by
  obtain ⟨result, hrun, -, hleast, -⟩ :=
    getMaximalFixedPoint_leastSolution loopConfiguration bitFramework_lawful
  exact ⟨result, hrun, hleast⟩

/-- The extremal label `0` has an edge to the entry label `1`, which does not reach it. -/
def unreachedConfiguration : MFPConfiguration (Fin 2) Bool where
  inst := bitFramework
  flow := ⟨some 1, [0, 1], fun n => if n = 0 then [1] else []⟩
  bottom := false
  extremalValue := true
  extremalLabels := [0]
  entryLabels := .entry

/-- The equations do not hold between all nodes of the result: the extremal label has an
entry, and its final value has never been computed. -/
theorem not_getMaximalFixedPoint_solves_all :
    unreachedConfiguration.inst.Lawful ∧ ∃ result,
      (∃ fuel, ∀ m ≥ fuel, getMaximalFixedPoint m unreachedConfiguration = some result) ∧
      ¬ ∃ X, unreachedConfiguration.LeastSolution (fun n => (result n).isSome) X ∧
        ∀ n, (result n).isSome → result n =
          some ⟨X n, unreachedConfiguration.inst.applyTransferFunction n (X n)⟩ := by
  refine ⟨bitFramework_lawful,
    (getMaximalFixedPoint 2 unreachedConfiguration).getD (fun _ => none), ⟨2, fun m hm => ?_⟩, ?_⟩
  · obtain ⟨m, rfl⟩ := Nat.exists_eq_add_of_le' hm
    rfl
  · rintro ⟨X, -, hX⟩
    have hresult : (getMaximalFixedPoint 2 unreachedConfiguration).getD (fun _ => none) 0 =
        some ⟨true, false⟩ := by decide
    have heq := hX 0 (by rw [hresult]; rfl)
    rw [hresult] at heq
    simp only [Option.some.injEq, MFPResult.mk.injEq, unreachedConfiguration, bitFramework] at heq
    exact absurd (heq.1.trans heq.2.symm) (by decide)

end Mfp
