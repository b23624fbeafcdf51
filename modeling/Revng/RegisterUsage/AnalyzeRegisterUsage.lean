import Revng.Lib.PartialLoops
import Revng.RegisterUsage.Liveness
import Revng.RegisterUsage.ReachingDefinitions

/-!
# The registers of arguments and return values

`analyzeRegisterUsage` runs the two analyses over a function.  Their fixed points are statements
about the sequences of operations that the paths of the graph perform, and so are the registers
that it takes for arguments and return values (`analyzeRegisterUsage_spec`).
-/

namespace RegisterUsage

open FlowPaths

variable {Node C : Type} [DecidableEq Node]

/-- A call site has a key, the program counter and the callee, and a block. -/
structure FunctionToAnalyze (Node C : Type) [DecidableEq Node] where
  function : Function Node
  entryNode : Node
  returnNode : Node
  sinkNode : Node
  callSites : List (C × Node)
  valid : function.Valid
  known : ∀ n, n = entryNode ∨ n = returnNode ∨ n = sinkNode ∨ n ∈ callSites.map Prod.snd →
    n ∈ function.nodes

structure UsedRegisters where
  argumentsRegisters : Finset Register
  returnValuesRegisters : Finset Register

structure RUAResults (C : Type) extends UsedRegisters where
  callSites : List (C × UsedRegisters)

def FunctionToAnalyze.liveness (f : FunctionToAnalyze Node C) :
    Mfp.MFPConfiguration Node (Finset Register) where
  inst := Liveness.inst f.function
  flow := ⟨some f.entryNode, f.function.nodes, f.function.predecessors⟩
  bottom := ∅
  extremalValue := ∅
  extremalLabels := [f.returnNode]
  entryLabels := .all

def FunctionToAnalyze.reachingDefinitions (f : FunctionToAnalyze Node C) :
    Mfp.MFPConfiguration Node WritersSet where
  inst := ReachingDefinitions.inst f.function
  flow := ⟨some f.entryNode, f.function.nodes, f.function.successors⟩
  bottom := fun _ => (∅, ∅)
  extremalValue := fun _ => (∅, ∅)
  extremalLabels := [f.entryNode]
  entryLabels := .all

def analyzeCallSite (live : Mfp.ResultMap Node (Finset Register))
    (reaching : Mfp.ResultMap Node WritersSet) (sink : WritersSet) (callSite : C × Node) :
    Option (C × UsedRegisters) := do
  let after ← live callSite.2
  let before ← reaching callSite.2
  some (callSite.1, ⟨ReachingDefinitions.compute before.inValue sink, after.inValue⟩)

/-- `fuel` bounds the iterations of the two solvers.  No register has the index 254 or 255, which a
`DenseMap` keeps for itself, and with more than 256 registers their indices would wrap around. -/
def analyzeRegisterUsage [Fintype Node] (fuel : Nat) (f : FunctionToAnalyze Node C) :
    Option (RUAResults C) := do
  let live ← Mfp.getMaximalFixedPoint fuel f.liveness
  let reaching ← Mfp.getMaximalFixedPoint fuel f.reachingDefinitions
  let sink ← reaching f.sinkNode
  let callSites ← f.callSites.mapM (analyzeCallSite live reaching sink.outValue)
  let entry ← live f.entryNode
  let exit ← reaching f.returnNode
  some ⟨⟨entry.outValue, ReachingDefinitions.compute exit.outValue sink.outValue⟩, callSites⟩

section FixedPoint

variable {L F : Type} [SemilatticeSup L] [OrderBot L] [Inhabited L] [WellFoundedGT L]
  [Fintype Node] {Holds : L → F → Prop}

/-- What holds around a node in the result is what comes along a path to it. -/
theorem exists_result (cfg : Mfp.MFPConfiguration Node L) (h : cfg.inst.Lawful) (hF : Facts Holds)
    (hT : ∀ n, Distributive Holds (cfg.inst.applyTransferFunction n))
    (hinit : ∀ n, cfg.initialValue n = ⊥) (hall : cfg.entryLabels = .all)
    (hknown : ∀ m n, n ∈ cfg.flow.successors m → m ∈ cfg.flow.nodes) :
    ∃ result, (∃ fuel, ∀ m ≥ fuel, Mfp.getMaximalFixedPoint m cfg = some result) ∧
      ∀ n ∈ cfg.flow.nodes, ∃ r, result n = some r ∧ ∀ y,
        (Holds r.inValue y ↔ ∃ path, IsPath (fun m n => n ∈ cfg.flow.successors m) n path ∧
          Holds (path.foldr cfg.inst.applyTransferFunction ⊥) y) ∧
        (Holds r.outValue y ↔ ∃ path, IsPath (fun m n => n ∈ cfg.flow.successors m) n path ∧
          Holds ((n :: path).foldr cfg.inst.applyTransferFunction ⊥) y) := by
  obtain ⟨fuel, t, ht, hempty, hrun⟩ := Mfp.Tracks.iterate (Mfp.pickFirst_valid cfg.order)
    (Mfp.initialState cfg) 0 (Mfp.tracks_initialState h)
  have hreached : ∀ n ∈ cfg.flow.nodes, cfg.Reached n := fun n hn =>
    ⟨n, by rwa [Mfp.MFPConfiguration.resolveEntryLabels, hall], .refl⟩
  have hleast := ht.leastSolution hempty
  refine ⟨t.analysisResult, ⟨fuel, hrun⟩, fun n hn =>
    ⟨_, ht.result_eq hempty (hreached n hn), fun y => ?_⟩⟩
  have hin : ∀ y, Holds (t.inValue n) y ↔ _ := fun y =>
    holds_least_iff (P := cfg.problem h) hF hT hinit (fun m n hmn => hreached m (hknown m n hmn))
      (Mfp.isSolution_iff.mpr hleast.solves)
      (fun Y hY => hleast.least Y (Mfp.isSolution_iff.mp hY)) (hreached n hn)
  refine ⟨hin y, ?_⟩
  obtain ⟨gen, move, hmove⟩ := hT n
  simp only [hmove, hin, List.foldr_cons]
  constructor
  · rintro (hgen | ⟨x, ⟨path, hpath, hx⟩, hxy⟩)
    · exact ⟨[], .singleton n, .inl hgen⟩
    · exact ⟨path, hpath, .inr ⟨x, hx, hxy⟩⟩
  · rintro ⟨path, hpath, hgen | ⟨x, hx, hxy⟩⟩
    · exact .inl hgen
    · exact .inr ⟨x, ⟨path, hpath, hx⟩, hxy⟩

end FixedPoint

/-- The result of the liveness analysis. -/
theorem exists_liveness [Fintype Node] (f : FunctionToAnalyze Node C) :
    ∃ live, (∃ fuel, ∀ m ≥ fuel, Mfp.getMaximalFixedPoint m f.liveness = some live) ∧
      ∀ n ∈ f.function.nodes, ∃ r, live n = some r ∧ ∀ x,
        (x ∈ r.inValue ↔ f.function.LiveAfter n x) ∧
        (x ∈ r.outValue ↔ f.function.LiveBefore n x) := by
  have hv := f.valid
  obtain ⟨live, hrun, hlive⟩ := exists_result f.liveness (Liveness.lawful f.function)
    Liveness.facts (Liveness.distributive f.function) (fun n => ite_self _) rfl
    fun m n hmn => (hv.known n m (hv.mirrored.mem_predecessors.mp hmn)).2
  refine ⟨live, hrun, fun n hn => (hlive n hn).imp fun r hr => ⟨hr.1, fun x => ?_⟩⟩
  simpa only [IsPath, FunctionToAnalyze.liveness, Liveness.mem_foldr_transfer,
    hv.mirrored.mem_predecessors, Function.LiveAfter, Function.LiveBefore] using hr.2 x

open ReachingDefinitions in
/-- The result of the reaching definitions. -/
theorem exists_reachingDefinitions [Fintype Node] (f : FunctionToAnalyze Node C) :
    ∃ reaching,
      (∃ fuel, ∀ m ≥ fuel, Mfp.getMaximalFixedPoint m f.reachingDefinitions = some reaching) ∧
      ∀ n ∈ f.function.nodes, ∃ r, reaching n = some r ∧ ∀ x i,
        (i ∈ (r.inValue x).1 ↔ ∃ past, f.function.Before n past ∧
          ∃ s, aliveWrite x past = some s ∧ writeToIndex f.function s = i) ∧
        (i ∈ (r.outValue x).1 ↔ ∃ past, f.function.After n past ∧
          ∃ s, aliveWrite x past = some s ∧ writeToIndex f.function s = i) ∧
        (i ∈ (r.outValue x).2 ↔ ∃ past, f.function.After n past ∧
          ∃ s, IsRead s past ∧ s.target = x ∧ writeToIndex f.function s = i) := by
  obtain ⟨reaching, hrun, hreaching⟩ := exists_result f.reachingDefinitions (lawful f.function)
    facts (distributive f.function) (fun n => ite_self _) rfl
    fun m n hmn => (f.valid.known m n hmn).1
  refine ⟨reaching, hrun, fun n hn => (hreaching n hn).imp fun r hr => ⟨hr.1, fun x i => ?_⟩⟩
  have hreach := hr.2 (false, x, i)
  have hread := (hr.2 (true, x, i)).2
  simp only [FunctionToAnalyze.reachingDefinitions, foldr_transfer, Holds, mem_foldr_step]
    at hreach hread
  simp only [Function.Before, Function.After, exists_exists_and_eq_and]
  exact ⟨hreach.1, hreach.2, hread⟩

/-- A write of the register is alive at the point, and no way to the sink reads a write of
its index. -/
def FunctionToAnalyze.Unread (f : FunctionToAnalyze Node C) (point : List (Site Node) → Prop)
    (x : Register) : Prop :=
  ∃ past s, point past ∧ aliveWrite x past = some s ∧
    ∀ past' s', f.function.After f.sinkNode past' → IsRead s' past' → s'.target = x →
      ReachingDefinitions.writeToIndex f.function s' ≠
        ReachingDefinitions.writeToIndex f.function s

open ReachingDefinitions in
/-- What is computed at a point. -/
theorem mem_compute_iff {f : FunctionToAnalyze Node C} {point : List (Site Node) → Prop}
    {w sink : WritersSet}
    (hw : ∀ x i, i ∈ (w x).1 ↔ ∃ past, point past ∧
      ∃ s, aliveWrite x past = some s ∧ writeToIndex f.function s = i)
    (hsink : ∀ x i, i ∈ (sink x).2 ↔ ∃ past, f.function.After f.sinkNode past ∧
      ∃ s, IsRead s past ∧ s.target = x ∧ writeToIndex f.function s = i) (x : Register) :
    x ∈ compute w sink ↔ f.Unread point x := by
  rw [mem_compute]
  constructor
  · rintro ⟨i, hi, hunread⟩
    obtain ⟨past, hpast, s, hs, rfl⟩ := (hw x _).mp hi
    exact ⟨past, s, hpast, hs, fun past' s' hpast' hread hx heq =>
      hunread ((hsink x _).mpr ⟨past', hpast', s', hread, hx, heq⟩)⟩
  · rintro ⟨past, s, hpast, hs, hunread⟩
    refine ⟨_, (hw x _).mpr ⟨past, hpast, s, hs, rfl⟩, fun hi => ?_⟩
    obtain ⟨past', hpast', s', hread, hx, heq⟩ := (hsink x _).mp hi
    exact hunread past' s' hpast' hread hx heq

/-- The registers of the result are what the paths make them. -/
structure IsResult (f : FunctionToAnalyze Node C) (r : RUAResults C) : Prop where
  arguments : ∀ x, x ∈ r.argumentsRegisters ↔ f.function.LiveBefore f.entryNode x
  returnValues : ∀ x, x ∈ r.returnValuesRegisters ↔ f.Unread (f.function.After f.returnNode) x
  callSites : f.callSites.Forall₂ (fun c s => s.1 = c.1 ∧
    (∀ x, x ∈ s.2.argumentsRegisters ↔ f.Unread (f.function.Before c.2) x) ∧
    ∀ x, x ∈ s.2.returnValuesRegisters ↔ f.function.LiveAfter c.2 x) r.callSites

theorem exists_isResult [Fintype Node] (f : FunctionToAnalyze Node C) :
    ∃ r, (∃ fuel, ∀ m ≥ fuel, analyzeRegisterUsage m f = some r) ∧ IsResult f r := by
  obtain ⟨live, ⟨fuel, hrun⟩, hlive⟩ := exists_liveness f
  obtain ⟨reaching, ⟨fuel', hrun'⟩, hreaching⟩ := exists_reachingDefinitions f
  obtain ⟨entry, hentry, hbefore⟩ := hlive f.entryNode (f.known _ (.inl rfl))
  obtain ⟨exit, hexit, hafter⟩ := hreaching f.returnNode (f.known _ (.inr (.inl rfl)))
  obtain ⟨sink, hsink, hread⟩ := hreaching f.sinkNode (f.known _ (.inr (.inr (.inl rfl))))
  have hunread := fun x i => (hread x i).2.2
  have hsite : ∀ c ∈ f.callSites, ∃ s, analyzeCallSite live reaching sink.outValue c = some s ∧
      s.1 = c.1 ∧ (∀ x, x ∈ s.2.argumentsRegisters ↔ f.Unread (f.function.Before c.2) x) ∧
        ∀ x, x ∈ s.2.returnValuesRegisters ↔ f.function.LiveAfter c.2 x := by
    intro c hc
    have hc := f.known c.2 (.inr (.inr (.inr (List.mem_map_of_mem hc))))
    obtain ⟨after, hafter, halive⟩ := hlive c.2 hc
    obtain ⟨before, hbefore, hwritten⟩ := hreaching c.2 hc
    exact ⟨_, by rw [analyzeCallSite, hafter, hbefore]; rfl, rfl,
      mem_compute_iff (fun x i => (hwritten x i).1) hunread, fun x => (halive x).1⟩
  obtain ⟨callSites, hmap, hsites⟩ := PartialLoops.exists_mapM_forall₂ hsite
  refine ⟨⟨⟨entry.outValue, _⟩, callSites⟩, ⟨max fuel fuel', fun m hm => ?_⟩,
    ⟨fun x => (hbefore x).2, mem_compute_iff (fun x i => (hafter x i).2.1) hunread, hsites⟩⟩
  rw [analyzeRegisterUsage, hrun m (le_of_max_le_left hm), hrun' m (le_of_max_le_right hm)]
  simp only [Option.bind_eq_bind, Option.bind_some, hsink, hmap, hentry, hexit]
  rfl

/-- The analysis ends.  The arguments are alive at the entry, and the return values are written
and unread at the exit.  At a call site it is the other way round. -/
theorem analyzeRegisterUsage_spec [Fintype Node] (f : FunctionToAnalyze Node C) :
    ∃ r, (∃ fuel, ∀ m ≥ fuel, analyzeRegisterUsage m f = some r) ∧
      (∀ x, x ∈ r.argumentsRegisters ↔ f.function.LiveBefore f.entryNode x) ∧
      (∀ x, x ∈ r.returnValuesRegisters ↔ f.Unread (f.function.After f.returnNode) x) ∧
      f.callSites.Forall₂ (fun c s => s.1 = c.1 ∧
        (∀ x, x ∈ s.2.argumentsRegisters ↔ f.Unread (f.function.Before c.2) x) ∧
        ∀ x, x ∈ s.2.returnValuesRegisters ↔ f.function.LiveAfter c.2 x) r.callSites := by
  obtain ⟨r, hrun, h⟩ := exists_isResult f
  exact ⟨r, hrun, h.arguments, h.returnValues, h.callSites⟩

/-! ## Indices of writes -/

theorem Function.Valid.mem_writes {f : Function Node} (h : f.Valid) {n : Node} {path : List Node}
    (hpath : IsPath (fun a b => b ∈ f.successors a) n path) (hn : n ∈ f.nodes) {s : Site Node}
    (hs : s ∈ f.history (n :: path)) (hw : s.type = .write) :
    s ∈ ReachingDefinitions.writes f s.target := by
  have hnodes : ∀ m ∈ n :: path, m ∈ f.nodes := by
    clear hs
    induction path generalizing n with
    | nil => simpa using hn
    | cons m rest ih =>
      obtain ⟨hmn, hrest⟩ := List.isChain_cons_cons.mp hpath
      exact List.forall_mem_cons.mpr ⟨hn, ih hrest (h.known m n hmn).1⟩
  obtain ⟨m, hm, hs⟩ := List.mem_flatMap.mp hs
  exact List.mem_filter.mpr ⟨List.mem_flatMap.mpr ⟨m, hnodes m hm, List.mem_reverse.mp hs⟩,
    by simp [hw]⟩

/-- Where the writes of the register have different indices, `Unread` is about reads of the write
itself. -/
theorem unread_iff_not_isRead (f : FunctionToAnalyze Node C) {x : Register}
    (hcount : (ReachingDefinitions.writes f.function x).length ≤ 256) :
    f.Unread (f.function.After f.returnNode) x ↔
      ∃ past s, f.function.After f.returnNode past ∧ aliveWrite x past = some s ∧
        ∀ past', f.function.After f.sinkNode past' → ¬ IsRead s past' := by
  refine exists_congr fun past => exists_congr fun s => and_congr_right fun hpast =>
    and_congr_right fun hs => ?_
  obtain ⟨path, hpath, rfl⟩ := hpast
  obtain ⟨hx, hw, hmem⟩ := aliveWrite_eq_some hs
  constructor
  · exact fun h past' hpast' hread => h past' s hpast' hread hx rfl
  · rintro h _ s' ⟨path', hpath', rfl⟩ hread hx' heq
    obtain ⟨hmem', hw'⟩ := hread.mem
    refine h _ ⟨path', hpath', rfl⟩ (ReachingDefinitions.writeToIndex_injective (x := x) ?_ ?_
      hcount heq ▸ hread)
    · exact hx' ▸ f.valid.mem_writes hpath' (f.known _ (.inr (.inr (.inl rfl)))) hmem' hw'
    · exact hx ▸ f.valid.mem_writes hpath (f.known _ (.inr (.inl rfl))) hmem hw

/-- Up to 256 writes of a register have different indices.  The analysis ends, and finds the register
written and unread at the exit when a write is alive there that nothing reads. -/
theorem unread_iff [Fintype Node] (f : FunctionToAnalyze Node C) {x : Register}
    (hcount : (ReachingDefinitions.writes f.function x).length ≤ 256) :
    (∀ s ∈ ReachingDefinitions.writes f.function x, ∀ t ∈ ReachingDefinitions.writes f.function x,
      ReachingDefinitions.writeToIndex f.function s =
        ReachingDefinitions.writeToIndex f.function t → s = t) ∧
    (f.Unread (f.function.After f.returnNode) x ↔
      ∃ past s, f.function.After f.returnNode past ∧ aliveWrite x past = some s ∧
        ∀ past', f.function.After f.sinkNode past' → ¬ IsRead s past') ∧
    ∃ r, (∃ fuel, ∀ m ≥ fuel, analyzeRegisterUsage m f = some r) ∧
      (x ∈ r.returnValuesRegisters ↔
        ∃ past s, f.function.After f.returnNode past ∧ aliveWrite x past = some s ∧
          ∀ past', f.function.After f.sinkNode past' → ¬ IsRead s past') := by
  have hunread := unread_iff_not_isRead f hcount
  obtain ⟨r, hrun, h⟩ := exists_isResult f
  exact ⟨fun s hs t ht => ReachingDefinitions.writeToIndex_injective hs ht hcount, hunread, r, hrun,
    (h.returnValues x).trans hunread⟩

def twoBlocks : FunctionToAnalyze Bool Unit :=
  ⟨.twoBlocks, false, true, true, [], Function.valid_twoBlocks, fun n _ => by
    cases n <;> simp [Function.twoBlocks]⟩

theorem unread_iff_two : (ReachingDefinitions.writes twoBlocks.function 0).length = 2 ∧
    ∃ r, (∃ fuel, ∀ m ≥ fuel, analyzeRegisterUsage m twoBlocks = some r) ∧
      (0 ∈ r.returnValuesRegisters ↔
        ∃ past s, twoBlocks.function.After true past ∧ aliveWrite 0 past = some s ∧
          ∀ past', twoBlocks.function.After true past' → ¬ IsRead s past') :=
  ⟨by decide, (unread_iff twoBlocks (by decide)).2.2⟩

end RegisterUsage
