import Mathlib.Data.Fintype.Basic
import Revng.Pypeline.MemoryProvider
import Revng.Pypeline.ScheduleTasks

/-!
# Schedules give what is requested

The run of a schedule is compared with `recompute`.  After the tasks from the root up to a
node, every object requested of the node is in its container with the recomputed content,
unless the last of these tasks has emptied the container (`runsTo_of_noStaleRequest`).  The
next task needs some of these objects.  The run goes on exactly when none of them was
emptied, and `runsCorrectly_iff` says so for whole schedules.
-/

namespace Pypeline

variable {Model Kind α σ : Type} {K : KindLayout}

section

variable [DecidableEq Kind]

section Run

variable {E : Environment Model Kind K α σ} {Valid : σ → Prop}
  {contents : σ → ContainerLocation → ObjectID K → Option α}
  {path : List (PipelineNode Model Kind K α)} {declared : ContainerID → Prop} {storage : σ}

/-! ## All tasks -/

/-- The tasks above the target that are not skipped. -/
def active (ts : List (ScheduledTask Model Kind K α)) : List (ScheduledTask Model Kind K α) :=
  (ts.map ScheduledTask.compact).filter fun t => t.node.writesRequested t.outgoing

variable {readers : List ContainerID} {live : ContainerID → Prop}

omit [DecidableEq Kind] in
/-- The readers and the disposable containers after a task. -/
theorem mem_markArguments (n : PipelineNode Model Kind K α) (hlive : ∀ c, c ∈ readers ↔ live c)
    (c : ContainerID) :
    (c ∈ (n.arguments.foldl markArgument (readers, [])).1 ↔ n.liveBefore live c) ∧
      (c ∈ (n.arguments.foldl markArgument (readers, [])).2 ↔ n.Reads c ∧ ¬ live c) := by
  have hmark := foldl_markArgument (fun a ha b hb h => by rw [n.access_unique ha hb h]) readers [] c
  refine ⟨hmark.1.trans ?_, hmark.2.trans ?_⟩
  · rw [hlive c]
    rfl
  · rw [hlive c]
    simp only [List.not_mem_nil, false_or]
    rfl

omit [DecidableEq Kind] in
theorem ScheduledTask.carries_compact (node : PipelineNode Model Kind K α)
    (outgoing ingoing : Requests (ObjectID K)) (disposable : List ContainerID) :
    (ScheduledTask.compact ⟨node, ingoing, outgoing, disposable⟩).Carries outgoing ingoing where
  incoming_get _ := rfl
  outgoing_get _ := rfl
  incoming_keys _ hc := Requests.mem_keys_minimize.mp hc
  outgoing_keys _ hc := Requests.mem_keys_minimize.mp hc

/-- The tasks of a path have run, and what is requested of its first node is right, where the
last task has not emptied the container. -/
def Environment.RunsTo (E : Environment Model Kind K α σ) (Valid : σ → Prop)
    (contents : σ → ContainerLocation → ObjectID K → Option α)
    (path : List (PipelineNode Model Kind K α)) (declared : ContainerID → Prop) (storage : σ)
    (tasks : List (ScheduledTask Model Kind K α)) (initial : RunState K α σ)
    (suffix : List (PipelineNode Model Kind K α)) (requests : Requests (ObjectID K))
    (emptied : ContainerID → Prop) : Prop :=
  ∃ s, E.runTasks tasks initial = .ok s ∧ E.Sound Valid contents path declared storage s ∧
    ∀ c, ¬ emptied c → ∀ o ∈ requests.get c, E.Right suffix s.containers c o

variable {above : List (PipelineNode Model Kind K α)} {outgoing : Requests (ObjectID K)}
  {initial : RunState K α σ}

variable {t : ScheduledTask Model Kind K α} {ingoing : Requests (ObjectID K)}

/-- A task runs when none of the objects it needs were emptied. -/
theorem Environment.RunsTo.cons (hlaw : E.provider.Lawful Valid contents)
    (hcontract : E.PipesKeepContracts path) (hbelow : path.Pairwise PipelineNode.Below)
    (hvalid : Valid storage) {dependencies : List (ScheduledTask Model Kind K α)}
    {emptied : ContainerID → Prop} (hsuffix : (t.node :: above) <:+ path)
    (hpre : E.prerequisitesFor storage t.node outgoing = some ingoing)
    (hcarries : t.Carries outgoing ingoing)
    (hdeclared : ∀ c ∈ t.node.argumentDeclarations, declared c) (hlive : ∀ c, c ∈ readers ↔ live c)
    (h : E.RunsTo Valid contents path declared storage
      (identifyDiscardable dependencies (t.node.arguments.foldl markArgument (readers, [])).1)
      initial above ingoing emptied) (hneeded : ∀ c, emptied c → ingoing.get c = []) :
    E.RunsTo Valid contents path declared storage (identifyDiscardable (t :: dependencies) readers)
      initial (t.node :: above) outgoing fun c => t.node.Reads c ∧ ¬ live c := by
  obtain ⟨s, hrun, hsound, hright⟩ := h
  have hin : ∀ c, ∀ o ∈ ingoing.get c, E.Right above s.containers c o := by
    intro c o ho
    refine hright c (fun he => ?_) o ho
    rw [hneeded c he] at ho
    cases ho
  have hmark := fun c => (mem_markArguments t.node hlive c).2
  have hdisposable : ∀ c ∈ (t.node.arguments.foldl markArgument (readers, [])).2,
      c ∈ t.node.argumentDeclarations := by
    intro c hc
    obtain ⟨⟨a, ha, hac, -⟩, -⟩ := (hmark c).mp hc
    exact List.mem_map.mpr ⟨a, ha, hac⟩
  obtain ⟨s', hrun', hsound', hright'⟩ := runTask_right hlaw hcontract hbelow
    (t := { t with disposableContainers := (t.node.arguments.foldl markArgument (readers, [])).2 })
    hsuffix hvalid hpre ⟨hcarries.1, hcarries.2, hcarries.3, hcarries.4⟩ hdeclared hsound
    hin hdisposable
  refine ⟨s', ?_, hsound', fun c hc => hright' c (mt (hmark c).mp hc)⟩
  simp only [identifyDiscardable, runTasks, hrun]
  exact hrun'

omit [DecidableEq Kind] in
theorem active_cons (t : ScheduledTask Model Kind K α) (ts : List (ScheduledTask Model Kind K α)) :
    active (t :: ts) =
      if t.node.writesRequested t.outgoing then t.compact :: active ts else active ts := by
  simp only [active, List.map_cons, List.filter_cons]
  rfl

variable {node : PipelineNode Model Kind K α}

/-- A skipped node needs nothing that was not requested of it. -/
theorem Environment.Right.skip {containers : ContainerSet K α} {c : ContainerID} {o : ObjectID K}
    (hidle : node.writesRequested outgoing = false) (ho : o ∈ outgoing.get c)
    (h : E.Right above containers c o) : E.Right (node :: above) containers c o := by
  obtain ⟨container, v, hcontainer, hv, hre⟩ := h
  refine ⟨container, v, hcontainer, hv, ?_⟩
  cases htask : node.task with
  | savePoint name toSave =>
    rw [recompute_savePoint htask]
    exact hre
  | pipe p bindings distinct =>
    by_cases hc : ∃ i, bindings i = c
    · obtain ⟨i, rfl⟩ := hc
      have hread : p.access i = .read := by
        by_contra haccess
        have hactive : node.writesRequested outgoing = true :=
          PipelineNode.writesRequested_iff.mpr ⟨_,
            (PipelineNode.mem_arguments_pipe htask).mpr ⟨i, rfl⟩, haccess,
            List.ne_nil_of_mem ho⟩
        rw [hidle] at hactive
        cases hactive
      rw [recompute_pipe htask i, if_pos hread]
      exact hre
    · rw [recompute_pipe_of_ne htask (not_exists.mp hc)]
      exact hre

variable {ancestors : List (PipelineNode Model Kind K α)}

/-- The result of the backward pass: nothing is requested, or a node has asked for its
prerequisites and the rest is the result for its predecessor. -/
theorem Environment.backwardPass_cases {ts : List (ScheduledTask Model Kind K α)}
    (h : E.backwardPass storage node ancestors outgoing = some ts) :
    (outgoing.isEmpty = true ∧ ts = [⟨node, .none, .none, []⟩]) ∨
      ∃ ingoing rest, outgoing.isEmpty = false ∧
        E.prerequisitesFor storage node outgoing = some ingoing ∧
        ts = ⟨node, ingoing, outgoing, []⟩ :: rest ∧
        ((ancestors = [] ∧ rest = [] ∧ ingoing.isEmpty = true) ∨
          ∃ predecessor above, ancestors = predecessor :: above ∧
            E.backwardPass storage predecessor above ingoing = some rest) := by
  unfold backwardPass at h
  split at h
  next hempty =>
    cases h
    exact Or.inl ⟨hempty, rfl⟩
  next hne =>
    rw [Bool.not_eq_true] at hne
    split at h
    · cases h
    next ingoing hpre =>
      refine Or.inr ⟨ingoing, ?_⟩
      cases ancestors with
      | nil =>
        simp only at h
        split at h
        next hempty =>
          cases h
          exact ⟨[], hne, hpre, rfl, Or.inl ⟨rfl, rfl, hempty⟩⟩
        · cases h
      | cons predecessor above =>
        obtain ⟨rest, hrest, rfl⟩ := Option.map_eq_some_iff.mp h
        exact ⟨rest, hne, hpre, rfl, Or.inr ⟨predecessor, above, rfl, hrest⟩⟩

omit [DecidableEq Kind] in
theorem active_idle (node : PipelineNode Model Kind K α) :
    active [⟨node, .none, .none, []⟩] = [] := by
  rw [active_cons, PipelineNode.writesRequested_of_empty fun _ => rfl]
  rfl

/-- One node of the path, skipped or not. -/
theorem Environment.runsTo_node (hlaw : E.provider.Lawful Valid contents)
    (hcontract : E.PipesKeepContracts path) (hbelow : path.Pairwise PipelineNode.Below)
    (hvalid : Valid storage) {rest : List (ScheduledTask Model Kind K α)}
    (hsuffix : (node :: above) <:+ path)
    (hpre : E.prerequisitesFor storage node outgoing = some ingoing)
    (hlive : ∀ c, c ∈ readers ↔ live c)
    (hstale : E.NoStaleRequest storage (node :: above) outgoing live)
    (hdeclared : ∀ t ∈ active (⟨node, ingoing, outgoing, []⟩ :: rest),
      ∀ c ∈ t.node.argumentDeclarations, declared c)
    (htail : ∀ {live' : ContainerID → Prop} {readers' : List ContainerID},
      (∀ c, c ∈ readers' ↔ live' c) → E.NoStaleRequest storage above ingoing live' →
      E.RunsTo Valid contents path declared storage (identifyDiscardable (active rest) readers')
        initial above ingoing (E.LastRead storage above ingoing live')) :
    E.RunsTo Valid contents path declared storage
      (identifyDiscardable (active (⟨node, ingoing, outgoing, []⟩ :: rest)) readers)
      initial (node :: above) outgoing (E.LastRead storage (node :: above) outgoing live) := by
  rw [active_cons] at hdeclared ⊢
  obtain ⟨hactive, hidle⟩ := hstale ingoing hpre
  by_cases hwrites : node.writesRequested outgoing = true
  · simp only [hwrites, if_true] at hdeclared ⊢
    obtain ⟨hneeded, hrest⟩ := hactive hwrites
    have htail := htail (fun c => (mem_markArguments node hlive c).1) hrest
    obtain ⟨s, hrun, hsound, hright⟩ := RunsTo.cons hlaw hcontract hbelow hvalid hsuffix hpre
      (ScheduledTask.carries_compact node outgoing ingoing [])
      (hdeclared _ (List.mem_cons_self ..)) hlive htail hneeded
    refine ⟨s, hrun, hsound, fun c hc => hright c fun hread => hc ?_⟩
    exact ⟨ingoing, hpre, Or.inl ⟨hwrites, hread⟩⟩
  · rw [Bool.not_eq_true] at hwrites
    simp only [hwrites, Bool.false_eq_true, if_false] at hdeclared ⊢
    obtain ⟨s, hrun, hsound, hright⟩ := htail hlive (hidle hwrites)
    refine ⟨s, hrun, hsound, fun c hc o ho => ?_⟩
    have hright : E.Right above s.containers c o :=
      hright c (fun hread => hc ⟨ingoing, hpre, Or.inr ⟨hwrites, hread⟩⟩) o
        (prerequisitesFor_idle hpre hwrites c ho)
    exact hright.skip hwrites ho

/-- The tasks run up to any node of the path. -/
theorem Environment.runsTo_of_noStaleRequest (hlaw : E.provider.Lawful Valid contents)
    (hcontract : E.PipesKeepContracts path) (hbelow : path.Pairwise PipelineNode.Below)
    (hvalid : Valid storage) (hinitial : E.Sound Valid contents path declared storage initial) :
    ∀ {node : PipelineNode Model Kind K α} {outgoing : Requests (ObjectID K)}
      {live : ContainerID → Prop} {readers : List ContainerID}
      {ts : List (ScheduledTask Model Kind K α)},
      E.backwardPass storage node ancestors outgoing = some ts → (node :: ancestors) <:+ path →
      (∀ c, c ∈ readers ↔ live c) → E.NoStaleRequest storage (node :: ancestors) outgoing live →
      (∀ t ∈ active ts, ∀ c ∈ t.node.argumentDeclarations, declared c) →
      E.RunsTo Valid contents path declared storage (identifyDiscardable (active ts) readers)
        initial (node :: ancestors) outgoing
        (E.LastRead storage (node :: ancestors) outgoing live) := by
  have hnothing : ∀ {suffix requests emptied readers}, (∀ c, requests.get c = []) →
      E.RunsTo Valid contents path declared storage (identifyDiscardable [] readers) initial suffix
        requests emptied := by
    intro suffix requests emptied readers hempty
    refine ⟨initial, rfl, hinitial, fun c _ o ho => ?_⟩
    rw [hempty c] at ho
    cases ho
  induction ancestors with
  | nil =>
    intro node outgoing live readers ts hts hsuffix hlive hstale hdeclared
    rcases backwardPass_cases hts with ⟨hempty, rfl⟩ | ⟨ingoing, rest, -, hpre, rfl, hrest⟩
    · rw [active_idle]
      exact hnothing (Requests.isEmpty_iff.mp hempty)
    · rcases hrest with ⟨-, rfl, hempty⟩ | ⟨predecessor, above, hcons, -⟩
      · exact runsTo_node hlaw hcontract hbelow hvalid hsuffix hpre hlive hstale hdeclared
          fun _ _ => hnothing (Requests.isEmpty_iff.mp hempty)
      · cases hcons
  | cons predecessor above ih =>
    intro node outgoing live readers ts hts hsuffix hlive hstale hdeclared
    rcases backwardPass_cases hts with ⟨hempty, rfl⟩ | ⟨ingoing, rest, -, hpre, rfl, hrest⟩
    · rw [active_idle]
      exact hnothing (Requests.isEmpty_iff.mp hempty)
    · rcases hrest with ⟨hnil, -⟩ | ⟨_, _, hcons, hrest⟩
      · cases hnil
      · cases hcons
        refine runsTo_node hlaw hcontract hbelow hvalid hsuffix hpre hlive hstale hdeclared
          fun hlive' hstale' => ih hrest ((List.suffix_cons ..).trans hsuffix) hlive' hstale' ?_
        intro t ht
        refine hdeclared t ?_
        rw [active_cons]
        split
        · exact List.mem_cons_of_mem _ ht
        · exact ht

/-! ## The condition is needed -/

variable {s : RunState K α σ}

omit [DecidableEq Kind] in
/-- A task that has run found what it needs, and has emptied its disposable containers. -/
theorem Environment.runTask_eq_ok {s' : RunState K α σ} (h : E.runTask t s = .ok s') :
    t.incoming.check s.containers = true ∧
      ∀ c ∈ t.disposableContainers, ∀ container, s'.containers c = some container →
        container = Container.empty := by
  unfold runTask at h
  split at h
  · cases h
  next hcheck =>
    split at h
    · cases h
    · split at h
      · cases h
      · split at h
        · cases h
          refine ⟨by simpa using hcheck, fun c hc container hcontainer => ?_⟩
          simp only [dispose, List.contains_eq_mem, hc, decide_true, if_true,
            Option.map_eq_some_iff] at hcontainer
          obtain ⟨-, -, rfl⟩ := hcontainer
          rfl
        · cases h

omit [DecidableEq Kind] in
/-- A check fails on an empty container. -/
theorem Requests.get_eq_nil_of_check {r : Requests (ObjectID K)} {containers : ContainerSet K α}
    (h : r.check containers = true) {c : ContainerID}
    (hempty : ∀ container, containers c = some container → container = Container.empty) :
    r.get c = [] := by
  by_contra hne
  have hkey : c ∈ r.keys := by
    by_contra hnot
    exact hne (r.get_eq_nil c hnot)
  have hcheck := List.all_eq_true.mp h c hkey
  split at hcheck
  · cases hcheck
  next container hcontainer =>
    obtain ⟨o, ho⟩ := List.exists_mem_of_ne_nil _ hne
    have hsome := List.all_eq_true.mp hcheck o ho
    rw [hempty container hcontainer] at hsome
    cases hsome

omit [DecidableEq Kind] in
theorem Environment.runTasks_cons_eq_ok {dependencies : List (ScheduledTask Model Kind K α)}
    (hlive : ∀ c, c ∈ readers ↔ live c)
    (h : E.runTasks (identifyDiscardable (t :: dependencies) readers) initial = .ok s) :
    ∃ s', E.runTasks (identifyDiscardable dependencies
        (t.node.arguments.foldl markArgument (readers, [])).1) initial = .ok s' ∧
      t.incoming.check s'.containers = true ∧
      ∀ c, t.node.Reads c ∧ ¬ live c → ∀ container, s.containers c = some container →
        container = Container.empty := by
  simp only [identifyDiscardable, runTasks] at h
  split at h
  · cases h
  next s' hrest =>
    obtain ⟨hcheck, hempty⟩ := runTask_eq_ok h
    exact ⟨s', hrest, hcheck, fun c hc => hempty c ((mem_markArguments t.node hlive c).2.mpr hc)⟩

/-- The state is one of a run that meets the condition up to a node, and the last task has
emptied what it was the last to read. -/
def Environment.Emptied (E : Environment Model Kind K α σ) (storage : σ)
    (path : List (PipelineNode Model Kind K α)) (requests : Requests (ObjectID K))
    (live : ContainerID → Prop) (s : RunState K α σ) : Prop :=
  E.NoStaleRequest storage path requests live ∧
    ∀ c, E.LastRead storage path requests live c → ∀ container, s.containers c = some container →
      container = Container.empty

theorem Environment.emptied_node {rest : List (ScheduledTask Model Kind K α)}
    (hpre : E.prerequisitesFor storage node outgoing = some ingoing)
    (hlive : ∀ c, c ∈ readers ↔ live c)
    (hrun : E.runTasks (identifyDiscardable (active (⟨node, ingoing, outgoing, []⟩ :: rest))
      readers) initial = .ok s)
    (htail : ∀ {live' : ContainerID → Prop} {readers' : List ContainerID} {s' : RunState K α σ},
      (∀ c, c ∈ readers' ↔ live' c) →
      E.runTasks (identifyDiscardable (active rest) readers') initial = .ok s' →
      E.Emptied storage above ingoing live' s') :
    E.Emptied storage (node :: above) outgoing live s := by
  rw [active_cons] at hrun
  have hunique : ∀ ingoing', E.prerequisitesFor storage node outgoing = some ingoing' →
      ingoing' = ingoing := fun ingoing' h => Option.some.inj (h.symm.trans hpre)
  by_cases hwrites : node.writesRequested outgoing = true
  · simp only [hwrites, if_true] at hrun
    obtain ⟨s', hrest, hcheck, hempty⟩ := runTasks_cons_eq_ok hlive hrun
    obtain ⟨hstale, hemptied⟩ := htail (fun c => (mem_markArguments node hlive c).1) hrest
    refine ⟨fun ingoing' h => ?_, fun c hlast => ?_⟩
    · rw [hunique ingoing' h]
      refine ⟨fun _ => ⟨fun c hc => ?_, hstale⟩, fun hidle => ?_⟩
      · exact Requests.get_eq_nil_of_check hcheck (hemptied c hc)
      · rw [hwrites] at hidle
        cases hidle
    · obtain ⟨ingoing', -, ⟨-, hread⟩ | ⟨hidle, -⟩⟩ := hlast
      · exact hempty c hread
      · rw [hwrites] at hidle
        cases hidle
  · rw [Bool.not_eq_true] at hwrites
    simp only [hwrites, Bool.false_eq_true, if_false] at hrun
    obtain ⟨hstale, hemptied⟩ := htail hlive hrun
    refine ⟨fun ingoing' h => ?_, fun c hlast => ?_⟩
    · rw [hunique ingoing' h]
      refine ⟨fun hactive => ?_, fun _ => hstale⟩
      rw [hwrites] at hactive
      cases hactive
    · obtain ⟨ingoing', h, ⟨hactive, -⟩ | ⟨-, hlast⟩⟩ := hlast
      · rw [hwrites] at hactive
        cases hactive
      · rw [hunique ingoing' h] at hlast
        exact hemptied c hlast

/-- A run that does not fail meets the condition. -/
theorem Environment.emptied_of_runTasks :
    ∀ {node : PipelineNode Model Kind K α} {outgoing : Requests (ObjectID K)}
      {live : ContainerID → Prop} {readers : List ContainerID}
      {ts : List (ScheduledTask Model Kind K α)} {s : RunState K α σ},
      E.backwardPass storage node ancestors outgoing = some ts → (∀ c, c ∈ readers ↔ live c) →
      E.runTasks (identifyDiscardable (active ts) readers) initial = .ok s →
      E.Emptied storage (node :: ancestors) outgoing live s := by
  induction ancestors with
  | nil =>
    intro node outgoing live readers ts s hts hlive hrun
    rcases backwardPass_cases hts with ⟨hempty, rfl⟩ | ⟨ingoing, rest, -, hpre, rfl, hrest⟩
    · exact ⟨noStaleRequest_of_empty hempty, fun c h => absurd h (not_lastRead_of_empty hempty)⟩
    · exact emptied_node hpre hlive hrun fun _ _ => ⟨trivial, fun _ h => absurd h id⟩
  | cons predecessor above ih =>
    intro node outgoing live readers ts s hts hlive hrun
    rcases backwardPass_cases hts with ⟨hempty, rfl⟩ | ⟨ingoing, rest, -, hpre, rfl, hrest⟩
    · exact ⟨noStaleRequest_of_empty hempty, fun c h => absurd h (not_lastRead_of_empty hempty)⟩
    · rcases hrest with ⟨hnil, -⟩ | ⟨_, _, hcons, hrest⟩
      · cases hnil
      · cases hcons
        exact emptied_node hpre hlive hrun fun hlive' hrun' => ih hrest hlive' hrun'

/-! ## Whole schedules -/

/-- Some node on the way to the root is asked for nothing it writes and asks for its inputs
all the same, and its request outlives the last task that reads the container.  This says
that it does not happen: no task names in its prerequisites a container that the task before
it is the last to read. -/
def Environment.RequestsStayLive (E : Environment Model Kind K α σ) (storage : σ)
    (target : PipelineNode Model Kind K α) (ancestors : List (PipelineNode Model Kind K α))
    (requests : Requests (ObjectID K)) : Prop :=
  ∀ ingoing, E.prerequisitesFor storage target requests = some ingoing →
    (∀ c, E.LastRead storage ancestors ingoing
      (target.liveBefore fun c => requests.get c ≠ []) c → ingoing.get c = []) ∧
    E.NoStaleRequest storage ancestors ingoing (target.liveBefore fun c => requests.get c ≠ [])

/-- The schedule runs to completion, and every requested object is in its container with the
content that recomputing it gives, whatever the savepoints took from the storage. -/
def Environment.RunsCorrectly (E : Environment Model Kind K α σ) (storage : σ)
    (path : List (PipelineNode Model Kind K α)) (requests : Requests (ObjectID K))
    (schedule : Schedule Model Kind K α) : Prop :=
  ∃ s, E.run schedule storage = .ok s ∧
    ∀ c, ∀ o ∈ requests.get c, E.Right path s.containers c o

theorem Environment.node_mem_of_backwardPass :
    ∀ {node : PipelineNode Model Kind K α} {outgoing : Requests (ObjectID K)}
      {ts : List (ScheduledTask Model Kind K α)},
      E.backwardPass storage node ancestors outgoing = some ts →
      ∀ t ∈ ts, t.node ∈ node :: ancestors := by
  induction ancestors with
  | nil =>
    intro node outgoing ts hts t ht
    rcases backwardPass_cases hts with ⟨-, rfl⟩ | ⟨ingoing, rest, -, -, rfl, hrest⟩
    · obtain rfl := List.mem_singleton.mp ht
      exact List.mem_cons_self ..
    · rcases hrest with ⟨-, rfl, -⟩ | ⟨_, _, hcons, -⟩
      · obtain rfl := List.mem_singleton.mp ht
        exact List.mem_cons_self ..
      · cases hcons
  | cons predecessor above ih =>
    intro node outgoing ts hts t ht
    rcases backwardPass_cases hts with ⟨-, rfl⟩ | ⟨ingoing, rest, -, -, rfl, hrest⟩
    · obtain rfl := List.mem_singleton.mp ht
      exact List.mem_cons_self ..
    · rcases hrest with ⟨hnil, -⟩ | ⟨_, _, hcons, hrest⟩
      · cases hnil
      · cases hcons
        rcases List.mem_cons.mp ht with rfl | ht
        · exact List.mem_cons_self ..
        · exact List.mem_cons_of_mem _ (ih hrest t ht)

/-- A schedule is the task of the target and the tasks that are not skipped. -/
theorem Environment.schedule_cases {declarations : List ContainerID}
    {target : PipelineNode Model Kind K α} {requests : Requests (ObjectID K)}
    {schedule : Schedule Model Kind K α}
    (h : E.schedule storage declarations target ancestors requests = some schedule) :
    ∃ t ingoing rest, schedule.tasks = t :: active rest ∧ t.node = target ∧
      E.prerequisitesFor storage target requests = some ingoing ∧ t.Carries requests ingoing ∧
      ((rest = [] ∧ ∀ c, ingoing.get c = []) ∨
        ∃ predecessor above, ancestors = predecessor :: above ∧
          E.backwardPass storage predecessor above ingoing = some rest) ∧
      (∀ c, c ∈ schedule.declarations ↔ c ∈ declarations ∧
        ∃ t ∈ schedule.tasks, c ∈ t.node.argumentDeclarations) := by
  obtain ⟨ts, hts, rfl⟩ := Option.map_eq_some_iff.mp h
  have hdeclarations : ∀ c, c ∈ declarations.filter
      ((skipIdle ts).flatMap fun t => t.node.argumentDeclarations).contains ↔
      c ∈ declarations ∧ ∃ t ∈ skipIdle ts, c ∈ t.node.argumentDeclarations := by
    intro c
    simp only [List.mem_filter, List.contains_eq_mem, decide_eq_true_eq, List.mem_flatMap]
  rcases backwardPass_cases hts with ⟨hempty, rfl⟩ | ⟨ingoing, rest, -, hpre, rfl, hrest⟩
  · obtain ⟨ingoing, hpre⟩ := E.exists_prerequisitesFor_of_empty storage target hempty
    have hnone := prerequisitesFor_empty hpre hempty
    refine ⟨_, ingoing, [], rfl, rfl, hpre, ⟨fun c => (hnone c).symm, fun c => ?_, ?_, ?_⟩,
      Or.inl ⟨rfl, hnone⟩, hdeclarations⟩
    · exact (Requests.isEmpty_iff.mp hempty c).symm
    · exact fun c hc => absurd hc (List.not_mem_nil)
    · exact fun c hc => absurd hc (List.not_mem_nil)
  · refine ⟨_, ingoing, rest, rfl, rfl, hpre, ScheduledTask.carries_compact target requests ingoing [],
      ?_, hdeclarations⟩
    rcases hrest with ⟨-, hnil, hempty⟩ | hrest
    · exact Or.inl ⟨hnil, Requests.isEmpty_iff.mp hempty⟩
    · exact Or.inr hrest

end Run

section Target

variable {E : Environment Model Kind K α σ} {Valid : σ → Prop}
  {contents : σ → ContainerLocation → ObjectID K → Option α} {storage : σ}
  {pipeline : Pipeline Model Kind K α} {target : pipeline.Target}
  {requests : Requests (ObjectID K)} {schedule : Schedule Model Kind K α}

variable {t : ScheduledTask Model Kind K α}

theorem Environment.schedule_node_mem
    (h : E.schedule storage pipeline.declarations target.node target.ancestors requests =
      some schedule) (ht : t ∈ schedule.tasks) : t.node ∈ target.path := by
  obtain ⟨ts, hts, rfl⟩ := Option.map_eq_some_iff.mp h
  have hnodes := node_mem_of_backwardPass hts
  have hskip : ∀ t ∈ skipIdle ts, ∃ t' ∈ ts, t.node = t'.node := by
    intro t ht
    cases ts with
    | nil => cases ht
    | cons first rest =>
      rcases List.mem_cons.mp ht with rfl | ht
      · exact ⟨first, List.mem_cons_self .., rfl⟩
      · obtain ⟨t', ht', rfl⟩ := List.mem_map.mp (List.mem_filter.mp ht).1
        exact ⟨t', List.mem_cons_of_mem _ ht', rfl⟩
  obtain ⟨t', ht', heq⟩ := hskip t ht
  rw [heq]
  exact hnodes t' ht'

/-- The run of a schedule is the run of its tasks. -/
theorem Environment.run_eq (hcontract : E.PipesKeepContracts target.path)
    (h : E.schedule storage pipeline.declarations target.node target.ancestors requests =
      some schedule) {dependencies : List (ScheduledTask Model Kind K α)}
    (htasks : schedule.tasks = t :: dependencies) :
    E.run schedule storage = E.runTasks
      (identifyDiscardable (t :: dependencies)
        (t.outgoing.keys.filter fun c => !(t.outgoing.get c).isEmpty))
      (schedule.initialState storage) := by
  have hcheck : schedule.tasks.all E.checkPrecondition = true := by
    refine List.all_eq_true.mpr fun t ht => ?_
    unfold checkPrecondition
    split
    next p bindings distinct htask =>
      exact (hcontract t.node (schedule_node_mem h ht) p bindings distinct htask).precondition
    · rfl
  rw [run, if_pos hcheck]
  simp only [htasks]

omit [DecidableEq Kind] in
theorem ScheduledTask.Carries.mem_requested {outgoing ingoing : Requests (ObjectID K)}
    (h : t.Carries outgoing ingoing) (c : ContainerID) :
    c ∈ (t.outgoing.keys.filter fun c => !(t.outgoing.get c).isEmpty) ↔ outgoing.get c ≠ [] := by
  rw [← h.outgoing_get c]
  exact Requests.mem_keys_minimize

theorem Environment.sound_initialState (schedule : Schedule Model Kind K α) (hvalid : Valid storage)
    (hcoherent : E.Coherent contents target.path storage) :
    E.Sound Valid contents target.path (· ∈ schedule.declarations) storage
      (schedule.initialState storage) := by
  refine ⟨fun c hc => ?_, hvalid, hcoherent, fun _ _ h => h⟩
  simp [Schedule.initialState, hc]

/-- A schedule whose requests stay live runs to the end. -/
theorem Environment.exists_run_of_requestsStayLive (hlaw : E.provider.Lawful Valid contents)
    (hcontract : E.PipesKeepContracts target.path) (hvalid : Valid storage)
    (hcoherent : E.Coherent contents target.path storage)
    (hschedule : E.schedule storage pipeline.declarations target.node target.ancestors requests =
      some schedule)
    (hstay : E.RequestsStayLive storage target.node target.ancestors requests) :
    ∃ s, E.run schedule storage = .ok s ∧ E.Coherent contents target.path s.storage ∧
      ∀ c, ∀ o ∈ requests.get c, E.Right target.path s.containers c o := by
  obtain ⟨t, ingoing, rest, htasks, hnode, hpre, hcarries, hrest, hdeclared⟩ :=
    schedule_cases hschedule
  have hlive := hcarries.mem_requested
  obtain ⟨hneeded, hstale⟩ := hstay ingoing hpre
  have hinitial := sound_initialState schedule hvalid hcoherent
  have hargs : ∀ t' ∈ t :: active rest, ∀ c ∈ t'.node.argumentDeclarations,
      c ∈ schedule.declarations := by
    intro t' ht' c hc
    rw [← htasks] at ht'
    exact (hdeclared c).mpr ⟨target.declared (schedule_node_mem hschedule ht') hc, t', ht', hc⟩
  rw [run_eq hcontract hschedule htasks]
  rw [← hnode] at hpre hneeded hstale
  have htail : E.RunsTo Valid contents target.path (· ∈ schedule.declarations) storage
      (identifyDiscardable (active rest) (t.node.arguments.foldl markArgument
        (t.outgoing.keys.filter fun c => !(t.outgoing.get c).isEmpty, [])).1)
      (schedule.initialState storage) target.ancestors ingoing
      (E.LastRead storage target.ancestors ingoing
        (t.node.liveBefore fun c => requests.get c ≠ [])) := by
    rcases hrest with ⟨rfl, hnone⟩ | ⟨predecessor, above, hancestors, hpass⟩
    · refine ⟨_, rfl, hinitial, fun c _ o ho => ?_⟩
      rw [hnone c] at ho
      cases ho
    · have hsuffix : target.ancestors <:+ target.path := List.suffix_cons ..
      rw [hancestors] at hstale hsuffix ⊢
      exact runsTo_of_noStaleRequest hlaw hcontract target.below hvalid hinitial hpass hsuffix
        (fun c => (mem_markArguments t.node hlive c).1) hstale
        fun t' ht' => hargs t' (List.mem_cons_of_mem _ ht')
  have hpath : t.node :: target.ancestors = target.path := by
    rw [hnode]
    rfl
  obtain ⟨s, hrun, hsound, hright⟩ := RunsTo.cons hlaw hcontract target.below hvalid
    (by rw [hpath]) hpre hcarries (hargs t (List.mem_cons_self ..)) hlive htail hneeded
  refine ⟨s, hrun, hsound.coherent, fun c o ho => ?_⟩
  rw [← hpath]
  exact hright c (fun h => h.2 (List.ne_nil_of_mem ho)) o ho

/-- A schedule runs to completion with the recomputed objects exactly when no request
outlives the last task that reads its container. -/
theorem Environment.runsCorrectly_iff (hlaw : E.provider.Lawful Valid contents)
    (hcontract : E.PipesKeepContracts target.path) (hvalid : Valid storage)
    (hcoherent : E.Coherent contents target.path storage)
    (hschedule : E.schedule storage pipeline.declarations target.node target.ancestors requests =
      some schedule) :
    E.RunsCorrectly storage target.path requests schedule ↔
      E.RequestsStayLive storage target.node target.ancestors requests := by
  constructor
  · rintro ⟨s, hs, -⟩ ingoing hpre
    obtain ⟨t, ingoing', rest, htasks, hnode, hpre', hcarries, hrest, -⟩ :=
      schedule_cases hschedule
    obtain rfl : ingoing' = ingoing := Option.some.inj (hpre'.symm.trans hpre)
    have hlive := hcarries.mem_requested
    rw [run_eq hcontract hschedule htasks] at hs
    obtain ⟨s', hrun, hcheck, -⟩ := runTasks_cons_eq_ok hlive hs
    have hemptied : E.Emptied storage target.ancestors ingoing'
        (target.node.liveBefore fun c => requests.get c ≠ []) s' := by
      rcases hrest with ⟨rfl, hnone⟩ | ⟨predecessor, above, hancestors, hpass⟩
      · have hempty := Requests.isEmpty_iff.mpr hnone
        exact ⟨noStaleRequest_of_empty hempty, fun c h => absurd h (not_lastRead_of_empty hempty)⟩
      · rw [hancestors]
        exact emptied_of_runTasks hpass
          (fun c => hnode ▸ (mem_markArguments t.node hlive c).1) hrun
    refine ⟨fun c hc => ?_, hemptied.1⟩
    rw [← hcarries.incoming_get c]
    exact Requests.get_eq_nil_of_check hcheck (hemptied.2 c hc)
  · intro hstay
    obtain ⟨s, hrun, -, hright⟩ := exists_run_of_requestsStayLive hlaw hcontract hvalid hcoherent
      hschedule hstay
    exact ⟨s, hrun, hright⟩

end Target

end

/-! ## Two pipelines -/

/-- A pipe that gives every object the same content. -/
def fillingPipe (K : KindLayout) {arity : Nat} (access : Fin arity → Access) :
    Pipe Unit Unit K Bytes where
  name := "fill"
  arity := arity
  access := access
  kind := fun _ => ()
  hasCustomInvalidation := false
  checkPrecondition := fun _ => true
  run := fun _ _ containers _ outgoing =>
    { containers := fun i o =>
        if access i ≠ .read ∧ o ∈ outgoing i then some [] else containers i o
      dependencies := fun _ => []
      customInvalidation := fun _ => [] }

theorem mem_single {arity : Nat} (i : Fin arity) (o : ObjectID K) : o ∈ single i o i := by
  simp [single]

theorem fillingPipe_contract (N : Navigation Unit Unit (ObjectID K)) (m : Unit) {arity : Nat}
    (access : Fin arity → Access) (configuration : String) :
    (fillingPipe K access).Contract N m configuration where
  precondition := rfl
  checkOutput containers incoming outgoing := by simp [Pipe.checkOutput, fillingPipe]
  readOnly containers incoming outgoing i hi := by
    have hi : access i = .read := hi
    funext o
    simp [fillingPipe, hi]
  produces containers incoming outgoing i o _ _ hi ho := by
    have hi : access i ≠ .read := hi
    simp [fillingPipe, hi, ho]
  independent containers incoming outgoing containers' incoming' i o _ _ hi ho _ _ := by
    have hi : access i ≠ .read := hi
    exact (if_pos ⟨hi, mem_single i o⟩).trans (if_pos ⟨hi, ho⟩).symm

/-- All objects are of one kind. -/
def oneKind (K : KindLayout) : Navigation Unit Unit (ObjectID K) where
  kinds := ⟨fun _ => none, fun _ => 0, fun _ _ h => by cases h⟩
  parent := fun _ => none
  children := fun _ _ _ => []

/-- The in-memory provider, nothing configured. -/
def memoryEnvironment (K : KindLayout) : Environment Unit Unit K Bytes (MemoryStorage K) where
  navigation := oneKind K
  model := ()
  configuration := fun _ => none
  hash := id
  setOrder := .inserted
  provider := MemoryStorage.provider K

def fillingNode (K : KindLayout) (id : Nat) {arity : Nat} (bindings : Fin arity → ContainerID)
    (access : Fin arity → Access) (distinct : Function.Injective bindings) :
    PipelineNode Unit Unit K Bytes where
  id := id
  task := .pipe (fillingPipe K access) bindings distinct
  savepointRange := ⟨0, 0⟩
  pipeDependencies := []

def noKeys : KindLayout := ⟨fun _ => 0⟩

def readBinary : PipelineNode Unit Unit noKeys Bytes :=
  fillingNode noKeys 0 ![ "raw"] ![.write] (by decide)

def lift : PipelineNode Unit Unit noKeys Bytes :=
  fillingNode noKeys 1 ![ "raw", "lifted"] ![.read, .write] (by decide)

def decompile : PipelineNode Unit Unit noKeys Bytes :=
  fillingNode noKeys 2 ![ "lifted", "clift"] ![.read, .write] (by decide)

/-- Asked for `clift` alone, this node writes nothing of it and still wants `raw`. -/
def annotate : PipelineNode Unit Unit noKeys Bytes :=
  fillingNode noKeys 3 ![ "clift", "raw"] ![.read, .readWrite] (by decide)

def render : PipelineNode Unit Unit noKeys Bytes :=
  fillingNode noKeys 4 ![ "clift", "text"] ![.read, .write] (by decide)

/-- The task `lift` is the last to read `raw`, and `decompile` passes the request of
`annotate` on. -/
def annotatedPipeline : Pipeline Unit Unit noKeys Bytes where
  declarations := ["raw", "lifted", "clift", "text"]
  root := .node readBinary [.node lift [.node decompile [.node annotate [.node render []]]]]
  declared := by decide

def renderTarget : annotatedPipeline.Target where
  node :=
    { render with pipeDependencies := [("fill", 1), ("fill", 2), ("fill", 3), ("fill", 4)] }
  ancestors :=
    [{ annotate with pipeDependencies := [("fill", 1), ("fill", 2), ("fill", 3)] },
     { decompile with pipeDependencies := [("fill", 1), ("fill", 2)] },
     { lift with pipeDependencies := [("fill", 1)] }, readBinary]
  annotated := by
    refine ⟨_, .child (List.mem_cons_self ..) (.child (List.mem_cons_self ..)
      (.child (List.mem_cons_self ..) (.child (List.mem_cons_self ..) (.here ..)))), ?_⟩
    rfl

def textRequest : Requests (ObjectID noKeys) := Requests.none.set "text" [rootObject noKeys]

theorem fillingNode_keepsContract {K : KindLayout} {ns : List (PipelineNode Unit Unit K Bytes)}
    (h : ∀ n ∈ ns, (∃ name toSave, n.task = .savePoint name toSave) ∨
      ∃ (arity : Nat) (access : Fin arity → Access) (bindings : Fin arity → ContainerID)
      (distinct : Function.Injective bindings),
      n.task = .pipe (fillingPipe K access) bindings distinct) :
    (memoryEnvironment K).PipesKeepContracts ns := by
  intro n hn p bindings distinct htask
  rcases h n hn with ⟨name, toSave, htask'⟩ | ⟨arity, access, bindings', distinct', htask'⟩
  · rw [htask] at htask'
    cases htask'
  · rw [htask] at htask'
    cases htask'
    exact fillingPipe_contract _ _ access _

theorem not_runsCorrectly :
    ¬ ∀ (pipeline : Pipeline Unit Unit noKeys Bytes) (target : pipeline.Target)
        (requests : Requests (ObjectID noKeys)) (schedule : Schedule Unit Unit noKeys Bytes),
      (memoryEnvironment noKeys).PipesKeepContracts target.path →
      (memoryEnvironment noKeys).Coherent MemoryStorage.contents target.path
        MemoryStorage.empty →
      (memoryEnvironment noKeys).schedule MemoryStorage.empty pipeline.declarations target.node
        target.ancestors requests = some schedule →
      (memoryEnvironment noKeys).RunsCorrectly MemoryStorage.empty target.path requests
        schedule := by
  intro h
  have hbuilt : ((memoryEnvironment noKeys).schedule MemoryStorage.empty annotatedPipeline.declarations
      renderTarget.node renderTarget.ancestors textRequest).isSome = true := by decide
  obtain ⟨schedule, hschedule⟩ := Option.isSome_iff_exists.mp hbuilt
  have hfails : ((memoryEnvironment noKeys).schedule MemoryStorage.empty annotatedPipeline.declarations
      renderTarget.node renderTarget.ancestors textRequest).all (fun schedule =>
        ((memoryEnvironment noKeys).run schedule MemoryStorage.empty).toOption.isNone) = true := by
    decide
  rw [hschedule] at hfails
  have hcontract : (memoryEnvironment noKeys).PipesKeepContracts renderTarget.path := by
    refine fillingNode_keepsContract fun n hn => Or.inr ?_
    simp only [Pipeline.Target.path, renderTarget, List.mem_cons, List.not_mem_nil, or_false] at hn
    rcases hn with rfl | rfl | rfl | rfl | rfl <;> exact ⟨_, _, _, _, rfl⟩
  have hcoherent : (memoryEnvironment noKeys).Coherent MemoryStorage.contents renderTarget.path
      MemoryStorage.empty := by
    intro n above _ name toSave _ c _ o v hv
    cases hv
  obtain ⟨s, hrun, -⟩ := h annotatedPipeline renderTarget textRequest schedule hcontract hcoherent
    hschedule
  simp [hrun, Except.toOption] at hfails

/-- A pipeline whose savepoint has the object that its target reads. -/
def savedPipeline : Pipeline Unit Unit noKeys Bytes where
  declarations := ["raw", "text"]
  root := .node readBinary [.node ⟨1, .savePoint "initial" ["raw"], ⟨0, 0⟩, []⟩
    [.node (fillingNode noKeys 2 ![ "raw", "text"] ![.read, .write] (by decide)) []]]
  declared := by decide

def savedTarget : savedPipeline.Target where
  node := ⟨2, (fillingNode noKeys 2 ![ "raw", "text"] ![.read, .write] (by decide)).task, ⟨1, 1⟩,
    [("fill", 2)]⟩
  ancestors :=
    [⟨1, .savePoint "initial" ["raw"], ⟨1, 1⟩, []⟩, ⟨0, readBinary.task, ⟨0, 1⟩, []⟩]
  annotated := by
    refine ⟨_, .child (List.mem_cons_self ..) (.child (List.mem_cons_self ..) (.here ..)), ?_⟩
    rfl

def savedStorage : MemoryStorage noKeys :=
  MemoryStorage.empty.addObjects [] [(⟨1, "raw", ""⟩, [(rootObject noKeys, [])])]

theorem savedStorage_contents {location : ContainerLocation} {o : ObjectID noKeys} {v : Bytes}
    (h : savedStorage.contents location o = some v) :
    location.containerId = "raw" ∧ o = rootObject noKeys ∧ v = [] := by
  have hvalid : savedStorage.WellFormed := MemoryStorage.WellFormed.empty.addObjects _ _
  have hmem := hvalid.lookup_objects.mp h
  rw [savedStorage, MemoryStorage.view_addObjects] at hmem
  rcases StorageView.mem_foldl_storeOne_or _ hmem with hitem | hold
  · simp only [StorageView.items, List.flatMap_cons, List.flatMap_nil, List.map_cons, List.map_nil,
      List.append_nil, List.mem_singleton, Prod.mk.injEq] at hitem
    obtain ⟨rfl, rfl, rfl⟩ := hitem
    exact ⟨rfl, rfl, rfl⟩
  · simp [MemoryStorage.view_empty, StorageView.empty] at hold

theorem runsCorrectly_served :
    ∃ schedule, (memoryEnvironment noKeys).schedule savedStorage savedPipeline.declarations
        savedTarget.node savedTarget.ancestors textRequest = some schedule ∧
      (memoryEnvironment noKeys).RunsCorrectly savedStorage savedTarget.path textRequest schedule ∧
      (memoryEnvironment noKeys).RequestsStayLive savedStorage savedTarget.node
        savedTarget.ancestors textRequest := by
  have hcontract : (memoryEnvironment noKeys).PipesKeepContracts savedTarget.path := by
    refine fillingNode_keepsContract fun n hn => ?_
    simp only [Pipeline.Target.path, savedTarget, List.mem_cons, List.not_mem_nil, or_false] at hn
    rcases hn with rfl | rfl | rfl
    · exact Or.inr ⟨_, _, _, _, rfl⟩
    · exact Or.inl ⟨_, _, rfl⟩
    · exact Or.inr ⟨_, _, _, _, rfl⟩
  have hcoherent : (memoryEnvironment noKeys).Coherent MemoryStorage.contents savedTarget.path
      savedStorage := by
    intro n above hsuffix name toSave htask c _ o v hv
    obtain ⟨rfl, rfl, rfl⟩ : c = "raw" ∧ o = rootObject noKeys ∧ v = [] := savedStorage_contents hv
    simp only [Pipeline.Target.path, savedTarget, List.suffix_cons_iff, List.cons.injEq,
      List.suffix_nil, reduceCtorEq, or_false] at hsuffix
    rcases hsuffix with ⟨rfl, rfl⟩ | ⟨rfl, rfl⟩ | ⟨rfl, rfl⟩
    · cases htask
    · rfl
    · cases htask
  have hbuilt : ((memoryEnvironment noKeys).schedule savedStorage savedPipeline.declarations
      savedTarget.node savedTarget.ancestors textRequest).isSome = true := by decide
  obtain ⟨schedule, hschedule⟩ := Option.isSome_iff_exists.mp hbuilt
  have hright : (memoryEnvironment noKeys).RunsCorrectly savedStorage savedTarget.path textRequest
      schedule := by
    cases hschedule
    refine ⟨_, rfl, fun c o ho => ?_⟩
    by_cases hc : c = "text"
    · subst hc
      obtain rfl := List.mem_singleton.mp ho
      exact ⟨_, [], rfl, rfl, rfl⟩
    · simp [textRequest, hc] at ho
  exact ⟨schedule, hschedule, hright, (Environment.runsCorrectly_iff
    (MemoryStorage.provider_lawful noKeys) hcontract (MemoryStorage.WellFormed.empty.addObjects _ _)
    hcoherent hschedule).mp hright⟩

end Pypeline
