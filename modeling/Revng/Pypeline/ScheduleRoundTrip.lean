import Revng.Pypeline.ScheduleDocument

/-!
# Running a schedule that was read back

The schedule that is read back has the tasks of the written one, with the requests of the
containers that were written for each task.  It is run with the configuration that the
document carries.  What can differ is the following.

* The identifier of a savepoint covers the texts of all the pipes above it, and the document
  has only the texts of the pipes that have a task.
* A request to a pipe for a container that the pipe is not bound to is lost, so the caller is
  no longer the last reader of that container.

`roundTrips_iff` says that a schedule that runs to completion does the same after it was read
back exactly when neither of them happens.
-/

namespace Pypeline

variable {Model Kind α σ : Type} {K : KindLayout} [DecidableEq Kind]

/-! ## What a run does to the storage -/

/-- The accesses of a savepoint: the arguments of `add_objects` and those of every `get`. -/
structure StorageAccess (K : KindLayout) (α : Type) where
  dependencies : List (PipeDependencies K)
  stored : List (ContainerLocation × List (ObjectID K × α))
  loaded : List (ContainerLocation × List (ObjectID K))

def Environment.loadedObjects (E : Environment Model Kind K α σ) (t : ScheduledTask Model Kind K α)
    (toSave : List ContainerID) : List (ContainerLocation × List (ObjectID K)) :=
  toSave.filterMap fun c =>
    if (t.wanted c).isEmpty then none else some (E.location t.node c, t.wanted c)

def Environment.taskAccesses (E : Environment Model Kind K α σ) (t : ScheduledTask Model Kind K α)
    (s : RunState K α σ) : List (StorageAccess K α) :=
  match t.node.task with
  | .pipe .. => []
  | .savePoint _ toSave =>
      [⟨s.computedDependencies.filter (!·.isEmpty), E.savedObjects t toSave s.containers,
        E.loadedObjects t toSave⟩]

/-- The accesses of the tasks, one entry for each savepoint. -/
def Environment.accesses (E : Environment Model Kind K α σ) :
    List (ScheduledTask Model Kind K α) → RunState K α σ → List (StorageAccess K α)
  | [], _ => []
  | t :: dependencies, s =>
      Environment.accesses E dependencies s ++
        match E.runTasks dependencies s with
        | .ok s => E.taskAccesses t s
        | .error _ => []

/-- The containers that the caller reads. -/
def Schedule.requested (schedule : Schedule Model Kind K α) : List ContainerID :=
  match schedule.tasks with
  | [] => []
  | target :: _ => target.outgoing.keys.filter fun c => !(target.outgoing.get c).isEmpty

def Environment.runAccesses (E : Environment Model Kind K α σ)
    (schedule : Schedule Model Kind K α) (storage : σ) : List (StorageAccess K α) :=
  E.accesses (identifyDiscardable schedule.tasks schedule.requested)
    (schedule.initialState storage)

section Tasks

variable {E : Environment Model Kind K α σ} {t : ScheduledTask Model Kind K α}
  {s s' : RunState K α σ} {declarations : List ContainerID}

/-! ## One task -/

variable {containers : ContainerSet K α}

omit [DecidableEq Kind] in
theorem Requests.check_iff {r : Requests (ObjectID K)} :
    r.check containers = true ↔ ∀ c ∈ r.keys, ∃ container, containers c = some container ∧
      container.containsAll (r.get c) = true := by
  simp only [check, List.all_eq_true]
  refine forall₂_congr fun c _ => ?_
  cases containers c with
  | none => simp
  | some container => simp

omit [DecidableEq Kind] in
/-- What a task has done when it has run. -/
theorem Environment.runTask_ok_iff :
    E.runTask t s = .ok s' ↔
      t.incoming.check s.containers = true ∧
      (∀ c ∈ t.disposableContainers, (s.containers c).isSome = true) ∧
      ∃ s₁, E.runTaskImpl t s = .ok s₁ ∧ t.outgoing.check s₁.containers = true ∧
        s' = { s₁ with containers := dispose t.disposableContainers s₁.containers } := by
  unfold runTask
  constructor
  · intro h
    split at h
    · cases h
    next hcheck =>
      split at h
      · cases h
      next hdisposable =>
        split at h
        · cases h
        next s₁ himpl =>
          split at h
          next hout =>
            cases h
            exact ⟨by simpa using hcheck,
              by simpa [Option.isSome_iff_ne_none] using hdisposable, s₁, himpl, hout, rfl⟩
          · cases h
  · rintro ⟨hcheck, hdisposable, s₁, himpl, hout, rfl⟩
    have hall : (t.disposableContainers.all fun c => (s.containers c).isSome) = true :=
      List.all_eq_true.mpr hdisposable
    simp only [hcheck, hall, himpl, hout, Bool.not_true, Bool.false_eq_true, if_false, if_true]

omit [DecidableEq Kind] in
/-- Loading changes the containers of the savepoint only, and removes none. -/
theorem Environment.loadObjects_frame {saved : σ} {cs : List ContainerID} :
    ∀ {containers containers' : ContainerSet K α},
      E.loadObjects t saved cs containers = .ok containers' →
      ∀ c, (c ∉ cs → containers' c = containers c) ∧
        ((containers c).isSome = true → (containers' c).isSome = true) := by
  induction cs with
  | nil =>
    intro containers containers' h c
    cases h
    exact ⟨fun _ => rfl, id⟩
  | cons d rest ih =>
    intro containers containers' h c
    simp only [loadObjects] at h
    split at h
    · obtain ⟨hframe, hsome⟩ := ih h c
      exact ⟨fun hc => hframe (List.not_mem_of_not_mem_cons hc), hsome⟩
    · split at h
      · cases h
      · split at h
        · cases h
        next container hcontainer =>
          obtain ⟨hframe, hsome⟩ := ih h c
          refine ⟨fun hc => ?_, fun h => hsome ?_⟩
          · rw [hframe (List.not_mem_of_not_mem_cons hc),
              Function.update_of_ne (List.ne_of_not_mem_cons hc)]
          · by_cases hcd : c = d
            · subst hcd
              simp
            · rwa [Function.update_of_ne hcd]

variable {p : Pipe Model Kind K α} {bindings : Fin p.arity → ContainerID}

omit [DecidableEq Kind] in
theorem Environment.runPipe_ok_iff :
    E.runPipe t p bindings s = .ok s' ↔
      ∃ containers : Fin p.arity → Container K α,
        (∀ i, s.containers (bindings i) = some (containers i)) ∧
        ∃ output, output = p.run E.model ((E.configuration t.node.id).getD "") containers
            (fun i => t.incoming.get (bindings i)) (fun i => t.outgoing.get (bindings i)) ∧
          p.checkOutput output = true ∧
          s' = ⟨setAll bindings (fun i => some (output.containers i)) s.containers, s.storage,
            E.pipeDependencies t.node p bindings output :: s.computedDependencies⟩ := by
  unfold runPipe
  constructor
  · intro h
    split at h
    · cases h
    next containers hcontainers =>
      simp only at h
      split at h
      next hcheck =>
        cases h
        exact ⟨containers, allSome_eq_some_iff.mp hcontainers, _, rfl, hcheck, rfl⟩
      · cases h
  · rintro ⟨containers, hcontainers, output, rfl, hcheck, rfl⟩
    rw [allSome_eq_some_iff.mpr hcontainers]
    simp only [hcheck, if_true]

variable {toSave : List ContainerID}

omit [DecidableEq Kind] in
theorem Environment.runSavePoint_ok_iff :
    E.runSavePoint t toSave s = .ok s' ↔
      (∀ c ∈ t.incoming.keys ++ t.outgoing.keys, (s.containers c).isSome = true) ∧
      ∃ saved containers,
        E.provider.addObjects s.storage (s.computedDependencies.filter (!·.isEmpty))
          (E.savedObjects t toSave s.containers) = .ok saved ∧
        E.loadObjects t saved toSave s.containers = .ok containers ∧
        s' = ⟨containers, saved, []⟩ := by
  unfold runSavePoint
  constructor
  · intro h
    split at h
    next hkeys =>
      split at h
      · cases h
      next saved hsaved =>
        split at h
        · cases h
        next containers hload =>
          cases h
          exact ⟨List.all_eq_true.mp hkeys, saved, containers, hsaved, hload, rfl⟩
    · cases h
  · rintro ⟨hkeys, saved, containers, hsaved, hload, rfl⟩
    rw [if_pos (List.all_eq_true.mpr hkeys)]
    simp only [hsaved, hload]

/-! ## A task that was read back -/

omit [DecidableEq Kind] in
theorem ScheduledTask.restored_get (t : ScheduledTask Model Kind K α)
    (declarations : List ContainerID) (c : ContainerID) :
    (t.restored declarations).incoming.get c =
        (if c ∈ t.written declarations then t.incoming.get c else []) ∧
      (t.restored declarations).outgoing.get c =
        (if c ∈ t.written declarations then t.outgoing.get c else []) :=
  ⟨get_requestsOf _ c, get_requestsOf _ c⟩

variable {c : ContainerID}

omit [DecidableEq Kind] in
theorem ScheduledTask.mem_restored_keys :
    (c ∈ (t.restored declarations).incoming.keys ↔ c ∈ t.written declarations) ∧
      (c ∈ (t.restored declarations).outgoing.keys ↔ c ∈ t.written declarations) := by
  have hnames : ∀ f : ContainerID → List (ObjectID K),
      ((t.written declarations).map fun c => (c, f c)).map Prod.fst = t.written declarations := by
    intro f
    rw [List.map_map]
    exact List.map_id _
  constructor
  · rw [restored, keys_requestsOf, hnames]
  · rw [restored, keys_requestsOf, hnames]

omit [DecidableEq Kind] in
/-- The requests of the containers of the task come back. -/
theorem ScheduledTask.restored_get_argument
    (hargs : ∀ c ∈ t.node.argumentDeclarations, c ∈ declarations)
    (hc : c ∈ t.node.argumentDeclarations) :
    (t.restored declarations).incoming.get c = t.incoming.get c ∧
      (t.restored declarations).outgoing.get c = t.outgoing.get c := by
  obtain ⟨hin, hout⟩ := t.restored_get declarations c
  rw [hin, hout]
  by_cases hwritten : c ∈ t.written declarations
  · exact ⟨if_pos hwritten, if_pos hwritten⟩
  · -- Only a savepoint leaves one of its containers out, when nothing is requested there.
    have hnone : t.incoming.get c = [] ∧ t.outgoing.get c = [] := by
      unfold written at hwritten
      split at hwritten
      · exact absurd hc hwritten
      · simpa [hargs c hc, mentions] using hwritten
    rw [if_neg hwritten, if_neg hwritten]
    exact ⟨hnone.1.symm, hnone.2.symm⟩

omit [DecidableEq Kind] in
theorem ScheduledTask.argumentDeclarations_savePoint {name : String}
    (htask : t.node.task = .savePoint name toSave) : t.node.argumentDeclarations = toSave := by
  simp [PipelineNode.argumentDeclarations, PipelineNode.arguments, htask, Function.comp_def]

omit [DecidableEq Kind] in
theorem ScheduledTask.argumentDeclarations_pipe {distinct : Function.Injective bindings}
    (htask : t.node.task = .pipe p bindings distinct) :
    c ∈ t.node.argumentDeclarations ↔ ∃ i, bindings i = c := by
  simp [PipelineNode.argumentDeclarations, PipelineNode.arguments, htask]

/-- Two environments that differ in the configuration, and not in what the task sees of it:
the text of its pipe, or the identifier under which a savepoint keeps something. -/
structure Environment.SameConfiguration (E : Environment Model Kind K α σ)
    (configuration : Nat → Option String) (t : ScheduledTask Model Kind K α) : Prop where
  pipe : t.node.task.isSavePoint = false →
    (configuration t.node.id).getD "" = (E.configuration t.node.id).getD ""
  savePoint : ∀ name toSave, t.node.task = .savePoint name toSave →
    (∃ c ∈ toSave, t.mentions c = true) →
    t.node.configurationId E.hash E.setOrder configuration = E.configurationId t.node

omit [DecidableEq Kind] in
/-- A check passes on the requests that come back, as long as their containers exist. -/
theorem Requests.check_restored {r r' : Requests (ObjectID K)} (h : r.check containers = true)
    (hget : ∀ c ∈ r'.keys, r'.get c = r.get c)
    (hsome : ∀ c ∈ r'.keys, (containers c).isSome = true) : r'.check containers = true := by
  rw [check_iff] at h ⊢
  intro c hc
  obtain ⟨container, hcontainer⟩ := Option.isSome_iff_exists.mp (hsome c hc)
  refine ⟨container, hcontainer, ?_⟩
  rw [hget c hc]
  by_cases hkey : c ∈ r.keys
  · obtain ⟨container', hcontainer', hall⟩ := h c hkey
    rw [hcontainer] at hcontainer'
    cases hcontainer'
    exact hall
  · rw [r.get_eq_nil c hkey]
    rfl

/-- The environment of a schedule that was read back. -/
def Environment.withConfiguration (E : Environment Model Kind K α σ)
    (configuration : Nat → Option String) : Environment Model Kind K α σ :=
  { E with configuration := configuration }

def ScheduledTask.withDisposable (t : ScheduledTask Model Kind K α)
    (disposable : List ContainerID) : ScheduledTask Model Kind K α :=
  { t with disposableContainers := disposable }

variable {configuration : Nat → Option String} {disposable : List ContainerID}

omit [DecidableEq Kind] in
theorem Environment.SameConfiguration.withDisposable
    (hsame : E.SameConfiguration configuration t) (disposable : List ContainerID) :
    E.SameConfiguration configuration (t.withDisposable disposable) :=
  ⟨hsame.pipe, hsame.savePoint⟩

variable {t' : ScheduledTask Model Kind K α}

omit [DecidableEq Kind] in
theorem Environment.savedObjects_congr (hnode : t'.node = t.node)
    (hin : ∀ c ∈ toSave, t'.incoming.get c = t.incoming.get c)
    (hlocation : ∀ c ∈ toSave, t.mentions c = true →
      (E.withConfiguration configuration).location t.node c = E.location t.node c) :
    (E.withConfiguration configuration).savedObjects t' toSave containers =
      E.savedObjects t toSave containers := by
  refine List.filterMap_congr fun c hc => ?_
  rw [hin c hc]
  by_cases hempty : (t.incoming.get c).isEmpty = true
  · rw [if_pos hempty, if_pos hempty]
  · rw [if_neg hempty, if_neg hempty, hnode,
      hlocation c hc (by simp [ScheduledTask.mentions, hempty])]

omit [DecidableEq Kind] in
theorem ScheduledTask.mentions_of_wanted (h : (t.wanted c).isEmpty = false) :
    t.mentions c = true := by
  have hne : t.outgoing.get c ≠ [] := by
    intro hnil
    simp [wanted, hnil] at h
  simp [mentions, hne]

omit [DecidableEq Kind] in
theorem ScheduledTask.wanted_congr (hin : t'.incoming.get c = t.incoming.get c)
    (hout : t'.outgoing.get c = t.outgoing.get c) : t'.wanted c = t.wanted c := by
  rw [wanted, wanted, hin, hout]

omit [DecidableEq Kind] in
theorem Environment.loadedObjects_congr (hnode : t'.node = t.node)
    (hwanted : ∀ c ∈ toSave, t'.wanted c = t.wanted c)
    (hlocation : ∀ c ∈ toSave, t.mentions c = true →
      (E.withConfiguration configuration).location t.node c = E.location t.node c) :
    (E.withConfiguration configuration).loadedObjects t' toSave = E.loadedObjects t toSave := by
  refine List.filterMap_congr fun c hc => ?_
  rw [hwanted c hc]
  by_cases hempty : (t.wanted c).isEmpty = true
  · rw [if_pos hempty, if_pos hempty]
  · rw [if_neg hempty, if_neg hempty, hnode,
      hlocation c hc (t.mentions_of_wanted (by simpa using hempty))]

omit [DecidableEq Kind] in
theorem Environment.loadObjects_congr {saved : σ} (hnode : t'.node = t.node) {cs : List ContainerID}
    (hwanted : ∀ c ∈ cs, t'.wanted c = t.wanted c) (hlocation : ∀ c ∈ cs, t.mentions c = true →
      (E.withConfiguration configuration).location t.node c = E.location t.node c) :
    (E.withConfiguration configuration).loadObjects t' saved cs containers =
      E.loadObjects t saved cs containers := by
  induction cs generalizing containers with
  | nil => rfl
  | cons c rest ih =>
    have hrest := fun containers => @ih containers
      (fun d hd => hwanted d (List.mem_cons_of_mem _ hd))
      (fun d hd => hlocation d (List.mem_cons_of_mem _ hd))
    have hc := hwanted c (List.mem_cons_self ..)
    simp only [loadObjects]
    rw [show (t'.outgoing.get c).filter (fun o => !(t'.incoming.get c).contains o) =
        t'.wanted c from rfl, hc]
    change (if (t.wanted c).isEmpty then _ else _) = (if (t.wanted c).isEmpty then _ else _)
    by_cases hempty : (t.wanted c).isEmpty = true
    · rw [if_pos hempty, if_pos hempty, hrest]
    · rw [if_neg hempty, if_neg hempty, hnode,
        hlocation c (List.mem_cons_self ..) (t.mentions_of_wanted (by simpa using hempty))]
      simp only [hrest]
      rfl

omit [DecidableEq Kind] in
theorem Environment.SameConfiguration.location (hsame : E.SameConfiguration configuration t)
    {name : String} (htask : t.node.task = .savePoint name toSave) :
    ∀ c ∈ toSave, t.mentions c = true →
      (E.withConfiguration configuration).location t.node c = E.location t.node c := by
  intro c hc hmentions
  have hid := hsame.savePoint name toSave htask ⟨c, hc, hmentions⟩
  exact congrArg (ContainerLocation.mk _ _) hid

omit [DecidableEq Kind] in
/-- A pipe that was read back runs as before. -/
theorem Environment.runPipe_restored (hsame : E.SameConfiguration configuration t)
    (hargs : ∀ c ∈ t.node.argumentDeclarations, c ∈ declarations)
    {distinct : Function.Injective bindings} (htask : t.node.task = .pipe p bindings distinct)
    (h : E.runPipe t p bindings s = .ok s') :
    (E.withConfiguration configuration).runPipe
        ((t.restored declarations).withDisposable disposable) p bindings s =
      .ok s' := by
  obtain ⟨containers, hcontainers, output, houtput, hcheck, hs'⟩ := runPipe_ok_iff.mp h
  have htext := hsame.pipe (by rw [htask]; rfl)
  have hget := fun i => t.restored_get_argument hargs
    ((t.argumentDeclarations_pipe htask).mpr ⟨i, rfl⟩)
  refine runPipe_ok_iff.mpr ⟨containers, hcontainers, output, ?_, hcheck, ?_⟩
  · rw [houtput, ← htext]
    congr 1
    · funext i
      exact (hget i).1.symm
    · funext i
      exact (hget i).2.symm
  · have hid : (E.withConfiguration configuration).configurationId t.node =
        E.configurationId t.node := by
      simp only [configurationId, PipelineNode.configurationId, htask]
      exact congrArg E.hash htext
    rw [hs']
    simp only [pipeDependencies]
    exact congrArg (fun id => RunState.mk _ _ (PipeDependencies.mk _ _ id _ _ :: _)) hid.symm

omit [DecidableEq Kind] in
/-- A savepoint that was read back runs as before. -/
theorem Environment.runSavePoint_restored (hsame : E.SameConfiguration configuration t)
    (hargs : ∀ c ∈ t.node.argumentDeclarations, c ∈ declarations) {name : String}
    (htask : t.node.task = .savePoint name toSave) (h : E.runSavePoint t toSave s = .ok s') :
    (E.withConfiguration configuration).runSavePoint
        ((t.restored declarations).withDisposable disposable) toSave s =
      .ok s' := by
  obtain ⟨hkeys, saved, containers, hsaved, hload, rfl⟩ := runSavePoint_ok_iff.mp h
  have hsave := t.argumentDeclarations_savePoint htask
  have hget := fun c (hc : c ∈ toSave) => t.restored_get_argument hargs (hsave ▸ hc)
  have hlocation := hsame.location htask
  have hnode : ((t.restored declarations).withDisposable disposable).node = t.node := rfl
  refine runSavePoint_ok_iff.mpr ⟨fun c hc => ?_, saved, containers, ?_, ?_, rfl⟩
  · have hwritten : c ∈ t.written declarations := by
      rcases List.mem_append.mp hc with hc | hc
      · exact t.mem_restored_keys.1.mp hc
      · exact t.mem_restored_keys.2.mp hc
    refine hkeys c (List.mem_append.mpr ?_)
    by_contra hnone
    rw [not_or] at hnone
    have hmentions : t.mentions c = false := by
      simp [ScheduledTask.mentions, t.incoming.get_eq_nil c hnone.1,
        t.outgoing.get_eq_nil c hnone.2]
    simp [ScheduledTask.written, htask, hmentions] at hwritten
  · have hobjects : (E.withConfiguration configuration).savedObjects
        ((t.restored declarations).withDisposable disposable) toSave s.containers =
          E.savedObjects t toSave s.containers :=
      savedObjects_congr rfl (fun c hc => (hget c hc).1) hlocation
    rw [hobjects]
    exact hsaved
  · have hloads : (E.withConfiguration configuration).loadObjects
        ((t.restored declarations).withDisposable disposable) saved toSave s.containers =
          E.loadObjects t saved toSave s.containers :=
      loadObjects_congr hnode
        (fun c hc => ScheduledTask.wanted_congr (hget c hc).1 (hget c hc).2) hlocation
    rw [hloads]
    exact hload

omit [DecidableEq Kind] in
theorem Environment.taskAccesses_restored (hsame : E.SameConfiguration configuration t)
    (hargs : ∀ c ∈ t.node.argumentDeclarations, c ∈ declarations) (s : RunState K α σ)
    (disposable : List ContainerID) :
    (E.withConfiguration configuration).taskAccesses
        ((t.restored declarations).withDisposable disposable) s =
      E.taskAccesses t s := by
  have hnode : ((t.restored declarations).withDisposable disposable).node = t.node := rfl
  unfold taskAccesses
  rw [hnode]
  cases htask : t.node.task with
  | pipe p bindings distinct => rfl
  | savePoint name toSave =>
    have hsave := t.argumentDeclarations_savePoint htask
    have hget := fun c (hc : c ∈ toSave) => t.restored_get_argument hargs (hsave ▸ hc)
    have hlocation := hsame.location htask
    have hstored : (E.withConfiguration configuration).savedObjects
        ((t.restored declarations).withDisposable disposable) toSave
          s.containers = E.savedObjects t toSave s.containers :=
      savedObjects_congr rfl (fun c hc => (hget c hc).1) hlocation
    have hloaded : (E.withConfiguration configuration).loadedObjects
        ((t.restored declarations).withDisposable disposable) toSave =
          E.loadedObjects t toSave :=
      loadedObjects_congr rfl
        (fun c hc => ScheduledTask.wanted_congr (hget c hc).1 (hget c hc).2) hlocation
    simp only
    rw [hstored, hloaded]

omit [DecidableEq Kind] in
/-- The containers that were written for a task exist before and after it has run. -/
theorem Environment.isSome_of_written (h : E.runTaskImpl t s = .ok s')
    (hc : c ∈ t.written declarations) :
    (s.containers c).isSome = true ∧ (s'.containers c).isSome = true := by
  unfold runTaskImpl at h
  unfold ScheduledTask.written at hc
  cases htask : t.node.task with
  | pipe p bindings distinct =>
    simp only [htask] at h hc
    obtain ⟨i, rfl⟩ := (t.argumentDeclarations_pipe htask).mp hc
    obtain ⟨containers, hcontainers, output, -, -, rfl⟩ := runPipe_ok_iff.mp h
    refine ⟨by rw [hcontainers i]; rfl, ?_⟩
    simp only [setAll_apply distinct]
    rfl
  | savePoint name toSave =>
    simp only [htask] at h hc
    obtain ⟨hkeys, saved, containers, -, hload, rfl⟩ := runSavePoint_ok_iff.mp h
    have hbefore : (s.containers c).isSome = true := by
      refine hkeys c (List.mem_append.mpr ?_)
      by_contra hnone
      rw [not_or] at hnone
      simp [ScheduledTask.mentions, t.incoming.get_eq_nil c hnone.1,
        t.outgoing.get_eq_nil c hnone.2] at hc
    exact ⟨hbefore, (loadObjects_frame hload c).2 hbefore⟩

omit [DecidableEq Kind] in
/-- A task that was read back does what it did before. -/
theorem Environment.runTask_restored (hsame : E.SameConfiguration configuration t)
    (hargs : ∀ c ∈ t.node.argumentDeclarations, c ∈ declarations)
    (hdisposable : ∀ c, c ∈ disposable ↔ c ∈ t.disposableContainers)
    (h : E.runTask t s = .ok s') :
    (E.withConfiguration configuration).runTask
        ((t.restored declarations).withDisposable disposable) s = .ok s' := by
  obtain ⟨hin, hall, s₁, himpl, hout, rfl⟩ := runTask_ok_iff.mp h
  have hsome := fun c (hc : c ∈ t.written declarations) => isSome_of_written himpl hc
  refine runTask_ok_iff.mpr ⟨?_, fun c hc => hall c ((hdisposable c).mp hc), s₁, ?_, ?_, ?_⟩
  · refine Requests.check_restored hin (fun c hc => ?_)
      fun c hc => (hsome c (t.mem_restored_keys.1.mp hc)).1
    exact (t.restored_get declarations c).1.trans (if_pos (t.mem_restored_keys.1.mp hc))
  · unfold runTaskImpl at himpl ⊢
    have hnode : ((t.restored declarations).withDisposable disposable).node = t.node := rfl
    rw [hnode]
    cases htask : t.node.task with
    | pipe p bindings distinct =>
      simp only [htask] at himpl
      exact runPipe_restored hsame hargs htask himpl
    | savePoint name toSave =>
      simp only [htask] at himpl
      exact runSavePoint_restored hsame hargs htask himpl
  · refine Requests.check_restored hout (fun c hc => ?_)
      fun c hc => (hsome c (t.mem_restored_keys.2.mp hc)).2
    exact (t.restored_get declarations c).2.trans (if_pos (t.mem_restored_keys.2.mp hc))
  · have hdispose : dispose t.disposableContainers s₁.containers =
        dispose disposable s₁.containers := by
      funext c
      simp only [dispose, List.contains_eq_mem, hdisposable c]
    rw [hdispose]
    rfl

omit [DecidableEq Kind] in
/-- A task leaves the containers alone that it is not bound to and does not empty. -/
theorem Environment.runTask_frame (h : E.runTask t s = .ok s')
    (hc : c ∉ t.node.argumentDeclarations) (hkept : c ∉ t.disposableContainers) :
    s'.containers c = s.containers c := by
  obtain ⟨-, -, s₁, himpl, -, rfl⟩ := runTask_ok_iff.mp h
  have hframe : s₁.containers c = s.containers c := by
    unfold runTaskImpl at himpl
    cases htask : t.node.task with
    | pipe p bindings distinct =>
      simp only [htask] at himpl
      obtain ⟨containers, -, output, -, -, rfl⟩ := runPipe_ok_iff.mp himpl
      exact setAll_of_ne fun i hi => hc ((t.argumentDeclarations_pipe htask).mpr ⟨i, hi⟩)
    | savePoint name toSave =>
      simp only [htask] at himpl
      obtain ⟨-, saved, containers, -, hload, rfl⟩ := runSavePoint_ok_iff.mp himpl
      rw [t.argumentDeclarations_savePoint htask] at hc
      exact (loadObjects_frame hload c).1 hc
  simpa [dispose, hkept] using hframe

/-! ## Whole runs -/

/-- Going up, no task reads the container before one that overwrites it. -/
def UnreadUntilOverwritten (c : ContainerID) : List (ScheduledTask Model Kind K α) → Prop
  | [] => True
  | t :: dependencies =>
      ¬ t.node.Reads c ∧ (¬ t.node.Overwrites c → UnreadUntilOverwritten c dependencies)

omit [DecidableEq Kind] in
theorem identifyDiscardable_cons (t : ScheduledTask Model Kind K α)
    (dependencies : List (ScheduledTask Model Kind K α)) (readers : List ContainerID) :
    identifyDiscardable (t :: dependencies) readers =
      t.withDisposable (t.node.arguments.foldl markArgument (readers, [])).2 ::
        identifyDiscardable dependencies (t.node.arguments.foldl markArgument (readers, [])).1 :=
  rfl

variable {initial : RunState K α σ}

omit [DecidableEq Kind] in
theorem Environment.runTasks_cons_ok_iff {dependencies : List (ScheduledTask Model Kind K α)} :
    E.runTasks (t :: dependencies) initial = .ok s' ↔
      ∃ s, E.runTasks dependencies initial = .ok s ∧ E.runTask t s = .ok s' := by
  rw [runTasks]
  cases E.runTasks dependencies initial with
  | error e => simp
  | ok s => simp

variable {ts : List (ScheduledTask Model Kind K α)}

omit [DecidableEq Kind] in
/-- The tasks that were read back run as before.  A container that has lost a reader is not
read before it is overwritten, so the same containers are emptied. -/
theorem Environment.runTasks_restored :
    ∀ {readers readers' : List ContainerID} {s : RunState K α σ},
      (∀ t ∈ ts, E.SameConfiguration configuration t) →
      (∀ t ∈ ts, ∀ c ∈ t.node.argumentDeclarations, c ∈ declarations) →
      (∀ c ∈ readers', c ∈ readers) →
      (∀ c ∈ readers, c ∉ readers' → UnreadUntilOverwritten c ts) →
      E.runTasks (identifyDiscardable ts readers) initial = .ok s →
      (E.withConfiguration configuration).runTasks
          (identifyDiscardable (ts.map (ScheduledTask.restored declarations)) readers') initial =
        .ok s ∧
      (E.withConfiguration configuration).accesses
          (identifyDiscardable (ts.map (ScheduledTask.restored declarations)) readers') initial =
        E.accesses (identifyDiscardable ts readers) initial := by
  induction ts with
  | nil =>
    intro readers readers' s _ _ _ _ h
    exact ⟨h, rfl⟩
  | cons t dependencies ih =>
    intro readers readers' s hsame hargs hsub hlost h
    rw [identifyDiscardable_cons] at h
    obtain ⟨s₀, hrest, hrun⟩ := runTasks_cons_ok_iff.mp h
    have hmark := fun c =>
      mem_markArguments t.node (fun c => (Iff.rfl : c ∈ readers ↔ c ∈ readers)) c
    have hmark' := fun c =>
      mem_markArguments t.node (fun c => (Iff.rfl : c ∈ readers' ↔ c ∈ readers')) c
    have hdisposable : ∀ c, c ∈ (t.node.arguments.foldl markArgument (readers', [])).2 ↔
        c ∈ (t.node.arguments.foldl markArgument (readers, [])).2 := by
      intro c
      rw [(hmark c).2, (hmark' c).2]
      refine and_congr_right fun hread => not_congr ⟨hsub c, fun hc => ?_⟩
      by_contra hnot
      exact (hlost c hc hnot).1 hread
    have hsub' : ∀ c ∈ (t.node.arguments.foldl markArgument (readers', [])).1,
        c ∈ (t.node.arguments.foldl markArgument (readers, [])).1 := by
      intro c hc
      obtain ⟨hover, hlive⟩ := (hmark' c).1.mp hc
      exact (hmark c).1.mpr ⟨hover, hlive.imp_right (hsub c)⟩
    have hlost' : ∀ c ∈ (t.node.arguments.foldl markArgument (readers, [])).1,
        c ∉ (t.node.arguments.foldl markArgument (readers', [])).1 →
        UnreadUntilOverwritten c dependencies := by
      intro c hc hnot
      obtain ⟨hover, hlive⟩ := (hmark c).1.mp hc
      have hunread : ¬ t.node.Reads c ∧ c ∉ readers' := by
        rw [(hmark' c).1, PipelineNode.liveBefore, not_and, not_or] at hnot
        exact hnot hover
      exact (hlost c (hlive.resolve_left hunread.1) hunread.2).2 hover
    obtain ⟨hrest', haccesses⟩ := ih (fun t ht => hsame t (List.mem_cons_of_mem _ ht))
      (fun t ht => hargs t (List.mem_cons_of_mem _ ht)) hsub' hlost' hrest
    have hsame := (hsame t (List.mem_cons_self ..)).withDisposable
      (t.node.arguments.foldl markArgument (readers, [])).2
    have hargs := hargs t (List.mem_cons_self ..)
    have hrun' := runTask_restored hsame hargs hdisposable hrun
    have haccess := taskAccesses_restored hsame hargs s₀
    rw [List.map_cons, identifyDiscardable_cons]
    refine ⟨runTasks_cons_ok_iff.mpr ⟨s₀, hrest', hrun'⟩, ?_⟩
    have hnode : (t.restored declarations).node = t.node := rfl
    rw [identifyDiscardable_cons, accesses, accesses]
    simp only [hnode, hrest, hrest', haccesses]
    exact congrArg _ (haccess _)

/-! ## What is lost shows -/

omit [DecidableEq Kind] in
theorem Environment.savedObjects_configurationId {entry : ContainerLocation × List (ObjectID K × α)}
    (h : entry ∈ E.savedObjects t toSave containers) :
    entry.1.configurationId = E.configurationId t.node := by
  obtain ⟨c, -, hc⟩ := List.mem_filterMap.mp h
  split at hc
  · cases hc
  · obtain ⟨container, -, rfl⟩ := Option.map_eq_some_iff.mp hc
    rfl

omit [DecidableEq Kind] in
theorem Environment.loadedObjects_configurationId {entry : ContainerLocation × List (ObjectID K)}
    (h : entry ∈ E.loadedObjects t toSave) :
    entry.1.configurationId = E.configurationId t.node := by
  obtain ⟨c, -, hc⟩ := List.mem_filterMap.mp h
  split at hc
  · cases hc
  · cases hc
    rfl

omit [DecidableEq Kind] in
/-- A savepoint of which something is requested accesses the storage under its
identifier. -/
theorem Environment.exists_access (hrun : E.runTask t s = .ok s') (hc : c ∈ toSave)
    (hmentions : t.mentions c = true) :
    (∃ entry, entry ∈ E.savedObjects t toSave s.containers) ∨
      ∃ entry, entry ∈ E.loadedObjects t toSave := by
  obtain ⟨hin, -⟩ := runTask_ok_iff.mp hrun
  by_cases hincoming : t.incoming.get c = []
  · have hwanted : t.wanted c = t.outgoing.get c := by
      simp [ScheduledTask.wanted, hincoming]
    have hne : (t.wanted c).isEmpty = false := by
      rw [hwanted]
      simpa [ScheduledTask.mentions, hincoming] using hmentions
    refine Or.inr ⟨(E.location t.node c, t.wanted c), List.mem_filterMap.mpr ⟨c, hc, ?_⟩⟩
    rw [hne]
    rfl
  · have hkey : c ∈ t.incoming.keys := by
      by_contra hnot
      exact hincoming (t.incoming.get_eq_nil c hnot)
    obtain ⟨container, hcontainer, -⟩ := Requests.check_iff.mp hin c hkey
    refine Or.inl ⟨(E.location t.node c, container.serialize (t.incoming.get c)),
      List.mem_filterMap.mpr ⟨c, hc, ?_⟩⟩
    rw [hcontainer, if_neg (by simpa using hincoming)]
    rfl

omit [DecidableEq Kind] in
theorem Environment.length_taskAccesses (E : Environment Model Kind K α σ)
    (t : ScheduledTask Model Kind K α) (s : RunState K α σ) :
    (E.taskAccesses t s).length = if t.node.task.isSavePoint then 1 else 0 := by
  unfold taskAccesses
  cases t.node.task with
  | pipe p bindings distinct => rfl
  | savePoint name toSave => rfl

omit [DecidableEq Kind] in
/-- Runs with the same accesses have used the same identifiers. -/
theorem Environment.configurationId_of_accesses :
    ∀ {readers readers' : List ContainerID} {s s' : RunState K α σ},
      E.runTasks (identifyDiscardable ts readers) initial = .ok s →
      (E.withConfiguration configuration).runTasks
          (identifyDiscardable (ts.map (ScheduledTask.restored declarations)) readers') initial =
        .ok s' →
      (E.withConfiguration configuration).accesses
          (identifyDiscardable (ts.map (ScheduledTask.restored declarations)) readers') initial =
        E.accesses (identifyDiscardable ts readers) initial →
      ∀ t ∈ ts, ∀ name toSave, t.node.task = .savePoint name toSave →
        (∃ c ∈ toSave, t.mentions c = true) →
        t.node.configurationId E.hash E.setOrder configuration = E.configurationId t.node := by
  induction ts with
  | nil =>
    intro readers readers' s s' _ _ _ t ht
    cases ht
  | cons t dependencies ih =>
    intro readers readers' s s' hrun hrun' haccesses u hu name toSave htask hmentions
    rw [List.map_cons, identifyDiscardable_cons] at hrun' haccesses
    rw [identifyDiscardable_cons] at hrun haccesses
    obtain ⟨s₀, hrest, hone⟩ := runTasks_cons_ok_iff.mp hrun
    obtain ⟨s₀', hrest', -⟩ := runTasks_cons_ok_iff.mp hrun'
    simp only [accesses, hrest, hrest'] at haccesses
    obtain ⟨hdependencies, hlast⟩ := List.append_inj' haccesses (by
      rw [length_taskAccesses, length_taskAccesses]
      rfl)
    rcases List.mem_cons.mp hu with rfl | hu
    · obtain ⟨c, hc, hmentions⟩ := hmentions
      have htask' : ((u.restored declarations).withDisposable
          ((u.restored declarations).node.arguments.foldl markArgument (readers', [])).2).node.task =
            .savePoint name toSave := htask
      have htask'' : (u.withDisposable
          (u.node.arguments.foldl markArgument (readers, [])).2).node.task =
            .savePoint name toSave := htask
      simp only [taskAccesses, htask', htask'', List.cons.injEq, StorageAccess.mk.injEq,
        and_true] at hlast
      obtain ⟨-, hstored, hloaded⟩ := hlast
      rcases exists_access hone hc hmentions with ⟨entry, he⟩ | ⟨entry, he⟩
      · have hid := savedObjects_configurationId he
        rw [← hstored] at he
        exact (savedObjects_configurationId he).symm.trans hid
      · have hid := loadedObjects_configurationId he
        rw [← hloaded] at he
        exact (loadedObjects_configurationId he).symm.trans hid
    · exact ih hrest hrest' hdependencies u hu name toSave htask hmentions

omit [DecidableEq Kind] in
theorem PipelineNode.mem_argumentDeclarations {n : PipelineNode Model Kind K α} :
    c ∈ n.argumentDeclarations ↔ n.Reads c ∨ n.Overwrites c := by
  simp only [argumentDeclarations, List.mem_map]
  constructor
  · rintro ⟨a, ha, rfl⟩
    cases haccess : a.access with
    | read => exact Or.inl ⟨a, ha, rfl, by rw [haccess]; rfl⟩
    | write => exact Or.inr ⟨a, ha, rfl, haccess⟩
    | readWrite => exact Or.inl ⟨a, ha, rfl, by rw [haccess]; rfl⟩
  · rintro (⟨a, ha, hc, -⟩ | ⟨a, ha, hc, -⟩)
    · exact ⟨a, ha, hc⟩
    · exact ⟨a, ha, hc⟩

omit [DecidableEq Kind] in
theorem unreadUntilOverwritten_of_unbound (h : ∀ t ∈ ts, c ∉ t.node.argumentDeclarations) :
    UnreadUntilOverwritten c ts := by
  induction ts with
  | nil => trivial
  | cons t dependencies ih =>
    have hunbound := h t (List.mem_cons_self ..)
    rw [PipelineNode.mem_argumentDeclarations, not_or] at hunbound
    exact ⟨hunbound.1, fun _ => ih fun t' ht' => h t' (List.mem_cons_of_mem _ ht')⟩

omit [DecidableEq Kind] in
theorem unreadUntilOverwritten_restored :
    UnreadUntilOverwritten c (ts.map (ScheduledTask.restored declarations)) ↔
      UnreadUntilOverwritten c ts := by
  induction ts with
  | nil => exact Iff.rfl
  | cons t dependencies ih => exact and_congr_right fun _ => imp_congr_right fun _ => ih

omit [DecidableEq Kind] in
/-- A container without readers is empty after a task that has read it, until it is
overwritten. -/
theorem Environment.emptied_of_read :
    ∀ {readers : List ContainerID} {s : RunState K α σ}, c ∉ readers →
      ¬ UnreadUntilOverwritten c ts →
      E.runTasks (identifyDiscardable ts readers) initial = .ok s →
      ∀ container, s.containers c = some container → container = Container.empty := by
  induction ts with
  | nil =>
    intro readers s _ hread
    exact absurd trivial hread
  | cons t dependencies ih =>
    intro readers s hc hread h
    have hmark := mem_markArguments t.node (fun c => (Iff.rfl : c ∈ readers ↔ c ∈ readers)) c
    rw [identifyDiscardable_cons] at h
    obtain ⟨s₀, hrest, hrun⟩ := runTasks_cons_ok_iff.mp h
    by_cases hreads : t.node.Reads c
    · exact (runTask_eq_ok hrun).2 c (hmark.2.mpr ⟨hreads, hc⟩)
    · have hskip : ¬ t.node.Overwrites c ∧ ¬ UnreadUntilOverwritten c dependencies := by
        rw [UnreadUntilOverwritten, not_and, Classical.not_imp] at hread
        exact hread hreads
      have hunbound : c ∉ t.node.argumentDeclarations := by
        rw [PipelineNode.mem_argumentDeclarations, not_or]
        exact ⟨hreads, hskip.1⟩
      rw [runTask_frame hrun hunbound fun hd => hreads (hmark.2.mp hd).1]
      refine ih (fun hlive => ?_) hskip.2 hrest
      obtain ⟨-, hlive⟩ := hmark.1.mp hlive
      exact hlive.elim hreads hc

end Tasks

/-! ## The round trip -/

section Schedules

variable {E : Environment Model Kind K α σ} {text : ObjectText K} {storage : σ}
  {pipeline : Pipeline Model Kind K α} {target : pipeline.Target}
  {requests : Requests (ObjectID K)} {schedule : Schedule Model Kind K α}

/-- When the schedule runs to completion, the one that is read back does too.  It makes the
same accesses to the storage and leaves the same contents in the requested containers. -/
def Environment.RoundTrips (E : Environment Model Kind K α σ) (text : ObjectText K)
    (pipeline : Pipeline Model Kind K α) (storage : σ) (schedule : Schedule Model Kind K α) :
    Prop :=
  ∀ s, E.run schedule storage = .ok s →
    ∃ schedule' s',
      deserializeSchedule text pipeline.walk pipeline.declarations (E.serialize text schedule) =
        some schedule' ∧
      (E.withConfiguration (E.serialize text schedule).configuration).run schedule' storage =
        .ok s' ∧
      (E.withConfiguration (E.serialize text schedule).configuration).runAccesses schedule'
        storage = E.runAccesses schedule storage ∧
      ∀ c ∈ schedule.requested, s'.containers c = s.containers c

/-- Every savepoint that stores or loads something has the same identifier without the texts
of the pipes that have no task. -/
def Environment.KeepsIdentifiers (E : Environment Model Kind K α σ)
    (schedule : Schedule Model Kind K α) : Prop :=
  ∀ t ∈ schedule.tasks, ∀ name toSave, t.node.task = .savePoint name toSave →
    (∃ c ∈ toSave, t.mentions c = true) →
    t.node.configurationId E.hash E.setOrder (E.scheduledConfiguration schedule.tasks) =
      E.configurationId t.node

/-- When the target is a pipe, a requested container that it is not bound to is not read above
before it is overwritten. -/
def Schedule.KeepsReaders (schedule : Schedule Model Kind K α) : Prop :=
  ∀ t dependencies, schedule.tasks = t :: dependencies → t.node.task.isSavePoint = false →
    ∀ c, t.outgoing.get c ≠ [] → c ∉ t.node.argumentDeclarations →
      UnreadUntilOverwritten c schedule.tasks

variable {t : ScheduledTask Model Kind K α}

variable {dependencies : List (ScheduledTask Model Kind K α)}

omit [DecidableEq Kind] in
theorem Schedule.mem_requested (htasks : schedule.tasks = t :: dependencies) {c : ContainerID} :
    c ∈ schedule.requested ↔ t.outgoing.get c ≠ [] := by
  rw [requested, htasks]
  exact Requests.mem_keys_minimize

omit [DecidableEq Kind] in
theorem Environment.run_ok_iff {s : RunState K α σ} :
    E.run schedule storage = .ok s ↔ schedule.tasks.all E.checkPrecondition = true ∧
      E.runTasks (identifyDiscardable schedule.tasks schedule.requested)
        (schedule.initialState storage) = .ok s := by
  unfold run
  split
  next hall => exact ⟨fun h => ⟨hall, h⟩, fun h => h.2⟩
  next hall =>
    constructor
    · intro h
      cases h
    · exact fun h => absurd h.1 hall

/-- The schedule that is read back. -/
def Schedule.restored (schedule : Schedule Model Kind K α) : Schedule Model Kind K α :=
  ⟨schedule.declarations, schedule.tasks.map (ScheduledTask.restored schedule.declarations)⟩

omit [DecidableEq Kind] in
theorem Environment.all_checkPrecondition_restored (configuration : Nat → Option String)
    (h : schedule.tasks.all E.checkPrecondition = true) :
    schedule.restored.tasks.all (E.withConfiguration configuration).checkPrecondition = true := by
  rw [Schedule.restored, List.all_map]
  exact h

omit [DecidableEq Kind] in
theorem Environment.scheduledConfiguration_pipe {tasks : List (ScheduledTask Model Kind K α)}
    (ht : t ∈ tasks) (hpipe : t.node.task.isSavePoint = false) :
    (E.scheduledConfiguration tasks t.node.id).getD "" = (E.configuration t.node.id).getD "" := by
  have hany : (tasks.any fun u => u.node.id == t.node.id && !u.node.task.isSavePoint) = true :=
    List.any_eq_true.mpr ⟨t, ht, by simp [hpipe]⟩
  rw [scheduledConfiguration, if_pos hany]
  rfl

omit [DecidableEq Kind] in
/-- The requests for the target that come back. -/
theorem Schedule.mem_requested_restored (htasks : schedule.tasks = t :: dependencies)
    {c : ContainerID} :
    c ∈ schedule.restored.requested ↔
      c ∈ schedule.requested ∧ c ∈ t.written schedule.declarations := by
  have hrestored : schedule.restored.tasks = t.restored schedule.declarations ::
      dependencies.map (ScheduledTask.restored schedule.declarations) := by
    rw [restored, htasks]
    rfl
  rw [mem_requested hrestored, mem_requested htasks, (t.restored_get schedule.declarations c).2]
  by_cases hc : c ∈ t.written schedule.declarations
  · simp [hc]
  · simp [hc]

omit [DecidableEq Kind] in
/-- The target leaves requested objects in their containers. -/
theorem Environment.requested_ne_empty {s : RunState K α σ}
    (htasks : schedule.tasks = t :: dependencies)
    (hrun : E.runTasks (identifyDiscardable schedule.tasks schedule.requested)
      (schedule.initialState storage) = .ok s) {c : ContainerID} (hc : c ∈ schedule.requested) :
    ∃ container, s.containers c = some container ∧ container ≠ Container.empty := by
  have hne := (Schedule.mem_requested htasks).mp hc
  have hmark := mem_markArguments t.node
    (fun c => (Iff.rfl : c ∈ schedule.requested ↔ c ∈ schedule.requested)) c
  rw [htasks, identifyDiscardable_cons] at hrun
  obtain ⟨s₀, -, hrun⟩ := runTasks_cons_ok_iff.mp hrun
  obtain ⟨-, -, s₁, -, hout, rfl⟩ := runTask_ok_iff.mp hrun
  have hkey : c ∈ t.outgoing.keys := by
    by_contra hnot
    exact hne (t.outgoing.get_eq_nil c hnot)
  obtain ⟨container, hcontainer, hall⟩ := Requests.check_iff.mp hout c hkey
  refine ⟨container, ?_, ?_⟩
  · have hkept : c ∉ (t.node.arguments.foldl markArgument (schedule.requested, [])).2 :=
      fun hd => (hmark.2.mp hd).2 hc
    simpa [dispose, ScheduledTask.withDisposable, hkept] using hcontainer
  · rintro rfl
    obtain ⟨o, ho⟩ := List.exists_mem_of_ne_nil _ hne
    cases List.all_eq_true.mp hall o ho

/-- A schedule that runs to completion does the same after it was written and read back
exactly when its savepoints keep their identifiers and the requested containers their
readers. -/
theorem Environment.roundTrips_iff (hnumbered : pipeline.Numbered)
    (hschedule : E.schedule storage pipeline.declarations target.node target.ancestors requests =
      some schedule) {s : RunState K α σ} (hrun : E.run schedule storage = .ok s) :
    E.RoundTrips text pipeline storage schedule ↔
      E.KeepsIdentifiers schedule ∧ schedule.KeepsReaders := by
  obtain ⟨t, -, rest, htasks, -, -, -, -, hdeclared⟩ := schedule_cases hschedule
  have hargs : ∀ u ∈ schedule.tasks, ∀ c ∈ u.node.argumentDeclarations,
      c ∈ schedule.declarations := by
    intro u hu c hc
    exact (hdeclared c).mpr ⟨target.declared (schedule_node_mem hschedule hu) hc, u, hu, hc⟩
  have hread : deserializeSchedule text pipeline.walk pipeline.declarations
      (E.serialize text schedule) = some schedule.restored := by
    refine deserialize_serialize text E (by rw [htasks]; exact List.cons_ne_nil _ _)
      (fun u hu => hnumbered.getElem?_id (target.mem_walk (schedule_node_mem hschedule hu)))
      fun c hc => ((hdeclared c).mp hc).1
  obtain ⟨hall, htasksRun⟩ := run_ok_iff.mp hrun
  have hlost := fun c => Schedule.mem_requested_restored htasks (c := c)
  rw [RoundTrips, configuration_serialize]
  constructor
  · intro h
    obtain ⟨schedule', s', hread', hrun', haccesses, hcontainers⟩ := h s hrun
    obtain rfl : schedule.restored = schedule' := Option.some.inj (hread.symm.trans hread')
    obtain ⟨-, htasksRun'⟩ := run_ok_iff.mp hrun'
    refine ⟨configurationId_of_accesses htasksRun htasksRun' haccesses, ?_⟩
    intro u dependencies hu hpipe c hne hunbound
    by_contra hread
    have hc : c ∈ schedule.requested := (Schedule.mem_requested hu).mpr hne
    obtain rfl : t = u := (List.cons.inj (htasks.symm.trans hu)).1
    have hnot : c ∉ schedule.restored.requested := by
      intro hkept
      have hwritten := ((hlost c).mp hkept).2
      cases htask : t.node.task with
      | pipe p bindings distinct =>
          simp only [ScheduledTask.written, htask] at hwritten
          exact hunbound hwritten
      | savePoint name toSave =>
          rw [htask] at hpipe
          cases hpipe
    have hnodes : ¬ UnreadUntilOverwritten c schedule.restored.tasks := by
      rw [Schedule.restored, unreadUntilOverwritten_restored]
      exact hread
    obtain ⟨container, hcontainer, hfull⟩ := requested_ne_empty htasks htasksRun hc
    exact hfull (emptied_of_read hnot hnodes htasksRun' container
      ((hcontainers c hc).trans hcontainer))
  · rintro ⟨hids, hreaders⟩ s₁ hrun₁
    obtain rfl : s = s₁ := Except.ok.inj (hrun.symm.trans hrun₁)
    have hsame : ∀ u ∈ schedule.tasks,
        E.SameConfiguration (E.scheduledConfiguration schedule.tasks) u :=
      fun u hu => ⟨scheduledConfiguration_pipe hu, hids u hu⟩
    have hunread : ∀ c ∈ schedule.requested, c ∉ schedule.restored.requested →
        UnreadUntilOverwritten c schedule.tasks := by
      intro c hc hnot
      have hwritten : c ∉ t.written schedule.declarations := fun h => hnot ((hlost c).mpr ⟨hc, h⟩)
      have hne := (Schedule.mem_requested htasks).mp hc
      cases htask : t.node.task with
      | pipe p bindings distinct =>
          refine hreaders t _ htasks (by rw [htask]; rfl) c hne fun hbound => hwritten ?_
          simpa only [ScheduledTask.written, htask] using hbound
      | savePoint name toSave =>
          refine unreadUntilOverwritten_of_unbound fun u hu hbound => hwritten ?_
          simp [ScheduledTask.written, htask, hargs u hu c hbound, ScheduledTask.mentions, hne]
    obtain ⟨hrun', haccesses⟩ := runTasks_restored hsame hargs
      (fun c hc => ((hlost c).mp hc).1) hunread htasksRun
    exact ⟨_, s, hread, run_ok_iff.mpr ⟨all_checkPrecondition_restored _ hall, hrun'⟩, haccesses,
      fun _ _ => rfl⟩

end Schedules

/-! ## Two documents -/

/-- Identifiers whose segments have no key, one character for each kind. -/
def kindText : ObjectText noKeys where
  serialize o := String.ofList (o.path.map fun s => Char.ofNat s.kind.toNat)
  deserialize x :=
    if h : x.toList.length ≤ objectIdMaxSize then
      ⟨x.toList.map fun c => ⟨UInt8.ofNat c.toNat, []⟩, by simp [Segment.Fits, noKeys],
        by simpa [Segment.toBytes, List.length_flatMap, Function.comp_def] using h⟩
    else rootObject noKeys
  deserialize_serialize o := by
    have hkeys : ∀ s ∈ o.path, s.key = [] := fun s hs => List.length_eq_zero_iff.mp (o.fits s hs)
    have hlength : o.path.length ≤ objectIdMaxSize := by
      refine Nat.le_trans ?_ o.size_le
      rw [List.length_flatMap, List.map_congr_left fun s hs => by
        rw [Segment.toBytes, hkeys s hs]]
      simp
    apply ObjectID.ext_path
    rw [dif_pos (by simpa using hlength)]
    simp only [String.toList_ofList, List.map_map]
    refine (List.map_congr_left fun s hs => ?_).trans (List.map_id _)
    have hbyte : s.kind.toNat < 256 := s.kind.toNat_lt
    have hchar : (Char.ofNat s.kind.toNat).toNat = s.kind.toNat := by
      have hvalid : s.kind.toNat.isValidChar := Or.inl (by omega)
      rw [Char.ofNat, dif_pos hvalid]
      rfl
    have hkey := hkeys s hs
    cases s
    simp_all

/-- The savepoint has the object that the target reads, under the text of `lift`. -/
def configuredPipeline : Pipeline Unit Unit noKeys Bytes where
  declarations := ["raw", "lifted", "clift"]
  root := .node readBinary [.node lift [.node ⟨2, .savePoint "lifted" ["lifted"], ⟨0, 0⟩, []⟩
    [.node { decompile with id := 3 } []]]]
  declared := by decide

def configuredTarget : configuredPipeline.Target where
  node := ⟨3, decompile.task, ⟨1, 1⟩, [("fill", 1), ("fill", 3)]⟩
  ancestors :=
    [⟨2, .savePoint "lifted" ["lifted"], ⟨1, 1⟩, [("fill", 1)]⟩,
     ⟨1, lift.task, ⟨0, 1⟩, [("fill", 1)]⟩, ⟨0, readBinary.task, ⟨0, 1⟩, []⟩]
  annotated := by
    refine ⟨_, .child (List.mem_cons_self ..) (.child (List.mem_cons_self ..)
      (.child (List.mem_cons_self ..) (.here ..))), ?_⟩
    rfl

def configuredEnvironment : Environment Unit Unit noKeys Bytes (MemoryStorage noKeys) :=
  { memoryEnvironment noKeys with configuration := fun pipe => if pipe = 1 then some "-O2" else none }

def configuredStorage : MemoryStorage noKeys :=
  MemoryStorage.empty.addObjects [] [(⟨1, "lifted", "-O2"⟩, [(rootObject noKeys, [])])]

def cliftRequest : Requests (ObjectID noKeys) := Requests.none.set "clift" [rootObject noKeys]

theorem not_roundTrips :
    ¬ ∀ (E : Environment Unit Unit noKeys Bytes (MemoryStorage noKeys)) (text : ObjectText noKeys)
        (pipeline : Pipeline Unit Unit noKeys Bytes) (target : pipeline.Target)
        (storage : MemoryStorage noKeys) (requests : Requests (ObjectID noKeys))
        (schedule : Schedule Unit Unit noKeys Bytes), pipeline.Numbered →
      E.schedule storage pipeline.declarations target.node target.ancestors requests =
        some schedule →
      E.RoundTrips text pipeline storage schedule := by
  intro h
  have hnumbered : configuredPipeline.Numbered := by
    unfold Pipeline.Numbered
    decide
  have hruns : (configuredEnvironment.schedule configuredStorage configuredPipeline.declarations
      configuredTarget.node configuredTarget.ancestors cliftRequest).any (fun schedule =>
        (configuredEnvironment.run schedule configuredStorage).toOption.isSome &&
        ((configuredEnvironment.withConfiguration
          (configuredEnvironment.scheduledConfiguration schedule.tasks)).run schedule.restored
            configuredStorage).toOption.isNone) = true := by decide
  obtain ⟨schedule, hschedule, hruns⟩ := (Option.any_eq_true _ _).mp hruns
  obtain ⟨hrun, hfails⟩ := Bool.and_eq_true_iff.mp hruns
  obtain ⟨s, hrun⟩ := Option.isSome_iff_exists.mp hrun
  have hrun : configuredEnvironment.run schedule configuredStorage = .ok s := by
    cases hresult : configuredEnvironment.run schedule configuredStorage with
    | error e =>
        rw [hresult] at hrun
        cases hrun
    | ok s' =>
        rw [hresult] at hrun
        exact congrArg Except.ok (Option.some.inj hrun)
  obtain ⟨schedule', s', hread, hrun', -⟩ :=
    h configuredEnvironment kindText configuredPipeline configuredTarget configuredStorage
      cliftRequest schedule hnumbered hschedule s hrun
  obtain ⟨t, -, rest, htasks, -, -, -, -, hdeclared⟩ := Environment.schedule_cases hschedule
  have hread' : deserializeSchedule kindText configuredPipeline.walk
      configuredPipeline.declarations (configuredEnvironment.serialize kindText schedule) =
        some schedule.restored :=
    deserialize_serialize kindText configuredEnvironment
      (by rw [htasks]; exact List.cons_ne_nil _ _)
      (fun u hu => hnumbered.getElem?_id
        (configuredTarget.mem_walk (Environment.schedule_node_mem hschedule hu)))
      fun c hc => ((hdeclared c).mp hc).1
  obtain rfl : schedule.restored = schedule' := Option.some.inj (hread'.symm.trans hread)
  rw [configuration_serialize] at hrun'
  rw [hrun'] at hfails
  cases hfails

theorem roundTrips_served :
    ∃ schedule, (memoryEnvironment noKeys).schedule savedStorage savedPipeline.declarations
        savedTarget.node savedTarget.ancestors textRequest = some schedule ∧
      (∃ s, (memoryEnvironment noKeys).run schedule savedStorage = .ok s) ∧
      (memoryEnvironment noKeys).RoundTrips kindText savedPipeline savedStorage schedule := by
  have hnumbered : savedPipeline.Numbered := by
    unfold Pipeline.Numbered
    decide
  have hbuilt : ((memoryEnvironment noKeys).schedule savedStorage savedPipeline.declarations
      savedTarget.node savedTarget.ancestors textRequest).isSome = true := by decide
  obtain ⟨schedule, hschedule⟩ := Option.isSome_iff_exists.mp hbuilt
  have hrun : ∃ s, (memoryEnvironment noKeys).run schedule savedStorage = .ok s := by
    cases hschedule
    exact ⟨_, rfl⟩
  obtain ⟨s, hrun⟩ := hrun
  refine ⟨schedule, hschedule, ⟨s, hrun⟩,
    (Environment.roundTrips_iff hnumbered hschedule hrun).mpr ⟨?_, ?_⟩⟩
  · -- Nothing is configured, so no text is lost.
    intro t _ name toSave htask _
    have htext : ∀ pipe, ((memoryEnvironment noKeys).scheduledConfiguration schedule.tasks
        pipe).getD "" = "" := by
      intro pipe
      rw [Environment.scheduledConfiguration]
      split <;> rfl
    simp only [Environment.configurationId, PipelineNode.configurationId, htask, htext]
    rfl
  · cases hschedule
    intro t dependencies htasks _ c hne hunbound
    obtain ⟨rfl, -⟩ := List.cons.inj htasks
    have hc : c = "text" := by
      by_contra hc
      exact hne (if_neg hc)
    exact absurd (by rw [hc]; decide) hunbound

end Pypeline
