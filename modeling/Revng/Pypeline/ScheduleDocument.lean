import Revng.Pypeline.ScheduleCorrect

/-!
# Schedules as documents

`Schedule.serialize` writes a schedule to a document that `Pipeline.deserialize_schedule`
reads back.  The tasks come in the order they run, each with the positions of its
dependencies.  A pipe is written with the requests of its own containers and with its
configuration text.  A savepoint is written with the requests of all the containers of the
schedule.

Requests that a pipe merely passes on are not in the document, and neither are the texts of
the pipes that have no task.  `deserialize_serialize` says what is read back.

The document stands for its YAML text.  Static configurations and the names of container
types are written too and never read.
-/

namespace Pypeline

variable {Model Kind α σ : Type} {K : KindLayout} [DecidableEq Kind]

/-! ## The document -/

/-- The requests of a container, with the objects as strings. -/
structure SerializedContainer where
  name : ContainerID
  incoming : List String
  outgoing : List String
deriving DecidableEq, Repr

inductive SerializedTask where
  | pipe (nodeId : Nat) (name : String) (dependencies : List Nat) (dynamicConfig : String)
      (args : List SerializedContainer)
  /-- Every container comes with the configuration identifier of the savepoint. -/
  | savePoint (nodeId : Nat) (dependencies : List Nat) (name : String) (id : SavepointID)
      (containers : List (SerializedContainer × ConfigurationId))
deriving DecidableEq, Repr

structure SerializedSchedule where
  containers : List ContainerID
  tasks : List SerializedTask
deriving DecidableEq, Repr

/-- `ObjectID.serialize` and `ObjectID.deserialize`, which converts the string back. -/
structure ObjectText (K : KindLayout) where
  serialize : ObjectID K → String
  deserialize : String → ObjectID K
  deserialize_serialize : ∀ o, deserialize (serialize o) = o

/-! ## The walk of the pipeline -/

mutual

/-- The walk of a tree below the root, given the dependencies of its predecessor.  The last
successor is visited first. -/
def PipelineTree.walkBelow (inherited : List (String × Nat)) :
    PipelineTree Model Kind K α → List (PipelineNode Model Kind K α)
  | .node n successors =>
      { n with pipeDependencies := inherited ++ n.ownPipe } ::
        walkChildren (inherited ++ n.ownPipe) successors

def PipelineTree.walkChildren (inherited : List (String × Nat)) :
    List (PipelineTree Model Kind K α) → List (PipelineNode Model Kind K α)
  | [] => []
  | t :: ts => walkChildren inherited ts ++ t.walkBelow inherited

end

/-- `walk_pipeline(stable=True)`, with the nodes as the constructor annotates them. -/
def Pipeline.walk (pipeline : Pipeline Model Kind K α) : List (PipelineNode Model Kind K α) :=
  match (pipeline.root.assignSavepointRanges 0).1 with
  | .node n successors =>
      { n with pipeDependencies := [] } :: PipelineTree.walkChildren [] successors

/-- The identifiers are those that the constructor gives. -/
def Pipeline.Numbered (pipeline : Pipeline Model Kind K α) : Prop :=
  pipeline.walk.map PipelineNode.id = List.range pipeline.walk.length

/-- The dependencies along a path that does not reach the root. -/
def annotateBelow (inherited : List (String × Nat)) :
    List (PipelineNode Model Kind K α) → List (PipelineNode Model Kind K α)
  | [] => []
  | n :: above =>
      let rest := annotateBelow inherited above
      let dependencies := (rest.head?.map (·.pipeDependencies)).getD inherited
      { n with pipeDependencies := dependencies ++ n.ownPipe } :: rest

omit [DecidableEq Kind] in
theorem annotateBelow_append (inherited : List (String × Nat))
    (path : List (PipelineNode Model Kind K α)) (n : PipelineNode Model Kind K α) :
    annotateBelow inherited (path ++ [n]) =
      annotateBelow (inherited ++ n.ownPipe) path ++
        [{ n with pipeDependencies := inherited ++ n.ownPipe }] := by
  induction path with
  | nil => rfl
  | cons m above ih =>
    simp only [List.cons_append, annotateBelow, ih]
    cases above with
    | nil => rfl
    | cons _ _ => rfl

omit [DecidableEq Kind] in
theorem withPipeDependencies_append (path : List (PipelineNode Model Kind K α))
    (root : PipelineNode Model Kind K α) :
    withPipeDependencies (path ++ [root]) =
      annotateBelow [] path ++ [{ root with pipeDependencies := [] }] := by
  induction path with
  | nil => rfl
  | cons n above ih =>
    obtain ⟨predecessor, above', habove⟩ :
        ∃ predecessor above', above ++ [root] = predecessor :: above' := by
      cases above with
      | nil => exact ⟨root, [], rfl⟩
      | cons m rest => exact ⟨m, rest ++ [root], rfl⟩
    rw [List.cons_append, habove, withPipeDependencies, ← habove, ih]
    cases above with
    | nil => rfl
    | cons _ _ => rfl

variable {n : PipelineNode Model Kind K α}

omit [DecidableEq Kind] in
theorem PipelineTree.mem_walkChildren {inherited : List (String × Nat)}
    {ts : List (PipelineTree Model Kind K α)} {t : PipelineTree Model Kind K α} (ht : t ∈ ts)
    (hn : n ∈ t.walkBelow inherited) : n ∈ walkChildren inherited ts := by
  induction ts with
  | nil => cases ht
  | cons t' ts ih =>
    rw [walkChildren, List.mem_append]
    rcases List.mem_cons.mp ht with rfl | ht
    · exact Or.inr hn
    · exact Or.inl (ih ht)

omit [DecidableEq Kind] in
/-- The walk of a tree visits its paths. -/
theorem PipelineTree.Ancestry.mem_walkBelow {t : PipelineTree Model Kind K α}
    {path : List (PipelineNode Model Kind K α)} (h : t.Ancestry path) :
    ∀ {inherited : List (String × Nat)}, ∀ n ∈ annotateBelow inherited path,
      n ∈ t.walkBelow inherited := by
  induction h with
  | here n successors =>
    intro inherited m hm
    obtain rfl := List.mem_singleton.mp hm
    exact List.mem_cons_self ..
  | child ht _ ih =>
    intro inherited m hm
    rw [annotateBelow_append, List.mem_append, List.mem_singleton] at hm
    rw [walkBelow, List.mem_cons]
    rcases hm with hm | rfl
    · exact Or.inr (mem_walkChildren ht (ih m hm))
    · exact Or.inl rfl

omit [DecidableEq Kind] in
theorem Pipeline.Target.mem_walk {pipeline : Pipeline Model Kind K α} (target : pipeline.Target)
    (hn : n ∈ target.path) : n ∈ pipeline.walk := by
  obtain ⟨nodes, hpath, hnodes⟩ := target.annotated
  rw [path, hnodes] at hn
  unfold walk
  generalize (pipeline.root.assignSavepointRanges 0).1 = tree at hpath
  cases hpath with
  | here =>
    obtain rfl := List.mem_singleton.mp hn
    exact List.mem_cons_self ..
  | child ht hpath =>
    rw [withPipeDependencies_append, List.mem_append, List.mem_singleton] at hn
    rcases hn with hn | rfl
    · exact List.mem_cons_of_mem _ (PipelineTree.mem_walkChildren ht (hpath.mem_walkBelow n hn))
    · exact List.mem_cons_self ..

omit [DecidableEq Kind] in
/-- The identifier of a node is its position in the walk. -/
theorem Pipeline.Numbered.getElem?_id {pipeline : Pipeline Model Kind K α} (h : pipeline.Numbered)
    (hn : n ∈ pipeline.walk) : pipeline.walk[n.id]? = some n := by
  obtain ⟨i, hi⟩ := List.mem_iff_getElem?.mp hn
  have hlt : i < pipeline.walk.length := (List.getElem?_eq_some_iff.mp hi).1
  have hid : (pipeline.walk.map PipelineNode.id)[i]? = some n.id := by
    rw [List.getElem?_map, hi]
    rfl
  rw [h, List.getElem?_range hlt, Option.some.injEq] at hid
  rw [← hid]
  exact hi

/-! ## Writing -/

def ScheduledTask.serializeContainer (text : ObjectText K) (t : ScheduledTask Model Kind K α)
    (c : ContainerID) : SerializedContainer :=
  ⟨c, (t.incoming.get c).map text.serialize, (t.outgoing.get c).map text.serialize⟩

/-- Something of the container is requested of the task or by it. -/
def ScheduledTask.mentions (t : ScheduledTask Model Kind K α) (c : ContainerID) : Bool :=
  !((t.incoming.get c).isEmpty && (t.outgoing.get c).isEmpty)

def Environment.serializeTask (E : Environment Model Kind K α σ) (text : ObjectText K)
    (declarations : List ContainerID) (t : ScheduledTask Model Kind K α)
    (dependencies : List Nat) : SerializedTask :=
  match t.node.task with
  | .pipe p _ _ =>
      .pipe t.node.id p.name dependencies ((E.configuration t.node.id).getD "")
        (t.node.argumentDeclarations.map (t.serializeContainer text))
  | .savePoint name _ =>
      .savePoint t.node.id dependencies name t.node.savepointRange.start
        ((declarations.filter t.mentions).map fun c =>
          (t.serializeContainer text c, E.configurationId t.node))

/-- The tasks in the order they run, each with the position of the one before it. -/
def Environment.serializeTasks (E : Environment Model Kind K α σ) (text : ObjectText K)
    (declarations : List ContainerID) :
    List (ScheduledTask Model Kind K α) → List SerializedTask
  | [] => []
  | t :: dependencies =>
      Environment.serializeTasks E text declarations dependencies ++
        [E.serializeTask text declarations t
          (if dependencies.isEmpty then [] else [dependencies.length - 1])]

/-- `Schedule.serialize` -/
def Environment.serialize (E : Environment Model Kind K α σ) (text : ObjectText K)
    (schedule : Schedule Model Kind K α) : SerializedSchedule :=
  ⟨schedule.declarations, E.serializeTasks text schedule.declarations schedule.tasks⟩

/-! ## Reading -/

/-- Assign the objects of containers one after the other. -/
def requestsOf (entries : List (ContainerID × List (ObjectID K))) : Requests (ObjectID K) :=
  entries.foldl (fun r e => r.set e.1 e.2) .none

def readIncoming (text : ObjectText K) (entries : List SerializedContainer) :
    Requests (ObjectID K) :=
  requestsOf (entries.map fun e => (e.name, e.incoming.map text.deserialize))

def readOutgoing (text : ObjectText K) (entries : List SerializedContainer) :
    Requests (ObjectID K) :=
  requestsOf (entries.map fun e => (e.name, e.outgoing.map text.deserialize))

/-- A task of the document without its dependencies.  `nodes` is the walk of the pipeline in
which the node identifiers are positions. -/
def deserializeTask (text : ObjectText K) (nodes : List (PipelineNode Model Kind K α))
    (declarations : List ContainerID) :
    SerializedTask → Option (ScheduledTask Model Kind K α)
  | .pipe nodeId name _ _ args =>
      match nodes[nodeId]? with
      | none => none
      | some n =>
          match n.task with
          | .pipe p _ _ =>
              if name = p.name ∧
                  (args.map SerializedContainer.name).isPrefixOf n.argumentDeclarations then
                some ⟨n, readIncoming text args, readOutgoing text args, []⟩
              else none
          | .savePoint .. => none
  | .savePoint nodeId _ name _ containers =>
      match nodes[nodeId]? with
      | none => none
      | some n =>
          match n.task with
          | .pipe .. => none
          | .savePoint name' _ =>
              if name = name' ∧ containers.all fun e => declarations.contains e.1.name then
                some ⟨n, readIncoming text (containers.map Prod.fst),
                  readOutgoing text (containers.map Prod.fst), []⟩
              else none

def SerializedTask.dependencies : SerializedTask → List Nat
  | .pipe _ _ dependencies _ _ => dependencies
  | .savePoint _ dependencies _ _ _ => dependencies

/-- Read the tasks in order.  `chains` has every task read so far with its dependencies, a
straight line. -/
def deserializeTasks (text : ObjectText K) (nodes : List (PipelineNode Model Kind K α))
    (declarations : List ContainerID) :
    List SerializedTask → List (List (ScheduledTask Model Kind K α)) →
      Option (List (List (ScheduledTask Model Kind K α)))
  | [], chains => some chains
  | task :: rest, chains =>
      match deserializeTask text nodes declarations task, task.dependencies with
      | some t, [] => deserializeTasks text nodes declarations rest (chains ++ [[t]])
      | some t, [i] =>
          match chains[i]? with
          | some chain => deserializeTasks text nodes declarations rest (chains ++ [t :: chain])
          | none => none
      | _, _ => none

/-- The configuration that the tasks are given. -/
def SerializedSchedule.configuration (document : SerializedSchedule) (pipe : Nat) :
    Option String :=
  document.tasks.reverse.findSome? fun
    | .pipe nodeId _ _ dynamicConfig _ => if nodeId = pipe then some dynamicConfig else none
    | .savePoint .. => none

/-- `Pipeline.deserialize_schedule` -/
def deserializeSchedule (text : ObjectText K) (nodes : List (PipelineNode Model Kind K α))
    (declarations : List ContainerID) (document : SerializedSchedule) :
    Option (Schedule Model Kind K α) :=
  if document.containers.all declarations.contains then
    match deserializeTasks text nodes declarations document.tasks [] with
    | some chains => chains.getLast?.map fun tasks => ⟨document.containers, tasks⟩
    | none => none
  else none

/-! ## What is read back -/

omit [DecidableEq Kind] in
theorem get_requestsOf (f : ContainerID → List (ObjectID K)) {cs : List ContainerID}
    (c : ContainerID) :
    (requestsOf (cs.map fun c => (c, f c))).get c = if c ∈ cs then f c else [] := by
  have hfold : ∀ (cs : List ContainerID) (r : Requests (ObjectID K)),
      ((cs.map fun c => (c, f c)).foldl (fun r e => r.set e.1 e.2) r).get c =
        if c ∈ cs then f c else r.get c := by
    intro cs
    induction cs with
    | nil => simp
    | cons d rest ih =>
      intro r
      rw [List.map_cons, List.foldl_cons, ih, Requests.get_set]
      by_cases hrest : c ∈ rest
      · simp [hrest]
      · by_cases hd : c = d
        · subst hd
          simp
        · simp [hrest, hd]
  rw [requestsOf, hfold]
  simp

omit [DecidableEq Kind] in
theorem keys_requestsOf (entries : List (ContainerID × List (ObjectID K))) (c : ContainerID) :
    c ∈ (requestsOf entries).keys ↔ c ∈ entries.map Prod.fst := by
  have hfold : ∀ (entries : List (ContainerID × List (ObjectID K))) (r : Requests (ObjectID K)),
      c ∈ (entries.foldl (fun r e => r.set e.1 e.2) r).keys ↔
        c ∈ r.keys ∨ c ∈ entries.map Prod.fst := by
    intro entries
    induction entries with
    | nil => simp
    | cons e rest ih =>
      intro r
      rw [List.foldl_cons, ih]
      simp only [Requests.set, List.mem_cons, List.map_cons]
      tauto
  rw [requestsOf, hfold]
  simp [Requests.none]

/-- The containers that are written for a task. -/
def ScheduledTask.written (declarations : List ContainerID) (t : ScheduledTask Model Kind K α) :
    List ContainerID :=
  match t.node.task with
  | .pipe .. => t.node.argumentDeclarations
  | .savePoint .. => declarations.filter t.mentions

/-- The task that is read back. -/
def ScheduledTask.restored (declarations : List ContainerID) (t : ScheduledTask Model Kind K α) :
    ScheduledTask Model Kind K α :=
  ⟨t.node, requestsOf ((t.written declarations).map fun c => (c, t.incoming.get c)),
    requestsOf ((t.written declarations).map fun c => (c, t.outgoing.get c)), []⟩

section

variable (text : ObjectText K) (E : Environment Model Kind K α σ)
  {nodes : List (PipelineNode Model Kind K α)} {declarations written : List ContainerID}

omit [DecidableEq Kind] in
theorem ObjectText.map_deserialize (objects : List (ObjectID K)) :
    (objects.map text.serialize).map text.deserialize = objects := by
  rw [List.map_map]
  exact (List.map_congr_left fun o _ => text.deserialize_serialize o).trans (List.map_id _)

omit [DecidableEq Kind] in
theorem readIncoming_serialize (t : ScheduledTask Model Kind K α) (cs : List ContainerID) :
    readIncoming text (cs.map (t.serializeContainer text)) =
      requestsOf (cs.map fun c => (c, t.incoming.get c)) := by
  rw [readIncoming, List.map_map]
  congr 1
  exact List.map_congr_left fun c _ => congrArg (c, ·) (text.map_deserialize _)

omit [DecidableEq Kind] in
theorem readOutgoing_serialize (t : ScheduledTask Model Kind K α) (cs : List ContainerID) :
    readOutgoing text (cs.map (t.serializeContainer text)) =
      requestsOf (cs.map fun c => (c, t.outgoing.get c)) := by
  rw [readOutgoing, List.map_map]
  congr 1
  exact List.map_congr_left fun c _ => congrArg (c, ·) (text.map_deserialize _)

omit [DecidableEq Kind] in
theorem deserializeTask_serializeTask {t : ScheduledTask Model Kind K α}
    (hnode : nodes[t.node.id]? = some t.node) (hdeclared : ∀ c ∈ written, c ∈ declarations)
    (dependencies : List Nat) :
    deserializeTask text nodes declarations (E.serializeTask text written t dependencies) =
      some (t.restored written) := by
  unfold Environment.serializeTask ScheduledTask.restored ScheduledTask.written
  cases htask : t.node.task with
  | pipe p bindings distinct =>
    have hnames : (t.node.argumentDeclarations.map (t.serializeContainer text)).map
        SerializedContainer.name = t.node.argumentDeclarations := by
      rw [List.map_map]
      exact (List.map_congr_left fun _ _ => rfl).trans (List.map_id _)
    simp only [deserializeTask, hnode, htask, hnames, readIncoming_serialize,
      readOutgoing_serialize]
    exact if_pos ⟨trivial, List.isPrefixOf_iff_prefix.mpr (List.prefix_refl _)⟩
  | savePoint name toSave =>
    have hentries : ((written.filter t.mentions).map fun c =>
        (t.serializeContainer text c, E.configurationId t.node)).map Prod.fst =
          (written.filter t.mentions).map (t.serializeContainer text) := by
      rw [List.map_map]
      rfl
    simp only [deserializeTask, hnode, htask, hentries, readIncoming_serialize,
      readOutgoing_serialize]
    refine if_pos ⟨trivial, List.all_eq_true.mpr fun e he => ?_⟩
    obtain ⟨c, hc, rfl⟩ := List.mem_map.mp he
    simpa [ScheduledTask.serializeContainer] using hdeclared c (List.mem_filter.mp hc).1

/-- Every task of a straight line with its dependencies, the root first. -/
def dependencyChains :
    List (ScheduledTask Model Kind K α) → List (List (ScheduledTask Model Kind K α))
  | [] => []
  | t :: dependencies => dependencyChains dependencies ++ [t :: dependencies]

omit [DecidableEq Kind] in
theorem length_dependencyChains (ts : List (ScheduledTask Model Kind K α)) :
    (dependencyChains ts).length = ts.length := by
  induction ts with
  | nil => rfl
  | cons t dependencies ih => simp [dependencyChains, ih]

omit [DecidableEq Kind] in
theorem getLast?_dependencyChains (t : ScheduledTask Model Kind K α)
    (dependencies : List (ScheduledTask Model Kind K α)) :
    (dependencyChains (t :: dependencies)).getLast? = some (t :: dependencies) := by
  simp [dependencyChains]

omit [DecidableEq Kind] in
theorem deserializeTasks_serializeTasks {ts : List (ScheduledTask Model Kind K α)}
    (hnodes : ∀ t ∈ ts, nodes[t.node.id]? = some t.node)
    (hdeclared : ∀ c ∈ written, c ∈ declarations) :
    ∀ more : List SerializedTask,
      deserializeTasks text nodes declarations (E.serializeTasks text written ts ++ more) [] =
        deserializeTasks text nodes declarations more
          (dependencyChains (ts.map (ScheduledTask.restored written))) := by
  induction ts with
  | nil => exact fun _ => rfl
  | cons t dependencies ih =>
    intro more
    have htask := fun positions => deserializeTask_serializeTask text E
      (hnodes t (List.mem_cons_self ..)) hdeclared positions
    rw [Environment.serializeTasks, List.append_assoc,
      ih fun t' ht' => hnodes t' (List.mem_cons_of_mem _ ht')]
    have hposition : ∀ positions,
        (E.serializeTask text written t positions).dependencies = positions := by
      intro positions
      unfold Environment.serializeTask
      split <;> rfl
    rw [List.singleton_append, deserializeTasks, htask, hposition]
    cases dependencies with
    | nil => rfl
    | cons t' rest =>
      -- The last chain read so far is the one the task was written after.
      have hlast : (dependencyChains ((t' :: rest).map (ScheduledTask.restored written)))[
          (t' :: rest).length - 1]? = some ((t' :: rest).map (ScheduledTask.restored written)) := by
        have h := getLast?_dependencyChains (t'.restored written)
          (rest.map (ScheduledTask.restored written))
        rw [List.getLast?_eq_getElem?, length_dependencyChains, List.length_cons,
          List.length_map] at h
        exact h
      simp only [List.isEmpty_cons, Bool.false_eq_true, if_false, hlast]
      rfl

omit [DecidableEq Kind] in
/-- What is read back of a schedule: its tasks with the requests that were written. -/
theorem deserialize_serialize {schedule : Schedule Model Kind K α} (hne : schedule.tasks ≠ [])
    (hnodes : ∀ t ∈ schedule.tasks, nodes[t.node.id]? = some t.node)
    (hdeclared : ∀ c ∈ schedule.declarations, c ∈ declarations) :
    deserializeSchedule text nodes declarations (E.serialize text schedule) =
      some ⟨schedule.declarations,
        schedule.tasks.map (ScheduledTask.restored schedule.declarations)⟩ := by
  have htasks := deserializeTasks_serializeTasks text E hnodes hdeclared []
  rw [List.append_nil] at htasks
  have hall : (E.serialize text schedule).containers.all declarations.contains = true := by
    refine List.all_eq_true.mpr fun c hc => ?_
    simpa using hdeclared c hc
  rw [deserializeSchedule, if_pos hall]
  simp only [Environment.serialize, htasks, deserializeTasks]
  obtain ⟨t, dependencies, htasks⟩ := List.exists_cons_of_ne_nil hne
  rw [htasks, List.map_cons, getLast?_dependencyChains]
  rfl

/-- The texts of the pipes that have a task. -/
def Environment.scheduledConfiguration
    (tasks : List (ScheduledTask Model Kind K α)) (pipe : Nat) : Option String :=
  if tasks.any fun t => t.node.id == pipe && !t.node.task.isSavePoint then
    some ((E.configuration pipe).getD "")
  else none

omit [DecidableEq Kind] in
/-- The document carries the texts of the pipes that have a task. -/
theorem configuration_serialize (schedule : Schedule Model Kind K α) :
    (E.serialize text schedule).configuration = E.scheduledConfiguration schedule.tasks := by
  funext pipe
  have htasks : ∀ ts : List (ScheduledTask Model Kind K α),
      SerializedSchedule.configuration
        ⟨schedule.declarations, E.serializeTasks text schedule.declarations ts⟩ pipe =
        E.scheduledConfiguration ts pipe := by
    intro ts
    induction ts with
    | nil => rfl
    | cons t dependencies ih =>
      simp only [SerializedSchedule.configuration, Environment.scheduledConfiguration] at ih ⊢
      rw [Environment.serializeTasks, List.reverse_append, List.reverse_singleton,
        List.singleton_append, List.findSome?_cons, List.any_cons]
      unfold Environment.serializeTask
      cases htask : t.node.task with
      | pipe p bindings distinct =>
        by_cases hid : t.node.id = pipe
        · simp [hid, Task.isSavePoint]
        · simp [hid, ih]
      | savePoint name toSave => simp [ih, Task.isSavePoint]
  exact htasks schedule.tasks

end

end Pypeline
