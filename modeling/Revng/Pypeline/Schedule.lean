import Mathlib.Data.List.FinRange
import Revng.Pypeline.Pipeline

/-!
# Schedules

`schedule` walks from the target to the root.  Every node turns the requests it gets into
requests for its predecessor, until nothing is requested.  Then the nodes that would write
nothing of what is requested are left out.

`Schedule.run` runs the tasks from the root to the target on one set of containers.  A task
checks that its containers hold what it needs, runs, and checks that they hold what was
requested of it.  A container that no later task reads is emptied.

The schedule is a straight line, so it is a list of tasks with the target first.  A failed
assertion of the construction is `none`, and a failed run keeps the storage as it was when
it failed.
-/

namespace Pypeline

/-- The operations of a storage provider that tasks use. -/
structure StorageProvider (K : KindLayout) (σ α : Type) where
  has : σ → ContainerLocation → List (ObjectID K) → List (ObjectID K)
  get : σ → ContainerLocation → List (ObjectID K) → Except StorageError (List (ObjectID K × α))
  addObjects : σ → List (PipeDependencies K) →
    List (ContainerLocation × List (ObjectID K × α)) → Except StorageError σ

/-- What a schedule is built and run with. -/
structure Environment (Model Kind : Type) (K : KindLayout) (α σ : Type) where
  navigation : Navigation Model Kind (ObjectID K)
  model : Model
  configuration : Nat → Option String
  hash : String → ConfigurationId
  setOrder : SetOrder
  provider : StorageProvider K σ α

/-- Assign values to the containers of the arguments, one after the other. -/
def setAll {n : Nat} {β : Type} (bindings : Fin n → ContainerID) (values : Fin n → β)
    (f : ContainerID → β) : ContainerID → β :=
  (List.finRange n).foldl (fun f i => Function.update f (bindings i) (values i)) f

section

variable {Model Kind α σ : Type} {K : KindLayout} [DecidableEq Kind]
  (E : Environment Model Kind K α σ)

/-! ## Requests of a node -/

def Environment.configurationId (n : PipelineNode Model Kind K α) : ConfigurationId :=
  n.configurationId E.hash E.setOrder E.configuration

/-- Where a savepoint keeps the objects of a container. -/
def Environment.location (n : PipelineNode Model Kind K α) (container : ContainerID) :
    ContainerLocation :=
  ⟨n.savepointRange.start, container, E.configurationId n⟩

/-- `SavePoint.prerequisites_for`: the requests without the objects that the storage
has. -/
def Environment.savePointPrerequisites (storage : σ) (n : PipelineNode Model Kind K α)
    (toSave : List ContainerID) (requests : Requests (ObjectID K)) : Requests (ObjectID K) :=
  requests.filter fun c o =>
    !(toSave.contains c &&
      (E.provider.has storage (E.location n c) (requests.get c)).contains o)

/-- `PipelineNode.prerequisites_for` -/
def Environment.prerequisitesFor (storage : σ) (n : PipelineNode Model Kind K α)
    (requests : Requests (ObjectID K)) : Option (Requests (ObjectID K)) :=
  match n.task with
  | .savePoint _ toSave => some (E.savePointPrerequisites storage n toSave requests)
  | .pipe p bindings _ =>
      (p.prerequisitesFor E.navigation E.model fun i => requests.get (bindings i)).map
        fun result =>
          (List.finRange p.arity).foldl (fun r i => r.set (bindings i) (result i)) requests

/-! ## Building the schedule -/

structure ScheduledTask (Model Kind : Type) (K : KindLayout) (α : Type) where
  node : PipelineNode Model Kind K α
  incoming : Requests (ObjectID K)
  outgoing : Requests (ObjectID K)
  disposableContainers : List ContainerID

/-- The first loop of `Pipeline.schedule`, from a node with the rest of its ancestry.  The
predecessor of a node gets a task even when nothing is requested of it. -/
def Environment.backwardPass (storage : σ) :
    PipelineNode Model Kind K α → List (PipelineNode Model Kind K α) → Requests (ObjectID K) →
      Option (List (ScheduledTask Model Kind K α))
  | node, ancestors, outgoing =>
      if outgoing.isEmpty then some [⟨node, .none, .none, []⟩]
      else
        match E.prerequisitesFor storage node outgoing with
        | none => none
        | some ingoing =>
            match ancestors with
            | [] => if ingoing.isEmpty then some [⟨node, ingoing, outgoing, []⟩] else none
            | predecessor :: ancestors =>
                (Environment.backwardPass storage predecessor ancestors ingoing).map
                  (⟨node, ingoing, outgoing, []⟩ :: ·)
  termination_by structural _ ancestors => ancestors

/-- Some requested object is in a container that the node writes. -/
def PipelineNode.writesRequested (n : PipelineNode Model Kind K α)
    (outgoing : Requests (ObjectID K)) : Bool :=
  n.arguments.any fun a => a.access != .read && !(outgoing.get a.container).isEmpty

def ScheduledTask.compact (t : ScheduledTask Model Kind K α) : ScheduledTask Model Kind K α :=
  { t with incoming := t.incoming.minimize, outgoing := t.outgoing.minimize }

/-- The second loop of `Pipeline.schedule`.  The target is never skipped. -/
def skipIdle : List (ScheduledTask Model Kind K α) → List (ScheduledTask Model Kind K α)
  | [] => []
  | target :: dependencies =>
      target.compact ::
        (dependencies.map ScheduledTask.compact).filter fun t =>
          t.node.writesRequested t.outgoing

structure Schedule (Model Kind : Type) (K : KindLayout) (α : Type) where
  declarations : List ContainerID
  tasks : List (ScheduledTask Model Kind K α)

/-- `Pipeline.schedule` -/
def Environment.schedule (storage : σ) (declarations : List ContainerID)
    (target : PipelineNode Model Kind K α) (ancestors : List (PipelineNode Model Kind K α))
    (requests : Requests (ObjectID K)) : Option (Schedule Model Kind K α) :=
  (E.backwardPass storage target ancestors requests).map fun tasks =>
    let tasks := skipIdle tasks
    let used := tasks.flatMap fun t => t.node.argumentDeclarations
    ⟨declarations.filter used.contains, tasks⟩

/-! ## Disposable containers -/

/-- The body of the inner loop of `_identify_discardable_containers`, on the readers
encountered and the disposable containers. -/
def markArgument (state : List ContainerID × List ContainerID) (a : TaskArgument) :
    List ContainerID × List ContainerID :=
  let (readers, disposable) :=
    if a.access.reads && !state.1.contains a.container then
      (a.container :: state.1, a.container :: state.2)
    else state
  if a.access = .write then (readers.filter (· != a.container), disposable)
  else (readers, disposable)

/-- `_identify_discardable_containers` -/
def identifyDiscardable : List (ScheduledTask Model Kind K α) → List ContainerID →
    List (ScheduledTask Model Kind K α)
  | [], _ => []
  | t :: dependencies, readers =>
      let (readers, disposable) := t.node.arguments.foldl markArgument (readers, [])
      { t with disposableContainers := disposable } :: identifyDiscardable dependencies readers

/-! ## Running the tasks -/

abbrev ContainerSet (K : KindLayout) (α : Type) := ContainerID → Option (Container K α)

/-- `Requests.check` -/
def Requests.check (r : Requests (ObjectID K)) (containers : ContainerSet K α) : Bool :=
  r.keys.all fun c =>
    match containers c with
    | Option.none => false
    | some container => container.containsAll (r.get c)

inductive ScheduleError where
  | precondition
  | requestCheck
  | keyError
  | assertion
  | storage (e : StorageError)
deriving DecidableEq, Repr

/-- The state of a run.  `computedDependencies` belongs to the pipes that ran after the last
savepoint, the latest first: the next savepoint is responsible for them. -/
structure RunState (K : KindLayout) (α σ : Type) where
  containers : ContainerSet K α
  storage : σ
  computedDependencies : List (PipeDependencies K)

/-- The assertions of a pipe task on the output of its pipe. -/
def Pipe.checkOutput (p : Pipe Model Kind K α) (output : PipeOutput K α p.arity) : Bool :=
  (List.finRange p.arity).all fun i =>
    (p.access i != .read ||
      ((output.dependencies i).isEmpty && (output.customInvalidation i).isEmpty)) &&
    (p.hasCustomInvalidation || (output.customInvalidation i).isEmpty)

/-- The dependencies of a pipe under the names of its containers. -/
def Environment.pipeDependencies (n : PipelineNode Model Kind K α) (p : Pipe Model Kind K α)
    (bindings : Fin p.arity → ContainerID) (output : PipeOutput K α p.arity) :
    PipeDependencies K :=
  ⟨n.id, n.savepointRange, E.configurationId n,
    (List.finRange p.arity).flatMap fun i =>
      (output.dependencies i).map fun (object, path) => (bindings i, object, path),
    List.ofFn output.customInvalidation⟩

/-- `PipeScheduledTask._run_impl` -/
def Environment.runPipe (t : ScheduledTask Model Kind K α) (p : Pipe Model Kind K α)
    (bindings : Fin p.arity → ContainerID) (s : RunState K α σ) :
    Except (ScheduleError × σ) (RunState K α σ) :=
  match allSome fun i => s.containers (bindings i) with
  | none => .error (.keyError, s.storage)
  | some containers =>
      let output := p.run E.model ((E.configuration t.node.id).getD "") containers
        (fun i => t.incoming.get (bindings i)) (fun i => t.outgoing.get (bindings i))
      if p.checkOutput output then
        .ok {
          containers := setAll bindings (fun i => some (output.containers i)) s.containers
          storage := s.storage
          computedDependencies :=
            E.pipeDependencies t.node p bindings output :: s.computedDependencies }
      else .error (.assertion, s.storage)

/-- `Container.serialize` -/
def Container.serialize (container : Container K α) (objects : List (ObjectID K)) :
    List (ObjectID K × α) :=
  objects.filterMap fun o => (container o).map fun content => (o, content)

/-- `Container.deserialize`: the data is added to the container. -/
def Container.deserialize (container : Container K α) (data : List (ObjectID K × α)) :
    Container K α :=
  fun o => (data.lookup o).orElse fun _ => container o

/-- `PipeDependencies.empty` -/
def PipeDependencies.isEmpty (d : PipeDependencies K) : Bool :=
  d.dependencies.isEmpty && !d.hasCustomInvalidation

/-- The objects that a savepoint stores. -/
def Environment.savedObjects (t : ScheduledTask Model Kind K α) (toSave : List ContainerID)
    (containers : ContainerSet K α) : List (ContainerLocation × List (ObjectID K × α)) :=
  toSave.filterMap fun c =>
    if (t.incoming.get c).isEmpty then none
    else (containers c).map fun container =>
      (E.location t.node c, container.serialize (t.incoming.get c))

/-- The second loop of `SavePoint.run`: load what was not just stored. -/
def Environment.loadObjects (t : ScheduledTask Model Kind K α) (storage : σ) :
    List ContainerID → ContainerSet K α → Except ScheduleError (ContainerSet K α)
  | [], containers => .ok containers
  | c :: rest, containers =>
      let wanted := (t.outgoing.get c).filter fun o => !(t.incoming.get c).contains o
      if wanted.isEmpty then Environment.loadObjects t storage rest containers
      else
        match E.provider.get storage (E.location t.node c) wanted with
        | .error e => .error (.storage e)
        | .ok data =>
            match containers c with
            | none => .error .keyError
            | some container =>
                Environment.loadObjects t storage rest
                  (Function.update containers c (some (container.deserialize data)))

/-- `SavepointScheduledTask._run_impl` and `SavePoint.run` -/
def Environment.runSavePoint (t : ScheduledTask Model Kind K α) (toSave : List ContainerID)
    (s : RunState K α σ) : Except (ScheduleError × σ) (RunState K α σ) :=
  if (t.incoming.keys ++ t.outgoing.keys).all fun c => (s.containers c).isSome then
    match E.provider.addObjects s.storage (s.computedDependencies.filter (!·.isEmpty))
        (E.savedObjects t toSave s.containers) with
    | .error e => .error (.storage e, s.storage)
    | .ok storage =>
        match E.loadObjects t storage toSave s.containers with
        | .error e => .error (e, storage)
        | .ok containers => .ok ⟨containers, storage, []⟩
  else .error (.assertion, s.storage)

def Environment.runTaskImpl (t : ScheduledTask Model Kind K α) (s : RunState K α σ) :
    Except (ScheduleError × σ) (RunState K α σ) :=
  match t.node.task with
  | .pipe p bindings _ => E.runPipe t p bindings s
  | .savePoint _ toSave => E.runSavePoint t toSave s

/-- Empty the disposable containers. -/
def dispose (disposable : List ContainerID) (containers : ContainerSet K α) :
    ContainerSet K α :=
  fun c => if disposable.contains c then (containers c).map fun _ => Container.empty
    else containers c

/-- `ScheduledTask.run` -/
def Environment.runTask (t : ScheduledTask Model Kind K α) (s : RunState K α σ) :
    Except (ScheduleError × σ) (RunState K α σ) :=
  if !t.incoming.check s.containers then .error (.requestCheck, s.storage)
  else if !t.disposableContainers.all fun c => (s.containers c).isSome then
    .error (.keyError, s.storage)
  else
    match E.runTaskImpl t s with
    | .error e => .error e
    | .ok s =>
        if t.outgoing.check s.containers then
          .ok { s with containers := dispose t.disposableContainers s.containers }
        else .error (.requestCheck, s.storage)

/-- Run the tasks, each after its dependencies. -/
def Environment.runTasks :
    List (ScheduledTask Model Kind K α) → RunState K α σ →
      Except (ScheduleError × σ) (RunState K α σ)
  | [], s => .ok s
  | t :: dependencies, s =>
      match Environment.runTasks dependencies s with
      | .error e => .error e
      | .ok s => E.runTask t s

/-- The precondition of the pipe of a task, if it is one. -/
def Environment.checkPrecondition (t : ScheduledTask Model Kind K α) : Bool :=
  match t.node.task with
  | .pipe p _ _ => p.checkPrecondition E.model
  | .savePoint .. => true

/-- The working containers before the first task. -/
def Schedule.initialState (schedule : Schedule Model Kind K α) (storage : σ) : RunState K α σ where
  containers := fun c => if schedule.declarations.contains c then some Container.empty else none
  storage
  computedDependencies := []

/-- `Schedule.run`.  The caller is the last reader of what it requested. -/
def Environment.run (schedule : Schedule Model Kind K α) (storage : σ) :
    Except (ScheduleError × σ) (RunState K α σ) :=
  if schedule.tasks.all E.checkPrecondition then
    let requested := match schedule.tasks with
      | [] => []
      | target :: _ => target.outgoing.keys.filter fun c => !(target.outgoing.get c).isEmpty
    E.runTasks (identifyDiscardable schedule.tasks requested) (schedule.initialState storage)
  else .error (.precondition, storage)

end

end Pypeline
