import Revng.Lib.Reachability
import Revng.Pypeline.LocalStorage

/-!
# A local project

A local project is a model file next to a database.  The database holds the objects and a
baseline: the model that was seen last, with its hash and the modification time of the file.
When the project is opened, the file is compared with the baseline, and what was changed behind
the back of the provider is handled like any other change of the model.

A change of the model is made in three steps, each of which is durable by itself: the objects
that depend on it are deleted, the file is written, and the baseline is updated.  `Effect` is one
durable step, and a process may stop between any two of them (`Action.crash`).

The state also remembers, for every object, the model it was computed from and the paths of the
model it depends on.  No operation looks at that.
-/

namespace Pypeline

variable {K : KindLayout} {M V : Type}

/-! ## Models -/

/-- What the provider uses of models.  `deserialize` also tells whether the model was migrated
from an older version, and `diffPaths` are the paths of the difference of two models. -/
structure ModelType (M : Type) where
  serialize : M → Bytes
  deserialize : Bytes → M × Bool
  diffPaths : M → M → List ModelPath
  computeHash : Bytes → String

/-- A model is read back as it was written, and a difference names all paths whose values
differ. -/
structure ModelType.Lawful (T : ModelType M) (value : M → ModelPath → V) : Prop where
  deserialize_serialize : ∀ m, (T.deserialize (T.serialize m)).1 = m
  mem_diffPaths : ∀ m n p, value m p ≠ value n p → p ∈ T.diffPaths m n

/-- The model that some bytes hold. -/
def ModelType.modelOf (T : ModelType M) (bytes : Bytes) : M := (T.deserialize bytes).1

/-! ## What is on disk -/

/-- The baseline. -/
structure ProjectRow where
  modelHash : Option String
  modelMtime : Option Nat
  lastSeenModel : Option Bytes
deriving DecidableEq, Repr

structure LocalProject where
  storage : LocalStorage
  row : ProjectRow
  modelFile : Bytes
  mtime : Nat
deriving DecidableEq, Repr

/-- A durable step of an operation. -/
inductive Effect (K : KindLayout) where
  | invalidate (paths : List ModelPath) (additional : List (ObjectsToInvalidate K))
  | pruneObjects
  | writeFile (bytes : Bytes)
  | updateBaseline (bytes : Bytes)
  | refreshMtime
deriving DecidableEq, Repr

section Operations

variable (T : ModelType M)

/-- `now` is the modification time that a write gives to the file. -/
def Effect.run (now : Nat) (p : LocalProject) : Effect K → LocalProject
  | .invalidate paths additional =>
      { p with storage := (p.storage.invalidate paths additional).1 }
  | .pruneObjects => { p with storage := p.storage.pruneObjects }
  | .writeFile bytes =>
      if p.modelFile ≠ bytes then { p with modelFile := bytes, mtime := now } else p
  | .updateBaseline bytes => { p with row := ⟨T.computeHash bytes, p.mtime, bytes⟩ }
  | .refreshMtime => { p with row := { p.row with modelMtime := p.mtime } }

/-- `_write_model_bytes` -/
def writeModelBytes (bytes : Bytes) : List (Effect K) := [.writeFile bytes, .updateBaseline bytes]

/-- `LocalStorageProvider.set_model` -/
def setModelEffects (newModel : M) (changedPaths : List ModelPath)
    (customInvalidations : List (ObjectsToInvalidate K)) (modelBytes : Option Bytes) :
    List (Effect K) :=
  .invalidate changedPaths customInvalidations ::
    writeModelBytes (modelBytes.getD (T.serialize newModel))

/-- `LocalStorageProvider.get_model` -/
def loadEffects (p : LocalProject) : List (Effect K) :=
  if (T.deserialize p.modelFile).2 then
    .pruneObjects :: writeModelBytes (T.serialize (T.modelOf p.modelFile))
  else []

/-- `Pipeline.get_model`, which asks the provider for `unprocessed_model_changes` and hands them
to `set_model`. -/
def getModelEffects (customInvalidations : List (ObjectsToInvalidate K)) (p : LocalProject) :
    List (Effect K) :=
  match p.row.lastSeenModel with
  -- There is no baseline yet: the model on disk becomes the baseline.
  | none => .updateBaseline p.modelFile :: loadEffects T p
  | some lastSeen =>
      if p.row.modelMtime = some p.mtime then loadEffects T p
      else if some (T.computeHash p.modelFile) = p.row.modelHash then
        .refreshMtime :: loadEffects T p
      else
        let diff := T.diffPaths (T.modelOf lastSeen) (T.modelOf p.modelFile)
        if diff = [] then loadEffects T p
        else loadEffects T p ++
          setModelEffects T (T.modelOf p.modelFile) diff customInvalidations (some p.modelFile)

end Operations

/-! ## Runs -/

/-- The project, the steps that the operation of the running process has yet to take, and where
the objects come from: the model and the paths they depend on, by the keys of their rows.  Without
a process the project is closed. -/
structure ProjectState (K : KindLayout) (M : Type) where
  project : LocalProject
  process : Option (List (Effect K))
  origins : List ((ContainerLocation × ObjectKey) × M × List ModelPath)

inductive Action (K : KindLayout) (M : Type) where
  | openProject
  | getModel (customInvalidations : List (ObjectsToInvalidate K))
  /-- The objects were computed from `model`, and `reads` are the paths they depend on. -/
  | addObjects (model : M) (reads : ContainerLocation → ObjectID K → List ModelPath)
      (dependencies : List (PipeDependencies K)) (objects : ObjectMap K)
  | setModel (newModel : M) (changedPaths : List ModelPath)
      (customInvalidations : List (ObjectsToInvalidate K)) (modelBytes : Option Bytes)
  | pruneObjects
  | effect (now : Nat)
  | crash
  /-- The file is edited by someone else while no operation runs. -/
  | edit (bytes : Bytes) (now : Nat)

/-- The fresh database of a project. -/
def ProjectState.initial (modelFile : Bytes) (mtime : Nat) : ProjectState K M :=
  ⟨⟨.empty, ⟨none, none, none⟩, modelFile, mtime⟩, none, []⟩

/-- Where the objects of an `add_objects` come from. -/
def newOrigins (model : M) (reads : ContainerLocation → ObjectID K → List ModelPath)
    (objects : ObjectMap K) : List ((ContainerLocation × ObjectKey) × M × List ModelPath) :=
  (StorageView.items objects).map fun x => ((x.1, x.2.1.toBytes), model, reads x.1 x.2.1)

namespace ProjectState

/-- An operation begins when no other one is running. -/
def begin (s : ProjectState K M) (effects : List (Effect K)) : Option (ProjectState K M) :=
  match s.process with
  | some [] => some { s with process := some effects }
  | _ => none

def step (T : ModelType M) (s : ProjectState K M) : Action K M → Option (ProjectState K M)
  | .openProject =>
      match s.process with
      | none => some { s with process := some [] }
      | some _ => none
  | .getModel customInvalidations => s.begin (getModelEffects T customInvalidations s.project)
  | .addObjects model reads dependencies objects =>
      match s.process, s.project.storage.addObjects dependencies objects with
      | some [], .ok storage =>
          some { s with
            project := { s.project with storage := storage }
            origins := newOrigins model reads objects ++ s.origins }
      -- The transaction is rolled back.
      | some [], .error _ => some s
      | _, _ => none
  | .setModel newModel changedPaths customInvalidations modelBytes =>
      s.begin (setModelEffects T newModel changedPaths customInvalidations modelBytes)
  | .pruneObjects => s.begin [.pruneObjects]
  | .effect now =>
      match s.process with
      | some (effect :: rest) =>
          some { s with project := effect.run T now s.project, process := some rest }
      | _ => none
  | .crash => some { s with process := none }
  | .edit bytes now =>
      match s.process with
      | none | some [] =>
          some { s with project := { s.project with modelFile := bytes, mtime := now } }
      | _ => none

end ProjectState

end Pypeline
