import Revng.Lib.KeyedTable
import Revng.Pypeline.Storage
import Revng.RssServer.Locks

/-!
# The tables of the projects

One database holds the objects, the dependencies, the custom dependencies and the
models of all projects.  A locked storage belongs to one project, and its
operations are meant to touch the rows of that project only.

`Database.rowsOf` is what one project sees of the database.  All operations leave
the rows of the other projects alone, except for the query that deletes the
dependencies of invalidated objects.  It finds the objects of its own project but
compares them with the dependencies of all projects.  `SparesOthers` says that
this comparison finds no row of another project, and a sequence of operations
leaves the others alone exactly when it meets that condition at every step.
-/

namespace RssServer

open Pypeline KeyedTable

/-! ## Rows -/

abbrev ConfigurationHash := String

structure ObjectRow where
  projectId : ProjectID
  savepointId : SavepointID
  containerId : ContainerID
  configurationHash : ConfigurationHash
  objectId : ObjectKey
  objectIdString : String
  content : Bytes
deriving DecidableEq, Repr

structure DependencyRow where
  projectId : ProjectID
  savepointIdStart : SavepointID
  savepointIdEnd : SavepointID
  containerId : ContainerID
  configurationHash : ConfigurationHash
  objectId : ObjectKey
  modelPath : ModelPath
deriving DecidableEq, Repr

structure CustomDependencyRow where
  projectId : ProjectID
  pipeId : Nat
  configurationHash : ConfigurationHash
  argumentIndex : Nat
  objectId : ObjectKey
  data : Bytes
deriving DecidableEq, Repr

structure ProjectTableRow where
  projectId : ProjectID
  lastFetch : Nat
  lastObjectSave : Nat
  lastModelSave : Nat
  epoch : Nat
  model : Option Bytes
deriving DecidableEq, Repr

/-- The primary keys of `objects` and of `custom_dependencies`.  The key of a
dependency is the whole row. -/
def ObjectRow.key (o : ObjectRow) :
    ProjectID × SavepointID × ContainerID × ConfigurationHash × ObjectKey :=
  (o.projectId, o.savepointId, o.containerId, o.configurationHash, o.objectId)

def CustomDependencyRow.key (c : CustomDependencyRow) :
    ProjectID × Nat × ConfigurationHash × Nat × ObjectKey :=
  (c.projectId, c.pipeId, c.configurationHash, c.argumentIndex, c.objectId)

structure Database where
  objects : List ObjectRow
  dependencies : List DependencyRow
  customDependencies : List CustomDependencyRow
  projects : List ProjectTableRow
deriving DecidableEq, Repr

/-- The rows that belong to one project. -/
def Database.rowsOf (project : ProjectID) (db : Database) : Database where
  objects := db.objects.filter (·.projectId == project)
  dependencies := db.dependencies.filter (·.projectId == project)
  customDependencies := db.customDependencies.filter (·.projectId == project)
  projects := db.projects.filter (·.projectId == project)

/-! ## The operations of a locked storage -/

/-- `UPDATE project SET … WHERE project_id = project` -/
def updateProject (project : ProjectID) (f : ProjectTableRow → ProjectTableRow)
    (db : Database) : Database :=
  { db with projects := db.projects.map fun r => if r.projectId = project then f r else r }

/-- What a client sends of a dependency, an object and a custom dependency: the row
without its project. -/
structure DependencyEntry where
  savepointIdStart : SavepointID
  savepointIdEnd : SavepointID
  containerId : ContainerID
  configurationHash : ConfigurationHash
  objectId : ObjectKey
  modelPath : ModelPath
deriving DecidableEq, Repr

structure ObjectEntry where
  savepointId : SavepointID
  containerId : ContainerID
  configurationHash : ConfigurationHash
  objectId : ObjectKey
  objectIdString : String
  content : Bytes
deriving DecidableEq, Repr

structure CustomDependency where
  pipeId : Nat
  configurationHash : ConfigurationHash
  argumentIndex : Nat
  objectId : ObjectKey
  data : Bytes
deriving DecidableEq, Repr

structure AdditionalObjectEntry where
  savepointIdStart : SavepointID
  savepointIdEnd : SavepointID
  containerId : ContainerID
  configurationHash : ConfigurationHash
  objectId : ObjectKey
deriving DecidableEq, Repr

def DependencyEntry.toRow (project : ProjectID) (d : DependencyEntry) : DependencyRow :=
  ⟨project, d.savepointIdStart, d.savepointIdEnd, d.containerId, d.configurationHash,
    d.objectId, d.modelPath⟩

def ObjectEntry.toRow (project : ProjectID) (o : ObjectEntry) : ObjectRow :=
  ⟨project, o.savepointId, o.containerId, o.configurationHash, o.objectId, o.objectIdString,
    o.content⟩

def CustomDependency.toRow (project : ProjectID) (c : CustomDependency) : CustomDependencyRow :=
  ⟨project, c.pipeId, c.configurationHash, c.argumentIndex, c.objectId, c.data⟩

/-- `add_objects` -/
def addObjects (project : ProjectID) (dependencies : List DependencyEntry)
    (customDependencies : List CustomDependency) (objects : List ObjectEntry) (now : Nat)
    (db : Database) : Database :=
  updateProject project (fun r => { r with lastObjectSave := now })
    { db with
      dependencies :=
        putAll id (fun old _ => old) (dependencies.map (·.toRow project)) db.dependencies
      customDependencies :=
        putAll CustomDependencyRow.key (fun old new => { old with data := new.data })
          (customDependencies.map (·.toRow project)) db.customDependencies
      objects :=
        putAll ObjectRow.key (fun old new => { old with content := new.content })
          (objects.map (·.toRow project)) db.objects }

/-- What the invalidation looks at of a dependency and of an additional object. -/
structure InvalidationRange where
  savepointIdStart : SavepointID
  savepointIdEnd : SavepointID
  configurationHash : ConfigurationHash
  objectId : ObjectKey
deriving DecidableEq, Repr

/-- The rows of the subquery of `INVALIDATE_FIND`. -/
def invalidationRanges (project : ProjectID) (modelPaths : List ModelPath)
    (additional : List AdditionalObjectEntry) (db : Database) : List InvalidationRange :=
  ((db.dependencies.filter fun d => d.projectId == project && modelPaths.contains d.modelPath).map
      fun d => ⟨d.savepointIdStart, d.savepointIdEnd, d.configurationHash, d.objectId⟩) ++
    additional.map fun a => ⟨a.savepointIdStart, a.savepointIdEnd, a.configurationHash, a.objectId⟩

/-- The condition of `INVALIDATE_FIND` on an object and a range. -/
def InvalidationRange.hits (range : InvalidationRange) (o : ObjectRow) : Bool :=
  keyInvalidatedBy range.objectId o.objectId &&
    o.configurationHash == range.configurationHash &&
    decide (range.savepointIdStart ≤ o.savepointId) &&
    decide (o.savepointId ≤ range.savepointIdEnd)

/-- The object is selected by `INVALIDATE_FIND`. -/
def isInvalidated (project : ProjectID) (modelPaths : List ModelPath)
    (additional : List AdditionalObjectEntry) (db : Database) (o : ObjectRow) : Bool :=
  o.projectId == project && (invalidationRanges project modelPaths additional db).any (·.hits o)

/-- The condition of `INVALIDATE_DELETE_DEPENDENCIES` on a dependency and an
invalidated object. -/
def DependencyRow.startsAt (d : DependencyRow) (o : ObjectRow) : Bool :=
  d.savepointIdStart == o.savepointId && d.containerId == o.containerId &&
    d.configurationHash == o.configurationHash && d.objectId == o.objectId

/-- `_run_invalidation` -/
def runInvalidation (project : ProjectID) (modelPaths : List ModelPath)
    (additional : List AdditionalObjectEntry) (db : Database) : Database :=
  if modelPaths.length = 0 ∧ additional.length = 0 then db
  else
    let invalidated := db.objects.filter (isInvalidated project modelPaths additional db)
    { db with
      dependencies := db.dependencies.filter fun d => !invalidated.any d.startsAt
      objects := db.objects.filter fun o => !isInvalidated project modelPaths additional db o }

/-- `invalidate_and_set_model` -/
def invalidateAndSetModel (project : ProjectID) (modelPaths : List ModelPath)
    (additional : List AdditionalObjectEntry) (modelBytes : Bytes) (now : Nat) (db : Database) :
    Database :=
  updateProject project
    (fun r => { r with model := some modelBytes, epoch := r.epoch + 1, lastModelSave := now })
    (runInvalidation project modelPaths additional db)

/-- `prune_objects` -/
def pruneObjects (project : ProjectID) (db : Database) : Database :=
  { db with
    objects := db.objects.filter (·.projectId != project)
    dependencies := db.dependencies.filter (·.projectId != project)
    customDependencies := db.customDependencies.filter (·.projectId != project) }

inductive StorageOp where
  | addObjects (dependencies : List DependencyEntry) (customDependencies : List CustomDependency)
      (objects : List ObjectEntry) (now : Nat)
  | getObjects (now : Nat)
  | setModel (modelPaths : List ModelPath) (additional : List AdditionalObjectEntry)
      (modelBytes : Bytes) (now : Nat)
  | pruneObjects
deriving DecidableEq, Repr

/-- One operation through the locked storage of `project`. -/
def StorageOp.apply (project : ProjectID) (op : StorageOp) (db : Database) : Database :=
  match op with
  | .addObjects deps custom objects now => RssServer.addObjects project deps custom objects now db
  | .getObjects now => updateProject project (fun r => { r with lastFetch := now }) db
  | .setModel paths additional bytes now =>
      invalidateAndSetModel project paths additional bytes now db
  | .pruneObjects => RssServer.pruneObjects project db

/-- A sequence of operations through the locked storage of `project`. -/
def applyAll (project : ProjectID) (ops : List StorageOp) (db : Database) : Database :=
  ops.foldl (fun db op => op.apply project db) db

/-! ## The rows of the other projects -/

/-- The step deletes no dependency of another project: none of them starts at an
object that the step invalidates. -/
def SparesOthers (project : ProjectID) : StorageOp → Database → Prop
  | .setModel paths additional _ _, db =>
      ∀ d ∈ db.dependencies, d.projectId ≠ project →
        ∀ o ∈ db.objects, isInvalidated project paths additional db o = true →
          d.startsAt o = false
  | _, _ => True

/-- Every step of the sequence spares the other projects. -/
def SparesOthersThroughout (project : ProjectID) : List StorageOp → Database → Prop
  | [], _ => True
  | op :: rest, db =>
      SparesOthers project op db ∧ SparesOthersThroughout project rest (op.apply project db)

variable {project q : ProjectID}

theorem rowsOf_updateProject (hq : q ≠ project) {f : ProjectTableRow → ProjectTableRow}
    (hf : ∀ r, (f r).projectId = r.projectId) (db : Database) :
    (updateProject project f db).rowsOf q = db.rowsOf q := by
  simp only [Database.rowsOf, updateProject, Database.mk.injEq, true_and]
  refine filter_map_of_frame fun r _ => ?_
  split
  next hr => exact Or.inr (by simp [hf, hr, hq.symm])
  · exact Or.inl rfl

theorem rowsOf_addObjects (hq : q ≠ project) (dependencies : List DependencyEntry)
    (customDependencies : List CustomDependency) (objects : List ObjectEntry) (now : Nat)
    (db : Database) :
    (addObjects project dependencies customDependencies objects now db).rowsOf q =
      db.rowsOf q := by
  refine (rowsOf_updateProject hq (by intro r; rfl) _).trans ?_
  simp only [Database.rowsOf, Database.mk.injEq, and_true]
  refine ⟨?_, ?_, ?_⟩
  · refine filter_putAll (fun x hx r hk => ?_) (by intro _ _ _; rfl)
    obtain ⟨o, -, rfl⟩ := List.mem_map.mp hx
    have hp : r.projectId = project := congrArg Prod.fst hk
    simp [hp, hq.symm]
  · refine filter_putAll (fun x hx r hk => ?_) (by intro _ _ _; rfl)
    obtain ⟨d, -, rfl⟩ := List.mem_map.mp hx
    have hp : r.projectId = project := congrArg DependencyRow.projectId hk
    simp [hp, hq.symm]
  · refine filter_putAll (fun x hx r hk => ?_) (by intro _ _ _; rfl)
    obtain ⟨c, -, rfl⟩ := List.mem_map.mp hx
    have hp : r.projectId = project := congrArg Prod.fst hk
    simp [hp, hq.symm]

/-- A deletion that keeps all rows of a part keeps that part. -/
theorem filter_filter_of_keep {α : Type} {p keep : α → Bool} {rows : List α}
    (h : ∀ r ∈ rows, p r = true → keep r = true) : (rows.filter keep).filter p = rows.filter p := by
  rw [List.filter_filter]
  refine List.filter_congr fun r hr => ?_
  by_cases hp : p r = true
  · simp [hp, h r hr hp]
  · simp [hp]

theorem rowsOf_pruneObjects (hq : q ≠ project) (db : Database) :
    (pruneObjects project db).rowsOf q = db.rowsOf q := by
  simp only [Database.rowsOf, pruneObjects, Database.mk.injEq, and_true]
  refine ⟨?_, ?_, ?_⟩ <;> refine filter_filter_of_keep fun r _ hr => ?_ <;>
    · rw [beq_iff_eq] at hr
      simp [hr, hq]

variable {db : Database}

theorem rowsOf_runInvalidation (hq : q ≠ project) {modelPaths : List ModelPath}
    {additional : List AdditionalObjectEntry} {bytes : Bytes} {now : Nat}
    (h : SparesOthers project (.setModel modelPaths additional bytes now) db) :
    (runInvalidation project modelPaths additional db).rowsOf q = db.rowsOf q := by
  unfold runInvalidation
  split
  · rfl
  simp only [Database.rowsOf, Database.mk.injEq, and_true]
  refine ⟨?_, ?_⟩
  · refine filter_filter_of_keep fun o _ ho => ?_
    rw [beq_iff_eq] at ho
    simp [isInvalidated, ho, hq]
  · refine filter_filter_of_keep fun d hd hdq => ?_
    rw [beq_iff_eq] at hdq
    simp only [Bool.not_eq_true', List.any_eq_false, List.mem_filter, and_imp]
    intro o ho hinv
    simp [h d hd (hdq ▸ hq) o ho hinv]

/-- A step that spares the other projects leaves their rows as they are. -/
theorem SparesOthers.rowsOf_apply (hq : q ≠ project) {op : StorageOp}
    (h : SparesOthers project op db) : (op.apply project db).rowsOf q = db.rowsOf q := by
  cases op with
  | addObjects deps custom objects now => exact rowsOf_addObjects hq deps custom objects now db
  | getObjects now => exact rowsOf_updateProject hq (by intro r; rfl) db
  | setModel paths additional bytes now =>
    exact (rowsOf_updateProject hq (by intro r; rfl) _).trans (rowsOf_runInvalidation hq h)
  | pruneObjects => exact rowsOf_pruneObjects hq db

/-! ## Deleted rows do not come back -/

variable {d : DependencyRow}

/-- No step adds a dependency to another project. -/
theorem mem_dependencies_of_apply {op : StorageOp} (hd : d.projectId ≠ project)
    (h : d ∈ (op.apply project db).dependencies) : d ∈ db.dependencies := by
  cases op with
  | addObjects deps custom objects now =>
    have hrows := congrArg Database.dependencies
      (rowsOf_addObjects hd deps custom objects now db)
    have hmem : d ∈ ((addObjects project deps custom objects now db).rowsOf
        d.projectId).dependencies := List.mem_filter.mpr ⟨h, by simp⟩
    rw [hrows] at hmem
    exact (List.mem_filter.mp hmem).1
  | getObjects now => exact h
  | setModel paths additional bytes now =>
    simp only [StorageOp.apply, invalidateAndSetModel, updateProject, runInvalidation] at h
    split at h
    · exact h
    · exact (List.mem_filter.mp h).1
  | pruneObjects => exact (List.mem_filter.mp h).1

theorem mem_dependencies_of_applyAll (hd : d.projectId ≠ project) :
    ∀ {ops : List StorageOp} {db : Database}, d ∈ (applyAll project ops db).dependencies →
      d ∈ db.dependencies
  | [], _, h => h
  | _ :: _, _, h => mem_dependencies_of_apply hd (mem_dependencies_of_applyAll hd h)

/-- A dependency of another project that starts at an invalidated object is gone after
the step. -/
theorem not_mem_dependencies_of_hit {paths : List ModelPath}
    {additional : List AdditionalObjectEntry} {bytes : Bytes} {now : Nat} {o : ObjectRow}
    (ho : o ∈ db.objects) (hinv : isInvalidated project paths additional db o = true)
    (hstart : d.startsAt o = true) :
    d ∉ ((StorageOp.setModel paths additional bytes now).apply project db).dependencies := by
  simp only [StorageOp.apply, invalidateAndSetModel, updateProject, runInvalidation]
  split
  next hempty =>
    -- nothing is invalidated by nothing
    have hp : paths = [] := List.length_eq_zero_iff.mp hempty.1
    have ha : additional = [] := List.length_eq_zero_iff.mp hempty.2
    simp [isInvalidated, invalidationRanges, hp, ha] at hinv
  · intro hd
    have hkeep := (List.mem_filter.mp hd).2
    simp only [Bool.not_eq_true', List.any_eq_false, List.mem_filter, and_imp] at hkeep
    exact hkeep o ho hinv hstart

/-! ## Isolation -/

/-- A sequence of operations through the storage of one project leaves the rows of all
other projects unchanged exactly when none of its steps invalidates an object that
a dependency of another project starts at. -/
theorem applyAll_isolated_iff (project : ProjectID) (ops : List StorageOp) (db : Database) :
    (∀ q, q ≠ project → (applyAll project ops db).rowsOf q = db.rowsOf q) ↔
      SparesOthersThroughout project ops db := by
  induction ops generalizing db with
  | nil => simp [applyAll, SparesOthersThroughout]
  | cons op rest ih =>
      have hcons : applyAll project (op :: rest) db =
          applyAll project rest (op.apply project db) := rfl
      constructor
      · intro h
        have hspare : SparesOthers project op db := by
          cases op with
          | setModel paths additional bytes now =>
              intro d hd hdp o ho hinv
              by_contra hstart
              rw [Bool.not_eq_false] at hstart
              -- the row is there in the end, so it was there after the first step
              have hrows := congrArg Database.dependencies (h d.projectId hdp)
              have hmem : d ∈ (db.rowsOf d.projectId).dependencies :=
                List.mem_filter.mpr ⟨hd, by simp⟩
              rw [← hrows] at hmem
              have hafter : d ∈ (StorageOp.apply project (.setModel paths additional bytes now)
                  db).dependencies := by
                rw [hcons] at hmem
                exact mem_dependencies_of_applyAll hdp (List.mem_filter.mp hmem).1
              exact not_mem_dependencies_of_hit ho hinv hstart hafter
          | _ => trivial
        refine ⟨hspare, (ih _).mp fun q hq => ?_⟩
        rw [← hcons, h q hq, hspare.rowsOf_apply hq]
      · rintro ⟨hspare, hrest⟩ q hq
        rw [hcons, (ih _).mpr hrest q hq, hspare.rowsOf_apply hq]

/-- Two projects with the same object: setting the model of one deletes a dependency of
the other. -/
theorem not_applyAll_isolated :
    ¬ ∀ (project : ProjectID) (ops : List StorageOp) (db : Database) (q : ProjectID),
      q ≠ project → (applyAll project ops db).rowsOf q = db.rowsOf q := by
  intro h
  let object : ProjectID → ObjectRow := fun p => ⟨p, 1, "c", "conf", [], "/binary", [0]⟩
  let dependency : ProjectID → DependencyRow := fun p => ⟨p, 1, 1, "c", "conf", [], "/Path"⟩
  have heq := h "p" [.setModel ["/Path"] [] [1] 0]
    ⟨[object "p", object "q"], [dependency "p", dependency "q"], [],
      [⟨"p", 0, 0, 0, 0, none⟩, ⟨"q", 0, 0, 0, 0, none⟩]⟩ "q" (by decide)
  exact absurd heq (by decide)

end RssServer
