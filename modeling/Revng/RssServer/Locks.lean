import Mathlib.Data.List.Sort
import Revng.Lib.Reachability

/-!
# The locks table of the remote storage server

The server keeps one table of locks for all projects.  A client of a project
asks for an artifact lock or for an analysis lock.  The holder of an analysis
lock upgrades it while it commits a new model and downgrades it afterwards.  A
lock that cannot be granted is stored in a waiting state, and its client sleeps
until another client's operation promotes the row and notifies it.

Every operation runs under the advisory lock of its project
(`_mutate_project_lock`), so each one is a single step on the table.  The body
of an operation does not look at the table itself but at a summary of it, the
`ProjectState`.  The summary is computed when the advisory lock is taken, that
is, before the body runs.

SQL gives the rows of a table no order.  The table is a list here, and the step
`LockOp.reorder` permutes it, so no result depends on which row a `LIMIT 1`
returns or on how `ORDER BY` treats equal timestamps.
-/

namespace RssServer

/-! ## Rows and summaries -/

abbrev ProjectID := String
abbrev LockID := String

/-- The state of a lock, the column `lock_type`. -/
inductive LockState where
  | artifactWaiting
  | artifact
  | analysisWaiting
  | analysisReading
  | analysisPendingCommit
  | analysisCommitting
deriving DecidableEq, Repr

inductive LockRequest where
  | artifact
  | analysis
deriving DecidableEq, Repr

/-- A row of the table `locks`.  Timestamps are in seconds. -/
structure LockRow where
  projectId : ProjectID
  lockId : LockID
  lockType : LockState
  creationTimestamp : Nat
  refreshTimestamp : Nat
  inUse : Bool := false
deriving DecidableEq, Repr

abbrev LockTable := List LockRow

inductive AnalysisState where
  | none
  | reading
  | writing
deriving DecidableEq, Repr

/-- What an operation knows about the locks of its project. -/
structure ProjectState where
  artifactRunning : Bool
  analysisState : AnalysisState
deriving DecidableEq, Repr

/-- The three states of an analysis lock that has been granted. -/
def LockState.isActiveAnalysis : LockState → Bool
  | .analysisReading | .analysisPendingCommit | .analysisCommitting => true
  | _ => false

/-- The states `_get_pending_locks` selects. -/
def LockState.isPending : LockState → Bool
  | .artifactWaiting | .analysisWaiting | .analysisPendingCommit => true
  | _ => false

/-- The row is the lock `lockId` of `project`. -/
def LockRow.matches (project : ProjectID) (lockId : LockID) (r : LockRow) : Bool :=
  r.projectId == project && r.lockId == lockId

/-- `_compute_project_state` -/
def computeProjectState (project : ProjectID) (locks : LockTable) : ProjectState where
  artifactRunning :=
    (locks.find? fun r => r.projectId == project && r.lockType == .artifact).isSome
  analysisState :=
    match locks.find? fun r => r.projectId == project && r.lockType.isActiveAnalysis with
    | none => .none
    | some r => if r.lockType = .analysisReading then .reading else .writing

/-- `UPDATE locks SET lock_type = st WHERE project_id = project AND lock_id = lockId` -/
def setLockType (project : ProjectID) (lockId : LockID) (st : LockState) (locks : LockTable) :
    LockTable :=
  locks.map fun r => if r.matches project lockId then { r with lockType := st } else r

/-! ## The operations -/

/-- The state `make_lock` gives to a new lock. -/
def initialLockState (state : ProjectState) : LockRequest → LockState
  | .artifact => if state.analysisState ≠ .writing then .artifact else .artifactWaiting
  | .analysis => if state.analysisState = .none then .analysisReading else .analysisWaiting

/-- `make_lock`, with the fresh identifier and the time it runs at.  The insertion
fails when the primary key is taken, and the transaction is then rolled back. -/
def makeLock (project : ProjectID) (lockId : LockID) (request : LockRequest) (now : Nat)
    (locks : LockTable) : LockTable :=
  if locks.any (·.matches project lockId) then locks
  else
    let state := computeProjectState project locks
    ⟨project, lockId, initialLockState state request, now, now, false⟩ :: locks

/-- The entry half of `_upgrade_to_commiting_lock`. -/
def upgradeToCommittingLock (project : ProjectID) (lockId : LockID) (locks : LockTable) :
    LockTable :=
  let state := computeProjectState project locks
  setLockType project lockId
    (if state.artifactRunning then .analysisPendingCommit else .analysisCommitting) locks

/-- The exit half of `_upgrade_to_commiting_lock`. -/
def downgradeToReadingLock (project : ProjectID) (lockId : LockID) (locks : LockTable) :
    LockTable :=
  setLockType project lockId .analysisReading locks

/-- `_get_pending_locks` -/
def getPendingLocks (project : ProjectID) (locks : LockTable) : List (LockID × LockState) :=
  let pending := locks.filter fun r => r.projectId == project && r.lockType.isPending
  (pending.insertionSort fun a b => a.creationTimestamp ≤ b.creationTimestamp).map
    fun r => (r.lockId, r.lockType)

/-- One iteration of the loop of `_unlock_next`: the state a pending lock is promoted
to and the summary after the promotion, when the lock can be promoted at all. -/
def promotion (state : ProjectState) : LockState → Option (LockState × ProjectState)
  | .artifactWaiting =>
      if state.analysisState ≠ .writing then
        some (.artifact, { state with artifactRunning := true })
      else none
  | .analysisWaiting =>
      if state.analysisState = .none then
        some (.analysisReading, { state with analysisState := .reading })
      else none
  | .analysisPendingCommit =>
      if !state.artifactRunning then
        some (.analysisCommitting, { state with analysisState := .writing })
      else none
  | _ => none

/-- The loop of `_unlock_next`: the locks to promote and their new states. -/
def toPromote : ProjectState → List (LockID × LockState) → List (LockID × LockState)
  | _, [] => []
  | state, (lockId, lockState) :: rest =>
      if state.analysisState = .writing ∧ state.artifactRunning then []
      else
        match promotion state lockState with
        | some (newState, state') => (lockId, newState) :: toPromote state' rest
        | none => toPromote state rest

/-- `_unlock_next` -/
def unlockNext (project : ProjectID) (state : ProjectState) (locks : LockTable) : LockTable :=
  (toPromote state (getPendingLocks project locks)).foldl
    (fun ls (lockId, st) => setLockType project lockId st ls) locks

/-- `DELETE FROM locks WHERE project_id = project AND lock_id = lockId` -/
def deleteLock (project : ProjectID) (lockId : LockID) (locks : LockTable) : LockTable :=
  locks.filter fun r => !r.matches project lockId

/-- `release_lock`.  The summary handed to `_unlock_next` is the one computed on
entry, before the row is deleted. -/
def releaseLock (project : ProjectID) (lockId : LockID) (locks : LockTable) :
    Except String LockTable :=
  let state := computeProjectState project locks
  match locks.find? (·.matches project lockId) with
  | none => .error "Missing lock"
  | some r =>
      if r.inUse then .error "Lock is in use"
      else .ok (unlockNext project state (deleteLock project lockId locks))

/-- How many seconds before a lock is considered expired. -/
def lockExpirySeconds : Nat := 30

/-- The rows `_cleanup_locks` deletes. -/
def LockRow.isCollectable (now : Nat) (r : LockRow) : Bool :=
  r.refreshTimestamp + lockExpirySeconds < now && !r.inUse

/-- One iteration of `_cleanup_locks`.  The deletion and the promotions run on two
connections.  When `visible` is set the second connection sees the deletion,
otherwise the deletion is committed after the promotions, as it is under the
default isolation of the database. -/
def cleanupLocks (now : Nat) (visible : Bool) (locks : LockTable) : LockTable :=
  let projects := ((locks.filter (·.isCollectable now)).map (·.projectId)).dedup
  let collect := fun ls : LockTable => ls.filter (!·.isCollectable now)
  let unblock := fun ls : LockTable =>
    projects.foldl (fun ls p => unlockNext p (computeProjectState p ls) ls) ls
  if visible then unblock (collect locks) else collect (unblock locks)

/-- The flag that `get_locked` raises for the duration of a request. -/
def setInUse (project : ProjectID) (lockId : LockID) (value : Bool) (locks : LockTable) :
    LockTable :=
  locks.map fun r => if r.matches project lockId then { r with inUse := value } else r

/-- `renew_lock`: an expired lock is released, a valid one is refreshed. -/
def renewLock (project : ProjectID) (lockId : LockID) (now : Nat) (locks : LockTable) :
    Except String (LockTable × Bool) :=
  match locks.find? (·.matches project lockId) with
  | none => .ok (locks, false)
  | some r =>
      if r.refreshTimestamp + lockExpirySeconds > now then
        .ok (locks.map fun r =>
          if r.matches project lockId then { r with refreshTimestamp := now } else r, true)
      else (releaseLock project lockId locks).map fun ls => (ls, false)

/-! ## Steps -/

/-- One operation of a client, of the cleanup task or of the database itself. -/
inductive LockOp where
  | makeLock (project : ProjectID) (lockId : LockID) (request : LockRequest) (now : Nat)
  | upgrade (project : ProjectID) (lockId : LockID)
  | downgrade (project : ProjectID) (lockId : LockID)
  | release (project : ProjectID) (lockId : LockID)
  | renew (project : ProjectID) (lockId : LockID) (now : Nat)
  | setInUse (project : ProjectID) (lockId : LockID) (value : Bool)
  | cleanup (now : Nat) (visible : Bool)
  | reorder
deriving DecidableEq, Repr

/-- The lock `lockId` of `project` is in one of the given states. -/
def HasState (project : ProjectID) (lockId : LockID) (states : List LockState)
    (locks : LockTable) : Prop :=
  ∃ r ∈ locks, r.matches project lockId = true ∧ r.lockType ∈ states

instance (project : ProjectID) (lockId : LockID) (states : List LockState)
    (locks : LockTable) : Decidable (HasState project lockId states locks) :=
  inferInstanceAs (Decidable (∃ r ∈ locks, _))

/-- The steps of the table.  An upgrade is made by the holder of a reading lock.  A
downgrade closes an upgrade.  An operation that fails is rolled back and is no step. -/
inductive LockStep : LockOp → LockTable → LockTable → Prop where
  | makeLock : LockStep (.makeLock p l q now) locks (makeLock p l q now locks)
  | upgrade :
      HasState p l [.analysisReading] locks →
      LockStep (.upgrade p l) locks (upgradeToCommittingLock p l locks)
  | downgrade :
      HasState p l [.analysisPendingCommit, .analysisCommitting] locks →
      LockStep (.downgrade p l) locks (downgradeToReadingLock p l locks)
  | release :
      releaseLock p l locks = .ok locks' →
      LockStep (.release p l) locks locks'
  | renew :
      renewLock p l now locks = .ok (locks', renewed) →
      LockStep (.renew p l now) locks locks'
  | setInUse : LockStep (.setInUse p l value) locks (setInUse p l value locks)
  | cleanup : LockStep (.cleanup now visible) locks (cleanupLocks now visible locks)
  | reorder : locks.Perm locks' → LockStep .reorder locks locks'

/-- The tables any interleaving of operations reaches from the empty table. -/
def ReachableLocks (locks : LockTable) : Prop :=
  TransitionSystem.Run LockStep (fun _ _ => True) [] locks

/-!
## Requests and their transactions

A request that needs a lock runs inside `get_locked`.  It checks its lock, raises
the flag `in_use`, opens a data transaction, and ends the transaction and lowers the
flag when the endpoint returns.  A request that sets the model also enters
`_upgrade_to_commiting_lock`, whose two halves are transactions of their own on
another connection.  The request is therefore a sequence of transactions, and the
transactions of different requests, of clients that take and give back locks and
of the cleanup task interleave freely.

The data transaction is seen by the others when it commits, which is after the
exit half of the upgrade: `invalidate_and_set_model` closes the upgrade before it
returns to `get_locked`.
-/

/-! ## Checking a lock -/

inductive LockCheckType where
  | any
  | artifact
  | analysis
deriving DecidableEq, Repr

/-- The states of a lock that pass a check. -/
def LockCheckType.accepts : LockCheckType → LockState → Bool
  | .any, _ => true
  | .artifact, st => st == .artifact || st == .analysisReading
  | .analysis, st => st == .analysisReading

inductive CheckLockResult where
  | ok
  | missing
  | expired
  | typeMismatch
deriving DecidableEq, Repr

/-- `_is_lock_compatible` -/
def isLockCompatible (project : ProjectID) (lockId : LockID) (type : LockCheckType) (now : Nat)
    (locks : LockTable) : CheckLockResult :=
  match locks.find? (·.matches project lockId) with
  | none => .missing
  | some r =>
      if ¬ r.refreshTimestamp + lockExpirySeconds > now then .expired
      else if type.accepts r.lockType then .ok
      else .typeMismatch

/-! ## The server -/

variable {Model : Type}

abbrev RequestID := Nat

/-- What a request does with its locked storage. -/
inductive RequestTask (Model : Type) where
  /-- An endpoint that reads the model, or reads and writes objects and files. -/
  | data (type : LockCheckType)
  /-- `/model/set`, which calls `invalidate_and_set_model`. -/
  | setModel (model : Model)
  /-- `upgrade_project`, which prunes the objects under the commit upgrade. -/
  | upgradeProject
deriving DecidableEq, Repr

def RequestTask.checkType : RequestTask Model → LockCheckType
  | .data type => type
  | .setModel _ => .analysis
  | .upgradeProject => .analysis

def RequestTask.upgrades : RequestTask Model → Bool
  | .data _ => false
  | .setModel _ => true
  | .upgradeProject => true

/-- Where a request is in `get_locked`. -/
inductive RequestPhase where
  /-- The lock has passed the check. -/
  | checked
  /-- The flag `in_use` is committed and the data transaction is open. -/
  | opened
  /-- The upgrade is pending, the request listens for its notification. -/
  | waiting
  /-- The upgrade is complete. -/
  | upgraded
  /-- The new model is in the data transaction. -/
  | written
  /-- The upgrade is closed again, after the new model was written or not. -/
  | downgraded (written : Bool)
  /-- The data transaction has ended, the flag `in_use` is still raised. -/
  | closing
deriving DecidableEq, Repr

structure Request (Model : Type) where
  project : ProjectID
  lockId : LockID
  task : RequestTask Model
  phase : RequestPhase
deriving DecidableEq, Repr

/-- The columns of the table `project` that a new model changes. -/
structure ProjectRow (Model : Type) where
  model : Option Model
  epoch : Nat
deriving DecidableEq, Repr

/-- The committed tables and the requests in flight. -/
structure ServerState (Model : Type) where
  locks : LockTable
  projects : ProjectID → ProjectRow Model
  requests : RequestID → Option (Request Model)

/-- No lock, no request, and any projects. -/
def ServerState.initial (projects : ProjectID → ProjectRow Model) : ServerState Model :=
  ⟨[], projects, fun _ => none⟩

/-- The statement `UPDATE project SET model = m, epoch = epoch + 1`, once committed. -/
def ProjectRow.setModel (model : Model) (row : ProjectRow Model) : ProjectRow Model :=
  ⟨some model, row.epoch + 1⟩

/-- The row of `project` after the data transaction of a request ends. -/
def commitModel (r : Request Model) (commit : Bool) (projects : ProjectID → ProjectRow Model) :
    ProjectID → ProjectRow Model :=
  match r.task, r.phase, commit with
  | .setModel m, .downgraded true, true =>
      Function.update projects r.project ((projects r.project).setModel m)
  | _, _, _ => projects

/-- The locks `_unlock_next` promotes, each of which is notified. -/
def promotedLocks (project : ProjectID) (state : ProjectState) (locks : LockTable) :
    List (LockID × LockState) :=
  toPromote state (getPendingLocks project locks)

/-- A notification wakes the requests that wait for their lock.  Such a lock is
pending, so it is promoted to a committing lock. -/
def wakeRequests (project : ProjectID) (promoted : List (LockID × LockState))
    (requests : RequestID → Option (Request Model)) : RequestID → Option (Request Model) :=
  fun id => (requests id).map fun r =>
    if r.phase = .waiting ∧ r.project = project ∧ (r.lockId, .analysisCommitting) ∈ promoted then
      { r with phase := .upgraded }
    else r

/-- The state with request `id` replaced. -/
def ServerState.setRequest (s : ServerState Model) (id : RequestID)
    (r : Option (Request Model)) : ServerState Model :=
  { s with requests := Function.update s.requests id r }

/-! ## Steps -/

inductive ServerOp (Model : Type) where
  | makeLock (project : ProjectID) (lockId : LockID) (request : LockRequest) (now : Nat)
  | release (project : ProjectID) (lockId : LockID)
  | renew (project : ProjectID) (lockId : LockID) (now : Nat)
  | unblock (project : ProjectID)
  | collect (now : Nat)
  | reorder
  | check (id : RequestID) (project : ProjectID) (lockId : LockID) (task : RequestTask Model)
      (now : Nat)
  | openData (id : RequestID)
  | upgrade (id : RequestID)
  | cancel (id : RequestID)
  | write (id : RequestID)
  | downgrade (id : RequestID)
  | finish (id : RequestID) (commit : Bool)
  | close (id : RequestID)
deriving DecidableEq, Repr

/-- The transactions of the server. -/
inductive ServerStep : ServerOp Model → ServerState Model → ServerState Model → Prop where
  | makeLock :
      ServerStep (.makeLock p l q now) s { s with locks := makeLock p l q now s.locks }
  | release :
      releaseLock p l s.locks = .ok locks' →
      ServerStep (.release p l) s { s with
        locks := locks'
        requests := wakeRequests p (promotedLocks p (computeProjectState p s.locks)
          (deleteLock p l s.locks)) s.requests }
  /-- A valid lock is refreshed, a missing one is left alone. -/
  | renew :
      isLockCompatible p l .any now s.locks ≠ .expired →
      renewLock p l now s.locks = .ok (locks', renewed) →
      ServerStep (.renew p l now) s { s with locks := locks' }
  /-- An expired lock is released. -/
  | renewExpired :
      isLockCompatible p l .any now s.locks = .expired →
      ServerStep (.release p l) s s' →
      ServerStep (.renew p l now) s s'
  /-- The transaction in which `_cleanup_locks` promotes the locks of one project. -/
  | unblock :
      ServerStep (.unblock p) s { s with
        locks := unlockNext p (computeProjectState p s.locks) s.locks
        requests := wakeRequests p (promotedLocks p (computeProjectState p s.locks) s.locks)
          s.requests }
  /-- The transaction in which `_cleanup_locks` deletes the expired locks. -/
  | collect :
      ServerStep (.collect now) s { s with locks := s.locks.filter (!·.isCollectable now) }
  | reorder : s.locks.Perm locks' → ServerStep .reorder s { s with locks := locks' }
  | check :
      s.requests i = none →
      isLockCompatible p l task.checkType now s.locks = .ok →
      ServerStep (.check i p l task now) s (s.setRequest i (some ⟨p, l, task, .checked⟩))
  | openData :
      s.requests i = some r → r.phase = .checked →
      ServerStep (.openData i) s { s.setRequest i (some { r with phase := .opened }) with
        locks := setInUse r.project r.lockId true s.locks }
  /-- The entry half of `_upgrade_to_commiting_lock`. -/
  | upgrade :
      s.requests i = some r → r.phase = .opened → r.task.upgrades = true →
      ServerStep (.upgrade i) s { s.setRequest i (some { r with
        phase := if (computeProjectState r.project s.locks).artifactRunning then .waiting
          else .upgraded }) with
        locks := upgradeToCommittingLock r.project r.lockId s.locks }
  /-- A request that fails while it waits has not entered the upgrade yet. -/
  | cancel :
      s.requests i = some r → r.phase = .waiting →
      ServerStep (.cancel i) s (s.setRequest i (some { r with phase := .closing }))
  | write :
      s.requests i = some r → r.phase = .upgraded → r.task = .setModel m →
      ServerStep (.write i) s (s.setRequest i (some { r with phase := .written }))
  /-- The exit half of `_upgrade_to_commiting_lock`, which also runs after a failure. -/
  | downgrade :
      s.requests i = some r → r.phase = .upgraded ∨ r.phase = .written →
      ServerStep (.downgrade i) s { s.setRequest i (some { r with
        phase := .downgraded (r.phase == .written) }) with
        locks := downgradeToReadingLock r.project r.lockId s.locks }
  /-- The end of the data transaction, a commit or a rollback. -/
  | finish :
      s.requests i = some r → r.phase = .opened ∨ (∃ b, r.phase = .downgraded b) →
      ServerStep (.finish i commit) s { s.setRequest i (some { r with phase := .closing }) with
        projects := commitModel r commit s.projects }
  | close :
      s.requests i = some r → r.phase = .closing →
      ServerStep (.close i) s { s.setRequest i none with
        locks := setInUse r.project r.lockId false s.locks }

end RssServer
