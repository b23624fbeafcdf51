import Revng.RssServer.LockExclusion

/-!
# The model under an artifact lock

The client that holds an artifact lock reads the model of its project in several
requests and relies on it not to change in between.  The lock protects it from a
request that has upgraded its analysis lock, because an upgrade is complete only
when no artifact lock is held.

The new model is committed after the upgrade is closed.  From the downgrade to the
commit the table shows a mere reading lock, so an artifact lock can be granted while
a model is still to be committed.  `AdmitsNoReader` excludes exactly such grants.  A
run without them never changes the model under an artifact lock: a project with a
model on its way has no artifact lock (`StableModel`).
-/

namespace RssServer

open TransitionSystem

variable {Model : Type}

/-! ## Promotions of artifact and of committing locks -/

variable {state : ProjectState} {pending : List (LockID × LockState)}

theorem mem_toPromote {x : LockID × LockState} (h : x ∈ toPromote state pending) :
    ∃ st s s', (x.1, st) ∈ pending ∧ promotion s st = some (x.2, s') := by
  induction pending generalizing state with
  | nil => simp [toPromote] at h
  | cons y rest ih =>
    obtain ⟨lockId, st⟩ := y
    simp only [toPromote] at h
    split at h
    · simp at h
    · cases hp : promotion state st with
      | none =>
        rw [hp] at h
        obtain ⟨st', s, s', hmem, hs⟩ := ih h
        exact ⟨st', s, s', List.mem_cons_of_mem _ hmem, hs⟩
      | some q =>
        rw [hp] at h
        rcases List.mem_cons.mp h with rfl | h
        · exact ⟨st, state, q.2, by simp, hp⟩
        · obtain ⟨st', s, s', hmem, hs⟩ := ih h
          exact ⟨st', s, s', List.mem_cons_of_mem _ hmem, hs⟩

/-- While an analysis is writing no artifact lock is granted. -/
theorem toPromote_writing (hw : state.analysisState = .writing) :
    ∀ x ∈ toPromote state pending, x.2 ≠ .artifact := by
  induction pending generalizing state with
  | nil => simp [toPromote]
  | cons y rest ih =>
    obtain ⟨lockId, st⟩ := y
    simp only [toPromote]
    split
    · simp
    · cases hp : promotion state st with
      | none => exact ih hw
      | some q =>
        obtain ⟨st', state'⟩ := q
        intro x hx
        rcases List.mem_cons.mp hx with rfl | hx
        · rcases promotion_eq_some hp with ⟨-, h, -⟩ | ⟨-, h, -⟩ | ⟨-, -, rfl, -⟩
          · exact absurd hw h
          · rw [hw] at h
            cases h
          · simp
        · exact ih ((ProjectState.Le.of_promotion hp).writing hw) x hx

variable {lockId : LockID}

/-- One run of the loop that makes a lock committing found no artifact lock and
grants none. -/
theorem toPromote_committing (h : (lockId, .analysisCommitting) ∈ toPromote state pending) :
    state.artifactRunning = false ∧ ∀ x ∈ toPromote state pending, x.2 ≠ .artifact := by
  induction pending generalizing state with
  | nil => simp [toPromote] at h
  | cons y rest ih =>
    obtain ⟨l, st⟩ := y
    simp only [toPromote] at h ⊢
    split at h
    · simp at h
    next hbreak =>
      rw [if_neg hbreak]
      cases hp : promotion state st with
      | none =>
        rw [hp] at h
        exact ih h
      | some q =>
        rw [hp] at h
        rcases promotion_eq_some hp with
          ⟨-, -, hst, hstate⟩ | ⟨-, -, hst, hstate⟩ | ⟨-, hrun, hst, hstate⟩
        · -- an artifact lock was granted first, so nothing becomes committing
          rcases List.mem_cons.mp h with h | h
          · simp [hst] at h
          · have := (ih h).1
            simp [hstate] at this
        · rcases List.mem_cons.mp h with h | h
          · simp [hst] at h
          · have hrest := ih h
            rw [hstate] at hrest
            refine ⟨hrest.1, fun x hx => ?_⟩
            rcases List.mem_cons.mp hx with rfl | hx
            · simp [hst]
            · exact hrest.2 x (hstate ▸ hx)
        · refine ⟨hrun, fun x hx => ?_⟩
          rcases List.mem_cons.mp hx with rfl | hx
          · simp [hst]
          · exact toPromote_writing (by rw [hstate]) x hx

/-! ## Projects without artifact locks -/

/-- No lock of the project is an artifact lock. -/
def ArtifactFree (project : ProjectID) (locks : LockTable) : Prop :=
  ∀ r ∈ locks, r.projectId = project → r.lockType ≠ .artifact

variable {project : ProjectID} {locks : LockTable}

variable {locks' : LockTable}

theorem ArtifactFree.subset (h : ArtifactFree project locks) (hs : locks' ⊆ locks) :
    ArtifactFree project locks' :=
  fun r hr => h r (hs hr)

theorem artifactFree_of_summary (h : (computeProjectState project locks).artifactRunning = false) :
    ArtifactFree project locks := by
  intro r hr hp ht
  simp only [computeProjectState, Option.isSome_eq_false_iff, Option.isNone_iff_eq_none,
    List.find?_eq_none] at h
  exact h r hr (by simp [hp, ht])

/-- An update of the table that makes no lock an artifact lock. -/
theorem ArtifactFree.map (h : ArtifactFree project locks) {f : LockRow → LockRow}
    (hproj : ∀ r, (f r).projectId = r.projectId)
    (htype : ∀ r, (f r).lockType = .artifact → r.lockType = .artifact) :
    ArtifactFree project (locks.map f) := by
  intro r hr hp ht
  obtain ⟨a, ha, rfl⟩ := List.mem_map.mp hr
  exact h a ha (hproj a ▸ hp) (htype a ht)

theorem ArtifactFree.setLockType {project' : ProjectID} {st : LockState}
    (h : ArtifactFree project locks) (hst : st ≠ .artifact) :
    ArtifactFree project (setLockType project' lockId st locks) := by
  refine h.map (fun r => ?_) (fun r => ?_)
  · split <;> rfl
  · split
    · exact fun e => absurd e hst
    · exact fun e => e

theorem ArtifactFree.unlockNext {project' : ProjectID} (h : ArtifactFree project locks)
    (hp : project = project' → ∀ x ∈ promotedLocks project' state locks, x.2 ≠ .artifact) :
    ArtifactFree project (unlockNext project' state locks) := by
  intro r hr hrp ht
  rcases mem_promote hr with hr | ⟨hrp', hm⟩
  · exact h r hr hrp ht
  · exact hp (hrp.symm.trans hrp') _ hm ht

/-! ## Models on their way to a commit -/

/-- The request will commit a new model unless it fails. -/
def Request.committing (r : Request Model) : Bool :=
  match r.task, r.phase with
  | .setModel _, .upgraded | .setModel _, .written | .setModel _, .downgraded true => true
  | _, _ => false

/-- Some request of the project has completed its upgrade and has yet to end its data
transaction. -/
def ServerState.CommitOpen (s : ServerState Model) (project : ProjectID) : Prop :=
  ∃ i r, s.requests i = some r ∧ r.project = project ∧ r.committing = true

/-- No waiting artifact lock other than `lockId` is let through while a commit is
open: the table shows a writing analysis. -/
def PromotesNoReader (project : ProjectID) (lockId : Option LockID) (s : ServerState Model) :
    Prop :=
  s.CommitOpen project →
    (∃ r ∈ s.locks, r.projectId = project ∧ lockId ≠ some r.lockId ∧
      r.lockType = .artifactWaiting) →
    (computeProjectState project s.locks).analysisState = .writing

/-- The step hands out no artifact lock of a project with an open commit. -/
def AdmitsNoReader : ServerOp Model → ServerState Model → Prop
  | .makeLock p _ .artifact _, s =>
      s.CommitOpen p → (computeProjectState p s.locks).analysisState = .writing
  | .release p l, s => PromotesNoReader p (some l) s
  | .renew p l now, s =>
      isLockCompatible p l .any now s.locks = .expired → PromotesNoReader p (some l) s
  | .unblock p, s => PromotesNoReader p none s
  | _, _ => True

/-- A project with an open commit has no artifact lock. -/
def StableModel (s : ServerState Model) : Prop :=
  ∀ project, s.CommitOpen project → ArtifactFree project s.locks

/-! ## The steps -/

theorem wakeRequests_committing {promoted : List (LockID × LockState)}
    {requests : RequestID → Option (Request Model)} {i : RequestID} {r : Request Model}
    (h : wakeRequests project promoted requests i = some r) (hc : r.committing = true) :
    requests i = some r ∨
      (r.project = project ∧ (r.lockId, .analysisCommitting) ∈ promoted) := by
  simp only [wakeRequests, Option.map_eq_some_iff] at h
  obtain ⟨a, ha, hr⟩ := h
  split at hr
  next hw =>
    subst hr
    exact Or.inr ⟨hw.2.1, hw.2.2⟩
  · exact Or.inl (hr ▸ ha)

variable {s : ServerState Model}

/-- The promotions of a release and of the cleanup task, on a part of the table the
summary was computed from. -/
theorem StableModel.unlockNext (h : StableModel s) (hs : locks ⊆ s.locks)
    (hok : s.CommitOpen project →
      (∃ r ∈ locks, r.projectId = project ∧ r.lockType = .artifactWaiting) →
      (computeProjectState project s.locks).analysisState = .writing) :
    StableModel { s with
      locks := RssServer.unlockNext project (computeProjectState project s.locks) locks
      requests := wakeRequests project
        (promotedLocks project (computeProjectState project s.locks) locks) s.requests } := by
  rintro q ⟨i, r, hr, rfl, hc⟩
  rcases wakeRequests_committing hr hc with hr | ⟨hrp, hm⟩
  · -- the commit was open before
    have hopen : s.CommitOpen r.project := ⟨i, r, hr, rfl, hc⟩
    refine ((h _ hopen).subset hs).unlockNext fun hrp x hx ht => ?_
    obtain ⟨st, st₁, st₂, hmem, hp⟩ := mem_toPromote hx
    rcases promotion_eq_some hp with ⟨rfl, -⟩ | ⟨-, -, hst, -⟩ | ⟨-, -, hst, -⟩
    · obtain ⟨a, ha, hap, -, hat⟩ := row_of_mem_getPendingLocks hmem
      have hw := hok (hrp ▸ hopen) ⟨a, ha, hap, hat⟩
      exact toPromote_writing hw x hx ht
    · rw [ht] at hst
      cases hst
    · rw [ht] at hst
      cases hst
  · -- the commit is opened by this very loop
    obtain ⟨hrun, hnone⟩ := toPromote_committing hm
    rw [hrp]
    exact ((artifactFree_of_summary hrun).subset hs).unlockNext fun _ => hnone

theorem StableModel.release (h : StableModel s)
    (hr : releaseLock project lockId s.locks = .ok locks')
    (hok : PromotesNoReader project (some lockId) s) :
    StableModel { s with
      locks := locks'
      requests := wakeRequests project (promotedLocks project
        (computeProjectState project s.locks) (deleteLock project lockId s.locks)) s.requests } := by
  rw [releaseLock_eq_ok hr]
  refine h.unlockNext List.filter_sublist.subset fun hopen hwait => hok hopen ?_
  obtain ⟨r, hr, hrp, ht⟩ := hwait
  obtain ⟨hr, hm⟩ := List.mem_filter.mp hr
  refine ⟨r, hr, hrp, fun e => ?_, ht⟩
  cases e
  simp [LockRow.matches, hrp] at hm

/-- A step that replaces one request and grants no artifact lock. -/
theorem StableModel.setRequest (h : StableModel s) {i : RequestID} {r : Option (Request Model)}
    (hlocks : ∀ project, ArtifactFree project s.locks → ArtifactFree project locks')
    (hr : ∀ r', r = some r' → r'.committing = true → ArtifactFree r'.project s.locks)
    (projects : ProjectID → ProjectRow Model) :
    StableModel { s.setRequest i r with locks := locks', projects := projects } := by
  rintro q ⟨j, r', hj, rfl, hc⟩
  refine hlocks _ ?_
  simp only [ServerState.setRequest, Function.update_apply] at hj
  split at hj
  · exact hr r' hj hc
  · exact h _ ⟨j, r', hj, rfl, hc⟩

theorem Request.not_committing {r : Request Model} {phase : RequestPhase}
    (h : phase ∈ [.checked, .opened, .waiting, .downgraded false, .closing]) :
    ({ r with phase := phase } : Request Model).committing = false := by
  simp only [List.mem_cons, List.not_mem_nil, or_false] at h
  rcases h with rfl | rfl | rfl | rfl | rfl <;> cases r.task <;> simp [committing]

/-- A step that hands out no artifact lock of a project with an open commit keeps the
projects with an open commit free of artifact locks. -/
theorem ServerStep.stableModel {op : ServerOp Model} {s' : ServerState Model}
    (hstep : ServerStep op s s') (hok : AdmitsNoReader op s) (h : StableModel s) :
    StableModel s' := by
  have hinUse : ∀ p l v project, ArtifactFree project s.locks →
      ArtifactFree project (setInUse p l v s.locks) := by
    intro p l v project hfree
    refine hfree.map (fun r => ?_) (fun r => ?_) <;> split <;> simp
  cases hstep with
  | makeLock =>
    rename_i p l request now
    rintro project ⟨i, r, hr, rfl, hc⟩
    have hopen : s.CommitOpen r.project := ⟨i, r, hr, rfl, hc⟩
    simp only [RssServer.makeLock]
    split
    · exact h _ hopen
    · rintro a ha hap hat
      rcases List.mem_cons.mp ha with rfl | ha
      · cases request with
        | artifact =>
          subst hap
          simp [initialLockState, hok hopen] at hat
        | analysis =>
          simp only [initialLockState] at hat
          split at hat <;> cases hat
      · exact h _ hopen a ha hap hat
  | release hr => exact h.release hr hok
  | renew hvalid hr =>
    rintro project hopen
    have hfree := h project hopen
    rcases renewLock_eq_ok hr with ⟨-, rfl⟩ | ⟨r, hfind, ⟨-, rfl⟩ | ⟨hexp, -⟩⟩
    · exact hfree
    · refine hfree.map (fun r => ?_) (fun r => ?_) <;> split <;> simp
    · exact absurd (by simp [isLockCompatible, hfind, Nat.not_lt.mpr hexp]) hvalid
  | renewExpired hexp hrel =>
    cases hrel with
    | release hr => exact h.release hr (hok hexp)
  | unblock =>
    refine h.unlockNext (List.Subset.refl _) fun hopen hwait => hok hopen ?_
    obtain ⟨r, hr, hrp, ht⟩ := hwait
    exact ⟨r, hr, hrp, by simp, ht⟩
  | collect => exact fun project hopen => (h project hopen).subset List.filter_sublist.subset
  | reorder hp => exact fun project hopen => (h project hopen).subset hp.symm.subset
  | check hnone hcompat =>
    refine h.setRequest (fun _ hf => hf) (fun r' hr' hc => ?_) s.projects
    cases hr'
    simp [Request.committing] at hc
  | openData hr hphase =>
    refine h.setRequest (hinUse _ _ _) (fun r' hr' hc => ?_) s.projects
    cases hr'
    simp [Request.not_committing] at hc
  | upgrade hr hphase htask =>
    refine h.setRequest (fun _ hf => ?_) (fun r' hr' hc => ?_) s.projects
    · refine hf.setLockType ?_
      split <;> simp
    · cases hr'
      cases hrun : (computeProjectState _ s.locks).artifactRunning with
      | true => simp [hrun, Request.not_committing] at hc
      | false => exact artifactFree_of_summary hrun
  | cancel hr hphase =>
    refine h.setRequest (fun _ hf => hf) (fun r' hr' hc => ?_) s.projects
    cases hr'
    simp [Request.not_committing] at hc
  | write hr hphase htask =>
    refine h.setRequest (fun _ hf => hf) (fun r' hr' hc => ?_) s.projects
    cases hr'
    exact h _ ⟨_, _, hr, rfl, by simp [Request.committing, htask, hphase]⟩
  | downgrade hr hphase =>
    refine h.setRequest (fun _ hf => hf.setLockType (by simp)) (fun r' hr' hc => ?_) s.projects
    cases hr'
    rcases hphase with hphase | hphase
    · simp [hphase, Request.not_committing] at hc
    · refine h _ ⟨_, _, hr, rfl, ?_⟩
      rename_i r _
      cases ht : r.task <;> simp_all [Request.committing]
  | finish hr hphase =>
    refine h.setRequest (fun _ hf => hf) (fun r' hr' hc => ?_) _
    cases hr'
    simp [Request.not_committing] at hc
  | close hr hphase =>
    exact h.setRequest (hinUse _ _ _) (fun r' hr' => by cases hr') s.projects

/-- The committed model of a project changes only where a commit is open. -/
theorem ServerStep.projects_eq {op : ServerOp Model} {s' : ServerState Model}
    (hstep : ServerStep op s s') (hc : ¬ s.CommitOpen project) :
    s'.projects project = s.projects project := by
  cases hstep with
  | finish hr hphase =>
    rename_i r i commit
    cases ht : r.task with
    | setModel m =>
      rcases hphase with hphase | ⟨b, hphase⟩
      · simp [commitModel, ht, hphase]
      · cases b <;> cases commit <;> simp only [commitModel, ht, hphase]
        refine Function.update_of_ne (fun hp => hc ⟨i, r, hr, hp.symm, ?_⟩) _ _
        simp [Request.committing, ht, hphase]
    | _ => simp [commitModel, ht]
  | renewExpired _ hrel =>
    cases hrel
    rfl
  | _ => rfl

theorem StableModel.initial (projects : ProjectID → ProjectRow Model) :
    StableModel (ServerState.initial projects) := by
  intro project _ r hr
  simp [ServerState.initial] at hr

/-! ## Runs -/

/-- In a run that hands out no artifact lock while a commit is open, the model and the
epoch of a project stay as they are for as long as an artifact lock of it is held. -/
theorem run_model_stable {projects : ProjectID → ProjectRow Model} {s t : ServerState Model}
    {project : ProjectID} {lockId : LockID}
    (hs : Run ServerStep AdmitsNoReader (ServerState.initial projects) s)
    (hst : Run ServerStep
      (fun op u => AdmitsNoReader op u ∧ HasState project lockId [.artifact] u.locks) s t) :
    t.projects project = s.projects project := by
  have hstable : StableModel s :=
    hs.invariant (StableModel.initial projects) fun _ _ _ hok hstep h => hstep.stableModel hok h
  have hinv : StableModel t ∧ t.projects project = s.projects project := by
    refine hst.invariant (P := fun u => StableModel u ∧ u.projects project = s.projects project)
      ⟨hstable, rfl⟩ fun op u v hok hstep h => ⟨hstep.stableModel hok.1 h.1, ?_⟩
    rw [← h.2]
    refine hstep.projects_eq fun hopen => ?_
    obtain ⟨r, hr, hm, ht⟩ := hok.2
    exact h.1 project hopen r hr (LockRow.matches_iff.mp hm).1 (List.mem_singleton.mp ht)
  exact hinv.2

/-- A request of project `p` that has closed its upgrade and has yet to commit. -/
theorem run_to_downgraded :
    ∃ s : ServerState String,
      Run ServerStep AdmitsNoReader (ServerState.initial fun _ => ⟨none, 0⟩) s ∧
      s.locks = [⟨"p", "ana", .analysisReading, 0, 0, true⟩] ∧
      s.projects = (fun _ => ⟨none, 0⟩) ∧
      (∀ i, i ≠ 0 → s.requests i = none) ∧
      s.requests 0 = some ⟨"p", "ana", .setModel "new", .downgraded true⟩ := by
  have h₀ : Run ServerStep AdmitsNoReader
      (ServerState.initial fun _ => (⟨none, 0⟩ : ProjectRow String)) _ := .refl _
  have h₁ := h₀.tail (a := ServerOp.makeLock "p" "ana" .analysis 0) trivial .makeLock
  have h₂ := h₁.tail (a := ServerOp.check 0 "p" "ana" (.setModel "new") 1) trivial (.check rfl rfl)
  have h₃ := h₂.tail (a := ServerOp.openData 0) trivial (.openData rfl rfl)
  have h₄ := h₃.tail (a := ServerOp.upgrade 0) trivial (.upgrade rfl rfl rfl)
  have h₅ := h₄.tail (a := ServerOp.write 0) trivial (.write rfl rfl rfl)
  have h₆ := h₅.tail (a := ServerOp.downgrade 0) trivial (.downgrade rfl (Or.inr rfl))
  refine ⟨_, h₆, rfl, rfl, fun i hi => ?_, rfl⟩
  simp [ServerState.setRequest, ServerState.initial, hi]

/-- An artifact lock that is granted after the request has committed sees the new
model and no other. -/
theorem run_model_stable_after_commit :
    ∃ s t : ServerState String,
      Run ServerStep AdmitsNoReader (ServerState.initial fun _ => ⟨none, 0⟩) s ∧
      Run ServerStep
        (fun op u => AdmitsNoReader op u ∧ HasState "p" "art" [.artifact] u.locks) s t ∧
      s.projects "p" = ⟨some "new", 1⟩ ∧ t.projects "p" = s.projects "p" := by
  obtain ⟨u, hu, hlocks, hprojects, hnone, hreq⟩ := run_to_downgraded
  have hcommit := hu.tail (a := ServerOp.finish 0 true) trivial (.finish hreq (Or.inr ⟨_, rfl⟩))
  have hgrant := hcommit.tail (a := ServerOp.makeLock "p" "art" .artifact 2)
    (fun ⟨i, r, hi, _, hc⟩ => by
      by_cases hi0 : i = 0
      · subst hi0
        simp only [ServerState.setRequest, Function.update_self, Option.some.injEq] at hi
        subst hi
        cases hc
      · simp [ServerState.setRequest, hi0, hnone] at hi)
    .makeLock
  obtain ⟨v, hv, hheld, hclosing, hmodel⟩ : ∃ v : ServerState String,
      Run ServerStep AdmitsNoReader (ServerState.initial fun _ => ⟨none, 0⟩) v ∧
      HasState "p" "art" [.artifact] v.locks ∧
      v.requests 0 = some ⟨"p", "ana", .setModel "new", .closing⟩ ∧
      v.projects "p" = ⟨some "new", 1⟩ := by
    refine ⟨_, hgrant, ?_, by simp [ServerState.setRequest],
      by simp [commitModel, ProjectRow.setModel, hprojects]⟩
    simp only [ServerState.setRequest, hlocks]
    decide
  have hclose : Run ServerStep
      (fun op u => AdmitsNoReader op u ∧ HasState "p" "art" [.artifact] u.locks) v _ :=
    (Run.refl v).tail (a := ServerOp.close 0) ⟨trivial, hheld⟩ (.close hclosing rfl)
  exact ⟨v, _, hv, hclose, hmodel, run_model_stable hv hclose⟩

/-- An artifact lock that is granted between the downgrade and the commit sees the
model change. -/
theorem not_model_stable :
    ¬ ∀ (projects : ProjectID → ProjectRow String) (s t : ServerState String)
        (project : ProjectID) (lockId : LockID),
      Run ServerStep (fun _ _ => True) (ServerState.initial projects) s →
      Run ServerStep (fun _ u => HasState project lockId [.artifact] u.locks) s t →
      t.projects project = s.projects project := by
  intro h
  obtain ⟨u, hu, hlocks, hprojects, -, hreq⟩ := run_to_downgraded
  have hgrant : Run ServerStep (fun _ _ => True) _ _ :=
    (hu.mono fun _ _ _ => trivial).tail (a := ServerOp.makeLock "p" "art" .artifact 2) trivial
      .makeLock
  have heq := h _ _ _ "p" "art" hgrant ((Run.refl _).tail (a := ServerOp.finish 0 true)
    (by simp only [hlocks]; decide) (.finish hreq (Or.inr ⟨_, rfl⟩)))
  simp [commitModel, ProjectRow.setModel, hprojects] at heq

end RssServer
