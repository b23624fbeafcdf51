import Mathlib.Data.List.Dedup
import Revng.RssServer.LockExclusion

/-!
# Waiting locks and the locks they wait for

A lock that waits is woken by the step of another client that removes its last
blocker.  `NoLostWakeup` says that no waiting lock was forgotten: each one still has
a blocker in the table.

A step that removes or weakens a blocker does not see its own effect.
`release_lock` promotes with the summary it computed before the deletion, the
downgrade after a commit promotes nothing, and the promotions of `_cleanup_locks`
run on a connection that does not see the deletion.  In a table where every
waiting lock is blocked such a step therefore promotes nothing at all
(`NoLostWakeup.unlockNext_eq`), and whether it forgets a waiting lock depends on
the table before it.  `KeepsBlockers` is that condition, and it is exact
(`LockStep.noLostWakeup_iff`).
-/

namespace RssServer

/-! ## Blockers -/

/-- A lock in the first state waits for every lock of its project in the second. -/
def LockState.waitsFor : LockState → LockState → Bool
  | .artifactWaiting, b => b == .analysisPendingCommit || b == .analysisCommitting
  | .analysisWaiting, b => b.isActiveAnalysis
  | .analysisPendingCommit, b => b == .artifact
  | _, _ => false

/-- Some lock among `blockers` keeps `r` waiting. -/
def LockRow.BlockedBy (r : LockRow) (blockers : LockTable) : Prop :=
  ∃ b ∈ blockers, b.projectId = r.projectId ∧ r.lockType.waitsFor b.lockType = true

instance (r : LockRow) (blockers : LockTable) : Decidable (r.BlockedBy blockers) :=
  inferInstanceAs (Decidable (∃ b ∈ blockers, _))

/-- Every waiting lock of `project` is blocked. -/
def BlockedIn (project : ProjectID) (locks : LockTable) : Prop :=
  ∀ r ∈ locks, r.projectId = project → r.lockType.isPending = true → r.BlockedBy locks

/-- Every waiting lock is blocked. -/
def NoLostWakeup (locks : LockTable) : Prop :=
  ∀ r ∈ locks, r.lockType.isPending = true → r.BlockedBy locks

instance (locks : LockTable) : Decidable (NoLostWakeup locks) :=
  inferInstanceAs (Decidable (∀ r ∈ locks, _))

variable {locks : LockTable}

theorem noLostWakeup_iff_blockedIn : NoLostWakeup locks ↔ ∀ project, BlockedIn project locks :=
  ⟨fun h _ r hr _ => h r hr, fun h r hr => h r.projectId r hr rfl⟩

variable {r : LockRow}

theorem LockRow.BlockedBy.mono {blockers blockers' : LockTable} (h : r.BlockedBy blockers)
    (hs : ∀ b ∈ blockers, b.projectId = r.projectId → b ∈ blockers') : r.BlockedBy blockers' := by
  obtain ⟨b, hb, hbp, hw⟩ := h
  exact ⟨b, hs b hb hbp, hbp, hw⟩

/-! ## Summaries that invent nothing -/

/-- What the summary reports is backed by a row. -/
structure Supported (state : ProjectState) (project : ProjectID) (locks : LockTable) :
    Prop where
  artifact : state.artifactRunning = true →
    ∃ r ∈ locks, r.projectId = project ∧ r.lockType = .artifact
  active : state.analysisState ≠ .none →
    ∃ r ∈ locks, r.projectId = project ∧ r.lockType.isActiveAnalysis = true
  writing : state.analysisState = .writing →
    ∃ r ∈ locks, r.projectId = project ∧
      (r.lockType = .analysisPendingCommit ∨ r.lockType = .analysisCommitting)

theorem supported_computeProjectState (project : ProjectID) (locks : LockTable) :
    Supported (computeProjectState project locks) project locks := by
  constructor
  · intro h
    simp only [computeProjectState, List.find?_isSome, Bool.and_eq_true, beq_iff_eq] at h
    exact h
  · simp only [computeProjectState]
    split
    · simp
    next r hr =>
      intro _
      have hp := List.find?_some hr
      simp only [Bool.and_eq_true, beq_iff_eq] at hp
      exact ⟨r, List.mem_of_find?_eq_some hr, hp⟩
  · simp only [computeProjectState]
    split
    · simp
    next r hr =>
      intro hw
      have hp := List.find?_some hr
      simp only [Bool.and_eq_true, beq_iff_eq] at hp
      refine ⟨r, List.mem_of_find?_eq_some hr, hp.1, ?_⟩
      cases ht : r.lockType <;> simp_all [LockState.isActiveAnalysis]

variable {state : ProjectState}

/-- A waiting lock that a supported summary does not let through is blocked. -/
theorem Supported.blockedBy (h : Supported state r.projectId locks)
    (hpend : r.lockType.isPending = true) (hn : promotion state r.lockType = none) :
    r.BlockedBy locks := by
  cases ht : r.lockType with
  | artifactWaiting =>
    simp only [ht, promotion, ite_eq_right_iff, reduceCtorEq, imp_false, not_not] at hn
    obtain ⟨b, hb, hbp, hbt⟩ := h.writing hn
    exact ⟨b, hb, hbp, by simpa [ht, LockState.waitsFor] using hbt⟩
  | analysisWaiting =>
    simp only [ht, promotion, ite_eq_right_iff, reduceCtorEq, imp_false] at hn
    obtain ⟨b, hb, hbp, hbt⟩ := h.active hn
    exact ⟨b, hb, hbp, by simpa [ht, LockState.waitsFor] using hbt⟩
  | analysisPendingCommit =>
    simp only [ht, promotion, Bool.not_eq_true', ite_eq_right_iff, reduceCtorEq, imp_false,
      Bool.not_eq_false] at hn
    obtain ⟨b, hb, hbp, hbt⟩ := h.artifact hn
    exact ⟨b, hb, hbp, by simpa [ht, LockState.waitsFor] using hbt⟩
  | _ => simp [ht, LockState.isPending] at hpend

/-- A waiting lock that is blocked is not let through by a summary that covers its
blocker. -/
theorem Covers.promotion_none (h : Covers state r.projectId locks) (hb : r.BlockedBy locks) :
    promotion state r.lockType = none := by
  obtain ⟨b, hb, hbp, hw⟩ := hb
  cases ht : r.lockType with
  | artifactWaiting =>
    simp only [ht, LockState.waitsFor, Bool.or_eq_true, beq_iff_eq] at hw
    simp [promotion, h.writing b hb hbp hw]
  | analysisWaiting =>
    simp only [ht, LockState.waitsFor] at hw
    simp [promotion, h.active b hb hbp hw]
  | analysisPendingCommit =>
    simp only [ht, LockState.waitsFor, beq_iff_eq] at hw
    simp [promotion, h.artifact b hb hbp hw]
  | _ => rfl

variable {project : ProjectID} {lockId : LockID}

/-- A promotion moves no lock that the summary relies on to another state, except
the pending lock, which becomes committing and is still a writing analysis. -/
theorem Supported.promoted {state' : ProjectState} {st st' : LockState}
    (h : Supported state project locks) (he : Exclusive locks)
    (hp : promotion state st = some (st', state'))
    (hrow : ∃ r ∈ locks, r.projectId = project ∧ r.lockId = lockId ∧ r.lockType = st) :
    Supported state' project (setLockType project lockId st' locks) := by
  obtain ⟨r, hr, hrp, hrl, hrt⟩ := hrow
  have hself : ({ r with lockType := st' } : LockRow) ∈ setLockType project lockId st' locks :=
    mem_setLockType.mpr (Or.inl ⟨r, hr, ⟨hrp, hrl⟩, rfl⟩)
  -- a row the summary relies on is the promoted one or survives as it is
  have hsurv : ∀ {q : LockState → Prop},
      (∃ b ∈ locks, b.projectId = project ∧ q b.lockType) → (q st → q st') →
      ∃ b ∈ setLockType project lockId st' locks, b.projectId = project ∧ q b.lockType := by
    rintro q ⟨b, hb, hbp, hbq⟩ hq
    by_cases hbl : b.lockId = lockId
    · have hbr : b = r := he.eq_of_key hb hr (hbp.trans hrp.symm) (hbl.trans hrl.symm)
      exact ⟨_, hself, hrp, hq (hrt ▸ hbr ▸ hbq)⟩
    · exact ⟨b, mem_setLockType.mpr (Or.inr ⟨hb, fun hm => hbl hm.2⟩), hbp, hbq⟩
  rcases promotion_eq_some hp with
    ⟨rfl, hw, rfl, rfl⟩ | ⟨rfl, hn, rfl, rfl⟩ | ⟨rfl, ha, rfl, rfl⟩
  · exact ⟨fun _ => ⟨_, hself, hrp, rfl⟩,
      fun hs => hsurv (q := fun t => t.isActiveAnalysis = true) (h.active hs) (by decide),
      fun hs => absurd hs hw⟩
  · exact ⟨fun hs => hsurv (q := (· = .artifact)) (h.artifact hs) (by simp),
      fun _ => ⟨_, hself, hrp, rfl⟩, fun hs => by cases hs⟩
  · exact ⟨fun hs => by simp [ha] at hs, fun _ => ⟨_, hself, hrp, rfl⟩,
      fun _ => ⟨_, hself, hrp, Or.inr rfl⟩⟩

/-! ## What `_unlock_next` does for the waiting locks -/

/-- With an up-to-date summary every lock of the project that is left waiting is
blocked. -/
theorem Exclusive.blockedIn_unlockNext (h : Exclusive locks) (project : ProjectID) :
    BlockedIn project
      (RssServer.unlockNext project (computeProjectState project locks) locks) := by
  obtain ⟨final, -, hfinal, hnone⟩ := promote_rule
    (P := fun state locks => Exclusive locks ∧ Covers state project locks ∧
      Supported state project locks)
    (fun h => h.1)
    (fun hp hrow h => ⟨h.1.setLockType fun b hb hbp hbl =>
      h.2.1.not_conflicts h.1 hp hrow hb hbp hbl, h.2.1.promoted hp,
      h.2.2.promoted h.1 hp hrow⟩)
    (getPendingLocks project locks) (computeProjectState project locks) locks
    (h.listed_getPendingLocks project)
    ⟨h, h.covers_computeProjectState project, supported_computeProjectState project locks⟩
  intro r hr hrp hpend
  have hid : r.lockId ∈ (getPendingLocks project locks).map Prod.fst := by
    by_contra hid
    -- a row that is not listed was there before, so it would have been listed
    have hr' := mem_of_mem_promote hr (Or.inr fun hm => hid (toPromote_subset _ _ hm))
    exact hid (mem_getPendingLocks hr' hrp hpend)
  exact Supported.blockedBy (hrp ▸ hfinal.2.2) hpend (hnone r hr hrp hpend hid)

/-- The rows of the other projects are not touched. -/
theorem mem_unlockNext_of_ne (hne : r.projectId ≠ project) :
    r ∈ unlockNext project state locks ↔ r ∈ locks := by
  refine ⟨fun hr => mem_of_mem_promote hr (Or.inl hne), fun hr => ?_⟩
  have hall : ∀ (promoted : List (LockID × LockState)) (ls : LockTable), r ∈ ls →
      r ∈ promote project ls promoted := by
    intro promoted
    induction promoted with
    | nil => exact fun _ h => h
    | cons x rest ih =>
      exact fun ls h => ih _ (mem_setLockType.mpr (Or.inr ⟨h, fun hm => hne hm.1⟩))
  exact hall _ _ hr

theorem BlockedIn.unlockNext_of_ne {project' : ProjectID} (h : BlockedIn project locks)
    (hne : project ≠ project') : BlockedIn project (unlockNext project' state locks) := by
  intro r hr hrp hpend
  have hr' := (mem_unlockNext_of_ne (hrp ▸ hne)).mp hr
  exact (h r hr' hrp hpend).mono fun b hb hbp =>
    (mem_unlockNext_of_ne (by rw [hbp, hrp]; exact hne)).mpr hb

theorem toPromote_eq_nil {pending : List (LockID × LockState)}
    (h : ∀ x ∈ pending, promotion state x.2 = none) : toPromote state pending = [] := by
  induction pending with
  | nil => rfl
  | cons x rest ih =>
    obtain ⟨lockId, st⟩ := x
    simp only [toPromote, h (lockId, st) (by simp), ite_eq_left_iff]
    exact fun _ => ih fun y hy => h y (List.mem_cons_of_mem _ hy)

variable {locks' : LockTable}

/-- Where every waiting lock is blocked, a summary that covers the blockers promotes
nothing, in the table it was computed from and in every part of it. -/
theorem BlockedIn.unlockNext_eq (h : BlockedIn project locks) (hc : Covers state project locks)
    (hs : locks' ⊆ locks) (he : Exclusive locks') : unlockNext project state locks' = locks' := by
  have hnil : toPromote state (getPendingLocks project locks') = [] := by
    refine toPromote_eq_nil fun x hx => ?_
    obtain ⟨r, hr, hrp, hrl, hrt⟩ := (he.listed_getPendingLocks project).row x hx
    have hpend : r.lockType.isPending = true := by
      simp only [getPendingLocks, List.mem_map, List.mem_insertionSort, List.mem_filter,
        Bool.and_eq_true] at hx
      obtain ⟨a, ⟨-, -, ha⟩, rfl⟩ := hx
      exact hrt ▸ ha
    subst hrp
    rw [← hrt]
    exact hc.promotion_none (h r (hs hr) rfl hpend)
  rw [unlockNext, hnil]
  rfl

/-! ## The steps that keep every waiting lock blocked -/

/-- Every waiting lock of `project` that stays has a blocker that stays. -/
def BlockedWithin (project : ProjectID) (stays : LockRow → Bool) (locks : LockTable) : Prop :=
  ∀ r ∈ locks, stays r = true → r.projectId = project → r.lockType.isPending = true →
    r.BlockedBy (locks.filter stays)

instance (project : ProjectID) (stays : LockRow → Bool) (locks : LockTable) :
    Decidable (BlockedWithin project stays locks) :=
  inferInstanceAs (Decidable (∀ r ∈ locks, _))

/-- The step removes no lock, or every waiting lock it leaves has a blocker that it
leaves too.  A lock is downgraded only when no artifact lock of the project waits. -/
def KeepsBlockers : LockOp → LockTable → Prop
  | .downgrade p _, locks => ∀ r ∈ locks, r.projectId = p → r.lockType ≠ .artifactWaiting
  | .release p l, locks => BlockedWithin p (!·.matches p l) locks
  | .renew p l now, locks =>
      (∃ r, locks.find? (·.matches p l) = some r ∧ r.refreshTimestamp + lockExpirySeconds ≤ now) →
        BlockedWithin p (!·.matches p l) locks
  | .cleanup now false, locks => ∀ r ∈ locks, BlockedWithin r.projectId (!·.isCollectable now) locks
  | _, _ => True

/-- A step that only deletes rows. -/
theorem noLostWakeup_filter_iff {stays : LockRow → Bool} :
    NoLostWakeup (locks.filter stays) ↔
      ∀ r ∈ locks, BlockedWithin r.projectId stays locks := by
  constructor
  · intro h _ _ r hr hstay _ hpend
    exact h r (List.mem_filter.mpr ⟨hr, hstay⟩) hpend
  · intro h r hr hpend
    obtain ⟨hr', hstay⟩ := List.mem_filter.mp hr
    exact h r hr' r hr' hstay rfl hpend

/-- An update that touches neither the key nor the state of a row. -/
theorem noLostWakeup_map_same {f : LockRow → LockRow} (hproj : ∀ r, (f r).projectId = r.projectId)
    (htype : ∀ r, (f r).lockType = r.lockType) (h : NoLostWakeup locks) :
    NoLostWakeup (locks.map f) := by
  intro r hr hpend
  obtain ⟨a, ha, rfl⟩ := List.mem_map.mp hr
  rw [htype] at hpend
  obtain ⟨b, hb, hbp, hw⟩ := h a ha hpend
  exact ⟨f b, List.mem_map_of_mem hb, by rw [hproj, hproj, hbp], by rw [htype, htype, hw]⟩

theorem NoLostWakeup.makeLock (h : NoLostWakeup locks) (project : ProjectID) (lockId : LockID)
    (request : LockRequest) (now : Nat) :
    NoLostWakeup (makeLock project lockId request now locks) := by
  simp only [RssServer.makeLock]
  split
  · exact h
  intro r hr hpend
  rcases List.mem_cons.mp hr with rfl | hr'
  · -- the new lock waits only when the summary found its blocker
    have hs := supported_computeProjectState project locks
    refine LockRow.BlockedBy.mono (Supported.blockedBy hs hpend ?_) fun b hb _ =>
      List.mem_cons_of_mem _ hb
    cases request <;> simp only [initialLockState] at hpend ⊢ <;> split <;>
      simp_all [promotion, LockState.isPending]
  · exact (h r hr' hpend).mono fun b hb _ => List.mem_cons_of_mem _ hb

/-- Moving a granted analysis lock to another state. -/
theorem NoLostWakeup.setActive (h : NoLostWakeup locks) (he : Exclusive locks)
    {states : List LockState} {st : LockState} (hs : HasState project lockId states locks)
    (hact : ∀ x ∈ states, x.isActiveAnalysis = true) (hst : st.isActiveAnalysis = true)
    (hpend : st = .analysisPendingCommit →
      ∃ b ∈ locks, b.projectId = project ∧ b.lockType = .artifact) (hart : st = .analysisReading →
      ∀ r ∈ locks, r.projectId = project → r.lockType ≠ .artifactWaiting) :
    NoLostWakeup (setLockType project lockId st locks) := by
  obtain ⟨a, ha, hm, hat⟩ := hs
  have hm := LockRow.matches_iff.mp hm
  have hself : ({ a with lockType := st } : LockRow) ∈ setLockType project lockId st locks :=
    mem_setLockType.mpr (Or.inl ⟨a, ha, hm, rfl⟩)
  -- a row that is not active is left where it is
  have hother : ∀ b ∈ locks, b.lockType.isActiveAnalysis = false →
      b ∈ setLockType project lockId st locks := by
    intro b hb hbt
    refine mem_setLockType.mpr (Or.inr ⟨hb, fun hbm => ?_⟩)
    rw [he.eq_of_key hb ha (hbm.1.trans hm.1.symm) (hbm.2.trans hm.2.symm), hact _ hat] at hbt
    cases hbt
  intro r hr hrpend
  rcases mem_setLockType.mp hr with ⟨c, hc, hcm, rfl⟩ | ⟨hr', hrm⟩
  · -- the lock itself waits when it becomes pending
    have hst' : st = .analysisPendingCommit := by
      cases st <;> simp_all [LockState.isPending, LockState.isActiveAnalysis]
    obtain ⟨b, hb, hbp, hbt⟩ := hpend hst'
    exact ⟨b, hother b hb (by rw [hbt]; rfl), hbp.trans hcm.1.symm,
      by simp [hst', hbt, LockState.waitsFor]⟩
  · obtain ⟨b, hb, hbp, hw⟩ := h r hr' hrpend
    by_cases hbm : b.projectId = project ∧ b.lockId = lockId
    · -- its blocker is the updated lock
      have hba : b = a := he.eq_of_key hb ha (hbm.1.trans hm.1.symm) (hbm.2.trans hm.2.symm)
      have hrp : r.projectId = project := hbp.symm.trans hbm.1
      refine ⟨_, hself, hm.1.trans hrp.symm, ?_⟩
      rw [hba] at hw
      have hact' := hact _ hat
      cases hrt : r.lockType with
      | artifactWaiting =>
        have hnr : st ≠ .analysisReading := fun e => hart e r hr' hrp hrt
        cases st <;> simp_all [LockState.waitsFor, LockState.isActiveAnalysis]
      | analysisWaiting => simpa [LockState.waitsFor] using hst
      | analysisPendingCommit =>
        simp only [hrt, LockState.waitsFor, beq_iff_eq] at hw
        rw [hw] at hact'
        cases hact'
      | _ => simp [hrt, LockState.isPending] at hrpend
    · exact ⟨b, mem_setLockType.mpr (Or.inr ⟨hb, hbm⟩), hbp, hw⟩

theorem NoLostWakeup.upgrade (h : NoLostWakeup locks) (he : Exclusive locks)
    (hs : HasState project lockId [.analysisReading] locks) :
    NoLostWakeup (upgradeToCommittingLock project lockId locks) := by
  simp only [upgradeToCommittingLock]
  split
  next hrun =>
    exact h.setActive he hs (by simp [LockState.isActiveAnalysis]) rfl
      (fun _ => (supported_computeProjectState project locks).artifact hrun) (by simp)
  · exact h.setActive he hs (by simp [LockState.isActiveAnalysis]) rfl (by simp) (by simp)

/-- A downgrade forgets exactly the artifact locks that wait. -/
theorem NoLostWakeup.downgrade_iff (h : NoLostWakeup locks) (he : Exclusive locks)
    (hs : HasState project lockId [.analysisPendingCommit, .analysisCommitting] locks) :
    NoLostWakeup (downgradeToReadingLock project lockId locks) ↔
      ∀ r ∈ locks, r.projectId = project → r.lockType ≠ .artifactWaiting := by
  have hact : ∀ x ∈ [LockState.analysisPendingCommit, .analysisCommitting],
      x.isActiveAnalysis = true := by decide
  constructor
  · intro hafter r hr hrp hrt
    obtain ⟨a, ha, hm, hat⟩ := hs
    have hm := LockRow.matches_iff.mp hm
    have hne : ¬ (r.projectId = project ∧ r.lockId = lockId) := by
      intro hrm
      rw [he.eq_of_key ha hr (hm.1.trans hrm.1.symm) (hm.2.trans hrm.2.symm), hrt] at hat
      simp at hat
    obtain ⟨b, hb, hbp, hw⟩ := hafter r (mem_setLockType.mpr (Or.inr ⟨hr, hne⟩)) (by rw [hrt]; rfl)
    simp only [hrt, LockState.waitsFor, Bool.or_eq_true, beq_iff_eq] at hw
    -- the downgraded lock was the only granted analysis lock
    rcases mem_setLockType.mp hb with ⟨c, -, -, rfl⟩ | ⟨hb', hbm⟩
    · rcases hw with hw | hw <;> cases hw
    · refine he.compatible a ha b hb' (hm.1.trans (hrp.symm.trans hbp.symm))
        (fun hl => hbm ⟨hbp.trans hrp, hl.symm.trans hm.2⟩) (Or.inl ⟨hact _ hat, ?_⟩)
      rcases hw with hw | hw <;> rw [hw] <;> rfl
  · exact fun hart => h.setActive he hs hact rfl (by simp) (fun _ => hart)

/-- A project that loses no row. -/
theorem NoLostWakeup.blockedWithin (h : NoLostWakeup locks) {stays : LockRow → Bool}
    (hs : ∀ r ∈ locks, r.projectId = project → stays r = true) :
    BlockedWithin project stays locks := by
  intro r hr _ hrp hpend
  exact (h r hr hpend).mono fun b hb hbp =>
    List.mem_filter.mpr ⟨hb, hs b hb (hbp.trans hrp)⟩

/-- A release promotes nothing, so it forgets the locks that waited for the released
lock alone. -/
theorem NoLostWakeup.release_iff (h : NoLostWakeup locks) (he : Exclusive locks)
    (hr : releaseLock project lockId locks = .ok locks') :
    NoLostWakeup locks' ↔ BlockedWithin project (!·.matches project lockId) locks := by
  have hsub : (deleteLock project lockId locks).Sublist locks := List.filter_sublist
  have heq : locks' = deleteLock project lockId locks := by
    rw [releaseLock_eq_ok hr]
    exact (noLostWakeup_iff_blockedIn.mp h project).unlockNext_eq
      (he.covers_computeProjectState project) hsub.subset (he.sublist hsub)
  rw [heq, deleteLock, noLostWakeup_filter_iff]
  constructor
  · intro hall r hr hstay hrp hpend
    exact hall r hr r hr hstay rfl hpend
  · intro hp r _
    by_cases hrp : r.projectId = project
    · rw [hrp]
      exact hp
    · refine h.blockedWithin fun b _ hbp => ?_
      simp [LockRow.matches, hbp, hrp]

/-- The promotions of `_cleanup_locks`. -/
def unblockProjects (projects : List ProjectID) (locks : LockTable) : LockTable :=
  projects.foldl (fun ls p => unlockNext p (computeProjectState p ls) ls) locks

theorem NoLostWakeup.unblockProjects_eq (h : NoLostWakeup locks) (he : Exclusive locks)
    (projects : List ProjectID) : unblockProjects projects locks = locks := by
  induction projects with
  | nil => rfl
  | cons p rest ih =>
    have hp : unlockNext p (computeProjectState p locks) locks = locks :=
      (noLostWakeup_iff_blockedIn.mp h p).unlockNext_eq (he.covers_computeProjectState p)
        (List.Subset.refl _) he
    rw [unblockProjects, List.foldl_cons, hp]
    exact ih

/-- Once the promotions have run, the projects they ran for and the projects that
were fine before have no forgotten lock. -/
theorem Exclusive.blockedIn_unblockProjects {projects : List ProjectID} :
    ∀ {locks : LockTable}, Exclusive locks → project ∈ projects ∨ BlockedIn project locks →
      BlockedIn project (unblockProjects projects locks) := by
  induction projects with
  | nil => exact fun _ h => h.resolve_left List.not_mem_nil
  | cons p rest ih =>
    intro locks he h
    refine ih (he.unlockNext (he.covers_computeProjectState p)) ?_
    by_cases hp : project = p
    · exact Or.inr (hp ▸ he.blockedIn_unlockNext p)
    · rcases h with h | h
      · exact Or.inl ((List.mem_cons.mp h).resolve_left hp)
      · exact Or.inr (h.unlockNext_of_ne hp)

theorem NoLostWakeup.cleanup_iff (h : NoLostWakeup locks) (he : Exclusive locks) (now : Nat)
    (visible : Bool) :
    NoLostWakeup (cleanupLocks now visible locks) ↔ KeepsBlockers (.cleanup now visible) locks := by
  cases visible with
  | false =>
    have heq : cleanupLocks now false locks = locks.filter (!·.isCollectable now) := by
      simp only [cleanupLocks]
      exact congrArg (List.filter _) (h.unblockProjects_eq he _)
    rw [heq, noLostWakeup_filter_iff]
    rfl
  | true =>
    refine iff_of_true (noLostWakeup_iff_blockedIn.mpr fun project => ?_) trivial
    refine (he.sublist List.filter_sublist).blockedIn_unblockProjects ?_
    by_cases hp : project ∈ ((locks.filter (·.isCollectable now)).map (·.projectId)).dedup
    · exact Or.inl hp
    · -- no lock of this project expired
      have hstay : ∀ r ∈ locks, r.projectId = project → (!r.isCollectable now) = true := by
        intro r hr hrp
        by_contra hcol
        refine hp (List.mem_dedup.mpr (List.mem_map.mpr ⟨r, List.mem_filter.mpr ⟨hr, ?_⟩, hrp⟩))
        simpa using hcol
      refine Or.inr fun r hr hrp hpend => ?_
      obtain ⟨hr', hs⟩ := List.mem_filter.mp hr
      exact h.blockedWithin hstay r hr' hs hrp hpend

/-- `KeepsBlockers` is exactly the condition under which a step forgets no waiting
lock. -/
theorem LockStep.noLostWakeup_iff {op : LockOp} (hstep : LockStep op locks locks')
    (he : Exclusive locks) (h : NoLostWakeup locks) :
    NoLostWakeup locks' ↔ KeepsBlockers op locks := by
  cases hstep with
  | makeLock => exact iff_of_true (h.makeLock _ _ _ _) trivial
  | upgrade hs => exact iff_of_true (h.upgrade he hs) trivial
  | downgrade hs => exact h.downgrade_iff he hs
  | release hr => exact h.release_iff he hr
  | renew hr =>
    rcases renewLock_eq_ok hr with ⟨hfind, rfl⟩ | ⟨r, hfind, ⟨hlt, rfl⟩ | ⟨hle, hr⟩⟩
    · exact iff_of_true h (by rintro ⟨r, hr, -⟩; rw [hfind] at hr; cases hr)
    · refine iff_of_true (noLostWakeup_map_same (fun r => ?_) (fun r => ?_) h) ?_
      · split <;> rfl
      · split <;> rfl
      · rintro ⟨b, hb, hle⟩
        rw [hfind] at hb
        cases hb
        exact absurd hlt (Nat.not_lt.mpr hle)
    · exact (h.release_iff he hr).trans ⟨fun hw _ => hw, fun hw => hw ⟨r, hfind, hle⟩⟩
  | setInUse =>
    refine iff_of_true (noLostWakeup_map_same (fun r => ?_) (fun r => ?_) h) trivial
    · split <;> rfl
    · split <;> rfl
  | cleanup => exact h.cleanup_iff he _ _
  | reorder hp =>
    refine iff_of_true (fun r hr hpend => ?_) trivial
    exact (h r (hp.mem_iff.mpr hr) hpend).mono fun b hb _ => hp.mem_iff.mp hb

/-! ## Runs -/

/-- In a run whose steps keep the blockers of the waiting locks, every waiting lock is
blocked in every table reached. -/
theorem run_noLostWakeup {locks : LockTable}
    (h : TransitionSystem.Run LockStep KeepsBlockers [] locks) : NoLostWakeup locks := by
  have hinv : Exclusive locks ∧ NoLostWakeup locks :=
    h.invariant (P := fun ls => Exclusive ls ∧ NoLostWakeup ls)
      ⟨Exclusive.nil, by simp [NoLostWakeup]⟩
      fun _ _ _ hok hs hi => ⟨hs.exclusive hi.1, (hs.noLostWakeup_iff hi.1 hi.2).mpr hok⟩
  exact hinv.2

/-- An analysis that waits for two artifact locks to be released is still blocked when
one of them is. -/
theorem run_noLostWakeup_two_artifacts :
    ∃ locks, TransitionSystem.Run LockStep KeepsBlockers [] locks ∧
      locks.map (fun r => (r.lockId, r.lockType)) =
        [("ana", .analysisPendingCommit), ("art2", .artifact)] ∧ NoLostWakeup locks := by
  have h₀ : TransitionSystem.Run LockStep KeepsBlockers [] [] := .refl _
  have h₁ := h₀.tail (a := LockOp.makeLock "p" "art1" .artifact 0) trivial .makeLock
  have h₂ := h₁.tail (a := LockOp.makeLock "p" "art2" .artifact 1) trivial .makeLock
  have h₃ := h₂.tail (a := LockOp.makeLock "p" "ana" .analysis 2) trivial .makeLock
  have h₄ := h₃.tail (a := LockOp.upgrade "p" "ana") trivial (.upgrade (by decide))
  have h₅ := h₄.tail (a := LockOp.release "p" "art1") (by unfold KeepsBlockers; decide)
    (.release rfl)
  exact ⟨_, h₅, by decide, run_noLostWakeup h₅⟩

/-- The release of the only artifact lock forgets the analysis that waits for it. -/
theorem not_reachableLocks_noLostWakeup :
    ¬ ∀ locks, ReachableLocks locks → NoLostWakeup locks := by
  intro h
  have h₀ : ReachableLocks [] := .refl _
  have h₁ := h₀.tail (a := LockOp.makeLock "p" "art" .artifact 0) trivial .makeLock
  have h₂ := h₁.tail (a := LockOp.makeLock "p" "ana" .analysis 1) trivial .makeLock
  have h₃ := h₂.tail (a := LockOp.upgrade "p" "ana") trivial (.upgrade (by decide))
  have h₄ := h₃.tail (a := LockOp.release "p" "art") trivial (.release rfl)
  exact absurd (h _ h₄) (by decide)

end RssServer
