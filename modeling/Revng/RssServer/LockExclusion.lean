import Revng.RssServer.Locks

/-!
# Mutual exclusion of the locks

Two locks of one project *conflict* when both are granted analysis locks, or when
one is committing and the other is an artifact lock.  `Exclusive` says that no
two locks of a project conflict, and that the primary key of the table is one.
Every step keeps it (`LockStep.exclusive`).

The operations read the table through a `ProjectState`.  What they need from it
is `Covers`: the summary may report a lock that is gone, but it never misses one
that is there.  A summary computed on entry covers the table
(`Exclusive.covers_computeProjectState`), and it still covers the table after a
deletion, which is why the stale summary of `release_lock` is safe.
-/

namespace RssServer

/-! ## Conflicts -/

/-- Two states that no two locks of a project may have at the same time. -/
def LockState.Conflicts (a b : LockState) : Prop :=
  (a.isActiveAnalysis = true ∧ b.isActiveAnalysis = true) ∨
    (a = .analysisCommitting ∧ b = .artifact) ∨ (a = .artifact ∧ b = .analysisCommitting)

instance (a b : LockState) : Decidable (a.Conflicts b) :=
  inferInstanceAs (Decidable (_ ∨ _))

theorem LockState.Conflicts.symm {a b : LockState} (h : a.Conflicts b) : b.Conflicts a := by
  rcases h with ⟨ha, hb⟩ | ⟨ha, hb⟩ | ⟨ha, hb⟩
  · exact Or.inl ⟨hb, ha⟩
  · exact Or.inr (Or.inr ⟨hb, ha⟩)
  · exact Or.inr (Or.inl ⟨hb, ha⟩)

/-- The primary key of a row. -/
def LockRow.key (r : LockRow) : ProjectID × LockID := (r.projectId, r.lockId)

variable {project : ProjectID} {lockId : LockID}

variable {r : LockRow}

theorem LockRow.matches_iff :
    r.matches project lockId = true ↔ r.projectId = project ∧ r.lockId = lockId := by
  simp [LockRow.matches]

variable {st : LockState} {locks : LockTable}

/-- The rows after an update of the state of one lock. -/
theorem mem_setLockType :
    r ∈ setLockType project lockId st locks ↔
      (∃ a ∈ locks, (a.projectId = project ∧ a.lockId = lockId) ∧
        r = { a with lockType := st }) ∨
      (r ∈ locks ∧ ¬ (r.projectId = project ∧ r.lockId = lockId)) := by
  simp only [setLockType, List.mem_map]
  constructor
  · rintro ⟨a, ha, rfl⟩
    by_cases hm : a.matches project lockId
    · exact Or.inl ⟨a, ha, LockRow.matches_iff.mp hm, by simp [hm]⟩
    · exact Or.inr (by simpa [hm] using ⟨ha, by simpa [LockRow.matches_iff] using hm⟩)
  · rintro (⟨a, ha, hm, rfl⟩ | ⟨hr, hm⟩)
    · exact ⟨a, ha, by simp [LockRow.matches_iff.mpr hm]⟩
    · exact ⟨r, hr, by simp [mt LockRow.matches_iff.mp hm]⟩

/-- The safety invariant of the table. -/
structure Exclusive (locks : LockTable) : Prop where
  /-- The primary key is one. -/
  keys : (locks.map LockRow.key).Nodup
  /-- Two locks of a project do not conflict. -/
  compatible : ∀ a ∈ locks, ∀ b ∈ locks, a.projectId = b.projectId → a.lockId ≠ b.lockId →
    ¬ a.lockType.Conflicts b.lockType

namespace Exclusive

theorem nil : Exclusive [] := ⟨by simp, by simp⟩

variable {locks : LockTable}

/-- Rows with equal keys are equal. -/
theorem eq_of_key (h : Exclusive locks) {a b : LockRow} (ha : a ∈ locks) (hb : b ∈ locks)
    (hp : a.projectId = b.projectId) (hl : a.lockId = b.lockId) : a = b :=
  List.inj_on_of_nodup_map h.keys ha hb (by simp [LockRow.key, hp, hl])

theorem sublist {locks' : LockTable} (h : Exclusive locks) (hs : locks'.Sublist locks) :
    Exclusive locks' :=
  ⟨h.keys.sublist (hs.map _), fun a ha b hb =>
    h.compatible a (hs.subset ha) b (hs.subset hb)⟩

theorem perm {locks' : LockTable} (h : Exclusive locks) (hp : locks.Perm locks') :
    Exclusive locks' :=
  ⟨(hp.map _).nodup_iff.mp h.keys, fun a ha b hb =>
    h.compatible a (hp.mem_iff.mpr ha) b (hp.mem_iff.mpr hb)⟩

/-- An update that touches neither the key nor the state of a row. -/
theorem map_same (h : Exclusive locks) (f : LockRow → LockRow) (hkey : ∀ r, (f r).key = r.key)
    (htype : ∀ r, (f r).lockType = r.lockType) : Exclusive (locks.map f) := by
  have hproj : ∀ r, (f r).projectId = r.projectId := fun r => congrArg Prod.fst (hkey r)
  have hlock : ∀ r, (f r).lockId = r.lockId := fun r => congrArg Prod.snd (hkey r)
  constructor
  · have : LockRow.key ∘ f = LockRow.key := funext hkey
    rw [List.map_map, this]
    exact h.keys
  · intro a ha b hb
    obtain ⟨a, ha', rfl⟩ := List.mem_map.mp ha
    obtain ⟨b, hb', rfl⟩ := List.mem_map.mp hb
    rw [hproj, hproj, hlock, hlock, htype, htype]
    exact h.compatible a ha' b hb'

/-- Changing the state of one lock is safe when no other lock of its project
conflicts with the new state. -/
theorem setLockType (h : Exclusive locks) {project : ProjectID} {lockId : LockID} {st : LockState}
    (hst : ∀ b ∈ locks, b.projectId = project → b.lockId ≠ lockId → ¬ st.Conflicts b.lockType) :
    Exclusive (setLockType project lockId st locks) := by
  have hkey : LockRow.key ∘ (fun r : LockRow =>
      if r.matches project lockId then { r with lockType := st } else r) = LockRow.key := by
    funext r
    by_cases hm : r.matches project lockId <;> simp [hm, LockRow.key]
  constructor
  · rw [RssServer.setLockType, List.map_map, hkey]
    exact h.keys
  · intro a ha b hb hp hl
    -- at most one of the two rows is the updated one, since their keys differ
    rcases mem_setLockType.mp ha with ⟨a, ha', ham, rfl⟩ | ⟨ha', ham⟩ <;>
      rcases mem_setLockType.mp hb with ⟨b, hb', hbm, rfl⟩ | ⟨hb', hbm⟩
    · exact absurd (ham.2.trans hbm.2.symm) hl
    · exact hst b hb' (hp.symm.trans ham.1) fun e => hl (ham.2.trans e.symm)
    · intro hc
      exact hst a ha' (hp.trans hbm.1) (fun e => hl (e.trans hbm.2.symm)) hc.symm
    · exact h.compatible a ha' b hb' hp hl

end Exclusive

/-! ## Summaries that miss nothing -/

/-- Every granted or pending lock of `project` shows in the summary. -/
structure Covers (state : ProjectState) (project : ProjectID) (locks : LockTable) : Prop where
  artifact : ∀ r ∈ locks, r.projectId = project → r.lockType = .artifact →
    state.artifactRunning = true
  active : ∀ r ∈ locks, r.projectId = project → r.lockType.isActiveAnalysis = true →
    state.analysisState ≠ .none
  writing : ∀ r ∈ locks, r.projectId = project →
    r.lockType = .analysisPendingCommit ∨ r.lockType = .analysisCommitting →
    state.analysisState = .writing

variable {state : ProjectState} {locks' : LockTable}

theorem Covers.subset (h : Covers state project locks) (hs : locks' ⊆ locks) :
    Covers state project locks' :=
  ⟨fun r hr => h.artifact r (hs hr), fun r hr => h.active r (hs hr),
    fun r hr => h.writing r (hs hr)⟩

/-- The row `LIMIT 1` returns is the granted analysis lock, because there is only one. -/
theorem Exclusive.analysisState_eq (h : Exclusive locks) (hr : r ∈ locks)
    (hact : r.lockType.isActiveAnalysis = true) :
    (computeProjectState r.projectId locks).analysisState =
      if r.lockType = .analysisReading then .reading else .writing := by
  have hsome : (locks.find? fun a =>
      a.projectId == r.projectId && a.lockType.isActiveAnalysis).isSome := by
    rw [List.find?_isSome]
    exact ⟨r, hr, by simp [hact]⟩
  obtain ⟨a, ha⟩ := Option.isSome_iff_exists.mp hsome
  have hp := List.find?_some ha
  simp only [Bool.and_eq_true, beq_iff_eq] at hp
  have hl : a.lockId = r.lockId := by
    by_contra hne
    exact h.compatible a (List.mem_of_find?_eq_some ha) r hr hp.1 hne (Or.inl ⟨hp.2, hact⟩)
  have har : a = r := h.eq_of_key (List.mem_of_find?_eq_some ha) hr hp.1 hl
  subst har
  simp only [computeProjectState, ha]

/-- A summary computed from a table covers it. -/
theorem Exclusive.covers_computeProjectState (h : Exclusive locks) (project : ProjectID) :
    Covers (computeProjectState project locks) project locks := by
  constructor
  · intro r hr hp ht
    simp only [computeProjectState, List.find?_isSome]
    exact ⟨r, hr, by simp [hp, ht]⟩
  · rintro r hr rfl hact
    rw [h.analysisState_eq hr hact]
    split <;> simp
  · rintro r hr rfl ht
    have hact : r.lockType.isActiveAnalysis = true := by
      rcases ht with ht | ht <;> rw [ht] <;> rfl
    rw [h.analysisState_eq hr hact, if_neg]
    rcases ht with ht | ht <;> rw [ht] <;> simp

/-! ## Promotions -/

variable {state' : ProjectState}

variable {st' : LockState}

/-- A pending lock that the summary lets through. -/
theorem promotion_eq_some (h : promotion state st = some (st', state')) :
    (st = .artifactWaiting ∧ state.analysisState ≠ .writing ∧ st' = .artifact ∧
      state' = { state with artifactRunning := true }) ∨
    (st = .analysisWaiting ∧ state.analysisState = .none ∧ st' = .analysisReading ∧
      state' = { state with analysisState := .reading }) ∨
    (st = .analysisPendingCommit ∧ state.artifactRunning = false ∧ st' = .analysisCommitting ∧
      state' = { state with analysisState := .writing }) := by
  cases st with
  | artifactWaiting | analysisWaiting | analysisPendingCommit =>
    simp only [promotion] at h
    split at h <;> simp_all
  | _ => cases h

/-- The summaries of one run of the loop grow. -/
structure ProjectState.Le (a b : ProjectState) : Prop where
  artifactRunning : a.artifactRunning = true → b.artifactRunning = true
  active : a.analysisState ≠ .none → b.analysisState ≠ .none
  writing : a.analysisState = .writing → b.analysisState = .writing

theorem ProjectState.Le.refl (a : ProjectState) : a.Le a := ⟨id, id, id⟩

theorem ProjectState.Le.trans {a b c : ProjectState} (hab : a.Le b) (hbc : b.Le c) : a.Le c :=
  ⟨hbc.artifactRunning ∘ hab.artifactRunning, hbc.active ∘ hab.active,
    hbc.writing ∘ hab.writing⟩

theorem ProjectState.Le.of_promotion (h : promotion state st = some (st', state')) :
    state.Le state' := by
  rcases promotion_eq_some h with ⟨-, -, -, rfl⟩ | ⟨-, hn, -, rfl⟩ | ⟨-, -, -, rfl⟩
  · exact ⟨fun _ => rfl, id, id⟩
  · exact ⟨id, fun _ => by simp, fun hw => by simp [hn] at hw⟩
  · exact ⟨id, fun _ => by simp, fun _ => rfl⟩

/-- A lock that is not let through is not let through later in the loop either. -/
theorem promotion_none_mono (h : state.Le state') (hn : promotion state st = none) :
    promotion state' st = none := by
  cases st with
  | artifactWaiting =>
    simp only [promotion, ite_eq_right_iff, reduceCtorEq, imp_false, not_not] at hn ⊢
    exact h.writing hn
  | analysisWaiting =>
    simp only [promotion, ite_eq_right_iff, reduceCtorEq, imp_false] at hn ⊢
    exact h.active hn
  | analysisPendingCommit =>
    simp only [promotion, Bool.not_eq_true', ite_eq_right_iff, reduceCtorEq, imp_false,
      Bool.not_eq_false] at hn ⊢
    exact h.artifactRunning hn
  | _ => rfl

/-- The loop breaks when no lock can be let through any more. -/
theorem promotion_none_of_break (h : state.analysisState = .writing ∧ state.artifactRunning)
    (st : LockState) : promotion state st = none := by
  cases st <;> simp [promotion, h.1, h.2]

/-- The updates of `_unlock_next`. -/
def promote (project : ProjectID) (locks : LockTable) (promoted : List (LockID × LockState)) :
    LockTable :=
  promoted.foldl (fun ls (lockId, st) => setLockType project lockId st ls) locks

/-- A row after the updates is a row from before, or it was promoted. -/
theorem mem_promote {promoted : List (LockID × LockState)} :
    ∀ {locks : LockTable} {r : LockRow}, r ∈ promote project locks promoted →
      r ∈ locks ∨ (r.projectId = project ∧ (r.lockId, r.lockType) ∈ promoted) := by
  induction promoted with
  | nil => exact fun hr => Or.inl hr
  | cons x rest ih =>
    intro locks r hr
    obtain ⟨lockId, st⟩ := x
    rcases ih hr with hr | ⟨hp, hm⟩
    · rcases mem_setLockType.mp hr with ⟨a, -, ha, rfl⟩ | ⟨hr, -⟩
      · exact Or.inr ⟨ha.1, by simp [ha.2]⟩
      · exact Or.inl hr
    · exact Or.inr ⟨hp, List.mem_cons_of_mem _ hm⟩

/-- A row that is not promoted is a row of the table before. -/
theorem mem_of_mem_promote {promoted : List (LockID × LockState)}
    (hr : r ∈ promote project locks promoted)
    (hne : r.projectId ≠ project ∨ r.lockId ∉ promoted.map Prod.fst) : r ∈ locks := by
  rcases mem_promote hr with hr | ⟨hp, hm⟩
  · exact hr
  · rcases hne with hne | hne
    · exact absurd hp hne
    · exact absurd (List.mem_map_of_mem hm) hne

theorem toPromote_subset (state : ProjectState) (pending : List (LockID × LockState)) :
    (toPromote state pending).map Prod.fst ⊆ pending.map Prod.fst := by
  induction pending generalizing state with
  | nil => simp [toPromote]
  | cons x rest ih =>
    obtain ⟨lockId, st⟩ := x
    simp only [toPromote]
    split
    · simp
    · cases hp : promotion state st with
      | none => exact fun y hy => List.mem_cons_of_mem _ (ih state hy)
      | some q =>
        simp only [List.map_cons]
        exact List.cons_subset_cons _ (ih q.2)

/-- The list of `(lockId, lockState)` pairs names distinct locks of the project, each
in the listed state. -/
structure Listed (project : ProjectID) (pending : List (LockID × LockState))
    (locks : LockTable) : Prop where
  nodup : (pending.map Prod.fst).Nodup
  row : ∀ x ∈ pending, ∃ r ∈ locks, r.projectId = project ∧ r.lockId = x.1 ∧ r.lockType = x.2

theorem Listed.tail {x : LockID × LockState} {rest : List (LockID × LockState)}
    (h : Listed project (x :: rest) locks) : Listed project rest locks :=
  ⟨(List.nodup_cons.mp h.nodup).2, fun y hy => h.row y (List.mem_cons_of_mem _ hy)⟩

/-- Promoting the first lock of the list leaves the others as they are listed. -/
theorem Listed.tail_setLockType {rest : List (LockID × LockState)}
    (h : Listed project ((lockId, st) :: rest) locks) :
    Listed project rest (setLockType project lockId st' locks) := by
  refine ⟨h.tail.nodup, fun y hy => ?_⟩
  obtain ⟨r, hr, hp, hl, ht⟩ := h.tail.row y hy
  have hne : y.1 ≠ lockId := fun e =>
    (List.nodup_cons.mp h.nodup).1 (List.mem_map.mpr ⟨y, hy, e⟩)
  exact ⟨r, mem_setLockType.mpr (Or.inr ⟨hr, fun hm => hne (hl.symm.trans hm.2)⟩), hp, hl, ht⟩

/-- The rule for the loop of `_unlock_next`.  A predicate on the running summary and
the table is kept by the loop when it is kept by every single promotion, and at
the end the summary lets no listed lock through. -/
theorem promote_rule {P : ProjectState → LockTable → Prop}
    (exclusive : ∀ {state locks}, P state locks → Exclusive locks)
    (keep : ∀ {state locks lockId st st' state'},
      promotion state st = some (st', state') →
      (∃ r ∈ locks, r.projectId = project ∧ r.lockId = lockId ∧ r.lockType = st) →
      P state locks → P state' (setLockType project lockId st' locks))
    (pending : List (LockID × LockState)) :
    ∀ (state : ProjectState) (locks : LockTable), Listed project pending locks → P state locks →
      ∃ final, state.Le final ∧ P final (promote project locks (toPromote state pending)) ∧
        ∀ r ∈ promote project locks (toPromote state pending), r.projectId = project →
          r.lockType.isPending = true → r.lockId ∈ pending.map Prod.fst →
          promotion final r.lockType = none := by
  induction pending with
  | nil => exact fun state locks _ h => ⟨state, .refl _, h, by simp⟩
  | cons x rest ih =>
    intro state locks hlist h
    obtain ⟨lockId, st⟩ := x
    obtain ⟨hfresh, -⟩ := List.nodup_cons.mp hlist.nodup
    simp only [toPromote]
    split
    next hbreak =>
        exact ⟨state, .refl _, h, fun r _ _ _ _ => promotion_none_of_break hbreak _⟩
    next =>
        cases hp : promotion state st with
        | none =>
          obtain ⟨final, hle, hfinal, hrest⟩ := ih state locks hlist.tail h
          refine ⟨final, hle, hfinal, fun r hr hproj hpend hid => ?_⟩
          rcases List.mem_cons.mp hid with hid | hid
          · -- the first lock is not promoted later: its row is the listed one
            obtain ⟨a, ha, hap, hal, hat⟩ := hlist.row (lockId, st) (by simp)
            have hr' : r ∈ locks := mem_of_mem_promote hr
              (Or.inr fun hm => hfresh (hid ▸ toPromote_subset _ _ hm))
            have : r = a := (exclusive h).eq_of_key hr' ha (hproj.trans hap.symm)
              (hid.trans hal.symm)
            rw [this, hat]
            exact promotion_none_mono hle hp
          · exact hrest r hr hproj hpend hid
        | some q =>
          obtain ⟨st', state'⟩ := q
          have h' := keep hp (hlist.row (lockId, st) (by simp)) h
          obtain ⟨final, hle, hfinal, hrest⟩ := ih state' _ hlist.tail_setLockType h'
          refine ⟨final, (ProjectState.Le.of_promotion hp).trans hle, hfinal,
            fun r hr hproj hpend hid => ?_⟩
          rcases List.mem_cons.mp hid with hid | hid
          · -- the first lock is promoted, so it is not pending any more
            have hr' : r ∈ setLockType project lockId st' locks := mem_of_mem_promote hr
              (Or.inr fun hm => hfresh (hid ▸ toPromote_subset _ _ hm))
            rcases mem_setLockType.mp hr' with ⟨a, -, -, rfl⟩ | ⟨-, hne⟩
            · rcases promotion_eq_some hp with ⟨-, -, rfl, -⟩ | ⟨-, -, rfl, -⟩ | ⟨-, -, rfl, -⟩
                <;> cases hpend
            · exact absurd ⟨hproj, hid⟩ hne
          · exact hrest r hr hproj hpend hid

theorem row_of_mem_getPendingLocks {x : LockID × LockState}
    (hx : x ∈ getPendingLocks project locks) :
    ∃ r ∈ locks, r.projectId = project ∧ r.lockId = x.1 ∧ r.lockType = x.2 := by
  simp only [getPendingLocks, List.mem_map, List.mem_insertionSort, List.mem_filter,
    Bool.and_eq_true, beq_iff_eq] at hx
  obtain ⟨r, ⟨hr, hp, -⟩, rfl⟩ := hx
  exact ⟨r, hr, hp, rfl, rfl⟩

/-- The locks `_get_pending_locks` returns are listed. -/
theorem Exclusive.listed_getPendingLocks (h : Exclusive locks) (project : ProjectID) :
    Listed project (getPendingLocks project locks) locks := by
  have hperm := List.perm_insertionSort
    (fun a b : LockRow => a.creationTimestamp ≤ b.creationTimestamp)
    (locks.filter fun r => r.projectId == project && r.lockType.isPending)
  constructor
  · rw [getPendingLocks, List.map_map, (hperm.map _).nodup_iff]
    -- within one project the lock identifier is the key
    refine List.Nodup.map_on (fun a ha b hb hab => ?_) (h.keys.of_map.filter _)
    simp only [List.mem_filter, Bool.and_eq_true, beq_iff_eq] at ha hb
    exact h.eq_of_key ha.1 hb.1 (ha.2.1.trans hb.2.1.symm) hab
  · exact fun x hx => row_of_mem_getPendingLocks hx

theorem mem_getPendingLocks (hr : r ∈ locks) (hp : r.projectId = project)
    (ht : r.lockType.isPending = true) :
    r.lockId ∈ (getPendingLocks project locks).map Prod.fst := by
  simp only [getPendingLocks, List.map_map, List.mem_map]
  exact ⟨r, (List.mem_insertionSort _).mpr (List.mem_filter.mpr ⟨hr, by simp [hp, ht]⟩), rfl⟩

/-! ## The steps keep the locks exclusive -/

/-- A promotion that the summary allows conflicts with no lock the summary covers. -/
theorem Covers.not_conflicts (hc : Covers state project locks) (he : Exclusive locks)
    (hp : promotion state st = some (st', state'))
    (hrow : ∃ r ∈ locks, r.projectId = project ∧ r.lockId = lockId ∧ r.lockType = st) {b : LockRow}
    (hb : b ∈ locks) (hbp : b.projectId = project) (hbl : b.lockId ≠ lockId) :
    ¬ st'.Conflicts b.lockType := by
  obtain ⟨r, hr, hrp, hrl, hrt⟩ := hrow
  rcases promotion_eq_some hp with
    ⟨rfl, hw, rfl, -⟩ | ⟨rfl, hn, rfl, -⟩ | ⟨rfl, ha, rfl, -⟩
  · rintro (⟨h, -⟩ | ⟨h, -⟩ | ⟨-, h⟩)
    · cases h
    · cases h
    · exact hw (hc.writing b hb hbp (Or.inr h))
  · rintro (⟨-, h⟩ | ⟨h, -⟩ | ⟨h, -⟩)
    · exact hc.active b hb hbp h hn
    · cases h
    · cases h
  · rintro (⟨-, h⟩ | ⟨-, h⟩ | ⟨h, -⟩)
    · -- the pending lock itself is the only granted analysis lock
      exact he.compatible r hr b hb (hrp.trans hbp.symm) (fun e => hbl (e.symm.trans hrl))
        (Or.inl ⟨by rw [hrt]; rfl, h⟩)
    · rw [hc.artifact b hb hbp h] at ha
      cases ha
    · cases h

theorem Covers.promoted (hc : Covers state project locks)
    (hp : promotion state st = some (st', state')) :
    Covers state' project (setLockType project lockId st' locks) := by
  have hle := ProjectState.Le.of_promotion hp
  have hcases := promotion_eq_some hp
  constructor <;> intro r hr hrp hrt <;>
    rcases mem_setLockType.mp hr with ⟨a, ha, hm, rfl⟩ | ⟨hr', -⟩
  · rcases hcases with ⟨-, -, rfl, rfl⟩ | ⟨-, -, rfl, -⟩ | ⟨-, -, rfl, -⟩
    · rfl
    · cases hrt
    · cases hrt
  · exact hle.artifactRunning (hc.artifact r hr' hrp hrt)
  · rcases hcases with ⟨-, -, rfl, -⟩ | ⟨-, -, -, rfl⟩ | ⟨-, -, -, rfl⟩
    · cases hrt
    · simp
    · simp
  · exact hle.active (hc.active r hr' hrp hrt)
  · rcases hcases with ⟨-, -, rfl, -⟩ | ⟨-, -, rfl, -⟩ | ⟨-, -, -, rfl⟩
    · rcases hrt with hrt | hrt <;> cases hrt
    · rcases hrt with hrt | hrt <;> cases hrt
    · rfl
  · exact hle.writing (hc.writing r hr' hrp hrt)

/-- `_unlock_next` is safe with every summary that covers the table. -/
theorem Exclusive.unlockNext (h : Exclusive locks) (hc : Covers state project locks) :
    Exclusive (unlockNext project state locks) := by
  obtain ⟨final, -, hfinal, -⟩ := promote_rule
    (P := fun state locks => Exclusive locks ∧ Covers state project locks)
    (fun h => h.1)
    (fun hp hrow h => ⟨h.1.setLockType fun b hb hbp hbl =>
      h.2.not_conflicts h.1 hp hrow hb hbp hbl, h.2.promoted hp⟩)
    (getPendingLocks project locks) state locks (h.listed_getPendingLocks project) ⟨h, hc⟩
  exact hfinal.1

theorem Exclusive.makeLock (h : Exclusive locks) (project : ProjectID) (lockId : LockID)
    (request : LockRequest) (now : Nat) :
    Exclusive (makeLock project lockId request now locks) := by
  unfold RssServer.makeLock
  split
  · exact h
  next hfresh =>
    have hc := h.covers_computeProjectState project
    -- the new lock conflicts with nothing that the summary covers
    have hnew : ∀ b ∈ locks, b.projectId = project →
        ¬ (initialLockState (computeProjectState project locks) request).Conflicts
          b.lockType := by
      intro b hb hbp
      cases request with
      | artifact =>
        simp only [initialLockState]
        split
        next hw =>
          rintro (⟨h, -⟩ | ⟨h, -⟩ | ⟨-, h⟩)
          · cases h
          · cases h
          · exact hw (hc.writing b hb hbp (Or.inr h))
        · rintro (⟨h, -⟩ | ⟨h, -⟩ | ⟨h, -⟩) <;> cases h
      | analysis =>
        simp only [initialLockState]
        split
        next hn =>
          rintro (⟨-, h⟩ | ⟨h, -⟩ | ⟨h, -⟩)
          · exact hc.active b hb hbp h hn
          · cases h
          · cases h
        · rintro (⟨h, -⟩ | ⟨h, -⟩ | ⟨h, -⟩) <;> cases h
    simp only [List.any_eq_true, LockRow.matches_iff, not_exists, not_and] at hfresh
    constructor
    · refine List.nodup_cons.mpr ⟨fun hmem => ?_, h.keys⟩
      obtain ⟨r, hr, hk⟩ := List.mem_map.mp hmem
      exact hfresh r hr (congrArg Prod.fst hk) (congrArg Prod.snd hk)
    · intro a ha b hb hp hl
      rcases List.mem_cons.mp ha with rfl | ha' <;> rcases List.mem_cons.mp hb with rfl | hb'
      · exact absurd rfl hl
      · exact hnew b hb' hp.symm
      · exact fun hc => hnew a ha' hp hc.symm
      · exact h.compatible a ha' b hb' hp hl

/-- The holder of the one granted analysis lock may move it between its three states. -/
theorem Exclusive.setActive (h : Exclusive locks) {states : List LockState}
    (hs : HasState project lockId states locks) (hact : ∀ x ∈ states, x.isActiveAnalysis = true)
    (hst : st ≠ .artifact) (hc : st = .analysisCommitting →
      ∀ b ∈ locks, b.projectId = project → b.lockType ≠ .artifact) :
    Exclusive (RssServer.setLockType project lockId st locks) := by
  obtain ⟨r, hr, hm, hrt⟩ := hs
  have hm := LockRow.matches_iff.mp hm
  refine h.setLockType fun b hb hbp hbl => ?_
  rintro (⟨-, hb'⟩ | ⟨hst', hb'⟩ | ⟨hst', -⟩)
  · exact h.compatible r hr b hb (hm.1.trans hbp.symm) (fun e => hbl (e.symm.trans hm.2))
      (Or.inl ⟨hact _ hrt, hb'⟩)
  · exact hc hst' b hb hbp hb'
  · exact hst hst'

theorem Exclusive.upgrade (h : Exclusive locks)
    (hs : HasState project lockId [.analysisReading] locks) :
    Exclusive (upgradeToCommittingLock project lockId locks) := by
  have hc := h.covers_computeProjectState project
  simp only [upgradeToCommittingLock]
  split
  · exact h.setActive hs (by simp [LockState.isActiveAnalysis]) (by simp) (by simp)
  next hrun =>
    exact h.setActive hs (by simp [LockState.isActiveAnalysis]) (by simp)
      fun _ b hb hbp hbt => hrun (hc.artifact b hb hbp hbt)

theorem Exclusive.downgrade (h : Exclusive locks)
    (hs : HasState project lockId [.analysisPendingCommit, .analysisCommitting] locks) :
    Exclusive (downgradeToReadingLock project lockId locks) :=
  h.setActive hs (by simp [LockState.isActiveAnalysis]) (by simp) (by simp)

/-- What a successful release does. -/
theorem releaseLock_eq_ok (h : releaseLock project lockId locks = .ok locks') :
    locks' = RssServer.unlockNext project (computeProjectState project locks)
      (deleteLock project lockId locks) := by
  simp only [releaseLock] at h
  split at h
  · cases h
  · split at h
    · cases h
    · injection h with h
      exact h.symm

theorem Exclusive.release (h : Exclusive locks)
    (hr : releaseLock project lockId locks = .ok locks') : Exclusive locks' := by
  rw [releaseLock_eq_ok hr]
  have hsub : (deleteLock project lockId locks).Sublist locks := List.filter_sublist
  exact (h.sublist hsub).unlockNext ((h.covers_computeProjectState project).subset hsub.subset)

/-- What a successful renewal does. -/
theorem renewLock_eq_ok {now : Nat} {renewed : Bool}
    (h : renewLock project lockId now locks = .ok (locks', renewed)) :
    (locks.find? (·.matches project lockId) = none ∧ locks' = locks) ∨
    (∃ r, locks.find? (·.matches project lockId) = some r ∧
      ((now < r.refreshTimestamp + lockExpirySeconds ∧
          locks' = locks.map fun r =>
            if r.matches project lockId then { r with refreshTimestamp := now } else r) ∨
        (r.refreshTimestamp + lockExpirySeconds ≤ now ∧
          releaseLock project lockId locks = .ok locks'))) := by
  simp only [renewLock] at h
  split at h
  next hfind =>
    cases h
    exact Or.inl ⟨hfind, rfl⟩
  next r hfind =>
    refine Or.inr ⟨r, hfind, ?_⟩
    split at h
    next hlt =>
      cases h
      exact Or.inl ⟨hlt, rfl⟩
    next hle =>
      cases hrel : releaseLock project lockId locks with
      | error e => simp [hrel, Except.map] at h
      | ok ls =>
        simp only [hrel, Except.map, Except.ok.injEq, Prod.mk.injEq] at h
        exact Or.inr ⟨Nat.le_of_not_lt hle, by rw [h.1]⟩

theorem Exclusive.renew (h : Exclusive locks) {now : Nat} {renewed : Bool}
    (hr : renewLock project lockId now locks = .ok (locks', renewed)) : Exclusive locks' := by
  rcases renewLock_eq_ok hr with ⟨-, rfl⟩ | ⟨r, -, ⟨-, rfl⟩ | ⟨-, hr⟩⟩
  · exact h
  · refine h.map_same _ (fun r => ?_) (fun r => ?_) <;> split <;> rfl
  · exact h.release hr

theorem Exclusive.setInUse (h : Exclusive locks) (project : ProjectID) (lockId : LockID)
    (value : Bool) : Exclusive (setInUse project lockId value locks) := by
  refine h.map_same _ (fun r => ?_) (fun r => ?_) <;> split <;> rfl

theorem Exclusive.cleanup (h : Exclusive locks) (now : Nat) (visible : Bool) :
    Exclusive (cleanupLocks now visible locks) := by
  have hunblock : ∀ (projects : List ProjectID) (ls : LockTable), Exclusive ls →
      Exclusive (projects.foldl
        (fun ls p => RssServer.unlockNext p (computeProjectState p ls) ls) ls) := by
    intro projects
    induction projects with
    | nil => exact fun _ h => h
    | cons p rest ih =>
      exact fun ls h => ih _ (h.unlockNext (h.covers_computeProjectState p))
  simp only [cleanupLocks]
  split
  · exact hunblock _ _ (h.sublist List.filter_sublist)
  · exact (hunblock _ _ h).sublist List.filter_sublist

/-- Every step keeps the locks exclusive. -/
theorem LockStep.exclusive {op : LockOp} (hstep : LockStep op locks locks') (h : Exclusive locks) :
    Exclusive locks' := by
  cases hstep with
  | makeLock => exact h.makeLock _ _ _ _
  | upgrade hs => exact h.upgrade hs
  | downgrade hs => exact h.downgrade hs
  | release hr => exact h.release hr
  | renew hr => exact h.renew hr
  | setInUse => exact h.setInUse _ _ _
  | cleanup => exact h.cleanup _ _
  | reorder hp => exact h.perm hp

/-- Every reachable table is exclusive, whatever guard the run obeys. -/
theorem Run.exclusive {ok : LockOp → LockTable → Prop}
    (h : TransitionSystem.Run LockStep ok [] locks) : Exclusive locks :=
  h.invariant Exclusive.nil fun _ _ _ _ hs hi => hs.exclusive hi

/-! ## Mutual exclusion -/

/-- The locks of a project that are granted to an analysis. -/
def activeAnalyses (project : ProjectID) (locks : LockTable) : LockTable :=
  locks.filter fun r => r.projectId == project && r.lockType.isActiveAnalysis

/-- Two granted analysis locks of one project are the same row. -/
theorem Exclusive.eq_of_active (h : Exclusive locks) {a b : LockRow}
    (ha : a ∈ activeAnalyses project locks) (hb : b ∈ activeAnalyses project locks) : a = b := by
  simp only [activeAnalyses, List.mem_filter, Bool.and_eq_true, beq_iff_eq] at ha hb
  by_contra hne
  exact h.compatible a ha.1 b hb.1 (ha.2.1.trans hb.2.1.symm)
    (fun hl => hne (h.eq_of_key ha.1 hb.1 (ha.2.1.trans hb.2.1.symm) hl))
    (Or.inl ⟨ha.2.2, hb.2.2⟩)

/-- At every moment at most one lock of a project is granted to an analysis, and no
lock is committing while another one of the project is an artifact lock. -/
theorem reachableLocks_mutualExclusion {locks : LockTable} (h : ReachableLocks locks)
    (project : ProjectID) :
    (activeAnalyses project locks).length ≤ 1 ∧
      ¬ ∃ a ∈ locks, ∃ b ∈ locks, a.projectId = project ∧ b.projectId = project ∧
        a.lockType = .analysisCommitting ∧ b.lockType = .artifact := by
  have he : Exclusive locks := Run.exclusive h
  constructor
  · have hnodup : (activeAnalyses project locks).Nodup := he.keys.of_map.filter _
    have hall : ∀ a ∈ activeAnalyses project locks, ∀ b ∈ activeAnalyses project locks, a = b :=
      fun a ha b hb => he.eq_of_active ha hb
    generalize activeAnalyses project locks = active at hnodup hall
    rcases active with _ | ⟨a, _ | ⟨b, rest⟩⟩
    · simp
    · simp
    · have hab := hall a (by simp) b (by simp)
      simp [hab] at hnodup
  · rintro ⟨a, ha, b, hb, hap, hbp, hat, hbt⟩
    refine he.compatible a ha b hb (hap.trans hbp.symm) (fun hl => ?_)
      (Or.inr (Or.inl ⟨hat, hbt⟩))
    rw [he.eq_of_key ha hb (hap.trans hbp.symm) hl, hbt] at hat
    cases hat

/-- A run to a table with a committing lock and a waiting artifact lock. -/
theorem reachableLocks_mutualExclusion_committing :
    ∃ locks, ReachableLocks locks ∧
      locks.map (fun r => (r.lockId, r.lockType)) =
        [("art", .artifactWaiting), ("ana", .analysisCommitting)] ∧
      (activeAnalyses "p" locks).length ≤ 1 ∧
      ¬ ∃ a ∈ locks, ∃ b ∈ locks, a.projectId = "p" ∧ b.projectId = "p" ∧
        a.lockType = .analysisCommitting ∧ b.lockType = .artifact := by
  have h₁ : ReachableLocks (makeLock "p" "ana" .analysis 0 []) :=
    (TransitionSystem.Run.refl _).tail trivial .makeLock
  have h₂ := h₁.tail trivial (.upgrade (p := "p") (l := "ana") (by decide))
  have h₃ : ReachableLocks (makeLock "p" "art" .artifact 1 _) := h₂.tail trivial .makeLock
  exact ⟨_, h₃, by decide, reachableLocks_mutualExclusion h₃ "p"⟩

end RssServer
