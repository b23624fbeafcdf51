import Revng.Pypeline.LocalProject

/-!
# Crash consistency of a local project

A process may stop between the steps of a change of the model.  When the project is opened again
and the model on disk has been compared with the baseline, no object may depend on a part of the
model that has changed since the object was computed.

The baseline is what makes this work: all objects agree with it at all times (`Consistent`).  A
change first deletes the objects that do not agree with the new model, and only then makes the
new model the baseline.  Stopping before that leaves the old baseline, with more objects deleted
than necessary.

There is one gap.  An invalidation also deletes the dependencies that start at a deleted object,
and such a dependency may be the only trace of what another object depends on.  `Spares` says
that no object is left without its dependencies, and then every reopened project is `Fresh`
(`fresh_of_reopened`).
-/

namespace Pypeline

open TransitionSystem LocalStorage

variable {K : KindLayout} {M V : Type} {T : ModelType M} {value : M → ModelPath → V}

/-- The dependency covers the object. -/
def LocalDependency.hits (d : LocalDependency) (o : LocalObject) : Bool :=
  Range.hits ⟨d.savepointIdStart, d.savepointIdEnd, d.configurationHash, d.objectId⟩ o

namespace ProjectState

/-! ## What a run relies on -/

section Guards

variable (T : ModelType M) (value : M → ModelPath → V)

/-- One action. -/
def Steps (a : Action K M) (s t : ProjectState K M) : Prop := s.step T a = some t

/-- What the provider is promised.  A change of the file is seen by the check.  Objects are
computed from the model that was seen last, and are stored with dependencies that cover them.  A
new model comes with all paths that change. -/
def Proper : Action K M → ProjectState K M → Prop
  | .getModel _, s => ∀ lastSeen, s.project.row.lastSeenModel = some lastSeen →
      s.project.modelFile ≠ lastSeen → s.project.row.modelMtime ≠ some s.project.mtime ∧
        some (T.computeHash s.project.modelFile) ≠ s.project.row.modelHash
  | .addObjects model reads dependencies objects, s =>
      (∃ lastSeen, s.project.row.lastSeenModel = some lastSeen ∧
        value model = value (T.modelOf lastSeen)) ∧
      ∀ x ∈ StorageView.items objects, ∀ p ∈ reads x.1 x.2.1, ∃ d,
        (d ∈ s.project.storage.dependencies ∨
          d ∈ (dependencies.flatMap PipeDependencies.entries).map dependencyRow) ∧
        d.modelPath = p ∧ d.hits (objectRow x) = true
  | .setModel newModel changedPaths _ modelBytes, s =>
      (∀ lastSeen, s.project.row.lastSeenModel = some lastSeen →
        ∀ p, value (T.modelOf lastSeen) p ≠ value newModel p → p ∈ changedPaths) ∧
      ∀ bytes ∈ modelBytes, value (T.modelOf bytes) = value newModel
  | _, _ => True

/-- An invalidation leaves every remaining object a dependency for each path it depends on. -/
def Spares : Action K M → ProjectState K M → Prop
  | .effect _, s => ∀ paths additional rest,
      s.process = some (.invalidate paths additional :: rest) →
      ∀ o ∈ s.project.storage.objects, s.project.storage.isInvalidated paths additional o = false →
      ∀ m reads, s.origins.lookup o.key = some (m, reads) → ∀ p ∈ reads,
        ∃ d ∈ s.project.storage.dependencies, d.modelPath = p ∧ d.hits o = true ∧
          ¬ ∃ o' ∈ s.project.storage.objects,
            s.project.storage.isInvalidated paths additional o' = true ∧ d.startsAt o' = true
  | _, _ => True

def Guard (a : Action K M) (s : ProjectState K M) : Prop := Proper T value a s ∧ Spares a s

/-- The project is closed in `s`, is opened and processes the changes of the model, and has done
so in `t`. -/
def Reopened (s t : ProjectState K M) : Prop :=
  ∃ u v customInvalidations, Steps T .openProject s u ∧
    Proper T value (.getModel customInvalidations) u ∧
    Steps T (.getModel customInvalidations) u v ∧
    Run (Steps T) (fun a w => (∃ now, a = .effect now) ∧ Spares a w) v t ∧ t.process = some []

/-! ## What holds of the objects -/

/-- The paths an object depends on have the values they had when it was computed. -/
def Agrees (s : ProjectState K M) (m : M) : Prop :=
  ∀ o ∈ s.project.storage.objects, ∃ origin reads,
    s.origins.lookup o.key = some (origin, reads) ∧ ∀ p ∈ reads, value origin p = value m p

/-- No object depends on a path whose value differs between the model it was computed from and
the model on disk. -/
def Fresh (s : ProjectState K M) : Prop := s.Agrees value (T.modelOf s.project.modelFile)

/-- Every object has a dependency for each path it depends on. -/
def Tracked (s : ProjectState K M) : Prop :=
  ∀ o ∈ s.project.storage.objects, ∀ m reads, s.origins.lookup o.key = some (m, reads) →
    ∀ p ∈ reads, ∃ d ∈ s.project.storage.dependencies, d.modelPath = p ∧ d.hits o = true

/-- The steps make no model the baseline that some object does not agree with, when the objects
agree with the models of `agree`. -/
def Safe : List (Effect K) → Set M → Prop
  | [], _ => True
  | .invalidate paths _ :: rest, agree =>
      Safe rest {n | ∃ m ∈ agree, ∀ p, value m p ≠ value n p → p ∈ paths}
  | .pruneObjects :: rest, _ => Safe rest Set.univ
  | .updateBaseline bytes :: rest, agree => T.modelOf bytes ∈ agree ∧ Safe rest agree
  | .writeFile _ :: rest, agree => Safe rest agree
  | .refreshMtime :: rest, agree => Safe rest agree

/-- The invariant of all runs. -/
structure Consistent (s : ProjectState K M) : Prop where
  tracked : s.Tracked
  baseline : ∀ lastSeen, s.project.row.lastSeenModel = some lastSeen →
    s.Agrees value (T.modelOf lastSeen)
  unseen : s.project.row.lastSeenModel = none → s.project.storage.objects = []
  pending : ∀ effects, s.process = some effects → Safe T value effects {m | s.Agrees value m}

end Guards

/-! ## Safe steps -/

variable {effects : List (Effect K)}

theorem Safe.mono : ∀ {agree agree' : Set M}, agree ⊆ agree' →
    Safe T value effects agree → Safe T value effects agree' := by
  induction effects with
  | nil => exact fun _ _ => trivial
  | cons effect rest ih =>
    intro agree agree' hsub h
    cases effect with
    | invalidate paths additional =>
      refine ih ?_ h
      rintro n ⟨m, hm, hpaths⟩
      exact ⟨m, hsub hm, hpaths⟩
    | pruneObjects => exact h
    | writeFile bytes => exact ih hsub h
    | updateBaseline bytes => exact ⟨hsub h.1, ih hsub h.2⟩
    | refreshMtime => exact ih hsub h

variable {additional : List (ObjectsToInvalidate K)}

variable {agree : Set M} {paths : List ModelPath}

/-- What an invalidation keeps agrees with every model that differs in the invalidated paths
only. -/
theorem safe_setModelEffects {m n : M} {bytes : Option Bytes} (hm : m ∈ agree)
    (hpaths : ∀ p, value m p ≠ value (T.modelOf (bytes.getD (T.serialize n))) p → p ∈ paths) :
    Safe T value (setModelEffects T n paths additional bytes) agree :=
  ⟨⟨m, hm, hpaths⟩, trivial⟩

variable {rest : List (Effect K)}

/-- A migrated model is loaded without objects. -/
theorem safe_loadEffects_append {p : LocalProject} (h : Safe T value rest agree) :
    Safe T value (loadEffects T p ++ rest) agree := by
  rw [loadEffects]
  split
  · exact ⟨Set.mem_univ _, h.mono (Set.subset_univ _)⟩
  · exact h

theorem safe_loadEffects {p : LocalProject} :
    Safe T value (loadEffects T p : List (Effect K)) agree := by
  have h : Safe T value (loadEffects T p ++ ([] : List (Effect K))) agree :=
    safe_loadEffects_append trivial
  rwa [List.append_nil] at h

variable {s : ProjectState K M}

theorem agrees_of_objects_eq_nil (h : s.project.storage.objects = []) (m : M) :
    s.Agrees value m := by
  intro o ho
  rw [h] at ho
  cases ho

theorem safe_getModelEffects (hT : T.Lawful value) (hs : s.Consistent T value)
    (additional : List (ObjectsToInvalidate K)) :
    Safe T value (getModelEffects T additional s.project) {m | s.Agrees value m} := by
  rw [getModelEffects]
  split
  next hlast => exact ⟨agrees_of_objects_eq_nil (hs.unseen hlast) _, safe_loadEffects⟩
  next lastSeen hlast =>
    split
    · exact safe_loadEffects
    · split
      · exact safe_loadEffects
      · simp only
        split
        · exact safe_loadEffects
        · exact safe_loadEffects_append (safe_setModelEffects (hs.baseline lastSeen hlast)
            fun p hp => hT.mem_diffPaths _ _ p hp)

/-! ## What the steps keep -/

variable {t : ProjectState K M}

/-- The steps that leave the objects and their origins alone keep the invariant, when they add
nothing unsafe to the steps of the process and to the baseline. -/
theorem Consistent.of_storage (hs : s.Consistent T value)
    (hstorage : t.project.storage = s.project.storage) (horigins : t.origins = s.origins)
    (hlast : t.project.row.lastSeenModel = s.project.row.lastSeenModel ∨
      ∃ bytes, t.project.row.lastSeenModel = some bytes ∧ s.Agrees value (T.modelOf bytes))
    (hpending : ∀ effects, t.process = some effects → Safe T value effects {m | s.Agrees value m}) :
    t.Consistent T value := by
  have hagrees (m : M) : t.Agrees value m ↔ s.Agrees value m := by
    rw [Agrees, Agrees, hstorage, horigins]
  refine ⟨?_, ?_, ?_, ?_⟩
  · rw [Tracked, hstorage, horigins]
    exact hs.tracked
  · intro lastSeen hseen
    rw [hagrees]
    rcases hlast with hlast | ⟨bytes, hbytes, hagree⟩
    · exact hs.baseline lastSeen (hlast ▸ hseen)
    · rw [hbytes, Option.some.injEq] at hseen
      exact hseen ▸ hagree
  · intro hseen
    rw [hstorage]
    rcases hlast with hlast | ⟨bytes, hbytes, -⟩
    · exact hs.unseen (hlast ▸ hseen)
    · rw [hbytes] at hseen
      cases hseen
  · simpa only [hagrees] using hpending

theorem begin_eq_some (h : s.begin effects = some t) :
    s.process = some [] ∧ t = { s with process := some effects } := by
  rw [begin] at h
  split at h
  next hidle =>
    cases h
    exact ⟨hidle, rfl⟩
  · cases h

theorem Consistent.begin (hs : s.Consistent T value) (h : s.begin effects = some t)
    (hsafe : Safe T value effects {m | s.Agrees value m}) : t.Consistent T value := by
  obtain ⟨-, rfl⟩ := begin_eq_some h
  refine hs.of_storage rfl rfl (Or.inl rfl) fun effects' heq => ?_
  cases heq
  exact hsafe

/-- New objects come from where the operation says, and the other ones from where they came
before. -/
theorem lookup_newOrigins (model : M) (reads : ContainerLocation → ObjectID K → List ModelPath)
    (objects : ObjectMap K) (origins : List ((ContainerLocation × ObjectKey) × M × List ModelPath)) :
    (∀ x ∈ StorageView.items objects,
      (newOrigins model reads objects ++ origins).lookup (objectRow x).key =
        some (model, reads x.1 x.2.1)) ∧
    ∀ key, (∀ x ∈ StorageView.items objects, key ≠ (objectRow x).key) →
      (newOrigins model reads objects ++ origins).lookup key = origins.lookup key := by
  rw [newOrigins]
  induction StorageView.items objects with
  | nil => simp
  | cons y rest ih =>
    simp only [List.map_cons, List.cons_append, List.lookup_cons]
    constructor
    · intro x hx
      by_cases hxy : (objectRow x).key = (y.1, y.2.1.toBytes)
      · have hsame : (x.1, x.2.1) = (y.1, y.2.1) := objectRow_key.mp hxy
        simp only [Prod.mk.injEq] at hsame
        rw [hxy, beq_self_eq_true, hsame.1, hsame.2]
      · rw [beq_false_of_ne hxy]
        rcases List.mem_cons.mp hx with rfl | hx
        · exact absurd rfl hxy
        · exact ih.1 x hx
    · intro key hkey
      rw [List.forall_mem_cons] at hkey
      have hy : key ≠ (y.1, y.2.1.toBytes) := hkey.1
      rw [beq_false_of_ne hy]
      exact ih.2 key hkey.2

/-- What `add_objects` stores and what it leaves. -/
theorem addObjects_rows {storage storage' : LocalStorage} {dependencies : List (PipeDependencies K)}
    {objects : ObjectMap K} (h : storage.addObjects dependencies objects = .ok storage') :
    (∀ o ∈ storage'.objects, (∃ x ∈ StorageView.items objects, objectRow x = o) ∨
      (o ∈ storage.objects ∧ ∀ x ∈ StorageView.items objects, o.key ≠ (objectRow x).key)) ∧
    ∀ d, d ∈ storage'.dependencies ↔ d ∈ storage.dependencies ∨
      d ∈ (dependencies.flatMap PipeDependencies.entries).map dependencyRow := by
  rw [LocalStorage.addObjects] at h
  split at h
  · cases h
  · cases h
    constructor
    · intro o ho
      rcases KeyedTable.mem_putAll_replace ho with ho | ⟨ho, hkeys⟩
      · exact Or.inl (List.mem_map.mp ho)
      · exact Or.inr ⟨ho, fun x hx => hkeys _ (List.mem_map_of_mem hx)⟩
    · exact fun d => mem_putAll_id

theorem Consistent.addObjects (hs : s.Consistent T value) {model : M}
    {reads : ContainerLocation → ObjectID K → List ModelPath}
    {dependencies : List (PipeDependencies K)} {objects : ObjectMap K}
    (hproper : Proper T value (.addObjects model reads dependencies objects) s)
    (h : Steps T (.addObjects model reads dependencies objects) s t) : t.Consistent T value := by
  rw [Steps, step] at h
  split at h
  next storage hidle hadd =>
    cases h
    obtain ⟨⟨last, hlast, hmodel⟩, hrecorded⟩ := hproper
    obtain ⟨hobjects, hdependencies⟩ := addObjects_rows hadd
    obtain ⟨hnew, hold⟩ := lookup_newOrigins model reads objects s.origins
    refine ⟨?_, ?_, ?_, ?_⟩
    · intro o ho m paths hlookup p hp
      rcases hobjects o ho with ⟨x, hx, rfl⟩ | ⟨ho, hkeys⟩
      · rw [hnew x hx, Option.some.injEq, Prod.mk.injEq] at hlookup
        obtain ⟨rfl, rfl⟩ := hlookup
        obtain ⟨d, hd, hdp⟩ := hrecorded x hx p hp
        exact ⟨d, (hdependencies d).mpr hd, hdp⟩
      · rw [hold _ hkeys] at hlookup
        obtain ⟨d, hd, hdp⟩ := hs.tracked o ho m paths hlookup p hp
        exact ⟨d, (hdependencies d).mpr (Or.inl hd), hdp⟩
    · intro lastSeen hseen o ho
      rcases hobjects o ho with ⟨x, hx, rfl⟩ | ⟨ho, hkeys⟩
      · refine ⟨model, _, hnew x hx, fun p _ => ?_⟩
        obtain rfl : last = lastSeen := Option.some.inj (hlast.symm.trans hseen)
        rw [hmodel]
      · obtain ⟨origin, paths, hlookup, hvalues⟩ := hs.baseline lastSeen hseen o ho
        exact ⟨origin, paths, (hold _ hkeys).trans hlookup, hvalues⟩
    · intro hseen
      rw [hlast] at hseen
      cases hseen
    · intro effects heffects
      obtain rfl : [] = effects := Option.some.inj (hidle.symm.trans heffects)
      trivial
  · cases h
    exact hs
  · cases h

/-- An object that stays does not depend on an invalidated path. -/
theorem notMem_of_not_invalidated (hs : s.Tracked) {o : LocalObject}
    (ho : o ∈ s.project.storage.objects)
    (hstays : s.project.storage.isInvalidated paths additional o = false) {m : M}
    {reads : List ModelPath} (hlookup : s.origins.lookup o.key = some (m, reads)) :
    ∀ p ∈ reads, p ∉ paths := by
  intro p hp hpaths
  obtain ⟨d, hd, rfl, hhits⟩ := hs o ho m reads hlookup p hp
  have hinvalidated : s.project.storage.isInvalidated paths additional o = true := by
    rw [isInvalidated, List.any_eq_true]
    refine ⟨_, List.mem_append_left _ (List.mem_map_of_mem (List.mem_filter.mpr ⟨hd, ?_⟩)), hhits⟩
    exact List.contains_iff_mem.mpr hpaths
  rw [hstays] at hinvalidated
  cases hinvalidated

variable {now : Nat}

theorem Consistent.invalidate (hs : s.Consistent T value)
    (hprocess : s.process = some (.invalidate paths additional :: rest))
    (hspares : Spares (.effect now) s) :
    Consistent T value { s with
      project := Effect.run T now s.project (.invalidate paths additional)
      process := some rest } := by
  obtain ⟨hobjects, hdependencies⟩ := invalidate_rows s.project.storage paths additional
  refine ⟨?_, ?_, ?_, ?_⟩
  · intro o ho m reads hlookup p hp
    obtain ⟨ho, hstays⟩ := (hobjects o).mp ho
    obtain ⟨d, hd, hdp, hhits, hkept⟩ :=
      hspares paths additional rest hprocess o ho hstays m reads hlookup p hp
    exact ⟨d, (hdependencies d).mpr ⟨hd, hkept⟩, hdp, hhits⟩
  · intro lastSeen hseen o ho
    exact hs.baseline lastSeen hseen o ((hobjects o).mp ho).1
  · intro hseen
    refine List.eq_nil_iff_forall_not_mem.mpr fun o ho => ?_
    have hnone := ((hobjects o).mp ho).1
    rw [hs.unseen hseen] at hnone
    cases hnone
  · intro effects heffects
    cases heffects
    have hsafe : Safe T value rest {n | ∃ m ∈ {m | s.Agrees value m},
        ∀ p, value m p ≠ value n p → p ∈ paths} := hs.pending _ hprocess
    refine hsafe.mono ?_
    rintro n ⟨m, hm, hpaths⟩ o ho
    obtain ⟨ho, hstays⟩ := (hobjects o).mp ho
    obtain ⟨origin, reads, hlookup, hvalues⟩ := hm o ho
    refine ⟨origin, reads, hlookup, fun p hp => (hvalues p hp).trans ?_⟩
    by_contra hne
    exact notMem_of_not_invalidated hs.tracked ho hstays hlookup p hp (hpaths p hne)

theorem Consistent.effect (hs : s.Consistent T value) (hspares : Spares (.effect now) s)
    (h : Steps T (.effect now) s t) : t.Consistent T value := by
  rw [Steps, step] at h
  split at h
  next effect rest hprocess =>
    cases h
    have hsafe := hs.pending _ hprocess
    cases effect with
    | invalidate paths additional => exact hs.invalidate hprocess hspares
    | pruneObjects =>
      have hnone (m : M) : ProjectState.Agrees value { s with
          project := Effect.run T now s.project (.pruneObjects : Effect K)
          process := some rest } m := agrees_of_objects_eq_nil rfl m
      refine ⟨fun o ho => ?_, fun lastSeen _ => hnone _, fun _ => rfl, fun effects heffects => ?_⟩
      · cases ho
      · cases heffects
        have hrest : Safe T value rest Set.univ := hsafe
        exact hrest.mono fun m _ => hnone m
    | writeFile bytes =>
      have hproject : (Effect.run T now s.project (.writeFile bytes : Effect K)).storage =
          s.project.storage ∧
          (Effect.run T now s.project (.writeFile bytes : Effect K)).row = s.project.row := by
        rw [Effect.run]
        split <;> exact ⟨rfl, rfl⟩
      refine hs.of_storage hproject.1 rfl (Or.inl (by rw [hproject.2])) fun effects heffects => ?_
      cases heffects
      exact hsafe
    | updateBaseline bytes =>
      refine hs.of_storage rfl rfl (Or.inr ⟨bytes, rfl, hsafe.1⟩) fun effects heffects => ?_
      cases heffects
      exact hsafe.2
    | refreshMtime =>
      refine hs.of_storage rfl rfl (Or.inl rfl) fun effects heffects => ?_
      cases heffects
      exact hsafe
  · cases h

/-! ## Every run -/

theorem Consistent.initial (modelFile : Bytes) (mtime : Nat) :
    (ProjectState.initial modelFile mtime : ProjectState K M).Consistent T value where
  tracked := by
    intro o ho
    cases ho
  baseline := by
    intro lastSeen hseen
    cases hseen
  unseen _ := rfl
  pending := by
    intro effects heffects
    cases heffects

theorem Consistent.step (hT : T.Lawful value) {a : Action K M} (hs : s.Consistent T value)
    (hguard : Guard T value a s) (h : Steps T a s t) : t.Consistent T value := by
  obtain ⟨hproper, hspares⟩ := hguard
  cases a with
  | openProject =>
    rw [Steps, ProjectState.step] at h
    split at h
    · cases h
      refine hs.of_storage rfl rfl (Or.inl rfl) fun effects heffects => ?_
      cases heffects
      trivial
    · cases h
  | getModel customInvalidations => exact hs.begin h (safe_getModelEffects hT hs _)
  | addObjects model reads dependencies objects => exact hs.addObjects hproper h
  | setModel newModel changedPaths customInvalidations modelBytes =>
    obtain ⟨hchanged, hbytes⟩ := hproper
    have hnew : value (T.modelOf (modelBytes.getD (T.serialize newModel))) = value newModel := by
      cases modelBytes with
      | none => exact congrArg value (hT.deserialize_serialize newModel)
      | some bytes => exact hbytes bytes rfl
    refine hs.begin h ?_
    cases hlast : s.project.row.lastSeenModel with
    | none =>
      refine safe_setModelEffects (m := T.modelOf (modelBytes.getD (T.serialize newModel)))
        (agrees_of_objects_eq_nil (hs.unseen hlast) _) fun p hp => absurd rfl hp
    | some lastSeen =>
      refine safe_setModelEffects (hs.baseline lastSeen hlast) fun p hp => ?_
      rw [hnew] at hp
      exact hchanged lastSeen hlast p hp
  | pruneObjects => exact hs.begin h trivial
  | effect now => exact hs.effect hspares h
  | crash =>
    cases h
    refine hs.of_storage rfl rfl (Or.inl rfl) fun effects heffects => ?_
    cases heffects
  | edit bytes now =>
    rw [Steps, ProjectState.step] at h
    split at h
    · cases h
      exact hs.of_storage rfl rfl (Or.inl rfl) hs.pending
    · cases h
      exact hs.of_storage rfl rfl (Or.inl rfl) hs.pending
    · cases h

theorem Consistent.of_run (hT : T.Lawful value) {modelFile : Bytes} {mtime : Nat}
    (h : Run (Steps T) (Guard T value) (ProjectState.initial modelFile mtime) s) :
    s.Consistent T value :=
  h.invariant (Consistent.initial modelFile mtime) fun _ _ _ hguard hstep hs =>
    hs.step hT hguard hstep

/-! ## Reopening -/

/-- The file and the baseline after the steps. -/
def outcome (p : Bytes × Option Bytes) : List (Effect K) → Bytes × Option Bytes
  | [] => p
  | .writeFile bytes :: rest => outcome (bytes, p.2) rest
  | .updateBaseline bytes :: rest => outcome (p.1, some bytes) rest
  | _ :: rest => outcome p rest

/-- The baseline and the file hold models with the same values. -/
def Settled (T : ModelType M) (value : M → ModelPath → V) (p : Bytes × Option Bytes) : Prop :=
  ∃ baseline, p.2 = some baseline ∧ value (T.modelOf baseline) = value (T.modelOf p.1)

/-- Once the steps of the process are done, the file and the baseline hold the same model. -/
def WillSettle (T : ModelType M) (value : M → ModelPath → V) (s : ProjectState K M) : Prop :=
  ∀ effects, s.process = some effects →
    Settled T value (outcome (s.project.modelFile, s.project.row.lastSeenModel) effects)

theorem outcome_append (p : Bytes × Option Bytes) (effects rest : List (Effect K)) :
    outcome p (effects ++ rest) = outcome (outcome p effects) rest := by
  induction effects generalizing p with
  | nil => rfl
  | cons effect effects ih => cases effect <;> exact ih _

theorem outcome_setModelEffects (p : Bytes × Option Bytes) (newModel : M) (paths : List ModelPath)
    (additional : List (ObjectsToInvalidate K)) (bytes : Bytes) :
    outcome p (setModelEffects T newModel paths additional (some bytes)) = (bytes, some bytes) :=
  rfl

theorem settled_loadEffects {project : LocalProject} {p : Bytes × Option Bytes}
    (h : Settled T value p) : Settled T value (outcome p (loadEffects T project : List (Effect K))) := by
  rw [loadEffects]
  split
  · exact ⟨_, rfl, rfl⟩
  · exact h

theorem settled_getModelEffects (hT : T.Lawful value)
    (hvisible : Proper T value (.getModel additional) s) :
    Settled T value (outcome (s.project.modelFile, s.project.row.lastSeenModel)
      (getModelEffects T additional s.project)) := by
  rw [getModelEffects]
  split
  · exact settled_loadEffects (p := (s.project.modelFile, some s.project.modelFile)) ⟨_, rfl, rfl⟩
  next lastSeen hlast =>
    -- When the check sees nothing, the file holds what was seen last.
    have hunchanged (h : s.project.row.modelMtime = some s.project.mtime ∨
        some (T.computeHash s.project.modelFile) = s.project.row.modelHash) :
        Settled T value (s.project.modelFile, some lastSeen) := by
      have hfile : s.project.modelFile = lastSeen := by
        by_contra hne
        obtain ⟨hmtime, hhash⟩ := hvisible lastSeen hlast hne
        exact h.elim hmtime hhash
      exact ⟨lastSeen, rfl, by rw [hfile]⟩
    rw [hlast]
    split
    next hmtime => exact settled_loadEffects (hunchanged (Or.inl hmtime))
    · split
      next hhash => exact settled_loadEffects (hunchanged (Or.inr hhash))
      · simp only
        split
        next hdiff =>
          refine settled_loadEffects ⟨lastSeen, rfl, funext fun p => ?_⟩
          by_contra hne
          have hmem := hT.mem_diffPaths _ _ p hne
          rw [hdiff] at hmem
          cases hmem
        · rw [outcome_append, outcome_setModelEffects]
          exact ⟨_, rfl, rfl⟩

theorem WillSettle.effect (hs : WillSettle T value s) (h : Steps T (.effect now) s t) :
    WillSettle T value t := by
  rw [Steps, step] at h
  split at h
  next effect rest hprocess =>
    cases h
    intro effects heffects
    cases heffects
    have hsettled := hs _ hprocess
    cases effect with
    | writeFile bytes =>
      rw [Effect.run]
      split
      · exact hsettled
      next hsame =>
        rw [outcome, ← not_not.mp hsame] at hsettled
        exact hsettled
    | invalidate paths additional => exact hsettled
    | pruneObjects => exact hsettled
    | updateBaseline bytes => exact hsettled
    | refreshMtime => exact hsettled
  · cases h

/-- After any run, opening the project and processing the changes of the model leaves no object
that depends on a path whose value has changed, when no invalidation takes from an object the
dependencies it needs. -/
theorem fresh_of_reopened (hT : T.Lawful value) {modelFile : Bytes} {mtime : Nat}
    {s t : ProjectState K M}
    (hrun : Run (Steps T) (Guard T value) (ProjectState.initial modelFile mtime) s)
    (hreopened : Reopened T value s t) : t.Fresh T value := by
  obtain ⟨u, v, additional, hopen, hvisible, hget, heffects, hidle⟩ := hreopened
  have hu : u.Consistent T value :=
    (Consistent.of_run hT hrun).step hT (a := .openProject) ⟨trivial, trivial⟩ hopen
  have hv : v.Consistent T value ∧ WillSettle T value v := by
    refine ⟨hu.step hT ⟨hvisible, trivial⟩ hget, fun effects hprocess => ?_⟩
    obtain ⟨-, rfl⟩ := begin_eq_some hget
    cases hprocess
    exact settled_getModelEffects hT hvisible
  obtain ⟨ht, hsettle⟩ := heffects.invariant
    (P := fun w => w.Consistent T value ∧ WillSettle T value w) hv fun a w w' hguard hstep hw => by
      obtain ⟨⟨now, rfl⟩, hspares⟩ := hguard
      exact ⟨hw.1.effect hspares hstep, hw.2.effect hstep⟩
  obtain ⟨baseline, hbaseline, hsame⟩ := hsettle [] hidle
  intro o ho
  obtain ⟨origin, reads, hlookup, hvalues⟩ := ht.baseline baseline hbaseline o ho
  exact ⟨origin, reads, hlookup, fun p hp => (hvalues p hp).trans (congrFun hsame p)⟩

/-! ## Two runs

The models of these runs have two values, at the paths `/a` and `/b`. -/

def flagModels : ModelType (Bool × Bool) where
  serialize m := [m.1.toNat.toUInt8, m.2.toNat.toUInt8]
  deserialize
    | [a, b] => ((a == 1, b == 1), false)
    | _ => ((false, false), false)
  diffPaths m n := (if m.1 = n.1 then [] else ["/a"]) ++ if m.2 = n.2 then [] else ["/b"]
  computeHash bytes := String.ofList (bytes.map fun b => Char.ofNat b.toNat)

def flagValue (m : Bool × Bool) (p : ModelPath) : Bool :=
  if p = "/a" then m.1 else if p = "/b" then m.2 else false

theorem flagModels_lawful : flagModels.Lawful flagValue where
  deserialize_serialize := by
    rintro ⟨a, b⟩
    cases a <;> cases b <;> rfl
  mem_diffPaths m n p h := by
    rw [flagValue, flagValue] at h
    split at h
    next hp => simp [flagModels, hp, h]
    · split at h
      next hp => simp [flagModels, hp, h]
      · exact absurd rfl h

abbrev rootLayout : KindLayout := ⟨fun _ => 0⟩

abbrev FlagState := ProjectState rootLayout (Bool × Bool)

/-- The dependency of the root object of a container on a path. -/
def rootDependency (start stop : SavepointID) (container : ContainerID) (path : ModelPath) :
    PipeDependencies rootLayout :=
  ⟨0, ⟨start, stop⟩, "", [(container, rootObject rootLayout, path)], []⟩

/-- One root object at a savepoint. -/
def rootAt (savepoint : SavepointID) (container : ContainerID) :
    ContainerLocation × List (ObjectID rootLayout × Bytes) :=
  (⟨savepoint, container, ""⟩, [(rootObject rootLayout, [])])

/-- The first object depends on both paths, and the second one on `/a` only.  The dependency on `/a`
covers both of them and starts at the first. -/
def sharedObjects : Action rootLayout (Bool × Bool) :=
  .addObjects (false, false)
    (fun location _ => if location.savepointId = 1 then ["/a", "/b"] else ["/a"])
    [rootDependency 1 2 "c" "/a", rootDependency 1 1 "c" "/b"] [rootAt 1 "c", rootAt 2 "d"]

/-- The change at `/b` deletes the first object, and with it the dependency on `/a`. -/
def forgetful : List (Action rootLayout (Bool × Bool)) :=
  [.openProject, .getModel [], .effect 1, sharedObjects,
    .setModel (false, true) ["/b"] [] none, .effect 2, .effect 2, .effect 2,
    .setModel (true, true) ["/a"] [] none, .effect 3, .effect 3, .effect 3, .crash]

/-- The second object is left, and no dependency. -/
def forgotten : FlagState where
  project := ⟨⟨[⟨2, "d", "", [], []⟩], [], []⟩,
    ⟨some (flagModels.computeHash [1, 1]), some 3, some [1, 1]⟩, [1, 1], 3⟩
  process := none
  origins := [((⟨1, "c", ""⟩, []), (false, false), ["/a", "/b"]),
    ((⟨2, "d", ""⟩, []), (false, false), ["/a"])]

theorem along_forgetful : Along (Steps flagModels) (Proper flagModels flagValue) forgetful
    (.initial [] 0) forgotten := by
  refine ⟨trivial, _, rfl, ?_, _, rfl, trivial, _, rfl, ?_, _, rfl, ?_, _, rfl,
    trivial, _, rfl, trivial, _, rfl, trivial, _, rfl, ?_, _, rfl,
    trivial, _, rfl, trivial, _, rfl, trivial, _, rfl, trivial, _, rfl, rfl⟩
  · intro lastSeen hlast
    cases hlast
  · refine ⟨⟨[], rfl, rfl⟩, fun x hx p hp => ?_⟩
    have hx : x = (⟨1, "c", ""⟩, rootObject _, []) ∨ x = (⟨2, "d", ""⟩, rootObject _, []) := by
      simpa [StorageView.items, rootAt] using hx
    rcases hx with rfl | rfl
    · have hp : p = "/a" ∨ p = "/b" := by simpa using hp
      rcases hp with rfl | rfl
      · exact ⟨⟨1, 2, "c", "", [], "/a"⟩, by decide⟩
      · exact ⟨⟨1, 1, "c", "", [], "/b"⟩, by decide⟩
    · obtain rfl : p = "/a" := by simpa using hp
      exact ⟨⟨1, 2, "c", "", [], "/a"⟩, by decide⟩
  · refine ⟨fun lastSeen hlast p hp => ?_, fun bytes hbytes => by cases hbytes⟩
    cases hlast
    exact flagModels_lawful.mem_diffPaths _ _ p hp
  · refine ⟨fun lastSeen hlast p hp => ?_, fun bytes hbytes => by cases hbytes⟩
    cases hlast
    exact flagModels_lawful.mem_diffPaths _ _ p hp

theorem not_fresh_of_reopened : ¬ ∀ s t : FlagState,
    Run (Steps flagModels) (Proper flagModels flagValue) (.initial [] 0) s →
      Reopened flagModels flagValue s t → t.Fresh flagModels flagValue := by
  intro h
  have hfresh := h forgotten { forgotten with process := some [] } along_forgetful.run
    ⟨_, _, [], rfl, fun _ hlast hne => absurd (Option.some.inj hlast) hne, rfl, Run.refl _, rfl⟩
  obtain ⟨origin, reads, hlookup, hvalues⟩ := hfresh ⟨2, "d", "", [], []⟩ (List.mem_singleton_self _)
  cases hlookup
  exact absurd (hvalues "/a" (List.mem_singleton_self _)) (by decide)

/-- The first object depends on `/a` and the second one on `/b`, each with a dependency of its
own. -/
def separateObjects : Action rootLayout (Bool × Bool) :=
  .addObjects (false, false)
    (fun location _ => if location.savepointId = 1 then ["/a"] else ["/b"])
    [rootDependency 1 1 "c" "/a", rootDependency 2 2 "d" "/b"] [rootAt 1 "c", rootAt 2 "d"]

/-- The process stops after the file is written, and again in the middle of the repair. -/
def interrupted : List (Action rootLayout (Bool × Bool)) :=
  [.openProject, .getModel [], .effect 1, separateObjects,
    .setModel (true, false) ["/a"] [] none, .effect 2, .effect 2, .crash,
    .openProject, .getModel [], .effect 3, .crash]

/-- The file has the new model, and the baseline is the old one. -/
def unsettled : FlagState where
  project := ⟨⟨[⟨2, "d", "", [], []⟩], [⟨2, 2, "d", "", [], "/b"⟩], []⟩,
    ⟨some (flagModels.computeHash []), some 0, some []⟩, [1, 0], 2⟩
  process := none
  origins := [((⟨1, "c", ""⟩, []), (false, false), ["/a"]),
    ((⟨2, "d", ""⟩, []), (false, false), ["/b"])]

def settled : FlagState :=
  { unsettled with
    project := { unsettled.project with
      row := ⟨some (flagModels.computeHash [1, 0]), some 2, some [1, 0]⟩ }
    process := some [] }

/-- A step that does not invalidate spares everything. -/
theorem spares_of_process
    (h : ∀ paths additional rest, s.process ≠ some (.invalidate paths additional :: rest)) :
    Spares (.effect now) s := fun paths additional rest hprocess =>
  absurd hprocess (h paths additional rest)

/-- The condition on an invalidation, in a form that can be evaluated. -/
theorem spares_of_invalidate (hprocess : s.process = some (.invalidate paths additional :: rest))
    (h : ∀ o ∈ s.project.storage.objects,
      s.project.storage.isInvalidated paths additional o = true ∨
        ∀ origin ∈ s.origins.lookup o.key, ∀ p ∈ origin.2,
          ∃ d ∈ s.project.storage.dependencies, d.modelPath = p ∧ d.hits o = true ∧
            ¬ ∃ o' ∈ s.project.storage.objects,
              s.project.storage.isInvalidated paths additional o' = true ∧
                d.startsAt o' = true) : Spares (.effect now) s := by
  intro paths' additional' rest' hprocess' o ho hstays m reads hlookup p hp
  cases hprocess.symm.trans hprocess'
  rcases h o ho with hinvalidated | hkept
  · rw [hstays] at hinvalidated
    cases hinvalidated
  · exact hkept (m, reads) hlookup p hp

theorem along_interrupted : Along (Steps flagModels) (Guard flagModels flagValue) interrupted
    (.initial [] 0) unsettled := by
  refine ⟨⟨trivial, trivial⟩, _, rfl, ⟨?_, trivial⟩, _, rfl, ⟨trivial, ?_⟩, _, rfl,
    ⟨?_, trivial⟩, _, rfl, ⟨?_, trivial⟩, _, rfl, ⟨trivial, ?_⟩, _, rfl, ⟨trivial, ?_⟩, _, rfl,
    ⟨trivial, trivial⟩, _, rfl, ⟨trivial, trivial⟩, _, rfl, ⟨?_, trivial⟩, _, rfl,
    ⟨trivial, ?_⟩, _, rfl, ⟨trivial, trivial⟩, _, rfl, rfl⟩
  · intro lastSeen hlast
    cases hlast
  · exact spares_of_process fun _ _ _ h => by cases h
  · refine ⟨⟨[], rfl, rfl⟩, fun x hx p hp => ?_⟩
    have hx : x = (⟨1, "c", ""⟩, rootObject _, []) ∨ x = (⟨2, "d", ""⟩, rootObject _, []) := by
      simpa [StorageView.items, rootAt] using hx
    rcases hx with rfl | rfl
    · obtain rfl : p = "/a" := by simpa using hp
      exact ⟨⟨1, 1, "c", "", [], "/a"⟩, by decide⟩
    · obtain rfl : p = "/b" := by simpa using hp
      exact ⟨⟨2, 2, "d", "", [], "/b"⟩, by decide⟩
  · refine ⟨fun lastSeen hlast p hp => ?_, fun bytes hbytes => by cases hbytes⟩
    cases hlast
    exact flagModels_lawful.mem_diffPaths _ _ p hp
  · exact spares_of_invalidate rfl (by decide)
  · exact spares_of_process fun _ _ _ h => by cases h
  · intro lastSeen hlast hne
    cases hlast
    exact ⟨by decide, by decide⟩
  · exact spares_of_invalidate rfl (by decide)

/-- The second repair, which is completed. -/
def repair : List (Action rootLayout (Bool × Bool)) := [.effect 4, .effect 4, .effect 4]

theorem fresh_of_reopened_interrupted : settled.Fresh flagModels flagValue := by
  refine fresh_of_reopened flagModels_lawful along_interrupted.run
    ⟨_, _, [], rfl, ?_, rfl, Along.run (a := repair)
      ⟨⟨⟨4, rfl⟩, ?_⟩, _, rfl, ⟨⟨4, rfl⟩, ?_⟩, _, rfl, ⟨⟨4, rfl⟩, ?_⟩, _, rfl, rfl⟩, rfl⟩
  · intro lastSeen hlast hne
    cases hlast
    exact ⟨by decide, by decide⟩
  · exact spares_of_invalidate rfl (by decide)
  · exact spares_of_process fun _ _ _ h => by cases h
  · exact spares_of_process fun _ _ _ h => by cases h

end ProjectState

end Pypeline
