import Revng.Pypeline.ScheduleCorrect

/-!
# Who stores the dependencies of a pipe

A pipe leaves its dependencies behind, and a savepoint hands them to the storage with its own
objects.  `_assign_responsible_pipes` makes a savepoint responsible for the pipes between it and
the savepoint before.

`runRecorded` runs the tasks as the code does: every pipe task keeps its dependencies until a
savepoint takes them, and an event is recorded for every pipe that ran and for every call of
`add_objects`.  It does what `runTasks` does (`dropRecord_runRecorded`), where only the dependencies
that nobody has taken yet are kept.

In every run, whether it goes through or stops at some task, the dependencies of a pipe are in
one call at most.  That is the call of the first savepoint after the pipe, so no objects made
from the output of the pipe are stored before (`persistsDependencies_run`).  The pipes after the
last savepoint keep their dependencies, and the later savepoints store objects made from the
output of the pipe too (`not_handedToOne`).
-/

namespace Pypeline

/-! ## Events -/

/-- `PipeScheduledTask.computed_dependencies` -/
inductive ComputedDependencies (K : KindLayout) where
  | unset
  | computed (dependencies : PipeDependencies K)
  | processed

/-- What happens in a run.  A task is known by the number of tasks before it. -/
inductive Event (K : KindLayout) (α : Type) where
  | pipe (task : Nat) (dependencies : PipeDependencies K)
  | addObjects (task : Nat) (handed : List (Nat × PipeDependencies K))
      (objects : List (ContainerLocation × List (ObjectID K × α)))

namespace Event

variable {K : KindLayout} {α : Type}

def task : Event K α → Nat
  | pipe task _ => task
  | addObjects task _ _ => task

/-- The pipes that ran after the last call, the latest first. -/
def recent : List (Event K α) → List (Nat × PipeDependencies K)
  | [] => []
  | pipe task dependencies :: history => (task, dependencies) :: recent history
  | addObjects .. :: _ => []

end Event

/-- The state of a run, with what happened in it, the latest event first. -/
structure RecordedState (K : KindLayout) (α σ : Type) where
  containers : ContainerSet K α
  storage : σ
  computedDependencies : Nat → ComputedDependencies K
  history : List (Event K α)

namespace RecordedState

variable {K : KindLayout} {α σ : Type}

/-- Before the first task. -/
def initial (containers : ContainerSet K α) (storage : σ) : RecordedState K α σ :=
  ⟨containers, storage, fun _ => .unset, []⟩

def toRunState (s : RecordedState K α σ) : RunState K α σ :=
  ⟨s.containers, s.storage, (Event.recent s.history).map Prod.snd⟩

end RecordedState

/-! ## The run -/

section

variable {Model Kind α σ : Type} {K : KindLayout}
  (E : Environment Model Kind K α σ)

/-- `_assign_responsible_pipes` for the task that comes after `tasks`: the pipes that it depends
on, up to a savepoint. -/
def responsiblePipes : List (ScheduledTask Model Kind K α) → List Nat
  | [] => []
  | t :: dependencies =>
      if t.node.task.isSavePoint then []
      else dependencies.length :: responsiblePipes dependencies

/-- The loop of `SavepointScheduledTask._run_impl` over the pipes: what is not empty is handed
on, and every pipe is processed. -/
def takeDependencies (computed : Nat → ComputedDependencies K) :
    List Nat → Option (List (Nat × PipeDependencies K) × (Nat → ComputedDependencies K))
  | [] => some ([], computed)
  | task :: rest =>
      match computed task with
      | .processed => takeDependencies computed rest
      | .unset => none
      | .computed dependencies =>
          (takeDependencies (Function.update computed task .processed) rest).map fun taken =>
            (if dependencies.isEmpty then taken.1 else (task, dependencies) :: taken.1, taken.2)

def Environment.runPipeRecorded (t : ScheduledTask Model Kind K α) (task : Nat)
    (p : Pipe Model Kind K α) (bindings : Fin p.arity → ContainerID) (s : RecordedState K α σ) :
    Except (ScheduleError × RecordedState K α σ) (RecordedState K α σ) :=
  match allSome fun i => s.containers (bindings i) with
  | none => .error (.keyError, s)
  | some containers =>
      let output := p.run E.model ((E.configuration t.node.id).getD "") containers
        (fun i => t.incoming.get (bindings i)) (fun i => t.outgoing.get (bindings i))
      if p.checkOutput output then
        let dependencies := E.pipeDependencies t.node p bindings output
        .ok {
          containers := setAll bindings (fun i => some (output.containers i)) s.containers
          storage := s.storage
          computedDependencies :=
            Function.update s.computedDependencies task (.computed dependencies)
          history := .pipe task dependencies :: s.history }
      else .error (.assertion, s)

def Environment.runSavePointRecorded (t : ScheduledTask Model Kind K α) (task : Nat)
    (dependantPipes : List Nat) (toSave : List ContainerID) (s : RecordedState K α σ) :
    Except (ScheduleError × RecordedState K α σ) (RecordedState K α σ) :=
  match takeDependencies s.computedDependencies dependantPipes with
  | none => .error (.assertion, s)
  | some (handed, computed) =>
      let s := { s with computedDependencies := computed }
      if (t.incoming.keys ++ t.outgoing.keys).all fun c => (s.containers c).isSome then
        let objects := E.savedObjects t toSave s.containers
        match E.provider.addObjects s.storage (handed.map Prod.snd) objects with
        | .error e => .error (.storage e, s)
        | .ok storage =>
            let s := { s with storage, history := .addObjects task handed objects :: s.history }
            match E.loadObjects t storage toSave s.containers with
            | .error e => .error (e, s)
            | .ok containers => .ok { s with containers }
      else .error (.assertion, s)

/-- `_run_impl` of the task after `dependencies`. -/
def Environment.runTaskImplRecorded (t : ScheduledTask Model Kind K α)
    (dependencies : List (ScheduledTask Model Kind K α)) (s : RecordedState K α σ) :
    Except (ScheduleError × RecordedState K α σ) (RecordedState K α σ) :=
  match t.node.task with
  | .pipe p bindings _ => E.runPipeRecorded t dependencies.length p bindings s
  | .savePoint _ toSave =>
      E.runSavePointRecorded t dependencies.length (responsiblePipes dependencies) toSave s

/-- `ScheduledTask.run` -/
def Environment.runTaskRecorded (t : ScheduledTask Model Kind K α)
    (dependencies : List (ScheduledTask Model Kind K α)) (s : RecordedState K α σ) :
    Except (ScheduleError × RecordedState K α σ) (RecordedState K α σ) :=
  if !t.incoming.check s.containers then .error (.requestCheck, s)
  else if !t.disposableContainers.all fun c => (s.containers c).isSome then .error (.keyError, s)
  else
    match E.runTaskImplRecorded t dependencies s with
    | .error e => .error e
    | .ok s =>
        if t.outgoing.check s.containers then
          .ok { s with containers := dispose t.disposableContainers s.containers }
        else .error (.requestCheck, s)

def Environment.runRecorded : List (ScheduledTask Model Kind K α) → RecordedState K α σ →
    Except (ScheduleError × RecordedState K α σ) (RecordedState K α σ)
  | [], s => .ok s
  | t :: dependencies, s =>
      match Environment.runRecorded dependencies s with
      | .error e => .error e
      | .ok s => E.runTaskRecorded t dependencies s

end

/-! ## What is recorded -/

section

variable {Model Kind α σ : Type} {K : KindLayout}
  {tasks : List (ScheduledTask Model Kind K α)} {t : ScheduledTask Model Kind K α}
  {history : List (Event K α)} {dependencies : PipeDependencies K} {p q : Nat}
  {handed : List (Nat × PipeDependencies K)}
  {objects : List (ContainerLocation × List (ObjectID K × α))}

/-- The dependencies that the next savepoint hands on. -/
def Event.pending (history : List (Event K α)) : List (Nat × PipeDependencies K) :=
  (recent history).filter fun pipe => !pipe.2.isEmpty

/-- The history after some tasks: one event for each, and a savepoint hands on what is pending. -/
inductive Recorded : List (ScheduledTask Model Kind K α) → List (Event K α) → Prop where
  | nil : Recorded [] []
  | pipe {t : ScheduledTask Model Kind K α} {tasks : List (ScheduledTask Model Kind K α)}
      {history : List (Event K α)} (dependencies : PipeDependencies K) :
      t.node.task.isSavePoint = false → Recorded tasks history →
      Recorded (t :: tasks) (.pipe tasks.length dependencies :: history)
  | addObjects {t : ScheduledTask Model Kind K α} {tasks : List (ScheduledTask Model Kind K α)}
      {history : List (Event K α)}
      (objects : List (ContainerLocation × List (ObjectID K × α))) :
      t.node.task.isSavePoint = true → Recorded tasks history →
      Recorded (t :: tasks)
        (.addObjects tasks.length (Event.pending history) objects :: history)

/-- The task that runs after `index` other ones. -/
def taskAt (tasks : List (ScheduledTask Model Kind K α)) (index : Nat) :
    Option (ScheduledTask Model Kind K α) :=
  tasks.reverse[index]?

theorem taskAt_length : taskAt (t :: tasks) tasks.length = some t := by
  simp [taskAt]

theorem lt_of_taskAt (h : taskAt tasks p = some t) : p < tasks.length := by
  rw [taskAt] at h
  simpa using (List.getElem?_eq_some_iff.mp h).1

theorem taskAt_cons {u : ScheduledTask Model Kind K α} (h : taskAt tasks p = some t) :
    taskAt (u :: tasks) p = some t := by
  have hlt : p < tasks.reverse.length := by simpa using lt_of_taskAt h
  rw [taskAt, List.reverse_cons, List.getElem?_append_left hlt]
  exact h

theorem taskAt_of_cons {u : ScheduledTask Model Kind K α} (hlt : p < tasks.length)
    (h : taskAt (u :: tasks) p = some t) : taskAt tasks p = some t := by
  have hlt : p < tasks.reverse.length := by simpa using hlt
  rwa [taskAt, List.reverse_cons, List.getElem?_append_left hlt] at h

namespace Recorded

theorem tasks_eq (h : Recorded tasks history) :
    history.map Event.task = (List.range tasks.length).reverse := by
  induction h with
  | nil => rfl
  | pipe dependencies ht h ih =>
    rw [List.map_cons, ih, List.length_cons, List.range_succ, List.reverse_append]
    rfl
  | addObjects objects ht h ih =>
    rw [List.map_cons, ih, List.length_cons, List.range_succ, List.reverse_append]
    rfl

theorem task_lt (h : Recorded tasks history) {e : Event K α} (he : e ∈ history) :
    e.task < tasks.length := by
  have hmem : e.task ∈ history.map Event.task := List.mem_map_of_mem he
  rw [h.tasks_eq] at hmem
  simpa using hmem

/-- No two events belong to one task. -/
theorem task_inj (h : Recorded tasks history) {e e' : Event K α} (he : e ∈ history)
    (he' : e' ∈ history) (htask : e.task = e'.task) : e = e' := by
  have hnodup : (history.map Event.task).Nodup := by
    rw [h.tasks_eq]
    exact List.nodup_reverse.mpr List.nodup_range
  exact List.inj_on_of_nodup_map hnodup he he' htask

theorem pipe_mem (h : Recorded tasks history) (hp : .pipe p dependencies ∈ history) :
    ∃ t, taskAt tasks p = some t ∧ t.node.task.isSavePoint = false := by
  induction h with
  | nil => cases hp
  | pipe dependencies ht h ih =>
    rcases List.mem_cons.mp hp with hp | hp
    · cases hp
      exact ⟨_, taskAt_length, ht⟩
    · obtain ⟨t, hat, ht⟩ := ih hp
      exact ⟨t, taskAt_cons hat, ht⟩
  | addObjects objects ht h ih =>
    rcases List.mem_cons.mp hp with hp | hp
    · cases hp
    · obtain ⟨t, hat, ht⟩ := ih hp
      exact ⟨t, taskAt_cons hat, ht⟩

theorem addObjects_mem (h : Recorded tasks history)
    (hq : .addObjects q handed objects ∈ history) :
    ∃ t, taskAt tasks q = some t ∧ t.node.task.isSavePoint = true := by
  induction h with
  | nil => cases hq
  | pipe dependencies ht h ih =>
    rcases List.mem_cons.mp hq with hq | hq
    · cases hq
    · obtain ⟨t, hat, ht⟩ := ih hq
      exact ⟨t, taskAt_cons hat, ht⟩
  | addObjects objects ht h ih =>
    rcases List.mem_cons.mp hq with hq | hq
    · cases hq
      exact ⟨_, taskAt_length, ht⟩
    · obtain ⟨t, hat, ht⟩ := ih hq
      exact ⟨t, taskAt_cons hat, ht⟩

/-- After a recent pipe there is no savepoint. -/
theorem mem_recent (h : Recorded tasks history) (hp : (p, dependencies) ∈ Event.recent history) :
    .pipe p dependencies ∈ history ∧
      ∀ k t, p < k → taskAt tasks k = some t → t.node.task.isSavePoint = false := by
  induction h with
  | nil => cases hp
  | @pipe u tasks history dependencies ht h ih =>
    rw [Event.recent, List.mem_cons] at hp
    rcases hp with hp | hp
    · cases hp
      refine ⟨List.mem_cons_self .., fun k t hk hat => ?_⟩
      have hlt := lt_of_taskAt hat
      rw [List.length_cons] at hlt
      omega
    · obtain ⟨hmem, hnone⟩ := ih hp
      refine ⟨List.mem_cons_of_mem _ hmem, fun k t hk hat => ?_⟩
      rcases Nat.lt_succ_iff_lt_or_eq.mp (lt_of_taskAt hat) with hlt | rfl
      · exact hnone k t hk (taskAt_of_cons hlt hat)
      · rw [taskAt_length] at hat
        cases hat
        exact ht
  | addObjects objects ht h ih => cases hp

/-- What a savepoint hands on belongs to the pipes since the savepoint before. -/
theorem mem_handed (h : Recorded tasks history) (hq : .addObjects q handed objects ∈ history)
    (hp : (p, dependencies) ∈ handed) :
    .pipe p dependencies ∈ history ∧ p < q ∧
      ∀ k t, p < k → k < q → taskAt tasks k = some t → t.node.task.isSavePoint = false := by
  induction h with
  | nil => cases hq
  | @pipe u tasks history dependencies ht h ih =>
    rcases List.mem_cons.mp hq with hq | hq
    · cases hq
    · obtain ⟨hmem, hlt, hnone⟩ := ih hq
      have hq : q < tasks.length := h.task_lt hq
      exact ⟨List.mem_cons_of_mem _ hmem, hlt, fun k t hpk hkq hat =>
        hnone k t hpk hkq (taskAt_of_cons (hkq.trans hq) hat)⟩
  | @addObjects u tasks history objects ht h ih =>
    rcases List.mem_cons.mp hq with hq | hq
    · cases hq
      obtain ⟨hmem, hnone⟩ := h.mem_recent (List.mem_of_mem_filter hp)
      exact ⟨List.mem_cons_of_mem _ hmem, h.task_lt hmem, fun k t hpk hkq hat =>
        hnone k t hpk (taskAt_of_cons hkq hat)⟩
    · obtain ⟨hmem, hlt, hnone⟩ := ih hq
      have hq : q < tasks.length := h.task_lt hq
      exact ⟨List.mem_cons_of_mem _ hmem, hlt, fun k t hpk hkq hat =>
        hnone k t hpk hkq (taskAt_of_cons (hkq.trans hq) hat)⟩

/-- The dependencies of a pipe have been handed on, or the next savepoint will do it. -/
theorem handed_or_recent (h : Recorded tasks history) (hp : .pipe p dependencies ∈ history)
    (hne : dependencies.isEmpty = false) :
    (∃ q handed objects, .addObjects q handed objects ∈ history ∧ (p, dependencies) ∈ handed) ∨
      (p, dependencies) ∈ Event.recent history := by
  induction h with
  | nil => cases hp
  | pipe dependencies ht h ih =>
    rcases List.mem_cons.mp hp with hp | hp
    · cases hp
      exact Or.inr (List.mem_cons_self ..)
    · rcases ih hp with ⟨q, handed, objects, hq, hmem⟩ | hmem
      · exact Or.inl ⟨q, handed, objects, List.mem_cons_of_mem _ hq, hmem⟩
      · exact Or.inr (List.mem_cons_of_mem _ hmem)
  | addObjects objects ht h ih =>
    rcases List.mem_cons.mp hp with hp | hp
    · cases hp
    · rcases ih hp with ⟨q, handed, objects, hq, hmem⟩ | hmem
      · exact Or.inl ⟨q, handed, objects, List.mem_cons_of_mem _ hq, hmem⟩
      · exact Or.inl ⟨_, _, _, List.mem_cons_self .., List.mem_filter.mpr ⟨hmem, by simp [hne]⟩⟩

/-- Once a savepoint after the pipe has stored something, its dependencies are stored. -/
theorem handed_of_lt (h : Recorded tasks history) (hp : .pipe p dependencies ∈ history)
    (hne : dependencies.isEmpty = false) (hq : .addObjects q handed objects ∈ history)
    (hlt : p < q) :
    ∃ q' handed' objects', .addObjects q' handed' objects' ∈ history ∧ q' ≤ q ∧
      (p, dependencies) ∈ handed' := by
  induction h with
  | nil => cases hp
  | pipe dependencies ht h ih =>
    have hqold := (List.mem_cons.mp hq).resolve_left (by rintro ⟨⟩)
    rcases List.mem_cons.mp hp with hpnew | hpold
    · cases hpnew
      exact absurd (h.task_lt hqold) (Nat.not_lt_of_lt hlt)
    · obtain ⟨q', handed', objects', hq', hle, hmem⟩ := ih hpold hqold
      exact ⟨q', handed', objects', List.mem_cons_of_mem _ hq', hle, hmem⟩
  | addObjects objects ht h ih =>
    have hpold := (List.mem_cons.mp hp).resolve_left (by rintro ⟨⟩)
    rcases List.mem_cons.mp hq with hqnew | hqold
    · cases hqnew
      rcases h.handed_or_recent hpold hne with ⟨q', handed', objects', hq', hmem⟩ | hmem
      · exact ⟨q', handed', objects', List.mem_cons_of_mem _ hq', (h.task_lt hq').le, hmem⟩
      · exact ⟨_, _, _, List.mem_cons_self .., Nat.le_refl _,
          List.mem_filter.mpr ⟨hmem, by simp [hne]⟩⟩
    · obtain ⟨q', handed', objects', hq', hle, hmem⟩ := ih hpold hqold
      exact ⟨q', handed', objects', List.mem_cons_of_mem _ hq', hle, hmem⟩

end Recorded

/-! ## Every run is recorded -/

theorem takeDependencies_eq {computed : Nat → ComputedDependencies K}
    (h : Recorded tasks history)
    (hcomputed : ∀ pipe ∈ Event.recent history, computed pipe.1 = .computed pipe.2) :
    ∃ computed', takeDependencies computed (responsiblePipes tasks) =
      some (Event.pending history, computed') := by
  induction h generalizing computed with
  | nil => exact ⟨computed, rfl⟩
  | @pipe t tasks history dependencies ht h ih =>
    have hhead : computed tasks.length = .computed dependencies :=
      hcomputed (tasks.length, dependencies) (List.mem_cons_self ..)
    -- the other pipes come before this one
    have hrest : ∀ pipe ∈ Event.recent history,
        Function.update computed tasks.length .processed pipe.1 = .computed pipe.2 := by
      intro pipe hpipe
      have hlt : pipe.1 < tasks.length := h.task_lt (h.mem_recent hpipe).1
      rw [Function.update_of_ne hlt.ne]
      exact hcomputed pipe (List.mem_cons_of_mem _ hpipe)
    obtain ⟨computed', htail⟩ := ih hrest
    refine ⟨computed', ?_⟩
    rw [responsiblePipes, ht, if_neg Bool.false_ne_true, takeDependencies, hhead]
    simp only [htail, Option.map_some, Event.pending, Event.recent, List.filter_cons]
    cases dependencies.isEmpty <;> rfl
  | @addObjects t tasks history objects ht h ih =>
    refine ⟨computed, ?_⟩
    rw [responsiblePipes, ht, if_pos rfl]
    rfl

variable {E : Environment Model Kind K α σ} {s s' : RecordedState K α σ}

/-- After some tasks: what happened is recorded, and the recent pipes still have their
dependencies. -/
structure RunInvariant (tasks : List (ScheduledTask Model Kind K α)) (s : RecordedState K α σ) :
    Prop where
  recorded : Recorded tasks s.history
  computed : ∀ pipe ∈ Event.recent s.history, s.computedDependencies pipe.1 = .computed pipe.2

/-- The tasks have run, or the run has stopped at one of them. -/
def RecordedUpTo (tasks : List (ScheduledTask Model Kind K α)) :
    Except (ScheduleError × RecordedState K α σ) (RecordedState K α σ) → Prop
  | .ok s => RunInvariant tasks s
  | .error (_, s) => ∃ done, done <:+ tasks ∧ Recorded done s.history

theorem recordedUpTo_runPipeRecorded {p : Pipe Model Kind K α}
    {bindings : Fin p.arity → ContainerID} (hpipe : t.node.task.isSavePoint = false)
    (h : RunInvariant tasks s) :
    RecordedUpTo (t :: tasks) (E.runPipeRecorded t tasks.length p bindings s) := by
  have hstop : ∃ done, done <:+ t :: tasks ∧ Recorded done s.history :=
    ⟨tasks, List.suffix_cons t tasks, h.recorded⟩
  rw [Environment.runPipeRecorded]
  split
  · exact hstop
  · dsimp only
    split
    · refine ⟨.pipe _ hpipe h.recorded, fun pipe hmem => ?_⟩
      rcases List.mem_cons.mp hmem with rfl | hmem
      · exact Function.update_self ..
      · have hlt : pipe.1 < tasks.length := h.recorded.task_lt (h.recorded.mem_recent hmem).1
        exact (Function.update_of_ne hlt.ne ..).trans (h.computed pipe hmem)
    · exact hstop

theorem recordedUpTo_runSavePointRecorded {toSave : List ContainerID}
    (hsave : t.node.task.isSavePoint = true) (h : RunInvariant tasks s) :
    RecordedUpTo (t :: tasks)
      (E.runSavePointRecorded t tasks.length (responsiblePipes tasks) toSave s) := by
  have hstop : ∃ done, done <:+ t :: tasks ∧ Recorded done s.history :=
    ⟨tasks, List.suffix_cons t tasks, h.recorded⟩
  obtain ⟨computed, htake⟩ := takeDependencies_eq h.recorded h.computed
  simp only [Environment.runSavePointRecorded, htake]
  split
  · split
    · exact hstop
    · -- from here on the objects are stored, whatever else happens
      have hrecorded := h.recorded.addObjects (E.savedObjects t toSave s.containers) hsave
      split
      · exact ⟨t :: tasks, List.suffix_rfl, hrecorded⟩
      · exact ⟨hrecorded, fun pipe hmem => by cases hmem⟩
  · exact hstop

theorem recordedUpTo_runTaskRecorded (h : RunInvariant tasks s) :
    RecordedUpTo (t :: tasks) (E.runTaskRecorded t tasks s) := by
  have hstop : ∃ done, done <:+ t :: tasks ∧ Recorded done s.history :=
    ⟨tasks, List.suffix_cons t tasks, h.recorded⟩
  have himpl : RecordedUpTo (t :: tasks) (E.runTaskImplRecorded t tasks s) := by
    rw [Environment.runTaskImplRecorded]
    split
    next p bindings distinct htask => exact recordedUpTo_runPipeRecorded (by rw [htask]; rfl) h
    next name toSave htask => exact recordedUpTo_runSavePointRecorded (by rw [htask]; rfl) h
  rw [Environment.runTaskRecorded]
  split
  · exact hstop
  · split
    · exact hstop
    · split
      next e he =>
        rw [he] at himpl
        exact himpl
      next s' hs' =>
        rw [hs'] at himpl
        split
        · exact ⟨himpl.recorded, himpl.computed⟩
        · exact ⟨t :: tasks, List.suffix_rfl, himpl.recorded⟩

theorem recordedUpTo_runRecorded (containers : ContainerSet K α) (storage : σ) :
    ∀ tasks : List (ScheduledTask Model Kind K α),
      RecordedUpTo tasks (E.runRecorded tasks (.initial containers storage))
  | [] => ⟨.nil, fun _ hmem => by cases hmem⟩
  | t :: tasks => by
      have hrest := recordedUpTo_runRecorded containers storage tasks
      rw [Environment.runRecorded]
      split
      next e he =>
        rw [he] at hrest
        obtain ⟨done, hdone, hrecorded⟩ := hrest
        exact ⟨done, hdone.trans (List.suffix_cons t tasks), hrecorded⟩
      next s hs =>
        rw [hs] at hrest
        exact recordedUpTo_runTaskRecorded hrest

/-! ## The run without the record -/

/-- What is left of an outcome when the record is dropped. -/
def dropRecord : Except (ScheduleError × RecordedState K α σ) (RecordedState K α σ) →
    Except (ScheduleError × σ) (RunState K α σ)
  | .ok s => .ok s.toRunState
  | .error (e, s) => .error (e, s.storage)

theorem dropRecord_runPipeRecorded (p : Pipe Model Kind K α)
    (bindings : Fin p.arity → ContainerID) (task : Nat) (s : RecordedState K α σ) :
    dropRecord (E.runPipeRecorded t task p bindings s) = E.runPipe t p bindings s.toRunState := by
  simp only [Environment.runPipeRecorded, Environment.runPipe, RecordedState.toRunState]
  cases allSome fun i => s.containers (bindings i) with
  | none => rfl
  | some containers =>
    dsimp only
    split <;> rfl

theorem map_snd_pending (history : List (Event K α)) :
    (Event.pending history).map Prod.snd =
      ((Event.recent history).map Prod.snd).filter (!·.isEmpty) := by
  rw [Event.pending, List.filter_map]
  rfl

theorem dropRecord_runSavePointRecorded (toSave : List ContainerID) (h : RunInvariant tasks s) :
    dropRecord (E.runSavePointRecorded t tasks.length (responsiblePipes tasks) toSave s) =
      E.runSavePoint t toSave s.toRunState := by
  obtain ⟨computed, htake⟩ := takeDependencies_eq h.recorded h.computed
  by_cases hkeys : ((t.incoming.keys ++ t.outgoing.keys).all fun c => (s.containers c).isSome) = true
  · simp only [Environment.runSavePointRecorded, htake, map_snd_pending, Environment.runSavePoint,
      RecordedState.toRunState, hkeys, if_true]
    cases E.provider.addObjects s.storage
        (((Event.recent s.history).map Prod.snd).filter (!·.isEmpty))
        (E.savedObjects t toSave s.containers) with
    | error e => rfl
    | ok storage =>
      dsimp only
      cases E.loadObjects t storage toSave s.containers with
      | error e => rfl
      | ok containers => rfl
  · simp only [Environment.runSavePointRecorded, htake, Environment.runSavePoint,
      RecordedState.toRunState, hkeys, if_false, Bool.false_eq_true]
    rfl

theorem dropRecord_runTaskRecorded (h : RunInvariant tasks s) :
    dropRecord (E.runTaskRecorded t tasks s) = E.runTask t s.toRunState := by
  have himpl : dropRecord (E.runTaskImplRecorded t tasks s) = E.runTaskImpl t s.toRunState := by
    rw [Environment.runTaskImplRecorded, Environment.runTaskImpl]
    cases t.node.task with
    | pipe p bindings distinct => exact dropRecord_runPipeRecorded p bindings tasks.length s
    | savePoint name toSave => exact dropRecord_runSavePointRecorded toSave h
  simp only [Environment.runTaskRecorded, Environment.runTask, ← himpl]
  by_cases hcheck : t.incoming.check s.containers = true
  · by_cases hdeclared : (t.disposableContainers.all fun c => (s.containers c).isSome) = true
    · simp only [RecordedState.toRunState, hcheck, hdeclared, Bool.not_true, Bool.false_eq_true,
        if_false]
      cases E.runTaskImplRecorded t tasks s with
      | error e => rfl
      | ok s' =>
        by_cases houtgoing : t.outgoing.check s'.containers = true
        · simp only [dropRecord, RecordedState.toRunState, houtgoing, if_true]
        · simp only [dropRecord, RecordedState.toRunState, houtgoing, if_false, Bool.false_eq_true]
    · simp only [RecordedState.toRunState, hcheck, hdeclared, Bool.not_true, Bool.not_false,
        Bool.false_eq_true, if_false, if_true, dropRecord]
  · simp only [RecordedState.toRunState, hcheck, Bool.not_false, if_true, dropRecord]

/-- The run that keeps a record does what the run of the tasks does. -/
theorem dropRecord_runRecorded (containers : ContainerSet K α) (storage : σ) :
    ∀ tasks : List (ScheduledTask Model Kind K α),
      dropRecord (E.runRecorded tasks (.initial containers storage)) =
        E.runTasks tasks ⟨containers, storage, []⟩
  | [] => rfl
  | t :: tasks => by
      have hrest := dropRecord_runRecorded containers storage tasks
      have hinv := recordedUpTo_runRecorded (E := E) containers storage tasks
      rw [Environment.runRecorded, Environment.runTasks, ← hrest]
      cases hrun : E.runRecorded tasks (.initial containers storage) with
      | error e => rfl
      | ok s =>
        rw [hrun] at hinv
        exact dropRecord_runTaskRecorded hinv

/-! ## Persistence -/

/-- What happened in a run, the latest event first. -/
def outcomeHistory :
    Except (ScheduleError × RecordedState K α σ) (RecordedState K α σ) → List (Event K α)
  | .ok s => s.history
  | .error (_, s) => s.history

/-- The dependencies of every pipe are handed to a savepoint, and only to one. -/
def HandedToOne (history : List (Event K α)) : Prop :=
  ∀ p dependencies, .pipe p dependencies ∈ history → dependencies.isEmpty = false →
    ∃! q, ∃ handed objects, .addObjects q handed objects ∈ history ∧ (p, dependencies) ∈ handed

/-- No call stores objects made after a pipe without the dependencies of the pipe. -/
def StoredTogether (history : List (Event K α)) : Prop :=
  ∀ p dependencies q handed objects, .pipe p dependencies ∈ history →
    dependencies.isEmpty = false → .addObjects q handed objects ∈ history → p < q →
    objects ≠ [] → (p, dependencies) ∈ handed

/-- The history of a run of some tasks, as far as it went. -/
structure PersistsDependencies (tasks : List (ScheduledTask Model Kind K α))
    (history : List (Event K α)) : Prop where
  /-- The tasks run in their order, and each leaves one event. -/
  inOrder : history.map Event.task = (List.range history.length).reverse
  pipes : ∀ p dependencies, .pipe p dependencies ∈ history →
    ∃ t, taskAt tasks p = some t ∧ t.node.task.isSavePoint = false
  savePoints : ∀ q handed objects, .addObjects q handed objects ∈ history →
    ∃ t, taskAt tasks q = some t ∧ t.node.task.isSavePoint = true
  /-- What a savepoint is handed belongs to a pipe that ran before it, with no savepoint
  between the two. -/
  handedFirst : ∀ p dependencies q handed objects, .addObjects q handed objects ∈ history →
    (p, dependencies) ∈ handed → .pipe p dependencies ∈ history ∧ p < q ∧
      ∀ k t, p < k → k < q → taskAt tasks k = some t → t.node.task.isSavePoint = false
  /-- The dependencies of a pipe are handed to one savepoint at most. -/
  handedOnce : ∀ p dependencies dependencies' q handed objects q' handed' objects',
    .addObjects q handed objects ∈ history → (p, dependencies) ∈ handed →
    .addObjects q' handed' objects' ∈ history → (p, dependencies') ∈ handed' →
    Event.addObjects q handed objects = .addObjects q' handed' objects'
  /-- No objects made after the pipe are stored before its dependencies. -/
  handedBefore : ∀ p dependencies q handed objects, .pipe p dependencies ∈ history →
    dependencies.isEmpty = false → .addObjects q handed objects ∈ history → p < q →
    ∃ q' handed' objects', .addObjects q' handed' objects' ∈ history ∧ q' ≤ q ∧
      (p, dependencies) ∈ handed'

theorem Recorded.length_eq (h : Recorded tasks history) : history.length = tasks.length := by
  simpa using congrArg List.length h.tasks_eq

theorem Recorded.persistsDependencies (h : Recorded tasks history) :
    PersistsDependencies tasks history where
  inOrder := by rw [h.tasks_eq, h.length_eq]
  pipes _ _ := h.pipe_mem
  savePoints _ _ _ := h.addObjects_mem
  handedFirst _ _ _ _ _ := h.mem_handed
  handedOnce p dependencies dependencies' q handed objects q' handed' objects' hq hp hq' hp' := by
    -- of two savepoints the one that comes first would be between the pipe and the other one
    have hnot : ∀ {q q' handed handed' objects objects' dependencies dependencies'},
        .addObjects q handed objects ∈ history → (p, dependencies) ∈ handed →
        .addObjects q' handed' objects' ∈ history → (p, dependencies') ∈ handed' → ¬ q < q' := by
      intro q q' handed handed' objects objects' dependencies dependencies' hq hp hq' hp' hlt
      obtain ⟨t, hat, hsave⟩ := h.addObjects_mem hq
      rw [(h.mem_handed hq' hp').2.2 q t (h.mem_handed hq hp).2.1 hlt hat] at hsave
      cases hsave
    have heq : q = q' := Nat.le_antisymm (Nat.not_lt.mp (hnot hq' hp' hq hp))
      (Nat.not_lt.mp (hnot hq hp hq' hp'))
    exact h.task_inj hq hq' heq
  handedBefore _ _ _ _ _ := h.handed_of_lt

theorem PersistsDependencies.of_suffix {done : List (ScheduledTask Model Kind K α)}
    (hdone : done <:+ tasks) (h : Recorded done history) : PersistsDependencies tasks history := by
  have hpersists := h.persistsDependencies
  have hat : ∀ {k}, k < done.length → taskAt tasks k = taskAt done k := by
    obtain ⟨rest, rfl⟩ := hdone
    intro k hk
    rw [taskAt, List.reverse_append, List.getElem?_append_left (by simpa using hk), taskAt]
  exact {
    inOrder := hpersists.inOrder
    pipes := fun p dependencies hp => by
      rw [hat (k := p) (h.task_lt hp)]
      exact hpersists.pipes p dependencies hp
    savePoints := fun q handed objects hq => by
      rw [hat (k := q) (h.task_lt hq)]
      exact hpersists.savePoints q handed objects hq
    handedFirst := fun p dependencies q handed objects hq hp => by
      obtain ⟨hmem, hlt, hnone⟩ := hpersists.handedFirst p dependencies q handed objects hq hp
      refine ⟨hmem, hlt, fun k t hpk hkq hk => hnone k t hpk hkq ?_⟩
      rwa [hat (hkq.trans (h.task_lt hq))] at hk
    handedOnce := hpersists.handedOnce
    handedBefore := hpersists.handedBefore }

/-- In every run, also in one that stops at some task, the dependencies of a pipe are stored with
the objects of the first savepoint after it and in no other call. -/
theorem persistsDependencies_run (E : Environment Model Kind K α σ)
    (tasks : List (ScheduledTask Model Kind K α)) (containers : ContainerSet K α) (storage : σ) :
    PersistsDependencies tasks
      (outcomeHistory (E.runRecorded tasks (.initial containers storage))) := by
  have hrun := recordedUpTo_runRecorded (E := E) containers storage tasks
  cases houtcome : E.runRecorded tasks (.initial containers storage) with
  | ok s =>
      rw [houtcome] at hrun
      exact hrun.recorded.persistsDependencies
  | error e =>
      rw [houtcome] at hrun
      obtain ⟨done, hdone, hrecorded⟩ := hrun
      exact .of_suffix hdone hrecorded

end

/-! ## Savepoints in a row -/

/-- A pipe that fills what it writes and has read one path of the model for it. -/
def readingPipe {arity : Nat} (access : Fin arity → Access) : Pipe Unit Unit noKeys Bytes :=
  { fillingPipe noKeys access with
    run := fun model configuration containers incoming outgoing =>
      { (fillingPipe noKeys access).run model configuration containers incoming outgoing with
        dependencies := fun i =>
          if access i = .read then [] else (outgoing i).map fun o => (o, "/Architecture") } }

def readingNode (id : Nat) {arity : Nat} (bindings : Fin arity → ContainerID)
    (access : Fin arity → Access) (distinct : Function.Injective bindings)
    (range : SavePointsRange) : PipelineNode Unit Unit noKeys Bytes :=
  ⟨id, .pipe (readingPipe access) bindings distinct, range, []⟩

theorem injective_raw : Function.Injective ![ "raw"] := by decide

theorem injective_rawText : Function.Injective ![ "raw", "text"] := by decide

/-- A pipe writes `raw`, two savepoints in a row store it, and another pipe makes `text`
of it. -/
def twiceSaved : List (PipelineNode Unit Unit noKeys Bytes) :=
  [readingNode 3 ![ "raw", "text"] ![.read, .write] injective_rawText ⟨2, 2⟩,
    ⟨2, .savePoint "second" ["raw"], ⟨2, 2⟩, []⟩, ⟨1, .savePoint "first" ["raw"], ⟨1, 2⟩, []⟩,
    readingNode 0 ![ "raw"] ![.write] injective_raw ⟨0, 2⟩]

/-- The tasks of the schedule that makes `text`. -/
def twiceSavedTasks : List (ScheduledTask Unit Unit noKeys Bytes) :=
  match twiceSaved with
  | [] => []
  | target :: ancestors =>
      match (memoryEnvironment noKeys).schedule MemoryStorage.empty ["raw", "text"] target
        ancestors textRequest with
      | none => []
      | some schedule => identifyDiscardable schedule.tasks ["text"]

def twiceSavedHistory : List (Event noKeys Bytes) :=
  outcomeHistory ((memoryEnvironment noKeys).runRecorded twiceSavedTasks
    (.initial (fun c => if ["raw", "text"].contains c then some Container.empty else none)
      MemoryStorage.empty))

/-- The dependencies of the first pipe. -/
def rawDependencies : PipeDependencies noKeys :=
  ⟨0, ⟨0, 2⟩, "", [("raw", rootObject noKeys, "/Architecture")], [[]]⟩

def textDependencies : PipeDependencies noKeys :=
  ⟨3, ⟨2, 2⟩, "", [("text", rootObject noKeys, "/Architecture")], [[], []]⟩

theorem twiceSavedHistory_eq :
    twiceSavedHistory =
      [.pipe 3 textDependencies,
        .addObjects 2 [] [(⟨2, "raw", ""⟩, [(rootObject noKeys, [])])],
        .addObjects 1 [(0, rawDependencies)] [(⟨1, "raw", ""⟩, [(rootObject noKeys, [])])],
        .pipe 0 rawDependencies] := by
  rfl

/-- Nobody is handed the dependencies of the last pipe, and the second savepoint stores `raw`
without the dependencies of the first one. -/
theorem not_handedToOne :
    ¬ HandedToOne twiceSavedHistory ∧ ¬ StoredTogether twiceSavedHistory := by
  constructor
  · intro h
    obtain ⟨q, ⟨handed, objects, hq, hmem⟩, -⟩ :=
      h 3 textDependencies (by rw [twiceSavedHistory_eq]; exact List.mem_cons_self ..) rfl
    rw [twiceSavedHistory_eq] at hq
    simp at hq
    rcases hq with ⟨-, rfl, -⟩ | ⟨-, rfl, -⟩
    · cases hmem
    · simp at hmem
  · intro h
    have hmem := h 0 rawDependencies 2 [] _ (by rw [twiceSavedHistory_eq]; simp) rfl
      (by rw [twiceSavedHistory_eq]; exact List.mem_cons_of_mem _ (List.mem_cons_self ..))
      (by decide) (List.cons_ne_nil _ _)
    cases hmem

end Pypeline
