import Revng.Pypeline.ScheduleSpec

/-!
# Disposal

`_identify_discardable_containers` walks over the tasks from the target to the root and keeps
the containers that are still needed.  A task that reads a container that nobody needs
afterwards is its last reader and disposes it, and a task that writes a container anew ends the
need for it.  The caller reads what it requested of the target.

So the readers dispose, and only they.  A container that a task writes and nobody reads is never
disposed, and a requested container is disposed before it is written anew
(`not_disposesUnneeded`).  Where no task both reads and overwrites one container, a task
disposes exactly the containers that it is the last one to read (`mem_disposable_iff`).

The walk sees a task through its arguments, which may bind a container more than once.
-/

namespace Pypeline

/-- The arguments of the tasks of a schedule, those of the target first. -/
abbrev Accesses := List (List TaskArgument)

/-- `_identify_discardable_containers`, with the readers that the later tasks have left: the
disposable containers of every task. -/
def Accesses.disposable : Accesses → List ContainerID → List (List ContainerID)
  | [], _ => []
  | arguments :: dependencies, readers =>
      let (readers, disposable) := arguments.foldl markArgument (readers, [])
      disposable :: Accesses.disposable dependencies readers

def Reads (arguments : List TaskArgument) (c : ContainerID) : Prop :=
  ∃ a ∈ arguments, a.container = c ∧ a.access.reads = true

def Overwrites (arguments : List TaskArgument) (c : ContainerID) : Prop :=
  ∃ a ∈ arguments, a.container = c ∧ a.access = .write

/-- No container is bound to an argument that is read and to one that is overwritten. -/
def Unmixed (arguments : List TaskArgument) : Prop :=
  ∀ a ∈ arguments, ∀ b ∈ arguments, a.container = b.container →
    (a.access = .write ↔ b.access = .write)

instance (arguments : List TaskArgument) : Decidable (Unmixed arguments) :=
  inferInstanceAs (Decidable (∀ a ∈ arguments, ∀ b ∈ arguments, _ → _))

namespace Accesses

variable {tasks : Accesses} {requested : List ContainerID} {i : Nat} {c : ContainerID}

/-! ## Needs -/

/-- The tasks from position `start` to position `stop`, the latter excluded, do not overwrite the
container. -/
def Keep (tasks : Accesses) (c : ContainerID) (start stop : Nat) : Prop :=
  ∀ k, start ≤ k → k < stop → ∀ arguments, tasks[k]? = some arguments → ¬ Overwrites arguments c

/-- A task after the one at position `i` reads the container before it is written anew.  Later
tasks come first. -/
def ReadAfter (tasks : Accesses) (i : Nat) (c : ContainerID) : Prop :=
  ∃ j, j < i ∧ (∃ arguments, tasks[j]? = some arguments ∧ Reads arguments c) ∧
    Keep tasks c (j + 1) i

/-- The caller reads the container, and it is not written anew after the task at position `i`. -/
def RequestedAfter (tasks : Accesses) (requested : List ContainerID) (i : Nat) (c : ContainerID) :
    Prop :=
  c ∈ requested ∧ Keep tasks c 0 i

/-- The task at position `i` disposes the container. -/
def Disposes (tasks : Accesses) (requested : List ContainerID) (i : Nat) (c : ContainerID) : Prop :=
  ∃ disposable, (tasks.disposable requested)[i]? = some disposable ∧ c ∈ disposable

/-- No container is disposed whose objects the target must return. -/
def KeepsRequested (tasks : Accesses) (requested : List ContainerID) : Prop :=
  ∀ i c, Disposes tasks requested i c → c ∉ requested

/-- Every container of a task that is neither read afterwards nor requested is disposed by some
task. -/
def DisposesUnneeded (tasks : Accesses) (requested : List ContainerID) : Prop :=
  ∀ i c, (∃ arguments, tasks[i]? = some arguments ∧ c ∈ arguments.map TaskArgument.container) →
    ¬ ReadAfter tasks i c → c ∉ requested → ∃ j, Disposes tasks requested j c

/-! ## The walk -/

variable {arguments : List TaskArgument}

theorem keep_succ {start stop : Nat} :
    Keep (arguments :: tasks) c (start + 1) (stop + 1) ↔ Keep tasks c start stop := by
  constructor
  · intro h k hstart hstop
    exact h (k + 1) (Nat.succ_le_succ hstart) (Nat.succ_lt_succ hstop)
  · intro h k hstart hstop
    obtain _ | k := k
    · omega
    · exact h k (Nat.le_of_succ_le_succ hstart) (Nat.lt_of_succ_lt_succ hstop)

theorem keep_zero_succ :
    Keep (arguments :: tasks) c 0 (i + 1) ↔ ¬ Overwrites arguments c ∧ Keep tasks c 0 i := by
  have hsucc : Keep (arguments :: tasks) c 1 (i + 1) ↔ Keep tasks c 0 i := keep_succ
  rw [← hsucc]
  constructor
  · intro h
    exact ⟨h 0 (Nat.le_refl 0) (Nat.succ_pos i) arguments rfl, fun k _ => h k (Nat.zero_le k)⟩
  · rintro ⟨hhead, htail⟩ k - hstop
    obtain _ | k := k
    · rintro _ ⟨⟩
      exact hhead
    · exact htail (k + 1) (Nat.succ_pos k) hstop

/-- What is needed after a task is needed after the later tasks, or the first of them reads
it. -/
theorem readAfter_succ :
    ReadAfter (arguments :: tasks) (i + 1) c ↔
      ReadAfter tasks i c ∨ (Reads arguments c ∧ Keep tasks c 0 i) := by
  constructor
  · rintro ⟨j, hj, ⟨later, hlater, hreads⟩, hkeep⟩
    rw [keep_succ] at hkeep
    obtain _ | j := j
    · cases hlater
      exact Or.inr ⟨hreads, hkeep⟩
    · exact Or.inl ⟨j, Nat.lt_of_succ_lt_succ hj, ⟨later, hlater, hreads⟩, hkeep⟩
  · rintro (⟨j, hj, hread, hkeep⟩ | ⟨hreads, hkeep⟩)
    · exact ⟨j + 1, Nat.succ_lt_succ hj, hread, keep_succ.mpr hkeep⟩
    · exact ⟨0, Nat.succ_pos i, ⟨arguments, rfl, hreads⟩, keep_succ.mpr hkeep⟩

/-- The readers that a task hands to its dependencies stand for the task and the later ones. -/
theorem needed_succ (hunmixed : Unmixed arguments) :
    ReadAfter (arguments :: tasks) (i + 1) c ∨
        RequestedAfter (arguments :: tasks) requested (i + 1) c ↔
      ReadAfter tasks i c ∨
        RequestedAfter tasks (arguments.foldl markArgument (requested, [])).1 i c := by
  have hreaders := (foldl_markArgument hunmixed requested [] c).1
  -- what is read is not overwritten by the same task
  have hread : Reads arguments c → ¬ Overwrites arguments c := by
    rintro ⟨a, ha, rfl, hreads⟩ ⟨b, hb, hcontainer, hwrite⟩
    rw [(hunmixed a ha b hb hcontainer.symm).mpr hwrite] at hreads
    cases hreads
  rw [readAfter_succ, RequestedAfter, RequestedAfter, keep_zero_succ, hreaders]
  show _ ↔ ReadAfter tasks i c ∨
    (¬ Overwrites arguments c ∧ (Reads arguments c ∨ c ∈ requested)) ∧ Keep tasks c 0 i
  tauto

/-- A task disposes what it is the last one to read. -/
theorem mem_disposable_iff (hunmixed : ∀ arguments ∈ tasks, Unmixed arguments)
    {arguments : List TaskArgument} (h : tasks[i]? = some arguments) :
    Disposes tasks requested i c ↔
      Reads arguments c ∧ ¬ ReadAfter tasks i c ∧ ¬ RequestedAfter tasks requested i c := by
  rw [← not_or]
  induction tasks generalizing i requested with
  | nil => cases h
  | cons later tasks ih =>
      have hlater := hunmixed later (List.mem_cons_self ..)
      obtain _ | i := i
      · cases h
        have hmark : c ∈ (arguments.foldl markArgument (requested, [])).2 ↔
            c ∈ [] ∨ (Reads arguments c ∧ c ∉ requested) :=
          (foldl_markArgument hlater requested [] c).2
        have hnone : ¬ ReadAfter (arguments :: tasks) 0 c := by
          rintro ⟨j, hj, -⟩
          exact Nat.not_lt_zero j hj
        have hkeep : Keep (arguments :: tasks) c 0 0 := fun k _ hk => absurd hk (Nat.not_lt_zero k)
        simpa [Disposes, disposable, RequestedAfter, hnone, hkeep] using hmark
      · rw [needed_succ hlater]
        exact ih (fun arguments harguments => hunmixed arguments (List.mem_cons_of_mem _ harguments)) h

/-- Three tasks: the first one writes `ir`, the second one makes `cfg` of it, and the target makes
another `ir` of that, with a `log`. -/
def overwritten : Accesses :=
  [[⟨"cfg", .read⟩, ⟨"ir", .write⟩, ⟨"log", .write⟩], [⟨"ir", .read⟩, ⟨"cfg", .write⟩],
    [⟨"ir", .write⟩]]

/-- `ir` is requested, and yet the second task disposes the first contents of it.  Nobody reads
`log`, so it is not disposed. -/
theorem not_disposesUnneeded :
    ¬ KeepsRequested overwritten ["ir"] ∧ ¬ DisposesUnneeded overwritten ["ir"] := by
  have hdisposable : overwritten.disposable ["ir"] = [["cfg"], ["ir"], []] := by decide
  constructor
  · intro h
    refine h 1 "ir" ⟨["ir"], ?_, List.mem_singleton_self _⟩ (List.mem_singleton_self _)
    rw [hdisposable]
    rfl
  · intro h
    have hunread : ¬ ReadAfter overwritten 0 "log" := by
      rintro ⟨j, hj, -⟩
      exact Nat.not_lt_zero j hj
    obtain ⟨j, disposable, hj, hmem⟩ :=
      h 0 "log" ⟨_, rfl, by decide⟩ hunread (by decide)
    rw [hdisposable] at hj
    have hnone : ∀ disposable ∈ [["cfg"], ["ir"], []], "log" ∉ disposable := by decide
    exact hnone disposable (List.mem_of_getElem? hj) hmem

theorem mem_disposable_overwritten_iff :
    (∀ arguments ∈ overwritten, Unmixed arguments) ∧
      (Disposes overwritten ["ir"] 1 "ir" ↔
        Reads [⟨"ir", .read⟩, ⟨"cfg", .write⟩] "ir" ∧ ¬ ReadAfter overwritten 1 "ir" ∧
          ¬ RequestedAfter overwritten ["ir"] 1 "ir") :=
  ⟨by decide, mem_disposable_iff (by decide) rfl⟩

/-! ## Scheduled tasks -/

section

variable {Model Kind α : Type} {K : KindLayout}

/-- The arguments of scheduled tasks. -/
def ofTasks (tasks : List (ScheduledTask Model Kind K α)) : Accesses :=
  tasks.map fun t => t.node.arguments

/-- The tasks of a schedule get the disposable containers of their arguments. -/
theorem disposable_ofTasks (tasks : List (ScheduledTask Model Kind K α))
    (readers : List ContainerID) : (ofTasks tasks).disposable readers =
      (identifyDiscardable tasks readers).map ScheduledTask.disposableContainers := by
  induction tasks generalizing readers with
  | nil => rfl
  | cons t dependencies ih =>
    rw [identifyDiscardable, List.map_cons, ← ih]
    rfl

end

end Accesses

end Pypeline
