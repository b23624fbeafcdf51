import Revng.Pypeline.Schedule

/-!
# What a schedule is for

A schedule should give the requested objects, and the objects should not depend on what
the storage has.  `recompute` is the content of an object when every pipe on the way from
the root is asked for what it needs and nothing else.  The storage is *coherent* when every
object it has is what recomputing it gives.

Pipes are assumed to keep their side (`Pipe.Contract`).  With the objects that its
prerequisites name, a pipe produces what is requested of it, and the content of an object
depends only on the prerequisites of that object.  Storage providers are assumed to keep
what is stored (`StorageProvider.Lawful`).

`NoStaleRequest` is about the containers that a run empties.  A node that is skipped asks
for the containers it reads all the same, and its request travels on to the root.  Nobody
reads these objects, so a task that reads the container empties it, and a later task that
merely passes the request on does not find them.
-/

namespace Pypeline

/-! ## Assigning to the containers of the arguments -/

section SetAll

variable {n : Nat} {β : Type} {bindings : Fin n → ContainerID} {values : Fin n → β}
  {f : ContainerID → β}

variable {is : List (Fin n)}

theorem foldl_update_of_ne {c : ContainerID} (h : ∀ i ∈ is, bindings i ≠ c) :
    ∀ f : ContainerID → β,
      is.foldl (fun f i => Function.update f (bindings i) (values i)) f c = f c := by
  induction is with
  | nil => exact fun _ => rfl
  | cons i rest ih =>
    intro f
    rw [List.foldl_cons, ih (fun j hj => h j (List.mem_cons_of_mem _ hj)),
      Function.update_of_ne (h i (List.mem_cons_self ..)).symm]

theorem foldl_update_of_mem (hinj : Function.Injective bindings) {i : Fin n} (hi : i ∈ is) :
    ∀ f : ContainerID → β,
      is.foldl (fun f i => Function.update f (bindings i) (values i)) f (bindings i) =
        values i := by
  induction is with
  | nil => cases hi
  | cons j rest ih =>
    intro f
    rw [List.foldl_cons]
    by_cases hrest : i ∈ rest
    · exact ih hrest _
    · obtain rfl : i = j := (List.mem_cons.mp hi).resolve_right hrest
      have hne : ∀ k ∈ rest, bindings k ≠ bindings i := fun k hk heq =>
        hrest (hinj heq ▸ hk)
      rw [foldl_update_of_ne hne, Function.update_self]

theorem setAll_of_ne {c : ContainerID} (h : ∀ i, bindings i ≠ c) :
    setAll bindings values f c = f c :=
  foldl_update_of_ne (fun i _ => h i) f

theorem setAll_apply (hinj : Function.Injective bindings) (i : Fin n) :
    setAll bindings values f (bindings i) = values i :=
  foldl_update_of_mem hinj (List.mem_finRange i) f

theorem get_foldl_set {Obj : Type} {objects : Fin n → List Obj} :
    ∀ r : Requests Obj,
      (is.foldl (fun r i => r.set (bindings i) (objects i)) r).get =
        is.foldl (fun f i => Function.update f (bindings i) (objects i)) r.get := by
  induction is with
  | nil => exact fun _ => rfl
  | cons i rest ih =>
    intro r
    rw [List.foldl_cons, ih, List.foldl_cons]
    congr 1
    funext c
    simp [Function.update_apply]

end SetAll

/-! ## Accesses of a node -/

section

variable {Model Kind α σ : Type} {K : KindLayout}

namespace PipelineNode

def Reads (n : PipelineNode Model Kind K α) (c : ContainerID) : Prop :=
  ∃ a ∈ n.arguments, a.container = c ∧ a.access.reads = true

/-- The node writes the container without reading it. -/
def Overwrites (n : PipelineNode Model Kind K α) (c : ContainerID) : Prop :=
  ∃ a ∈ n.arguments, a.container = c ∧ a.access = .write

variable {n : PipelineNode Model Kind K α}

theorem mem_arguments_pipe {p : Pipe Model Kind K α} {bindings : Fin p.arity → ContainerID}
    {distinct : Function.Injective bindings} (h : n.task = .pipe p bindings distinct)
    {a : TaskArgument} : a ∈ n.arguments ↔ ∃ i, a = ⟨bindings i, p.access i⟩ := by
  simp only [arguments, h, List.mem_map, List.mem_finRange, true_and, eq_comm]

theorem mem_arguments_savePoint {name : String} {toSave : List ContainerID}
    (h : n.task = .savePoint name toSave) {a : TaskArgument} :
    a ∈ n.arguments ↔ ∃ c ∈ toSave, a = ⟨c, .readWrite⟩ := by
  simp only [arguments, h, List.mem_map, eq_comm]

/-- A container stands for one argument. -/
theorem access_unique {a b : TaskArgument} (ha : a ∈ n.arguments) (hb : b ∈ n.arguments)
    (h : a.container = b.container) : a.access = b.access := by
  cases htask : n.task with
  | pipe p bindings distinct =>
    obtain ⟨i, rfl⟩ := (mem_arguments_pipe htask).mp ha
    obtain ⟨j, rfl⟩ := (mem_arguments_pipe htask).mp hb
    obtain rfl : i = j := distinct h
    rfl
  | savePoint name toSave =>
    obtain ⟨c, -, rfl⟩ := (mem_arguments_savePoint htask).mp ha
    obtain ⟨d, -, rfl⟩ := (mem_arguments_savePoint htask).mp hb
    rfl

theorem writesRequested_iff {outgoing : Requests (ObjectID K)} :
    n.writesRequested outgoing = true ↔
      ∃ a ∈ n.arguments, a.access ≠ .read ∧ outgoing.get a.container ≠ [] := by
  simp [writesRequested]

theorem writesRequested_of_empty {outgoing : Requests (ObjectID K)} (h : ∀ c, outgoing.get c = []) :
    n.writesRequested outgoing = false := by
  simp [writesRequested, h]

end PipelineNode

/-! ## Disposable containers -/

/-- One argument reads its container last, or overwrites it. -/
theorem mem_markArgument (a : TaskArgument) (readers disposable : List ContainerID)
    (c : ContainerID) :
    (c ∈ (markArgument (readers, disposable) a).1 ↔
      ¬ (a.container = c ∧ a.access = .write) ∧
        ((a.container = c ∧ a.access.reads = true) ∨ c ∈ readers)) ∧
    (c ∈ (markArgument (readers, disposable) a).2 ↔
      c ∈ disposable ∨ ((a.container = c ∧ a.access.reads = true) ∧ c ∉ readers)) := by
  obtain ⟨container, access⟩ := a
  have hcases : access = .write ∨ (access ≠ .write ∧ access.reads = true) := by
    cases access <;> simp [Access.reads]
  rcases hcases with rfl | ⟨hwrite, hreads⟩
  · simp only [markArgument, Access.reads, Bool.false_and, Bool.false_eq_true, if_false, if_true,
      List.mem_filter, bne_iff_ne]
    constructor
    · grind
    · grind
  · simp only [markArgument, hreads, hwrite, Bool.true_and, if_false]
    split <;> grind

/-- What the loop over the arguments of a task does, when no container is both read and
overwritten by them. -/
theorem foldl_markArgument {args : List TaskArgument}
    (hunique : ∀ a ∈ args, ∀ b ∈ args, a.container = b.container →
      (a.access = .write ↔ b.access = .write)) :
    ∀ (readers disposable : List ContainerID) (c : ContainerID),
      (c ∈ (args.foldl markArgument (readers, disposable)).1 ↔
        (¬ ∃ a ∈ args, a.container = c ∧ a.access = .write) ∧
          ((∃ a ∈ args, a.container = c ∧ a.access.reads = true) ∨ c ∈ readers)) ∧
      (c ∈ (args.foldl markArgument (readers, disposable)).2 ↔
        c ∈ disposable ∨
          ((∃ a ∈ args, a.container = c ∧ a.access.reads = true) ∧ c ∉ readers)) := by
  induction args with
  | nil => simp
  | cons a rest ih =>
    intro readers disposable c
    have hhead : ∀ b ∈ rest, a.container = b.container →
        (a.access = .write ↔ b.access = .write) := fun b hb =>
      hunique a (List.mem_cons_self ..) b (List.mem_cons_of_mem _ hb)
    have hone := mem_markArgument a readers disposable c
    have hrest := ih (fun x hx y hy => hunique x (List.mem_cons_of_mem _ hx) y
      (List.mem_cons_of_mem _ hy)) (markArgument (readers, disposable) a).1
      (markArgument (readers, disposable) a).2 c
    have hwrite : a.access = .write → a.access.reads = false := fun h => by
      rw [h]
      rfl
    rw [List.foldl_cons]
    simp only [List.exists_mem_cons_iff]
    refine ⟨hrest.1.trans ?_, hrest.2.trans ?_⟩
    · rw [hone.1]
      constructor
      · grind
      · grind
    · rw [hone.1, hone.2]
      constructor
      · grind
      · grind

section

variable [DecidableEq Kind]

/-! ## Requests through a node -/

section Prerequisites

variable {E : Environment Model Kind K α σ} {storage : σ} {n : PipelineNode Model Kind K α}
  {outgoing ingoing : Requests (ObjectID K)}

/-- The requests of a pipe node: the arguments get the prerequisites of the pipe. -/
theorem Environment.prerequisitesFor_pipe {p : Pipe Model Kind K α}
    {bindings : Fin p.arity → ContainerID} {distinct : Function.Injective bindings}
    (htask : n.task = .pipe p bindings distinct)
    (h : E.prerequisitesFor storage n outgoing = some ingoing) :
    ∃ result, p.prerequisitesFor E.navigation E.model (fun i => outgoing.get (bindings i)) =
        some result ∧
      (∀ i, ingoing.get (bindings i) = result i) ∧
      ∀ c, (∀ i, bindings i ≠ c) → ingoing.get c = outgoing.get c := by
  simp only [prerequisitesFor, htask, Option.map_eq_some_iff] at h
  obtain ⟨result, hresult, rfl⟩ := h
  refine ⟨result, hresult, fun i => ?_, fun c hc => ?_⟩
  · rw [get_foldl_set]
    exact setAll_apply distinct i
  · rw [get_foldl_set]
    exact setAll_of_ne hc

theorem Environment.prerequisitesFor_savePoint {name : String} {toSave : List ContainerID}
    (htask : n.task = .savePoint name toSave)
    (h : E.prerequisitesFor storage n outgoing = some ingoing) (c : ContainerID)
    (o : ObjectID K) :
    o ∈ ingoing.get c ↔ o ∈ outgoing.get c ∧
      (c ∈ toSave → o ∉ E.provider.has storage (E.location n c) (outgoing.get c)) := by
  simp only [prerequisitesFor, htask, Option.some.injEq] at h
  subst h
  simp only [savePointPrerequisites, Requests.get_filter, List.mem_filter, Bool.not_eq_true',
    Bool.and_eq_false_iff, List.contains_eq_mem, decide_eq_false_iff_not]
  tauto

/-- A container that is not bound keeps its requests. -/
theorem Environment.prerequisitesFor_unbound (h : E.prerequisitesFor storage n outgoing = some ingoing)
    {c : ContainerID} (hc : c ∉ n.argumentDeclarations) (o : ObjectID K) :
    o ∈ ingoing.get c ↔ o ∈ outgoing.get c := by
  cases htask : n.task with
  | pipe p bindings distinct =>
    obtain ⟨result, -, -, hother⟩ := prerequisitesFor_pipe htask h
    rw [hother c fun i hi => hc (List.mem_map.mpr
      ⟨_, (PipelineNode.mem_arguments_pipe htask).mpr ⟨i, rfl⟩, hi⟩)]
  | savePoint name toSave =>
    rw [prerequisitesFor_savePoint htask h]
    refine and_iff_left fun hsave => absurd ?_ hc
    exact List.mem_map.mpr ⟨_, (PipelineNode.mem_arguments_savePoint htask).mpr ⟨c, hsave, rfl⟩, rfl⟩

/-- A node that is skipped passes on all its requests. -/
theorem Environment.prerequisitesFor_idle (h : E.prerequisitesFor storage n outgoing = some ingoing)
    (hidle : n.writesRequested outgoing = false) (c : ContainerID) :
    outgoing.get c ⊆ ingoing.get c := by
  have hnot : ∀ a ∈ n.arguments, a.container = c → a.access ≠ .read → outgoing.get c = [] := by
    intro a ha hac haccess
    by_contra hne
    have hactive : n.writesRequested outgoing = true :=
      PipelineNode.writesRequested_iff.mpr ⟨a, ha, haccess, hac ▸ hne⟩
    rw [hidle] at hactive
    cases hactive
  by_cases hc : c ∈ n.argumentDeclarations
  · obtain ⟨a, ha, rfl⟩ := List.mem_map.mp hc
    by_cases haccess : a.access = .read
    · cases htask : n.task with
      | pipe p bindings distinct =>
        obtain ⟨i, rfl⟩ := (PipelineNode.mem_arguments_pipe htask).mp ha
        obtain ⟨result, hresult, hbound, -⟩ := prerequisitesFor_pipe htask h
        have hself := Pipe.prerequisitesFor_self hresult (i := i) (by simp_all)
        exact hbound i ▸ hself
      | savePoint name toSave =>
        obtain ⟨d, -, rfl⟩ := (PipelineNode.mem_arguments_savePoint htask).mp ha
        cases haccess
    · rw [hnot a ha rfl haccess]
      exact List.nil_subset _
  · exact fun o ho => (prerequisitesFor_unbound h hc o).mpr ho

/-- Nothing is needed when nothing is requested. -/
theorem Environment.prerequisitesFor_empty (h : E.prerequisitesFor storage n outgoing = some ingoing)
    (hempty : outgoing.isEmpty = true) (c : ContainerID) : ingoing.get c = [] := by
  rw [Requests.isEmpty_iff] at hempty
  cases htask : n.task with
  | pipe p bindings distinct =>
    obtain ⟨result, hresult, hbound, hother⟩ := prerequisitesFor_pipe htask h
    by_cases hc : ∃ i, bindings i = c
    · obtain ⟨i, rfl⟩ := hc
      rw [hbound i]
      exact Pipe.prerequisitesFor_nil hresult (fun j => hempty _) i
    · rw [hother c (not_exists.mp hc)]
      exact hempty c
  | savePoint name toSave =>
    refine List.eq_nil_iff_forall_not_mem.mpr fun o ho => ?_
    have ho := ((prerequisitesFor_savePoint htask h c o).mp ho).1
    rw [hempty c] at ho
    cases ho

theorem Environment.exists_prerequisitesFor_of_empty (E : Environment Model Kind K α σ)
    (storage : σ) (n : PipelineNode Model Kind K α) (hempty : outgoing.isEmpty = true) :
    ∃ ingoing, E.prerequisitesFor storage n outgoing = some ingoing := by
  rw [Requests.isEmpty_iff] at hempty
  unfold prerequisitesFor
  cases n.task with
  | savePoint name toSave => exact ⟨_, rfl⟩
  | pipe p bindings distinct =>
    have hsome : p.prerequisitesFor E.navigation E.model (fun i => outgoing.get (bindings i)) =
        some fun i => if p.access i = .write then [] else (List.finRange p.arity).flatMap
          fun _ => [] := by
      refine allSome_eq_some_iff.mpr fun i => ?_
      split
      · rfl
      · exact Pipe.gather_eq_some_iff.mpr
          ⟨_, fun j => by rw [hempty, Navigation.moveToKind_nil], rfl⟩
    exact ⟨_, Option.map_eq_some_iff.mpr ⟨_, hsome, rfl⟩⟩

end Prerequisites

/-! ## Contracts -/

/-- A request for one object of one argument. -/
def single {arity : Nat} (i : Fin arity) (o : ObjectID K) : Fin arity → List (ObjectID K) :=
  fun j => if j = i then [o] else []

/-- Every container has the objects. -/
def Holds {arity : Nat} (containers : Fin arity → Container K α)
    (objects : Fin arity → List (ObjectID K)) : Prop :=
  ∀ i, ∀ o ∈ objects i, (containers i o).isSome = true

/-- What a pipe is assumed to do under a configuration.  Given the objects that its
prerequisites name, it produces what is requested of it, and an object depends on its own
prerequisites alone. -/
structure Pipe.Contract (N : Navigation Model Kind (ObjectID K)) (m : Model)
    (p : Pipe Model Kind K α) (configuration : String) : Prop where
  precondition : p.checkPrecondition m = true
  checkOutput : ∀ containers incoming outgoing,
    p.checkOutput (p.run m configuration containers incoming outgoing) = true
  readOnly : ∀ containers incoming outgoing i, p.access i = .read →
    (p.run m configuration containers incoming outgoing).containers i = containers i
  produces : ∀ containers incoming outgoing i o,
    p.prerequisitesFor N m outgoing = some incoming → Holds containers incoming →
    p.access i ≠ .read → o ∈ outgoing i →
    ((p.run m configuration containers incoming outgoing).containers i o).isSome = true
  independent : ∀ containers incoming outgoing containers' incoming' i o,
    p.prerequisitesFor N m outgoing = some incoming → Holds containers incoming →
    p.access i ≠ .read → o ∈ outgoing i →
    p.prerequisitesFor N m (single i o) = some incoming' →
    (∀ j, ∀ x ∈ incoming' j, containers' j x = containers j x) →
    (p.run m configuration containers' incoming' (single i o)).containers i o =
      (p.run m configuration containers incoming outgoing).containers i o

/-- What a provider is assumed to do.  `contents` is what it keeps. -/
structure StorageProvider.Lawful (P : StorageProvider K σ α) (Valid : σ → Prop)
    (contents : σ → ContainerLocation → ObjectID K → Option α) : Prop where
  mem_has : ∀ s location keys k, Valid s →
    (k ∈ P.has s location keys ↔ k ∈ keys ∧ (contents s location k).isSome = true)
  get_ok : ∀ s location keys, Valid s → keys ≠ [] →
    (∀ k ∈ keys, (contents s location k).isSome = true) →
    ∃ data, P.get s location keys = .ok data ∧
      ∀ k, data.lookup k = if k ∈ keys then contents s location k else none
  addObjects_ok : ∀ s dependencies objects, Valid s →
    ∃ s', P.addObjects s dependencies objects = .ok s' ∧ Valid s' ∧
      ∀ location k,
        (∃ x ∈ objects, ∃ b, x.1 = location ∧ (k, b) ∈ x.2 ∧ contents s' location k = some b) ∨
          contents s' location k = contents s location k

/-! ## Recomputing objects -/

/-- The content that a pipe gives to an object when it is asked for nothing else. -/
def Environment.produceAlone (E : Environment Model Kind K α σ) (n : PipelineNode Model Kind K α)
    (p : Pipe Model Kind K α) (containers : Fin p.arity → Container K α) (i : Fin p.arity)
    (o : ObjectID K) : Option α :=
  match p.prerequisitesFor E.navigation E.model (single i o) with
  | none => none
  | some incoming =>
      (p.run E.model ((E.configuration n.id).getD "") containers incoming (single i o)).containers
        i o

/-- The content of the objects after the first node of an ancestry, computed from the
root. -/
def Environment.recompute (E : Environment Model Kind K α σ) :
    List (PipelineNode Model Kind K α) → ContainerID → Container K α
  | [] => fun _ => Container.empty
  | n :: above =>
      match n.task with
      | .savePoint .. => Environment.recompute E above
      | .pipe p bindings _ =>
          setAll bindings
            (fun i =>
              if p.access i = .read then Environment.recompute E above (bindings i)
              else E.produceAlone n p (fun j => Environment.recompute E above (bindings j)) i)
            (Environment.recompute E above)

/-- Every object that the storage has for a savepoint of the path is what recomputing it
gives. -/
def Environment.Coherent (E : Environment Model Kind K α σ)
    (contents : σ → ContainerLocation → ObjectID K → Option α)
    (path : List (PipelineNode Model Kind K α)) (storage : σ) : Prop :=
  ∀ n above, (n :: above) <:+ path → ∀ name toSave, n.task = .savePoint name toSave →
    ∀ c ∈ toSave, ∀ o v, contents storage (E.location n c) o = some v →
      E.recompute (n :: above) c o = some v

/-! ## Requests for containers that nobody reads -/

/-- A container is live before a node when the node reads it, or when it is live after the
node and not overwritten. -/
def PipelineNode.liveBefore (n : PipelineNode Model Kind K α) (live : ContainerID → Prop)
    (c : ContainerID) : Prop :=
  ¬ n.Overwrites c ∧ (n.Reads c ∨ live c)

/-- The first node that writes something requested of it, going up, is the last to read the
container. -/
def Environment.LastRead (E : Environment Model Kind K α σ) (storage : σ) :
    List (PipelineNode Model Kind K α) → Requests (ObjectID K) → (ContainerID → Prop) →
      ContainerID → Prop
  | [], _, _, _ => False
  | n :: above, outgoing, live, c =>
      ∃ ingoing, E.prerequisitesFor storage n outgoing = some ingoing ∧
        ((n.writesRequested outgoing = true ∧ n.Reads c ∧ ¬ live c) ∨
          (n.writesRequested outgoing = false ∧
            Environment.LastRead E storage above ingoing live c))

/-- Going up from a node, no node that writes something requested of it names in its
prerequisites a container that the next such node is the last to read. -/
def Environment.NoStaleRequest (E : Environment Model Kind K α σ) (storage : σ) :
    List (PipelineNode Model Kind K α) → Requests (ObjectID K) → (ContainerID → Prop) → Prop
  | [], _, _ => True
  | n :: above, outgoing, live =>
      ∀ ingoing, E.prerequisitesFor storage n outgoing = some ingoing →
        (n.writesRequested outgoing = true →
          (∀ c, E.LastRead storage above ingoing (n.liveBefore live) c → ingoing.get c = []) ∧
          Environment.NoStaleRequest E storage above ingoing (n.liveBefore live)) ∧
        (n.writesRequested outgoing = false →
          Environment.NoStaleRequest E storage above ingoing live)

/-- Nothing is read last once nothing is requested. -/
theorem Environment.not_lastRead_of_empty {E : Environment Model Kind K α σ} {storage : σ}
    {live : ContainerID → Prop} {c : ContainerID} {path : List (PipelineNode Model Kind K α)} :
    ∀ {outgoing : Requests (ObjectID K)}, outgoing.isEmpty = true →
      ¬ E.LastRead storage path outgoing live c := by
  induction path with
  | nil => exact fun _ h => h
  | cons n above ih =>
    rintro outgoing hempty ⟨ingoing, hpre, hcases⟩
    have hidle := PipelineNode.writesRequested_of_empty (n := n)
      (Requests.isEmpty_iff.mp hempty)
    rcases hcases with ⟨hactive, -⟩ | ⟨-, hlast⟩
    · rw [hidle] at hactive
      cases hactive
    · exact ih (Requests.isEmpty_iff.mpr (prerequisitesFor_empty hpre hempty)) hlast

theorem Environment.noStaleRequest_of_empty {E : Environment Model Kind K α σ} {storage : σ}
    {live : ContainerID → Prop} {path : List (PipelineNode Model Kind K α)} :
    ∀ {outgoing : Requests (ObjectID K)}, outgoing.isEmpty = true →
      E.NoStaleRequest storage path outgoing live := by
  induction path with
  | nil => exact fun _ => trivial
  | cons n above ih =>
    intro outgoing hempty ingoing hpre
    have hidle := PipelineNode.writesRequested_of_empty (n := n)
      (Requests.isEmpty_iff.mp hempty)
    refine ⟨fun hactive => ?_, fun _ => ?_⟩
    · rw [hidle] at hactive
      cases hactive
    · exact ih (Requests.isEmpty_iff.mpr (prerequisitesFor_empty hpre hempty))

end

end

end Pypeline
