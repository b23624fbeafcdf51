import Mathlib.Data.List.Pairwise
import Mathlib.Data.Fin.VecNotation
import Mathlib.Data.List.Sort
import Revng.Pypeline.Kinds
import Revng.Pypeline.Storage

/-!
# Pipelines

A pipeline is a tree of tasks.  A *pipe* computes objects of the containers it is bound
to, and a *savepoint* keeps objects of some containers in the storage.  To get objects
out of a node, requests travel from the node to the root.  A pipe turns the requests
for its outputs into requests for its inputs, and a savepoint answers the requests whose
objects the storage has.

The containers of a pipeline are named, and a name is declared once, so a container is
identified by its name.  The type of a container matters through the kind of its objects,
which a pipe states in its signature.
-/

namespace Pypeline

/-! ## Requests -/

/-- A map from containers to the objects wanted there.  A container that is not a key
is read as one without objects. -/
structure Requests (Obj : Type) where
  keys : List ContainerID
  get : ContainerID → List Obj
  get_eq_nil : ∀ c, c ∉ keys → get c = []

namespace Requests

variable {Obj : Type}

def none : Requests Obj := ⟨[], fun _ => [], fun _ _ => rfl⟩

/-- `Requests.empty` -/
def isEmpty (r : Requests Obj) : Bool := r.keys.all fun c => (r.get c).isEmpty

/-- `requests[container] = objects` -/
def set (r : Requests Obj) (container : ContainerID) (objects : List Obj) : Requests Obj where
  keys := container :: r.keys
  get := fun c => if c = container then objects else r.get c
  get_eq_nil := by
    intro c hc
    rw [List.mem_cons, not_or] at hc
    rw [if_neg hc.1, r.get_eq_nil c hc.2]

def minimize (r : Requests Obj) : Requests Obj where
  keys := r.keys.filter fun c => !(r.get c).isEmpty
  get := r.get
  get_eq_nil := by
    intro c hc
    by_cases hk : c ∈ r.keys
    · by_contra hne
      exact hc (List.mem_filter.mpr ⟨hk, by simpa using hne⟩)
    · exact r.get_eq_nil c hk

/-- The requests with the objects of every container filtered. -/
def filter (r : Requests Obj) (keep : ContainerID → Obj → Bool) : Requests Obj where
  keys := r.keys
  get := fun c => (r.get c).filter (keep c)
  get_eq_nil := by
    intro c hc
    rw [r.get_eq_nil c hc]
    rfl

@[simp] theorem get_none (c : ContainerID) : (none : Requests Obj).get c = [] := rfl

@[simp] theorem get_set (r : Requests Obj) (container : ContainerID) (objects : List Obj)
    (c : ContainerID) : (r.set container objects).get c =
      if c = container then objects else r.get c := rfl

@[simp] theorem get_minimize (r : Requests Obj) (c : ContainerID) :
    r.minimize.get c = r.get c := rfl

@[simp] theorem get_filter (r : Requests Obj) (keep : ContainerID → Obj → Bool)
    (c : ContainerID) : (r.filter keep).get c = (r.get c).filter (keep c) := rfl

theorem mem_keys_minimize {r : Requests Obj} {c : ContainerID} :
    c ∈ r.minimize.keys ↔ r.get c ≠ [] := by
  simp only [minimize, List.mem_filter, Bool.not_eq_true', List.isEmpty_eq_false_iff, ne_eq,
    and_iff_right_iff_imp]
  intro hne
  by_contra hk
  exact hne (r.get_eq_nil c hk)

theorem isEmpty_iff {r : Requests Obj} : r.isEmpty = true ↔ ∀ c, r.get c = [] := by
  simp only [isEmpty, List.all_eq_true, List.isEmpty_iff]
  constructor
  · intro h c
    by_cases hk : c ∈ r.keys
    · exact h c hk
    · exact r.get_eq_nil c hk
  · exact fun h c _ => h c

end Requests

/-! ## Pipes -/

/-- `TaskArgumentAccess` -/
inductive Access where
  | read
  | write
  | readWrite
deriving DecidableEq, Repr

/-- The flag `READ` is set. -/
def Access.reads : Access → Bool
  | .read => true
  | .write => false
  | .readWrite => true

/-- The objects of a container, with their contents. -/
abbrev Container (K : KindLayout) (α : Type) := ObjectID K → Option α

def Container.empty {K : KindLayout} {α : Type} : Container K α := fun _ => none

/-- `Container.contains_all` -/
def Container.containsAll {K : KindLayout} {α : Type} (container : Container K α)
    (objects : List (ObjectID K)) : Bool :=
  objects.all fun o => (container o).isSome

/-- What a pipe leaves behind: its containers, the model paths it has read for every
object it produced, and its data for custom invalidation. -/
structure PipeOutput (K : KindLayout) (α : Type) (arity : Nat) where
  containers : Fin arity → Container K α
  dependencies : Fin arity → List (ObjectID K × ModelPath)
  customInvalidation : Fin arity → List (ObjectID K × Bytes)

structure Pipe (Model Kind : Type) (K : KindLayout) (α : Type) where
  name : String
  arity : Nat
  access : Fin arity → Access
  kind : Fin arity → Kind
  hasCustomInvalidation : Bool
  checkPrecondition : Model → Bool
  run : Model → String → (containers : Fin arity → Container K α) →
    (incoming outgoing : Fin arity → List (ObjectID K)) → PipeOutput K α arity

/-- The results of a function that succeeds everywhere. -/
def allSome {n : Nat} {β : Type} (f : Fin n → Option β) : Option (Fin n → β) :=
  if h : ∀ i, (f i).isSome then some fun i => (f i).get (h i) else none

theorem allSome_eq_some_iff {n : Nat} {β : Type} {f : Fin n → Option β} {g : Fin n → β} :
    allSome f = some g ↔ ∀ i, f i = some (g i) := by
  unfold allSome
  constructor
  · intro h i
    split at h
    · cases h
      simp
    · cases h
  · intro h
    rw [dif_pos (fun i => by simp [h i])]
    congr
    funext i
    simp [h i]

section Prerequisites

variable {Model Kind α : Type} {K : KindLayout} [DecidableEq Kind]

/-- The requests of all the containers, moved to the kind of one of them. -/
def Pipe.gather (N : Navigation Model Kind (ObjectID K)) (p : Pipe Model Kind K α) (m : Model)
    (requests : Fin p.arity → List (ObjectID K)) (i : Fin p.arity) : Option (List (ObjectID K)) :=
  (allSome fun j => N.moveToKind m (requests j) (p.kind j) (p.kind i)).map
    fun moved => (List.finRange p.arity).flatMap moved

/-- `Pipe.prerequisites_for`: every container that is read gets the requests of all the
containers. -/
def Pipe.prerequisitesFor (N : Navigation Model Kind (ObjectID K)) (p : Pipe Model Kind K α)
    (m : Model) (requests : Fin p.arity → List (ObjectID K)) :
    Option (Fin p.arity → List (ObjectID K)) :=
  allSome fun i => if p.access i = .write then some [] else p.gather N m requests i

variable {N : Navigation Model Kind (ObjectID K)} {p : Pipe Model Kind K α} {m : Model}
  {requests requests' result : Fin p.arity → List (ObjectID K)}

variable {i : Fin p.arity}

theorem Pipe.gather_eq_some_iff {objects : List (ObjectID K)} :
    p.gather N m requests i = some objects ↔
      ∃ moved : Fin p.arity → List (ObjectID K),
        (∀ j, N.moveToKind m (requests j) (p.kind j) (p.kind i) = some (moved j)) ∧
          (List.finRange p.arity).flatMap moved = objects := by
  simp only [gather, Option.map_eq_some_iff, allSome_eq_some_iff]

theorem Pipe.prerequisitesFor_write (h : p.prerequisitesFor N m requests = some result)
    (hi : p.access i = .write) : result i = [] := by
  have h := allSome_eq_some_iff.mp h i
  simpa [hi] using h.symm

theorem Pipe.prerequisitesFor_read (h : p.prerequisitesFor N m requests = some result)
    (hi : p.access i ≠ .write) : p.gather N m requests i = some (result i) := by
  have h := allSome_eq_some_iff.mp h i
  rwa [if_neg hi] at h

/-- The requests of a container that is read are among its prerequisites. -/
theorem Pipe.prerequisitesFor_self (h : p.prerequisitesFor N m requests = some result)
    (hi : p.access i ≠ .write) : requests i ⊆ result i := by
  obtain ⟨moved, hmoved, hresult⟩ := gather_eq_some_iff.mp (prerequisitesFor_read h hi)
  have hown := hmoved i
  rw [N.moveToKind_same, Option.some.injEq] at hown
  intro o ho
  rw [← hresult]
  exact List.mem_flatMap.mpr ⟨i, List.mem_finRange i, hown ▸ ho⟩

theorem Pipe.gather_mono (hsub : ∀ i, requests' i ⊆ requests i) {objects : List (ObjectID K)}
    (h : p.gather N m requests i = some objects) :
    ∃ objects', p.gather N m requests' i = some objects' ∧ objects' ⊆ objects := by
  obtain ⟨moved, hmoved, rfl⟩ := gather_eq_some_iff.mp h
  have hmove := fun j => N.moveToKind_mono (hsub j) (hmoved j)
  choose moved' hmoved' hle using hmove
  refine ⟨_, gather_eq_some_iff.mpr ⟨moved', hmoved', rfl⟩, ?_⟩
  intro o ho
  obtain ⟨j, hj, ho⟩ := List.mem_flatMap.mp ho
  exact List.mem_flatMap.mpr ⟨j, hj, hle j ho⟩

/-- Fewer requests have fewer prerequisites. -/
theorem Pipe.prerequisitesFor_mono (hsub : ∀ i, requests' i ⊆ requests i)
    (h : p.prerequisitesFor N m requests = some result) :
    ∃ result', p.prerequisitesFor N m requests' = some result' ∧ ∀ i, result' i ⊆ result i := by
  have hone : ∀ i, ∃ objects,
      (if p.access i = .write then some [] else p.gather N m requests' i) = some objects ∧
        objects ⊆ result i := by
    intro i
    by_cases hi : p.access i = .write
    · exact ⟨[], if_pos hi, List.nil_subset _⟩
    · rw [if_neg hi]
      exact gather_mono hsub (prerequisitesFor_read h hi)
  choose result' hresult' hle using hone
  exact ⟨result', allSome_eq_some_iff.mpr hresult', hle⟩

theorem Pipe.prerequisitesFor_nil (h : p.prerequisitesFor N m requests = some result)
    (hnil : ∀ i, requests i = []) (i : Fin p.arity) : result i = [] := by
  by_cases hi : p.access i = .write
  · exact prerequisitesFor_write h hi
  · obtain ⟨moved, hmoved, hresult⟩ := gather_eq_some_iff.mp (prerequisitesFor_read h hi)
    rw [← hresult, List.flatMap_eq_nil_iff]
    intro j _
    have hj := hmoved j
    rw [hnil j, N.moveToKind_nil, Option.some.injEq] at hj
    exact hj.symm

end Prerequisites

/-! ## Nodes -/

/-- The order in which a process goes over a set of pipes, lesser signatures first.  For pipes of one
signature it is another one in each process. -/
structure SetOrder where
  arrange : List (String × Nat) → List (String × Nat)
  perm : ∀ pipes, (arrange pipes).Perm pipes

def SetOrder.inserted : SetOrder := ⟨id, fun _ => .refl _⟩

inductive Task (Model Kind : Type) (K : KindLayout) (α : Type) where
  /-- A pipe and the containers of its arguments.  The pipe changes its containers in
  place, so no container stands for two arguments, although the source does not check it. -/
  | pipe (pipe : Pipe Model Kind K α) (bindings : Fin pipe.arity → ContainerID)
      (distinct : Function.Injective bindings)
  | savePoint (name : String) (toSave : List ContainerID)

structure TaskArgument where
  container : ContainerID
  access : Access
deriving DecidableEq, Repr

/-- A node of the tree.  The identity of a node is that of its pipe, and
`pipeDependencies` has the names and identities of the pipes on the way to the node. -/
structure PipelineNode (Model Kind : Type) (K : KindLayout) (α : Type) where
  id : Nat
  task : Task Model Kind K α
  savepointRange : SavePointsRange
  pipeDependencies : List (String × Nat)

section Nodes

variable {Model Kind α σ : Type} {K : KindLayout}

def Task.isSavePoint : Task Model Kind K α → Bool
  | .pipe .. => false
  | .savePoint .. => true

namespace PipelineNode

/-- The arguments of a savepoint are read and written. -/
def arguments (n : PipelineNode Model Kind K α) : List TaskArgument :=
  match n.task with
  | .pipe p bindings _ => (List.finRange p.arity).map fun i => ⟨bindings i, p.access i⟩
  | .savePoint _ toSave => toSave.map fun c => ⟨c, .readWrite⟩

def argumentDeclarations (n : PipelineNode Model Kind K α) : List ContainerID :=
  n.arguments.map TaskArgument.container

/-- `PipelineNode.configuration_id`.  `hash` is the digest of the bytes that the hasher
was given.  The sort is stable, so pipes of one name stay in the order of the set, which has them by
signature. -/
def configurationId (hash : String → ConfigurationId) (order : SetOrder)
    (configuration : Nat → Option String) (n : PipelineNode Model Kind K α) : ConfigurationId :=
  match n.task with
  | .pipe .. => hash ((configuration n.id).getD "")
  | .savePoint .. =>
      hash (String.join (((order.arrange n.pipeDependencies).insertionSort (·.1 ≤ ·.1)).map
        fun pipe => (configuration pipe.2).getD ""))

end PipelineNode

/-- The name and the identity of the pipe of a node. -/
def PipelineNode.ownPipe (n : PipelineNode Model Kind K α) : List (String × Nat) :=
  match n.task with
  | .pipe p _ _ => [(p.name, n.id)]
  | .savePoint .. => []

/-! ## The tree -/

inductive PipelineTree (Model Kind : Type) (K : KindLayout) (α : Type) where
  | node (node : PipelineNode Model Kind K α) (successors : List (PipelineTree Model Kind K α))

def PipelineTree.root : PipelineTree Model Kind K α → PipelineNode Model Kind K α
  | .node n _ => n

mutual

/-- `Pipeline.assign_savepoint_ranges`, with the last identifier it has used.  The
successors are in the order of `sorted_successors`. -/
def PipelineTree.assignSavepointRanges :
    PipelineTree Model Kind K α → Nat → PipelineTree Model Kind K α × Nat
  | .node n successors, currentId =>
      let start := if n.task.isSavePoint then currentId + 1 else currentId
      let (children, lastId) := assignChildren successors start
      let stop := children.foldl (fun stop child => max stop child.root.savepointRange.stop) start
      (.node { n with savepointRange := ⟨start, stop⟩ } children, lastId)

def PipelineTree.assignChildren :
    List (PipelineTree Model Kind K α) → Nat → List (PipelineTree Model Kind K α) × Nat
  | [], currentId => ([], currentId)
  | child :: rest, currentId =>
      let (child, currentId) := child.assignSavepointRanges currentId
      let (rest, currentId) := assignChildren rest currentId
      (child :: rest, currentId)

end

mutual

/-- All nodes of the tree. -/
def PipelineTree.nodes : PipelineTree Model Kind K α → List (PipelineNode Model Kind K α)
  | .node n successors => n :: nodesOfAll successors

def PipelineTree.nodesOfAll :
    List (PipelineTree Model Kind K α) → List (PipelineNode Model Kind K α)
  | [] => []
  | t :: ts => t.nodes ++ nodesOfAll ts

end

/-- The nodes from a node of the tree up to the root, following `predecessors`. -/
inductive PipelineTree.Ancestry :
    PipelineTree Model Kind K α → List (PipelineNode Model Kind K α) → Prop where
  | here (n : PipelineNode Model Kind K α) (successors : List (PipelineTree Model Kind K α)) :
      Ancestry (.node n successors) [n]
  | child {n : PipelineNode Model Kind K α} {successors : List (PipelineTree Model Kind K α)}
      {t : PipelineTree Model Kind K α} {path : List (PipelineNode Model Kind K α)} :
      t ∈ successors → Ancestry t path → Ancestry (.node n successors) (path ++ [n])

/-- The nodes of an ancestry with their `pipe_dependencies`: those of the predecessor and
the pipe of the node.  The root has none, even when it is a pipe. -/
def withPipeDependencies :
    List (PipelineNode Model Kind K α) → List (PipelineNode Model Kind K α)
  | [] => []
  | [root] => [{ root with pipeDependencies := [] }]
  | n :: predecessor :: above =>
      let rest := withPipeDependencies (predecessor :: above)
      let inherited := (rest.head?.map (·.pipeDependencies)).getD []
      let own := match n.task with
        | .pipe p _ _ => [(p.name, n.id)]
        | .savePoint .. => []
      { n with pipeDependencies := inherited ++ own } :: rest

/-! ## Savepoint ranges -/

/-- What the ranges say of a node `a` below a node `b`. -/
structure PipelineNode.Below (a b : PipelineNode Model Kind K α) : Prop where
  start_le : b.savepointRange.start ≤ a.savepointRange.start
  le_stop : a.savepointRange.start ≤ b.savepointRange.stop
  start_lt : a.task.isSavePoint = true → b.savepointRange.start < a.savepointRange.start

/-- The identifiers of an ancestry that were assigned after `currentId` and up to
`lastId`. -/
structure AssignedBetween (currentId lastId : Nat) (path : List (PipelineNode Model Kind K α)) :
    Prop where
  below : path.Pairwise PipelineNode.Below
  le : ∀ n ∈ path, currentId ≤ n.savepointRange.start
  lt : ∀ n ∈ path, n.task.isSavePoint = true → currentId < n.savepointRange.start
  le_last : ∀ n ∈ path, n.savepointRange.start ≤ lastId

theorem AssignedBetween.weaken {a b a' b' : Nat} {path : List (PipelineNode Model Kind K α)}
    (h : AssignedBetween a b path) (ha : a' ≤ a) (hb : b ≤ b') : AssignedBetween a' b' path where
  below := h.below
  le n hn := Nat.le_trans ha (h.le n hn)
  lt n hn hs := Nat.lt_of_le_of_lt ha (h.lt n hn hs)
  le_last n hn := Nat.le_trans (h.le_last n hn) hb

mutual

/-- The range of a tree ends at the last identifier, and its nodes have identifiers in
between. -/
theorem PipelineTree.assignSavepointRanges_spec :
    ∀ (t : PipelineTree Model Kind K α) (currentId : Nat),
      currentId ≤ (t.assignSavepointRanges currentId).2 ∧
      (t.assignSavepointRanges currentId).1.root.savepointRange.stop =
        (t.assignSavepointRanges currentId).2 ∧
      ∀ path, (t.assignSavepointRanges currentId).1.Ancestry path →
        AssignedBetween currentId (t.assignSavepointRanges currentId).2 path
  | .node n successors, currentId => by
      have hstart : currentId ≤ (if n.task.isSavePoint then currentId + 1 else currentId) ∧
          (n.task.isSavePoint = true →
            currentId < (if n.task.isSavePoint then currentId + 1 else currentId)) := by
        split <;> simp_all
      simp only [assignSavepointRanges]
      generalize (if n.task.isSavePoint then currentId + 1 else currentId) = start at hstart ⊢
      obtain ⟨hle, hstop, hpaths⟩ := assignChildren_spec successors start
      refine ⟨Nat.le_trans hstart.1 hle, hstop, fun path hpath => ?_⟩
      cases hpath with
      | here =>
        refine ⟨List.pairwise_singleton _ _, ?_, ?_, ?_⟩
        · simpa using hstart.1
        · simpa using hstart.2
        · simpa using hle
      | child ht hpath =>
        have hrest := hpaths _ ht _ hpath
        refine ⟨List.pairwise_append.mpr ⟨hrest.below, List.pairwise_singleton _ _, ?_⟩, ?_, ?_, ?_⟩
        · intro a ha b hb
          obtain rfl := List.mem_singleton.mp hb
          exact ⟨hrest.le a ha, (hrest.le_last a ha).trans_eq hstop.symm, hrest.lt a ha⟩
        · intro a ha
          rcases List.mem_append.mp ha with ha | ha
          · exact Nat.le_trans hstart.1 (hrest.le a ha)
          · obtain rfl := List.mem_singleton.mp ha
            exact hstart.1
        · intro a ha hs
          rcases List.mem_append.mp ha with ha | ha
          · exact Nat.lt_of_le_of_lt hstart.1 (hrest.lt a ha hs)
          · obtain rfl := List.mem_singleton.mp ha
            exact hstart.2 hs
        · intro a ha
          rcases List.mem_append.mp ha with ha | ha
          · exact hrest.le_last a ha
          · obtain rfl := List.mem_singleton.mp ha
            exact hle

theorem PipelineTree.assignChildren_spec :
    ∀ (ts : List (PipelineTree Model Kind K α)) (currentId : Nat),
      currentId ≤ (assignChildren ts currentId).2 ∧
      (assignChildren ts currentId).1.foldl
        (fun stop child => max stop child.root.savepointRange.stop) currentId =
          (assignChildren ts currentId).2 ∧
      ∀ t ∈ (assignChildren ts currentId).1, ∀ path, t.Ancestry path →
        AssignedBetween currentId (assignChildren ts currentId).2 path
  | [], currentId => by simp [assignChildren]
  | t :: ts, currentId => by
      obtain ⟨hle, hstop, hpaths⟩ := assignSavepointRanges_spec t currentId
      obtain ⟨hle', hstop', hpaths'⟩ := assignChildren_spec ts (t.assignSavepointRanges currentId).2
      simp only [assignChildren, List.foldl_cons, List.mem_cons]
      refine ⟨Nat.le_trans hle hle', ?_, ?_⟩
      · rw [hstop, Nat.max_eq_right hle]
        exact hstop'
      · rintro t' (rfl | ht') path hpath
        · exact (hpaths path hpath).weaken (Nat.le_refl _) hle'
        · exact (hpaths' t' ht' path hpath).weaken hle (Nat.le_refl _)

end

mutual

/-- Assigning ranges keeps the tasks. -/
theorem PipelineTree.exists_node_of_ancestry :
    ∀ (t : PipelineTree Model Kind K α) (currentId : Nat) (path),
      (t.assignSavepointRanges currentId).1.Ancestry path → ∀ n ∈ path,
        ∃ n' ∈ t.nodes, n'.task = n.task
  | .node root successors, currentId, path, hpath, n, hn => by
      simp only [assignSavepointRanges] at hpath
      cases hpath with
      | here =>
        obtain rfl := List.mem_singleton.mp hn
        exact ⟨root, List.mem_cons_self .., rfl⟩
      | child ht hpath =>
        rcases List.mem_append.mp hn with hn | hn
        · obtain ⟨n', hn', htask⟩ := exists_node_of_children successors _ _ ht _ hpath n hn
          exact ⟨n', List.mem_cons_of_mem _ hn', htask⟩
        · obtain rfl := List.mem_singleton.mp hn
          exact ⟨root, List.mem_cons_self .., rfl⟩

theorem PipelineTree.exists_node_of_children :
    ∀ (ts : List (PipelineTree Model Kind K α)) (currentId : Nat) (t),
      t ∈ (assignChildren ts currentId).1 → ∀ path, t.Ancestry path → ∀ n ∈ path,
        ∃ n' ∈ nodesOfAll ts, n'.task = n.task
  | [], _, _, ht, _, _, _, _ => by simp [assignChildren] at ht
  | t :: ts, currentId, t', ht', path, hpath, n, hn => by
      simp only [assignChildren, List.mem_cons] at ht'
      rcases ht' with rfl | ht'
      · obtain ⟨n', hn', htask⟩ := exists_node_of_ancestry t currentId path hpath n hn
        exact ⟨n', List.mem_append_left _ hn', htask⟩
      · obtain ⟨n', hn', htask⟩ := exists_node_of_children ts _ t' ht' path hpath n hn
        exact ⟨n', List.mem_append_right _ hn', htask⟩

end

/-- A pipeline declares the containers of its tasks. -/
structure Pipeline (Model Kind : Type) (K : KindLayout) (α : Type) where
  declarations : List ContainerID
  root : PipelineTree Model Kind K α
  declared : ∀ n ∈ root.nodes, ∀ c ∈ n.argumentDeclarations, c ∈ declarations

/-- A node of a pipeline and its ancestors, as the constructor of `Pipeline` has annotated
them. -/
structure Pipeline.Target (pipeline : Pipeline Model Kind K α) where
  node : PipelineNode Model Kind K α
  ancestors : List (PipelineNode Model Kind K α)
  annotated : ∃ path, (pipeline.root.assignSavepointRanges 0).1.Ancestry path ∧
    node :: ancestors = withPipeDependencies path

/-- The nodes from a target to the root. -/
def Pipeline.Target.path {pipeline : Pipeline Model Kind K α} (target : pipeline.Target) :
    List (PipelineNode Model Kind K α) :=
  target.node :: target.ancestors

/-- Only the dependencies of the nodes are set. -/
theorem map_withPipeDependencies (path : List (PipelineNode Model Kind K α)) :
    (withPipeDependencies path).map (fun n => { n with pipeDependencies := [] }) =
      path.map (fun n => { n with pipeDependencies := [] }) := by
  induction path with
  | nil => rfl
  | cons n above ih =>
    cases above with
    | nil => rfl
    | cons predecessor above =>
      simp only [withPipeDependencies, List.map_cons] at ih ⊢
      rw [ih]

/-- The ranges along a path of a pipeline. -/
theorem Pipeline.Target.below {pipeline : Pipeline Model Kind K α} (target : pipeline.Target) :
    target.path.Pairwise PipelineNode.Below := by
  obtain ⟨nodes, hpath, hnodes⟩ := target.annotated
  have hclear : ∀ l : List (PipelineNode Model Kind K α),
      (l.map fun n => { n with pipeDependencies := [] }).Pairwise PipelineNode.Below ↔
        l.Pairwise PipelineNode.Below := by
    intro l
    rw [List.pairwise_map]
    exact List.Pairwise.iff fun a b => ⟨fun h => ⟨h.1, h.2, h.3⟩, fun h => ⟨h.1, h.2, h.3⟩⟩
  rw [path, hnodes, ← hclear, map_withPipeDependencies, hclear]
  exact ((pipeline.root.assignSavepointRanges_spec 0).2.2 nodes hpath).below

theorem Pipeline.Target.declared {pipeline : Pipeline Model Kind K α} (target : pipeline.Target)
    {n : PipelineNode Model Kind K α} (hn : n ∈ target.path) {c : ContainerID}
    (hc : c ∈ n.argumentDeclarations) : c ∈ pipeline.declarations := by
  obtain ⟨nodes, hpath, hnodes⟩ := target.annotated
  rw [path, hnodes] at hn
  have hmem : ({ n with pipeDependencies := [] } : PipelineNode Model Kind K α) ∈
      (withPipeDependencies nodes).map fun n => { n with pipeDependencies := [] } :=
    List.mem_map.mpr ⟨n, hn, rfl⟩
  rw [map_withPipeDependencies] at hmem
  obtain ⟨n', hn', heq⟩ := List.mem_map.mp hmem
  obtain ⟨n'', hn'', htask⟩ := pipeline.root.exists_node_of_ancestry 0 nodes hpath n' hn'
  have htask : n''.task = n.task := htask.trans (PipelineNode.mk.inj heq).2.1
  have harguments : n''.argumentDeclarations = n.argumentDeclarations := by
    simp only [PipelineNode.argumentDeclarations, PipelineNode.arguments, htask]
  exact pipeline.declared n'' hn'' c (harguments ▸ hc)

end Nodes

end Pypeline
