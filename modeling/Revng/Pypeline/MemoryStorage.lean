import Revng.Lib.KeyedTable
import Revng.Pypeline.Storage

/-!
# The storage provider in memory

`InMemoryStorageProvider` keeps dictionaries: the objects of every location, and the
dependency entries of every path.  A dictionary is a list of pairs with distinct
keys.  A change of the model deletes the dictionary entries of the changed paths.
-/

namespace Pypeline

open KeyedTable

variable {K : KindLayout}

/-! ## Dictionaries -/

abbrev Dict (α β : Type) := List (α × β)

/-- `d[k] = v` -/
def Dict.set {α β : Type} [DecidableEq α] (d : Dict α β) (k : α) (v : β) : Dict α β :=
  put Prod.fst (fun _ new => new) (k, v) d

/-- Several assignments, one after the other. -/
def Dict.setAll {α β : Type} [DecidableEq α] (d : Dict α β) (items : List (α × β)) : Dict α β :=
  putAll Prod.fst (fun _ new => new) items d

/-! ## The provider -/

structure MemoryStorage (K : KindLayout) where
  storage : Dict ContainerLocation (Dict (ObjectID K) Bytes)
  dependencies : Dict ModelPath (List (DependencyEntry K))
  customDependencies : Dict (Nat × ConfigurationId) (List (List (ObjectID K × Bytes)))
deriving DecidableEq, Repr

namespace MemoryStorage

def empty : MemoryStorage K := ⟨[], [], []⟩

def has (m : MemoryStorage K) (location : ContainerLocation) (keys : List (ObjectID K)) :
    List (ObjectID K) :=
  match m.storage.lookup location with
  | none => []
  | some objects => keys.filter fun k => (objects.lookup k).isSome

def get (m : MemoryStorage K) (location : ContainerLocation) (keys : List (ObjectID K)) :
    Except StorageError (List (ObjectID K × Bytes)) :=
  match m.storage.lookup location with
  | none => .error .keyError
  | some objects => .ok (keys.filterMap fun k => (objects.lookup k).map fun b => (k, b))

/-- `self.dependencies[path].append(entry)` -/
def appendDependency (dependencies : Dict ModelPath (List (DependencyEntry K)))
    (x : DependencyEntry K × ModelPath) : Dict ModelPath (List (DependencyEntry K)) :=
  put Prod.fst (fun old new => (old.1, old.2 ++ new.2)) (x.2, [x.1]) dependencies

/-- The objects of one location, stored into the dictionary of that location. -/
def storeAt (storage : Dict ContainerLocation (Dict (ObjectID K) Bytes))
    (x : ContainerLocation × List (ObjectID K × Bytes)) :
    Dict ContainerLocation (Dict (ObjectID K) Bytes) :=
  put Prod.fst (fun old _ => (old.1, old.2.setAll x.2)) (x.1, Dict.setAll [] x.2) storage

def addObjects (m : MemoryStorage K) (dependencies : List (PipeDependencies K))
    (objects : ObjectMap K) : MemoryStorage K where
  dependencies :=
    (dependencies.flatMap PipeDependencies.entries).foldl appendDependency m.dependencies
  customDependencies :=
    m.customDependencies.setAll ((dependencies.filter (·.hasCustomInvalidation)).map
      fun d => ((d.pipeId, d.configuration), d.customInvalidation))
  storage := objects.foldl storeAt m.storage

/-- The entries that select objects for deletion. -/
def objectToDelete (m : MemoryStorage K) (paths : List ModelPath)
    (additional : List (ObjectsToInvalidate K)) : List (DependencyEntry K) :=
  additional.flatMap ObjectsToInvalidate.entries ++
    paths.flatMap fun p => (m.dependencies.lookup p).getD []

/-- The state after `_invalidate`, and the invalidated objects. -/
def invalidate (m : MemoryStorage K) (paths : List ModelPath)
    (additional : List (ObjectsToInvalidate K)) :
    MemoryStorage K × List (ContainerLocation × ObjectID K) :=
  let hit := fun location k => (m.objectToDelete paths additional).any (·.covers location k)
  ({ m with
      storage := m.storage.map fun (location, objects) =>
        (location, objects.filter fun (k, _) => !hit location k)
      dependencies := m.dependencies.filter fun (p, _) => !paths.contains p },
    m.storage.flatMap fun (location, objects) =>
      (objects.filter fun (k, _) => hit location k).map fun (k, _) => (location, k))

def pruneObjects (m : MemoryStorage K) : MemoryStorage K :=
  { m with storage := [], dependencies := [] }

/-- One operation, with the state after it. -/
def step (m : MemoryStorage K) : StorageOp K → MemoryStorage K × Response K
  | .has location keys => (m, .objects (m.has location keys))
  | .get location keys =>
      match m.get location keys with
      | .ok items => (m, .contents items)
      | .error e => (m, .error e)
  | .addObjects dependencies objects => (m.addObjects dependencies objects, .done)
  | .setModel paths additional =>
      let (m', invalidated) := m.invalidate paths additional
      (m', .invalidated invalidated)
  | .pruneObjects => (m.pruneObjects, .done)

/-! ## What the provider holds -/

/-- The dictionaries of the objects have distinct keys. -/
structure WellFormed (m : MemoryStorage K) : Prop where
  locations : (m.storage.map Prod.fst).Nodup
  keys : ∀ x ∈ m.storage, (x.2.map Prod.fst).Nodup

/-- The objects of a dictionary of dictionaries. -/
def objectsOf (storage : Dict ContainerLocation (Dict (ObjectID K) Bytes)) :
    Set (ContainerLocation × ObjectID K × Bytes) :=
  {x | x.2 ∈ (storage.lookup x.1).getD []}

/-- The entries of a dictionary of lists. -/
def dependenciesOf (dependencies : Dict ModelPath (List (DependencyEntry K))) :
    Set (DependencyEntry K × ModelPath) :=
  {x | x.1 ∈ (dependencies.lookup x.2).getD []}

def view (m : MemoryStorage K) : StorageView K :=
  ⟨objectsOf m.storage, dependenciesOf m.dependencies⟩

theorem WellFormed.empty : (MemoryStorage.empty : MemoryStorage K).WellFormed := by
  constructor <;> simp [MemoryStorage.empty]

theorem view_empty : (MemoryStorage.empty : MemoryStorage K).view = StorageView.empty := by
  simp [MemoryStorage.empty, view, objectsOf, dependenciesOf, StorageView.empty]

variable {m : MemoryStorage K} {location : ContainerLocation}

theorem WellFormed.lookup_objects (h : m.WellFormed) {k : ObjectID K} {b : Bytes} :
    ((m.storage.lookup location).getD []).lookup k = some b ↔
      (location, k, b) ∈ m.view.objects := by
  cases hl : m.storage.lookup location with
  | none => simp [view, objectsOf, hl]
  | some objects =>
    have hnodup := h.keys _ ((lookup_eq_some_iff h.locations).mp hl)
    simpa [view, objectsOf, hl] using lookup_eq_some_iff hnodup

theorem mem_has (h : m.WellFormed) {keys : List (ObjectID K)} {k : ObjectID K} :
    k ∈ m.has location keys ↔ k ∈ keys ∧ ∃ b, (location, k, b) ∈ m.view.objects := by
  simp only [← h.lookup_objects, has]
  cases hl : m.storage.lookup location with
  | none => simp
  | some objects => simp [List.mem_filter, Option.isSome_iff_exists]

theorem mem_get (h : m.WellFormed) {keys : List (ObjectID K)} {items : List (ObjectID K × Bytes)}
    (hget : m.get location keys = .ok items) {x : ObjectID K × Bytes} :
    x ∈ items ↔ x.1 ∈ keys ∧ (location, x) ∈ m.view.objects := by
  obtain ⟨k, b⟩ := x
  rw [← h.lookup_objects]
  unfold get at hget
  cases hl : m.storage.lookup location with
  | none => simp [hl] at hget
  | some objects =>
    simp only [hl, Except.ok.injEq] at hget
    subst hget
    simp only [List.mem_filterMap, Option.map_eq_some_iff, Option.getD_some, Prod.mk.injEq]
    constructor
    · rintro ⟨k', hk, b', hb, rfl, rfl⟩
      exact ⟨hk, hb⟩
    · rintro ⟨hk, hb⟩
      exact ⟨k, hk, b, hb, rfl, rfl⟩

/-! ## Storing -/

/-- One assignment into a set of pairs. -/
def storeKey {α β : Type} (items : Set (α × β)) (x : α × β) : Set (α × β) :=
  {y | (y ∈ items ∧ y.1 ≠ x.1) ∨ y = x}

theorem mem_setAll {α β : Type} [DecidableEq α] {items : List (α × β)} {x : α × β} :
    ∀ {d : Dict α β}, x ∈ d.setAll items ↔ x ∈ items.foldl storeKey {y | y ∈ d} := by
  induction items with
  | nil => exact Iff.rfl
  | cons item rest ih =>
    intro d
    have hset : {y | y ∈ put Prod.fst (fun _ new => new) item d} = storeKey {y | y ∈ d} item :=
      Set.ext fun y => mem_put_replace
    have hrest := ih (d := put Prod.fst (fun _ new => new) item d)
    rw [hset] at hrest
    exact hrest

/-- Storing the objects of one location, seen from the set of all objects. -/
theorem mem_foldl_storeOne {items : List (ObjectID K × Bytes)}
    {y : ContainerLocation × ObjectID K × Bytes} :
    ∀ {S : Set (ContainerLocation × ObjectID K × Bytes)},
      y ∈ (items.map fun (k, b) => (location, k, b)).foldl StorageView.storeOne S ↔
        if y.1 = location then y.2 ∈ items.foldl storeKey {z | (location, z) ∈ S} else y ∈ S := by
  induction items with
  | nil =>
    intro S
    obtain ⟨l, z⟩ := y
    split
    next hl =>
      subst hl
      rfl
    · rfl
  | cons item rest ih =>
    intro S
    obtain ⟨k, b⟩ := item
    have hset : {z | (location, z) ∈ StorageView.storeOne S (location, k, b)} =
        storeKey {z | (location, z) ∈ S} (k, b) := by
      ext z
      simp [StorageView.storeOne, storeKey]
    rw [List.map_cons, List.foldl_cons, ih, hset, List.foldl_cons]
    split
    · rfl
    next hne =>
      constructor
      · rintro (h | rfl)
        · exact h.1
        · exact absurd rfl hne
      · exact fun h => Or.inl ⟨h, fun he => hne (congrArg Prod.fst he)⟩

theorem objectsOf_storeAt (storage : Dict ContainerLocation (Dict (ObjectID K) Bytes))
    (x : ContainerLocation × List (ObjectID K × Bytes)) :
    objectsOf (storeAt storage x) =
      (x.2.map fun (k, b) => (x.1, k, b)).foldl StorageView.storeOne (objectsOf storage) := by
  obtain ⟨location, items⟩ := x
  have hlookup : ∀ l, (storeAt storage (location, items)).lookup l =
      if l = location then some (((storage.lookup l).getD []).setAll items)
      else storage.lookup l := by
    intro l
    simp only [storeAt]
    rw [lookup_put (by intro r; rfl)]
    cases storage.lookup l <;> rfl
  ext ⟨l, z⟩
  rw [mem_foldl_storeOne]
  simp only [objectsOf, Set.mem_ofPred_eq, hlookup]
  split
  next hl =>
    subst hl
    exact mem_setAll
  · rfl

theorem objectsOf_foldl_storeAt (objects : ObjectMap K) :
    ∀ storage : Dict ContainerLocation (Dict (ObjectID K) Bytes),
      objectsOf (objects.foldl storeAt storage) =
        (StorageView.items objects).foldl StorageView.storeOne (objectsOf storage) := by
  induction objects with
  | nil => exact fun _ => rfl
  | cons x rest ih =>
    intro storage
    rw [List.foldl_cons, ih, objectsOf_storeAt]
    simp [StorageView.items, List.foldl_append]

theorem dependenciesOf_appendDependency
    (dependencies : Dict ModelPath (List (DependencyEntry K))) (x : DependencyEntry K × ModelPath) :
    dependenciesOf (appendDependency dependencies x) = insert x (dependenciesOf dependencies) := by
  obtain ⟨e, p⟩ := x
  ext ⟨e', p'⟩
  simp only [dependenciesOf, appendDependency, Set.mem_ofPred_eq, Set.mem_insert_iff,
    Prod.mk.injEq]
  rw [lookup_put (by intro r; rfl)]
  split
  next hp =>
    subst hp
    cases dependencies.lookup p' <;> simp [or_comm]
  next hp => simp [show ¬ p' = p from hp]

theorem dependenciesOf_foldl_append (entries : List (DependencyEntry K × ModelPath)) :
    ∀ dependencies : Dict ModelPath (List (DependencyEntry K)),
      dependenciesOf (entries.foldl appendDependency dependencies) =
        {x | x ∈ dependenciesOf dependencies ∨ x ∈ entries} := by
  induction entries with
  | nil => simp
  | cons x rest ih =>
    intro dependencies
    rw [List.foldl_cons, ih, dependenciesOf_appendDependency]
    ext y
    simp only [Set.mem_insert_iff, Set.mem_ofPred_eq, List.mem_cons]
    tauto

theorem view_addObjects (m : MemoryStorage K) (dependencies : List (PipeDependencies K))
    (objects : ObjectMap K) :
    (m.addObjects dependencies objects).view = m.view.addObjects dependencies objects := by
  simp only [view, addObjects, StorageView.addObjects, objectsOf_foldl_storeAt,
    dependenciesOf_foldl_append, List.mem_flatMap]

theorem WellFormed.addObjects (h : m.WellFormed) (dependencies : List (PipeDependencies K))
    (objects : ObjectMap K) : (m.addObjects dependencies objects).WellFormed := by
  have hset : ∀ (d : Dict (ObjectID K) Bytes) (items : List (ObjectID K × Bytes)),
      (d.map Prod.fst).Nodup → ((d.setAll items).map Prod.fst).Nodup :=
    fun d items hd => nodup_putAll (by intro x _ r _; rfl) hd
  have hfold : ∀ (objects : ObjectMap K) (s : Dict ContainerLocation (Dict (ObjectID K) Bytes)),
      (s.map Prod.fst).Nodup → (∀ x ∈ s, (x.2.map Prod.fst).Nodup) →
      ((objects.foldl storeAt s).map Prod.fst).Nodup ∧
        ∀ x ∈ objects.foldl storeAt s, (x.2.map Prod.fst).Nodup := by
    intro objects
    induction objects with
    | nil => exact fun s h₁ h₂ => ⟨h₁, h₂⟩
    | cons x rest ih =>
      intro s h₁ h₂
      refine ih _ (nodup_put h₁ fun r hr => hr) fun y hy => ?_
      rcases mem_put.mp hy with ⟨hy, -⟩ | ⟨a, ha, -, rfl⟩ | ⟨rfl, -⟩
      · exact h₂ y hy
      · exact hset _ _ (h₂ a ha)
      · exact hset [] _ (by simp)
  obtain ⟨h₁, h₂⟩ := hfold objects m.storage h.locations h.keys
  exact ⟨h₁, h₂⟩

/-! ## Invalidation -/

theorem mem_objectToDelete {paths : List ModelPath} {additional : List (ObjectsToInvalidate K)}
    {e : DependencyEntry K} :
    e ∈ m.objectToDelete paths additional ↔ m.view.Selected paths additional e := by
  simp only [objectToDelete, List.mem_append, List.mem_flatMap, StorageView.Selected, view,
    dependenciesOf, Set.mem_ofPred_eq]
  exact or_comm

theorem mem_invalidated (h : m.WellFormed) {paths : List ModelPath}
    {additional : List (ObjectsToInvalidate K)} {x : ContainerLocation × ObjectID K} :
    x ∈ (m.invalidate paths additional).2 ↔ m.view.Invalidated paths additional x := by
  obtain ⟨location, k⟩ := x
  simp only [invalidate, List.mem_flatMap, List.mem_map, List.mem_filter, List.any_eq_true,
    mem_objectToDelete, StorageView.Invalidated]
  constructor
  · rintro ⟨⟨l, objects⟩, hmem, ⟨k', b⟩, ⟨hb, he⟩, heq⟩
    simp only [Prod.mk.injEq] at heq
    obtain ⟨rfl, rfl⟩ := heq
    refine ⟨⟨b, ?_⟩, he⟩
    simp [view, objectsOf, (lookup_eq_some_iff h.locations).mpr hmem, hb]
  · rintro ⟨⟨b, hb⟩, he⟩
    cases hl : m.storage.lookup location with
    | none => simp [view, objectsOf, hl] at hb
    | some objects =>
      simp only [view, objectsOf, hl, Set.mem_ofPred_eq, Option.getD_some] at hb
      exact ⟨(location, objects), (lookup_eq_some_iff h.locations).mp hl, (k, b), ⟨hb, he⟩, rfl⟩

/-- The change of the model deletes the invalidated objects and the entries of the
changed paths. -/
theorem view_invalidate (m : MemoryStorage K) (paths : List ModelPath)
    (additional : List (ObjectsToInvalidate K)) :
    (m.invalidate paths additional).1.view =
      ⟨m.view.remaining paths additional, {x | x ∈ m.view.dependencies ∧ x.2 ∉ paths}⟩ := by
  simp only [view, invalidate, StorageView.mk.injEq]
  constructor
  · ext ⟨location, k, b⟩
    simp only [objectsOf, Set.mem_ofPred_eq, StorageView.remaining, StorageView.Invalidated]
    rw [lookup_map (by intro x; rfl)]
    cases hl : m.storage.lookup location with
    | none => simp
    | some objects =>
      simp only [Option.map_some, Option.getD_some, List.mem_filter, Bool.not_eq_true',
        List.any_eq_false, mem_objectToDelete]
      constructor
      · rintro ⟨hb, hnone⟩
        exact ⟨hb, fun ⟨_, e, he, hc⟩ => hnone e he hc⟩
      · rintro ⟨hb, hnone⟩
        exact ⟨hb, fun e he hc => hnone ⟨⟨b, by simpa [hl] using hb⟩, e, he, hc⟩⟩
  · ext ⟨e, p⟩
    simp only [dependenciesOf, Set.mem_ofPred_eq]
    rw [lookup_filter (p := fun p => !paths.contains p)]
    by_cases hp : p ∈ paths
    · simp [hp]
    · simp [hp]

theorem WellFormed.invalidate (h : m.WellFormed) (paths : List ModelPath)
    (additional : List (ObjectsToInvalidate K)) : (m.invalidate paths additional).1.WellFormed := by
  constructor
  · simp only [MemoryStorage.invalidate, List.map_map]
    exact h.locations
  · intro x hx
    obtain ⟨⟨l, objects⟩, hmem, rfl⟩ := List.mem_map.mp hx
    exact (h.keys _ hmem).sublist (List.filter_sublist.map _)

theorem view_pruneObjects (m : MemoryStorage K) : m.pruneObjects.view = StorageView.empty := by
  simp [pruneObjects, view, objectsOf, dependenciesOf, StorageView.empty]

theorem WellFormed.pruneObjects (m : MemoryStorage K) : m.pruneObjects.WellFormed := by
  constructor <;> simp [MemoryStorage.pruneObjects]

end MemoryStorage

end Pypeline
