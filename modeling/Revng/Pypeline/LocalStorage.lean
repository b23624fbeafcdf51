import Revng.Lib.KeyedTable
import Revng.Pypeline.Storage

/-!
# The storage provider on disk

`LocalStorageProvider` keeps tables of a database, with object identifiers as strings
of bytes.  A change of the model first selects the objects to delete, then deletes the
dependencies that start at one of them, and then the objects.
-/

namespace Pypeline

open KeyedTable

variable {K : KindLayout}

/-! ## The tables -/

/-- A row of the table `objects`. -/
structure LocalObject where
  savepointId : SavepointID
  containerId : ContainerID
  configurationHash : ConfigurationId
  objectId : ObjectKey
  content : Bytes
deriving DecidableEq, Repr

/-- A row of the table `dependencies`, which is its own primary key. -/
structure LocalDependency where
  savepointIdStart : SavepointID
  savepointIdEnd : SavepointID
  containerId : ContainerID
  configurationHash : ConfigurationId
  objectId : ObjectKey
  modelPath : ModelPath
deriving DecidableEq, Repr

/-- A row of the table `custom_dependencies`. -/
structure LocalCustomDependency where
  pipeId : Nat
  configurationHash : ConfigurationId
  argumentIndex : Nat
  objectId : ObjectKey
  data : Bytes
deriving DecidableEq, Repr

def LocalObject.location (o : LocalObject) : ContainerLocation :=
  ⟨o.savepointId, o.containerId, o.configurationHash⟩

/-- The primary key of `objects`. -/
def LocalObject.key (o : LocalObject) : ContainerLocation × ObjectKey := (o.location, o.objectId)

/-- The primary key of `custom_dependencies`. -/
def LocalCustomDependency.key (c : LocalCustomDependency) : Nat × ConfigurationId :=
  (c.pipeId, c.configurationHash)

/-- The condition of the second query of `INVALIDATE_QUERY` on a dependency and an
invalidated object. -/
def LocalDependency.startsAt (d : LocalDependency) (o : LocalObject) : Bool :=
  d.savepointIdStart == o.savepointId && d.containerId == o.containerId &&
    d.configurationHash == o.configurationHash && d.objectId == o.objectId

structure LocalStorage where
  objects : List LocalObject
  dependencies : List LocalDependency
  customDependencies : List LocalCustomDependency
deriving DecidableEq, Repr

def objectRow (x : ContainerLocation × ObjectID K × Bytes) : LocalObject :=
  ⟨x.1.savepointId, x.1.containerId, x.1.configurationId, x.2.1.toBytes, x.2.2⟩

def dependencyRow (x : DependencyEntry K × ModelPath) : LocalDependency :=
  ⟨x.1.savepointStart, x.1.savepointEnd, x.1.containerId, x.1.configurationId,
    x.1.objectId.toBytes, x.2⟩

def customDependencyRows (d : PipeDependencies K) : List LocalCustomDependency :=
  d.customInvalidation.zipIdx.flatMap fun (containerData, index) =>
    containerData.map fun (object, data) =>
      ⟨d.pipeId, d.configuration, index, object.toBytes, data⟩

namespace LocalStorage

def empty : LocalStorage := ⟨[], [], []⟩

/-! ## The provider -/

/-- The rows that `HAS_QUERY` and `GET_QUERY` return. -/
def select (s : LocalStorage) (location : ContainerLocation) (keys : List (ObjectID K)) :
    List LocalObject :=
  s.objects.filter fun o => o.location == location && (keys.map (·.toBytes)).contains o.objectId

def has (s : LocalStorage) (location : ContainerLocation) (keys : List (ObjectID K)) :
    List (ObjectID K) :=
  if keys.length = 0 then []
  else (s.select location keys).filterMap fun o => ObjectID.fromBytes K o.objectId

def get (s : LocalStorage) (location : ContainerLocation) (keys : List (ObjectID K)) :
    List (ObjectID K × Bytes) :=
  if keys.length = 0 then []
  else (s.select location keys).filterMap fun o =>
    (ObjectID.fromBytes K o.objectId).map fun k => (k, o.content)

/-- `check_object_id_supported_by_sql` fails for a rank of two and above, and the
transaction is then rolled back. -/
def addObjects (s : LocalStorage) (dependencies : List (PipeDependencies K))
    (objects : ObjectMap K) : Except StorageError LocalStorage :=
  if dependencies.any fun d => d.dependencies.any fun (_, object, _) => object.rank ≥ 2 then
    .error .notImplemented
  else
    .ok {
      dependencies := putAll id (fun _ new => new)
        ((dependencies.flatMap PipeDependencies.entries).map dependencyRow) s.dependencies
      customDependencies := putAll LocalCustomDependency.key (fun _ new => new)
        (dependencies.flatMap customDependencyRows) s.customDependencies
      objects := putAll LocalObject.key (fun _ new => new)
        ((StorageView.items objects).map objectRow) s.objects }

/-- What the invalidation query looks at of a dependency and of an additional object. -/
structure Range where
  savepointIdStart : SavepointID
  savepointIdEnd : SavepointID
  configurationHash : ConfigurationId
  objectId : ObjectKey
deriving DecidableEq, Repr

def entryRange (e : DependencyEntry K) : Range :=
  ⟨e.savepointStart, e.savepointEnd, e.configurationId, e.objectId.toBytes⟩

def ranges (s : LocalStorage) (paths : List ModelPath)
    (additional : List (ObjectsToInvalidate K)) : List Range :=
  ((s.dependencies.filter fun d => paths.contains d.modelPath).map fun d =>
      ⟨d.savepointIdStart, d.savepointIdEnd, d.configurationHash, d.objectId⟩) ++
    (additional.flatMap ObjectsToInvalidate.entries).map entryRange

/-- The condition of the first query of `INVALIDATE_QUERY`. -/
def Range.hits (r : Range) (o : LocalObject) : Bool :=
  keyInvalidatedBy r.objectId o.objectId && o.configurationHash == r.configurationHash &&
    decide (r.savepointIdStart ≤ o.savepointId) && decide (o.savepointId ≤ r.savepointIdEnd)

def isInvalidated (s : LocalStorage) (paths : List ModelPath)
    (additional : List (ObjectsToInvalidate K)) (o : LocalObject) : Bool :=
  (s.ranges paths additional).any (·.hits o)

/-- The state after `_invalidate`, and the invalidated objects. -/
def invalidate (s : LocalStorage) (paths : List ModelPath)
    (additional : List (ObjectsToInvalidate K)) :
    LocalStorage × List (ContainerLocation × ObjectID K) :=
  if paths.length = 0 ∧ additional.length = 0 then (s, [])
  else
    let invalidated := s.objects.filter (s.isInvalidated paths additional)
    ({ s with
        dependencies := s.dependencies.filter fun d => !invalidated.any d.startsAt
        objects := s.objects.filter fun o => !s.isInvalidated paths additional o },
      invalidated.filterMap fun o =>
        (ObjectID.fromBytes K o.objectId).map fun k => (o.location, k))

def pruneObjects (_ : LocalStorage) : LocalStorage := ⟨[], [], []⟩

/-- One operation, with the state after it. -/
def step (s : LocalStorage) : StorageOp K → LocalStorage × Response K
  | .has location keys => (s, .objects (s.has location keys))
  | .get location keys => (s, .contents (s.get location keys))
  | .addObjects dependencies objects =>
      match s.addObjects dependencies objects with
      | .ok s' => (s', .done)
      | .error e => (s, .error e)
  | .setModel paths additional =>
      let (s', invalidated) := s.invalidate paths additional
      (s', .invalidated invalidated)
  | .pruneObjects => (s.pruneObjects, .done)

/-! ## What the provider holds -/

/-- The objects and dependencies that have a row. -/
def view (K : KindLayout) (s : LocalStorage) : StorageView K :=
  ⟨{x | objectRow x ∈ s.objects}, {x | dependencyRow x ∈ s.dependencies}⟩

/-- Every dependency is the row of an entry that the queries support. -/
def Supported (K : KindLayout) (s : LocalStorage) : Prop :=
  ∀ d ∈ s.dependencies, ∃ x : DependencyEntry K × ModelPath,
    dependencyRow x = d ∧ x.1.objectId.rank ≤ 1

theorem view_empty : empty.view K = StorageView.empty := by
  simp [empty, view, StorageView.empty]

theorem Supported.empty : Supported K LocalStorage.empty := by
  simp [Supported, LocalStorage.empty]

theorem objectRow_key {x y : ContainerLocation × ObjectID K × Bytes} :
    (objectRow x).key = (objectRow y).key ↔ (x.1, x.2.1) = (y.1, y.2.1) := by
  simp only [LocalObject.key, LocalObject.location, objectRow, Prod.mk.injEq]
  exact and_congr_right fun _ => ⟨fun h => ObjectID.toBytes_injective h, fun h => by rw [h]⟩

theorem objectRow_injective :
    Function.Injective (objectRow : ContainerLocation × ObjectID K × Bytes → LocalObject) := by
  intro x y h
  have hkey := objectRow_key.mp (congrArg LocalObject.key h)
  simp only [Prod.mk.injEq] at hkey
  have hcontent : x.2.2 = y.2.2 := congrArg LocalObject.content h
  exact Prod.ext hkey.1 (Prod.ext hkey.2 hcontent)

theorem dependencyRow_injective :
    Function.Injective (dependencyRow : DependencyEntry K × ModelPath → LocalDependency) := by
  rintro ⟨⟨s, e, c, h, o⟩, p⟩ ⟨⟨s', e', c', h', o'⟩, p'⟩ heq
  simp only [dependencyRow, LocalDependency.mk.injEq] at heq
  obtain ⟨rfl, rfl, rfl, rfl, ho, rfl⟩ := heq
  rw [ObjectID.toBytes_injective ho]

/-- A row that holds the bytes of an identifier is the row of an object. -/
theorem objectRow_of_toBytes {o : LocalObject} {k : ObjectID K} (h : k.toBytes = o.objectId) :
    objectRow (o.location, k, o.content) = o := by
  cases o
  simp only at h
  subst h
  rfl

variable {s : LocalStorage}

variable {location : ContainerLocation} {keys : List (ObjectID K)}

theorem mem_select {k : ObjectID K} {b : Bytes} :
    (∃ o ∈ s.select location keys, k.toBytes = o.objectId ∧ o.content = b) ↔
      k ∈ keys ∧ (location, k, b) ∈ (s.view K).objects := by
  simp only [select, List.mem_filter, Bool.and_eq_true, beq_iff_eq, List.contains_iff_mem,
    List.mem_map, view, Set.mem_ofPred_eq]
  constructor
  · rintro ⟨o, ⟨ho, rfl, k', hk', hbytes⟩, hk, rfl⟩
    obtain rfl : k' = k := ObjectID.toBytes_injective (hbytes.trans hk.symm)
    exact ⟨hk', by rw [objectRow_of_toBytes hk]; exact ho⟩
  · rintro ⟨hk, hrow⟩
    exact ⟨_, ⟨hrow, rfl, k, hk, rfl⟩, rfl, rfl⟩

theorem mem_has {k : ObjectID K} :
    k ∈ s.has location keys ↔ k ∈ keys ∧ ∃ b, (location, k, b) ∈ (s.view K).objects := by
  unfold has
  split
  next hempty => simp [List.length_eq_zero_iff.mp hempty]
  · simp only [List.mem_filterMap, ObjectID.fromBytes_eq_some_iff]
    constructor
    · rintro ⟨o, ho, hk⟩
      obtain ⟨hmem, hrow⟩ := mem_select.mp ⟨o, ho, hk, rfl⟩
      exact ⟨hmem, _, hrow⟩
    · rintro ⟨hk, b, hrow⟩
      obtain ⟨o, ho, hbytes, -⟩ := mem_select.mpr ⟨hk, hrow⟩
      exact ⟨o, ho, hbytes⟩

theorem mem_get {x : ObjectID K × Bytes} :
    x ∈ s.get location keys ↔ x.1 ∈ keys ∧ (location, x) ∈ (s.view K).objects := by
  obtain ⟨k, b⟩ := x
  unfold get
  split
  next hempty => simp [List.length_eq_zero_iff.mp hempty]
  · simp only [List.mem_filterMap, Option.map_eq_some_iff, ObjectID.fromBytes_eq_some_iff,
      Prod.mk.injEq]
    rw [← mem_select]
    constructor
    · rintro ⟨o, ho, k', hk', rfl, rfl⟩
      exact ⟨o, ho, hk', rfl⟩
    · rintro ⟨o, ho, hk, rfl⟩
      exact ⟨o, ho, k, hk, rfl, rfl⟩

/-! ## Storing -/

theorem objects_putAll (items : List (ContainerLocation × ObjectID K × Bytes)) :
    ∀ rows : List LocalObject,
      {x : ContainerLocation × ObjectID K × Bytes |
        objectRow x ∈ putAll LocalObject.key (fun _ new => new) (items.map objectRow) rows} =
      items.foldl StorageView.storeOne {x | objectRow x ∈ rows} := by
  induction items with
  | nil => exact fun _ => rfl
  | cons y rest ih =>
    intro rows
    have hone : {x : ContainerLocation × ObjectID K × Bytes |
        objectRow x ∈ put LocalObject.key (fun _ new => new) (objectRow y) rows} =
        StorageView.storeOne {x | objectRow x ∈ rows} y := by
      ext x
      simp only [Set.mem_ofPred_eq, mem_put_replace, StorageView.storeOne, ne_eq, objectRow_key,
        objectRow_injective.eq_iff]
    have hrest := ih (put LocalObject.key (fun _ new => new) (objectRow y) rows)
    rw [hone] at hrest
    exact hrest

theorem mem_putAll_id {α : Type} [DecidableEq α] {xs : List α} {r : α} :
    ∀ {rows : List α}, r ∈ putAll id (fun _ new => new) xs rows ↔ r ∈ rows ∨ r ∈ xs := by
  induction xs with
  | nil => simp [putAll]
  | cons x rest ih =>
    intro rows
    have hrest : r ∈ putAll id (fun _ new => new) (x :: rest) rows ↔
        r ∈ put id (fun _ new => new) x rows ∨ r ∈ rest := ih
    rw [hrest, mem_put_replace, List.mem_cons]
    by_cases hx : r = x
    · simp [hx]
    · simp [hx]

/-- What a successful `add_objects` does. -/
theorem addObjects_eq_ok {s' : LocalStorage} {dependencies : List (PipeDependencies K)}
    {objects : ObjectMap K} (h : s.addObjects dependencies objects = .ok s') :
    s'.view K = (s.view K).addObjects dependencies objects ∧
      (s.Supported K → s'.Supported K) := by
  unfold addObjects at h
  split at h
  · cases h
  next hrank =>
    cases h
    refine ⟨?_, fun hs d hd => ?_⟩
    · simp only [view, StorageView.addObjects, objects_putAll, mem_putAll_id, List.mem_map,
        List.mem_flatMap, dependencyRow_injective.eq_iff, exists_eq_right, Set.mem_ofPred_eq]
    · rcases mem_putAll_id.mp hd with hd | hd
      · exact hs d hd
      · obtain ⟨x, hx, rfl⟩ := List.mem_map.mp hd
        refine ⟨x, rfl, ?_⟩
        obtain ⟨dep, hdep, hx⟩ := List.mem_flatMap.mp hx
        obtain ⟨⟨c, o, p⟩, ho, rfl⟩ := List.mem_map.mp hx
        by_contra hlt
        refine hrank (List.any_eq_true.mpr ⟨dep, hdep, List.any_eq_true.mpr ⟨_, ho, ?_⟩⟩)
        have : ¬ o.rank ≤ 1 := hlt
        exact decide_eq_true (by omega)

/-- `add_objects` succeeds on the entries that the queries support. -/
theorem addObjects_ok {dependencies : List (PipeDependencies K)} {objects : ObjectMap K}
    (h : ∀ d ∈ dependencies, ∀ x ∈ d.dependencies, x.2.1.rank ≤ 1) :
    ∃ s', s.addObjects dependencies objects = .ok s' := by
  unfold addObjects
  rw [if_neg]
  · exact ⟨_, rfl⟩
  · intro hany
    obtain ⟨d, hd, hany⟩ := List.any_eq_true.mp hany
    obtain ⟨⟨c, o, p⟩, hx, hrank⟩ := List.any_eq_true.mp hany
    have h₁ : o.rank ≤ 1 := h d hd _ hx
    have h₂ : o.rank ≥ 2 := of_decide_eq_true hrank
    omega

/-! ## Invalidation -/

theorem hits_entryRange {e : DependencyEntry K} (he : e.objectId.rank ≤ 1)
    (x : ContainerLocation × ObjectID K × Bytes) :
    (entryRange e).hits (objectRow x) = e.covers x.1 x.2.1 := by
  simp only [Range.hits, entryRange, objectRow, DependencyEntry.covers,
    ObjectID.keyInvalidatedBy_eq_isRelated he]
  ac_rfl

variable {additional : List (ObjectsToInvalidate K)}

variable {paths : List ModelPath}

/-- Every range comes from a selected entry that the queries support. -/
theorem mem_ranges (hs : s.Supported K) (ha : ∀ a ∈ additional, ∀ o ∈ a.objects, o.rank ≤ 1)
    {r : Range} :
    r ∈ s.ranges paths additional ↔
      ∃ e : DependencyEntry K, (s.view K).Selected paths additional e ∧
        e.objectId.rank ≤ 1 ∧ entryRange e = r := by
  simp only [ranges, List.mem_append, List.mem_map, List.mem_filter, List.contains_iff_mem,
    List.mem_flatMap, StorageView.Selected, view, Set.mem_ofPred_eq]
  constructor
  · rintro (⟨d, ⟨hd, hp⟩, rfl⟩ | ⟨e, ⟨a, ha', he⟩, rfl⟩)
    · obtain ⟨⟨e, p⟩, rfl, hrank⟩ := hs d hd
      exact ⟨e, Or.inl ⟨p, hp, hd⟩, hrank, rfl⟩
    · obtain ⟨o, ho, rfl⟩ := List.mem_map.mp he
      exact ⟨_, Or.inr ⟨a, ha', he⟩, ha a ha' o ho, rfl⟩
  · rintro ⟨e, (⟨p, hp, hd⟩ | ⟨a, ha', he⟩), hrank, rfl⟩
    · exact Or.inl ⟨_, ⟨hd, hp⟩, rfl⟩
    · exact Or.inr ⟨e, ⟨a, ha', he⟩, rfl⟩

theorem isInvalidated_iff (hs : s.Supported K) (ha : ∀ a ∈ additional, ∀ o ∈ a.objects, o.rank ≤ 1)
    {x : ContainerLocation × ObjectID K × Bytes} (hx : x ∈ (s.view K).objects) :
    s.isInvalidated paths additional (objectRow x) = true ↔
      (s.view K).Invalidated paths additional (x.1, x.2.1) := by
  simp only [isInvalidated, List.any_eq_true, mem_ranges hs ha, StorageView.Invalidated]
  constructor
  · rintro ⟨r, ⟨e, he, hrank, rfl⟩, hhit⟩
    exact ⟨⟨x.2.2, hx⟩, e, he, (hits_entryRange hrank x).symm.trans hhit⟩
  · rintro ⟨-, e, he, hc⟩
    have hrank : e.objectId.rank ≤ 1 := by
      rcases he with ⟨p, -, hd⟩ | ⟨a, ha', he⟩
      · obtain ⟨y, hy, hrank⟩ := hs _ hd
        rw [dependencyRow_injective hy] at hrank
        exact hrank
      · obtain ⟨o, ho, rfl⟩ := List.mem_map.mp he
        exact ha a ha' o ho
    exact ⟨_, ⟨e, he, hrank, rfl⟩, (hits_entryRange hrank x).trans hc⟩

/-- A change of the model that names nothing selects nothing. -/
theorem isInvalidated_nil (s : LocalStorage) (o : LocalObject) :
    s.isInvalidated (K := K) [] [] o = false := by
  simp [isInvalidated, ranges]

theorem mem_invalidated (hs : s.Supported K) (ha : ∀ a ∈ additional, ∀ o ∈ a.objects, o.rank ≤ 1)
    {x : ContainerLocation × ObjectID K} :
    x ∈ (s.invalidate paths additional).2 ↔ (s.view K).Invalidated paths additional x := by
  obtain ⟨location, k⟩ := x
  unfold invalidate
  split
  next hempty =>
    rw [List.length_eq_zero_iff.mp hempty.1, List.length_eq_zero_iff.mp hempty.2]
    simp [StorageView.Invalidated, StorageView.Selected]
  · simp only [List.mem_filterMap, List.mem_filter, Option.map_eq_some_iff,
      ObjectID.fromBytes_eq_some_iff, Prod.mk.injEq]
    constructor
    · rintro ⟨o, ⟨ho, hinv⟩, k', hk, rfl, rfl⟩
      have hrow := objectRow_of_toBytes hk
      have hx : (o.location, k', o.content) ∈ (s.view K).objects := by
        simpa only [view, Set.mem_ofPred_eq, hrow] using ho
      exact (isInvalidated_iff hs ha hx).mp (hrow.symm ▸ hinv)
    · intro hinv
      obtain ⟨b, hx⟩ := hinv.1
      exact ⟨_, ⟨hx, (isInvalidated_iff hs ha hx).mpr hinv⟩, k, rfl, rfl, rfl⟩

/-- The rows of the objects and of the dependencies after a change of the model. -/
theorem invalidate_rows (s : LocalStorage) (paths : List ModelPath)
    (additional : List (ObjectsToInvalidate K)) :
    (∀ o, o ∈ (s.invalidate paths additional).1.objects ↔
      o ∈ s.objects ∧ s.isInvalidated paths additional o = false) ∧
    (∀ d, d ∈ (s.invalidate paths additional).1.dependencies ↔
      d ∈ s.dependencies ∧
        ¬ ∃ o ∈ s.objects, s.isInvalidated paths additional o = true ∧ d.startsAt o = true) := by
  unfold invalidate
  split
  next hempty =>
    rw [List.length_eq_zero_iff.mp hempty.1, List.length_eq_zero_iff.mp hempty.2]
    simp [isInvalidated_nil]
  · simp only [List.mem_filter, Bool.not_eq_true', List.any_eq_false, not_exists, not_and,
      and_imp, implies_true, and_self]

theorem objects_invalidate (hs : s.Supported K)
    (ha : ∀ a ∈ additional, ∀ o ∈ a.objects, o.rank ≤ 1) :
    ((s.invalidate paths additional).1.view K).objects =
      (s.view K).remaining paths additional := by
  ext x
  simp only [StorageView.remaining, Set.mem_ofPred_eq]
  rw [show x ∈ ((s.invalidate paths additional).1.view K).objects ↔ _ from
    (invalidate_rows s paths additional).1 (objectRow x)]
  refine and_congr_right fun hx => ?_
  rw [← isInvalidated_iff hs ha (show x ∈ (s.view K).objects from hx), Bool.not_eq_true]

theorem Supported.invalidate (hs : s.Supported K) (paths : List ModelPath)
    (additional : List (ObjectsToInvalidate K)) :
    (s.invalidate paths additional).1.Supported K := fun d hd =>
  hs d (((invalidate_rows s paths additional).2 d).mp hd).1

theorem view_pruneObjects (s : LocalStorage) : s.pruneObjects.view K = StorageView.empty := by
  simp [pruneObjects, view, StorageView.empty]

end LocalStorage

end Pypeline
