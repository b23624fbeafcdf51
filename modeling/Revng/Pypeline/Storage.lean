import Mathlib.Data.List.Infix
import Mathlib.Data.Set.Insert
import Revng.Lib.PrefixCode

/-!
# Object identifiers

Objects form a tree.  The root is the whole binary, and every other object is named
by its parent, the kind of the object and a key whose size depends on the kind
alone.

The databases store an identifier as a string of bytes.  The root is the empty
string, and a child is its parent followed by the byte of its kind and by its key.
The descendants of an object are the strings that have its bytes as a prefix, and
the databases select them with a range of byte strings.  `keyInvalidatedBy` is that
selection.  On entries of rank at most one it is the relation `isRelated`
(`keyInvalidatedBy_eq_isRelated`).
-/

namespace Pypeline

open PrefixCode

/-! ## Bytes -/

/-- The bytes of an object identifier. -/
abbrev ObjectKey := List UInt8

/-- The largest number of bytes an object identifier takes. -/
def objectIdMaxSize : Nat := 17

/-- `_OBJECTID_MASK` -/
def objectIdMask : ObjectKey := List.replicate objectIdMaxSize 0xff

/-- The condition of the invalidation queries: `object` is `entry` or one of its
children, or it is the root and `entry` is not. -/
def keyInvalidatedBy (entry object : ObjectKey) : Bool :=
  (decide (entry ≤ object) && decide (object ≤ entry ++ objectIdMask)) ||
    (entry != [] && object == [])

/-! ## Identifiers -/

/-- The size in bytes of the key of every kind, the result of `Kind.byte_size`. -/
structure KindLayout where
  byteSize : UInt8 → Nat

/-- One step from a parent to a child. -/
structure Segment where
  kind : UInt8
  key : List UInt8
deriving DecidableEq, Repr

def Segment.toBytes (s : Segment) : List UInt8 := s.kind :: s.key

/-- The key has the size its kind prescribes. -/
def Segment.Fits (K : KindLayout) (s : Segment) : Prop := s.key.length = K.byteSize s.kind

instance (K : KindLayout) (s : Segment) : Decidable (s.Fits K) :=
  inferInstanceAs (Decidable (_ = _))

/-- An object identifier.  `check_kind_structure` makes sure that every identifier
takes at most `objectIdMaxSize` bytes. -/
structure ObjectID (K : KindLayout) where
  path : List Segment
  fits : ∀ s ∈ path, s.Fits K
  size_le : (path.flatMap Segment.toBytes).length ≤ objectIdMaxSize
deriving DecidableEq, Repr

/-- The root object of a layout. -/
def rootObject (K : KindLayout) : ObjectID K := ⟨[], by simp, by simp⟩

namespace ObjectID

variable {K : KindLayout}

theorem ext_path {a b : ObjectID K} (h : a.path = b.path) : a = b := by
  cases a
  cases b
  cases h
  rfl

/-- The rank of the kind of the object. -/
def rank (a : ObjectID K) : Nat := a.path.length

def toBytes (a : ObjectID K) : ObjectKey := a.path.flatMap Segment.toBytes

/-- The inner function of `is_related`: `target` or one of its ancestors is `source`.
The prefixes of a path are the object and its ancestors. -/
def isAncestor (source target : ObjectID K) : Bool :=
  target.path.inits.any (· == source.path)

def isRelated (a b : ObjectID K) : Bool := isAncestor a b || isAncestor b a

theorem isAncestor_iff {source target : ObjectID K} :
    isAncestor source target = true ↔ source.path <+: target.path := by
  simp [isAncestor, List.any_eq_true, List.mem_inits]

theorem delimited (K : KindLayout) : Delimited Segment.toBytes (Segment.Fits K) := by
  refine ⟨fun s _ => by simp [Segment.toBytes], fun s t x y hs ht h => ?_⟩
  simp only [Segment.toBytes, List.cons_append, List.cons.injEq] at h
  obtain ⟨hkind, hkey⟩ := h
  have hlen : s.key.length = t.key.length := by
    rw [hs, ht, hkind]
  obtain ⟨hkey, -⟩ := List.append_inj hkey hlen
  cases s
  cases t
  cases hkind
  cases hkey
  rfl

theorem toBytes_injective : Function.Injective (toBytes (K := K)) := fun a b h =>
  ext_path (flatMap_injective (delimited K) a.fits b.fits h)

theorem toBytes_prefix_iff {a b : ObjectID K} :
    a.toBytes <+: b.toBytes ↔ a.path <+: b.path :=
  flatMap_prefix_iff (delimited K) a.fits b.fits

theorem toBytes_eq_nil_iff {a : ObjectID K} : a.toBytes = [] ↔ a.path = [] := by
  simp only [toBytes, List.flatMap_eq_nil_iff]
  constructor
  · intro h
    rcases hp : a.path with _ | ⟨s, rest⟩
    · rfl
    · exact absurd (h s (by simp [hp])) (by simp [Segment.toBytes])
  · intro h
    simp [h]

/-- The range of the queries holds the object and its descendants. -/
theorem between_iff {a b : ObjectID K} :
    (a.toBytes ≤ b.toBytes ∧ b.toBytes ≤ a.toBytes ++ objectIdMask) ↔ a.path <+: b.path := by
  rw [← toBytes_prefix_iff, objectIdMask]
  have htop : ∀ x : UInt8, ¬ (0xff : UInt8) < x := by
    intro x hx
    have hx : (255 : Nat) < x.toNat := UInt8.lt_iff_toNat_lt.mp hx
    have := x.toNat_lt
    omega
  exact (prefix_iff_between htop (Nat.le_trans b.size_le (Nat.le_add_left _ _))).symm

/-- On entries of rank at most one the queries select the related objects. -/
theorem keyInvalidatedBy_eq_isRelated {entry object : ObjectID K} (h : entry.rank ≤ 1) :
    keyInvalidatedBy entry.toBytes object.toBytes = entry.isRelated object := by
  rw [Bool.eq_iff_iff]
  simp only [keyInvalidatedBy, isRelated, Bool.or_eq_true, Bool.and_eq_true, decide_eq_true_eq,
    between_iff, isAncestor_iff, bne_iff_ne, ne_eq, beq_iff_eq, toBytes_eq_nil_iff]
  constructor
  · rintro (hp | ⟨-, hroot⟩)
    · exact Or.inl hp
    · exact Or.inr (by simp [hroot])
  · rintro (hp | hp)
    · exact Or.inl hp
    · by_cases heq : object.path = entry.path
      · exact Or.inl (by simp [heq])
      · -- a proper ancestor of an entry of rank one is the root
        have hlt : object.path.length < entry.path.length := by
          rcases Nat.lt_or_ge object.path.length entry.path.length with hlt | hge
          · exact hlt
          · exact absurd (hp.eq_of_length_le hge) heq
        have hzero : object.path = [] := by
          apply List.eq_nil_of_length_eq_zero
          have : entry.path.length ≤ 1 := h
          omega
        refine Or.inr ⟨fun he => ?_, hzero⟩
        rw [he] at hlt
        simp at hlt

/-! ## Reading identifiers back -/

/-- Split a string of bytes into segments.  Every segment takes at least one byte, so
the length of the string is enough fuel. -/
def parsePath (K : KindLayout) : Nat → List UInt8 → Option (List Segment)
  | _, [] => some []
  | 0, _ :: _ => none
  | fuel + 1, kind :: rest =>
      if rest.length < K.byteSize kind then none
      else
        (parsePath K fuel (rest.drop (K.byteSize kind))).map
          (⟨kind, rest.take (K.byteSize kind)⟩ :: ·)

def fromBytes (K : KindLayout) (bytes : ObjectKey) : Option (ObjectID K) :=
  match parsePath K bytes.length bytes with
  | none => none
  | some path =>
      if h : (∀ s ∈ path, s.Fits K) ∧ (path.flatMap Segment.toBytes).length ≤ objectIdMaxSize then
        some ⟨path, h.1, h.2⟩
      else none

theorem parsePath_sound {fuel : Nat} {bytes : List UInt8} {path : List Segment}
    (h : parsePath K fuel bytes = some path) : path.flatMap Segment.toBytes = bytes := by
  induction fuel generalizing bytes path with
  | zero =>
    cases bytes with
    | nil =>
      simp only [parsePath, Option.some.injEq] at h
      simp [← h]
    | cons kind rest => simp [parsePath] at h
  | succ fuel ih =>
    cases bytes with
    | nil =>
      simp only [parsePath, Option.some.injEq] at h
      simp [← h]
    | cons kind rest =>
      simp only [parsePath] at h
      split at h
      · cases h
      · obtain ⟨tail, htail, rfl⟩ := Option.map_eq_some_iff.mp h
        simp [Segment.toBytes, ih htail]

theorem parsePath_complete {path : List Segment} (hfits : ∀ s ∈ path, s.Fits K) :
    ∀ {fuel : Nat}, (path.flatMap Segment.toBytes).length ≤ fuel →
      parsePath K fuel (path.flatMap Segment.toBytes) = some path := by
  induction path with
  | nil =>
    intro fuel _
    cases fuel <;> rfl
  | cons s rest ih =>
    intro fuel hfuel
    have hs : s.key.length = K.byteSize s.kind := hfits s (by simp)
    simp only [List.flatMap_cons, Segment.toBytes, List.cons_append, List.length_cons,
      List.length_append] at hfuel ⊢
    obtain _ | fuel := fuel
    · omega
    · have hrest := ih (fun t ht => hfits t (List.mem_cons_of_mem _ ht))
        (show (rest.flatMap Segment.toBytes).length ≤ fuel by omega)
      simp only [parsePath, List.length_append, ← hs, List.drop_left, List.take_left]
      rw [if_neg (by omega)]
      exact Option.map_eq_some_iff.mpr ⟨rest, hrest, rfl⟩

theorem fromBytes_eq_some_iff {bytes : ObjectKey} {a : ObjectID K} :
    fromBytes K bytes = some a ↔ a.toBytes = bytes := by
  unfold fromBytes
  constructor
  · intro h
    split at h
    · cases h
    next path hp =>
      split at h
      · cases h
        exact parsePath_sound hp
      · cases h
  · rintro rfl
    have hp : parsePath K a.toBytes.length a.toBytes = some a.path :=
      parsePath_complete a.fits (Nat.le_refl _)
    rw [hp]
    exact dif_pos ⟨a.fits, a.size_le⟩

end ObjectID

/-!
## The interface of a storage provider

A storage provider keeps the objects that the savepoints of a pipeline have produced,
together with the dependencies of the pipes that produced them.  A dependency says
that an object, computed by a pipe under some configuration, relies on a path of the
model, and that the objects of a range of savepoints come from it.  When the model
changes, the provider deletes the objects whose dependencies name a changed path.

`StorageView` is what a provider holds, as sets.  Every provider is compared with it.
-/

abbrev SavepointID := Nat
abbrev ContainerID := String
abbrev ConfigurationId := String
abbrev ModelPath := String
abbrev Bytes := List UInt8

/-! ## Arguments and results -/

structure ContainerLocation where
  savepointId : SavepointID
  containerId : ContainerID
  configurationId : ConfigurationId
deriving DecidableEq, Repr

/-- A range of savepoints with inclusive extremes. -/
structure SavePointsRange where
  start : SavepointID
  stop : SavepointID
deriving DecidableEq, Repr

variable {K : KindLayout}

structure DependencyEntry (K : KindLayout) where
  savepointStart : SavepointID
  savepointEnd : SavepointID
  containerId : ContainerID
  configurationId : ConfigurationId
  objectId : ObjectID K
deriving DecidableEq, Repr

structure PipeDependencies (K : KindLayout) where
  pipeId : Nat
  savepointsRange : SavePointsRange
  configuration : ConfigurationId
  dependencies : List (ContainerID × ObjectID K × ModelPath)
  customInvalidation : List (List (ObjectID K × Bytes))
deriving DecidableEq, Repr

def PipeDependencies.hasCustomInvalidation (d : PipeDependencies K) : Bool :=
  !d.customInvalidation.all (·.length == 0)

/-- The entries a provider records for the dependencies of a pipe. -/
def PipeDependencies.entries (d : PipeDependencies K) : List (DependencyEntry K × ModelPath) :=
  d.dependencies.map fun (container, object, path) =>
    (⟨d.savepointsRange.start, d.savepointsRange.stop, container, d.configuration, object⟩, path)

structure ObjectsToInvalidate (K : KindLayout) where
  savepointRange : SavePointsRange
  containerId : ContainerID
  configurationId : ConfigurationId
  objects : List (ObjectID K)
deriving DecidableEq, Repr

/-- An object to invalidate, in the shape of a dependency. -/
def ObjectsToInvalidate.entries (a : ObjectsToInvalidate K) : List (DependencyEntry K) :=
  a.objects.map fun object =>
    ⟨a.savepointRange.start, a.savepointRange.stop, a.containerId, a.configurationId, object⟩

/-- The objects of `add_objects`: a mapping from locations to mappings. -/
abbrev ObjectMap (K : KindLayout) := List (ContainerLocation × List (ObjectID K × Bytes))

inductive StorageOp (K : KindLayout) where
  | has (location : ContainerLocation) (keys : List (ObjectID K))
  | get (location : ContainerLocation) (keys : List (ObjectID K))
  | addObjects (dependencies : List (PipeDependencies K)) (objects : ObjectMap K)
  | setModel (changedPaths : List ModelPath) (customInvalidations : List (ObjectsToInvalidate K))
  | pruneObjects
deriving DecidableEq, Repr

inductive StorageError where
  | keyError
  | notImplemented
deriving DecidableEq, Repr

inductive Response (K : KindLayout) where
  | objects (keys : List (ObjectID K))
  | contents (items : List (ObjectID K × Bytes))
  | invalidated (items : List (ContainerLocation × ObjectID K))
  | done
  | error (e : StorageError)
deriving DecidableEq, Repr

/-- The same result: sets and mappings have no order. -/
def Response.Agree : Response K → Response K → Prop
  | .objects a, .objects b => ∀ k, k ∈ a ↔ k ∈ b
  | .contents a, .contents b => ∀ x, x ∈ a ↔ x ∈ b
  | .invalidated a, .invalidated b => ∀ x, x ∈ a ↔ x ∈ b
  | .done, .done => True
  | .error e, .error e' => e = e'
  | _, _ => False

/-! ## What a provider holds -/

/-- An object at `location` comes from the entry: its savepoint is in the range, the
configuration is the same, and the object is the one of the entry, a parent or a
child. -/
def DependencyEntry.covers (e : DependencyEntry K) (location : ContainerLocation)
    (object : ObjectID K) : Bool :=
  decide (e.savepointStart ≤ location.savepointId) &&
    decide (location.savepointId ≤ e.savepointEnd) &&
    location.configurationId == e.configurationId && e.objectId.isRelated object

structure StorageView (K : KindLayout) where
  objects : Set (ContainerLocation × ObjectID K × Bytes)
  dependencies : Set (DependencyEntry K × ModelPath)

namespace StorageView

def empty : StorageView K := ⟨∅, ∅⟩

/-- One object stored over the one that has its name. -/
def storeOne (objects : Set (ContainerLocation × ObjectID K × Bytes))
    (x : ContainerLocation × ObjectID K × Bytes) : Set (ContainerLocation × ObjectID K × Bytes) :=
  {y | (y ∈ objects ∧ (y.1, y.2.1) ≠ (x.1, x.2.1)) ∨ y = x}

/-- The objects of a mapping, in the order they are stored. -/
def items (objects : ObjectMap K) : List (ContainerLocation × ObjectID K × Bytes) :=
  objects.flatMap fun (location, objects) => objects.map fun (k, b) => (location, k, b)

def addObjects (v : StorageView K) (dependencies : List (PipeDependencies K))
    (objects : ObjectMap K) : StorageView K where
  objects := (items objects).foldl storeOne v.objects
  dependencies := {x | x ∈ v.dependencies ∨ ∃ d ∈ dependencies, x ∈ d.entries}

/-- The entries whose objects are deleted. -/
def Selected (v : StorageView K) (paths : List ModelPath)
    (additional : List (ObjectsToInvalidate K)) (e : DependencyEntry K) : Prop :=
  (∃ p ∈ paths, (e, p) ∈ v.dependencies) ∨ ∃ a ∈ additional, e ∈ a.entries

/-- The object is stored and covered by a selected entry. -/
def Invalidated (v : StorageView K) (paths : List ModelPath)
    (additional : List (ObjectsToInvalidate K)) (x : ContainerLocation × ObjectID K) : Prop :=
  (∃ b, (x.1, x.2, b) ∈ v.objects) ∧ ∃ e, v.Selected paths additional e ∧ e.covers x.1 x.2 = true

/-- The objects that a change of the model leaves. -/
def remaining (v : StorageView K) (paths : List ModelPath)
    (additional : List (ObjectsToInvalidate K)) : Set (ContainerLocation × ObjectID K × Bytes) :=
  {x | x ∈ v.objects ∧ ¬ v.Invalidated paths additional (x.1, x.2.1)}

end StorageView

end Pypeline
