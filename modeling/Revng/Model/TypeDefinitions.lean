import Mathlib.Data.Finset.Card
import Revng.Lib.KeyedTable
import Revng.Naming.ReservedWords

/-!
# Type definitions and their references

The definitions of the model have keys, and a type refers to a definition by its key.  A type is a
chain of arrays and pointers that ends in such a reference, in a primitive, or in nothing.
-/

namespace Model

open Naming (PrimitiveKind)

/-! ## Sorted vectors -/

/-- The elements of a `SortedVector` with their keys. -/
structure KeyedVector (α : Type) where
  entries : List (ℕ × α)
  sorted : (entries.map Prod.fst).Pairwise (· < ·)

namespace KeyedVector

variable {α : Type}

def keys (v : KeyedVector α) : List ℕ := v.entries.map Prod.fst

def find (v : KeyedVector α) (key : ℕ) : Option α := v.entries.lookup key

/-- The elements are changed in place. -/
def modify (f : ℕ → α → α) (v : KeyedVector α) : KeyedVector α where
  entries := v.entries.map fun x => (x.1, f x.1 x.2)
  sorted := by
    rw [List.map_map]
    exact v.sorted

def eraseIf (p : ℕ → Bool) (v : KeyedVector α) : KeyedVector α where
  entries := v.entries.filter fun x => !p x.1
  sorted := v.sorted.sublist (List.filter_sublist.map Prod.fst)

/-- The keys are counted up from zero. -/
def reindex (v : KeyedVector α) : KeyedVector α where
  entries := v.entries.zipIdx.map fun x => (x.2, x.1.2)
  sorted := by
    rw [List.map_map, show Prod.fst ∘ (fun x : (ℕ × α) × ℕ => (x.2, x.1.2)) = Prod.snd from rfl,
      List.zipIdx_map_snd]
    exact List.pairwise_lt_range'

variable {v : KeyedVector α} {key : ℕ} {x : α}

theorem nodup (v : KeyedVector α) : (v.entries.map Prod.fst).Nodup :=
  v.sorted.imp fun h => h.ne

theorem find_eq_some : v.find key = some x ↔ (key, x) ∈ v.entries :=
  KeyedTable.lookup_eq_some_iff v.nodup

theorem eq_of_mem {y : α} (hx : (key, x) ∈ v.entries) (hy : (key, y) ∈ v.entries) : x = y :=
  Option.some.inj ((find_eq_some.2 hx).symm.trans (find_eq_some.2 hy))

theorem mem_keys : key ∈ v.keys ↔ ∃ x, (key, x) ∈ v.entries := by
  simp [keys]

theorem isSome_find : (v.find key).isSome ↔ key ∈ v.keys := by
  rw [Option.isSome_iff_exists, mem_keys]
  exact exists_congr fun x => find_eq_some

@[simp] theorem keys_modify (f : ℕ → α → α) : (v.modify f).keys = v.keys := by
  simp [keys, modify]

theorem mem_modify {f : ℕ → α → α} {y : α} :
    (key, y) ∈ (v.modify f).entries ↔ ∃ x, (key, x) ∈ v.entries ∧ f key x = y := by
  simp [modify]

theorem find_modify (f : ℕ → α → α) : (v.modify f).find key = (v.find key).map (f key) :=
  KeyedTable.lookup_map (f := fun x => (x.1, f x.1 x.2)) (fun _ => rfl) key

theorem modify_modify (f g : ℕ → α → α) :
    (v.modify f).modify g = v.modify fun key x => g key (f key x) := by
  simp [modify]

@[simp] theorem mem_eraseIf {p : ℕ → Bool} :
    (key, x) ∈ (v.eraseIf p).entries ↔ (key, x) ∈ v.entries ∧ p key = false := by
  simp [eraseIf]

theorem keys_eraseIf {p : ℕ → Bool} : key ∈ (v.eraseIf p).keys ↔ key ∈ v.keys ∧ p key = false := by
  simp [mem_keys]

/-- The elements are numbered consecutively from zero. -/
def IsDense (v : KeyedVector α) : Prop := v.keys = List.range v.entries.length

theorem isDense_reindex (v : KeyedVector α) : v.reindex.IsDense := by
  simp only [IsDense, keys, reindex, List.map_map, List.length_map, List.length_zipIdx]
  rw [show Prod.fst ∘ (fun x : (ℕ × α) × ℕ => (x.2, x.1.2)) = Prod.snd from rfl,
    List.zipIdx_map_snd, List.range_eq_range']

theorem map_snd_reindex (v : KeyedVector α) :
    v.reindex.entries.map Prod.snd = v.entries.map Prod.snd := by
  rw [reindex, List.map_map,
    show Prod.snd ∘ (fun x : (ℕ × α) × ℕ => (x.2, x.1.2)) = Prod.snd ∘ Prod.fst from rfl,
    ← List.map_map, List.zipIdx_map_fst]

end KeyedVector

/-! ## Types -/

/-- A `model::Type`, or an `UpcastableType` that holds none. -/
inductive UpcastableType where
  | empty
  | primitive (isConst : Bool) (primitiveKind : PrimitiveKind) (size : ℕ)
  | defined (isConst : Bool) (definition : ℕ)
  | array (isConst : Bool) (elementCount : ℕ) (elementType : UpcastableType)
  | pointer (isConst : Bool) (pointerSize : ℕ) (pointeeType : UpcastableType)
  deriving DecidableEq

namespace UpcastableType

def makeVoid : UpcastableType := .primitive false .void 0

/-- The `ReferencedDefinition` of a `ResolvedTypeReference`. -/
def referencedDefinition : UpcastableType → Option ℕ
  | .defined _ d => some d
  | .array _ _ t | .pointer _ _ t => t.referencedDefinition
  | _ => none

/-- A `ResolvedTypeReference` has an `EnclosingPointer`. -/
def crossesPointer : UpcastableType → Bool
  | .pointer _ _ _ => true
  | .array _ _ t => t.crossesPointer
  | _ => false

/-- The `EnclosingPointer`, the innermost one, gets `void` as its pointee. -/
def voidPointee : UpcastableType → UpcastableType
  | .pointer c size t =>
      if t.crossesPointer then .pointer c size t.voidPointee else .pointer c size makeVoid
  | .array c count t => .array c count t.voidPointee
  | t => t

/-- The definition that the type contains, not through a pointer. -/
def byValue (t : UpcastableType) : Option ℕ :=
  if t.crossesPointer then none else t.referencedDefinition

variable {t : UpcastableType} {d : ℕ}

theorem voidPointee_of_not_crossesPointer (h : t.crossesPointer = false) : t.voidPointee = t := by
  induction t with
  | array c count t ih => rw [voidPointee, ih h]
  | pointer => simp [crossesPointer] at h
  | _ => rfl

theorem referencedDefinition_voidPointee (h : t.crossesPointer) :
    t.voidPointee.referencedDefinition = none := by
  induction t with
  | array c count t ih => exact ih h
  | pointer c size t ih =>
    rw [voidPointee]
    split_ifs with ht
    · exact ih ht
    · rfl
  | _ => simp [crossesPointer] at h

theorem byValue_eq_some :
    t.byValue = some d ↔ t.referencedDefinition = some d ∧ t.crossesPointer = false := by
  rw [byValue]
  split_ifs with h <;> simp [h]

end UpcastableType

/-! ## Definitions -/

inductive TypeDefinition where
  | structDefinition (fields : KeyedVector UpcastableType)
  | unionDefinition (fields : KeyedVector UpcastableType)
  | enumDefinition (underlyingType : UpcastableType)
  | typedefDefinition (underlyingType : UpcastableType)
  | rawFunctionDefinition (arguments returnValues : List UpcastableType)
      (stackArgumentsType : UpcastableType)
  | cabiFunctionDefinition (arguments : List UpcastableType) (returnType : UpcastableType)

def numbered (types : List UpcastableType) : List (ℕ × UpcastableType) :=
  types.zipIdx.map Prod.swap

namespace TypeDefinition

/-- The types in a definition with their places: the offset of a field in a struct, its index in an
union, else the position. -/
def references : TypeDefinition → List (ℕ × UpcastableType)
  | .structDefinition fields | .unionDefinition fields => fields.entries
  | .enumDefinition t | .typedefDefinition t => numbered [t]
  | .rawFunctionDefinition arguments returnValues stackArgumentsType =>
      numbered (arguments ++ returnValues ++ [stackArgumentsType])
  | .cabiFunctionDefinition arguments returnType => numbered (arguments ++ [returnType])

/-- The types in a definition are changed in place. -/
def modify (f : ℕ → UpcastableType → UpcastableType) : TypeDefinition → TypeDefinition
  | .structDefinition fields => .structDefinition (fields.modify f)
  | .unionDefinition fields => .unionDefinition (fields.modify f)
  | .enumDefinition t => .enumDefinition (f 0 t)
  | .typedefDefinition t => .typedefDefinition (f 0 t)
  | .rawFunctionDefinition arguments returnValues stackArgumentsType =>
      .rawFunctionDefinition (arguments.mapIdx f)
        (returnValues.mapIdx fun i => f (i + arguments.length))
        (f (returnValues.length + arguments.length) stackArgumentsType)
  | .cabiFunctionDefinition arguments returnType =>
      .cabiFunctionDefinition (arguments.mapIdx f) (f arguments.length returnType)

def isFunction : TypeDefinition → Bool
  | .rawFunctionDefinition _ _ _ | .cabiFunctionDefinition _ _ => true
  | _ => false

/-- The definition has fields, which can be removed without it. -/
def hasFields : TypeDefinition → Bool
  | .structDefinition _ | .unionDefinition _ => true
  | _ => false

variable {f g : ℕ → UpcastableType → UpcastableType}

theorem numbered_mapIdx (types : List UpcastableType) :
    numbered (types.mapIdx f) = (numbered types).map fun x => (x.1, f x.1 x.2) := by
  refine List.ext_getElem (by simp [numbered]) fun i h h' => ?_
  simp [numbered]

@[simp] theorem references_modify (d : TypeDefinition) :
    (d.modify f).references = d.references.map fun x => (x.1, f x.1 x.2) := by
  cases d with
  | structDefinition | unionDefinition => rfl
  | enumDefinition | typedefDefinition => rfl
  | rawFunctionDefinition arguments returnValues stack =>
    rw [modify, references, references, ← numbered_mapIdx]
    simp [List.mapIdx_append, Nat.add_comm]
  | cabiFunctionDefinition arguments returnType =>
    rw [modify, references, references, ← numbered_mapIdx]
    simp [List.mapIdx_append]

theorem modify_modify (d : TypeDefinition) :
    (d.modify f).modify g = d.modify fun place t => g place (f place t) := by
  cases d <;> simp [modify, KeyedVector.modify_modify, Function.comp_def]

theorem modify_id (d : TypeDefinition) : d.modify (fun _ t => t) = d := by
  have hlist (types : List UpcastableType) : types.mapIdx (fun _ t => t) = types :=
    List.ext_getElem (by simp) (by simp)
  cases d <;> simp [modify, KeyedVector.modify, hlist]

end TypeDefinition

/-! ## The model -/

/-- The references of a function: its prototype, its stack frame, the prototypes of its call sites
and the types of its local variables. -/
structure Function where
  prototype : UpcastableType
  stackFrameType : UpcastableType
  callSitePrototypes : List UpcastableType
  localVariableTypes : List UpcastableType

/-- The definitions, and the types that the rest of the model refers to. -/
structure Binary where
  typeDefinitions : KeyedVector TypeDefinition
  functions : List Function
  /-- The prototypes of the dynamic functions. -/
  importedDynamicFunctions : List UpcastableType
  segmentTypes : List UpcastableType
  defaultPrototype : UpcastableType

end Model
