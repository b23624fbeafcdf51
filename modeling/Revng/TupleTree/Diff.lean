import Mathlib.Data.List.Lex
import Revng.Lib.SortedMerge

/-!
# Tuple trees

A tuple tree is made of tuple-like structs, upcastable pointers to such structs, keyed
containers and scalars.  Its shape is given by a schema, which stands for the C++ type.
A value that the visits do not enter is a scalar here: an integer, a string, a reference
or a whole `std::vector`.
-/

namespace TupleTree

open SortedMerge

inductive ContainerKind where
  | sortedVector
  | mutableSet
  deriving DecidableEq

inductive Schema (S : Type) where
  | scalar
  | struct (key : List Nat) (fields : List (Schema S))
  | pointer (key : List Nat) (kindField : Nat) (alternatives : S → List (Schema S))
  | container (kind : ContainerKind) (element : Schema S)

/-- A value.  A `MutableSet` is a map, and its nodes have keys of their own: `nodes` and
`elements` have the same length. -/
inductive Tree (S : Type) where
  | scalar (value : S)
  | struct (fields : List (Tree S))
  | null
  | object (kind : S) (fields : List (Tree S))
  | sortedVector (elements : List (Tree S))
  | mutableSet (nodes : List (List S)) (elements : List (Tree S))

variable {S : Type}

/-! ## Equality -/

section DecEq

variable [DecidableEq S]

mutual

def Tree.decEq : (a b : Tree S) → Decidable (a = b)
  | .scalar v, .scalar w => decidable_of_iff (v = w) (by simp)
  | .struct fs, .struct gs =>
      have := Tree.decEqList fs gs
      decidable_of_iff (fs = gs) (by simp)
  | .null, .null => isTrue rfl
  | .object k fs, .object l gs =>
      have := Tree.decEqList fs gs
      decidable_of_iff (k = l ∧ fs = gs) (by simp)
  | .sortedVector xs, .sortedVector ys =>
      have := Tree.decEqList xs ys
      decidable_of_iff (xs = ys) (by simp)
  | .mutableSet ks xs, .mutableSet ls ys =>
      have := Tree.decEqList xs ys
      decidable_of_iff (ks = ls ∧ xs = ys) (by simp)
  | .scalar _, .struct _ | .scalar _, .null | .scalar _, .object .. | .scalar _, .sortedVector _
  | .scalar _, .mutableSet .. | .struct _, .scalar _ | .struct _, .null | .struct _, .object ..
  | .struct _, .sortedVector _ | .struct _, .mutableSet .. | .null, .scalar _ | .null, .struct _
  | .null, .object .. | .null, .sortedVector _ | .null, .mutableSet .. | .object .., .scalar _
  | .object .., .struct _ | .object .., .null | .object .., .sortedVector _
  | .object .., .mutableSet .. | .sortedVector _, .scalar _ | .sortedVector _, .struct _
  | .sortedVector _, .null | .sortedVector _, .object .. | .sortedVector _, .mutableSet ..
  | .mutableSet .., .scalar _ | .mutableSet .., .struct _ | .mutableSet .., .null
  | .mutableSet .., .object .. | .mutableSet .., .sortedVector _ => isFalse (by simp)

def Tree.decEqList : (xs ys : List (Tree S)) → Decidable (xs = ys)
  | [], [] => isTrue rfl
  | x :: xs, y :: ys =>
      have := Tree.decEq x y
      have := Tree.decEqList xs ys
      decidable_of_iff (x = y ∧ xs = ys) (by simp)
  | [], _ :: _ | _ :: _, [] => isFalse (by simp)

end

instance : DecidableEq (Tree S) := Tree.decEq

end DecEq

/-! ## Keys -/

section Key

variable [Inhabited S]

/-- The value of a key field. -/
def fieldValue (fields : List (Tree S)) (i : Nat) : S :=
  match fields[i]? with
  | some (.scalar v) => v
  | _ => default

/-- `KeyedObjectTraits::key`: a scalar is its own key, a struct has its key fields.  The
keys are compared field by field. -/
def Schema.keyOf : Schema S → Tree S → List S
  | .scalar, .scalar v => [v]
  | .struct key _, .struct fields => key.map (fieldValue fields)
  | .pointer key _ _, .object _ fields => key.map (fieldValue fields)
  | _, _ => []

/-- A container with the given elements. -/
def Tree.container (kind : ContainerKind) (keyOf : Tree S → List S) (elements : List (Tree S)) :
    Tree S :=
  match kind with
  | .sortedVector => .sortedVector elements
  | .mutableSet => .mutableSet (elements.map keyOf) elements

def Tree.elements : Tree S → List (Tree S)
  | .sortedVector elements => elements
  | .mutableSet _ elements => elements
  | _ => []

end Key

/-! ## Schemas and their trees -/

/-- A key field is a scalar. -/
def KeyFields (key : List Nat) (fields : List (Schema S)) : Prop :=
  ∀ i ∈ key, fields[i]? = some .scalar

/-- The values that a container can hold. -/
def Schema.Keyed : Schema S → Prop
  | .scalar => True
  | .struct key _ => key ≠ []
  | .pointer key _ _ => key ≠ []
  | .container _ _ => False

mutual

/-- What the generator asserts of a schema: the key fields are simple, and a polymorphic
type with a key has its kind in the key. -/
def Schema.WellFormed : Schema S → Prop
  | .scalar => True
  | .struct key fields => KeyFields key fields ∧ Schema.AllWellFormed fields
  | .pointer key kindField alternatives =>
      (key ≠ [] → kindField ∈ key) ∧
        ∀ kind, KeyFields key (alternatives kind) ∧ Schema.AllWellFormed (alternatives kind)
  | .container _ element => element.Keyed ∧ element.WellFormed

def Schema.AllWellFormed : List (Schema S) → Prop
  | [] => True
  | f :: fs => f.WellFormed ∧ Schema.AllWellFormed fs

end

section Conforms

variable [LinearOrder S] [Inhabited S]

mutual

/-- The values of a type.  An object knows its kind, the elements of a container are not
null, and they ascend by their keys. -/
def Schema.Conforms : Schema S → Tree S → Prop
  | .scalar, t => ∃ v, t = .scalar v
  | .struct _ fields, t => ∃ ts, t = .struct ts ∧ Schema.AllConform fields ts
  | .pointer _ kindField alternatives, t =>
      t = .null ∨ ∃ kind ts, t = .object kind ts ∧ ts[kindField]? = some (.scalar kind) ∧
        Schema.AllConform (alternatives kind) ts
  | .container kind element, t =>
      ∃ ts, t = Tree.container kind element.keyOf ts ∧
        Ascending element.keyOf ts ∧ ∀ x ∈ ts, element.Conforms x ∧ x ≠ .null

def Schema.AllConform : List (Schema S) → List (Tree S) → Prop
  | [], ts => ts = []
  | f :: fs, ts => ∃ x xs, ts = x :: xs ∧ f.Conforms x ∧ Schema.AllConform fs xs

end

/-- The type of the root: a struct. -/
structure RootSchema (S : Type) where
  key : List Nat
  fields : List (Schema S)
  wellFormed : (Schema.struct key fields).WellFormed

def RootSchema.toSchema (s : RootSchema S) : Schema S := .struct s.key s.fields

/-- A tuple tree of a schema. -/
structure TreeOf (s : RootSchema S) where
  root : Tree S
  conforms : s.toSchema.Conforms root

end Conforms

/-! ## Induction over schemas -/

/-- Induction over a schema, with the fields of a struct as a list. -/
@[elab_as_elim]
theorem Schema.induction {motive : Schema S → Prop} (scalar : motive .scalar)
    (struct : ∀ key fields, (∀ f ∈ fields, motive f) → motive (.struct key fields))
    (pointer : ∀ key kindField alternatives, (∀ k, ∀ f ∈ alternatives k, motive f) →
      motive (.pointer key kindField alternatives))
    (container : ∀ kind element, motive element → motive (.container kind element))
    (s : Schema S) : motive s :=
  @Schema.rec S motive (fun fields => ∀ f ∈ fields, motive f) scalar struct pointer container
    (by simp)
    (fun _ _ hhead htail f hf => (List.mem_cons.mp hf).elim (· ▸ hhead) (htail f)) s

/-! ## A part of the model -/

/-- A function, with its prototype and its attributes. -/
def functionSchema : RootSchema Nat where
  key := []
  fields := [.pointer [] 0 fun _ => [.scalar], .container .mutableSet .scalar]
  wellFormed := by
    simp [Schema.WellFormed, Schema.AllWellFormed, KeyFields, Schema.Keyed]

/-- The function whose prototype has the kind `1`, if it has one. -/
def functionTree (hasPrototype : Bool) (attributes : List Nat)
    (h : attributes.Pairwise (· < ·)) : TreeOf functionSchema where
  root := .struct [if hasPrototype then .object 1 [.scalar 1] else .null,
    .mutableSet (attributes.map ([·])) (attributes.map .scalar)]
  conforms := by
    have hkeys : (attributes.map Tree.scalar).map Schema.scalar.keyOf = attributes.map ([·]) := by
      simp [Function.comp_def, Schema.keyOf]
    have hasc : Ascending Schema.scalar.keyOf (attributes.map Tree.scalar) := by
      simpa [Ascending, List.pairwise_map, Schema.keyOf, List.cons_lt_cons_iff] using h
    simp only [RootSchema.toSchema, functionSchema, Schema.Conforms, Schema.AllConform]
    refine ⟨_, rfl, _, _, rfl, ?_, _, _, rfl, ⟨attributes.map .scalar, ?_, hasc, by simp⟩, rfl⟩
    · cases hasPrototype with
      | false => exact Or.inl rfl
      | true => exact Or.inr ⟨1, [.scalar 1], rfl, rfl, _, _, rfl, ⟨1, rfl⟩, rfl⟩
    · rw [Tree.container, hkeys]

/-!
## Diffing and applying

`diff` walks two trees of one schema in parallel and records where they differ: an
element that a container gained or lost, or a leaf that changed.  `apply` finds the place
of every change again by its path and replays it, and goes on after an error.  Both
follow the type, like the templates they model.
-/

inductive PathComponent (S : Type) where
  | field (index : Nat)
  | kind (kind : S)
  | key (key : List S)
  deriving DecidableEq

abbrev Path (S : Type) := List (PathComponent S)

structure Change (S : Type) where
  path : Path S
  old : Option (Tree S)
  new : Option (Tree S)
  deriving DecidableEq

variable {S : Type} [LinearOrder S] [Inhabited S]

/-! ## Diff -/

mutual

/-- `Diff::diffImpl`, with the stack as an argument. -/
def diffImpl (stack : Path S) : Schema S → Tree S → Tree S → List (Change S)
  | .pointer _ _ alternatives, lhs, rhs =>
      match lhs, rhs with
      | .object k fs, .object l gs =>
          if k = l then diffTuple (stack ++ [.kind k]) 0 (alternatives k) fs gs
          else [⟨stack, some lhs, some rhs⟩]
      | _, _ => if lhs = rhs then [] else [⟨stack, some lhs, some rhs⟩]
  | .struct _ fields, .struct fs, .struct gs => diffTuple stack 0 fields fs gs
  | .container _ element, lhs, rhs =>
      (zipmap element.keyOf lhs.elements rhs.elements).flatMap fun
        | .right r => [⟨stack, none, some r⟩]
        | .left l => [⟨stack, some l, none⟩]
        | .both l r => diffImpl (stack ++ [.key (element.keyOf l)]) element l r
  | _, lhs, rhs => if lhs = rhs then [] else [⟨stack, some lhs, some rhs⟩]

/-- The fields from the index `i` on. -/
def diffTuple (stack : Path S) (i : Nat) :
    List (Schema S) → List (Tree S) → List (Tree S) → List (Change S)
  | field :: fields, l :: ls, r :: rs =>
      diffImpl (stack ++ [.field i]) field l r ++ diffTuple stack (i + 1) fields ls rs
  | _, _, _ => []

end

def diff (s : Schema S) (lhs rhs : Tree S) : List (Change S) := diffImpl [] s lhs rhs

/-- `TupleTreeDiff::invert`. -/
def invert (changes : List (Change S)) : List (Change S) :=
  changes.map fun c => { c with old := c.new, new := c.old }

/-! ## Apply -/

/-- The side of a change that an error is about. -/
inductive LocationKind where
  | all
  | old
  | new
  | path
  deriving DecidableEq

structure Failure where
  reason : String
  kind : LocationKind
  deriving DecidableEq

/-- `std::remove_if` and `erase` over the values of a container: the values move to the
front and the nodes at the end go. -/
def Tree.removeKey (keyOf : Tree S → List S) (key : List S) : Tree S → Tree S
  | .sortedVector elements => .sortedVector (elements.filter (keyOf · ≠ key))
  | .mutableSet nodes elements =>
      let kept := elements.filter (keyOf · ≠ key)
      .mutableSet (nodes.take kept.length) kept
  | t => t

/-- The map of a `MutableSet` finds its nodes by their keys, whatever they hold. -/
def insertNode (key : List S) (x : Tree S) :
    List (List S) → List (Tree S) → List (List S) × List (Tree S)
  | node :: nodes, y :: ys =>
      if node < key then
        let rest := insertNode key x nodes ys
        (node :: rest.1, y :: rest.2)
      else if key < node then (key :: node :: nodes, x :: y :: ys)
      else (node :: nodes, x :: ys)
  | _, _ => ([key], [x])

def Tree.insertOrAssign (t : Tree S) (keyOf : Tree S → List S) (x : Tree S) : Tree S :=
  match t with
  | .sortedVector elements => .sortedVector (SortedMerge.insertOrAssign keyOf x elements)
  | .mutableSet nodes elements =>
      let inserted := insertNode (keyOf x) x nodes elements
      .mutableSet inserted.1 inserted.2
  | t => t

/-- The visit of a container, which gains or loses an element. -/
def visitContainer (keyOf : Tree S → List S) (old new : Option (Tree S)) (t : Tree S) :
    Tree S × Option Failure :=
  match old, new with
  | none, none => (t, some ⟨"Both 'Remove' and 'Add' are not present", .all⟩)
  | some _, some _ => (t, some ⟨"Both 'Remove' and 'Add' are not present", .all⟩)
  | some x, none =>
      let t' := t.removeKey keyOf (keyOf x)
      (t', if t'.elements.length + 1 = t.elements.length then none
        else some ⟨"Subtree removal failed", .old⟩)
  | none, some x =>
      let t' := t.insertOrAssign keyOf x
      (t', if t.elements.length + 1 = t'.elements.length then none
        else some ⟨"Subtree addition failed", .new⟩)

/-- The visit of a pointer or a leaf, which is replaced. -/
def visitLeaf (isPointer : Bool) (old new : Option (Tree S)) (t : Tree S) :
    Tree S × Option Failure :=
  let mismatch : Option Failure :=
    match old with
    | none =>
        if isPointer then
          if t ≠ .null then
            some ⟨"`Remove` does not match the contents of the pointer within the Tree", .old⟩
          else none
        else some ⟨"Missing `Remove` key", .old⟩
    | some x =>
        if x ≠ t then some ⟨"`Remove` does not match the contents of the Tuple Tree", .old⟩
        else none
  match mismatch with
  | some failure => (t, some failure)
  | none =>
      match new with
      | some x => (x, none)
      | none => if isPointer then (.null, none) else (t, some ⟨"Missing 'Add' key", .new⟩)

/-- `ApplyDiffVisitor::visit`. -/
def visit (old new : Option (Tree S)) : Schema S → Tree S → Tree S × Option Failure
  | .container _ element, t => visitContainer element.keyOf old new t
  | .pointer .., t => visitLeaf true old new t
  | _, t => visitLeaf false old new t

/-- Where `find` finds an element. -/
def Tree.find (keyOf : Tree S → List S) (key : List S) : Tree S → Option Nat
  | .sortedVector elements => elements.findIdx? (keyOf · = key)
  | .mutableSet nodes _ => nodes.findIdx? (· = key)
  | _ => none

def Tree.setElement (t : Tree S) (i : Nat) (x : Tree S) : Tree S :=
  match t with
  | .sortedVector elements => .sortedVector (elements.set i x)
  | .mutableSet nodes elements => .mutableSet nodes (elements.set i x)
  | t => t

/-- `callOnPathSteps` with the visitor that replays a change where the path ends.  The
result tells whether the path is present.  No change of a diff ends in a key. -/
def callOnPathSteps (old new : Option (Tree S)) :
    Path S → Schema S → Tree S → Tree S × Option Failure × Bool
  -- a pointer is looked into even when the path has ended
  | [], .pointer .., t => (t, none, t ≠ .null)
  | [], _, t => (t, none, true)
  | .field i :: rest, .struct _ fields, .struct ts =>
      match fields[i]?, ts[i]? with
      | some f, some x =>
          let visited := if rest = [] then visit old new f x else (x, none)
          let below := callOnPathSteps old new rest f visited.1
          (.struct (ts.set i below.1), visited.2.or below.2.1, below.2.2)
      | _, _ => (.struct ts, none, false)
  | .kind _ :: .field i :: rest, .pointer _ _ alternatives, .object k ts =>
      match (alternatives k)[i]?, ts[i]? with
      | some f, some x =>
          let visited := if rest = [] then visit old new f x else (x, none)
          let below := callOnPathSteps old new rest f visited.1
          (.object k (ts.set i below.1), visited.2.or below.2.1, below.2.2)
      | _, _ => (.object k ts, none, false)
  | .key key :: rest, .container _ element, t =>
      match t.find element.keyOf key with
      | some i =>
          match t.elements[i]? with
          | some x =>
              let visited := if rest = [] then visit old new element x else (x, none)
              let below := callOnPathSteps old new rest element visited.1
              (t.setElement i below.1, visited.2.or below.2.1, below.2.2)
          | none => (t, none, false)
      | none => (t, none, false)
  | _, _, t => (t, none, false)

/-- An entry of the `DiffError` that `apply` returns. -/
structure Reason (S : Type) where
  index : Nat
  path : Path S
  failure : Failure

/-- One change, the `index`-th of the diff. -/
def applyChange (s : Schema S) (index : Nat) (c : Change S) (t : Tree S) :
    Tree S × List (Reason S) :=
  if c.path = [] then (t, [⟨index, c.path, ⟨"Could not deserialize path", .path⟩⟩])
  else
    let called := callOnPathSteps c.old c.new c.path s t
    (called.1, called.2.1.toList.map (⟨index, c.path, ·⟩) ++
      if called.2.2 then [] else [⟨index, c.path, ⟨"Path not present", .path⟩⟩])

def applyFrom (s : Schema S) : Nat → List (Change S) → Tree S → Tree S × List (Reason S)
  | _, [], t => (t, [])
  | index, c :: cs, t =>
      let applied := applyChange s index c t
      let rest := applyFrom s (index + 1) cs applied.1
      (rest.1, applied.2 ++ rest.2)

/-- `TupleTreeDiff::apply`: the new tree and the reasons of the error. -/
def apply (s : Schema S) (changes : List (Change S)) (t : Tree S) : Tree S × List (Reason S) :=
  applyFrom s 0 changes t

end TupleTree
