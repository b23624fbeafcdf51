import Revng.Lib.OnceQueue
import Revng.Model.TypeDefinitions

/-!
# Dropping type definitions

`dropTypesDependingOnDefinitions` removes definitions with all that depends on them.  A graph leads
from a definition to the definitions, the fields and the pointers that refer to it, and a worklist
collects what is reached.
-/

namespace Model

open OnceQueue

/-! ## The reverse dependency graph -/

inductive GraphNode where
  | definition (definition : ℕ)
  | structField (parentStruct fieldOffset : ℕ)
  | unionField (parentUnion fieldIndex : ℕ)
  /-- The innermost pointer of a type in a definition. -/
  | pointer (owner place : ℕ)
  deriving DecidableEq

/-- The node that depends on the target of a type in a definition. -/
def directNode (owner place : ℕ) : TypeDefinition → GraphNode
  | .structDefinition _ => .structField owner place
  | .unionDefinition _ => .unionField owner place
  | _ => .definition owner

/-- A type in a definition, with the nodes for its direct dependent and for its pointer. -/
structure Registration where
  typeReference : UpcastableType
  direct : GraphNode
  pointer : GraphNode

def registrationsOf (key : ℕ) (d : TypeDefinition) : List Registration :=
  d.references.map fun x => ⟨x.2, directNode key x.1 d, .pointer key x.1⟩

def registrations (typeDefinitions : KeyedVector TypeDefinition) (types : List ℕ) :
    List Registration :=
  (typeDefinitions.entries.filter fun x => !types.contains x.1).flatMap fun x =>
    registrationsOf x.1 x.2

/-- `registerEdge` and `registerDefinitionEdge`, which fail on a reference to no definition. -/
def registerEdge (typeDefinitions : KeyedVector TypeDefinition) (r : Registration) :
    Option (List (ℕ × GraphNode)) :=
  match r.typeReference.referencedDefinition with
  | none => some []
  | some d =>
      if (typeDefinitions.find d).isSome then
        some [(d, if r.typeReference.crossesPointer then r.pointer else r.direct)]
      else none

/-- The edges of the graph, in the order in which they are added. -/
def reverseDependencyGraph (typeDefinitions : KeyedVector TypeDefinition) (types : List ℕ) :
    Option (List (ℕ × GraphNode)) :=
  ((registrations typeDefinitions types).mapM (registerEdge typeDefinitions)).map List.flatten

/-! ## The traversal -/

structure Traversal where
  toDelete : Finset ℕ
  structFieldsToRemove : Finset (ℕ × ℕ)
  unionFieldsToRemove : Finset (ℕ × ℕ)
  typeDefinitions : KeyedVector TypeDefinition

def fieldCount (typeDefinitions : KeyedVector TypeDefinition) (parentUnion : ℕ) : ℕ :=
  match typeDefinitions.find parentUnion with
  | some (.unionDefinition fields) => fields.entries.length
  | _ => 0

def voidPointeeAt (owner place : ℕ) (typeDefinitions : KeyedVector TypeDefinition) :
    KeyedVector TypeDefinition :=
  typeDefinitions.modify fun key d =>
    if key = owner then d.modify fun i t => if i = place then t.voidPointee else t else d

/-- The visit of a node, with the nodes to insert. -/
def visit (edges : List (ℕ × GraphNode)) : GraphNode → Traversal → Traversal × List GraphNode
  | .definition d, s =>
      ({ s with toDelete := insert d s.toDelete },
        (edges.filter fun e => e.1 = d).map Prod.snd)
  | .structField parent offset, s =>
      ({ s with structFieldsToRemove := insert (parent, offset) s.structFieldsToRemove }, [])
  | .unionField parent index, s =>
      let removed := insert (parent, index) s.unionFieldsToRemove
      ({ s with unionFieldsToRemove := removed },
        if (removed.filter fun x => x.1 = parent).card = fieldCount s.typeDefinitions parent
        then [.definition parent] else [])
  | .pointer owner place, s =>
      ({ s with typeDefinitions := voidPointeeAt owner place s.typeDefinitions }, [])

def Traversal.start (typeDefinitions : KeyedVector TypeDefinition) : Traversal :=
  ⟨∅, ∅, ∅, typeDefinitions⟩

/-- The worklist is seeded with the given types.  The number of nodes bounds that of the visits. -/
def traverse (typeDefinitions : KeyedVector TypeDefinition) (types : List ℕ)
    (edges : List (ℕ × GraphNode)) : Option Traversal :=
  drain (visit edges) (typeDefinitions.keys.length + edges.length)
    (OnceQueue.empty.insertAll (types.map .definition)) (Traversal.start typeDefinitions)

/-! ## Removals -/

/-- The field removals of one definition, which are not made if it is itself deleted. -/
def Traversal.removeFields (s : Traversal) (key : ℕ) : TypeDefinition → TypeDefinition
  | .structDefinition fields =>
      if key ∈ s.toDelete then .structDefinition fields
      else .structDefinition (fields.eraseIf fun offset => (key, offset) ∈ s.structFieldsToRemove)
  | .unionDefinition fields =>
      -- only a union that the map has an entry for is reindexed
      if key ∈ s.toDelete ∨ (s.unionFieldsToRemove.filter fun x => x.1 = key) = ∅ then
        .unionDefinition fields
      else
        .unionDefinition (fields.eraseIf fun index => (key, index) ∈ s.unionFieldsToRemove).reindex
  | d => d

/-- `skipTypedefs`, which does not return on a cycle of typedefs. -/
def skipTypedefs (typeDefinitions : KeyedVector TypeDefinition) :
    ℕ → UpcastableType → Option UpcastableType
  | 0, _ => none
  | fuel + 1, .defined false d =>
      match typeDefinitions.find d with
      | none => none
      | some (.typedefDefinition t) => skipTypedefs typeDefinitions fuel t
      | some _ => some (.defined false d)
  | _ + 1, t => some t

/-- `toPrototype`, which aborts if the type is not that of a function. -/
def toPrototype (typeDefinitions : KeyedVector TypeDefinition) (t : UpcastableType) : Option ℕ :=
  match skipTypedefs typeDefinitions (typeDefinitions.keys.length + 1) t with
  | some (.defined false d) =>
      if (typeDefinitions.find d).any TypeDefinition.isFunction then some d else none
  | _ => none

/-- The round of `purgeFunctions` for the prototype of one function. -/
def purgePrototype (typeDefinitions : KeyedVector TypeDefinition) (toDelete : Finset ℕ) :
    UpcastableType → Option UpcastableType
  | .empty => some .empty
  | t => (toPrototype typeDefinitions t).map fun d => if d ∈ toDelete then .empty else t

/-- The model without the definitions, and how many were removed. -/
def dropTypesDependingOnDefinitions (b : Binary) (types : List ℕ) : Option (Binary × ℕ) := do
  let edges ← reverseDependencyGraph b.typeDefinitions types
  if types.all fun d => (b.typeDefinitions.find d).isSome then
    let s ← traverse b.typeDefinitions types edges
    let typeDefinitions := s.typeDefinitions.modify s.removeFields
    let dynamicFunctions ←
      b.importedDynamicFunctions.mapM (purgePrototype typeDefinitions s.toDelete)
    let functions ← b.functions.mapM fun f =>
      (purgePrototype typeDefinitions s.toDelete f.prototype).map fun t => { f with prototype := t }
    some ({ b with
      typeDefinitions := typeDefinitions.eraseIf fun key => key ∈ s.toDelete
      functions := functions
      importedDynamicFunctions := dynamicFunctions }, s.toDelete.card)
  else none

end Model
