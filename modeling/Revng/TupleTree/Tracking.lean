import Revng.TupleTree.Diff

/-!
# Read tracking

The getters of the structs and the methods of the containers mark what they reveal.
`collect` walks the tree and turns the marks into paths, and a change of the model affects
whoever has read one of the paths of the diff.

The paths are compared as such; the code compares the strings they are printed as.
-/

namespace TupleTree

variable {S : Type}

/-! ## The paths of a diff -/

/-- The type of the part that one component of a path leads to. -/
def Schema.step : Schema S → PathComponent S → Option (Schema S)
  | .struct _ fields, .field i => fields[i]?
  | .pointer key _ alternatives, .kind k => some (.struct key (alternatives k))
  | .container _ element, .key _ => some element
  | _, _ => none

def Schema.atPath (s : Schema S) (path : Path S) : Option (Schema S) := path.foldlM Schema.step s

variable [LinearOrder S] [Inhabited S]

/-- The path of the element that a change adds or removes. -/
def elementPath (s : Schema S) (c : Change S) : Option (Path S) :=
  if c.old.isSome = c.new.isSome then none
  else
    match s.atPath c.path, c.new.or c.old with
    | some (.container _ element), some x => some (c.path ++ [.key (element.keyOf x)])
    | _, _ => none

/-- `TupleTreeDiff::paths`. -/
def diffPaths (s : Schema S) (changes : List (Change S)) : List (Path S) :=
  changes.flatMap fun c => c.path :: (elementPath s c).toList

/-! ## Reads -/

/-- What a reader of the tree can do with the part it is at.  `find` is also what reads an
element in the course of an iteration. -/
inductive Access (S : Type) where
  | field (index : Nat)
  | follow
  | at (key : List S)
  | tryGet (key : List S)
  | find (key : List S)
  | contains (key : List S)
  | iterate
  | size
  | asVector

/-- What an access returns.  A reference to an object tells its kind; what is in a part is
told by the accesses to it. -/
inductive Observation (S : Type) where
  | value (value : S)
  | reference
  | object (kind : Option S)
  | found (found : Bool)
  | keys (keys : List (List S))
  | size (size : Nat)
  deriving DecidableEq

/-- A tracker that is set: that of a field, that of a key a container has been asked for,
or that of a whole container. -/
inductive Mark (S : Type) where
  | field (path : Path S)
  | key (path : Path S) (key : List S)
  | exact (path : Path S)
  deriving DecidableEq

/-- A part of the tree and where it is. -/
structure Place (S : Type) where
  path : Path S
  schema : Schema S
  tree : Tree S

def Schema.isScalar : Schema S → Bool
  | .scalar => true
  | _ => false

def Tree.observe : Tree S → Observation S
  | .scalar v => .value v
  | _ => .reference

/-- The element with the given key. -/
def Tree.lookup (keyOf : Tree S → List S) (key : List S) (t : Tree S) : Option (Tree S) :=
  (t.find keyOf key).bind fun i => t.elements[i]?

/-- What an access returns, what it marks, and the part it leads to. -/
structure Accessed (S : Type) where
  observation : Observation S
  marks : List (Mark S)
  next : Option (Place S)

/-- An access to a part of the tree.  There is no result when it aborts. -/
def access (place : Place S) : Access S → Option (Accessed S)
  | .field i =>
      match place.schema, place.tree with
      | .struct key fields, .struct ts =>
          match fields[i]?, ts[i]? with
          | some f, some x =>
              let path := place.path ++ [.field i]
              -- the getters of key fields and of fields that are no scalars mark nothing
              some ⟨x.observe, if f.isScalar ∧ i ∉ key then [.field path] else [], some ⟨path, f, x⟩⟩
          | _, _ => none
      | _, _ => none
  | .follow =>
      match place.schema, place.tree with
      | .pointer _ _ _, .null => some ⟨.object none, [], none⟩
      | .pointer key kindField alternatives, .object k ts =>
          let path := place.path ++ [.kind k]
          -- the cast asks for the kind, whose getter is like the others
          some ⟨.object (some k), if kindField ∈ key then [] else [.field (path ++ [.field kindField])],
            some ⟨path, .struct key (alternatives k), .struct ts⟩⟩
      | _, _ => none
  | .at key =>
      match place.schema with
      | .container _ element =>
          (place.tree.lookup element.keyOf key).map fun x =>
            ⟨.found true, [.key place.path key], some ⟨place.path ++ [.key key], element, x⟩⟩
      | _ => none
  | .tryGet key =>
      match place.schema with
      | .container _ element =>
          let found := place.tree.lookup element.keyOf key
          some ⟨.found found.isSome, [.key place.path key],
            found.map fun x => ⟨place.path ++ [.key key], element, x⟩⟩
      | _ => none
  | .find key =>
      match place.schema with
      | .container _ element =>
          let found := place.tree.lookup element.keyOf key
          some ⟨.found found.isSome, [.exact place.path],
            found.map fun x => ⟨place.path ++ [.key key], element, x⟩⟩
      | _ => none
  | .contains key =>
      match place.schema with
      | .container _ element =>
          some ⟨.found (place.tree.lookup element.keyOf key).isSome, [.key place.path key], none⟩
      | _ => none
  | .iterate =>
      match place.schema with
      | .container _ element =>
          some ⟨.keys (place.tree.elements.map element.keyOf), [.exact place.path], none⟩
      | _ => none
  | .size =>
      match place.schema with
      | .container _ _ => some ⟨.size place.tree.elements.length, [.exact place.path], none⟩
      | _ => none
  -- every element is got by its key, until their number is reached
  | .asVector =>
      match place.schema with
      | .container _ element =>
          let keys := place.tree.elements.map element.keyOf
          some ⟨.keys keys, keys.map (.key place.path), none⟩
      | _ => none

/-- A chain of accesses, each to the part that the one before leads to: what they return
and what they mark. -/
def performAt : List (Access S) → Option (Place S) → Option (List (Observation S) × List (Mark S))
  | [], _ => some ([], [])
  | _ :: _, none => none
  | a :: rest, some place =>
      (access place a).bind fun accessed =>
        (performAt rest accessed.next).map fun r =>
          (accessed.observation :: r.1, accessed.marks ++ r.2)

/-- A chain of accesses from the root. -/
def perform (s : Schema S) (t : Tree S) (read : List (Access S)) :
    Option (List (Observation S) × List (Mark S)) :=
  performAt read (some ⟨[], s, t⟩)

/-- The marks that a sequence of reads leaves. -/
def marksOf (s : Schema S) (t : Tree S) (reads : List (List (Access S))) : List (Mark S) :=
  reads.flatMap fun read => ((perform s t read).map (·.2)).getD []

/-! ## Collect -/

structure ReadFields (S : Type) where
  read : List (Path S)
  exactVectors : List (Path S)

def ReadFields.append (a b : ReadFields S) : ReadFields S :=
  ⟨a.read ++ b.read, a.exactVectors ++ b.exactVectors⟩

mutual

/-- `TrackingImpl::collectImpl`, with the stack as an argument. -/
def collectImpl (marks : List (Mark S)) (stack : Path S) : Schema S → Tree S → ReadFields S
  | .pointer _ _ alternatives, .object k ts =>
      collectTuple marks (stack ++ [.kind k]) 0 (alternatives k) ts
  | .struct _ fields, .struct ts => collectTuple marks stack 0 fields ts
  | .container _ element, t =>
      let inspectedKeys := marks.filterMap fun
        | .key path key => if path = stack then some key else none
        | _ => none
      (t.elements.map fun x =>
          collectImpl marks (stack ++ [.key (element.keyOf x)]) element x).foldl ReadFields.append
        ⟨inspectedKeys.map fun key => stack ++ [.key key],
          if .exact stack ∈ marks then [stack] else []⟩
  | _, _ => ⟨[], []⟩

def collectTuple (marks : List (Mark S)) (stack : Path S) (i : Nat) :
    List (Schema S) → List (Tree S) → ReadFields S
  | f :: fs, t :: ts =>
      let path := stack ++ [.field i]
      (ReadFields.append ⟨if .field path ∈ marks then [path] else [], []⟩
        (collectImpl marks path f t)).append (collectTuple marks stack (i + 1) fs ts)
  | _, _ => ⟨[], []⟩

end

/-- `Tracking::collect`, after the given trackers have been set. -/
def collect (marks : List (Mark S)) (s : Schema S) (t : Tree S) : ReadFields S :=
  collectImpl marks [] s t

/-- A path of the diff is among those that have been collected. -/
def Affects (s : Schema S) (changes : List (Change S)) (collected : ReadFields S) : Prop :=
  ∃ path ∈ diffPaths s changes, path ∈ collected.read ∨ path ∈ collected.exactVectors

instance (s : Schema S) (changes : List (Change S)) (collected : ReadFields S) :
    Decidable (Affects s changes collected) :=
  inferInstanceAs (Decidable (∃ path ∈ diffPaths s changes, _ ∨ _))

end TupleTree
