import Mathlib.Data.List.Nodup
import Mathlib.Data.List.Pairwise
import Mathlib.Data.Prod.Basic
import Mathlib.Data.Sigma.Basic
import Revng.TupleTree.PathText

/-!
# Path matchers

A `PathMatcher` is a path with wildcards for some of its keys.  `apply` puts keys in the place
of the wildcards, and `match` finds the keys that stand there in another path.

The components of a path are type-erased: a component is a value with its type.  A wildcard is
an empty component, which matches everything, or, for a container of polymorphic objects, a key
whose last field is the kind, which matches the keys of that kind.  So `match` gives back the
arguments of `apply` if and only if they have the kinds of their wildcards, and whatever `match`
finds gives the path again (`match_apply_iff`).
-/

namespace TupleTree

open SeparatedText

/-! ## Components -/

/-- The type and the value of a component that is not empty. -/
abbrev Component {T : Type} (Value : T → Type) := (t : T) × Value t

/-- `TupleTreeKeyWrapper` -/
abbrev KeyWrapper {T : Type} (Value : T → Type) := Option (Component Value)

/-- The types of the components: what a field index is wrapped in, the texts and the initial
value of a key, and the last field of the keys that end with their kind.  `wildcard` is the
initial key with the kind that a text stands for. -/
structure ComponentTypes {T : Type} (Value : T → Type) (Kind : Type) where
  index : Nat → Component Value
  initial : (t : T) → Value t
  read : (t : T) → Text → Value t
  kind : (t : T) → Option (Value t → Kind)
  wildcard : (t : T) → Text → Value t

section

variable {T Kind : Type} {Value : T → Type} (C : ComponentTypes Value Kind)

def ComponentTypes.kindOf (c : Component Value) : Option Kind := (C.kind c.1).map (· c.2)

/-- What may stand for a wildcard. -/
def ComponentTypes.IsWildcard : KeyWrapper Value → Prop
  | none => True
  | some c => (C.kind c.1).isSome = true

/-- The argument has the type and the kind of the wildcard. -/
def ComponentTypes.Fits : KeyWrapper Value → Component Value → Prop
  | none, _ => True
  | some c, d => c.1 = d.1 ∧ C.kindOf c = C.kindOf d

/-! ## Matchers -/

/-- The positions of the wildcards, in ascending order from `lastEnd` on. -/
def AscendingFrom (lastEnd size : Nat) (free : List Nat) : Prop :=
  free.Pairwise (· < ·) ∧ ∀ i ∈ free, lastEnd ≤ i ∧ i < size

theorem AscendingFrom.tail {free : List Nat} {lastEnd size index : Nat}
    (h : AscendingFrom lastEnd size (index :: free)) :
    AscendingFrom (index + 1) size free := by
  obtain ⟨hsorted, hbounds⟩ := h
  rw [List.pairwise_cons] at hsorted
  exact ⟨hsorted.2, fun i hi => ⟨hsorted.1 i hi, (hbounds i (List.mem_cons_of_mem _ hi)).2⟩⟩

/-- `free` has the positions of the wildcards.  Elsewhere the path has a component. -/
structure PathMatcher where
  path : List (KeyWrapper Value)
  free : List Nat
  ascending : free.Pairwise (· < ·)
  free_wildcard : ∀ i ∈ free, ∃ w, path[i]? = some w ∧ C.IsWildcard w
  bound_some : ∀ i < path.length, i ∉ free → ∃ c, path[i]? = some (some c)

namespace PathMatcher

variable {C}

theorem lt_of_mem_free (m : PathMatcher C) {i : Nat} (hi : i ∈ m.free) : i < m.path.length := by
  obtain ⟨w, hw, -⟩ := m.free_wildcard i hi
  exact (List.getElem?_eq_some_iff.mp hw).1

theorem ascending_free (m : PathMatcher C) : AscendingFrom 0 m.path.length m.free :=
  ⟨m.ascending, fun i hi => ⟨Nat.zero_le i, m.lt_of_mem_free hi⟩⟩

theorem nodup_free (m : PathMatcher C) : m.free.Nodup :=
  m.ascending.imp fun h => h.ne

def empty : PathMatcher C := ⟨[], [], .nil, by simp, by simp⟩

/-- `Result.Path.push_back` -/
def pushBack (m : PathMatcher C) (c : Component Value) : PathMatcher C where
  path := m.path ++ [some c]
  free := m.free
  ascending := m.ascending
  free_wildcard i hi := by
    rw [List.getElem?_append_left (m.lt_of_mem_free hi)]
    exact m.free_wildcard i hi
  bound_some i hi hfree := by
    rcases Nat.lt_or_ge i m.path.length with hlt | hge
    · rw [List.getElem?_append_left hlt]
      exact m.bound_some i hlt hfree
    · rw [List.length_append, List.length_singleton] at hi
      obtain rfl : i = m.path.length := by omega
      exact ⟨c, List.getElem?_concat_length ..⟩

/-- `Result.Free.push_back` of the next position, and a wildcard there. -/
def pushFree (m : PathMatcher C) (w : KeyWrapper Value) (hw : C.IsWildcard w) : PathMatcher C where
  path := m.path ++ [w]
  free := m.free ++ [m.path.length]
  ascending := by
    rw [List.pairwise_append]
    refine ⟨m.ascending, List.pairwise_singleton .., fun i hi j hj => ?_⟩
    rw [List.mem_singleton.mp hj]
    exact m.lt_of_mem_free hi
  free_wildcard i hi := by
    rcases List.mem_append.mp hi with hi | hi
    · rw [List.getElem?_append_left (m.lt_of_mem_free hi)]
      exact m.free_wildcard i hi
    · rw [List.mem_singleton.mp hi]
      exact ⟨w, List.getElem?_concat_length .., hw⟩
  bound_some i hi hfree := by
    rw [List.mem_append, List.mem_singleton, not_or] at hfree
    rw [List.length_append, List.length_singleton] at hi
    have hlt : i < m.path.length := by omega
    rw [List.getElem?_append_left hlt]
    exact m.bound_some i hlt hfree.1

/-! ## Reading a matcher -/

/-- The types below a node of a tuple tree, with the names of fields and kinds. -/
inductive NodeType (T : Type) where
  | scalar
  | struct (names : List Text) (fields : List (NodeType T))
  | pointer (kindType : T) (kinds : List Text) (names : Text → List Text)
      (alternatives : Text → List (NodeType T))
  | container (keyType : T) (element : NodeType T)

def NodeType.isPointer : NodeType T → Bool
  | .pointer .. => true
  | _ => false

/-- The next key of a matcher.  The key of a polymorphic object has to end with its kind. -/
def visitKey (m : PathMatcher C) (keyType : T) (polymorphic : Bool) (text : Text) :
    Option (PathMatcher C) :=
  if polymorphic then
    if (split '-' text).1 = ['*'] then
      if h : (C.kind keyType).isSome = true then
        some (m.pushFree (some ⟨keyType, C.wildcard keyType (split '-' text).2⟩) h)
      else none
    else some (m.pushBack ⟨keyType, C.read keyType text⟩)
  else if text = ['*'] then some (m.pushFree none trivial)
  else some (m.pushBack ⟨keyType, C.read keyType text⟩)

mutual

/-- `PathMatcher::visitTupleTreeNode`, with what has been read so far. -/
def visitTupleTreeNode (m : PathMatcher C) : NodeType T → Text → Option (PathMatcher C)
  | .scalar, text => if text = [] then some m else none
  | .struct names fields, text =>
      if text = [] then some m
      else visitTuple m (split '/' text).1 (split '/' text).2 0 names fields
  | .pointer kindType kinds names alternatives, text =>
      if text = [] then some m
      else
        let kind := (splitScope text).1
        let rest := split '/' (splitScope text).2
        if kinds.contains kind then
          visitTuple (m.pushBack ⟨kindType, C.read kindType kind⟩) rest.1 rest.2 0 (names kind)
            (alternatives kind)
        else none
  | .container keyType element, text =>
      if text = [] then some m
      else
        match m.visitKey keyType element.isPointer (split '/' text).1 with
        | some m => visitTupleTreeNode m element (split '/' text).2
        | none => none

/-- `PathMatcher::visitTuple`, from the field with the index `i` on. -/
def visitTuple (m : PathMatcher C) (current rest : Text) (i : Nat) :
    List Text → List (NodeType T) → Option (PathMatcher C)
  | name :: names, f :: fields =>
      if name = current then visitTupleTreeNode (m.pushBack (C.index i)) f rest
      else visitTuple m current rest (i + 1) names fields
  | _, _ => none

end

/-- `PathMatcher::create`, which asserts that the text starts with a `/`. -/
def create (C : ComponentTypes Value Kind) (root : NodeType T) : Text → Option (PathMatcher C)
  | '/' :: text => visitTupleTreeNode empty root text
  | _ => none

/-! ## Applying -/

/-- `applyImpl`: deposit the arguments at the positions. -/
def applyImpl : List (KeyWrapper Value) → List Nat → List (Component Value) →
    List (KeyWrapper Value)
  | result, index :: free, arg :: args => applyImpl (result.set index (some arg)) free args
  | result, _, _ => result

/-- `PathMatcher::apply`, which asserts the number of arguments.  In the code it has to be called
with one argument at least. -/
def apply (m : PathMatcher C) (args : List (Component Value)) : Option (List (KeyWrapper Value)) :=
  if args.length = m.free.length then some (applyImpl m.path m.free args) else none

section Deposit

variable {path : List (KeyWrapper Value)} {free : List Nat}
  {args : List (Component Value)} {i : Nat}

theorem length_applyImpl : ∀ (path : List (KeyWrapper Value)) (free : List Nat)
    (args : List (Component Value)), (applyImpl path free args).length = path.length
  | path, index :: free, arg :: args => by
      rw [applyImpl, length_applyImpl, List.length_set]
  | path, [], args => by rw [applyImpl]; simp
  | path, index :: free, [] => by rw [applyImpl]; simp

theorem applyImpl_of_notMem (hi : i ∉ free) : (applyImpl path free args)[i]? = path[i]? := by
  induction free generalizing path args with
  | nil => cases args <;> rfl
  | cons index free ih =>
    cases args with
    | nil => rfl
    | cons arg args =>
      rw [List.mem_cons, not_or] at hi
      rw [applyImpl, ih hi.2, List.getElem?_set_ne (Ne.symm hi.1)]

theorem applyImpl_of_mem (hnodup : free.Nodup) (hlt : ∀ i ∈ free, i < path.length)
    {arg : Component Value} (hi : (i, arg) ∈ free.zip args) :
    (applyImpl path free args)[i]? = some (some arg) := by
  induction free generalizing path args with
  | nil => cases hi
  | cons index free ih =>
    cases args with
    | nil => cases hi
    | cons first args =>
      rw [List.nodup_cons] at hnodup
      rw [applyImpl]
      rcases List.mem_cons.mp hi with hhead | hrest
      · cases hhead
        rw [applyImpl_of_notMem hnodup.1,
          List.getElem?_set_self (hlt i (List.mem_cons_self ..))]
      · refine ih hnodup.2 (fun j hj => ?_) hrest
        rw [List.length_set]
        exact hlt j (List.mem_cons_of_mem _ hj)

/-- There is an argument for every wildcard. -/
theorem exists_zip {m : PathMatcher C} {args : List (Component Value)}
    (hcount : args.length = m.free.length) {i : Nat} (hi : i ∈ m.free) :
    ∃ arg, (i, arg) ∈ m.free.zip args := by
  have hmem : i ∈ (m.free.zip args).map Prod.fst := by
    rwa [List.map_fst_zip hcount.ge]
  obtain ⟨⟨_, arg⟩, hpair, rfl⟩ := List.mem_map.mp hmem
  exact ⟨arg, hpair⟩

end Deposit

/-! ## Matching -/

variable [DecidableEq T] [∀ t, DecidableEq (Value t)] [DecidableEq Kind]

/-- `TupleTreeKeyWrapper::matches`.  There is no type to compare when the other one is empty, and
a key without a kind has to be the initial one. -/
def componentMatches (C : ComponentTypes Value Kind) :
    KeyWrapper Value → KeyWrapper Value → Option Bool
  | none, _ => some true
  | some _, none => none
  | some c, some d =>
      if c.1 ≠ d.1 then some false
      else if (C.kind c.1).isSome then some (C.kindOf c = C.kindOf d)
      else if c.2 = C.initial c.1 then some true
      else none

/-- Compare the components from `start` on.  An empty component cannot be compared. -/
def constantsMatch (search path : List (KeyWrapper Value)) : Nat → Nat → Option Bool
  | _, 0 => some true
  | start, count + 1 =>
      match search[start]?.join, path[start]?.join with
      | some c, some d => if c ≠ d then some false else constantsMatch search path (start + 1) count
      | _, _ => none

/-- The first loop of `PathMatcher::match`, over the ends of the parts between the wildcards. -/
def partsMatch (search path : List (KeyWrapper Value)) : Nat → List Nat → Option Bool
  | _, [] => some true
  | lastEnd, index :: rest =>
      match constantsMatch search path lastEnd (index - lastEnd) with
      | some true => partsMatch search path (index + 1) rest
      | stopped => stopped

/-- The second loop of `PathMatcher::match`. -/
def variablesMatch (C : ComponentTypes Value Kind) (search path : List (KeyWrapper Value)) :
    List Nat → Option Bool
  | [] => some true
  | index :: rest =>
      match path[index]?, search[index]? with
      | some w, some v =>
          match componentMatches C w v with
          | some true => variablesMatch C search path rest
          | stopped => stopped
      | _, _ => none

/-- `extractKeys`.  A component of another type than expected cannot be taken. -/
def extractKeys (search : List (KeyWrapper Value)) :
    List Nat → List T → Option (List (Component Value))
  | index :: free, t :: types =>
      match search[index]?.join with
      | some c => if c.1 = t then (extractKeys search free types).map (c :: ·) else none
      | none => none
  | _, _ => some []

/-- `PathMatcher::match` for arguments of the given types.  The outer `none` is a failed
assertion, or an empty component that is looked into. -/
def matchPath (m : PathMatcher C) (types : List T) (search : List (KeyWrapper Value)) :
    Option (Option (List (Component Value))) :=
  if types.length ≠ m.free.length then none
  else if m.path.length ≠ search.length then some none
  else
    match partsMatch search m.path 0 (m.free ++ [m.path.length]) with
    | none => none
    | some false => some none
    | some true =>
        match variablesMatch C search m.path m.free with
        | none => none
        | some false => some none
        | some true => (extractKeys search m.free types).map some

/-! ## What is compared -/

section Compare

variable {path search : List (KeyWrapper Value)} {start count lastEnd : Nat} {free : List Nat}

theorem constantsMatch_of_same (h : ∀ i, start ≤ i → i < start + count →
    ∃ c, path[i]? = some (some c) ∧ search[i]? = some (some c)) :
    constantsMatch search path start count = some true := by
  induction count generalizing start with
  | zero => rfl
  | succ count ih =>
    obtain ⟨c, hpath, hsearch⟩ := h start (Nat.le_refl _) (by omega)
    simp only [constantsMatch, hpath, hsearch, Option.join_some, ne_eq, not_true_eq_false,
      if_false]
    exact ih fun i hle hlt => h i (by omega) (by omega)

theorem same_of_constantsMatch (h : constantsMatch search path start count = some true) {i : Nat}
    (hle : start ≤ i) (hlt : i < start + count) : search[i]? = path[i]? := by
  induction count generalizing start with
  | zero => omega
  | succ count ih =>
    rw [constantsMatch] at h
    split at h
    next c d hsearch hpath =>
      split at h
      next hne => cases h
      next heq =>
        rw [ne_eq, not_not] at heq
        rcases Nat.eq_or_lt_of_le hle with rfl | hlt'
        · rw [Option.join_eq_some_iff] at hsearch hpath
          rw [hsearch, hpath, heq]
        · exact ih h hlt' (by omega)
    next => cases h

theorem partsMatch_of_same {size : Nat} (hfree : AscendingFrom lastEnd size free)
    (h : ∀ i, lastEnd ≤ i → i < size → i ∉ free →
      ∃ c, path[i]? = some (some c) ∧ search[i]? = some (some c)) :
    partsMatch search path lastEnd (free ++ [size]) = some true := by
  induction free generalizing lastEnd with
  | nil =>
    have hlast : constantsMatch search path lastEnd (size - lastEnd) = some true :=
      constantsMatch_of_same fun i hle hlt => h i hle (by omega) (List.not_mem_nil)
    rw [List.nil_append, partsMatch, hlast]
    rfl
  | cons index free ih =>
    have hindex := hfree.2 index (List.mem_cons_self ..)
    have habove : ∀ j ∈ free, index < j := (List.pairwise_cons.mp hfree.1).1
    have hpart : constantsMatch search path lastEnd (index - lastEnd) = some true := by
      refine constantsMatch_of_same fun i hle hlt => h i hle (by omega) fun hi => ?_
      rcases List.mem_cons.mp hi with rfl | hi
      · omega
      · have := habove i hi
        omega
    rw [List.cons_append, partsMatch, hpart]
    refine ih hfree.tail fun i hle hlt hi => h i (by omega) hlt ?_
    rw [List.mem_cons, not_or]
    exact ⟨by omega, hi⟩

theorem same_of_partsMatch {size : Nat}
    (h : partsMatch search path lastEnd (free ++ [size]) = some true) {i : Nat}
    (hle : lastEnd ≤ i) (hlt : i < size) (hi : i ∉ free) : search[i]? = path[i]? := by
  induction free generalizing lastEnd with
  | nil =>
    rw [List.nil_append, partsMatch] at h
    split at h
    next hpart => exact same_of_constantsMatch hpart hle (by omega)
    next hpart => exact absurd h hpart
  | cons index free ih =>
    rw [List.mem_cons, not_or] at hi
    rw [List.cons_append, partsMatch] at h
    split at h
    next hpart =>
      rcases Nat.lt_or_ge i index with hbefore | hafter
      · exact same_of_constantsMatch hpart hle (by omega)
      · exact ih h (by omega) hi.2
    next hpart => exact absurd h hpart

theorem variablesMatch_iff : variablesMatch C search path free = some true ↔
    ∀ i ∈ free, ∃ w v, path[i]? = some w ∧ search[i]? = some v ∧
      componentMatches C w v = some true := by
  induction free with
  | nil => simp [variablesMatch]
  | cons index free ih =>
    rw [variablesMatch, List.forall_mem_cons, ← ih]
    constructor
    · intro h
      split at h
      next w v hpath hsearch =>
        split at h
        next hmatch => exact ⟨⟨w, v, hpath, hsearch, hmatch⟩, h⟩
        next hmatch => exact absurd h hmatch
      next => cases h
    · rintro ⟨⟨w, v, hpath, hsearch, hmatch⟩, hrest⟩
      simp only [hpath, hsearch, hmatch, hrest]

/-- A wildcard matches what may stand for it. -/
theorem componentMatches_iff {w : KeyWrapper Value} {c : Component Value} (hw : C.IsWildcard w) :
    componentMatches C w (some c) = some true ↔ C.Fits w c := by
  cases w with
  | none => exact iff_of_true rfl trivial
  | some d =>
    have hkind : (C.kind d.1).isSome = true := hw
    rw [componentMatches, if_pos hkind, ComponentTypes.Fits]
    by_cases htype : d.1 = c.1
    · rw [if_neg (not_not.mpr htype), Option.some.injEq, decide_eq_true_eq]
      exact (and_iff_right htype).symm
    · rw [if_pos htype]
      exact iff_of_false (by rintro ⟨⟩) fun h => htype h.1

omit [∀ t, DecidableEq (Value t)] in
theorem extractKeys_eq_some_iff {types : List T} {args : List (Component Value)}
    (hlength : types.length = free.length) :
    extractKeys search free types = some args ↔
      args.map Sigma.fst = types ∧ ∀ p ∈ free.zip args, search[p.1]? = some (some p.2) := by
  induction free generalizing types args with
  | nil =>
    obtain rfl := List.eq_nil_of_length_eq_zero hlength
    cases args <;> simp [extractKeys]
  | cons index free ih =>
    obtain _ | ⟨t, types⟩ := types
    · cases hlength
    rw [List.length_cons, List.length_cons, Nat.add_right_cancel_iff] at hlength
    rw [extractKeys]
    constructor
    · intro h
      split at h
      next c hc =>
        split at h
        next ht =>
          obtain ⟨rest, hrest, rfl⟩ := Option.map_eq_some_iff.mp h
          obtain ⟨htypes, hfound⟩ := (ih hlength).mp hrest
          rw [List.map_cons, ht, htypes, List.zip_cons_cons, List.forall_mem_cons]
          exact ⟨rfl, Option.join_eq_some_iff.mp hc, hfound⟩
        next => cases h
      next => cases h
    · rintro ⟨htypes, hfound⟩
      obtain _ | ⟨c, args⟩ := args
      · cases htypes
      obtain ⟨ht, htypes⟩ := List.cons.inj htypes
      rw [List.zip_cons_cons, List.forall_mem_cons] at hfound
      rw [hfound.1, Option.join_some]
      dsimp only
      rw [if_pos ht, (ih hlength).mpr ⟨htypes, hfound.2⟩]
      rfl

end Compare

/-! ## The laws -/

variable {m : PathMatcher C} {args : List (Component Value)}

theorem matchPath_eq_some_some_iff {types : List T} {search : List (KeyWrapper Value)} :
    m.matchPath types search = some (some args) ↔
      types.length = m.free.length ∧ m.path.length = search.length ∧
        partsMatch search m.path 0 (m.free ++ [m.path.length]) = some true ∧
        variablesMatch C search m.path m.free = some true ∧
        extractKeys search m.free types = some args := by
  rw [matchPath]
  constructor
  · intro h
    split at h
    · cases h
    next htypes =>
      split at h
      · cases h
      next hlength =>
        split at h
        · cases h
        · cases h
        next hparts =>
          split at h
          · cases h
          · cases h
          next hvariables =>
            obtain ⟨found, hfound, heq⟩ := Option.map_eq_some_iff.mp h
            cases heq
            exact ⟨not_not.mp htypes, not_not.mp hlength, hparts, hvariables, hfound⟩
  · rintro ⟨htypes, hlength, hparts, hvariables, hfound⟩
    simp only [htypes, hlength, ne_eq, not_true_eq_false, if_false, hlength ▸ hparts, hvariables,
      hfound, Option.map_some]

/-- What `match` finds gives the path again. -/
theorem apply_of_matchPath {types : List T} {search : List (KeyWrapper Value)}
    (h : m.matchPath types search = some (some args)) : m.apply args = some search := by
  obtain ⟨htypes, hlength, hparts, -, hextract⟩ := matchPath_eq_some_some_iff.mp h
  obtain ⟨hargs, hfound⟩ := (extractKeys_eq_some_iff htypes).mp hextract
  have hcount : args.length = m.free.length := by
    rw [← htypes, ← hargs, List.length_map]
  rw [apply, if_pos hcount, Option.some.injEq]
  apply List.ext_getElem?
  intro i
  by_cases hi : i ∈ m.free
  · -- at a wildcard there is an argument
    obtain ⟨arg, hpair⟩ := exists_zip hcount hi
    rw [applyImpl_of_mem m.nodup_free (fun _ => m.lt_of_mem_free) hpair, hfound _ hpair]
  · rw [applyImpl_of_notMem hi]
    rcases Nat.lt_or_ge i m.path.length with hlt | hge
    · exact (same_of_partsMatch hparts (Nat.zero_le i) hlt hi).symm
    · rw [List.getElem?_eq_none hge, List.getElem?_eq_none (hlength ▸ hge)]

/-- The arguments come back when they have the types and the kinds of their wildcards. -/
theorem matchPath_of_apply_iff {result : List (KeyWrapper Value)} (h : m.apply args = some result) :
    m.matchPath (args.map Sigma.fst) result = some (some args) ↔
      ∀ p ∈ m.free.zip args, ∀ w, m.path[p.1]? = some w → C.Fits w p.2 := by
  rw [apply] at h
  split at h
  next hcount =>
    cases h
    have hset : ∀ p ∈ m.free.zip args, (applyImpl m.path m.free args)[p.1]? = some (some p.2) :=
      fun p hp => applyImpl_of_mem m.nodup_free (fun _ => m.lt_of_mem_free) hp
    have htypes : (args.map Sigma.fst).length = m.free.length := by rw [List.length_map, hcount]
    have hparts : partsMatch (applyImpl m.path m.free args) m.path 0
        (m.free ++ [m.path.length]) = some true := by
      refine partsMatch_of_same m.ascending_free fun i _ hlt hi => ?_
      obtain ⟨c, hc⟩ := m.bound_some i hlt hi
      exact ⟨c, hc, (applyImpl_of_notMem hi).trans hc⟩
    rw [matchPath_eq_some_some_iff, variablesMatch_iff, extractKeys_eq_some_iff htypes]
    constructor
    · rintro ⟨-, -, -, hvariables, -⟩ p hp w hw
      obtain ⟨w', v, hw', hv, hmatch⟩ := hvariables p.1 (List.of_mem_zip hp).1
      obtain ⟨_, hwild, hfree⟩ := m.free_wildcard p.1 (List.of_mem_zip hp).1
      rw [hset p hp] at hv
      rw [hw] at hw' hwild
      cases hw'
      cases hwild
      cases hv
      exact (componentMatches_iff hfree).mp hmatch
    · intro hfits
      refine ⟨htypes, (length_applyImpl ..).symm, hparts, fun i hi => ?_, rfl, hset⟩
      obtain ⟨w, hw, hfree⟩ := m.free_wildcard i hi
      obtain ⟨arg, hp⟩ := exists_zip hcount hi
      exact ⟨w, some arg, hw, hset _ hp, (componentMatches_iff hfree).mpr (hfits _ hp w hw)⟩
  next => cases h

/-- The arguments of `apply` come back from `match`, if they have the types of the wildcards. -/
def MatchesApplied (m : PathMatcher C) : Prop :=
  ∀ args result, (∀ p ∈ m.free.zip args, ∀ c, m.path[p.1]? = some (some c) → c.1 = p.2.1) →
    m.apply args = some result → m.matchPath (args.map Sigma.fst) result = some (some args)

theorem match_apply_iff (m : PathMatcher C) :
    (∀ args result, m.apply args = some result →
      (m.matchPath (args.map Sigma.fst) result = some (some args) ↔
        ∀ p ∈ m.free.zip args, ∀ w, m.path[p.1]? = some w → C.Fits w p.2)) ∧
      ∀ types search args, m.matchPath types search = some (some args) →
        m.apply args = some search :=
  ⟨fun _ _ h => matchPath_of_apply_iff h, fun _ _ _ h => apply_of_matchPath h⟩

end PathMatcher

end

/-! ## The definitions of a binary -/

inductive DefinitionKind where
  | invalid
  | rawFunctionDefinition
  | cabiFunctionDefinition
  deriving DecidableEq

def readDefinitionKind (text : Text) : DefinitionKind :=
  if text = "RawFunctionDefinition".toList then .rawFunctionDefinition
  else if text = "CABIFunctionDefinition".toList then .cabiFunctionDefinition
  else .invalid

inductive BinaryType where
  | index
  | kind
  | definitionKey
  deriving DecidableEq

def BinaryType.Value : BinaryType → Type
  | index => Nat
  | kind => DefinitionKind
  | definitionKey => Nat × DefinitionKind

instance : ∀ t : BinaryType, DecidableEq t.Value
  | .index => inferInstanceAs (DecidableEq Nat)
  | .kind => inferInstanceAs (DecidableEq DefinitionKind)
  | .definitionKey => inferInstanceAs (DecidableEq (Nat × DefinitionKind))

/-- The identifiers of the definitions are in decimal. -/
def binaryTypes : ComponentTypes BinaryType.Value DefinitionKind where
  index i := ⟨.index, i⟩
  initial
    | .index => (0 : Nat)
    | .kind => DefinitionKind.invalid
    | .definitionKey => ((0, .invalid) : Nat × DefinitionKind)
  read
    | .index, _ => (0 : Nat)
    | .kind, text => readDefinitionKind text
    | .definitionKey, text =>
        (((String.ofList (split '-' text).1).toNat?.getD 0, readDefinitionKind (split '-' text).2) :
          Nat × DefinitionKind)
  kind
    | .definitionKey => some Prod.snd
    | _ => none
  wildcard
    | .definitionKey, text => ((0, readDefinitionKind text) : Nat × DefinitionKind)
    | .index, _ => (0 : Nat)
    | .kind, _ => DefinitionKind.invalid

def binaryRoot : PathMatcher.NodeType BinaryType :=
  .struct ["TypeDefinitions".toList]
    [.container .definitionKey
      (.pointer .kind ["RawFunctionDefinition".toList, "CABIFunctionDefinition".toList]
        (fun _ => ["ID".toList]) fun _ => [.scalar])]

namespace PathMatcher

/-- A matcher for the definitions of one kind. -/
def rawDefinitions : PathMatcher binaryTypes :=
  (create binaryTypes binaryRoot "/TypeDefinitions/*-RawFunctionDefinition".toList).getD empty

def cabiKey : Component BinaryType.Value :=
  ⟨.definitionKey, ((1000, .cabiFunctionDefinition) : Nat × DefinitionKind)⟩

/-- A definition of another kind than the one the wildcard names is not found again. -/
theorem not_matchesApplied : ¬ rawDefinitions.MatchesApplied := by
  intro h
  have hfree : rawDefinitions.free = [1] := by decide
  have hpath : rawDefinitions.path[1]? =
      some (some ⟨.definitionKey, ((0, .rawFunctionDefinition) : Nat × DefinitionKind)⟩) := by
    decide
  have htypes : ∀ p ∈ rawDefinitions.free.zip [cabiKey], ∀ c,
      rawDefinitions.path[p.1]? = some (some c) → c.1 = p.2.1 := by
    intro p hp c hc
    rw [hfree] at hp
    obtain rfl : p = (1, cabiKey) := List.mem_singleton.mp hp
    rw [hpath] at hc
    cases hc
    rfl
  exact absurd (h [cabiKey] _ htypes rfl) (by decide)

end PathMatcher

end TupleTree
