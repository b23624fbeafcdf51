import Revng.TupleTree.Replay

/-!
# The place of a change

The path of a change leads to one place of the tree, if it leads anywhere.  `apply`
visits that place and nothing else: the tree it leaves has the visited value there
(`arrive_of_place`), and is the same tree when the path is not present
(`arrive_of_place_none`).
-/

namespace TupleTree

open SortedMerge

variable {S : Type} [LinearOrder S] [Inhabited S]

/-- Where a path leads, with the type of the value there. -/
def place : Path S → Schema S → Tree S → Option (Schema S × Tree S)
  | [], s, t => some (s, t)
  | .field i :: rest, .struct _ fields, .struct ts =>
      match fields[i]?, ts[i]? with
      | some f, some x => place rest f x
      | _, _ => none
  | .kind _ :: .field i :: rest, .pointer _ _ alternatives, .object k ts =>
      match (alternatives k)[i]?, ts[i]? with
      | some f, some x => place rest f x
      | _, _ => none
  | .key key :: rest, .container _ element, t =>
      match t.find element.keyOf key with
      | some i =>
          match t.elements[i]? with
          | some x => place rest element x
          | none => none
      | none => none
  | _, _, _ => none

/-- The tree with another value where the path leads. -/
def replaceAt (y : Tree S) : Path S → Schema S → Tree S → Tree S
  | [], _, _ => y
  | .field i :: rest, .struct _ fields, .struct ts =>
      match fields[i]?, ts[i]? with
      | some f, some x => .struct (ts.set i (replaceAt y rest f x))
      | _, _ => .struct ts
  | .kind _ :: .field i :: rest, .pointer _ _ alternatives, .object k ts =>
      match (alternatives k)[i]?, ts[i]? with
      | some f, some x => .object k (ts.set i (replaceAt y rest f x))
      | _, _ => .object k ts
  | .key key :: rest, .container _ element, t =>
      match t.find element.keyOf key with
      | some i =>
          match t.elements[i]? with
          | some x => t.setElement i (replaceAt y rest element x)
          | none => t
      | none => t
  | _, _, t => t

def Schema.isPointer : Schema S → Bool
  | .pointer .. => true
  | _ => false

/-! ## What `apply` does at the place -/

omit [Inhabited S] in
/-- A leaf is left alone or replaced, and it is replaced when the old value matches. -/
theorem visitLeaf_cases (isPointer : Bool) (old new : Option (Tree S)) (t : Tree S) :
    (∃ failure, visitLeaf isPointer old new t = (t, some failure)) ∨
      (old = some t ∨ isPointer = true ∧ old = none ∧ t = .null) ∧
        ((∃ x, new = some x ∧ visitLeaf isPointer old new t = (x, none)) ∨
          isPointer = true ∧ new = none ∧ visitLeaf isPointer old new t = (.null, none)) := by
  by_cases hold : old = some t ∨ isPointer = true ∧ old = none ∧ t = .null
  · cases new with
    | some x =>
      refine Or.inr ⟨hold, Or.inl ⟨x, rfl, ?_⟩⟩
      rcases hold with rfl | ⟨rfl, rfl, rfl⟩ <;> simp [visitLeaf]
    | none =>
      cases isPointer with
      | true =>
        refine Or.inr ⟨hold, Or.inr ⟨rfl, rfl, ?_⟩⟩
        rcases hold with rfl | ⟨-, rfl, rfl⟩ <;> simp [visitLeaf]
      | false =>
        obtain rfl : old = some t := by simpa using hold
        exact Or.inl ⟨⟨"Missing 'Add' key", .new⟩, by simp [visitLeaf]⟩
  · left
    obtain ⟨hsome, hnone⟩ := not_or.mp hold
    cases old with
    | some x =>
      have hx : x ≠ t := fun h => hsome (h ▸ rfl)
      exact ⟨⟨"`Remove` does not match the contents of the Tuple Tree", .old⟩,
        by simp [visitLeaf, hx]⟩
    | none =>
      cases isPointer with
      | true =>
        have ht : t ≠ .null := fun h => hnone ⟨rfl, rfl, h⟩
        exact ⟨⟨"`Remove` does not match the contents of the pointer within the Tree", .old⟩,
          by simp [visitLeaf, ht]⟩
      | false => exact ⟨⟨"Missing `Remove` key", .old⟩, by simp [visitLeaf]⟩

/-- The visit of a place: `callOnPathSteps` looks into a pointer once more. -/
def visitPlace (old new : Option (Tree S)) (f : Schema S) (x : Tree S) :
    Tree S × Option Failure × Bool :=
  let visited := visit old new f x
  (visited.1, visited.2, !(f.isPointer && visited.1 = .null))

theorem callOnPathSteps_nil (old new : Option (Tree S)) (s : Schema S) (t : Tree S) :
    callOnPathSteps old new [] s t = (t, none, !(s.isPointer && t = .null)) := by
  cases s <;> simp [callOnPathSteps, Schema.isPointer]

variable {x : Tree S}

omit [LinearOrder S] [Inhabited S] in
theorem set_of_getElem? {ts : List (Tree S)} {i : Nat} (h : ts[i]? = some x) : ts.set i x = ts := by
  obtain ⟨hi, rfl⟩ := List.getElem?_eq_some_iff.mp h
  exact List.set_getElem_self hi

variable {t : Tree S}

omit [LinearOrder S] [Inhabited S] in
theorem Tree.setElement_of_getElem? {i : Nat} (h : t.elements[i]? = some x) :
    t.setElement i x = t := by
  cases t with
  | sortedVector xs => exact congrArg Tree.sortedVector (set_of_getElem? h)
  | mutableSet nodes xs => exact congrArg (Tree.mutableSet nodes) (set_of_getElem? h)
  | scalar | struct | null | object => rfl

/-- `apply` visits the place and puts the visited value there.  The induction goes along
the path. -/
theorem arrive_eq (old new : Option (Tree S)) (path : Path S) (s : Schema S) (t : Tree S) :
    arrive old new path s t =
      match place path s t with
      | none => (t, none, false)
      | some (f, x) =>
        let visited := visitPlace old new f x
        (replaceAt visited.1 path s t, visited.2) := by
  fun_induction place path s t with
  | case1 s t => simp [arrive, callOnPathSteps_nil, visitPlace, replaceAt]
  | case2 i rest key fields ts f x hx hf ih =>
    have hstep : arrive old new (.field i :: rest) (.struct key fields) (.struct ts) =
        (.struct (ts.set i (arrive old new rest f x).1), (arrive old new rest f x).2) := by
      simp [arrive, callOnPathSteps, hf, hx]
    rw [hstep, ih]
    cases place rest f x with
    | none => simp [set_of_getElem? hx]
    | some found => simp [replaceAt, hf, hx]
  | case3 i rest key fields ts hnone =>
    have hstep : callOnPathSteps old new (.field i :: rest) (.struct key fields) (.struct ts) =
        (.struct ts, none, false) := by
      rw [callOnPathSteps]
      split
      next f x hf hx => exact (hnone f x hf hx).elim
      next => rfl
    simp [arrive, hstep]
  | case4 l i rest key kindField alternatives k ts f x hx hf ih =>
    have hstep : arrive old new (.kind l :: .field i :: rest)
        (.pointer key kindField alternatives) (.object k ts) =
        (.object k (ts.set i (arrive old new rest f x).1), (arrive old new rest f x).2) := by
      simp [arrive, callOnPathSteps, hf, hx]
    rw [hstep, ih]
    cases place rest f x with
    | none => simp [set_of_getElem? hx]
    | some found => simp [replaceAt, hf, hx]
  | case5 l i rest key kindField alternatives k ts hnone =>
    have hstep : callOnPathSteps old new (.kind l :: .field i :: rest)
        (.pointer key kindField alternatives) (.object k ts) = (.object k ts, none, false) := by
      rw [callOnPathSteps]
      split
      next f x hf hx => exact (hnone f x hf hx).elim
      next => rfl
    simp [arrive, hstep]
  | case6 key rest kind element t i hi x hx ih =>
    have hstep : arrive old new (.key key :: rest) (.container kind element) t =
        (t.setElement i (arrive old new rest element x).1,
          (arrive old new rest element x).2) := by
      simp [arrive, callOnPathSteps, hi, hx]
    rw [hstep, ih]
    cases place rest element x with
    | none => simp [Tree.setElement_of_getElem? hx]
    | some found => simp [replaceAt, hi, hx]
  | case7 key rest kind element t i hi hx => simp [arrive, callOnPathSteps, hi, hx]
  | case8 key rest kind element t hi => simp [arrive, callOnPathSteps, hi]
  | case9 path s t hnil hfield hkind hkey =>
    have hstep : callOnPathSteps old new path s t = (t, none, false) := by
      unfold callOnPathSteps
      split
      · exact absurd rfl hnil
      · exact absurd rfl hnil
      · exact (hfield _ _ _ _ _ rfl rfl rfl).elim
      · exact (hkind _ _ _ _ _ _ _ _ rfl rfl rfl).elim
      · exact (hkey _ _ _ _ rfl rfl).elim
      · rfl
    have hpath : path ≠ [] := hnil
    simp [arrive, hpath, hstep]

variable {s : Schema S}

/-- The value at a place is put back. -/
theorem replaceAt_place {path : Path S} {f : Schema S} (h : place path s t = some (f, x)) :
    replaceAt x path s t = t := by
  fun_induction place path s t with
  | case1 s t => simp_all [replaceAt]
  | case2 i rest key fields ts f' x' hx hf ih =>
    simp [replaceAt, hf, hx, ih h, set_of_getElem? hx]
  | case4 l i rest key kindField alternatives k ts f' x' hx hf ih =>
    simp [replaceAt, hf, hx, ih h, set_of_getElem? hx]
  | case6 key rest kind element t i hi x' hx ih =>
    simp [replaceAt, hi, hx, ih h, Tree.setElement_of_getElem? hx]
  | case3 | case5 | case7 | case8 | case9 => simp at h

/-! ## One change -/

/-- The reasons that a change is reported with. -/
def Change.reasons (c : Change S) (index : Nat) (r : Option Failure × Bool) : List (Reason S) :=
  r.1.toList.map (⟨index, c.path, ·⟩) ++
    if r.2 then [] else [⟨index, c.path, ⟨"Path not present", .path⟩⟩]

variable {c : Change S}

omit [LinearOrder S] [Inhabited S] in
theorem Change.reasons_eq_nil_iff {index : Nat} {r : Option Failure × Bool} :
    c.reasons index r = [] ↔ r = (none, true) := by
  obtain ⟨failure, found⟩ := r
  cases failure <;> cases found <;> simp [Change.reasons]

theorem applyChange_of_path (h : c.path ≠ []) (index : Nat) (t : Tree S) :
    applyChange s index c t =
      ((arrive c.old c.new c.path s t).1,
        c.reasons index (arrive c.old c.new c.path s t).2) := by
  simp [applyChange, h, arrive, Change.reasons]

theorem applyChange_of_place {f : Schema S} (h : c.path ≠ [])
    (hplace : place c.path s t = some (f, x)) (index : Nat) :
    applyChange s index c t =
      (replaceAt (visitPlace c.old c.new f x).1 c.path s t,
        c.reasons index (visitPlace c.old c.new f x).2) := by
  rw [applyChange_of_path h, arrive_eq, hplace]

theorem applyChange_of_place_none (h : c.path ≠ []) (hplace : place c.path s t = none)
    (index : Nat) : applyChange s index c t = (t, c.reasons index (none, false)) := by
  rw [applyChange_of_path h, arrive_eq, hplace]

end TupleTree
