import Mathlib.Data.List.Nodup
import Revng.TupleTree.TrackingSound

/-!
# Resolving a path

A path denotes a sub-object of a tree when every step is there: the field, the key, and for a
pointer an object of the kind that the path names (`Denotes`).  `callByPath` walks along a path
and calls a visitor on the last step.

The walk looks into a pointer without comparing the kind of the object with the one in the path.
So it can get into an object of another kind and reach the field with the same index there.  It
also looks into the pointer at which a path ends, and fails when that is empty.  And a path
without steps has no last one.  In every other case the walk succeeds on the paths that denote
something and visits that, and fails on the other ones (`resolves_iff`).
-/

namespace TupleTree

open SortedMerge

variable {S : Type} [LinearOrder S] [Inhabited S]

/-! ## What a path denotes -/

/-- The components of the path have the types that the schema asks for. -/
def WellTyped : Path S → Schema S → Prop
  | [], _ => True
  | .field i :: rest, .struct _ fields => ∃ f, fields[i]? = some f ∧ WellTyped rest f
  | .kind k :: .field i :: rest, .pointer _ _ alternatives =>
      ∃ f, (alternatives k)[i]? = some f ∧ WellTyped rest f
  | .key _ :: rest, .container _ element => WellTyped rest element
  | _, _ => False

/-- The sub-object at the end of the path, with its type. -/
inductive Denotes : Path S → Schema S → Tree S → Schema S × Tree S → Prop where
  | here (s : Schema S) (t : Tree S) : Denotes [] s t (s, t)
  | field {i : Nat} {rest : Path S} {key : List Nat} {fields : List (Schema S)}
      {ts : List (Tree S)} {f : Schema S} {x : Tree S} {r : Schema S × Tree S} :
      fields[i]? = some f → ts[i]? = some x → Denotes rest f x r →
      Denotes (.field i :: rest) (.struct key fields) (.struct ts) r
  | kind {k : S} {i : Nat} {rest : Path S} {key : List Nat} {kindField : Nat}
      {alternatives : S → List (Schema S)} {ts : List (Tree S)} {f : Schema S} {x : Tree S}
      {r : Schema S × Tree S} :
      (alternatives k)[i]? = some f → ts[i]? = some x → Denotes rest f x r →
      Denotes (.kind k :: .field i :: rest) (.pointer key kindField alternatives) (.object k ts) r
  | key {key : List S} {rest : Path S} {kind : ContainerKind} {element : Schema S} {t x : Tree S}
      {r : Schema S × Tree S} :
      x ∈ t.elements → element.keyOf x = key → Denotes rest element x r →
      Denotes (.key key :: rest) (.container kind element) t r

/-! ## The walk -/

namespace CallByPath

/-- `CallByPathVisitorWithInstance`: the visitor is called when the path has ended. -/
def visitElement (pathSize : Nat) (element : Schema S × Tree S) :
    Option (Bool × List (Schema S × Tree S)) → Option (Bool × List (Schema S × Tree S)) :=
  Option.map fun below => (below.1, if pathSize = 0 then element :: below.2 else below.2)

/-- `callOnPathSteps` with an instance, and the elements that the visitor is called on.  A
component of another type than expected cannot be read, and a scalar has no steps: then there is
no result. -/
def callOnPathSteps (pathSize : Nat) :
    Path S → Schema S → Tree S → Option (Bool × List (Schema S × Tree S))
  | [], .struct .., _ => some (true, [])
  | [], .container .., _ => some (true, [])
  | [], .scalar, _ => some (true, [])
  -- `upcast` gives up on an empty pointer before it looks at the path
  | _, .pointer .., .null => some (false, [])
  | [], .pointer .., _ => some (true, [])
  | .field i :: rest, .struct _ fields, .struct ts =>
      match fields[i]?, ts[i]? with
      | some f, some x =>
          visitElement (pathSize - 1) (f, x) (callOnPathSteps (pathSize - 1) rest f x)
      | _, _ => some (false, [])
  | .kind _ :: .field i :: rest, .pointer _ _ alternatives, .object k ts =>
      match (alternatives k)[i]?, ts[i]? with
      | some f, some x =>
          visitElement (pathSize - 2) (f, x) (callOnPathSteps (pathSize - 2) rest f x)
      | _, _ => some (false, [])
  | .key key :: rest, .container _ element, t =>
      match t.lookup element.keyOf key with
      | some x =>
          visitElement (pathSize - 1) (element, x) (callOnPathSteps (pathSize - 1) rest element x)
      | none => some (false, [])
  | _, _, _ => none

attribute [local simp] callOnPathSteps

/-- `callByPath` -/
def callByPath (path : Path S) (s : Schema S) (t : Tree S) :
    Option (Bool × List (Schema S × Tree S)) :=
  callOnPathSteps path.length path s t

/-- `getByPath`: the element that was visited last, if it has the expected type. -/
def getByPath (isExpected : Schema S → Bool) (path : Path S) (s : Schema S) (t : Tree S) :
    Option (Option (Schema S × Tree S)) :=
  (callByPath path s t).map fun called =>
    if called.1 then called.2.getLast?.filter fun r => isExpected r.1 else none

end CallByPath

/-- `callByPath` succeeds on what the path denotes and visits just that, and fails when the path
denotes nothing.  `getByPath` returns what the path denotes, if that has the expected type. -/
structure Resolves (path : Path S) (s : Schema S) (t : Tree S) : Prop where
  visits : ∀ r, Denotes path s t r → CallByPath.callByPath path s t = some (true, [r])
  fails : (¬ ∃ r, Denotes path s t r) →
    ∃ visited, CallByPath.callByPath path s t = some (false, visited)
  gets : ∀ isExpected r, Denotes path s t r →
    CallByPath.getByPath isExpected path s t = some (if isExpected r.1 then some r else none)
  getsNothing : (¬ ∃ r, Denotes path s t r) →
    ∀ isExpected, CallByPath.getByPath isExpected path s t = some none

variable {path : Path S} {s : Schema S} {t : Tree S}

/-- `getByPath` follows `callByPath`. -/
theorem Resolves.of_callByPath
    (hvisits : ∀ r, Denotes path s t r → CallByPath.callByPath path s t = some (true, [r]))
    (hfails : (¬ ∃ r, Denotes path s t r) →
      ∃ visited, CallByPath.callByPath path s t = some (false, visited)) : Resolves path s t where
  visits := hvisits
  fails := hfails
  gets isExpected r hr := by
    rw [CallByPath.getByPath, hvisits r hr]
    cases h : isExpected r.1 <;> simp [h]
  getsNothing hnone isExpected := by
    obtain ⟨visited, hwalk⟩ := hfails hnone
    rw [CallByPath.getByPath, hwalk]
    rfl

/-! ## Paths that lead into another object -/

/-- Whatever the kinds in the path are, it comes to a step that is not there, and the components
up to that have the types of the objects they are applied to. -/
inductive Stops : Path S → Schema S → Tree S → Prop where
  | noField {i : Nat} {rest : Path S} {key : List Nat} {fields : List (Schema S)}
      {ts : List (Tree S)} :
      fields[i]? = none → Stops (.field i :: rest) (.struct key fields) (.struct ts)
  | field {i : Nat} {rest : Path S} {key : List Nat} {fields : List (Schema S)}
      {ts : List (Tree S)} {f : Schema S} {x : Tree S} :
      fields[i]? = some f → ts[i]? = some x → Stops rest f x →
      Stops (.field i :: rest) (.struct key fields) (.struct ts)
  | null {path : Path S} {key : List Nat} {kindField : Nat} {alternatives : S → List (Schema S)} :
      Stops path (.pointer key kindField alternatives) .null
  | noKindField {k l : S} {i : Nat} {rest : Path S} {key : List Nat} {kindField : Nat}
      {alternatives : S → List (Schema S)} {ts : List (Tree S)} :
      (alternatives k)[i]? = none →
      Stops (.kind l :: .field i :: rest) (.pointer key kindField alternatives) (.object k ts)
  | kind {k l : S} {i : Nat} {rest : Path S} {key : List Nat} {kindField : Nat}
      {alternatives : S → List (Schema S)} {ts : List (Tree S)} {f : Schema S} {x : Tree S} :
      (alternatives k)[i]? = some f → ts[i]? = some x → Stops rest f x →
      Stops (.kind l :: .field i :: rest) (.pointer key kindField alternatives) (.object k ts)
  | noKey {key : List S} {rest : Path S} {kind : ContainerKind} {element : Schema S} {t : Tree S} :
      (∀ x ∈ t.elements, element.keyOf x ≠ key) →
      Stops (.key key :: rest) (.container kind element) t
  | key {key : List S} {rest : Path S} {kind : ContainerKind} {element : Schema S} {t x : Tree S} :
      x ∈ t.elements → element.keyOf x = key → Stops rest element x →
      Stops (.key key :: rest) (.container kind element) t

/-- The path goes through a pointer whose object has another kind than the path names, and does
not stop in that object. -/
inductive Misled : Path S → Schema S → Tree S → Prop where
  | here {k l : S} {i : Nat} {rest : Path S} {key : List Nat} {kindField : Nat}
      {alternatives : S → List (Schema S)} {ts : List (Tree S)} :
      l ≠ k →
      ¬ Stops (.kind l :: .field i :: rest) (.pointer key kindField alternatives) (.object k ts) →
      Misled (.kind l :: .field i :: rest) (.pointer key kindField alternatives) (.object k ts)
  | field {i : Nat} {rest : Path S} {key : List Nat} {fields : List (Schema S)}
      {ts : List (Tree S)} {f : Schema S} {x : Tree S} :
      fields[i]? = some f → ts[i]? = some x → Misled rest f x →
      Misled (.field i :: rest) (.struct key fields) (.struct ts)
  | kind {k : S} {i : Nat} {rest : Path S} {key : List Nat} {kindField : Nat}
      {alternatives : S → List (Schema S)} {ts : List (Tree S)} {f : Schema S} {x : Tree S} :
      (alternatives k)[i]? = some f → ts[i]? = some x → Misled rest f x →
      Misled (.kind k :: .field i :: rest) (.pointer key kindField alternatives) (.object k ts)
  | key {key : List S} {rest : Path S} {kind : ContainerKind} {element : Schema S} {t x : Tree S} :
      x ∈ t.elements → element.keyOf x = key → Misled rest element x →
      Misled (.key key :: rest) (.container kind element) t

/-! ## Steps of the path -/

variable {kind : ContainerKind} {x : Tree S}

/-- Two elements of a container do not have the same key. -/
theorem eq_of_keyOf_eq {element : Schema S} {y : Tree S}
    (h : (Schema.container kind element).Conforms t) (hx : x ∈ t.elements) (hy : y ∈ t.elements)
    (hkey : element.keyOf x = element.keyOf y) : x = y := by
  obtain ⟨ls, rfl, hls⟩ := Schema.Conforms.container h
  rw [Tree.elements_container] at hx hy
  have hnodup : (ls.map element.keyOf).Nodup :=
    List.pairwise_map.mpr (hls.ascending.imp fun hlt => ne_of_lt hlt)
  exact List.inj_on_of_nodup_map hnodup hx hy hkey

theorem lookup_of_mem {element : Schema S} (h : (Schema.container kind element).Conforms t)
    (hx : x ∈ t.elements) : t.lookup element.keyOf (element.keyOf x) = some x := by
  obtain ⟨ls, rfl, hls⟩ := Schema.Conforms.container h
  have hmem : element.keyOf x ∈ ls.map element.keyOf := by
    rw [Tree.elements_container] at hx
    exact List.mem_map_of_mem hx
  obtain ⟨y, hy⟩ := Option.isSome_iff_exists.mp (lookup_isSome.mpr hmem)
  obtain ⟨hyls, hkey⟩ := lookup_eq_some hy
  have hyt : y ∈ (Tree.container kind element.keyOf ls).elements := by
    rwa [Tree.elements_container]
  rw [hy, eq_of_keyOf_eq h hyt hx hkey]

theorem mem_of_lookup {element : Schema S} {key : List S}
    (h : (Schema.container kind element).Conforms t) (hx : t.lookup element.keyOf key = some x) :
    x ∈ t.elements ∧ element.keyOf x = key := by
  obtain ⟨ls, rfl, -⟩ := Schema.Conforms.container h
  rw [Tree.elements_container]
  exact lookup_eq_some hx

namespace CallByPath

omit [LinearOrder S] [Inhabited S] in
@[simp]
theorem visitElement_none (pathSize : Nat) (element : Schema S × Tree S) :
    visitElement pathSize element none = none := rfl

omit [LinearOrder S] [Inhabited S] in
@[simp]
theorem visitElement_some (pathSize : Nat) (element : Schema S × Tree S) (found : Bool)
    (below : List (Schema S × Tree S)) :
    visitElement pathSize element (some (found, below)) =
      some (found, if pathSize = 0 then element :: below else below) := rfl

/-- The walk comes to a step that is not there. -/
def Fails (pathSize : Nat) (path : Path S) (s : Schema S) (t : Tree S) : Prop :=
  ∃ visited, callOnPathSteps pathSize path s t = some (false, visited)

variable {pathSize : Nat}

omit [LinearOrder S] [Inhabited S] in
theorem visitElement_eq_false {element : Schema S × Tree S}
    {result : Option (Bool × List (Schema S × Tree S))} :
    (∃ visited, visitElement pathSize element result = some (false, visited)) ↔
      ∃ visited, result = some (false, visited) := by
  rcases result with _ | ⟨found, below⟩
  · simp
  · simp

theorem fails_field {i : Nat} {rest : Path S} {key : List Nat} {fields : List (Schema S)}
    {ts : List (Tree S)} {f : Schema S} {x : Tree S} (hf : fields[i]? = some f)
    (hx : ts[i]? = some x) :
    Fails pathSize (.field i :: rest) (.struct key fields) (.struct ts) ↔
      Fails (pathSize - 1) rest f x := by
  unfold Fails
  rw [callOnPathSteps, hf, hx]
  exact visitElement_eq_false

theorem fails_kind {i : Nat} {k l : S} {rest : Path S} {key : List Nat} {kindField : Nat}
    {alternatives : S → List (Schema S)} {ts : List (Tree S)} {f : Schema S} {x : Tree S}
    (hf : (alternatives k)[i]? = some f) (hx : ts[i]? = some x) :
    Fails pathSize (.kind l :: .field i :: rest) (.pointer key kindField alternatives)
      (.object k ts) ↔ Fails (pathSize - 2) rest f x := by
  unfold Fails
  rw [callOnPathSteps, hf, hx]
  exact visitElement_eq_false

theorem fails_key {key : List S} {rest : Path S} {kind : ContainerKind} {element : Schema S}
    {t x : Tree S} (hx : t.lookup element.keyOf key = some x) :
    Fails pathSize (.key key :: rest) (.container kind element) t ↔
      Fails (pathSize - 1) rest element x := by
  unfold Fails
  rw [callOnPathSteps, hx]
  exact visitElement_eq_false

end CallByPath

/-! ## The walk along a path that denotes something -/

variable {r : Schema S × Tree S}

omit [LinearOrder S] in
theorem Denotes.path_nil (h : Denotes [] s t r) : r = (s, t) := by
  cases h
  rfl

theorem Schema.Conforms.fields {key : List Nat} {fields : List (Schema S)} {ts : List (Tree S)}
    (h : (Schema.struct key fields).Conforms (.struct ts)) : Schema.AllConform fields ts := by
  rw [Schema.Conforms] at h
  obtain ⟨us, heq, hus⟩ := h
  cases heq
  exact hus

theorem Schema.Conforms.objectFields {key : List Nat} {kindField : Nat}
    {alternatives : S → List (Schema S)} {k : S} {ts : List (Tree S)}
    (h : (Schema.pointer key kindField alternatives).Conforms (.object k ts)) :
    Schema.AllConform (alternatives k) ts := by
  rw [Schema.Conforms] at h
  obtain heq | ⟨l, us, heq, -, hus⟩ := h
  · cases heq
  · cases heq
    exact hus

theorem Schema.Conforms.element {element : Schema S}
    (h : (Schema.container kind element).Conforms t) (hx : x ∈ t.elements) :
    element.Conforms x := by
  obtain ⟨ls, rfl, hls⟩ := Schema.Conforms.container h
  rw [Tree.elements_container] at hx
  exact (hls.conforms x hx).1

omit [LinearOrder S] in
theorem visited_cons {rest : Path S} {f : Schema S} (h : Denotes rest f x r) :
    (if rest.length = 0 then (f, x) :: (if rest = [] then [] else [r])
      else if rest = [] then [] else [r]) = [r] := by
  cases rest with
  | nil =>
    rw [h.path_nil]
    rfl
  | cons p rest => simp

/-- The walk visits the end of the path, if the path has a step, and fails if it is an empty
pointer. -/
theorem callOnPathSteps_of_denotes (h : Denotes path s t r) (hconf : s.Conforms t) :
    CallByPath.callOnPathSteps path.length path s t =
      some (decide (r.2 ≠ .null), if path = [] then [] else [r]) := by
  induction h with
  | here s t =>
    cases s with
    | scalar =>
      obtain ⟨v, rfl⟩ : ∃ v, t = .scalar v := by simpa [Schema.Conforms] using hconf
      simp [CallByPath.callOnPathSteps]
    | struct key fields =>
      rw [Schema.Conforms] at hconf
      obtain ⟨ts, rfl, -⟩ := hconf
      simp [CallByPath.callOnPathSteps]
    | pointer key kindField alternatives =>
      rw [Schema.Conforms] at hconf
      obtain rfl | ⟨k, ts, rfl, -, -⟩ := hconf
      · simp [CallByPath.callOnPathSteps]
      · simp [CallByPath.callOnPathSteps]
    | container kind element =>
      obtain ⟨ls, rfl, -⟩ := Schema.Conforms.container hconf
      cases kind with
      | sortedVector => simp [CallByPath.callOnPathSteps, Tree.container]
      | mutableSet => simp [CallByPath.callOnPathSteps, Tree.container]
  | @field i rest key fields ts f x r hf hx hrest ih =>
    rw [List.length_cons, CallByPath.callOnPathSteps, hf, hx, Nat.add_sub_cancel]
    simp only [ih (hconf.fields.get hf hx), CallByPath.visitElement_some]
    rw [visited_cons hrest, if_neg (List.cons_ne_nil _ _)]
  | @kind k i rest key kindField alternatives ts f x r hf hx hrest ih =>
    have hsize : rest.length + 1 + 1 - 2 = rest.length := rfl
    rw [List.length_cons, List.length_cons, CallByPath.callOnPathSteps, hf, hx, hsize]
    simp only [ih (hconf.objectFields.get hf hx), CallByPath.visitElement_some]
    rw [visited_cons hrest, if_neg (List.cons_ne_nil _ _)]
  | @key key rest kind element t x r hx hkey hrest ih =>
    subst hkey
    rw [List.length_cons, CallByPath.callOnPathSteps, lookup_of_mem hconf hx, Nat.add_sub_cancel]
    simp only [ih (hconf.element hx), CallByPath.visitElement_some]
    rw [visited_cons hrest, if_neg (List.cons_ne_nil _ _)]

/-! ## The walk fails where the path stops -/

theorem Stops.fails (h : Stops path s t) (hconf : s.Conforms t) :
    ∀ pathSize, CallByPath.Fails pathSize path s t := by
  induction h with
  | noField hf =>
    intro pathSize
    exact ⟨[], by simp [CallByPath.callOnPathSteps, hf]⟩
  | field hf hx _ ih =>
    intro pathSize
    exact (CallByPath.fails_field hf hx).mpr (ih (hconf.fields.get hf hx) _)
  | null =>
    intro pathSize
    exact ⟨[], by simp [CallByPath.callOnPathSteps]⟩
  | noKindField hf =>
    intro pathSize
    exact ⟨[], by simp [CallByPath.callOnPathSteps, hf]⟩
  | kind hf hx _ ih =>
    intro pathSize
    exact (CallByPath.fails_kind hf hx).mpr (ih (hconf.objectFields.get hf hx) _)
  | @noKey key rest kind element t hkey =>
    intro pathSize
    have hnone : t.lookup element.keyOf key = none := by
      refine Option.eq_none_iff_forall_ne_some.mpr fun x hx => ?_
      obtain ⟨hmem, hxkey⟩ := mem_of_lookup hconf hx
      exact hkey x hmem hxkey
    exact ⟨[], by rw [CallByPath.callOnPathSteps, hnone]⟩
  | key hx hkey _ ih =>
    intro pathSize
    subst hkey
    exact (CallByPath.fails_key (lookup_of_mem hconf hx)).mpr (ih (hconf.element hx) _)

theorem CallByPath.Fails.stops {pathSize : Nat} (h : CallByPath.Fails pathSize path s t)
    (hconf : s.Conforms t) : Stops path s t := by
  induction pathSize, path, s, t using CallByPath.callOnPathSteps.induct with
  | case1 | case2 | case3 =>
    obtain ⟨visited, h⟩ := h
    simp [CallByPath.callOnPathSteps] at h
  | case4 => exact .null
  | case5 pathSize key kindField alternatives t hnull =>
    obtain ⟨visited, h⟩ := h
    rw [CallByPath.callOnPathSteps] at h
    · simp at h
    · exact hnull
  | case6 pathSize i rest key fields ts f x hx hf ih =>
    exact .field hf hx (ih ((CallByPath.fails_field hf hx).mp h) (hconf.fields.get hf hx))
  | case7 pathSize i rest key fields ts hnone =>
    refine .noField (Option.eq_none_iff_forall_ne_some.mpr fun f hf => ?_)
    obtain ⟨x, hx⟩ := hconf.fields.exists_value hf
    exact hnone f x hf hx
  | case8 pathSize l i rest key kindField alternatives k ts f x hx hf ih =>
    exact .kind hf hx (ih ((CallByPath.fails_kind hf hx).mp h) (hconf.objectFields.get hf hx))
  | case9 pathSize l i rest key kindField alternatives k ts hnone =>
    refine .noKindField (Option.eq_none_iff_forall_ne_some.mpr fun f hf => ?_)
    obtain ⟨x, hx⟩ := hconf.objectFields.exists_value hf
    exact hnone f x hf hx
  | case10 pathSize key rest kind element t x hx ih =>
    obtain ⟨hmem, hkey⟩ := mem_of_lookup hconf hx
    exact .key hmem hkey (ih ((CallByPath.fails_key hx).mp h) (hconf.element hmem))
  | case11 pathSize key rest kind element t hnone =>
    refine .noKey fun x hx hkey => ?_
    subst hkey
    simp [lookup_of_mem hconf hx] at hnone
  | case12 pathSize path s t hnull hstruct hcontainer hscalar hpointer hfield hkind hkey =>
    obtain ⟨visited, h⟩ := h
    rw [CallByPath.callOnPathSteps] at h <;> first | assumption | simp at h

/-! ## Paths that are not misled -/

theorem Misled.not_stops (h : Misled path s t) (hconf : s.Conforms t) : ¬ Stops path s t := by
  induction h with
  | here _ hstops => exact hstops
  | field hf hx _ ih =>
    intro hstops
    cases hstops with
    | noField hf' => simp [hf] at hf'
    | field hf' hx' hrest =>
      cases Option.some.inj (hf.symm.trans hf')
      cases Option.some.inj (hx.symm.trans hx')
      exact ih (hconf.fields.get hf hx) hrest
  | kind hf hx _ ih =>
    intro hstops
    cases hstops with
    | noKindField hf' => simp [hf] at hf'
    | kind hf' hx' hrest =>
      cases Option.some.inj (hf.symm.trans hf')
      cases Option.some.inj (hx.symm.trans hx')
      exact ih (hconf.objectFields.get hf hx) hrest
  | key hx hkey _ ih =>
    intro hstops
    cases hstops with
    | noKey hnone => exact hnone _ hx hkey
    | key hx' hkey' hrest =>
      cases eq_of_keyOf_eq hconf hx hx' (hkey.trans hkey'.symm)
      exact ih (hconf.element hx) hrest

theorem Denotes.not_misled (h : Denotes path s t r) (hconf : s.Conforms t) : ¬ Misled path s t := by
  induction h with
  | here => intro hmisled; cases hmisled
  | field hf hx _ ih =>
    intro hmisled
    cases hmisled with
    | field hf' hx' hrest =>
      cases Option.some.inj (hf.symm.trans hf')
      cases Option.some.inj (hx.symm.trans hx')
      exact ih (hconf.fields.get hf hx) hrest
  | kind hf hx _ ih =>
    intro hmisled
    cases hmisled with
    | here hne => exact hne rfl
    | kind hf' hx' hrest =>
      cases Option.some.inj (hf.symm.trans hf')
      cases Option.some.inj (hx.symm.trans hx')
      exact ih (hconf.objectFields.get hf hx) hrest
  | key hx hkey _ ih =>
    intro hmisled
    cases hmisled with
    | key hx' hkey' hrest =>
      cases eq_of_keyOf_eq hconf hx hx' (hkey.trans hkey'.symm)
      exact ih (hconf.element hx) hrest

/-- A path that denotes nothing stops, if it is not misled. -/
theorem stops_of_not_denotes (hpath : WellTyped path s) (hconf : s.Conforms t)
    (hdenotes : ¬ ∃ r, Denotes path s t r) (hmisled : ¬ Misled path s t) : Stops path s t := by
  induction path, s using WellTyped.induct generalizing t with
  | case1 s => exact absurd ⟨_, .here s t⟩ hdenotes
  | case2 i rest key fields ih =>
    obtain ⟨f, hf, hrest⟩ := hpath
    obtain ⟨ts, rfl⟩ : ∃ ts, t = .struct ts := by
      rw [Schema.Conforms] at hconf
      obtain ⟨ts, rfl, -⟩ := hconf
      exact ⟨ts, rfl⟩
    obtain ⟨x, hx⟩ := hconf.fields.exists_value hf
    refine .field hf hx (ih f hrest (hconf.fields.get hf hx) ?_ ?_)
    · rintro ⟨r, hr⟩
      exact hdenotes ⟨r, .field hf hx hr⟩
    · exact fun h => hmisled (.field hf hx h)
  | case3 l i rest key kindField alternatives ih =>
    obtain ⟨f, hf, hrest⟩ := hpath
    obtain rfl | ⟨k, ts, rfl⟩ : t = .null ∨ ∃ k ts, t = .object k ts := by
      rw [Schema.Conforms] at hconf
      obtain hnull | ⟨k, ts, hobject, -⟩ := hconf
      · exact Or.inl hnull
      · exact Or.inr ⟨k, ts, hobject⟩
    · exact .null
    · by_cases hkind : l = k
      · subst hkind
        obtain ⟨x, hx⟩ := hconf.objectFields.exists_value hf
        refine .kind hf hx (ih f hrest (hconf.objectFields.get hf hx) ?_ ?_)
        · rintro ⟨r, hr⟩
          exact hdenotes ⟨r, .kind hf hx hr⟩
        · exact fun h => hmisled (.kind hf hx h)
      · by_contra hstops
        exact hmisled (.here hkind hstops)
  | case4 key rest kind element ih =>
    by_cases hkey : ∃ x ∈ t.elements, element.keyOf x = key
    · obtain ⟨x, hx, hxkey⟩ := hkey
      refine .key hx hxkey (ih hpath (hconf.element hx) ?_ ?_)
      · rintro ⟨r, hr⟩
        exact hdenotes ⟨r, .key hx hxkey hr⟩
      · exact fun h => hmisled (.key hx hxkey h)
    · exact .noKey fun x hx hxkey => hkey ⟨x, hx, hxkey⟩
  | case5 path s hnil hfield hkind hkey =>
    rw [WellTyped] at hpath <;> first | assumption | exact hpath.elim

/-! ## When a path is resolved -/

theorem fails_iff_stops (hconf : s.Conforms t) :
    (∃ visited, CallByPath.callByPath path s t = some (false, visited)) ↔ Stops path s t :=
  ⟨fun h => CallByPath.Fails.stops h hconf, fun h => h.fails hconf path.length⟩

/-- The walk goes right on the paths that have a step, do not end at an empty pointer, and are not
misled by an object of another kind, and only on these. -/
theorem resolves_iff {s : RootSchema S} (t : TreeOf s) {path : Path S}
    (hpath : WellTyped path s.toSchema) :
    Resolves path s.toSchema t.root ↔
      path ≠ [] ∧ (∀ f, ¬ Denotes path s.toSchema t.root (f, .null)) ∧
        ¬ Misled path s.toSchema t.root := by
  have hconf := t.conforms
  constructor
  · intro h
    have hwalk : ∀ r, Denotes path s.toSchema t.root r → r.2 ≠ .null ∧ path ≠ [] := by
      intro r hr
      have hvisits := (callOnPathSteps_of_denotes hr hconf).symm.trans (h.visits r hr)
      simp only [Option.some.injEq, Prod.mk.injEq, decide_eq_true_eq] at hvisits
      refine ⟨hvisits.1, fun hnil => ?_⟩
      simp [hnil] at hvisits
    refine ⟨?_, fun f hf => (hwalk _ hf).1 rfl, fun hmisled => ?_⟩
    · rintro rfl
      exact (hwalk _ (.here _ _)).2 rfl
    · have hnone : ¬ ∃ r, Denotes path s.toSchema t.root r :=
        fun ⟨_, hr⟩ => hr.not_misled hconf hmisled
      exact hmisled.not_stops hconf ((fails_iff_stops hconf).mp (h.fails hnone))
  · rintro ⟨hne, hnull, hmisled⟩
    refine Resolves.of_callByPath ?_ ?_
    · intro r hr
      have hrnull : r.2 ≠ .null := by
        obtain ⟨f, x⟩ := r
        rintro rfl
        exact hnull f hr
      have hwalk := callOnPathSteps_of_denotes hr hconf
      rwa [decide_eq_true hrnull, if_neg hne] at hwalk
    · intro hnone
      exact (fails_iff_stops hconf).mpr (stops_of_not_denotes hpath hconf hnone hmisled)

/-- The path names the kind of the prototype. -/
theorem resolves_prototype : Resolves [.field 0, .kind 1, .field 0] functionSchema.toSchema
    (functionTree true [] List.Pairwise.nil).root := by
  have hpath : WellTyped [.field 0, .kind 1, .field 0] functionSchema.toSchema :=
    ⟨_, rfl, _, rfl, trivial⟩
  refine (resolves_iff (functionTree true [] List.Pairwise.nil) hpath).mpr ⟨by simp, ?_, ?_⟩
  · rintro f (_ | ⟨hf, hx, _ | _ | ⟨_, hy, hrest⟩⟩)
    cases hx
    cases hrest
    cases hy
  · rintro (_ | ⟨hf, hx, hmisled⟩)
    cases hf
    cases hx
    cases hmisled with
    | here hne => exact hne rfl
    | kind hg hy hrest =>
        cases hg
        cases hy
        cases hrest

/-- The prototype has the kind `1`, but the path that asks for the kind `2` gets into it. -/
theorem not_resolves_otherKind :
    WellTyped [.field 0, .kind 2, .field 0] functionSchema.toSchema ∧
      ¬ Resolves [.field 0, .kind 2, .field 0] functionSchema.toSchema
        (functionTree true [] List.Pairwise.nil).root := by
  refine ⟨⟨_, rfl, _, rfl, trivial⟩, fun h => ?_⟩
  have hnone : ¬ ∃ r, Denotes [.field 0, .kind 2, .field 0] functionSchema.toSchema
      (functionTree true [] List.Pairwise.nil).root r := by
    rintro ⟨r, hr⟩
    cases hr with
    | field hf hx hrest =>
        cases hf
        cases hx
        cases hrest
  have hwalk : CallByPath.callByPath [.field 0, .kind 2, .field 0] functionSchema.toSchema
      (functionTree true [] List.Pairwise.nil).root = some (true, [(.scalar, .scalar 1)]) := rfl
  obtain ⟨visited, hfails⟩ := h.fails hnone
  simp [hwalk] at hfails

end TupleTree
