import Mathlib.Data.List.Perm.Subperm
import Revng.TupleTree.ReplayContainer
import Revng.TupleTree.Tracking

/-!
# What the tracking covers

When no path of the diff has been collected, the reads return the same on the new tree
unless they look at something that is not tracked: the object behind a pointer, a key field
of a struct outside of containers, or the number of elements that `asVector` yields
(`Agree`).
-/

namespace TupleTree

open SortedMerge

variable {S : Type} [LinearOrder S] [Inhabited S]

/-! ## The paths of the parts of a diff -/

variable {p : PathComponent S}

omit [LinearOrder S] [Inhabited S] in
theorem atPath_cons {s s' : Schema S} (h : s.step p = some s') (path : Path S) :
    s.atPath (p :: path) = s'.atPath path := by
  simp [Schema.atPath, h]

omit [LinearOrder S] in
theorem elementPath_under {s s' : Schema S} (h : s.step p = some s') (c : Change S) :
    elementPath s (c.under [p]) = (elementPath s' c).map (p :: ·) := by
  unfold elementPath
  simp only [Change.under, List.cons_append, List.nil_append, atPath_cons h]
  split
  next => rfl
  next =>
    split
    next => rfl
    next => rfl

/-- The component `p` leads from the pair of trees `x`, `y` to the pair `a`, `b`, and the
diff follows. -/
structure SubDiff (s : Schema S) (x y : Tree S) (p : PathComponent S) (s' : Schema S)
    (a b : Tree S) : Prop where
  step : s.step p = some s'
  diff : ∀ d ∈ diff s' a b, d.under [p] ∈ TupleTree.diff s x y

/-- No path of the diff has been collected. -/
def Clear (collected : ReadFields S) (path : Path S) (s : Schema S) (x y : Tree S) : Prop :=
  ∀ q ∈ diffPaths s (diff s x y), path ++ q ∉ collected.read ∧ path ++ q ∉ collected.exactVectors

variable {path : Path S}

variable {x : Tree S}

theorem Clear.sub {collected : ReadFields S} {s s' : Schema S} {y a b : Tree S}
    (h : Clear collected path s x y) (hsub : SubDiff s x y p s' a b) :
    Clear collected (path ++ [p]) s' a b := by
  intro q hq
  have hmem : p :: q ∈ diffPaths s (diff s x y) := by
    obtain ⟨c, hc, hq⟩ := List.mem_flatMap.mp hq
    refine List.mem_flatMap.mpr ⟨c.under [p], hsub.diff c hc, ?_⟩
    rw [elementPath_under hsub.step]
    rcases List.mem_cons.mp hq with rfl | hq
    · simp [Change.under]
    · rw [Option.mem_toList] at hq
      simp [hq]
  rw [List.append_assoc]
  exact h _ hmem

variable {fields : List (Schema S)}

variable {f : Schema S}

theorem mem_diffTuple_of {d : Change S} {l r : Tree S} :
    ∀ {i j : Nat} {ls rs : List (Tree S)}, fields[j]? = some f → ls[j]? = some l →
      rs[j]? = some r → d ∈ diff f l r →
      d.under [.field (i + j)] ∈ diffTuple [] i fields ls rs := by
  induction fields with
  | nil => simp
  | cons g gs ih =>
    intro i j ls rs hf hl hr hd
    cases ls with
    | nil => simp at hl
    | cons l' ls =>
      cases rs with
      | nil => simp at hr
      | cons r' rs =>
        rw [diffTuple_cons, List.mem_append]
        cases j with
        | zero =>
          simp only [List.getElem?_cons_zero, Option.some.injEq] at hf hl hr
          subst hf hl hr
          exact Or.inl (List.mem_map_of_mem hd)
        | succ j =>
          simp only [List.getElem?_cons_succ] at hf hl hr
          have hmem := ih (i := i + 1) hf hl hr hd
          rw [Nat.add_assoc, Nat.add_comm 1 j] at hmem
          exact Or.inr hmem

variable {key : List Nat}

theorem subDiff_field {fs gs : List (Tree S)} {i : Nat} {a b : Tree S} (hf : fields[i]? = some f)
    (ha : fs[i]? = some a) (hb : gs[i]? = some b) :
    SubDiff (.struct key fields) (.struct fs) (.struct gs) (.field i) f a b where
  step := hf
  diff d hd := by
    rw [diff_struct]
    simpa using mem_diffTuple_of (i := 0) hf ha hb hd

variable {kindField : Nat} {alternatives : S → List (Schema S)}

theorem subDiff_kind {k : S} {fs gs : List (Tree S)} :
    SubDiff (.pointer key kindField alternatives) (.object k fs) (.object k gs) (.kind k)
      (.struct key (alternatives k)) (.struct fs) (.struct gs) where
  step := rfl
  diff d hd := by
    rw [diff_object]
    exact List.mem_map_of_mem hd

variable {kind : ContainerKind} {element : Schema S} {ls : List (Tree S)}

theorem subDiff_key {rs : List (Tree S)} {l r : Tree S} (hls : element.Elements ls)
    (hrs : element.Elements rs) (hl : l ∈ ls) (hr : r ∈ rs)
    (hkey : element.keyOf l = element.keyOf r) :
    SubDiff (.container kind element) (Tree.container kind element.keyOf ls)
      (Tree.container kind element.keyOf rs) (.key (element.keyOf l)) element l r where
  step := rfl
  diff d hd := by
    rw [diff_container, Tree.elements_container, Tree.elements_container]
    exact List.mem_flatMap.mpr ⟨.both l r, both_mem_zipmap hls.ascending hrs.ascending hl hr hkey,
      List.mem_map_of_mem hd⟩

/-! ## Lookups -/

omit [LinearOrder S] [Inhabited S] in
theorem findIdx?_bind {α : Type} (p : α → Bool) (xs : List α) :
    ((xs.findIdx? p).bind fun i => xs[i]?) = xs.find? p := by
  induction xs with
  | nil => rfl
  | cons x xs ih =>
    rw [List.findIdx?_cons, List.find?_cons]
    cases p x with
    | true => rfl
    | false =>
      rw [← ih]
      cases xs.findIdx? p <;> rfl

/-- In a container of the schema, the nodes have the keys of their elements. -/
theorem lookup_container {k : List S} :
    (Tree.container kind element.keyOf ls).lookup element.keyOf k =
      ls.find? (element.keyOf · = k) := by
  cases kind with
  | sortedVector => exact findIdx?_bind _ ls
  | mutableSet =>
    simp only [Tree.lookup, Tree.container, Tree.find, Tree.elements, List.findIdx?_map]
    exact findIdx?_bind _ ls

theorem lookup_eq_some {k : List S}
    (h : (Tree.container kind element.keyOf ls).lookup element.keyOf k = some x) :
    x ∈ ls ∧ element.keyOf x = k := by
  rw [lookup_container] at h
  exact ⟨List.mem_of_find?_eq_some h, by simpa using List.find?_some h⟩

theorem lookup_isSome {k : List S} :
    ((Tree.container kind element.keyOf ls).lookup element.keyOf k).isSome ↔
      k ∈ ls.map element.keyOf := by
  rw [lookup_container, List.find?_isSome]
  simp

/-! ## The marks are collected -/

/-- The paths that stand for a mark have been collected. -/
def Mark.Collected (collected : ReadFields S) : Mark S → Prop
  | .field path => path ∈ collected.read
  | .key path k => path ++ [.key k] ∈ collected.read
  | .exact path => path ∈ collected.exactVectors

structure ReadFields.Within (a b : ReadFields S) : Prop where
  read : ∀ p ∈ a.read, p ∈ b.read
  exactVectors : ∀ p ∈ a.exactVectors, p ∈ b.exactVectors

omit [LinearOrder S] [Inhabited S] in
theorem Mark.Collected.mono {a b : ReadFields S} (h : a.Within b) {m : Mark S}
    (hm : m.Collected a) : m.Collected b := by
  cases m with
  | field path => exact h.read _ hm
  | key path k => exact h.read _ hm
  | exact path => exact h.exactVectors _ hm

omit [LinearOrder S] [Inhabited S] in
theorem within_foldl_append (cs : List (ReadFields S)) :
    ∀ init, ReadFields.Within init (cs.foldl ReadFields.append init) ∧
      ∀ c ∈ cs, ReadFields.Within c (cs.foldl ReadFields.append init) := by
  induction cs with
  | nil => exact fun init => ⟨⟨fun _ h => h, fun _ h => h⟩, by simp⟩
  | cons c cs ih =>
    intro init
    obtain ⟨hinit, hrest⟩ := ih (init.append c)
    refine ⟨⟨fun p hp => hinit.read p ?_, fun p hp => hinit.exactVectors p ?_⟩, fun d hd => ?_⟩
    · exact List.mem_append_left _ hp
    · exact List.mem_append_left _ hp
    · rcases List.mem_cons.mp hd with rfl | hd
      · exact ⟨fun p hp => hinit.read p (List.mem_append_right _ hp),
          fun p hp => hinit.exactVectors p (List.mem_append_right _ hp)⟩
      · exact hrest d hd

variable {marks : List (Mark S)}

theorem within_collectTuple {stack : Path S} :
    ∀ {i j : Nat} {ts : List (Tree S)}, fields[j]? = some f → ts[j]? = some x →
      (.field (stack ++ [.field (i + j)]) ∈ marks →
        stack ++ [.field (i + j)] ∈ (collectTuple marks stack i fields ts).read) ∧
      (collectImpl marks (stack ++ [.field (i + j)]) f x).Within
        (collectTuple marks stack i fields ts) := by
  induction fields with
  | nil => simp
  | cons g gs ih =>
    intro i j ts hf hx
    cases ts with
    | nil => simp at hx
    | cons t ts =>
      cases j with
      | zero =>
        simp only [List.getElem?_cons_zero, Option.some.injEq] at hf hx
        subst hf hx
        simp only [collectTuple, ReadFields.append, Nat.add_zero]
        refine ⟨fun h => by simp [h], fun p hp => ?_, fun p hp => ?_⟩
        · simp [hp]
        · simp [hp]
      | succ j =>
        simp only [List.getElem?_cons_succ] at hf hx
        have hrest := ih (i := i + 1) hf hx
        rw [Nat.add_assoc, Nat.add_comm 1 j] at hrest
        simp only [collectTuple, ReadFields.append]
        refine ⟨fun h => ?_, fun p hp => ?_, fun p hp => ?_⟩
        · exact List.mem_append_right _ (hrest.1 h)
        · exact List.mem_append_right _ (hrest.2.read p hp)
        · exact List.mem_append_right _ (hrest.2.exactVectors p hp)

/-- What is collected from a place on. -/
def Place.collected (marks : List (Mark S)) (place : Place S) : ReadFields S :=
  collectImpl marks place.path place.schema place.tree

/-- What a container has been asked for is collected, and so is what its elements have. -/
theorem collected_container :
    (∀ k, .key path k ∈ marks → path ++ [.key k] ∈ (collectImpl marks path
        (.container kind element) (Tree.container kind element.keyOf ls)).read) ∧
      (.exact path ∈ marks → path ∈ (collectImpl marks path
        (.container kind element) (Tree.container kind element.keyOf ls)).exactVectors) ∧
      ∀ x ∈ ls, (collectImpl marks (path ++ [.key (element.keyOf x)]) element x).Within
        (collectImpl marks path (.container kind element)
          (Tree.container kind element.keyOf ls)) := by
  simp only [collectImpl, Tree.elements_container]
  obtain ⟨hinit, hrest⟩ := within_foldl_append
    (ls.map fun x => collectImpl marks (path ++ [.key (element.keyOf x)]) element x) _
  refine ⟨fun k hk => hinit.read _ ?_, fun h => hinit.exactVectors _ ?_, fun x hx => ?_⟩
  · refine List.mem_map_of_mem (List.mem_filterMap.mpr ⟨_, hk, ?_⟩)
    simp
  · simp [h]
  · exact hrest _ (List.mem_map_of_mem hx)

variable {t : Tree S}

/-- The elements of a tree of a container type. -/
theorem Schema.Conforms.container (h : (Schema.container kind element).Conforms t) :
    ∃ ls, t = Tree.container kind element.keyOf ls ∧ element.Elements ls := by
  rw [Schema.Conforms] at h
  obtain ⟨ls, rfl, hasc, hls⟩ := h
  exact ⟨ls, rfl, hasc, hls⟩

/-- A tuple has as many fields as its type. -/
theorem Schema.AllConform.exists_field :
    ∀ {ts : List (Tree S)} {j : Nat}, Schema.AllConform fields ts → ts[j]? = some x →
      ∃ f, fields[j]? = some f := by
  induction fields with
  | nil =>
    intro ts j hts hx
    rw [Schema.AllConform] at hts
    simp [hts] at hx
  | cons g gs ih =>
    intro ts j hts hx
    rw [Schema.AllConform] at hts
    obtain ⟨t, ts, rfl, -, hts⟩ := hts
    cases j with
    | zero => exact ⟨g, rfl⟩
    | succ j => exact ih hts (by simpa using hx)

theorem Schema.AllConform.exists_value :
    ∀ {ts : List (Tree S)} {j : Nat}, Schema.AllConform fields ts → fields[j]? = some f →
      ∃ x, ts[j]? = some x := by
  induction fields with
  | nil => simp
  | cons g gs ih =>
    intro ts j hts hf
    rw [Schema.AllConform] at hts
    obtain ⟨t, ts, rfl, -, hts⟩ := hts
    cases j with
    | zero => exact ⟨t, rfl⟩
    | succ j =>
      rw [List.getElem?_cons_succ] at hf
      exact ih (j := j) hts hf

/-- What an access to a place marks is collected there, and what is collected from the place
it leads to is collected there as well. -/
structure Covered (marks : List (Mark S)) (place : Place S) (accessed : Accessed S) : Prop where
  marked : ∀ m ∈ accessed.marks, m ∈ marks → m.Collected (place.collected marks)
  next : ∀ next, accessed.next = some next →
    next.schema.Conforms next.tree ∧ (next.collected marks).Within (place.collected marks)

variable {accessed : Accessed S}

theorem covered_field {i : Nat} (ht : (Schema.struct key fields).Conforms t)
    (h : access ⟨path, .struct key fields, t⟩ (.field i) = some accessed) :
    Covered marks ⟨path, .struct key fields, t⟩ accessed := by
  rw [Schema.Conforms] at ht
  obtain ⟨ts, rfl, hts⟩ := ht
  simp only [access] at h
  split at h
  next f x hf hx =>
    obtain rfl := Option.some.inj h
    have hwithin : (_ → _ ∈ (collectTuple marks path 0 fields ts).read) ∧ _ :=
      within_collectTuple hf hx
    rw [Nat.zero_add] at hwithin
    refine ⟨fun m hm hmem => ?_, fun next hnext => ?_⟩
    · split at hm
      next =>
        rw [List.mem_singleton.mp hm] at hmem ⊢
        exact hwithin.1 hmem
      next => simp at hm
    · obtain rfl := Option.some.inj hnext
      exact ⟨hts.get hf hx, hwithin.2⟩
  next => simp at h

theorem covered_follow (ht : (Schema.pointer key kindField alternatives).Conforms t)
    (h : access ⟨path, .pointer key kindField alternatives, t⟩ .follow = some accessed) :
    Covered marks ⟨path, .pointer key kindField alternatives, t⟩ accessed := by
  rw [Schema.Conforms] at ht
  rcases ht with rfl | ⟨k, ts, rfl, hkind, hts⟩
  · obtain rfl := Option.some.inj h
    exact ⟨by simp, by simp⟩
  · obtain rfl := Option.some.inj h
    refine ⟨fun m hm hmem => ?_, fun next hnext => ?_⟩
    · obtain ⟨f, hf⟩ := hts.exists_field hkind
      have hwithin : (_ → _ ∈ (collectTuple marks (path ++ [.kind k]) 0 _ ts).read) ∧ _ :=
        within_collectTuple hf hkind
      rw [Nat.zero_add] at hwithin
      split at hm
      next => simp at hm
      next =>
        rw [List.mem_singleton.mp hm] at hmem ⊢
        exact hwithin.1 hmem
    · obtain rfl := Option.some.inj hnext
      refine ⟨?_, fun p hp => hp, fun p hp => hp⟩
      rw [Schema.Conforms]
      exact ⟨ts, rfl, hts⟩

/-- The accesses to a container. -/
theorem covered_container {a : Access S} (ht : (Schema.container kind element).Conforms t)
    (h : access ⟨path, .container kind element, t⟩ a = some accessed) :
    Covered marks ⟨path, .container kind element, t⟩ accessed := by
  obtain ⟨ls, rfl, hls⟩ := ht.container
  obtain ⟨hkeys, hexact, hwithin⟩ :=
    (collected_container : _ ∧ (_ → _ ∈ (collectImpl marks path (.container kind element)
      (Tree.container kind element.keyOf ls)).exactVectors) ∧ _)
  have hnext : ∀ k x, (Tree.container kind element.keyOf ls).lookup element.keyOf k = some x →
      element.Conforms x ∧ (collectImpl marks (path ++ [.key k]) element x).Within
        (collectImpl marks path (.container kind element)
          (Tree.container kind element.keyOf ls)) := by
    intro k x hx
    obtain ⟨hmem, rfl⟩ := lookup_eq_some hx
    exact ⟨(hls.conforms x hmem).1, hwithin x hmem⟩
  cases a with
  | field i => simp [access] at h
  | follow => simp [access] at h
  | «at» k =>
    obtain ⟨x, hx, rfl⟩ := Option.map_eq_some_iff.mp h
    refine ⟨fun m hm hmem => ?_, fun next hn => ?_⟩
    · rw [List.mem_singleton.mp hm] at hmem ⊢
      exact hkeys k hmem
    · obtain rfl := Option.some.inj hn
      exact hnext k x hx
  | tryGet k =>
    obtain rfl := Option.some.inj h
    refine ⟨fun m hm hmem => ?_, fun next hn => ?_⟩
    · rw [List.mem_singleton.mp hm] at hmem ⊢
      exact hkeys k hmem
    · obtain ⟨x, hx, rfl⟩ := Option.map_eq_some_iff.mp hn
      exact hnext k x hx
  | find k =>
    obtain rfl := Option.some.inj h
    refine ⟨fun m hm hmem => ?_, fun next hn => ?_⟩
    · rw [List.mem_singleton.mp hm] at hmem ⊢
      exact hexact hmem
    · obtain ⟨x, hx, rfl⟩ := Option.map_eq_some_iff.mp hn
      exact hnext k x hx
  | contains k =>
    obtain rfl := Option.some.inj h
    refine ⟨fun m hm hmem => ?_, by simp⟩
    rw [List.mem_singleton.mp hm] at hmem ⊢
    exact hkeys k hmem
  | iterate =>
    obtain rfl := Option.some.inj h
    refine ⟨fun m hm hmem => ?_, by simp⟩
    rw [List.mem_singleton.mp hm] at hmem ⊢
    exact hexact hmem
  | size =>
    obtain rfl := Option.some.inj h
    refine ⟨fun m hm hmem => ?_, by simp⟩
    rw [List.mem_singleton.mp hm] at hmem ⊢
    exact hexact hmem
  | asVector =>
    obtain rfl := Option.some.inj h
    refine ⟨fun m hm hmem => ?_, by simp⟩
    obtain ⟨k, -, rfl⟩ := List.mem_map.mp hm
    exact hkeys k hmem

theorem covered {place : Place S} {a : Access S} (ht : place.schema.Conforms place.tree)
    (h : access place a = some accessed) : Covered marks place accessed := by
  obtain ⟨path, s, t⟩ := place
  cases s with
  | scalar => cases a <;> simp [access] at h
  | struct key fields =>
    cases a
    case field i => exact covered_field ht h
    all_goals simp [access] at h
  | pointer key kindField alternatives =>
    cases a
    case follow => exact covered_follow ht h
    all_goals simp [access] at h
  | container kind element => exact covered_container ht h

/-- The marks of a read are collected. -/
theorem collected_of_performAt {ms : List (Mark S)} {read : List (Access S)}
    {obs : List (Observation S)} : ∀ {place : Place S}, place.schema.Conforms place.tree →
      performAt read (some place) = some (obs, ms) → (∀ m ∈ ms, m ∈ marks) →
      ∀ m ∈ ms, m.Collected (place.collected marks) := by
  induction read generalizing obs ms with
  | nil =>
    intro place _ h _ m hm
    simp only [performAt, Option.some.injEq, Prod.mk.injEq] at h
    simp [← h.2] at hm
  | cons a rest ih =>
    intro place hplace h hms m hm
    obtain ⟨accessed, ha, hrest⟩ := Option.bind_eq_some_iff.mp h
    obtain ⟨r, hr, heq⟩ := Option.map_eq_some_iff.mp hrest
    obtain ⟨-, rfl⟩ := Prod.mk.inj heq
    have hcov : Covered marks place accessed := covered hplace ha
    rcases List.mem_append.mp hm with hm | hm
    · exact hcov.marked m hm (hms m (List.mem_append_left _ hm))
    · cases hnext : accessed.next with
      | none =>
        rw [hnext] at hr
        cases rest with
        | nil =>
          simp only [performAt, Option.some.injEq] at hr
          simp [← hr] at hm
        | cons b rest => simp [performAt] at hr
      | some next =>
        rw [hnext] at hr
        obtain ⟨hconf, hwithin⟩ := hcov.next next hnext
        exact (ih hconf hr (fun n hn => hms n (List.mem_append_right _ hn)) m hm).mono hwithin

/-! ## Two trees -/

/-- The looks of a read that are not tracked see the same in both trees. -/
def Agree : List (Access S) → Schema S → Tree S → Tree S → Prop
  | .field i :: rest, .struct key fields, .struct fs, .struct gs =>
      match fields[i]?, fs[i]?, gs[i]? with
      | some f, some a, some b => (f.isScalar → i ∈ key → a = b) ∧ Agree rest f a b
      | _, _, _ => True
  | .follow :: _, .pointer .., .null, .null => True
  | .follow :: rest, .pointer key _ alternatives, .object k fs, .object l gs =>
      k = l ∧ Agree rest (.struct key (alternatives k)) (.struct fs) (.struct gs)
  | .follow :: _, .pointer .., _, _ => False
  | .at k :: rest, .container _ element, x, y
  | .tryGet k :: rest, .container _ element, x, y
  | .find k :: rest, .container _ element, x, y =>
      match x.lookup element.keyOf k, y.lookup element.keyOf k with
      | some a, some b => Agree rest element a b
      | _, _ => True
  | .asVector :: _, .container .., x, y => x.elements.length = y.elements.length
  | _, _, _, _ => True

attribute [local simp] Agree

section Container

variable {collected : ReadFields S} {path : Path S} {kind : ContainerKind} {element : Schema S}
  {ls rs : List (Tree S)}

/-- An element that is only on one side has its path in the diff, and so does the
container. -/
theorem Clear.container (h : Clear collected path (.container kind element)
      (Tree.container kind element.keyOf ls) (Tree.container kind element.keyOf rs))
    {x : Tree S} (hx : .left x ∈ zipmap element.keyOf ls rs ∨ .right x ∈ zipmap element.keyOf ls rs) :
    path ∉ collected.exactVectors ∧ path ++ [.key (element.keyOf x)] ∉ collected.read := by
  have hmem : ∀ c : Change S, c = ⟨[], some x, none⟩ ∨ c = ⟨[], none, some x⟩ →
      c ∈ diff (.container kind element) (Tree.container kind element.keyOf ls)
        (Tree.container kind element.keyOf rs) →
      path ∉ collected.exactVectors ∧ path ++ [.key (element.keyOf x)] ∉ collected.read := by
    intro c hc hdiff
    have hpaths : [] ∈ diffPaths (.container kind element) (diff _ _ _) ∧
        [.key (element.keyOf x)] ∈ diffPaths (.container kind element) (diff _ _ _) :=
      ⟨List.mem_flatMap.mpr ⟨c, hdiff, by rcases hc with rfl | rfl <;> simp⟩,
        List.mem_flatMap.mpr ⟨c, hdiff, by
          rcases hc with rfl | rfl <;> simp [elementPath, Schema.atPath]⟩⟩
    have hpath := (h _ hpaths.1).2
    rw [List.append_nil] at hpath
    exact ⟨hpath, (h _ hpaths.2).1⟩
  rw [diff_container, Tree.elements_container, Tree.elements_container] at hmem
  rcases hx with hx | hx
  · exact hmem _ (Or.inl rfl) (List.mem_flatMap.mpr ⟨_, hx, by simp [zipChanges]⟩)
  · exact hmem _ (Or.inr rfl) (List.mem_flatMap.mpr ⟨_, hx, by simp [zipChanges]⟩)

/-- A key that has been asked for is in both containers or in none. -/
theorem Clear.mem_keys (h : Clear collected path (.container kind element)
      (Tree.container kind element.keyOf ls) (Tree.container kind element.keyOf rs))
    (hls : element.Elements ls) (hrs : element.Elements rs) {k : List S}
    (hk : path ++ [.key k] ∈ collected.read) :
    k ∈ ls.map element.keyOf ↔ k ∈ rs.map element.keyOf := by
  constructor
  · intro hmem
    obtain ⟨l, hl, rfl⟩ := List.mem_map.mp hmem
    by_contra hnot
    refine (h.container (Or.inl (left_mem_zipmap hrs.ascending hl fun r hr heq => hnot ?_))).2 hk
    exact heq ▸ List.mem_map_of_mem hr
  · intro hmem
    obtain ⟨r, hr, rfl⟩ := List.mem_map.mp hmem
    by_contra hnot
    refine (h.container (Or.inr (right_mem_zipmap hls.ascending hr fun l hl heq => hnot ?_))).2 hk
    exact heq ▸ List.mem_map_of_mem hl

/-- A container that has been read as a whole has the same keys. -/
theorem Clear.keys_eq (h : Clear collected path (.container kind element)
      (Tree.container kind element.keyOf ls) (Tree.container kind element.keyOf rs))
    (hexact : path ∈ collected.exactVectors) :
    ls.map element.keyOf = rs.map element.keyOf := by
  have hforall : List.Forall₂ (fun l r => element.keyOf l = element.keyOf r) ls rs := by
    refine forall₂_of_zipmap element.keyOf fun z hz => ?_
    cases z with
    | left l => exact absurd hexact (h.container (Or.inl hz)).1
    | right r => exact absurd hexact (h.container (Or.inr hz)).1
    | both l r => exact ⟨l, r, rfl, (mem_zipmap_both hz).2.2⟩
  rw [← List.forall₂_eq_eq_eq, List.forall₂_map_left_iff, List.forall₂_map_right_iff]
  exact hforall

/-- When the keys of one container are among those of the other, their numbers decide. -/
theorem keys_eq_iff_length (hls : element.Elements ls) (hrs : element.Elements rs)
    (hsub : ∀ k ∈ ls.map element.keyOf, k ∈ rs.map element.keyOf) :
    ls.map element.keyOf = rs.map element.keyOf ↔ ls.length = rs.length := by
  constructor
  · intro h
    simpa using congrArg List.length h
  · intro h
    have hsorted : ∀ {xs : List (Tree S)}, element.Elements xs →
        (xs.map element.keyOf).Pairwise (· < ·) := fun hxs =>
      List.pairwise_map.mpr hxs.ascending
    have hperm : (ls.map element.keyOf).Perm (rs.map element.keyOf) := by
      have hnodup : (ls.map element.keyOf).Nodup := (hsorted hls).imp fun h => h.ne
      exact (List.subperm_of_subset hnodup hsub).perm_of_length_le (by simp [h])
    exact hperm.eq_of_pairwise (fun a b _ _ hab hba => absurd hab hba.not_gt) (hsorted hls)
      (hsorted hrs)

end Container

theorem performAt_cons_iff {a : Access S} {rest : List (Access S)} {place : Place S}
    {o : Observation S} {obs : List (Observation S)} :
    (∃ ms, performAt (a :: rest) (some place) = some (o :: obs, ms)) ↔
      ∃ accessed, access place a = some accessed ∧ accessed.observation = o ∧
        ∃ ms, performAt rest accessed.next = some (obs, ms) := by
  simp only [performAt, Option.bind_eq_some_iff, Option.map_eq_some_iff, Prod.mk.injEq,
    List.cons.injEq]
  constructor
  · rintro ⟨ms, accessed, ha, r, hr, ⟨ho, hobs⟩, -⟩
    exact ⟨accessed, ha, ho, r.2, by rw [hr, ← hobs]⟩
  · rintro ⟨accessed, ha, ho, ms, hr⟩
    exact ⟨_, accessed, ha, (obs, ms), hr, ⟨ho, rfl⟩, rfl⟩

/-- The getter of a field returns the same if the field is no scalar, or is tracked, or
agrees. -/
theorem observe_eq_iff {collected : ReadFields S} {a b : Tree S} (tracked : Prop)
    (ha : f.Conforms a) (hb : f.Conforms b) (hclear : Clear collected path f a b)
    (htracked : f.isScalar → tracked → path ∈ collected.read) :
    b.observe = a.observe ↔ (f.isScalar → ¬ tracked → a = b) := by
  cases f with
  | scalar =>
    obtain ⟨v, rfl⟩ : ∃ v, a = .scalar v := by simpa [Schema.Conforms] using ha
    obtain ⟨w, rfl⟩ : ∃ w, b = .scalar w := by simpa [Schema.Conforms] using hb
    by_cases ht : tracked
    · have heq : v = w := by
        by_contra hne
        have hmem : [] ∈ diffPaths (.scalar : Schema S) (diff .scalar (.scalar v) (.scalar w)) := by
          simp [diffPaths, diff, diffImpl, hne]
        have hpath := (hclear _ hmem).1
        rw [List.append_nil] at hpath
        exact hpath (htracked rfl ht)
      simp [heq]
    · simp [ht, Schema.isScalar, Tree.observe, eq_comm]
  | struct key fields =>
    rw [Schema.Conforms] at ha hb
    obtain ⟨fs, rfl, -⟩ := ha
    obtain ⟨gs, rfl, -⟩ := hb
    simp [Schema.isScalar, Tree.observe]
  | pointer key kindField alternatives =>
    rw [Schema.Conforms] at ha hb
    rcases ha with rfl | ⟨k, fs, rfl, -⟩ <;> rcases hb with rfl | ⟨l, gs, rfl, -⟩ <;>
      simp [Schema.isScalar, Tree.observe]
  | container kind element =>
    obtain ⟨ls, rfl, -⟩ := ha.container
    obtain ⟨rs, rfl, -⟩ := hb.container
    cases kind <;> simp [Schema.isScalar, Tree.observe, Tree.container]

/-- The accesses to come return the same from the place that one access leads to. -/
def Continues (collected : ReadFields S) (rest : List (Access S)) : Prop :=
  ∀ {path : Path S} {s : Schema S} {x y : Tree S} {obs : List (Observation S)}
    {ms : List (Mark S)}, s.Conforms x → s.Conforms y → Clear collected path s x y →
    performAt rest (some ⟨path, s, x⟩) = some (obs, ms) → (∀ m ∈ ms, m.Collected collected) →
    ((∃ ms', performAt rest (some ⟨path, s, y⟩) = some (obs, ms')) ↔ Agree rest s x y)

variable {collected : ReadFields S} {rest : List (Access S)} {path : Path S}
  {obs : List (Observation S)} {ms : List (Mark S)}

theorem continues_field (ih : Continues collected rest) {y : Tree S} {i : Nat}
    (hx : (Schema.struct key fields).Conforms x) (hy : (Schema.struct key fields).Conforms y)
    (hclear : Clear collected path (.struct key fields) x y)
    (ha : access ⟨path, .struct key fields, x⟩ (.field i) = some accessed)
    (hr : performAt rest accessed.next = some (obs, ms))
    (hmarks : ∀ m ∈ accessed.marks, m.Collected collected) (hms : ∀ m ∈ ms, m.Collected collected) :
    (∃ accessed', access ⟨path, .struct key fields, y⟩ (.field i) = some accessed' ∧
        accessed'.observation = accessed.observation ∧
        ∃ ms', performAt rest accessed'.next = some (obs, ms')) ↔
      Agree (.field i :: rest) (.struct key fields) x y := by
  rw [Schema.Conforms] at hx hy
  obtain ⟨fs, rfl, hfs⟩ := hx
  obtain ⟨gs, rfl, hgs⟩ := hy
  cases hf : fields[i]? with
  | none => simp [access, hf] at ha
  | some f =>
    obtain ⟨a, hfa⟩ := hfs.exists_value hf
    obtain ⟨b, hgb⟩ := hgs.exists_value hf
    simp only [access, hf, hfa, Option.some.injEq] at ha
    subst ha
    have hca := hfs.get hf hfa
    have hcb := hgs.get hf hgb
    have hsub := hclear.sub (subDiff_field hf hfa hgb)
    have hobs := observe_eq_iff (i ∉ key) hca hcb hsub fun hs hk =>
      hmarks (Mark.field (path ++ [PathComponent.field i])) (by simp [hs, hk])
    simp only [access, hf, hgb, Option.some.injEq, exists_eq_left', Agree, hfa]
    rw [hobs, ih hca hcb hsub hr hms, not_not]

theorem continues_follow (ih : Continues collected rest) {y : Tree S}
    (hx : (Schema.pointer key kindField alternatives).Conforms x)
    (hy : (Schema.pointer key kindField alternatives).Conforms y)
    (hclear : Clear collected path (.pointer key kindField alternatives) x y)
    (ha : access ⟨path, .pointer key kindField alternatives, x⟩ .follow = some accessed)
    (hr : performAt rest accessed.next = some (obs, ms)) (hms : ∀ m ∈ ms, m.Collected collected) :
    (∃ accessed', access ⟨path, .pointer key kindField alternatives, y⟩ .follow = some accessed' ∧
        accessed'.observation = accessed.observation ∧
        ∃ ms', performAt rest accessed'.next = some (obs, ms')) ↔
      Agree (.follow :: rest) (.pointer key kindField alternatives) x y := by
  rw [Schema.Conforms] at hx hy
  rcases hx with rfl | ⟨k, fs, rfl, -, hfs⟩
  · obtain rfl := Option.some.inj ha
    rcases hy with rfl | ⟨l, gs, rfl, -, -⟩
    · simp only [access, Option.some.injEq, exists_eq_left', Agree, iff_true]
      exact ⟨trivial, ms, hr⟩
    · simp [access, Agree]
  · obtain rfl := Option.some.inj ha
    rcases hy with rfl | ⟨l, gs, rfl, -, hgs⟩
    · simp [access, Agree]
    · simp only [access, Option.some.injEq, exists_eq_left', Agree, Observation.object.injEq]
      by_cases hkl : k = l
      · subst hkl
        have hcx : (Schema.struct key (alternatives k)).Conforms (.struct fs) := by
          rw [Schema.Conforms]
          exact ⟨fs, rfl, hfs⟩
        have hcy : (Schema.struct key (alternatives k)).Conforms (.struct gs) := by
          rw [Schema.Conforms]
          exact ⟨gs, rfl, hgs⟩
        rw [ih hcx hcy (hclear.sub subDiff_kind) hr hms]
      · simp [hkl, Ne.symm hkl]

section Lookup

variable {kind : ContainerKind} {element : Schema S} {ls rs : List (Tree S)} {k : List S}

/-- An access that leads to the element with the given key, when it returns the same
answer on both sides. -/
theorem continues_lookup (ih : Continues collected rest) (hls : element.Elements ls)
    (hrs : element.Elements rs)
    (hclear : Clear collected path (.container kind element)
      (Tree.container kind element.keyOf ls) (Tree.container kind element.keyOf rs))
    (hmem : k ∈ ls.map element.keyOf ↔ k ∈ rs.map element.keyOf)
    (hr : performAt rest (((Tree.container kind element.keyOf ls).lookup element.keyOf k).map
      fun x => ⟨path ++ [.key k], element, x⟩) = some (obs, ms))
    (hms : ∀ m ∈ ms, m.Collected collected) :
    (((Tree.container kind element.keyOf rs).lookup element.keyOf k).isSome =
        ((Tree.container kind element.keyOf ls).lookup element.keyOf k).isSome ∧
      ∃ ms', performAt rest (((Tree.container kind element.keyOf rs).lookup element.keyOf k).map
        fun x => ⟨path ++ [.key k], element, x⟩) = some (obs, ms')) ↔
      match (Tree.container kind element.keyOf ls).lookup element.keyOf k,
        (Tree.container kind element.keyOf rs).lookup element.keyOf k with
      | some a, some b => Agree rest element a b
      | _, _ => True := by
  have hsome : ((Tree.container kind element.keyOf rs).lookup element.keyOf k).isSome =
      ((Tree.container kind element.keyOf ls).lookup element.keyOf k).isSome := by
    rw [Bool.eq_iff_iff, lookup_isSome, lookup_isSome, hmem]
  cases hl : (Tree.container kind element.keyOf ls).lookup element.keyOf k with
  | none =>
    have hr' : (Tree.container kind element.keyOf rs).lookup element.keyOf k = none := by
      rw [hl] at hsome
      exact Option.not_isSome_iff_eq_none.mp (by simp [hsome])
    rw [hl] at hr
    simp only [hr', true_and, iff_true]
    exact ⟨ms, hr⟩
  | some l =>
    rw [hl] at hsome hr
    obtain ⟨r, hr'⟩ := Option.isSome_iff_exists.mp hsome
    obtain ⟨hlmem, hlkey⟩ := lookup_eq_some hl
    obtain ⟨hrmem, hrkey⟩ := lookup_eq_some hr'
    have hsub : SubDiff (.container kind element) _ _ (.key (element.keyOf l)) element l r :=
      subDiff_key hls hrs hlmem hrmem (hlkey.trans hrkey.symm)
    rw [hlkey] at hsub
    simp only [hr', Option.isSome_some, true_and]
    exact ih (hls.conforms l hlmem).1 (hrs.conforms r hrmem).1 (hclear.sub hsub) hr hms

theorem continues_container (ih : Continues collected rest) {a : Access S} {x y : Tree S}
    {accessed : Accessed S} (hx : (Schema.container kind element).Conforms x)
    (hy : (Schema.container kind element).Conforms y)
    (hclear : Clear collected path (.container kind element) x y)
    (ha : access ⟨path, .container kind element, x⟩ a = some accessed)
    (hr : performAt rest accessed.next = some (obs, ms))
    (hmarks : ∀ m ∈ accessed.marks, m.Collected collected) (hms : ∀ m ∈ ms, m.Collected collected) :
    (∃ accessed', access ⟨path, .container kind element, y⟩ a = some accessed' ∧
        accessed'.observation = accessed.observation ∧
        ∃ ms', performAt rest accessed'.next = some (obs, ms')) ↔
      Agree (a :: rest) (.container kind element) x y := by
  obtain ⟨ls, rfl, hls⟩ := hx.container
  obtain ⟨rs, rfl, hrs⟩ := hy.container
  cases a with
  | field i => simp [access] at ha
  | follow => simp [access] at ha
  | «at» k =>
    obtain ⟨l, hl, rfl⟩ := Option.map_eq_some_iff.mp ha
    have hmem := hclear.mem_keys hls hrs (hmarks (.key path k) (by simp))
    have hlook := continues_lookup ih hls hrs hclear hmem (by rw [hl]; exact hr) hms
    rw [hl] at hlook
    cases hfound : (Tree.container kind element.keyOf rs).lookup element.keyOf k with
    | none => simp [hfound] at hlook
    | some r =>
      simp only [hfound, Option.isSome_some, true_and, Option.map_some] at hlook
      simp only [access, hfound, Option.map_some, Option.some.injEq, exists_eq_left', true_and,
        Agree, hl]
      exact hlook
  | tryGet k =>
    obtain rfl := Option.some.inj ha
    have hmem := hclear.mem_keys hls hrs (hmarks (.key path k) (by simp))
    have hlook := continues_lookup ih hls hrs hclear hmem hr hms
    simpa only [access, Option.some.injEq, exists_eq_left', Agree, Observation.found.injEq]
      using hlook
  | find k =>
    obtain rfl := Option.some.inj ha
    have hkeys := hclear.keys_eq (hmarks (.exact path) (by simp))
    have hlook := continues_lookup ih hls hrs hclear (by rw [hkeys]) hr hms
    simpa only [access, Option.some.injEq, exists_eq_left', Agree, Observation.found.injEq]
      using hlook
  | contains k =>
    obtain rfl := Option.some.inj ha
    have hmem := hclear.mem_keys hls hrs (hmarks (.key path k) (by simp))
    simp only [access, Option.some.injEq, exists_eq_left', Agree, iff_true,
      Observation.found.injEq]
    exact ⟨by rw [Bool.eq_iff_iff, lookup_isSome, lookup_isSome, hmem], ms, hr⟩
  | iterate =>
    obtain rfl := Option.some.inj ha
    have hkeys := hclear.keys_eq (hmarks (.exact path) (by simp))
    simp only [access, Option.some.injEq, exists_eq_left', Agree, iff_true,
      Tree.elements_container, hkeys, true_and]
    exact ⟨ms, hr⟩
  | size =>
    obtain rfl := Option.some.inj ha
    have hkeys := hclear.keys_eq (hmarks (.exact path) (by simp))
    have hlength : ls.length = rs.length := by simpa using congrArg List.length hkeys
    simp only [access, Option.some.injEq, exists_eq_left', Agree, iff_true,
      Tree.elements_container, hlength, true_and]
    exact ⟨ms, hr⟩
  | asVector =>
    obtain rfl := Option.some.inj ha
    simp only [access, Option.some.injEq, exists_eq_left', Agree, Tree.elements_container,
      Observation.keys.injEq] at hmarks ⊢
    have hsub : ∀ k ∈ ls.map element.keyOf, k ∈ rs.map element.keyOf := fun k hk =>
      (hclear.mem_keys hls hrs (hmarks (.key path k) (List.mem_map_of_mem hk))).mp hk
    rw [← keys_eq_iff_length hls hrs hsub, eq_comm]
    exact and_iff_left ⟨ms, hr⟩

end Lookup

/-- When nothing that has been collected is in the diff, a read returns the same on the new
tree exactly when its untracked looks agree.  The induction follows the read. -/
theorem performAt_iff_agree : ∀ read : List (Access S), Continues collected read := by
  intro read
  induction read with
  | nil =>
    intro path s x y obs ms _ _ _ h _
    simp only [performAt, Option.some.injEq, Prod.mk.injEq] at h ⊢
    simp [h.1, Agree]
  | cons a rest ih =>
    intro path s x y obs ms hx hy hclear h hms
    obtain ⟨accessed, ha, hrest⟩ := Option.bind_eq_some_iff.mp h
    obtain ⟨r, hr, heq⟩ := Option.map_eq_some_iff.mp hrest
    obtain ⟨rfl, rfl⟩ := Prod.mk.inj heq
    have hmarks : ∀ m ∈ accessed.marks, m.Collected collected := fun m hm =>
      hms m (List.mem_append_left _ hm)
    have hms' : ∀ m ∈ r.2, m.Collected collected := fun m hm =>
      hms m (List.mem_append_right _ hm)
    rw [performAt_cons_iff]
    cases s with
    | scalar => cases a <;> simp [access] at ha
    | struct key fields =>
      cases a
      case field i => exact continues_field ih hx hy hclear ha hr hmarks hms'
      all_goals simp [access] at ha
    | pointer key kindField alternatives =>
      cases a
      case follow => exact continues_follow ih hx hy hclear ha hr hms'
      all_goals simp [access] at ha
    | container kind element => exact continues_container ih hx hy hclear ha hr hmarks hms'

/-! ## Sequences of reads -/

/-- What the reads return on the old tree, they return on the new one.  A read that aborts
on the old tree returns nothing. -/
def SameReads (s : Schema S) (old new : Tree S) (reads : List (List (Access S))) : Prop :=
  ∀ read ∈ reads, ∀ obs, (perform s old read).map (·.1) = some obs →
    (perform s new read).map (·.1) = some obs

/-- The untracked looks of the reads see the same in both trees. -/
def AgreeAll (s : Schema S) (old new : Tree S) (reads : List (List (Access S))) : Prop :=
  ∀ read ∈ reads, (perform s old read).isSome → Agree read s old new

/-- When no path of the diff affects what has been collected after the reads, they return
the same on the new tree exactly when their untracked looks agree. -/
theorem sameReads_iff_agreeAll (s : RootSchema S) (old new : TreeOf s)
    (reads : List (List (Access S)))
    (h : ¬ Affects s.toSchema (diff s.toSchema old.root new.root)
      (collect (marksOf s.toSchema old.root reads) s.toSchema old.root)) :
    SameReads s.toSchema old.root new.root reads ↔
      AgreeAll s.toSchema old.root new.root reads := by
  have hclear : Clear (collect (marksOf s.toSchema old.root reads) s.toSchema old.root) []
      s.toSchema old.root new.root := by
    intro q hq
    rw [List.nil_append]
    exact ⟨fun hr => h ⟨q, hq, Or.inl hr⟩, fun hr => h ⟨q, hq, Or.inr hr⟩⟩
  refine forall₂_congr fun read hread => ?_
  cases hold : perform s.toSchema old.root read with
  | none => simp
  | some r =>
      obtain ⟨obs, ms⟩ := r
      have hmarks : ∀ m ∈ ms, m ∈ marksOf s.toSchema old.root reads := fun m hm =>
        List.mem_flatMap.mpr ⟨read, hread, by simpa [hold] using hm⟩
      have hcollected := collected_of_performAt old.conforms hold hmarks
      rw [← performAt_iff_agree read old.conforms new.conforms hclear hold hcollected]
      simp only [Option.map_some, Option.some.injEq, forall_eq', Option.isSome_some, true_imp_iff]
      constructor
      · intro hnew
        obtain ⟨r, hr, rfl⟩ := Option.map_eq_some_iff.mp hnew
        exact ⟨r.2, hr⟩
      · rintro ⟨ms', hr⟩
        exact Option.map_eq_some_iff.mpr ⟨(obs, ms'), hr, rfl⟩

/-- The function gets another attribute after it has been asked for one, and its prototype
has been looked at. -/
theorem sameReads_iff_agreeAll_new_attribute :
    SameReads functionSchema.toSchema (functionTree true [1] (by decide)).root
      (functionTree true [1, 2] (by decide)).root
      [[.field 1, .contains [1]], [.field 0, .follow, .field 0]] := by
  refine (sameReads_iff_agreeAll functionSchema (functionTree true [1] (by decide))
    (functionTree true [1, 2] (by decide)) _ (by decide)).mpr ?_
  intro read hread _
  simp only [List.mem_cons, List.not_mem_nil, or_false] at hread
  rcases hread with rfl | rfl <;>
    simp [functionSchema, functionTree, RootSchema.toSchema, Agree]

/-- The prototype of a function is taken away.  The diff has the path of the field, and a
reader who has followed the pointer has marked nothing but the kind behind it. -/
theorem not_sameReads :
    ¬ Affects functionSchema.toSchema
        (diff functionSchema.toSchema (functionTree true [] (by decide)).root
          (functionTree false [] (by decide)).root)
        (collect (marksOf functionSchema.toSchema (functionTree true [] (by decide)).root
          [[.field 0, .follow]]) functionSchema.toSchema (functionTree true [] (by decide)).root) ∧
      ¬ SameReads functionSchema.toSchema (functionTree true [] (by decide)).root
        (functionTree false [] (by decide)).root [[.field 0, .follow]] := by
  refine ⟨by decide, fun h => ?_⟩
  have hnew := h [.field 0, .follow] (by simp) [.reference, .object (some 1)] (by decide)
  exact absurd hnew (by decide)

end TupleTree
