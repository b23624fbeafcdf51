import Revng.TupleTree.Replay

/-!
# Replaying the diff of a container

The changes of an element never touch its key, so the element is found again for every
change of it.  An element that a `SortedVector` loses makes room for the ones after it.
In a `MutableSet` the values move to other nodes of the map, and the nodes keep their
keys: the diff can be replayed only when nothing that stays comes after a removal
(`RemovalsLast`).
-/

namespace TupleTree

open SortedMerge

variable {S : Type} [LinearOrder S] [Inhabited S]

/-! ## The changes of an element keep its key -/

variable {fields : List (Schema S)}

theorem Schema.AllConform.get {f : Schema S} {x : Tree S} :
    ∀ {ts : List (Tree S)} {j : Nat}, Schema.AllConform fields ts → fields[j]? = some f →
      ts[j]? = some x → f.Conforms x := by
  induction fields with
  | nil => simp
  | cons g gs ih =>
    intro ts j hts hf hx
    rw [Schema.AllConform] at hts
    obtain ⟨t, ts, rfl, ht, hts⟩ := hts
    cases j with
    | zero =>
      simp only [List.getElem?_cons_zero, Option.some.injEq] at hf hx
      exact hf ▸ hx ▸ ht
    | succ j =>
      simp only [List.getElem?_cons_succ] at hf hx
      exact ih hts hf hx

/-- The fields of the key are equal, so the diff has no change of them. -/
theorem notMem_key_of_mem_diffTuple {key : List Nat} {fs gs : List (Tree S)} {c : Change S}
    (hkey : KeyFields key fields) (hfs : Schema.AllConform fields fs)
    (hgs : Schema.AllConform fields gs) (heq : key.map (fieldValue fs) = key.map (fieldValue gs))
    (hc : c ∈ diffTuple [] 0 fields fs gs) : ∃ j rest, c.path = .field j :: rest ∧ j ∉ key := by
  obtain ⟨j, f, l, r, d, hf, hl, hr, hd, rfl⟩ := mem_diffTuple hc
  refine ⟨j, d.path, by simp [Change.under], fun hj => ?_⟩
  have hscalar : f = .scalar := Option.some.inj (hf.symm.trans (hkey j hj))
  subst hscalar
  obtain ⟨v, rfl⟩ : ∃ v, l = .scalar v := by simpa [Schema.Conforms] using hfs.get hf hl
  obtain ⟨w, rfl⟩ : ∃ w, r = .scalar w := by simpa [Schema.Conforms] using hgs.get hf hr
  have hvw : fieldValue fs j = fieldValue gs j := List.map_inj_left.mp heq j hj
  simp only [fieldValue, hl, hr] at hvw
  subst hvw
  simp [diff_self] at hd

theorem fieldValue_attemptField {key : List Nat} {ts ts' : List (Tree S)} {c : Change S} {j : Nat}
    {rest : Path S} (hc : c.path = .field j :: rest) (hj : j ∉ key)
    (h : attemptField fields ts c = some ts') :
    key.map (fieldValue ts') = key.map (fieldValue ts) := by
  unfold attemptField at h
  simp only [hc] at h
  split at h
  next f x hf hx =>
    obtain ⟨x', -, rfl⟩ := Option.map_eq_some_iff.mp h
    refine List.map_congr_left fun i hi => ?_
    have hij : j ≠ i := fun heq => hj (heq ▸ hi)
    simp [fieldValue, List.getElem?_set_ne hij]
  next => simp at h

omit [LinearOrder S] in
/-- Elements of one key have one kind. -/
theorem kind_eq_of_key_eq {key : List Nat} {kindField : Nat} {fs gs : List (Tree S)} {k l : S}
    (hmem : kindField ∈ key) (hfs : fs[kindField]? = some (.scalar k))
    (hgs : gs[kindField]? = some (.scalar l))
    (heq : key.map (fieldValue fs) = key.map (fieldValue gs)) : k = l := by
  have hfield := List.map_inj_left.mp heq kindField hmem
  simpa [fieldValue, hfs, hgs] using hfield

/-- No change of an element changes its key. -/
theorem keyOf_attempt {element : Schema S} (hw : element.WellFormed) (hk : element.Keyed)
    {l r : Tree S} (hl : element.Conforms l ∧ l ≠ .null) (hr : element.Conforms r ∧ r ≠ .null)
    (hkey : element.keyOf l = element.keyOf r) {c : Change S} (hc : c ∈ diff element l r)
    {y y' : Tree S} (h : c.attempt element y = some y') :
    element.keyOf y' = element.keyOf y := by
  cases element with
  | scalar =>
    obtain ⟨⟨v, rfl⟩, -⟩ : (∃ v, l = .scalar v) ∧ _ := by simpa [Schema.Conforms] using hl
    obtain ⟨⟨w, rfl⟩, -⟩ : (∃ w, r = .scalar w) ∧ _ := by simpa [Schema.Conforms] using hr
    simp only [Schema.keyOf, List.cons.injEq, and_true] at hkey
    simp [hkey, diff_self] at hc
  | struct key fields =>
    rw [Schema.Conforms] at hl hr
    rw [Schema.WellFormed] at hw
    obtain ⟨⟨fs, rfl, hfs⟩, -⟩ := hl
    obtain ⟨⟨gs, rfl, hgs⟩, -⟩ := hr
    obtain ⟨j, rest, hpath, hj⟩ := notMem_key_of_mem_diffTuple hw.1 hfs hgs hkey hc
    cases y
    case struct ts =>
      rw [attempt_struct hpath] at h
      obtain ⟨ts', hts, rfl⟩ := Option.map_eq_some_iff.mp h
      exact fieldValue_attemptField hpath hj hts
    all_goals simp [Change.attempt, arrive, hpath, callOnPathSteps, succeeded] at h
  | pointer key kindField alternatives =>
    rw [Schema.Conforms] at hl hr
    rw [Schema.WellFormed] at hw
    obtain ⟨k, fs, rfl, hkf, hfs⟩ := hl.1.resolve_left hl.2
    obtain ⟨k', gs, rfl, hkg, hgs⟩ := hr.1.resolve_left hr.2
    obtain rfl : k = k' := kind_eq_of_key_eq (hw.1 hk) hkf hkg hkey
    rw [diff_object, List.mem_map] at hc
    obtain ⟨d, hd, rfl⟩ := hc
    obtain ⟨j, rest, hpath, hj⟩ := notMem_key_of_mem_diffTuple (hw.2 k).1 hfs hgs hkey hd
    cases y
    case object l ts =>
      rw [attempt_object hpath] at h
      obtain ⟨ts', hts, rfl⟩ := Option.map_eq_some_iff.mp h
      exact fieldValue_attemptField hpath hj hts
    all_goals simp [Change.attempt, arrive, Change.under, hpath, callOnPathSteps, succeeded] at h
  | container kind element => exact hk.elim

omit [LinearOrder S] [Inhabited S] in
theorem foldlM_invariant {α γ : Type} {f : α → γ → Option α} {I : α → Prop} {cs : List γ}
    (h : ∀ c ∈ cs, ∀ y y', I y → f y c = some y' → I y') :
    ∀ y y', I y → cs.foldlM f y = some y' → I y' := by
  induction cs with
  | nil =>
    intro y y' hy hrun
    rw [← Option.some.inj hrun]
    exact hy
  | cons c cs ih =>
    intro y y' hy hrun
    rw [List.foldlM_cons] at hrun
    obtain ⟨u, hu, hrest⟩ := Option.bind_eq_some_iff.mp hrun
    exact ih (fun d hd => h d (by simp [hd])) u y' (h c (by simp) y u hy hu) hrest

/-! ## One change of a container -/

section Container

variable {element : Schema S} {kind : ContainerKind} {done ls rs : List (Tree S)} {l r : Tree S}

theorem find_container (h : ∀ d ∈ done, element.keyOf d ≠ element.keyOf l) :
    (Tree.container kind element.keyOf (done ++ l :: ls)).find element.keyOf (element.keyOf l) =
      some done.length := by
  cases kind with
  | sortedVector =>
    simp only [Tree.container, Tree.find, List.findIdx?_append, List.findIdx?_cons, decide_true]
    have hnone : done.findIdx? (fun x => element.keyOf x = element.keyOf l) = none := by
      simpa [List.findIdx?_eq_none_iff] using h
    simp [hnone]
  | mutableSet =>
    simp only [Tree.container, Tree.find, List.map_append, List.map_cons,
      List.findIdx?_append, List.findIdx?_cons, decide_true]
    have hnone : (done.map element.keyOf).findIdx? (· = element.keyOf l) = none := by
      simpa [List.findIdx?_eq_none_iff] using h
    simp [hnone]

omit [LinearOrder S] [Inhabited S] in
theorem setElement_container {keyOf : Tree S → List S} {x : Tree S} (h : keyOf x = keyOf l) :
    (Tree.container kind keyOf (done ++ l :: ls)).setElement done.length x =
      Tree.container kind keyOf (done ++ x :: ls) := by
  cases kind <;> simp [Tree.container, Tree.setElement, h]

/-- A change of an element that keeps its key. -/
theorem attempt_key {c : Change S} (hdone : ∀ d ∈ done, element.keyOf d ≠ element.keyOf l)
    (hkeep : ∀ x, c.attempt element l = some x → element.keyOf x = element.keyOf l) :
    (c.under [.key (element.keyOf l)]).attempt (.container kind element)
        (Tree.container kind element.keyOf (done ++ l :: ls)) =
      (c.attempt element l).map fun x => Tree.container kind element.keyOf (done ++ x :: ls) := by
  have hget : (done ++ l :: ls)[done.length]? = some l := by simp
  have hcall : (c.under [.key (element.keyOf l)]).attempt (.container kind element)
      (Tree.container kind element.keyOf (done ++ l :: ls)) =
        (c.attempt element l).map fun x =>
          (Tree.container kind element.keyOf (done ++ l :: ls)).setElement done.length x := by
    unfold Change.attempt arrive
    simp only [Change.under, List.cons_append, List.nil_append, reduceCtorEq, if_false,
      callOnPathSteps, find_container hdone, Tree.elements_container, hget, Option.none_or]
    exact succeeded_map _ _ _ _
  rw [hcall]
  cases hx : c.attempt element l with
  | none => rfl
  | some x => simp [setElement_container (hkeep x hx)]

theorem insertNode_append {x : Tree S} (hdone : ∀ d ∈ done, element.keyOf d < element.keyOf x)
    (hls : ∀ y ∈ ls, element.keyOf x < element.keyOf y) :
    insertNode (element.keyOf x) x ((done ++ ls).map element.keyOf) (done ++ ls) =
      ((done ++ x :: ls).map element.keyOf, done ++ x :: ls) := by
  induction done with
  | nil =>
    cases ls with
    | nil => rfl
    | cons y ys =>
      have hy := hls y (by simp)
      simp [insertNode, hy, hy.not_gt]
  | cons d done ih =>
    have hrest := ih fun e he => hdone e (by simp [he])
    simp only [List.map_append, List.map_cons] at hrest
    simp [insertNode, hdone d (by simp), hrest]

/-- An element that is added between the others. -/
theorem attempt_add (hdone : ∀ d ∈ done, element.keyOf d < element.keyOf r)
    (hls : ∀ y ∈ ls, element.keyOf r < element.keyOf y) :
    Change.attempt (.container kind element) (Tree.container kind element.keyOf (done ++ ls))
        ⟨[], none, some r⟩ =
      some (Tree.container kind element.keyOf (done ++ r :: ls)) := by
  have hinsert : (Tree.container kind element.keyOf (done ++ ls)).insertOrAssign element.keyOf r =
      Tree.container kind element.keyOf (done ++ r :: ls) := by
    cases kind with
    | sortedVector =>
      simp [Tree.container, Tree.insertOrAssign, insertOrAssign_append hdone hls]
    | mutableSet => simp only [Tree.container, Tree.insertOrAssign, insertNode_append hdone hls]
  simp [Change.attempt, arrive, visit, visitContainer, hinsert, Tree.elements_container,
    callOnPathSteps, succeeded, Nat.add_assoc]

/-- The elements that stay when one is removed. -/
theorem filter_key (hdone : ∀ d ∈ done, element.keyOf d ≠ element.keyOf l)
    (hls : ∀ y ∈ ls, element.keyOf y ≠ element.keyOf l) :
    (done ++ l :: ls).filter (element.keyOf · ≠ element.keyOf l) = done ++ ls := by
  have h₁ : done.filter (element.keyOf · ≠ element.keyOf l) = done :=
    List.filter_eq_self.mpr fun d hd => by simpa using hdone d hd
  have h₂ : ls.filter (element.keyOf · ≠ element.keyOf l) = ls :=
    List.filter_eq_self.mpr fun y hy => by simpa using hls y hy
  rw [List.filter_append, List.filter_cons, h₁, h₂]
  simp

/-- A sorted vector loses an element. -/
theorem attempt_remove_sortedVector (hdone : ∀ d ∈ done, element.keyOf d ≠ element.keyOf l)
    (hls : ∀ y ∈ ls, element.keyOf y ≠ element.keyOf l) :
    Change.attempt (.container .sortedVector element) (.sortedVector (done ++ l :: ls))
        ⟨[], some l, none⟩ = some (.sortedVector (done ++ ls)) := by
  simp only [Change.attempt, arrive, if_true, visit, visitContainer, Tree.removeKey,
    filter_key hdone hls, callOnPathSteps, succeeded, Tree.elements]
  simp [Nat.add_assoc]

/-- A set loses an element: the values move up, and the last node goes. -/
theorem attempt_remove_mutableSet {nodes : List (List S)}
    (hdone : ∀ d ∈ done, element.keyOf d ≠ element.keyOf l)
    (hls : ∀ y ∈ ls, element.keyOf y ≠ element.keyOf l) :
    Change.attempt (.container .mutableSet element) (.mutableSet nodes (done ++ l :: ls))
        ⟨[], some l, none⟩ =
      some (.mutableSet (nodes.take (done ++ ls).length) (done ++ ls)) := by
  simp only [Change.attempt, arrive, if_true, visit, visitContainer, Tree.removeKey,
    filter_key hdone hls, callOnPathSteps, succeeded, Tree.elements]
  simp [Nat.add_assoc]

end Container

/-! ## The whole diff -/

/-- The elements after the diff: those that were added, and those that stayed with their
own diffs replayed. -/
def replayZip (element : Schema S) : List (Zipped (Tree S)) → Option (List (Tree S))
  | [] => some []
  | .left _ :: zs => replayZip element zs
  | .right r :: zs => (replayZip element zs).map (r :: ·)
  | .both l r :: zs =>
      (replay element (diff element l r) l).bind fun l' => (replayZip element zs).map (l' :: ·)

/-- Nothing that stays, and nothing that is added among the others, comes after a key that
is removed. -/
def RemovalsLast (old new : List (List S)) : Prop :=
  ∀ k ∈ old, k ∉ new → ∀ m ∈ new, k < m → ∀ n ∈ old, n < m

instance (old new : List (List S)) : Decidable (RemovalsLast old new) :=
  inferInstanceAs (Decidable (∀ k ∈ old, k ∉ new → ∀ m ∈ new, k < m → ∀ n ∈ old, n < m))

section Run

variable {element : Schema S} {kind : ContainerKind}

/-- The elements that a container of the schema can have. -/
structure Schema.Elements (element : Schema S) (xs : List (Tree S)) : Prop where
  ascending : Ascending element.keyOf xs
  conforms : ∀ x ∈ xs, element.Conforms x ∧ x ≠ .null

variable {xs : List (Tree S)}

theorem Schema.Elements.tail {x : Tree S} (h : element.Elements (x :: xs)) : element.Elements xs :=
  ⟨(List.pairwise_cons.mp h.ascending).2, fun y hy => h.conforms y (by simp [hy])⟩

theorem Schema.Elements.head_lt {x : Tree S} (h : element.Elements (x :: xs)) :
    ∀ y ∈ xs, element.keyOf x < element.keyOf y :=
  (List.pairwise_cons.mp h.ascending).1

variable {done : List (Tree S)}

theorem below_append {x : Tree S} (hdone : ∀ d ∈ done, ∀ y ∈ xs, element.keyOf d < element.keyOf y)
    (hx : ∀ y ∈ xs, element.keyOf x < element.keyOf y) :
    ∀ d ∈ done ++ [x], ∀ y ∈ xs, element.keyOf d < element.keyOf y := by
  intro d hd y hy
  rcases List.mem_append.mp hd with hd | hd
  · exact hdone d hd y hy
  · exact List.mem_singleton.mp hd ▸ hx y hy

theorem replay_flatMap_cons (s : Schema S) (z : Zipped (Tree S)) (zs : List (Zipped (Tree S)))
    (t : Tree S) :
    replay s ((z :: zs).flatMap (zipChanges element)) t =
      (replay s (zipChanges element z) t).bind (replay s (zs.flatMap (zipChanges element))) := by
  simp only [replay, List.flatMap_cons, List.foldlM_append]
  rfl

/-- The diff of an element keeps its key. -/
theorem keyOf_replay (hw : element.WellFormed) (hk : element.Keyed) {l r l' : Tree S}
    (hl : element.Conforms l ∧ l ≠ .null) (hr : element.Conforms r ∧ r ≠ .null)
    (hkey : element.keyOf l = element.keyOf r)
    (h : replay element (diff element l r) l = some l') : element.keyOf l' = element.keyOf l := by
  refine foldlM_invariant (I := fun y => element.keyOf y = element.keyOf l) ?_ l l' rfl h
  intro c hc y y' hy hy'
  exact (keyOf_attempt hw hk hl hr hkey hc hy').trans hy

variable {ls : List (Tree S)}

/-- The diff of an element is replayed inside the container. -/
theorem replay_both (hw : element.WellFormed) (hk : element.Keyed) {l r : Tree S}
    (hl : element.Conforms l ∧ l ≠ .null) (hr : element.Conforms r ∧ r ≠ .null)
    (hkey : element.keyOf l = element.keyOf r)
    (hdone : ∀ d ∈ done, element.keyOf d < element.keyOf l) :
    replay (.container kind element) (zipChanges element (.both l r))
        (Tree.container kind element.keyOf (done ++ l :: ls)) =
      (replay element (diff element l r) l).map fun l' =>
        Tree.container kind element.keyOf (done ++ l' :: ls) := by
  unfold replay zipChanges
  refine foldlM_lift (I := fun y => element.keyOf y = element.keyOf l)
    (g := fun y => Tree.container kind element.keyOf (done ++ y :: ls)) ?_ ?_ l rfl
  · intro c hc y hy
    rw [← hy]
    exact attempt_key (fun d hd => ((hdone d hd).trans_eq hy.symm).ne)
      fun x hx => keyOf_attempt hw hk hl hr hkey hc hx
  · intro c hc y y' hy hy'
    exact (keyOf_attempt hw hk hl hr hkey hc hy').trans hy

theorem replay_add {r : Tree S} (hdone : ∀ d ∈ done, element.keyOf d < element.keyOf r)
    (hls : ∀ y ∈ ls, element.keyOf r < element.keyOf y) :
    replay (.container kind element) (zipChanges element (.right r))
        (Tree.container kind element.keyOf (done ++ ls)) =
      some (Tree.container kind element.keyOf (done ++ r :: ls)) := by
  simp [replay, zipChanges, attempt_add hdone hls]

/-- Elements above all others are appended. -/
theorem replay_adds : ∀ {done rs : List (Tree S)}, Ascending element.keyOf rs →
    (∀ d ∈ done, ∀ r ∈ rs, element.keyOf d < element.keyOf r) →
    replay (.container kind element) ((zipmap element.keyOf [] rs).flatMap (zipChanges element))
        (Tree.container kind element.keyOf done) =
      some (Tree.container kind element.keyOf (done ++ rs)) := by
  intro done rs hrs hdone
  induction rs generalizing done with
  | nil => simp [zipmap, replay]
  | cons r rs ih =>
    obtain ⟨hr, hrs⟩ := List.pairwise_cons.mp hrs
    have hadd : replay (.container kind element) (zipChanges element (.right r))
        (Tree.container kind element.keyOf (done ++ [])) =
          some (Tree.container kind element.keyOf (done ++ [r])) :=
      replay_add (fun d hd => hdone d hd r (by simp)) (by simp)
    have hrest := ih hrs (below_append (fun d hd x hx => hdone d hd x (by simp [hx])) hr)
    rw [List.append_assoc] at hrest
    rw [List.append_nil] at hadd
    simp only [zipmap]
    rw [replay_flatMap_cons, hadd]
    exact hrest

/-- All elements of a set above `done` are removed, whatever the keys of their nodes. -/
theorem replay_removals : ∀ {done ls : List (Tree S)} {nodes : List (List S)},
    Ascending element.keyOf ls → (∀ d ∈ done, ∀ l ∈ ls, element.keyOf d < element.keyOf l) →
    nodes.length = ls.length →
    replay (.container .mutableSet element) ((ls.map Zipped.left).flatMap (zipChanges element))
        (.mutableSet (done.map element.keyOf ++ nodes) (done ++ ls)) =
      some (Tree.container .mutableSet element.keyOf done) := by
  intro done ls nodes hls hdone hlen
  induction ls generalizing nodes with
  | nil =>
    rw [List.length_eq_zero_iff.mp hlen]
    simp [replay, Tree.container]
  | cons l ls ih =>
    obtain ⟨hl, hls⟩ := List.pairwise_cons.mp hls
    have htake : (done.map element.keyOf ++ nodes).take (done ++ ls).length =
        done.map element.keyOf ++ nodes.take ls.length := by
      rw [List.length_append, ← List.length_map element.keyOf, List.take_length_add_append]
    have hone : Change.attempt (.container .mutableSet element)
        (.mutableSet (done.map element.keyOf ++ nodes) (done ++ l :: ls)) ⟨[], some l, none⟩ =
          some (.mutableSet (done.map element.keyOf ++ nodes.take ls.length) (done ++ ls)) :=
      htake ▸ attempt_remove_mutableSet (fun d hd => (hdone d hd l (by simp)).ne)
        fun y hy => (hl y hy).ne'
    have hlen' : (nodes.take ls.length).length = ls.length := by simp [hlen]
    have hrest := ih hls (fun d hd x hx => hdone d hd x (by simp [hx])) hlen'
    rw [List.map_cons, replay_flatMap_cons]
    simp only [replay, zipChanges, List.foldlM_cons, List.foldlM_nil, hone]
    exact hrest

theorem replayZip_append (element : Schema S) (ls rs : List (Tree S)) :
    replayZip element (ls.map .left ++ zipmap element.keyOf [] rs) = some rs := by
  induction ls with
  | cons l ls ih => simpa [replayZip] using ih
  | nil =>
    induction rs with
    | nil => simp [zipmap, replayZip]
    | cons r rs ih =>
      simp only [List.map_nil, List.nil_append] at ih
      simp [zipmap, replayZip, ih]

/-- A set that loses all its elements from some key on, before it gets others. -/
theorem replay_tail {rs : List (Tree S)} (hls : Ascending element.keyOf ls)
    (hrs : Ascending element.keyOf rs) (hlt : ∀ l ∈ ls, ∀ r ∈ rs, element.keyOf l < element.keyOf r)
    (hdl : ∀ d ∈ done, ∀ l ∈ ls, element.keyOf d < element.keyOf l)
    (hdr : ∀ d ∈ done, ∀ r ∈ rs, element.keyOf d < element.keyOf r) :
    replay (.container .mutableSet element)
        ((zipmap element.keyOf ls rs).flatMap (zipChanges element))
        (Tree.container .mutableSet element.keyOf (done ++ ls)) =
      (replayZip element (zipmap element.keyOf ls rs)).map fun xs =>
        Tree.container .mutableSet element.keyOf (done ++ xs) := by
  have hremove := replay_removals hls hdl (List.length_map element.keyOf)
  rw [← List.map_append] at hremove
  rw [zipmap_of_lt hlt, replayZip_append, List.flatMap_append, replay, List.foldlM_append]
  simp only [replay] at hremove
  simp only [Tree.container] at hremove ⊢
  have hadds : replay (.container .mutableSet element) _ _ = _ := replay_adds hrs hdr
  rw [hremove]
  exact hadds

omit [Inhabited S] in
theorem RemovalsLast.tail {old new : List (List S)} {k : List S}
    (h : RemovalsLast (k :: old) (k :: new)) (hk : ∀ m ∈ old, k < m) : RemovalsLast old new := by
  intro x hx hnot m hm hlt n hn
  refine h x (by simp [hx]) ?_ m (by simp [hm]) hlt n (by simp [hn])
  simp [hnot, (hk x hx).ne']

omit [Inhabited S] in
theorem RemovalsLast.of_add {old new : List (List S)} {k : List S}
    (h : RemovalsLast old (k :: new)) (hk : ∀ m ∈ old, k < m) : RemovalsLast old new := by
  intro x hx hnot m hm hlt n hn
  exact h x hx (by simp [hnot, (hk x hx).ne']) m (by simp [hm]) hlt n hn

theorem replay_remove {l : Tree S} (hdone : ∀ d ∈ done, element.keyOf d < element.keyOf l)
    (hls : ∀ y ∈ ls, element.keyOf l < element.keyOf y) :
    replay (.container .sortedVector element) (zipChanges element (.left l))
        (Tree.container .sortedVector element.keyOf (done ++ l :: ls)) =
      some (Tree.container .sortedVector element.keyOf (done ++ ls)) := by
  have hone : Change.attempt (.container .sortedVector element) (.sortedVector (done ++ l :: ls))
      ⟨[], some l, none⟩ = _ :=
    attempt_remove_sortedVector (fun d hd => (hdone d hd).ne) fun y hy => (hls y hy).ne'
  simp [replay, zipChanges, Tree.container, hone]

/-- The diff of a container is replayed element by element.  The induction follows the
merge, with the elements that are done in front. -/
theorem replay_zip (hw : element.WellFormed) (hk : element.Keyed) (ls rs done : List (Tree S))
    (hls : element.Elements ls) (hrs : element.Elements rs)
    (hdl : ∀ d ∈ done, ∀ l ∈ ls, element.keyOf d < element.keyOf l)
    (hdr : ∀ d ∈ done, ∀ r ∈ rs, element.keyOf d < element.keyOf r)
    (hlast : kind = .mutableSet →
      RemovalsLast (ls.map element.keyOf) (rs.map element.keyOf)) :
    replay (.container kind element) ((zipmap element.keyOf ls rs).flatMap (zipChanges element))
        (Tree.container kind element.keyOf (done ++ ls)) =
      (replayZip element (zipmap element.keyOf ls rs)).map fun xs =>
        Tree.container kind element.keyOf (done ++ xs) := by
  fun_induction zipmap element.keyOf ls rs generalizing done with
  | case1 => simp [replay, replayZip]
  | case2 r rs ih =>
    have hadds : replay (.container kind element) _ _ = _ := replay_adds hrs.ascending hdr
    have hzip := replayZip_append element [] (r :: rs)
    simp only [List.map_nil, List.nil_append, zipmap] at hadds hzip
    rw [List.append_nil, hadds, hzip]
    rfl
  | case3 l ls ih =>
    cases kind with
    | mutableSet =>
      have htail := replay_tail hls.ascending hrs.ascending (by simp) hdl hdr
      simpa only [zipmap] using htail
    | sortedVector =>
      rw [replay_flatMap_cons, replay_remove (hdl · · l (by simp)) hls.head_lt]
      exact ih done hls.tail hrs (fun d hd x hx => hdl d hd x (by simp [hx])) hdr (by simp)
  | case4 l ls r rs hlt ih =>
    cases kind with
    | mutableSet =>
      have hbelow := hrs.ascending.lt_of_lt_head hlt
      have hremoved : element.keyOf l ∉ (r :: rs).map element.keyOf := by
        intro hmem
        obtain ⟨y, hy, heq⟩ := List.mem_map.mp hmem
        exact (hbelow y hy).ne heq.symm
      have habove : ∀ x ∈ l :: ls, ∀ y ∈ r :: rs, element.keyOf x < element.keyOf y :=
        fun x hx y hy => hlast rfl (element.keyOf l) (by simp) hremoved _
          (List.mem_map_of_mem hy) (hbelow y hy) _ (List.mem_map_of_mem hx)
      have htail := replay_tail hls.ascending hrs.ascending habove hdl hdr
      simpa only [zipmap, hlt, if_true] using htail
    | sortedVector =>
      rw [replay_flatMap_cons, replay_remove (hdl · · l (by simp)) hls.head_lt]
      exact ih done hls.tail hrs (fun d hd x hx => hdl d hd x (by simp [hx])) hdr (by simp)
  | case5 l ls r rs hnot hlt ih =>
    have hrl := hls.ascending.lt_of_lt_head hlt
    rw [replay_flatMap_cons, replay_add (hdr · · r (by simp)) hrl, replayZip]
    have hrest := ih (done ++ [r]) hls hrs.tail (below_append hdl hrl)
      (below_append (fun d hd x hx => hdr d hd x (by simp [hx])) hrs.head_lt)
      fun h => (hlast h).of_add (by simpa using hrl)
    simp only [List.append_assoc, List.cons_append, List.nil_append] at hrest
    rw [Option.bind_some, hrest, Option.map_map]
    rfl
  | case6 l ls r rs hnot hnot' ih =>
    have hkey : element.keyOf l = element.keyOf r :=
      le_antisymm (not_lt.mp hnot') (not_lt.mp hnot)
    have hl := hls.conforms l (by simp)
    have hr := hrs.conforms r (by simp)
    rw [replay_flatMap_cons, replay_both hw hk hl hr hkey (hdl · · l (by simp)), replayZip]
    cases hone : replay element (diff element l r) l with
    | none => rfl
    | some l' =>
      have hkey' := keyOf_replay hw hk hl hr hkey hone
      have hrest := ih (done ++ [l']) hls.tail hrs.tail
        (below_append (fun d hd x hx => hdl d hd x (by simp [hx]))
          fun x hx => hkey' ▸ hls.head_lt x hx)
        (below_append (fun d hd x hx => hdr d hd x (by simp [hx]))
          fun x hx => (hkey'.trans hkey) ▸ hrs.head_lt x hx)
        fun h => RemovalsLast.tail (k := element.keyOf l) (by simpa [hkey] using hlast h)
          (by simpa using hls.head_lt)
      simp only [List.append_assoc, List.cons_append, List.nil_append] at hrest
      rw [Option.map_some, Option.bind_some, hrest, Option.bind_some, Option.map_map]
      rfl

end Run

end TupleTree
