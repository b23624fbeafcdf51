import Mathlib.Data.List.Forall2
import Revng.TupleTree.Diff

/-!
# The shape of a diff

The changes of a part of the tree are those of the part alone, under its path.  A diff is
empty when the trees are equal, and only then.  The inverted diff is the diff of the
exchanged trees, change by change.
-/

namespace TupleTree

open SortedMerge

variable {S : Type}

def Change.under (path : Path S) (c : Change S) : Change S := { c with path := path ++ c.path }

theorem under_under (p q : Path S) (cs : List (Change S)) :
    (cs.map (Change.under q)).map (Change.under p) = cs.map (Change.under (p ++ q)) := by
  simp [Change.under]

variable [LinearOrder S] [Inhabited S]

/-- The changes of a container at one place of the merge. -/
def zipChanges (element : Schema S) : Zipped (Tree S) → List (Change S)
  | .right r => [⟨[], none, some r⟩]
  | .left l => [⟨[], some l, none⟩]
  | .both l r => (diff element l r).map (Change.under [.key (element.keyOf l)])

/-! ## The stack -/

attribute [local simp] diffImpl

/-- The stack is a prefix of the paths. -/
def Stacked (s : Schema S) : Prop :=
  ∀ stack a b, diffImpl stack s a b = (diff s a b).map (Change.under stack)

variable {fields : List (Schema S)}

theorem diffTuple_eq (h : ∀ f ∈ fields, Stacked f) (stack : Path S) :
    ∀ i ls rs, diffTuple stack i fields ls rs =
      (diffTuple [] i fields ls rs).map (Change.under stack) := by
  induction fields with
  | nil => simp [diffTuple]
  | cons f fs ih =>
    intro i ls rs
    cases ls with
    | nil => simp [diffTuple]
    | cons l ls =>
      cases rs with
      | nil => simp [diffTuple]
      | cons r rs =>
        have hf := h f (by simp)
        simp only [diffTuple, List.map_append, List.nil_append]
        rw [hf, hf [.field i], under_under, ih (fun g hg => h g (by simp [hg]))]

theorem stacked (s : Schema S) : Stacked s := by
  induction s using Schema.induction with
  | scalar =>
    intro stack a b
    simp only [diff, diffImpl]
    split <;> simp [Change.under]
  | struct key fields ih =>
    intro stack a b
    cases a <;> cases b <;> simp only [diff, diffImpl]
    case struct.struct => exact diffTuple_eq ih stack _ _ _
    all_goals (split <;> simp [Change.under])
  | pointer key kindField alternatives ih =>
    intro stack a b
    cases a <;> cases b <;> simp only [diff, diffImpl]
    case object.object =>
      split
      · rw [diffTuple_eq (ih _), diffTuple_eq (ih _) ([] ++ _), under_under]
        simp
      · simp [Change.under]
    all_goals (split <;> simp [Change.under])
  | container kind element ih =>
    intro stack a b
    simp only [diff, diffImpl, List.map_flatMap]
    congr 1
    funext z
    cases z with
    | left l => simp [Change.under]
    | right r => simp [Change.under]
    | both l r =>
      simp only
      rw [ih, ih ([] ++ _), under_under]
      simp

theorem diff_struct (key : List Nat) (fields : List (Schema S)) (fs gs : List (Tree S)) :
    diff (.struct key fields) (.struct fs) (.struct gs) = diffTuple [] 0 fields fs gs := rfl

theorem diff_object (key : List Nat) (kindField : Nat) (alternatives : S → List (Schema S)) (k : S)
    (fs gs : List (Tree S)) :
    diff (.pointer key kindField alternatives) (.object k fs) (.object k gs) =
      (diffTuple [] 0 (alternatives k) fs gs).map (Change.under [.kind k]) := by
  simp only [diff, diffImpl, if_true]
  exact diffTuple_eq (fun f _ => stacked f) _ _ _ _

theorem diff_container (kind : ContainerKind) (element : Schema S) (a b : Tree S) :
    diff (.container kind element) a b =
      (zipmap element.keyOf a.elements b.elements).flatMap (zipChanges element) := by
  simp only [diff, diffImpl]
  congr 1
  funext z
  cases z with
  | left l => rfl
  | right r => rfl
  | both l r => exact stacked element _ _ _

theorem diffTuple_cons (i : Nat) (f : Schema S) (fs : List (Schema S)) (l r : Tree S)
    (ls rs : List (Tree S)) :
    diffTuple [] i (f :: fs) (l :: ls) (r :: rs) =
      (diff f l r).map (Change.under [.field i]) ++ diffTuple [] (i + 1) fs ls rs := by
  simp only [diffTuple]
  rw [stacked f]
  rfl

/-! ## The inverse -/

section Invert

omit [LinearOrder S] [Inhabited S]

theorem invert_append (cs ds : List (Change S)) : invert (cs ++ ds) = invert cs ++ invert ds := by
  simp [invert]

theorem invert_under (path : Path S) (cs : List (Change S)) :
    invert (cs.map (Change.under path)) = (invert cs).map (Change.under path) := by
  simp [invert, Change.under]

end Invert

omit [Inhabited S] in
theorem invert_leaf (a b : Tree S) :
    invert (if a = b then [] else [⟨[], some a, some b⟩]) =
      if b = a then [] else [⟨[], some b, some a⟩] := by
  by_cases h : a = b
  · simp [h, invert]
  · simp [h, Ne.symm h, invert]

theorem invert_diffTuple (h : ∀ f ∈ fields, ∀ a b, invert (diff f a b) = diff f b a) :
    ∀ i ls rs, invert (diffTuple [] i fields ls rs) = diffTuple [] i fields rs ls := by
  induction fields with
  | nil => simp [diffTuple, invert]
  | cons f fs ih =>
    intro i ls rs
    cases ls with
    | nil => simp [diffTuple, invert]
    | cons l ls =>
      cases rs with
      | nil => simp [diffTuple, invert]
      | cons r rs =>
        rw [diffTuple_cons, diffTuple_cons, invert_append, invert_under, h f (by simp),
          ih fun g hg => h g (by simp [hg])]

/-- The inverted diff is the diff of the exchanged trees. -/
theorem invert_diff (s : Schema S) (a b : Tree S) : invert (diff s a b) = diff s b a := by
  induction s using Schema.induction generalizing a b with
  | scalar => exact invert_leaf a b
  | struct key fields ih =>
    cases a <;> cases b
    case struct.struct => exact invert_diffTuple ih _ _ _
    case null.null => simp [diff, diffImpl, invert]
    all_goals
      simp only [diff, diffImpl]
      exact invert_leaf (S := S) _ _
  | pointer key kindField alternatives ih =>
    cases a <;> cases b
    case object.object k fs l gs =>
      by_cases hkl : k = l
      · subst hkl
        rw [diff_object, diff_object, invert_under, invert_diffTuple (ih k)]
      · simp [diff, diffImpl, hkl, Ne.symm hkl, invert]
    case null.null => simp [diff, diffImpl, invert]
    all_goals
      simp only [diff, diffImpl]
      exact invert_leaf (S := S) _ _
  | container kind element ih =>
    rw [diff_container, diff_container, zipmap_swap a.elements, List.flatMap_map]
    simp only [invert, List.map_flatMap]
    refine List.flatMap_congr fun z hz => ?_
    cases z with
    | left l => rfl
    | right r => rfl
    | both l r =>
      have hkey := (mem_zipmap_both hz).2.2
      simp only [zipChanges, Zipped.swap, ← ih l r, ← hkey]
      exact invert_under _ _

/-! ## The empty diff -/

theorem diffTuple_self (h : ∀ f ∈ fields, ∀ a, diff f a a = []) :
    ∀ i ts, diffTuple [] i fields ts ts = [] := by
  induction fields with
  | nil => simp [diffTuple]
  | cons f fs ih =>
    intro i ts
    cases ts with
    | nil => simp [diffTuple]
    | cons t ts => simp [diffTuple_cons, h f, ih fun g hg => h g (by simp [hg])]

theorem diff_self (s : Schema S) (a : Tree S) : diff s a a = [] := by
  induction s using Schema.induction generalizing a with
  | scalar => simp [diff, diffImpl]
  | struct key fields ih =>
    cases a
    case struct fs => exact diffTuple_self ih 0 fs
    all_goals simp [diff, diffImpl]
  | pointer key kindField alternatives ih =>
    cases a
    case object k fs => rw [diff_object, diffTuple_self (ih k), List.map_nil]
    all_goals simp [diff, diffImpl]
  | container kind element ih =>
    rw [diff_container, zipmap_self, List.flatMap_map, List.flatMap_eq_nil_iff]
    exact fun l _ => by simp [zipChanges, ih l]

theorem eq_of_diffTuple_eq_nil
    (h : ∀ f ∈ fields, ∀ a b, f.Conforms a → f.Conforms b → diff f a b = [] → a = b) :
    ∀ i ls rs, Schema.AllConform fields ls → Schema.AllConform fields rs →
      diffTuple [] i fields ls rs = [] → ls = rs := by
  induction fields with
  | nil =>
    intro i ls rs hls hrs _
    rw [Schema.AllConform] at hls hrs
    rw [hls, hrs]
  | cons f fs ih =>
    intro i ls rs hls hrs hdiff
    rw [Schema.AllConform] at hls hrs
    obtain ⟨l, ls, rfl, hl, hls⟩ := hls
    obtain ⟨r, rs, rfl, hr, hrs⟩ := hrs
    rw [diffTuple_cons, List.append_eq_nil_iff, List.map_eq_nil_iff] at hdiff
    rw [h f (by simp) l r hl hr hdiff.1,
      ih (fun g hg => h g (by simp [hg])) _ ls rs hls hrs hdiff.2]

omit [LinearOrder S] [Inhabited S] in
theorem Tree.elements_container (kind : ContainerKind) (keyOf : Tree S → List S)
    (ts : List (Tree S)) : (Tree.container kind keyOf ts).elements = ts := by
  cases kind <;> rfl

/-- Trees of one schema with an empty diff are equal. -/
theorem eq_of_diff_eq_nil (s : Schema S) (a b : Tree S) (ha : s.Conforms a) (hb : s.Conforms b)
    (h : diff s a b = []) : a = b := by
  induction s using Schema.induction generalizing a b with
  | scalar => simpa [diff, diffImpl] using h
  | struct key fields ih =>
    rw [Schema.Conforms] at ha hb
    obtain ⟨fs, rfl, hfs⟩ := ha
    obtain ⟨gs, rfl, hgs⟩ := hb
    rw [eq_of_diffTuple_eq_nil ih 0 fs gs hfs hgs h]
  | pointer key kindField alternatives ih =>
    rw [Schema.Conforms] at ha hb
    rcases ha with rfl | ⟨k, fs, rfl, -, hfs⟩ <;> rcases hb with rfl | ⟨l, gs, rfl, -, hgs⟩
    · rfl
    · simp [diff, diffImpl] at h
    · simp [diff, diffImpl] at h
    · by_cases hkl : k = l
      · subst hkl
        rw [diff_object, List.map_eq_nil_iff] at h
        rw [eq_of_diffTuple_eq_nil (ih k) 0 fs gs hfs hgs h]
      · simp [diff, diffImpl, hkl] at h
  | container kind element ih =>
    rw [Schema.Conforms] at ha hb
    obtain ⟨ls, rfl, -, hls⟩ := ha
    obtain ⟨rs, rfl, -, hrs⟩ := hb
    rw [diff_container, List.flatMap_eq_nil_iff, Tree.elements_container,
      Tree.elements_container] at h
    have hforall : List.Forall₂ (· = ·) ls rs := by
      refine forall₂_of_zipmap element.keyOf fun z hz => ?_
      cases z with
      | left l => exact absurd (h _ hz) (by simp [zipChanges])
      | right r => exact absurd (h _ hz) (by simp [zipChanges])
      | both l r =>
        obtain ⟨hl, hr, -⟩ := mem_zipmap_both hz
        have hnil := List.map_eq_nil_iff.mp (h _ hz)
        exact ⟨l, r, rfl, ih l r (hls l hl).1 (hrs r hr).1 hnil⟩
    rw [List.forall₂_eq_eq_eq] at hforall
    rw [hforall]

/-!
## Replaying a diff without errors

`attempt` is a change that has to succeed: it has no result when `apply` would report a
reason.  The changes of a struct, of an object and of the elements of a container act on
their part of the tree and leave the rest alone, so a whole diff is replayed part by
part.
-/

/-- The visit of the place where the path leads, seen from its parent. -/
def arrive (old new : Option (Tree S)) (path : Path S) (s : Schema S) (t : Tree S) :
    Tree S × Option Failure × Bool :=
  let visited := if path = [] then visit old new s t else (t, none)
  let below := callOnPathSteps old new path s visited.1
  (below.1, visited.2.or below.2.1, below.2.2)

def succeeded (r : Tree S × Option Failure × Bool) : Option (Tree S) :=
  if r.2.1 = none ∧ r.2.2 = true then some r.1 else none

/-- The result of a change that meets no error. -/
def Change.attempt (s : Schema S) (t : Tree S) (c : Change S) : Option (Tree S) :=
  succeeded (arrive c.old c.new c.path s t)

/-- The result of changes that meet no error. -/
def replay (s : Schema S) (changes : List (Change S)) (t : Tree S) : Option (Tree S) :=
  changes.foldlM (Change.attempt s) t

/-! ## Apply -/

theorem applyChange_eq_iff {s : Schema S} {index : Nat} {c : Change S} {t t' : Tree S}
    (h : c.path ≠ []) : applyChange s index c t = (t', []) ↔ c.attempt s t = some t' := by
  unfold applyChange Change.attempt arrive succeeded
  simp only [h, if_false, Option.none_or]
  generalize callOnPathSteps c.old c.new c.path s t = called
  obtain ⟨u, failure, found⟩ := called
  cases failure <;> cases found <;> simp

/-- `apply` returns no error exactly when every change succeeds. -/
theorem applyFrom_eq_iff {s : Schema S} {cs : List (Change S)} (h : ∀ c ∈ cs, c.path ≠ []) :
    ∀ (index : Nat) {t t' : Tree S},
      applyFrom s index cs t = (t', []) ↔ replay s cs t = some t' := by
  induction cs with
  | nil => simp [applyFrom, replay]
  | cons c cs ih =>
    intro index t t'
    have ih' : ∀ (index : Nat) {t t' : Tree S},
        applyFrom s index cs t = (t', []) ↔ replay s cs t = some t' :=
      ih fun d hd => h d (by simp [hd])
    have hc : ∀ u, applyChange s index c t = (u, []) ↔ c.attempt s t = some u := fun u =>
      applyChange_eq_iff (h c (by simp))
    simp only [replay, List.foldlM_cons]
    constructor
    · intro hrun
      simp only [applyFrom, Prod.mk.injEq, List.append_eq_nil_iff] at hrun
      obtain ⟨htree, hnil, hrest⟩ := hrun
      have hone := (hc _).mp (Prod.ext rfl hnil)
      rw [hone]
      exact (ih' _).mp (Prod.ext htree hrest)
    · intro hrun
      obtain ⟨u, hone, hrest⟩ := Option.bind_eq_some_iff.mp hrun
      simp only [applyFrom, (hc u).mpr hone, (ih' (index + 1)).mpr hrest, List.append_nil]

/-! ## The parts of a tree -/

omit [LinearOrder S] [Inhabited S] in
/-- Steps on a part of a value are steps on the value. -/
theorem foldlM_lift {α β γ δ : Type} {f : α → γ → Option α} {f' : β → δ → Option β} {g : β → α}
    {h : δ → γ} {I : β → Prop} {cs : List δ}
    (hstep : ∀ c ∈ cs, ∀ y, I y → f (g y) (h c) = (f' y c).map g)
    (hinv : ∀ c ∈ cs, ∀ y y', I y → f' y c = some y' → I y') :
    ∀ y, I y → (cs.map h).foldlM f (g y) = (cs.foldlM f' y).map g := by
  induction cs with
  | nil => exact fun y _ => rfl
  | cons c cs ih =>
    intro y hy
    rw [List.map_cons, List.foldlM_cons, List.foldlM_cons, hstep c (by simp) y hy]
    cases hy' : f' y c with
    | none => rfl
    | some y' =>
      exact ih (fun d hd => hstep d (by simp [hd])) (fun d hd => hinv d (by simp [hd])) y'
        (hinv c (by simp) y y' hy hy')

/-- A change of one field of a tuple. -/
def attemptField (fields : List (Schema S)) (ts : List (Tree S)) (c : Change S) :
    Option (List (Tree S)) :=
  match c.path with
  | .field i :: rest =>
      match fields[i]?, ts[i]? with
      | some f, some x => (Change.attempt f x ⟨rest, c.old, c.new⟩).map (ts.set i)
      | _, _ => none
  | _ => none

omit [LinearOrder S] [Inhabited S] in
theorem succeeded_map (g : Tree S → Tree S) (t : Tree S) (failure : Option Failure)
    (found : Bool) : succeeded (g t, failure, found) = (succeeded (t, failure, found)).map g := by
  unfold succeeded
  split <;> simp [*]

variable {fields : List (Schema S)}

theorem attempt_struct {key : List Nat} {ts : List (Tree S)} {c : Change S} {i : Nat}
    {rest : Path S} (hc : c.path = .field i :: rest) :
    c.attempt (.struct key fields) (.struct ts) = (attemptField fields ts c).map .struct := by
  unfold Change.attempt attemptField arrive
  simp only [hc, callOnPathSteps, reduceCtorEq, if_false, Option.none_or]
  cases fields[i]? with
  | none => simp [succeeded]
  | some f =>
    cases ts[i]? with
    | none => simp [succeeded]
    | some x =>
      simp only [Change.attempt, Option.map_map, arrive]
      exact succeeded_map (fun u => .struct (ts.set i u)) _ _ _

theorem attempt_object {key : List Nat} {kindField : Nat} {alternatives : S → List (Schema S)}
    {k l : S} {ts : List (Tree S)} {c : Change S} {i : Nat} {rest : Path S}
    (hc : c.path = .field i :: rest) :
    (c.under [.kind l]).attempt (.pointer key kindField alternatives) (.object k ts) =
      (attemptField (alternatives k) ts c).map (.object k) := by
  unfold Change.attempt attemptField arrive
  simp only [Change.under, hc, List.cons_append, List.nil_append, callOnPathSteps, reduceCtorEq,
    if_false, Option.none_or]
  cases (alternatives k)[i]? with
  | none => simp [succeeded]
  | some f =>
    cases ts[i]? with
    | none => simp [succeeded]
    | some x =>
      simp only [Change.attempt, Option.map_map, arrive]
      exact succeeded_map (fun u => .object k (ts.set i u)) _ _ _

theorem attemptField_under {f : Schema S} {pre post : List (Tree S)}
    (hf : fields[pre.length]? = some f) (x : Tree S) (c : Change S) :
    attemptField fields (pre ++ x :: post) (c.under [.field pre.length]) =
      (c.attempt f x).map fun x' => pre ++ x' :: post := by
  unfold attemptField
  simp only [Change.under, List.cons_append, List.nil_append, hf]
  have hset : (pre ++ x :: post).set pre.length = fun x' => pre ++ x' :: post := by
    funext x'
    simp
  rw [hset]
  simp

/-- The diffs of the fields, each replayed on its field. -/
def replayTuple : List (Schema S) → List (Tree S) → List (Tree S) → Option (List (Tree S))
  | f :: fs, l :: ls, r :: rs =>
      (replay f (diff f l r) l).bind fun l' => (replayTuple fs ls rs).map (l' :: ·)
  | _, ls, _ => some ls

/-- The diff of a tuple is replayed field by field.  The induction goes over the fields,
with those that are done in front. -/
theorem foldlM_diffTuple (fields : List (Schema S)) :
    ∀ (done : List (Schema S)) (pre ls rs : List (Tree S)), done.length = pre.length →
      (diffTuple [] pre.length fields ls rs).foldlM (attemptField (done ++ fields)) (pre ++ ls) =
        (replayTuple fields ls rs).map (pre ++ ·) := by
  induction fields with
  | nil => simp [diffTuple, replayTuple]
  | cons f fs ih =>
    intro done pre ls rs hlen
    cases ls with
    | nil => simp [diffTuple, replayTuple]
    | cons l ls =>
      cases rs with
      | nil => simp [diffTuple, replayTuple]
      | cons r rs =>
        have hf : (done ++ f :: fs)[pre.length]? = some f := by simp [← hlen]
        have hfirst : ((diff f l r).map (Change.under [.field pre.length])).foldlM
            (attemptField (done ++ f :: fs)) (pre ++ l :: ls) =
              (replay f (diff f l r) l).map fun l' => pre ++ l' :: ls :=
          foldlM_lift (I := fun _ => True) (fun c _ x _ => attemptField_under hf x c)
            (fun _ _ _ _ _ _ => trivial) l trivial
        rw [diffTuple_cons, List.foldlM_append, hfirst, replayTuple]
        cases replay f (diff f l r) l with
        | none => rfl
        | some l' =>
          have hrest := ih (done ++ [f]) (pre ++ [l']) ls rs (by simp [hlen])
          simp only [List.append_assoc, List.cons_append, List.nil_append,
            List.length_append, List.length_cons, List.length_nil] at hrest
          simp only [Option.map_some, Option.bind_some, Option.map_map]
          exact hrest

/-- A change of a tuple is a change of one of its fields. -/
theorem mem_diffTuple {c : Change S} :
    ∀ {i : Nat} {ls rs : List (Tree S)}, c ∈ diffTuple [] i fields ls rs →
      ∃ j f l r d, fields[j]? = some f ∧ ls[j]? = some l ∧ rs[j]? = some r ∧ d ∈ diff f l r ∧
        c = d.under [.field (i + j)] := by
  induction fields with
  | nil => simp [diffTuple]
  | cons f fs ih =>
    intro i ls rs hc
    cases ls with
    | nil => simp [diffTuple] at hc
    | cons l ls =>
      cases rs with
      | nil => simp [diffTuple] at hc
      | cons r rs =>
        rw [diffTuple_cons, List.mem_append, List.mem_map] at hc
        rcases hc with ⟨d, hd, rfl⟩ | hc
        · exact ⟨0, f, l, r, d, rfl, rfl, rfl, hd, rfl⟩
        · obtain ⟨j, f', l', r', d, hf, hl, hr, hd, rfl⟩ := ih hc
          refine ⟨j + 1, f', l', r', d, by simpa using hf, by simpa using hl,
            by simpa using hr, hd, ?_⟩
          rw [Nat.add_assoc, Nat.add_comm 1 j]

theorem path_of_mem_diffTuple {c : Change S} {i : Nat} {ls rs : List (Tree S)}
    (hc : c ∈ diffTuple [] i fields ls rs) : ∃ j rest, c.path = .field j :: rest := by
  obtain ⟨j, _, _, _, d, _, _, _, _, rfl⟩ := mem_diffTuple hc
  exact ⟨i + j, d.path, rfl⟩

theorem replay_struct (key : List Nat) (fields : List (Schema S)) (fs gs : List (Tree S)) :
    replay (.struct key fields) (diff (.struct key fields) (.struct fs) (.struct gs)) (.struct fs) =
      (replayTuple fields fs gs).map .struct := by
  have hlift : ((diffTuple [] 0 fields fs gs).map id).foldlM
      (Change.attempt (.struct key fields)) (.struct fs) =
        ((diffTuple [] 0 fields fs gs).foldlM (attemptField fields) fs).map .struct := by
    refine foldlM_lift (I := fun _ => True) (fun c hc ts _ => ?_) (fun _ _ _ _ _ _ => trivial)
      fs trivial
    obtain ⟨j, rest, hpath⟩ := path_of_mem_diffTuple hc
    exact attempt_struct hpath
  have htuple := foldlM_diffTuple fields [] [] fs gs rfl
  simp only [List.nil_append, List.length_nil] at htuple
  rw [List.map_id, htuple] at hlift
  rw [diff_struct, replay, hlift]
  simp

theorem replay_object (key : List Nat) (kindField : Nat) (alternatives : S → List (Schema S))
    (k : S) (fs gs : List (Tree S)) :
    replay (.pointer key kindField alternatives)
        (diff (.pointer key kindField alternatives) (.object k fs) (.object k gs)) (.object k fs) =
      (replayTuple (alternatives k) fs gs).map (.object k) := by
  have hlift : ((diffTuple [] 0 (alternatives k) fs gs).map (Change.under [.kind k])).foldlM
      (Change.attempt (.pointer key kindField alternatives)) (.object k fs) =
        ((diffTuple [] 0 (alternatives k) fs gs).foldlM (attemptField (alternatives k)) fs).map
          (.object k) := by
    refine foldlM_lift (I := fun _ => True) (fun c hc ts _ => ?_) (fun _ _ _ _ _ _ => trivial)
      fs trivial
    obtain ⟨j, rest, hpath⟩ := path_of_mem_diffTuple hc
    exact attempt_object hpath
  have htuple := foldlM_diffTuple (alternatives k) [] [] fs gs rfl
  simp only [List.nil_append, List.length_nil] at htuple
  rw [htuple] at hlift
  rw [diff_object, replay, hlift]
  simp

end TupleTree
