import Mathlib.Data.List.Basic
import Mathlib.Data.Set.Basic

/-!
# Kinds of objects and how to move between them

Every container holds objects of one kind, and kinds form a tree.  A pipe that is asked
for objects of one kind needs the objects of the kinds of its inputs that belong to
them.  `moveToKind` goes up to the ancestors of the objects, or down to their children
in the model, and gives nothing when the two kinds are on different branches.

A failed assertion of the source is `none`.  Three facts are all that the pipeline
uses: objects of the right kind are returned as they are (`moveToKind_same`), nothing
becomes nothing (`moveToKind_nil`), and fewer objects move to fewer objects
(`moveToKind_mono`).
-/

namespace Pypeline

/-! ## The tree of kinds -/

/-- The kinds with their parents.  The rank is the distance from the root. -/
structure KindTree (Kind : Type) where
  parent : Kind → Option Kind
  rank : Kind → Nat
  rank_parent : ∀ k p, parent k = some p → rank k = rank p + 1

/-- The result of `Kind.relation`, with the path between related kinds. -/
inductive KindRelation (Kind : Type) where
  | same
  | ancestor (path : List Kind)
  | descendant (path : List Kind)
  | unrelated
deriving DecidableEq, Repr

variable {Kind Model Obj : Type} [DecidableEq Kind]

/-- The kinds from `k` up to `ancestor`, both included.  The rank of `k` is enough
fuel, since a kind of rank zero has no parent. -/
def KindTree.pathUp (T : KindTree Kind) (ancestor : Kind) : Nat → Kind → Option (List Kind)
  | 0, k => if k = ancestor then some [k] else none
  | fuel + 1, k =>
      if k = ancestor then some [k]
      else
        match T.parent k with
        | none => none
        | some p => (T.pathUp ancestor fuel p).map (k :: ·)

/-- `Kind.relation` -/
def KindTree.relation (T : KindTree Kind) (self other : Kind) : KindRelation Kind :=
  if self = other then .same
  else if T.rank self = T.rank other then .unrelated
  else
    let ancestor := if T.rank other < T.rank self then other else self
    let descendant := if T.rank self < T.rank other then other else self
    match T.pathUp ancestor (T.rank descendant) descendant with
    | none => .unrelated
    | some path => if self = ancestor then .ancestor path.reverse else .descendant path

theorem KindTree.relation_self (T : KindTree Kind) (k : Kind) : T.relation k k = .same := by
  simp [KindTree.relation]

/-! ## Moving objects -/

/-- What a model says about the objects: the abstract methods of `ObjectID` and `Model`
that `move_to_kind` calls. -/
structure Navigation (Model Kind Obj : Type) where
  kinds : KindTree Kind
  parent : Obj → Option Obj
  children : Model → Obj → Kind → List Obj

namespace Navigation

variable (N : Navigation Model Kind Obj)

/-- Take the parent `n` times. -/
def ancestorAt : Nat → Obj → Option Obj
  | 0, o => some o
  | n + 1, o => (N.parent o).bind (ancestorAt n)

/-- `Model.move_to_kind` on objects of the kind `source`. -/
def moveToKind (m : Model) (objects : List Obj) (source destination : Kind) :
    Option (List Obj) :=
  if objects.isEmpty then some []
  else
    match N.kinds.relation destination source with
    | .same => some objects
    | .unrelated => some []
    | .ancestor path =>
        let climb := N.ancestorAt (path.length - 1)
        if objects.all fun o => (climb o).isSome then some (objects.filterMap climb) else none
    | .descendant path =>
        let childKinds := path.dropLast
        if childKinds.getLast? = some destination then
          some (childKinds.foldl (fun result kind => result.flatMap (N.children m · kind)) objects)
        else none

theorem moveToKind_nil (m : Model) (source destination : Kind) :
    N.moveToKind m [] source destination = some [] := by
  simp [moveToKind]

theorem moveToKind_same (m : Model) (objects : List Obj) (kind : Kind) :
    N.moveToKind m objects kind kind = some objects := by
  cases objects with
  | nil => exact N.moveToKind_nil m kind kind
  | cons o rest => simp [moveToKind, N.kinds.relation_self]

omit [DecidableEq Kind] in
theorem foldl_children_subset (m : Model) (kinds : List Kind) :
    ∀ {objects objects' : List Obj}, objects' ⊆ objects →
      kinds.foldl (fun result kind => result.flatMap (N.children m · kind)) objects' ⊆
        kinds.foldl (fun result kind => result.flatMap (N.children m · kind)) objects := by
  induction kinds with
  | nil => exact fun h => h
  | cons kind rest ih =>
    intro objects objects' h
    apply ih
    intro x hx
    obtain ⟨o, ho, hx⟩ := List.mem_flatMap.mp hx
    exact List.mem_flatMap.mpr ⟨o, h ho, hx⟩

/-- Moving fewer objects succeeds, and gives fewer objects. -/
theorem moveToKind_mono {m : Model} {objects objects' result : List Obj}
    {source destination : Kind} (hsub : objects' ⊆ objects)
    (h : N.moveToKind m objects source destination = some result) :
    ∃ result', N.moveToKind m objects' source destination = some result' ∧
      result' ⊆ result := by
  cases objects' with
  | nil => exact ⟨[], N.moveToKind_nil m source destination, List.nil_subset _⟩
  | cons o' rest' =>
    have hne : objects ≠ [] := List.ne_nil_of_mem (hsub (List.mem_cons_self ..))
    unfold moveToKind at h ⊢
    rw [if_neg (by simpa using hne)] at h
    rw [if_neg (by simp)]
    cases hrel : N.kinds.relation destination source with
    | same =>
      simp only [hrel, Option.some.injEq] at h
      exact ⟨_, rfl, h ▸ hsub⟩
    | unrelated => exact ⟨[], rfl, List.nil_subset _⟩
    | ancestor path =>
      simp only [hrel] at h ⊢
      split at h
      next hall =>
        cases h
        rw [List.all_eq_true] at hall
        refine ⟨_, if_pos (List.all_eq_true.mpr fun o ho => hall o (hsub ho)), ?_⟩
        exact List.filterMap_subset _ hsub
      · cases h
    | descendant path =>
      simp only [hrel] at h ⊢
      split at h
      next hlast =>
        cases h
        exact ⟨_, if_pos hlast, N.foldl_children_subset m path.dropLast hsub⟩
      · cases h

end Navigation

/-!
## Where moving to a kind leads

`Model.move_to_kind` is meant to lead from objects of one kind to their ancestors of another
kind, or to all the objects of another kind below them.  Upwards it does (`exactUp`).

Downwards it asks the model for the children of each kind on the path that `Kind.relation` has
found, and this path starts at the kind that is furthest down.  It ends at the destination only
when there is one kind on it, so nothing comes of a step of two levels
(`moveToKind_descendant`).
-/

/-! ## Ancestors of a kind -/

namespace KindTree

variable (T : KindTree Kind)

/-- Take the parent `n` times. -/
def ancestorAt : Nat → Kind → Option Kind
  | 0, k => some k
  | n + 1, k => (T.parent k).bind (ancestorAt n)

/-- `a` is above `k`. -/
def IsAncestor (a k : Kind) : Prop := ∃ n, 0 < n ∧ T.ancestorAt n k = some a

variable {T} {a k : Kind} {n : Nat}

omit [DecidableEq Kind] in
/-- Every step up takes one from the rank. -/
theorem rank_of_ancestorAt (h : T.ancestorAt n k = some a) : T.rank k = T.rank a + n := by
  induction n generalizing k with
  | zero =>
    cases h
    rfl
  | succ n ih =>
    obtain ⟨p, hp, h⟩ := Option.bind_eq_some_iff.mp h
    rw [T.rank_parent k p hp, ih h]
    omega

omit [DecidableEq Kind] in
theorem ancestorAt_injective {m : Nat} (hm : T.ancestorAt m k = some a)
    (hn : T.ancestorAt n k = some a) : m = n := by
  have := rank_of_ancestorAt hm
  have := rank_of_ancestorAt hn
  omega

/-- What `path` says of the way from `k` up to `a`. -/
structure IsWay (T : KindTree Kind) (k a : Kind) (n : Nat) (path : List Kind) : Prop where
  length : path.length = n + 1
  get : ∀ i ≤ n, path[i]? = T.ancestorAt i k
  last : T.ancestorAt n k = some a

theorem exists_pathUp (n fuel : Nat) (h : T.ancestorAt n k = some a) (hfuel : n ≤ fuel) :
    ∃ path, T.pathUp a fuel k = some path ∧ IsWay T k a n path := by
  induction n generalizing k fuel with
  | zero =>
    cases h
    refine ⟨[a], ?_, rfl, fun i hi => ?_, rfl⟩
    · cases fuel <;> simp [pathUp]
    · obtain rfl := Nat.le_zero.mp hi
      rfl
  | succ n ih =>
    have hrank := rank_of_ancestorAt h
    have hne : k ≠ a := by
      rintro rfl
      omega
    obtain ⟨p, hp, hup⟩ := Option.bind_eq_some_iff.mp h
    obtain _ | fuel := fuel
    · omega
    · obtain ⟨path, hpath, hway⟩ := ih fuel hup (by omega)
      refine ⟨k :: path, ?_, ?_, fun i hi => ?_, h⟩
      · simp [pathUp, hne, hp, hpath]
      · simp [hway.length]
      · cases i with
        | zero => rfl
        | succ i => simp [ancestorAt, hp, hway.get i (by omega)]

/-! ## The relation of two kinds -/

theorem relation_of_ancestor (h : T.ancestorAt (n + 1) k = some a) :
    ∃ path, T.relation a k = .ancestor path ∧ path.length = n + 2 := by
  have hrank := rank_of_ancestorAt h
  obtain ⟨path, hpath, hway⟩ := exists_pathUp (n + 1) (T.rank k) h (by omega)
  have hne : a ≠ k := by
    rintro rfl
    omega
  refine ⟨path.reverse, ?_, by simp [hway.length]⟩
  rw [relation, if_neg hne, if_neg (by omega), if_neg (show ¬T.rank k < T.rank a by omega),
    if_pos (show T.rank a < T.rank k by omega)]
  simp [hpath]

/-- Seen from below, the path starts at the kind itself. -/
theorem relation_of_descendant (h : T.ancestorAt (n + 1) k = some a) :
    ∃ path, T.relation k a = .descendant path ∧ IsWay T k a (n + 1) path := by
  have hrank := rank_of_ancestorAt h
  obtain ⟨path, hpath, hway⟩ := exists_pathUp (n + 1) (T.rank k) h (by omega)
  have hne : k ≠ a := by
    rintro rfl
    omega
  refine ⟨path, ?_, hway⟩
  rw [relation, if_neg hne, if_neg (by omega), if_pos (show T.rank a < T.rank k by omega),
    if_neg (show ¬T.rank k < T.rank a by omega)]
  simp [hpath, hne]

end KindTree

/-! ## Moving objects -/

namespace Navigation

variable (N : Navigation Model Kind Obj)

/-- `a` is above `o`. -/
def IsAncestor (a o : Obj) : Prop := ∃ n, 0 < n ∧ N.ancestorAt n o = some a

/-- What the abstract methods are for: the parent of an object has the parent of its kind, and
the children of an object are the objects of the model whose parent it is. -/
structure Lawful (m : Model) (kindOf : Obj → Kind) (present : Set Obj) : Prop where
  kind_parent : ∀ o, (N.parent o).map kindOf = N.kinds.parent (kindOf o)
  mem_children : ∀ o k c, N.kinds.parent k = some (kindOf o) →
    (c ∈ N.children m o k ↔ c ∈ present ∧ kindOf c = k ∧ N.parent c = some o)

/-- Upwards the result are the ancestors of the objects, downwards the objects of the model
that lie below one of them. -/
structure MovesExactly (m : Model) (kindOf : Obj → Kind) (present : Set Obj) (objects : List Obj)
    (source destination : Kind) : Prop where
  up : N.kinds.IsAncestor destination source →
    ∃ result, N.moveToKind m objects source destination = some result ∧
      ∀ x, x ∈ result ↔ kindOf x = destination ∧ ∃ o ∈ objects, N.IsAncestor x o
  down : N.kinds.IsAncestor source destination →
    ∃ result, N.moveToKind m objects source destination = some result ∧
      ∀ x, x ∈ result ↔ x ∈ present ∧ kindOf x = destination ∧ ∃ o ∈ objects, N.IsAncestor o x

variable {N} {m : Model} {kindOf : Obj → Kind} {present : Set Obj} {objects : List Obj}
  {source destination : Kind}

omit [DecidableEq Kind] in
theorem Lawful.kind_ancestorAt (h : N.Lawful m kindOf present) (n : Nat) :
    ∀ o, (N.ancestorAt n o).map kindOf = N.kinds.ancestorAt n (kindOf o) := by
  induction n with
  | zero => exact fun o => rfl
  | succ n ih =>
    intro o
    rw [ancestorAt, KindTree.ancestorAt, ← h.kind_parent]
    cases N.parent o with
    | none => rfl
    | some p => exact ih p

omit [DecidableEq Kind] in
/-- An ancestor of some kind is as far up as the kind is. -/
theorem Lawful.isAncestor_iff (h : N.Lawful m kindOf present) {a o : Obj} {n : Nat}
    (hn : N.kinds.ancestorAt (n + 1) (kindOf o) = some (kindOf a)) :
    N.IsAncestor a o ↔ N.ancestorAt (n + 1) o = some a := by
  constructor
  · rintro ⟨k, -, hk⟩
    have hkind := h.kind_ancestorAt k o
    rw [hk, Option.map_some] at hkind
    rwa [KindTree.ancestorAt_injective hkind.symm hn] at hk
  · exact fun ha => ⟨n + 1, Nat.succ_pos n, ha⟩

/-- Moving up gives the ancestors. -/
theorem exactUp (h : N.Lawful m kindOf present) (hobjects : ∀ o ∈ objects, kindOf o = source)
    (hup : N.kinds.IsAncestor destination source) :
    ∃ result, N.moveToKind m objects source destination = some result ∧
      ∀ x, x ∈ result ↔ kindOf x = destination ∧ ∃ o ∈ objects, N.IsAncestor x o := by
  cases objects with
  | nil => exact ⟨[], N.moveToKind_nil m source destination, by simp⟩
  | cons first rest =>
    obtain ⟨n, hpos, hn⟩ := hup
    obtain ⟨n, rfl⟩ : ∃ k, n = k + 1 := ⟨n - 1, by omega⟩
    obtain ⟨path, hpath, hlength⟩ := KindTree.relation_of_ancestor hn
    have hkind : ∀ o ∈ first :: rest,
        (N.ancestorAt (n + 1) o).map kindOf = some destination := by
      intro o ho
      rw [h.kind_ancestorAt, hobjects o ho, hn]
    refine ⟨(first :: rest).filterMap (N.ancestorAt (n + 1)), ?_, fun x => ?_⟩
    · rw [moveToKind, if_neg (by simp), hpath]
      simp only [hlength, Nat.add_one_sub_one]
      refine if_pos (List.all_eq_true.mpr fun o ho => ?_)
      obtain ⟨a, ha, -⟩ := Option.map_eq_some_iff.mp (hkind o ho)
      rw [ha]
      rfl
    · rw [List.mem_filterMap]
      constructor
      · rintro ⟨o, ho, hx⟩
        have := hkind o ho
        rw [hx, Option.map_some, Option.some.injEq] at this
        exact ⟨this, o, ho, n + 1, Nat.succ_pos n, hx⟩
      · rintro ⟨rfl, o, ho, hx⟩
        exact ⟨o, ho, (h.isAncestor_iff (by rw [hobjects o ho, hn])).mp hx⟩

/-- Moving down succeeds for the children of a kind only. -/
theorem moveToKind_descendant {n : Nat} (hobjects : objects ≠ [])
    (hn : N.kinds.ancestorAt (n + 1) destination = some source) :
    N.moveToKind m objects source destination =
      if n = 0 then some (objects.flatMap (N.children m · destination)) else none := by
  obtain ⟨path, hpath, hway⟩ := KindTree.relation_of_descendant hn
  rw [moveToKind, if_neg (by simpa using hobjects), hpath]
  -- the last kind on the way, apart from the source
  have hlast : path.dropLast.getLast? = N.kinds.ancestorAt n destination := by
    rw [List.getLast?_eq_getElem?, List.length_dropLast, hway.length, List.getElem?_dropLast,
      if_pos (by rw [hway.length]; omega), Nat.add_sub_cancel, Nat.add_one_sub_one]
    exact hway.get n (Nat.le_succ n)
  simp only [hlast]
  by_cases hzero : n = 0
  · subst hzero
    have hone : path.dropLast = [destination] := by
      have hget := hway.get 0 (Nat.zero_le _)
      have hlength := hway.length
      obtain ⟨a, b, rfl⟩ := List.length_eq_two.mp hlength
      simpa [KindTree.ancestorAt] using hget
    simp [KindTree.ancestorAt, hone]
  · rw [if_neg hzero, if_neg]
    intro heq
    exact hzero (KindTree.ancestorAt_injective heq rfl)

omit [DecidableEq Kind] in
/-- A step of one level down gives the objects below. -/
theorem exactDown (h : N.Lawful m kindOf present) (hobjects : ∀ o ∈ objects, kindOf o = source)
    (hparent : N.kinds.parent destination = some source) (x : Obj) :
    x ∈ objects.flatMap (N.children m · destination) ↔
      x ∈ present ∧ kindOf x = destination ∧ ∃ o ∈ objects, N.IsAncestor o x := by
  have hone : N.kinds.ancestorAt 1 destination = some source := by
    simp [KindTree.ancestorAt, hparent]
  rw [List.mem_flatMap]
  constructor
  · rintro ⟨o, ho, hx⟩
    obtain ⟨hpresent, hkind, hup⟩ :=
      (h.mem_children o destination x (by rw [hparent, hobjects o ho])).mp hx
    exact ⟨hpresent, hkind, o, ho, 1, Nat.one_pos, by simp [ancestorAt, hup]⟩
  · rintro ⟨hpresent, rfl, o, ho, hx⟩
    have hup := (h.isAncestor_iff (n := 0) (by rw [hone, hobjects o ho])).mp hx
    refine ⟨o, ho, (h.mem_children o _ x (by rw [hparent, hobjects o ho])).mpr
      ⟨hpresent, rfl, ?_⟩⟩
    obtain ⟨p, hp, heq⟩ := Option.bind_eq_some_iff.mp hup
    cases heq
    exact hp

/-- `move_to_kind` is right exactly when it need not go down two levels. -/
theorem movesExactly_iff (h : N.Lawful m kindOf present)
    (hobjects : ∀ o ∈ objects, kindOf o = source) :
    N.MovesExactly m kindOf present objects source destination ↔
      objects = [] ∨
        (N.kinds.IsAncestor source destination → N.kinds.parent destination = some source) := by
  constructor
  · intro hexact
    by_cases hnil : objects = []
    · exact Or.inl hnil
    · refine Or.inr fun hdown => ?_
      obtain ⟨result, hresult, -⟩ := hexact.down hdown
      obtain ⟨n, hpos, hn⟩ := hdown
      obtain ⟨n, rfl⟩ : ∃ k, n = k + 1 := ⟨n - 1, by omega⟩
      rw [moveToKind_descendant hnil hn] at hresult
      split at hresult
      next hzero =>
        subst hzero
        obtain ⟨p, hp, heq⟩ := Option.bind_eq_some_iff.mp hn
        cases heq
        exact hp
      · cases hresult
  · intro hor
    refine ⟨exactUp h hobjects, fun hdown => ?_⟩
    by_cases hnil : objects = []
    · subst hnil
      exact ⟨[], N.moveToKind_nil m source destination, by simp⟩
    · have hparent := (hor.resolve_left hnil) hdown
      refine ⟨_, ?_, exactDown h hobjects hparent⟩
      exact moveToKind_descendant (n := 0) hnil (by simp [KindTree.ancestorAt, hparent])

/-! ## One object of each kind -/

/-- Kinds and objects that are one below the other, with one object of each kind. -/
def tower : Navigation Unit Nat Nat where
  kinds := { parent := fun k => if k = 0 then none else some (k - 1), rank := id,
             rank_parent := by
               intro k p hp
               split at hp
               · cases hp
               · cases hp
                 simp only [id]
                 omega }
  parent o := if o = 0 then none else some (o - 1)
  children _ o k := if k = o + 1 then [o + 1] else []

theorem tower_lawful : tower.Lawful () id Set.univ where
  kind_parent o := by simp [tower]
  mem_children o k c hk := by
    simp only [tower] at hk ⊢
    split at hk
    · cases hk
    · have hk : k = o + 1 := by
        simp only [id, Option.some.injEq] at hk
        omega
      simp only [hk, if_true, List.mem_singleton, Set.mem_univ, true_and, id]
      constructor
      · rintro rfl
        exact ⟨rfl, by simp⟩
      · exact And.left

theorem movesExactly_tower_one : tower.MovesExactly () id Set.univ [0] 0 1 :=
  (movesExactly_iff tower_lawful (by simp)).mpr (Or.inr fun _ => rfl)

/-- From the root to a kind of rank two. -/
theorem not_movesExactly : ¬ tower.MovesExactly () id Set.univ [0] 0 2 := by
  intro h
  obtain ⟨result, hresult, -⟩ := h.down ⟨2, by decide, rfl⟩
  have hnone : tower.moveToKind () [0] 0 2 = none := by decide
  cases hnone.symm.trans hresult

end Navigation

end Pypeline
