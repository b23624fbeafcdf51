import Revng.ADT.SortedVector
import Revng.Lib.RankedMap

/-!
# The history of sorted vectors

The contents of a sorted vector are a finite map, and the elements of a batch that has not
been committed.  A step of the vectors is a step of their contents (`step_refines`), so a run
aborts when the run of the contents does, and gives the same answers (`run_refines`).
-/

namespace ADT.SortedVector

open LastValues ListedMap RankedMap SortedMerge

variable {K T ι : Type} [LinearOrder K] (kot : KeyedObject K T) (move : MoveAssignment T)

/-! ## Operations -/

/-- The operations on one vector.  What is written through a reference keeps the key. -/
inductive Operation where
  | emplace (value : T)
  | emplaceOrAssign (value : T)
  | subscript (key : K) (write : T → T) (keeps : ∀ x, kot.key (write x) = kot.key x)
  | erasePosition (pos : Nat)
  | eraseRange (first last : Nat)
  | eraseKey (key : K)
  | eraseIf (callable : T → Bool)
  | clear
  | startBatch
  | emplaceImpl (value : T)
  | commit (ensureUnique : Bool)

inductive Response (T : Type) where
  | done
  | inserted (element : Option T) (isNew : Bool)
  | value (element : Option T)
  | count (n : Nat)

variable {kot}

def apply (v : SortedVector T) :
    Operation kot → Option (SortedVector T × Response T)
  | .emplace value => do
      let (v, it, isNew) ← v.emplace kot value
      return (v, .inserted v.theVector[it]? isNew)
  | .emplaceOrAssign value => do
      let (v, it, isNew) ← v.emplaceOrAssign kot value
      return (v, .inserted v.theVector[it]? isNew)
  | .subscript key write _ => do
      let (v, element) ← v.subscript kot key write
      return (v, .value element)
  | .erasePosition pos => do return (← v.erasePosition pos, .done)
  | .eraseRange first last => do return (← v.eraseRange first last, .done)
  | .eraseKey key => do
      let (v, n) ← v.eraseKey kot key
      return (v, .count n)
  | .eraseIf callable => do
      let (v, n) ← v.eraseIf callable
      return (v, .count n)
  | .clear => do return (← v.clear, .done)
  | .startBatch => do return (← v.startBatch, .done)
  | .emplaceImpl value => do return (← v.emplaceImpl value, .done)
  | .commit ensureUnique => do return (← v.commit kot move ensureUnique, .done)

/-! ## Contents -/

/-- The finite map of a vector, and the elements of its batch. -/
structure Contents (K T : Type) where
  values : K → Option T
  batch : Option (List T)

namespace Contents

def empty : Contents K T := ⟨fun _ => none, none⟩

/-- The map, outside of a batch. -/
def settled (c : Contents K T) : Option (K → Option T) :=
  if c.batch.isSome then none else some c.values

open Classical in
noncomputable def apply (c : Contents K T) : Operation kot → Option (Contents K T × Response T)
  | .emplace x => do
      let f ← c.settled
      let element := (f (kot.key x)).getD x
      return (⟨Function.update f (kot.key x) (some element), none⟩,
        .inserted (some element) (f (kot.key x)).isNone)
  | .emplaceOrAssign x => do
      let f ← c.settled
      return (⟨Function.update f (kot.key x) (some x), none⟩,
        .inserted (some x) (f (kot.key x)).isNone)
  | .subscript key write _ => do
      let f ← c.settled
      let element := (f key).getD (kot.fromKey key)
      return (⟨Function.update f key (some (write element)), none⟩, .value (some element))
  | .erasePosition pos => do
      let f ← c.settled
      if pos < card f then
        return (⟨fun k => if pos = rank f k then none else f k, none⟩, .done)
      else none
  | .eraseRange first last => do
      let f ← c.settled
      if first ≤ last ∧ last ≤ card f then
        return (⟨fun k => if first ≤ rank f k ∧ rank f k < last then none else f k, none⟩, .done)
      else none
  | .eraseKey key => do
      let f ← c.settled
      return (⟨Function.update f key none, none⟩, .count (if f key = none then 0 else 1))
  | .eraseIf callable => do
      let f ← c.settled
      return (⟨fun k => (f k).filter fun x => !callable x, none⟩,
        .count (card fun k => (f k).filter callable))
  | .clear => do
      let _ ← c.settled
      return (empty, .done)
  | .startBatch => do
      let f ← c.settled
      return (⟨f, some []⟩, .done)
  | .emplaceImpl x => do
      let xs ← c.batch
      return (⟨c.values, some (xs ++ [x])⟩, .done)
  | .commit ensureUnique =>
      match c.batch with
      | none => some (c, .done)
      | some xs =>
          -- a batch insert has every key once, and none that the map has
          if ensureUnique = true ∧ ¬((xs.map kot.key).Nodup ∧ ∀ x ∈ xs, c.values (kot.key x) = none)
          then none
          else
            some (⟨xs.foldl (fun f x => Function.update f (kot.key x) (some x)) c.values, none⟩,
              .done)

end Contents

/-! ## One vector -/

/-- The elements of a batch follow those of the map. -/
structure Represents (kot : KeyedObject K T) (v : SortedVector T) (c : Contents K T) : Prop where
  inProgress : v.batchInsertInProgress = c.batch.isSome
  theVector : ∃ old, v.theVector = old ++ c.batch.getD [] ∧ AscendingLists kot.key old c.values

variable {v : SortedVector T} {c : Contents K T} {f : K → Option T} {xs : List T} {key : K}

theorem represents_settled (h : AscendingLists kot.key xs f) :
    Represents kot ⟨xs, false⟩ ⟨f, none⟩ := ⟨rfl, xs, (List.append_nil xs).symm, h⟩

/-- Outside of a batch the vector has the elements of the map. -/
theorem Represents.cases (h : Represents kot v c) :
    (∃ f xs, c = ⟨f, none⟩ ∧ v = ⟨xs, false⟩ ∧ AscendingLists kot.key xs f) ∨
      ∃ f new old, c = ⟨f, some new⟩ ∧ v = ⟨old ++ new, true⟩ ∧ AscendingLists kot.key old f := by
  obtain ⟨f, batch⟩ := c
  obtain ⟨xs, inProgress⟩ := v
  obtain ⟨hinProgress, old, hxs, hold⟩ := h
  cases batch with
  | none =>
    refine .inl ⟨f, xs, rfl, by rw [show inProgress = false from hinProgress], ?_⟩
    rwa [show xs = old from hxs.trans (List.append_nil old)]
  | some new =>
    refine .inr ⟨f, new, old, rfl, ?_, hold⟩
    rw [show inProgress = true from hinProgress, show xs = old ++ new from hxs]

namespace Settled

variable (h : AscendingLists kot.key xs f)

include h

theorem lowerBound (key : K) : lowerBound kot ⟨xs, false⟩ key = some (rank f key) := by
  rw [← h.findIdx_eq_rank key]
  simp only [SortedVector.lowerBound, elements, KeyedObject.compareElements, kot.key_fromKey]
  rfl

theorem upperBound (key : K) : upperBound kot ⟨xs, false⟩ key =
    some (if f key = none then rank f key else rank f key + 1) := by
  rw [← h.findIdx_lt key]
  simp only [SortedVector.upperBound, elements, KeyedObject.compareElements, kot.key_fromKey]
  rfl

/-- The element at the lower bound, when the map has the key. -/
theorem getElem?_of_some {x : T} (hkey : f key = some x) :
    xs[rank f key]? = some x ∧ kot.key x = key :=
  ⟨h.getElem?_rank hkey, h.lists.keyed key x hkey⟩

theorem key_lt_of_none (hkey : f key = none) {x : T} (hx : xs[rank f key]? = some x) :
    key < kot.key x := by
  obtain ⟨before, after, rfl, hlen, -, hafter⟩ := h.exists_split_of_none hkey
  rw [← hlen, List.getElem?_append_right (Nat.le_refl _), Nat.sub_self] at hx
  exact hafter x (List.mem_of_getElem? hx)

theorem find (key : K) : find kot ⟨xs, false⟩ key =
    some (if f key = none then xs.length else rank f key) := by
  rw [SortedVector.find, Settled.lowerBound h, Option.bind_eq_bind, Option.bind_some]
  cases hkey : f key with
  | some x =>
    obtain ⟨hx, hkey⟩ := getElem?_of_some h hkey
    simp [hx, hkey]
  | none =>
    cases hx : xs[rank f key]? with
    | some x => simp [key_lt_of_none h hkey hx]
    | none =>
      have hlen := (h.rank_le key).antisymm (List.getElem?_eq_none_iff.mp hx)
      simp [hlen]

theorem count (key : K) : count kot ⟨xs, false⟩ key = some (if f key = none then 0 else 1) := by
  rw [SortedVector.count, Settled.find h, Option.bind_eq_bind, Option.bind_some]
  cases hkey : f key with
  | some x => simp [(h.rank_lt hkey).ne]
  | none => simp

theorem at? (key : K) : at? kot ⟨xs, false⟩ key = f key := by
  rw [SortedVector.at?, Settled.find h, Option.bind_eq_bind, Option.bind_some]
  cases hkey : f key with
  | some x => simpa using h.getElem?_rank hkey
  | none => simp

/-- The vector with an element of a new key. -/
theorem exists_insert {x : T} (hnone : f (kot.key x) = none) : ∃ xs',
    emplace kot ⟨xs, false⟩ x = some (⟨xs', false⟩, rank f (kot.key x), true) ∧
      emplaceOrAssign kot ⟨xs, false⟩ x = some (⟨xs', false⟩, rank f (kot.key x), true) ∧
      xs'[rank f (kot.key x)]? = some x ∧
      AscendingLists kot.key xs' (Function.update f (kot.key x) (some x)) := by
  simp only [SortedVector.emplace, SortedVector.emplaceOrAssign, Settled.lowerBound h,
    Option.bind_eq_bind, Option.bind_some]
  obtain ⟨before, after, rfl, hlen, hbefore, hafter⟩ := h.exists_split_of_none hnone
  have hlists := h.insert hnone hbefore hafter
  refine ⟨before ++ x :: after, ?_, ?_, by simp [← hlen], hlists⟩
  all_goals cases after with
  | nil => simp [← hlen]
  | cons y after =>
    have hne : keysEqual (kot.key y) (kot.key x) = false := by
      rw [Bool.eq_false_iff]
      exact fun heq => (hafter y (List.mem_cons_self ..)).ne' (keysEqual_iff.mp heq)
    simp [← hlen, hne, insertIdx_length]

theorem emplace (x : T) : ∃ xs' it,
    emplace kot ⟨xs, false⟩ x = some (⟨xs', false⟩, it, (f (kot.key x)).isNone) ∧
      xs'[it]? = some ((f (kot.key x)).getD x) ∧
      AscendingLists kot.key xs'
        (Function.update f (kot.key x) (some ((f (kot.key x)).getD x))) := by
  cases hkey : f (kot.key x) with
  | some y =>
    obtain ⟨hy, hyx⟩ := getElem?_of_some h hkey
    refine ⟨xs, rank f (kot.key x), ?_, hy, ?_⟩
    · simp [SortedVector.emplace, Settled.lowerBound h, hy, keysEqual_iff.mpr hyx]
    · rwa [Option.getD_some, ← hkey, Function.update_eq_self]
  | none =>
    obtain ⟨xs', hemplace, -, hget, hlists⟩ := exists_insert h hkey
    exact ⟨xs', _, hemplace, hget, hlists⟩

theorem emplaceOrAssign (x : T) : ∃ xs' it,
    emplaceOrAssign kot ⟨xs, false⟩ x = some (⟨xs', false⟩, it, (f (kot.key x)).isNone) ∧
      xs'[it]? = some x ∧
      AscendingLists kot.key xs' (Function.update f (kot.key x) (some x)) := by
  cases hkey : f (kot.key x) with
  | some y =>
    obtain ⟨hy, hyx⟩ := getElem?_of_some h hkey
    have hlt := h.rank_lt hkey
    refine ⟨xs.set (rank f (kot.key x)) x, rank f (kot.key x), ?_, by simp [hlt], ?_⟩
    · simp [SortedVector.emplaceOrAssign, Settled.lowerBound h, hy, keysEqual_iff.mpr hyx]
    · rw [← hyx]
      exact h.set (hyx ▸ hy) hyx.symm
  | none =>
    obtain ⟨xs', -, hassign, hget, hlists⟩ := exists_insert h hkey
    exact ⟨xs', _, hassign, hget, hlists⟩

theorem subscript (key : K) {w : T → T} (hw : ∀ x, kot.key (w x) = kot.key x) : ∃ xs',
    subscript kot ⟨xs, false⟩ key w =
        some (⟨xs', false⟩, some ((f key).getD (kot.fromKey key))) ∧
      AscendingLists kot.key xs'
        (Function.update f key (some (w ((f key).getD (kot.fromKey key))))) := by
  obtain ⟨xs', it, hemplace, hget, hlists⟩ := emplace h (kot.fromKey key)
  rw [kot.key_fromKey] at hemplace hget hlists
  refine ⟨xs'.modify it w, by simp [SortedVector.subscript, hemplace, hget], ?_⟩
  have hkey : kot.key ((f key).getD (kot.fromKey key)) = key :=
    hlists.lists.keyed key _ (Function.update_self _ _ _)
  have hmodify := hlists.modify hget (hw _)
  rwa [hkey, Function.update_idem] at hmodify

theorem eraseKey (key : K) : ∃ xs',
    eraseKey kot ⟨xs, false⟩ key = some (⟨xs', false⟩, if f key = none then 0 else 1) ∧
      AscendingLists kot.key xs' (Function.update f key none) := by
  rw [SortedVector.eraseKey, Settled.find h, Option.bind_eq_bind, Option.bind_some]
  cases hkey : f key with
  | none =>
    refine ⟨xs, by simp, ?_⟩
    rwa [← hkey, Function.update_eq_self]
  | some x =>
    have hlt := h.rank_lt hkey
    obtain ⟨before, after, rfl, hlen, -, -⟩ := h.exists_split_of_some hkey
    have hx : kot.key x = key := h.lists.keyed key x hkey
    refine ⟨before ++ after, ?_, hx ▸ h.erase⟩
    simp [erasePosition, elements, ← hlen, List.eraseIdx_append_of_length_le]

theorem erasePosition (pos : Nat) : erasePosition ⟨xs, false⟩ pos =
    if pos < card f then some ⟨xs.eraseIdx pos, false⟩ else none := by
  rw [← h.length_eq]
  rfl

theorem eraseRange (first last : Nat) : eraseRange ⟨xs, false⟩ first last =
    if first ≤ last ∧ last ≤ card f then some ⟨xs.take first ++ xs.drop last, false⟩
    else none := by
  rw [← h.length_eq]
  rfl

theorem lists_eraseIdx (pos : Nat) :
    AscendingLists kot.key (xs.eraseIdx pos) fun k => if pos = rank f k then none else f k := by
  have hrange := h.eraseRange (Nat.le_add_right pos 1)
  rw [← List.eraseIdx_eq_take_drop_succ] at hrange
  simpa only [Nat.lt_succ_iff, ← le_antisymm_iff] using hrange

theorem countP_eq (callable : T → Bool) :
    xs.countP callable = card fun k => (f k).filter callable := by
  rw [List.countP_eq_length_filter, (h.filter callable).length_eq]

end Settled

/-! ## The commit of a batch -/

theorem mergeSort_eq (xs : List T) :
    (xs.mergeSort fun l r => !kot.compareElements r l) = xs.mergeSort (keyLE kot.key) := by
  congr 1
  funext l r
  rw [KeyedObject.compareElements, keyLE, decide_not]

theorem sort_unique (xs : List T) : sort kot move ⟨xs, false⟩ true =
    if (xs.map kot.key).Nodup then some ⟨xs.mergeSort (keyLE kot.key), false⟩ else none := by
  have hiff : adjacentFind kot.elementsEqual (xs.mergeSort (keyLE kot.key)) =
      (xs.mergeSort (keyLE kot.key)).length ↔ (xs.map kot.key).Nodup := by
    rw [adjacentFind_eq_length_iff (keySorted_mergeSort xs)]
    exact ((List.mergeSort_perm xs _).map kot.key).nodup_iff
  simp only [sort, elements, mergeSort_eq, Option.bind_eq_bind, Option.bind_some,
    Bool.false_eq_true, if_false, if_true, hiff]
  rfl

theorem sort_last (hself : ∀ x, move.selfMoved x = x) (xs : List T) :
    sort kot move ⟨xs, false⟩ false =
      some ⟨keepLast kot.key (xs.mergeSort (keyLE kot.key)), false⟩ := by
  rw [← uniqueLast_take hself, ← mergeSort_eq]
  rfl

theorem lists_sorted {xs : List T} (h : (xs.map kot.key).Nodup) :
    AscendingLists kot.key (xs.mergeSort (keyLE kot.key)) (lastValue kot.key xs) := by
  have hperm := List.mergeSort_perm xs (keyLE kot.key)
  refine ⟨(keySorted_mergeSort xs).ascending ?_, (lists_lastValue h).perm hperm.symm⟩
  exact (hperm.map kot.key).nodup_iff.mpr h

theorem lists_last (xs : List T) :
    AscendingLists kot.key (keepLast kot.key (xs.mergeSort (keyLE kot.key)))
      (lastValue kot.key xs) :=
  ⟨ascending_keepLast (keySorted_mergeSort xs), lists_keepLast_mergeSort xs⟩

variable {old new : List T}

theorem foldl_assign_eq (h : AscendingLists kot.key old f) (new : List T) :
    new.foldl (fun f x => Function.update f (kot.key x) (some x)) f =
      lastValue kot.key (old ++ new) := by
  rw [foldl_assign]
  funext k
  rw [lastValue_append, lastValue_of_lists h.lists]

/-- The keys of the batch are all different, and none is in the map. -/
theorem nodup_append_iff (h : AscendingLists kot.key old f) :
    ((old ++ new).map kot.key).Nodup ↔
      (new.map kot.key).Nodup ∧ ∀ x ∈ new, f (kot.key x) = none := by
  have hnone (x : T) : f (kot.key x) = none ↔ ∀ y ∈ old, kot.key y ≠ kot.key x :=
    h.lists.eq_none_iff
  rw [List.map_append, List.nodup_append]
  simp only [h.lists.nodup, true_and, List.forall_mem_map, hnone]
  exact and_congr_right fun _ => forall₂_comm

/-- Only a commit of a batch that may assign moves an element to itself. -/
theorem commit_refines (h : AscendingLists kot.key old f) (new : List T) (ensureUnique : Bool)
    (hself : ensureUnique = false → ∀ x, move.selfMoved x = x) :
    Option.Rel (fun p q => Represents kot p.1 q.1 ∧ p.2 = q.2)
      (apply move ⟨old ++ new, true⟩ (.commit ensureUnique : Operation kot))
      (Contents.apply ⟨f, some new⟩ (.commit ensureUnique : Operation kot)) := by
  simp only [Contents.apply, ← nodup_append_iff h, foldl_assign_eq h]
  cases ensureUnique with
  | true =>
    have hcommit : commit kot move ⟨old ++ new, true⟩ true = _ := sort_unique move (old ++ new)
    simp only [apply, hcommit]
    by_cases hnodup : ((old ++ new).map kot.key).Nodup
    · simp only [hnodup, not_true, and_false, if_false]
      exact .some ⟨represents_settled (lists_sorted hnodup), rfl⟩
    · simp only [hnodup, not_false_eq_true, and_true, if_true]
      exact .none
  | false =>
    have hcommit : commit kot move ⟨old ++ new, true⟩ false = _ :=
      sort_last move (hself rfl) (old ++ new)
    simp only [apply, hcommit, Bool.false_eq_true, false_and, if_false]
    exact .some ⟨represents_settled (lists_last (old ++ new)), rfl⟩

/-- An operation is one on the contents. -/
theorem apply_refines (h : Represents kot v c) (op : Operation kot)
    (hself : op = .commit false → ∀ x, move.selfMoved x = x) :
    Option.Rel (fun p q => Represents kot p.1 q.1 ∧ p.2 = q.2) (v.apply move op) (c.apply op) := by
  rcases h.cases with ⟨f, xs, rfl, rfl, hlists⟩ | ⟨f, new, old, rfl, rfl, hlists⟩
  · cases op with
    | emplace x =>
      obtain ⟨xs', it, hemplace, hget, hlists'⟩ := Settled.emplace hlists x
      simp only [apply, hemplace]
      exact .some ⟨represents_settled hlists', congrArg (Response.inserted · _) hget⟩
    | emplaceOrAssign x =>
      obtain ⟨xs', it, hemplace, hget, hlists'⟩ := Settled.emplaceOrAssign hlists x
      simp only [apply, hemplace]
      exact .some ⟨represents_settled hlists', congrArg (Response.inserted · _) hget⟩
    | subscript key w hw =>
      obtain ⟨xs', hsubscript, hlists'⟩ := Settled.subscript hlists key hw
      simp only [apply, hsubscript]
      exact .some ⟨represents_settled hlists', rfl⟩
    | erasePosition pos =>
      simp only [apply, Settled.erasePosition hlists, Contents.apply, Contents.settled,
        Option.isSome_none, Bool.false_eq_true, if_false, Option.bind_eq_bind, Option.bind_some]
      by_cases hpos : pos < card f
      · simp only [if_pos hpos]
        exact .some ⟨represents_settled (Settled.lists_eraseIdx hlists pos), rfl⟩
      · simp only [if_neg hpos]
        exact .none
    | eraseRange first last =>
      simp only [apply, Settled.eraseRange hlists, Contents.apply, Contents.settled,
        Option.isSome_none, Bool.false_eq_true, if_false, Option.bind_eq_bind, Option.bind_some]
      by_cases hrange : first ≤ last ∧ last ≤ card f
      · simp only [if_pos hrange]
        exact .some ⟨represents_settled (hlists.eraseRange hrange.1), rfl⟩
      · simp only [if_neg hrange]
        exact .none
    | eraseKey key =>
      obtain ⟨xs', herase, hlists'⟩ := Settled.eraseKey hlists key
      simp only [apply, herase]
      exact .some ⟨represents_settled hlists', rfl⟩
    | eraseIf callable =>
      refine .some ⟨represents_settled (hlists.filter _), ?_⟩
      exact congrArg Response.count (Settled.countP_eq hlists callable)
    | clear => exact .some ⟨represents_settled (.nil kot.key), rfl⟩
    | startBatch => exact .some ⟨⟨rfl, xs, (List.append_nil xs).symm, hlists⟩, rfl⟩
    | emplaceImpl x => exact .none
    | commit ensureUnique => exact .some ⟨represents_settled hlists, rfl⟩
  · cases op with
    | emplaceImpl x => exact .some ⟨⟨rfl, old, List.append_assoc old new [x], hlists⟩, rfl⟩
    | commit ensureUnique =>
      exact commit_refines move hlists new ensureUnique fun hassigns => hself (by rw [hassigns])
    | _ => exact .none

/-! ## Runs -/

/-- The operations on the vectors of a program. -/
inductive StoreOperation (kot : KeyedObject K T) (ι : Type) where
  | on (i : ι) (op : Operation kot)
  | swap (i j : ι)

variable [DecidableEq ι]

def step (s : ι → SortedVector T) :
    StoreOperation kot ι → Option ((ι → SortedVector T) × Response T)
  | .on i op => do
      let (v, response) ← (s i).apply move op
      return (Function.update s i v, response)
  | .swap i j => do
      let (v, w) ← (s i).swap (s j)
      return (Function.update (Function.update s i v) j w, .done)

def run (s : ι → SortedVector T) :
    List (StoreOperation kot ι) → Option ((ι → SortedVector T) × List (Response T))
  | [] => some (s, [])
  | op :: ops => do
      let (s, response) ← step move s op
      let (s, responses) ← run s ops
      return (s, response :: responses)

noncomputable def Contents.step (s : ι → Contents K T) :
    StoreOperation kot ι → Option ((ι → Contents K T) × Response T)
  | .on i op => do
      let (c, response) ← (s i).apply op
      return (Function.update s i c, response)
  | .swap i j => do
      let f ← (s i).settled
      let g ← (s j).settled
      return (Function.update (Function.update s i ⟨g, none⟩) j ⟨f, none⟩, .done)

noncomputable def Contents.run (s : ι → Contents K T) :
    List (StoreOperation kot ι) → Option ((ι → Contents K T) × List (Response T))
  | [] => some (s, [])
  | op :: ops => do
      let (s, response) ← Contents.step s op
      let (s, responses) ← Contents.run s ops
      return (s, response :: responses)

/-- No vector is swapped with one whose batch is in progress. -/
def SwapsSettled (s : ι → SortedVector T) : StoreOperation kot ι → Prop
  | .on _ _ => True
  | .swap _ j => (s j).batchInsertInProgress = false

def AllSwapSettled (s : ι → SortedVector T) : List (StoreOperation kot ι) → Prop
  | [] => True
  | op :: ops => SwapsSettled s op ∧
      ∀ s' response, step move s op = some (s', response) → AllSwapSettled s' ops

/-- The vector is strictly sorted, and the lookups and the iteration are those of the map. -/
structure Agrees (kot : KeyedObject K T) (xs : List T) (f : K → Option T) : Prop where
  sorted : Ascending kot.key xs
  elements : Lists kot.key xs f
  size : size ⟨xs, false⟩ = some (card f)
  at? : ∀ key, at? kot ⟨xs, false⟩ key = f key
  count : ∀ key, count kot ⟨xs, false⟩ key = some (if f key = none then 0 else 1)
  find : ∀ key, find kot ⟨xs, false⟩ key = some (if f key = none then card f else rank f key)
  lowerBound : ∀ key, lowerBound kot ⟨xs, false⟩ key = some (rank f key)
  upperBound : ∀ key, upperBound kot ⟨xs, false⟩ key =
    some (if f key = none then rank f key else rank f key + 1)

theorem agrees (h : AscendingLists kot.key xs f) : Agrees kot xs f where
  sorted := h.sorted
  elements := h.lists
  size := congrArg some h.length_eq
  at? := Settled.at? h
  count := Settled.count h
  find := h.length_eq ▸ Settled.find h
  lowerBound := Settled.lowerBound h
  upperBound := Settled.upperBound h

section

variable {s : ι → SortedVector T} {s' : ι → Contents K T}

theorem rel_bind {α β γ δ : Type} {R : α → β → Prop} {S : γ → δ → Prop} {x : Option α}
    {y : Option β} {g : α → Option γ} {g' : β → Option δ} (h : Option.Rel R x y)
    (hg : ∀ a b, x = some a → R a b → Option.Rel S (g a) (g' b)) :
    Option.Rel S (x >>= g) (y >>= g') := by
  cases h with
  | some hab => exact hg _ _ rfl hab
  | none => exact .none

theorem rel_mono {α β : Type} {R S : α → β → Prop} {x : Option α} {y : Option β}
    (h : Option.Rel R x y) (hS : ∀ a b, R a b → S a b) : Option.Rel S x y := by
  cases h with
  | some hab => exact .some (hS _ _ hab)
  | none => exact .none

theorem represents_update (h : ∀ i, Represents kot (s i) (s' i)) {i : ι}
    (hi : Represents kot v c) (j : ι) :
    Represents kot (Function.update s i v j) (Function.update s' i c j) := by
  rw [Function.update_apply, Function.update_apply]
  split
  next => exact hi
  next => exact h j

/-- A step is one of the contents. -/
theorem step_refines (h : ∀ i, Represents kot (s i) (s' i)) {op : StoreOperation kot ι}
    (hself : ∀ i, op = .on i (.commit false) → ∀ x, move.selfMoved x = x)
    (hsettled : SwapsSettled s op) :
    Option.Rel (fun p q => (∀ i, Represents kot (p.1 i) (q.1 i)) ∧ p.2 = q.2) (step move s op)
      (Contents.step s' op) := by
  cases op with
  | on i op =>
    have happly := apply_refines move (h i) op fun hop => hself i (by rw [hop])
    refine rel_bind happly fun p q _ ⟨hrep, hanswer⟩ => ?_
    exact .some ⟨represents_update h hrep, hanswer⟩
  | swap i j =>
    rw [SwapsSettled] at hsettled
    obtain ⟨g, ys, hcj, hvj, hys⟩ | ⟨g, new, old, hcj, hvj, -⟩ := (h j).cases
    · obtain ⟨f, xs, hci, hvi, hxs⟩ | ⟨f, new, old, hci, hvi, -⟩ := (h i).cases
      · simp only [step, Contents.step, hvi, hvj, hci, hcj]
        refine .some ⟨fun k => ?_, rfl⟩
        exact represents_update (fun k => represents_update h (represents_settled hys) k)
          (represents_settled hxs) k
      · simp only [step, Contents.step, hvi, hci]
        exact .none
    · rw [hvj] at hsettled
      cases hsettled

/-- A run of the vectors aborts when the run of their contents does, and has its answers. -/
theorem run_rel (h : ∀ i, Represents kot (s i) (s' i)) {ops : List (StoreOperation kot ι)}
    (hself : ∀ i, .on i (.commit false) ∈ ops → ∀ x, move.selfMoved x = x)
    (hsettled : AllSwapSettled move s ops) :
    Option.Rel (fun p q => (∀ i, Represents kot (p.1 i) (q.1 i)) ∧ p.2 = q.2) (run move s ops)
      (Contents.run s' ops) := by
  induction ops generalizing s s' with
  | nil => exact .some ⟨h, rfl⟩
  | cons op ops ih =>
    have hstep := step_refines move h (fun i hop => hself i (hop ▸ List.mem_cons_self)) hsettled.1
    refine rel_bind hstep fun p q hp ⟨hrep, hanswer⟩ => ?_
    have hrun := ih hrep (fun i hop => hself i (List.mem_cons_of_mem _ hop))
      (hsettled.2 p.1 p.2 hp)
    refine rel_bind hrun fun p' q' _ ⟨hrep', hanswers⟩ => ?_
    exact .some ⟨hrep', congrArg₂ List.cons hanswer hanswers⟩

end

theorem represents_empty : Represents kot empty Contents.empty :=
  represents_settled (.nil kot.key)

/-- Outside of a batch a vector agrees with its map. -/
theorem Represents.agrees (h : Represents kot v c) (hc : c.batch = none) :
    v.batchInsertInProgress = false ∧ Agrees kot v.theVector c.values := by
  rcases h.cases with ⟨f, xs, rfl, rfl, hlists⟩ | ⟨f, new, old, rfl, rfl, -⟩
  · exact ⟨rfl, SortedVector.agrees hlists⟩
  · cases hc

/-- From empty vectors, a run aborts when the run of the finite maps does.  Otherwise it gives
the same answers, and every vector outside of a batch agrees with its map.  How an element is
moved to itself only matters to a run that commits a batch insert or assign. -/
theorem run_refines (ops : List (StoreOperation kot ι))
    (hself : ∀ i, .on i (.commit false) ∈ ops → ∀ x, move.selfMoved x = x)
    (hsettled : AllSwapSettled move (fun _ => empty) ops) :
    Option.Rel
      (fun p q => p.2 = q.2 ∧ ∀ i, (q.1 i).batch = none →
        (p.1 i).batchInsertInProgress = false ∧ Agrees kot (p.1 i).theVector (q.1 i).values)
      (run move (fun _ => empty) ops) (Contents.run (fun _ => Contents.empty) ops) := by
  have hrun := run_rel move (fun _ => represents_empty) hself hsettled
  exact rel_mono hrun fun p q ⟨hrep, hanswers⟩ => ⟨hanswers, fun i hi => (hrep i).agrees hi⟩

def pairs : KeyedObject Nat (Nat × Nat) := ⟨Prod.fst, fun k => (k, 0), fun _ => rfl⟩

def keepMoved : MoveAssignment (Nat × Nat) := ⟨id, id⟩

theorem run_refines_pairs :
    let ops : List (StoreOperation pairs Bool) :=
      [.on true (.emplace (1, 10)), .swap false true, .on false .startBatch,
        .on false (.emplaceImpl (1, 20)), .on false (.commit false)]
    Option.Rel
      (fun p q => p.2 = q.2 ∧ ∀ i, (q.1 i).batch = none →
        (p.1 i).batchInsertInProgress = false ∧ Agrees pairs (p.1 i).theVector (q.1 i).values)
      (run keepMoved (fun _ => empty) ops) (Contents.run (fun _ => Contents.empty) ops) := by
  refine run_refines keepMoved _ (fun _ _ _ => rfl) ?_
  refine ⟨trivial, fun s response h => ⟨?_, fun s response _ => ⟨trivial, fun s response _ =>
    ⟨trivial, fun s response _ => ⟨trivial, fun s response _ => trivial⟩⟩⟩⟩⟩
  cases h
  rfl

/-- A batch insert with a key twice aborts at its commit. -/
theorem not_batchInsert_first :
    ¬∀ xs : List (Nat × Nat), ∃ p,
      run keepMoved (fun _ => empty) (.on () .startBatch ::
          xs.map (fun x => .on () (.emplaceImpl x)) ++ [.on () (.commit true)] :
          List (StoreOperation pairs Unit)) = some p ∧
        ∀ k, at? pairs (p.1 ()) k = xs.find? (·.1 = k) := by
  intro h
  obtain ⟨p, hrun, -⟩ := h [(1, 10), (1, 20)]
  have hcommit : commit pairs keepMoved ⟨[(1, 10), (1, 20)], true⟩ true = none :=
    (sort_unique keepMoved _).trans (if_neg (by decide))
  simp [run, step, apply, startBatch, elements, emplaceImpl, empty, hcommit] at hrun

end ADT.SortedVector
