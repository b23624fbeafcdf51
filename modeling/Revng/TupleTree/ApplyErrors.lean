import Revng.TupleTree.Place

/-!
# What a failed application leaves

`apply` goes on after an error and takes nothing back, so a diff with an error still
changes the tree.  What it gives up is the single change: most checks come before the
mutation that they guard, and the tree is the one that the changes without a reason
lead to (`apply_unreported`).  Three checks come after it (`CheckedLate`): an element
that is added in place of another one, elements of one key that are all removed, and a
pointer that is emptied.
-/

namespace TupleTree

open SortedMerge

variable {S : Type}

/-! ## The nodes of a set -/

mutual

/-- Every set of the tree has one node for each element. -/
def Tree.Sized : Tree S → Prop
  | .scalar _ => True
  | .struct fields => Tree.AllSized fields
  | .null => True
  | .object _ fields => Tree.AllSized fields
  | .sortedVector elements => Tree.AllSized elements
  | .mutableSet nodes elements => nodes.length = elements.length ∧ Tree.AllSized elements

def Tree.AllSized : List (Tree S) → Prop
  | [] => True
  | t :: ts => t.Sized ∧ Tree.AllSized ts

end

theorem Tree.allSized_iff {ts : List (Tree S)} : Tree.AllSized ts ↔ ∀ t ∈ ts, t.Sized := by
  induction ts with
  | nil => simp [Tree.AllSized]
  | cons t ts ih => simp [Tree.AllSized, ih]

variable {t : Tree S}

variable {x : Tree S}

theorem Tree.Sized.elements (ht : t.Sized) (hx : x ∈ t.elements) : x.Sized := by
  cases t with
  | sortedVector xs => exact Tree.allSized_iff.mp ht x hx
  | mutableSet nodes xs => exact Tree.allSized_iff.mp ht.2 x hx
  | scalar | struct | null | object => simp [Tree.elements] at hx

theorem Tree.AllSized.set {ts : List (Tree S)} (h : Tree.AllSized ts) {y : Tree S} (hy : y.Sized)
    (i : Nat) : Tree.AllSized (ts.set i y) := by
  rw [Tree.allSized_iff] at h ⊢
  intro t ht
  rcases List.mem_or_eq_of_mem_set ht with ht | rfl
  · exact h t ht
  · exact hy

theorem Tree.Sized.setElement {y : Tree S} (ht : t.Sized) (hy : y.Sized) (i : Nat) :
    (t.setElement i y).Sized := by
  cases t with
  | sortedVector xs => exact Tree.AllSized.set ht hy i
  | mutableSet nodes xs =>
    exact ⟨by simpa using ht.1, Tree.AllSized.set ht.2 hy i⟩
  | scalar | struct | null | object => exact ht

/-- The sides of the change are values of the tree's types. -/
def Change.Sized (c : Change S) : Prop :=
  (∀ x ∈ c.old, x.Sized) ∧ ∀ x ∈ c.new, x.Sized

variable [LinearOrder S] [Inhabited S]

variable {s : Schema S}

theorem replaceAt_sized {y : Tree S} (hy : y.Sized) {path : Path S} (ht : t.Sized) :
    (replaceAt y path s t).Sized := by
  fun_induction replaceAt y path s t with
  | case1 => exact hy
  | case2 i rest key fields ts f x hx hf ih =>
    have hfields : Tree.AllSized ts := ht
    exact hfields.set (ih (Tree.allSized_iff.mp hfields x (List.mem_of_getElem? hx))) i
  | case4 l i rest key kindField alternatives k ts f x hx hf ih =>
    have hfields : Tree.AllSized ts := ht
    exact hfields.set (ih (Tree.allSized_iff.mp hfields x (List.mem_of_getElem? hx))) i
  | case6 key rest kind element t i hi x hx ih =>
    exact ht.setElement (ih (ht.elements (List.mem_of_getElem? hx))) i
  | case3 | case5 | case7 | case8 | case9 => exact ht

theorem place_sized {path : Path S} {f : Schema S} (ht : t.Sized)
    (h : place path s t = some (f, x)) : x.Sized := by
  fun_induction place path s t with
  | case1 s t => simp_all
  | case2 i rest key fields ts f' x' hx hf ih =>
    exact ih (Tree.allSized_iff.mp ht x' (List.mem_of_getElem? hx)) h
  | case4 l i rest key kindField alternatives k ts f' x' hx hf ih =>
    exact ih (Tree.allSized_iff.mp ht x' (List.mem_of_getElem? hx)) h
  | case6 key rest kind element t i hi x' hx ih =>
    exact ih (ht.elements (List.mem_of_getElem? hx)) h
  | case3 | case5 | case7 | case8 | case9 => simp at h

variable {key : List S}

omit [Inhabited S] in
theorem insertNode_sized (hx : x.Sized) {nodes : List (List S)} {xs : List (Tree S)}
    (h : (Tree.mutableSet nodes xs).Sized) :
    (Tree.mutableSet (insertNode key x nodes xs).1 (insertNode key x nodes xs).2).Sized := by
  fun_induction insertNode key x nodes xs with
  | case1 node nodes y ys hlt rest ih =>
    obtain ⟨hlen, hy, hys⟩ := h
    obtain ⟨hlen', hall⟩ := ih ⟨by simpa using hlen, hys⟩
    exact ⟨by simpa using hlen', hy, hall⟩
  | case2 node nodes y ys hnot hlt => exact ⟨by simpa using h.1, hx, h.2⟩
  | case3 node nodes y ys hnot hnot' => exact ⟨h.1, hx, h.2.2⟩
  | case4 => exact ⟨rfl, hx, trivial⟩

variable {keyOf : Tree S → List S}

omit [Inhabited S] in
theorem insertOrAssign_sized (hx : x.Sized) (ht : t.Sized) : (t.insertOrAssign keyOf x).Sized := by
  cases t with
  | sortedVector xs =>
    have hxs := Tree.allSized_iff.mp ht
    refine Tree.allSized_iff.mpr fun y hy => ?_
    rcases mem_insertOrAssign hy with rfl | hy
    · exact hx
    · exact hxs y hy
  | mutableSet nodes xs => exact insertNode_sized hx ht
  | scalar | struct | null | object => exact ht

omit [Inhabited S] in
theorem removeKey_sized (ht : t.Sized) : (t.removeKey keyOf key).Sized := by
  have hfilter : ∀ {xs : List (Tree S)}, Tree.AllSized xs →
      Tree.AllSized (xs.filter (keyOf · ≠ key)) := fun h =>
    Tree.allSized_iff.mpr fun y hy => Tree.allSized_iff.mp h y (List.mem_of_mem_filter hy)
  cases t with
  | sortedVector xs => exact hfilter ht
  | mutableSet nodes xs =>
    have hle := List.length_filter_le (fun y => decide (keyOf y ≠ key)) xs
    exact ⟨by simp only [List.length_take]; have := ht.1; omega, hfilter ht.2⟩
  | scalar | struct | null | object => exact ht

theorem visit_sized {old new : Option (Tree S)} (hnew : ∀ x ∈ new, x.Sized) {f : Schema S}
    (ht : t.Sized) : (visit old new f t).1.Sized := by
  have hleaf : ∀ isPointer, (visitLeaf isPointer old new t).1.Sized := by
    intro isPointer
    rcases visitLeaf_cases isPointer old new t with
      ⟨_, h⟩ | ⟨-, ⟨x, hx, h⟩ | ⟨-, -, h⟩⟩ <;> rw [h]
    · exact ht
    · exact hnew x hx
    · trivial
  cases f with
  | container kind element =>
    simp only [visit, visitContainer]
    split
    · exact ht
    · exact ht
    · exact removeKey_sized ht
    · exact insertOrAssign_sized (hnew _ rfl) ht
  | scalar | struct | pointer => exact hleaf _

/-! ## One change -/

/-- The check that reports the change comes after the mutation. -/
def LateAt (old new : Option (Tree S)) (f : Schema S) (x : Tree S) : Prop :=
  match f with
  | .container _ element =>
      match old, new with
      -- the element takes the place of another one
      | none, some y => x.find element.keyOf (element.keyOf y) ≠ none
      -- more than one element goes
      | some y, none => 1 < (x.elements.filter (element.keyOf · = element.keyOf y)).length
      | _, _ => False
  -- `callOnPathSteps` takes a pointer that has been emptied for a missing path
  | .pointer .. => old = some x ∧ x ≠ .null ∧ (new = none ∨ new = some .null)
  | _ => False

def Change.CheckedLate (s : Schema S) (c : Change S) (t : Tree S) : Prop :=
  ∃ f x, place c.path s t = some (f, x) ∧ LateAt c.old c.new f x

omit [Inhabited S] in
/-- The element of an absent key is added. -/
theorem length_insertNode {nodes : List (List S)} {xs : List (Tree S)}
    (hlen : nodes.length = xs.length) (h : key ∉ nodes) :
    (insertNode key x nodes xs).2.length = xs.length + 1 := by
  fun_induction insertNode key x nodes xs with
  | case1 node nodes y ys hlt rest ih =>
    simpa using ih (by simpa using hlen) fun hmem => h (by simp [hmem])
  | case2 node nodes y ys hnot hlt => rfl
  | case3 node nodes y ys hnot hnot' =>
    exact absurd (le_antisymm (not_lt.mp hnot) (not_lt.mp hnot')) fun heq => h (by simp [heq])
  | case4 nodes xs hnil =>
    cases xs with
    | nil => rfl
    | cons y ys =>
      cases nodes with
      | nil => simp at hlen
      | cons node nodes => exact (hnil node nodes y ys rfl rfl).elim

omit [Inhabited S] in
/-- A container gets a new element. -/
theorem insertOrAssign_of_find (ht : t.Sized) (hfind : t.find keyOf (keyOf x) = none) :
    t.elements.length + 1 = (t.insertOrAssign keyOf x).elements.length ∨
      t.insertOrAssign keyOf x = t := by
  cases t with
  | sortedVector xs =>
    have hkey : ∀ y ∈ xs, keyOf y ≠ keyOf x := by simpa [Tree.find] using hfind
    exact Or.inl (length_insertOrAssign hkey).symm
  | mutableSet nodes xs =>
    have hkey : ∀ node ∈ nodes, node ≠ keyOf x := by simpa [Tree.find] using hfind
    exact Or.inl (length_insertNode ht.1 fun hmem => hkey _ hmem rfl).symm
  | scalar | struct | null | object => exact Or.inr rfl

omit [Inhabited S] in
/-- A container loses the only element of a key, or stays as it is. -/
theorem removeKey_of_filter (ht : t.Sized) (h : (t.elements.filter (keyOf · = key)).length ≤ 1) :
    (t.removeKey keyOf key).elements.length + 1 = t.elements.length ∨
      t.removeKey keyOf key = t := by
  have hsplit : ∀ xs : List (Tree S), (xs.filter (keyOf · = key)).length ≤ 1 →
      (xs.filter (keyOf · ≠ key)).length + 1 = xs.length ∨ xs.filter (keyOf · ≠ key) = xs := by
    intro xs hxs
    have hsum := List.length_eq_length_filter_add (l := xs) (keyOf · = key)
    simp only [← decide_not] at hsum
    rcases Nat.le_one_iff_eq_zero_or_eq_one.mp hxs with hzero | hone
    · right
      refine List.filter_eq_self.mpr fun y hy => ?_
      have hnot := List.filter_eq_nil_iff.mp (List.length_eq_zero_iff.mp hzero) y hy
      simpa using hnot
    · left
      simp only [ne_eq]
      omega
  cases t with
  | sortedVector xs => exact (hsplit xs h).imp_right (congrArg Tree.sortedVector)
  | mutableSet nodes xs =>
    refine (hsplit xs h).imp_right fun heq => ?_
    simp only [Tree.removeKey, heq, ← ht.1, List.take_length]
  | scalar | struct | null | object => exact Or.inr rfl

/-- A change that is reported leaves its place alone, unless the check comes late. -/
theorem visitPlace_of_reported {old new : Option (Tree S)} {f : Schema S} (hx : x.Sized)
    (hlate : ¬ LateAt old new f x) (h : (visitPlace old new f x).2 ≠ (none, true)) :
    (visitPlace old new f x).1 = x := by
  cases f with
  | container kind element =>
    simp only [visitPlace, visit, Schema.isPointer, Bool.false_and, Bool.not_false] at h ⊢
    cases old with
    | none =>
      cases new with
      | none => rfl
      | some y =>
        simp only [LateAt, not_not] at hlate
        rcases insertOrAssign_of_find hx hlate with hlen | heq
        · simp [visitContainer, hlen] at h
        · exact heq
    | some y =>
      cases new with
      | some z => rfl
      | none =>
        simp only [LateAt, not_lt] at hlate
        rcases removeKey_of_filter hx hlate with hlen | heq
        · simp [visitContainer, hlen] at h
        · exact heq
  | pointer key kindField alternatives =>
    have hnull : (old = some x ∨ true = true ∧ old = none ∧ x = .null) →
        (new = none ∨ new = some .null) → x = .null := by
      rintro (rfl | ⟨-, -, hx⟩) hnew
      · by_contra hne
        exact hlate ⟨rfl, hne, hnew⟩
      · exact hx
    rcases visitLeaf_cases true old new x with
      ⟨failure, hvisit⟩ | ⟨hold, ⟨y, rfl, hvisit⟩ | ⟨-, rfl, hvisit⟩⟩
    · simp [visitPlace, visit, hvisit]
    · have hy : y = .null := by simpa [visitPlace, visit, hvisit, Schema.isPointer] using h
      simp only [visitPlace, visit, hvisit]
      exact hy.trans (hnull hold (Or.inr (congrArg some hy))).symm
    · simp only [visitPlace, visit, hvisit]
      exact (hnull hold (Or.inl rfl)).symm
  | scalar | struct =>
    rcases visitLeaf_cases false old new x with
      ⟨failure, hvisit⟩ | ⟨-, ⟨y, hy, hvisit⟩ | ⟨hfalse, -⟩⟩
    · simp [visitPlace, visit, hvisit]
    · simp [visitPlace, visit, hvisit, Schema.isPointer] at h
    · cases hfalse

variable {index : Nat} {c : Change S}

/-- A change that is reported leaves the tree alone, unless the check comes late. -/
theorem applyChange_of_reported (ht : t.Sized) (hlate : ¬ c.CheckedLate s t)
    (h : (applyChange s index c t).2 ≠ []) : (applyChange s index c t).1 = t := by
  by_cases hpath : c.path = []
  · simp [applyChange, hpath]
  · cases hplace : place c.path s t with
    | none => rw [applyChange_of_place_none hpath hplace]
    | some found =>
      obtain ⟨f, x⟩ := found
      rw [applyChange_of_place hpath hplace] at h ⊢
      rw [visitPlace_of_reported (place_sized ht hplace) (fun hl => hlate ⟨f, x, hplace, hl⟩)
        fun hok => h (Change.reasons_eq_nil_iff.mpr hok)]
      exact replaceAt_place hplace

theorem applyChange_sized (ht : t.Sized) (hc : c.Sized) : (applyChange s index c t).1.Sized := by
  by_cases hpath : c.path = []
  · simpa [applyChange, hpath] using ht
  · cases hplace : place c.path s t with
    | none => rwa [applyChange_of_place_none hpath hplace]
    | some found =>
      obtain ⟨f, x⟩ := found
      rw [applyChange_of_place hpath hplace]
      exact replaceAt_sized (visit_sized hc.2 (place_sized ht hplace)) ht

/-- Every reason names its change. -/
theorem index_of_mem_applyChange {r : Reason S} (h : r ∈ (applyChange s index c t).2) :
    r.index = index := by
  by_cases hpath : c.path = []
  · simp only [applyChange, hpath, if_true, List.mem_singleton] at h
    rw [h]
  · rw [applyChange_of_path hpath, Change.reasons, List.mem_append] at h
    rcases h with h | h
    · obtain ⟨failure, -, rfl⟩ := List.mem_map.mp h
      rfl
    · split at h
      · simp at h
      · rw [List.mem_singleton.mp h]

/-- Whether a change is reported does not depend on where it stands in the diff. -/
theorem applyChange_index (h : (applyChange s index c t).2 = []) (other : Nat) :
    applyChange s other c t = ((applyChange s index c t).1, []) := by
  by_cases hpath : c.path = []
  · simp [applyChange, hpath] at h
  · rw [applyChange_of_path hpath] at h ⊢
    rw [applyChange_of_path hpath, Change.reasons_eq_nil_iff.mpr (Change.reasons_eq_nil_iff.mp h)]

/-! ## The whole diff -/

/-- The changes of a diff that starts at an index, without those that are named. -/
def unnamed (reasons : List (Reason S)) (index : Nat) (changes : List (Change S)) :
    List (Change S) :=
  ((changes.zipIdx index).filter fun c => ∀ r ∈ reasons, r.index ≠ c.2).map Prod.fst

/-- The changes that `apply` gives no reason for. -/
def unreported (s : Schema S) (changes : List (Change S)) (t : Tree S) : List (Change S) :=
  unnamed (apply s changes t).2 0 changes

theorem le_index_of_mem_applyFrom {r : Reason S} :
    ∀ {changes : List (Change S)} {index : Nat} {t : Tree S},
      r ∈ (applyFrom s index changes t).2 → index ≤ r.index := by
  intro changes
  induction changes with
  | nil => simp [applyFrom]
  | cons c cs ih =>
    intro index t h
    rcases List.mem_append.mp h with h | h
    · exact (index_of_mem_applyChange h).ge
    · exact Nat.le_of_succ_le (ih h)

omit [LinearOrder S] [Inhabited S] in
/-- Reasons of changes in front do not matter. -/
theorem unnamed_append {before after : List (Reason S)} {changes : List (Change S)}
    (h : ∀ r ∈ before, r.index < index) :
    unnamed (before ++ after) index changes = unnamed after index changes := by
  unfold unnamed
  congr 1
  refine List.filter_congr fun c hc => ?_
  have hle : index ≤ c.2 := List.le_snd_of_mem_zipIdx hc
  have hbefore : ∀ r ∈ before, r.index ≠ c.2 := fun r hr => ((h r hr).trans_le hle).ne
  simp only [List.mem_append, or_imp, forall_and, decide_eq_decide]
  exact and_iff_right hbefore

/-- The first change is kept when it has no reason. -/
theorem unnamed_cons (s : Schema S) (index : Nat) (c : Change S) (cs : List (Change S))
    (t : Tree S) :
    unnamed (applyFrom s index (c :: cs) t).2 index (c :: cs) =
      (if (applyChange s index c t).2 = [] then [c] else []) ++
        unnamed (applyFrom s (index + 1) cs (applyChange s index c t).1).2 (index + 1) cs := by
  have hafter : ∀ r ∈ (applyFrom s (index + 1) cs (applyChange s index c t).1).2,
      r.index ≠ index := fun r hr => Nat.ne_of_gt (le_index_of_mem_applyFrom hr)
  have hbefore : ∀ r ∈ (applyChange s index c t).2, r.index < index + 1 := fun r hr =>
    (index_of_mem_applyChange hr).trans_lt (Nat.lt_succ_self index)
  have hkept : (∀ r ∈ (applyFrom s index (c :: cs) t).2, r.index ≠ index) ↔
      (applyChange s index c t).2 = [] := by
    simp only [applyFrom, List.mem_append, or_imp, forall_and, and_iff_left hafter]
    constructor
    · intro h
      exact List.eq_nil_iff_forall_not_mem.mpr fun r hr => h r hr (index_of_mem_applyChange hr)
    · simp +contextual
  rw [← unnamed_append hbefore]
  simp only [unnamed, List.zipIdx_cons]
  by_cases hreported : (applyChange s index c t).2 = []
  · rw [List.filter_cons_of_pos (by simpa using hkept.mpr hreported), if_pos hreported]
    rfl
  · rw [List.filter_cons_of_neg (by simpa using mt hkept.mp hreported), if_neg hreported]
    rfl

/-- The changes that are not reported do what all of them do.  The induction goes over the
diff, and a reported change is skipped. -/
theorem applyFrom_unnamed : ∀ (changes : List (Change S)) (index : Nat) (t : Tree S),
    t.Sized → (∀ c ∈ changes, c.Sized) →
    (∀ pre c post, changes = pre ++ c :: post → ¬ c.CheckedLate s (applyFrom s index pre t).1) →
    ∀ other, applyFrom s other (unnamed (applyFrom s index changes t).2 index changes) t =
      ((applyFrom s index changes t).1, []) := by
  intro changes
  induction changes with
  | nil => simp [applyFrom, unnamed]
  | cons c cs ih =>
    intro index t ht hsides hlate other
    have hrest := ih (index + 1) (applyChange s index c t).1
      (applyChange_sized ht (hsides c (by simp))) (fun d hd => hsides d (by simp [hd]))
      fun pre d post heq => hlate (c :: pre) d post (by simp [heq])
    rw [unnamed_cons]
    by_cases hreported : (applyChange s index c t).2 = []
    · rw [if_pos hreported]
      simp only [List.cons_append, List.nil_append, applyFrom, applyChange_index hreported other,
        hrest]
    · have hsame := applyChange_of_reported ht (hlate [] c cs rfl) hreported
      rw [if_neg hreported, List.nil_append]
      rw [hsame] at hrest ⊢
      rw [hrest]
      simp only [applyFrom, hsame]

/-- A diff of the function: a new attribute, and a prototype that is not there is taken
away. -/
def mixedChanges : List (Change Nat) :=
  [⟨[.field 1], none, some (.scalar 2)⟩,
    ⟨[.field 0], some (.object 1 [.scalar 1]), some .null⟩]

/-- The attribute stays when the other change is refused. -/
theorem not_apply_atomic :
    ¬ ∀ (t : TreeOf functionSchema) (changes : List (Change Nat)),
      (apply functionSchema.toSchema changes t.root).2 ≠ [] →
        (apply functionSchema.toSchema changes t.root).1 = t.root := by
  intro h
  have hsame := h (functionTree false [] (by decide)) mixedChanges (by decide)
  exact absurd hsame (by decide)

/-- The tree that `apply` leaves is the one that the changes without a reason lead to. -/
theorem apply_unreported (s : Schema S) (changes : List (Change S)) (t : Tree S) (ht : t.Sized)
    (hsides : ∀ c ∈ changes, c.Sized)
    (hlate : ∀ pre c post, changes = pre ++ c :: post → ¬ c.CheckedLate s (apply s pre t).1) :
    apply s (unreported s changes t) t = ((apply s changes t).1, []) :=
  applyFrom_unnamed changes 0 t ht hsides hlate 0

theorem apply_unreported_mixed :
    apply functionSchema.toSchema
        (unreported functionSchema.toSchema mixedChanges (functionTree false [] (by decide)).root)
        (functionTree false [] (by decide)).root =
      ((apply functionSchema.toSchema mixedChanges (functionTree false [] (by decide)).root).1,
        []) := by
  refine apply_unreported _ _ _ (by simp [functionTree, Tree.Sized, Tree.AllSized])
    (by simp [mixedChanges, Change.Sized, Tree.Sized, Tree.AllSized]) ?_
  intro pre c post h
  rcases pre with _ | ⟨c₁, _ | ⟨c₂, pre⟩⟩
  · obtain ⟨rfl, -⟩ := List.cons_eq_cons.mp h
    rintro ⟨f, x, hplace, hlate⟩
    cases hplace
    exact hlate (by decide)
  · simp only [mixedChanges, List.cons_append, List.nil_append, List.cons.injEq] at h
    obtain ⟨rfl, rfl, -⟩ := h
    rintro ⟨f, x, hplace, hlate⟩
    cases hplace
    exact absurd hlate.1 (by decide)
  · simp [mixedChanges] at h

end TupleTree
