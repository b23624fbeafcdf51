import Revng.TupleTree.SetNodes

/-!
# The diff/apply law

Applying the diff of two trees to the first one should yield the second, and applying the
inverted diff to the second one should yield the first.  `Applicable` says exactly when
it does: no pointer is emptied, and no set loses an element in front of one that stays.
-/

namespace TupleTree

open SortedMerge

variable {S : Type} [LinearOrder S] [Inhabited S]

mutual

/-- The diff of the first tree and the second one can be applied. -/
def Schema.Applicable : Schema S → Tree S → Tree S → Prop
  | .scalar, _, _ => True
  | .struct _ fields, .struct fs, .struct gs => Schema.AllApplicable fields fs gs
  -- `callOnPathSteps` takes a pointer that has been emptied for a missing path
  | .pointer .., .object _ _, .null => False
  | .pointer _ _ alternatives, .object k fs, .object l gs =>
      k = l → Schema.AllApplicable (alternatives k) fs gs
  | .container kind element, a, b =>
      (kind = .mutableSet →
        RemovalsLast (a.elements.map element.keyOf) (b.elements.map element.keyOf)) ∧
      ∀ l ∈ a.elements, ∀ r ∈ b.elements, element.keyOf l = element.keyOf r →
        element.Applicable l r
  | _, _, _ => True

def Schema.AllApplicable : List (Schema S) → List (Tree S) → List (Tree S) → Prop
  | field :: fields, l :: ls, r :: rs => field.Applicable l r ∧ Schema.AllApplicable fields ls rs
  | _, _, _ => True

end

/-- The diff of the two trees can be replayed on the first one. -/
def Replayable (s : Schema S) (a b : Tree S) : Prop := replay s (diff s a b) a = some b

omit [LinearOrder S] [Inhabited S] in
theorem Schema.AllWellFormed.of_mem {f : Schema S} {fields : List (Schema S)}
    (h : Schema.AllWellFormed fields) (hf : f ∈ fields) : f.WellFormed := by
  induction fields with
  | nil => simp at hf
  | cons g gs ih =>
    rw [Schema.AllWellFormed] at h
    rcases List.mem_cons.mp hf with rfl | hf
    · exact h.1
    · exact ih h.2 hf

theorem replayTuple_iff {fields : List (Schema S)}
    (h : ∀ f ∈ fields, ∀ a b, f.Conforms a → f.Conforms b → (Replayable f a b ↔ f.Applicable a b)) :
    ∀ fs gs, Schema.AllConform fields fs → Schema.AllConform fields gs →
      (replayTuple fields fs gs = some gs ↔ Schema.AllApplicable fields fs gs) := by
  induction fields with
  | nil =>
    intro fs gs hfs hgs
    rw [Schema.AllConform] at hfs hgs
    simp [hfs, hgs, replayTuple, Schema.AllApplicable]
  | cons f fields ih =>
    intro fs gs hfs hgs
    rw [Schema.AllConform] at hfs hgs
    obtain ⟨l, ls, rfl, hl, hls⟩ := hfs
    obtain ⟨r, rs, rfl, hr, hrs⟩ := hgs
    have hrest := ih (fun g hg => h g (by simp [hg])) ls rs hls hrs
    rw [Schema.AllApplicable, ← h f (by simp) l r hl hr, ← hrest, replayTuple, Replayable]
    cases replay f (diff f l r) l with
    | none => simp
    | some l' => cases replayTuple fields ls rs <;> simp

/-- A leaf is always replaced. -/
theorem replayable_scalar {a b : Tree S} : Replayable .scalar a b := by
  unfold Replayable replay diff diffImpl
  by_cases h : a = b
  · simp [h]
  · simp [h, Change.attempt, arrive, visit, visitLeaf, callOnPathSteps, succeeded]

/-- A pointer is replaced, and must not be null then. -/
theorem replay_pointer {key : List Nat} {kindField : Nat} {alternatives : S → List (Schema S)}
    {a b : Tree S} :
    replay (.pointer key kindField alternatives) [⟨[], some a, some b⟩] a =
      if b = .null then none else some b := by
  by_cases h : b = .null
  · simp [h, replay, Change.attempt, arrive, visit, visitLeaf, callOnPathSteps, succeeded]
  · simp [h, replay, Change.attempt, arrive, visit, visitLeaf, callOnPathSteps, succeeded]

theorem replayZip_iff {element : Schema S} (ls rs : List (Tree S)) :
    replayZip element (zipmap element.keyOf ls rs) = some rs ↔
      ∀ l r, .both l r ∈ zipmap element.keyOf ls rs → Replayable element l r := by
  fun_induction zipmap element.keyOf ls rs with
  | case1 => simp [replayZip]
  | case2 r rs ih => simpa [replayZip] using ih
  | case3 l ls ih => simpa [replayZip] using ih
  | case4 l ls r rs hlt ih => simpa [replayZip] using ih
  | case5 l ls r rs hnot hlt ih => simpa [replayZip] using ih
  | case6 l ls r rs hnot hnot' ih =>
    have hsplit : (∀ l' r', .both l' r' ∈ Zipped.both l r :: zipmap element.keyOf ls rs →
        Replayable element l' r') ↔ Replayable element l r ∧
          ∀ l' r', .both l' r' ∈ zipmap element.keyOf ls rs → Replayable element l' r' := by
      constructor
      · exact fun h => ⟨h l r (by simp), fun l' r' hmem => h l' r' (by simp [hmem])⟩
      · rintro ⟨h, hrest⟩ l' r' hmem
        rcases List.mem_cons.mp hmem with heq | hmem
        · cases heq
          exact h
        · exact hrest l' r' hmem
    rw [hsplit, ← ih, replayZip, Replayable]
    cases replay element (diff element l r) l with
    | none => simp
    | some l' => cases replayZip element (zipmap element.keyOf ls rs) <;> simp

/-- What happens to the elements of a container decides, and the order of the removals. -/
theorem replayable_container {kind : ContainerKind} {element : Schema S}
    (hw : element.WellFormed) (hk : element.Keyed) {ls rs : List (Tree S)}
    (hls : element.Elements ls) (hrs : element.Elements rs)
    (h : ∀ l ∈ ls, ∀ r ∈ rs, Replayable element l r ↔ element.Applicable l r) :
    Replayable (.container kind element) (Tree.container kind element.keyOf ls)
        (Tree.container kind element.keyOf rs) ↔
      (kind = .mutableSet → RemovalsLast (ls.map element.keyOf) (rs.map element.keyOf)) ∧
        ∀ l ∈ ls, ∀ r ∈ rs, element.keyOf l = element.keyOf r → element.Applicable l r := by
  have hzip : (∀ l r, .both l r ∈ zipmap element.keyOf ls rs → Replayable element l r) ↔
      ∀ l ∈ ls, ∀ r ∈ rs, element.keyOf l = element.keyOf r → element.Applicable l r := by
    constructor
    · intro hboth l hl r hr hkey
      exact (h l hl r hr).mp
        (hboth l r (both_mem_zipmap hls.ascending hrs.ascending hl hr hkey))
    · intro happ l r hmem
      obtain ⟨hl, hr, hkey⟩ := mem_zipmap_both hmem
      exact (h l hl r hr).mpr (happ l hl r hr hkey)
  rw [← hzip, ← replayZip_iff, Replayable, diff_container, Tree.elements_container,
    Tree.elements_container]
  by_cases hlast : kind = .mutableSet →
      RemovalsLast (ls.map element.keyOf) (rs.map element.keyOf)
  · have hrun := replay_zip hw hk ls rs [] hls hrs (by simp) (by simp) hlast
    simp only [List.nil_append] at hrun
    rw [hrun, Option.map_eq_some_iff]
    constructor
    · rintro ⟨xs, hxs, heq⟩
      have : xs = rs := by
        rw [← Tree.elements_container kind element.keyOf xs, heq, Tree.elements_container]
      exact ⟨hlast, this ▸ hxs⟩
    · exact fun hxs => ⟨rs, hxs.2, rfl⟩
  · refine iff_of_false (fun hrun => hlast ?_) fun hboth => hlast hboth.1
    rintro rfl
    exact removalsLast_of_replay hls hrs hrun

/-- The diff of two trees can be replayed exactly when it is applicable. -/
theorem replayable_iff (s : Schema S) (hw : s.WellFormed) (a b : Tree S) (ha : s.Conforms a)
    (hb : s.Conforms b) : Replayable s a b ↔ s.Applicable a b := by
  induction s using Schema.induction generalizing a b with
  | scalar => simpa [Schema.Applicable] using replayable_scalar
  | struct key fields ih =>
    rw [Schema.Conforms] at ha hb
    rw [Schema.WellFormed] at hw
    obtain ⟨fs, rfl, hfs⟩ := ha
    obtain ⟨gs, rfl, hgs⟩ := hb
    have htuple := replayTuple_iff (fun f hf a b ha hb => ih f hf (hw.2.of_mem hf) a b ha hb)
      fs gs hfs hgs
    rw [Replayable, replay_struct, Schema.Applicable, ← htuple]
    simp
  | pointer key kindField alternatives ih =>
    rw [Schema.Conforms] at ha hb
    rw [Schema.WellFormed] at hw
    rcases ha with rfl | ⟨k, fs, rfl, -, hfs⟩ <;> rcases hb with rfl | ⟨l, gs, rfl, -, hgs⟩
    · simp [Replayable, replay, diff_self, Schema.Applicable]
    · simp [Replayable, diff, diffImpl, replay_pointer, Schema.Applicable]
    · simp [Replayable, diff, diffImpl, replay_pointer, Schema.Applicable]
    · by_cases hkl : k = l
      · subst hkl
        have htuple := replayTuple_iff
          (fun f hf a b ha hb => ih k f hf ((hw.2 k).2.of_mem hf) a b ha hb) fs gs hfs hgs
        simp only [Replayable, replay_object, Schema.Applicable, ← htuple]
        simp
      · simp [Replayable, diff, diffImpl, replay_pointer, Schema.Applicable, hkl]
  | container kind element ih =>
    rw [Schema.Conforms] at ha hb
    rw [Schema.WellFormed] at hw
    obtain ⟨ls, rfl, hasc, hls⟩ := ha
    obtain ⟨rs, rfl, hasc', hrs⟩ := hb
    rw [replayable_container hw.2 hw.1 ⟨hasc, hls⟩ ⟨hasc', hrs⟩ fun l hl r hr =>
      ih hw.2 l r (hls l hl).1 (hrs r hr).1]
    simp only [Schema.Applicable, Tree.elements_container]

/-! ## The law -/

/-- The diff leads from the first tree to the second one and back, without errors, and it
is empty when the trees are equal, and only then. -/
structure DiffApplyLaw (s : RootSchema S) (a b : TreeOf s) : Prop where
  forward : apply s.toSchema (diff s.toSchema a.root b.root) a.root = (b.root, [])
  backward : apply s.toSchema (invert (diff s.toSchema a.root b.root)) b.root = (a.root, [])
  empty : diff s.toSchema a.root b.root = [] ↔ a.root = b.root

/-- `apply` yields the other tree exactly when the diff can be replayed. -/
theorem apply_diff_iff (s : RootSchema S) (a b : TreeOf s) :
    apply s.toSchema (diff s.toSchema a.root b.root) a.root = (b.root, []) ↔
      s.toSchema.Applicable a.root b.root := by
  have hpath : ∀ c ∈ diff s.toSchema a.root b.root, c.path ≠ [] := by
    intro c hc
    have ha := a.conforms
    have hb := b.conforms
    rw [RootSchema.toSchema, Schema.Conforms] at ha hb
    obtain ⟨fs, hfs, -⟩ := ha
    obtain ⟨gs, hgs, -⟩ := hb
    rw [RootSchema.toSchema, hfs, hgs, diff_struct] at hc
    obtain ⟨j, rest, h⟩ := path_of_mem_diffTuple hc
    simp [h]
  rw [apply, applyFrom_eq_iff hpath 0,
    ← replayable_iff s.toSchema s.wellFormed a.root b.root a.conforms b.conforms, Replayable]

/-- The law holds exactly when the diff is applicable in both directions. -/
theorem diffApplyLaw_iff (s : RootSchema S) (a b : TreeOf s) :
    DiffApplyLaw s a b ↔
      s.toSchema.Applicable a.root b.root ∧ s.toSchema.Applicable b.root a.root := by
  constructor
  · intro h
    refine ⟨(apply_diff_iff s a b).mp h.forward, (apply_diff_iff s b a).mp ?_⟩
    rw [← invert_diff]
    exact h.backward
  · rintro ⟨hab, hba⟩
    refine ⟨(apply_diff_iff s a b).mpr hab, ?_, ?_⟩
    · rw [invert_diff]
      exact (apply_diff_iff s b a).mpr hba
    · constructor
      · exact eq_of_diff_eq_nil s.toSchema a.root b.root a.conforms b.conforms
      · intro heq
        rw [heq, diff_self]

/-- The law fails when the prototype is taken away, and when the first of two attributes
is. -/
theorem not_diffApplyLaw :
    ¬ DiffApplyLaw functionSchema (functionTree true [] (by decide))
        (functionTree false [] (by decide)) ∧
      ¬ DiffApplyLaw functionSchema (functionTree false [1, 2] (by decide))
        (functionTree false [2] (by decide)) := by
  constructor
  · intro h
    have hreasons := congrArg (fun r => r.2.length) h.forward
    exact absurd hreasons (by decide)
  · intro h
    have htree := congrArg Prod.fst h.forward
    exact absurd htree (by decide)

end TupleTree
