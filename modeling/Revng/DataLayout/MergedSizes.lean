import Revng.DataLayout.TypeSystemRuns

/-!
# Merging the nodes of a component

A contraction maps the nodes of a system to the nodes that are left of them (`Contracts`).  The
leaders of a component are its nodes that are left (`Leads`): the first one of those with the
largest size, and all those of other sizes but one without a size.
-/

namespace DataLayout

open LayoutTypeSystem LabelledGraph

variable {E : Type} [IntEqClasses E] [LawfulIntEqClasses E]

/-! ## Contractions -/

/-- A history whose system stores a graph. -/
structure Stores (h : History E) (g : TypeGraph) : Prop where
  invariant : h.Invariant
  represents : Represents h.system.layouts h.system.nodes g

/-- The nodes that are not scalar have a size. -/
def NonScalarSized (s : LayoutTypeSystem E) : Prop :=
  ∀ n ∈ s.layouts, (s.nodes n).nonScalar = true → (s.nodes n).size ≠ 0

/-- The nodes of `h` have become those of `h'` that `m` maps them to. -/
structure Contracts (m : Nat → Nat) (h : History E) (g : TypeGraph) (h' : History E)
    (g' : TypeGraph) : Prop where
  stores : Stores h' g'
  nid : h'.system.nid = h.system.nid
  owner : h'.owner = fun x => (h.owner x).map m
  layouts : ∀ n, n ∈ h'.system.layouts ↔ n ∈ h.system.layouts ∧ m n = n
  maps : ∀ n ∈ h.system.layouts, m n ∈ h'.system.layouts
  quotient : IsQuotient m g g'
  size : ∀ n ∈ h'.system.layouts, (h'.system.nodes n).size = (h.system.nodes n).size
  sized : NonScalarSized h.system → NonScalarSized h'.system

variable {g : TypeGraph}

omit [LawfulIntEqClasses E] in
theorem Contracts.refl {h : History E} (hs : Stores h g) :
    Contracts id h g h g where
  stores := hs
  nid := rfl
  owner := by simp
  layouts := by simp
  maps := fun _ hn => hn
  quotient := .refl g
  size := fun _ _ => rfl
  sized := id

omit [LawfulIntEqClasses E] in
theorem Contracts.trans {m m' : Nat → Nat} {h h' h'' : History E} {g' g'' : TypeGraph}
    (hc : Contracts m h g h' g') (hc' : Contracts m' h' g' h'' g'') :
    Contracts (m' ∘ m) h g h'' g'' where
  stores := hc'.stores
  nid := hc'.nid.trans hc.nid
  owner := by simp [hc'.owner, hc.owner, Function.comp_def]
  layouts := fun n => by
    rw [hc'.layouts, hc.layouts, Function.comp_apply]
    constructor
    · rintro ⟨⟨hn, hm⟩, hm'⟩
      exact ⟨hn, by rw [hm, hm']⟩
    · rintro ⟨hn, hm⟩
      have hleft : n ∈ h''.system.layouts := hm ▸ hc'.maps _ (hc.maps n hn)
      obtain ⟨hn', hm'⟩ := (hc'.layouts n).mp hleft
      exact ⟨⟨hn, ((hc.layouts n).mp hn').2⟩, hm'⟩
  maps := fun n hn => hc'.maps _ (hc.maps n hn)
  quotient := hc.quotient.trans hc'.quotient
  size := fun n hn => by
    rw [hc'.size n hn, hc.size n ((hc'.layouts n).mp hn).1]
  sized := fun hsized => hc'.sized (hc.sized hsized)

/-! ## Merging nodes -/

theorem mergedSize_eq {into src : LayoutTypeSystemNode} {size : Nat}
    (h : mergedSize into src = some size) (hle : src.size ≤ into.size) : size = into.size := by
  rcases Bool.eq_false_or_eq_true into.nonScalar with hinto | hinto
  · simp only [mergedSize, hinto, Bool.true_or, if_true] at h
    exact (Option.some.inj (Option.ite_none_right_eq_some.mp h).2).symm
  · rcases Bool.eq_false_or_eq_true src.nonScalar with hsrc | hsrc
    · simp only [mergedSize, hinto, hsrc, Bool.or_true, if_true] at h
      obtain ⟨⟨-, hge⟩, hsize⟩ := Option.ite_none_right_eq_some.mp h
      have hge' : into.size ≤ src.size := hge
      have hsize' : src.size = size := Option.some.inj hsize
      omega
    · simp only [mergedSize, hinto, hsrc, Bool.or_self] at h
      have hmax := Option.some.inj (Option.ite_none_right_eq_some.mp h).2
      rw [max_eq_left hle] at hmax
      exact hmax.symm

variable {into : Nat}

omit [IntEqClasses E] [LawfulIntEqClasses E] in
/-- Only the links of the nodes are fixed. -/
theorem fixPredSucc_keeps {layouts : Finset Nat} {nodes : Nodes} {src n : Nat}
    (h : Represents layouts nodes g) (hsrc : src ∈ layouts) (hne : into ≠ src) (hn : n ∈ layouts) :
    (fixPredSucc src into nodes n).size = (nodes n).size ∧
      (fixPredSucc src into nodes n).nonScalar = (nodes n).nonScalar := by
  rw [fixPredSucc_apply h hsrc hne hn]
  split
  · exact ⟨rfl, rfl⟩
  · exact ⟨rfl, rfl⟩

theorem mergeNode_contracts {h : History E} (hs : Stores h g) {src : Nat} {s' : LayoutTypeSystem E}
    (hmerge : h.system.mergeNode into src = some s')
    (hle : (h.system.nodes src).size ≤ (h.system.nodes into).size) :
    ∃ h' g', h'.system = s' ∧ Contracts (merged src into) h g h' g' := by
  have hinv := hs.invariant.mergeNode hmerge
  obtain ⟨_, hguard, hmerge⟩ := Option.bind_eq_some_iff.mp hmerge
  obtain ⟨hne, hsrc, hinto⟩ := (Option.guard_eq_some' _).mp hguard
  obtain ⟨size, hsize, hmerge⟩ := Option.bind_eq_some_iff.mp hmerge
  cases hmerge
  have hrep := (hs.represents.modify (k := into) (f := fun n =>
    { n with
      interferingInfo := .unknown
      size
      nonScalar := n.nonScalar || (h.system.nodes src).nonScalar }) rfl rfl)
  have hsize := mergedSize_eq hsize hle
  refine ⟨_, _, rfl, ⟨⟨hinv, hrep.fixPredSucc hsrc hinto hne.symm⟩, rfl, ?_, ?_, ?_,
    isQuotient_contract _ _ hne.symm, ?_, ?_⟩⟩
  · funext x
    cases howner : h.owner x with
    | none => simp [howner]
    | some n =>
      simp only [howner, merged, Option.map_some, Option.some.injEq]
      split <;> rfl
  · intro n
    simp only [Finset.mem_erase, merged]
    constructor
    · rintro ⟨hnsrc, hn⟩
      exact ⟨hn, if_neg hnsrc⟩
    · rintro ⟨hn, hm⟩
      refine ⟨fun heq => hne ?_, hn⟩
      rw [if_pos heq] at hm
      rw [hm, heq]
  · intro n hn
    unfold merged
    split
    · exact Finset.mem_erase.mpr ⟨hne.symm, hinto⟩
    next hnsrc => exact Finset.mem_erase.mpr ⟨hnsrc, hn⟩
  · intro n hn
    rw [(fixPredSucc_keeps hrep hsrc hne.symm (Finset.mem_of_mem_erase hn)).1, modify_apply]
    split
    next heq => rw [heq, ← hsize]
    next => rfl
  · intro hsized n hn
    obtain ⟨hsizeEq, hscalarEq⟩ := fixPredSucc_keeps hrep hsrc hne.symm (Finset.mem_of_mem_erase hn)
    rw [hsizeEq, hscalarEq, modify_apply]
    split
    next heq =>
      subst heq hsize
      simp only [Bool.or_eq_true]
      rintro (hscalar | hscalar)
      · exact hsized n hinto hscalar
      · have hpos := hsized src hsrc hscalar
        omega
    next => exact hsized n (Finset.mem_of_mem_erase hn)

/-- The node that is left of a node after `srcs` were merged into `into`. -/
def mergedInto (srcs : List Nat) (into n : Nat) : Nat := if n ∈ srcs then into else n

theorem mergedInto_cons (src : Nat) (srcs : List Nat) (into : Nat) :
    mergedInto (src :: srcs) into = mergedInto srcs into ∘ merged src into := by
  funext n
  simp only [mergedInto, merged, Function.comp_apply, List.mem_cons]
  by_cases hn : n = src
  · simp [hn]
  · simp [hn]

/-- The nodes of a list that are merged are in the system, and none is larger than the first. -/
structure Mergeable (s : LayoutTypeSystem E) (into : Nat) (srcs : List Nat) : Prop where
  nodup : (into :: srcs).Nodup
  layouts : ∀ n ∈ into :: srcs, n ∈ s.layouts
  size : ∀ n ∈ srcs, (s.nodes n).size ≤ (s.nodes into).size

variable {srcs : List Nat}

omit [LawfulIntEqClasses E] in
/-- What is left to merge after the first of the nodes. -/
theorem Mergeable.tail {h h' : History E} {g' : TypeGraph} {src : Nat}
    (hm : Mergeable h.system into (src :: srcs)) (hc : Contracts (merged src into) h g h' g') :
    Mergeable h'.system into srcs := by
  obtain ⟨hinto, hnodup⟩ := List.nodup_cons.mp hm.nodup
  obtain ⟨hsrc, hsrcs⟩ := List.nodup_cons.mp hnodup
  have hleft : ∀ n ∈ into :: srcs, n ∈ h'.system.layouts := by
    intro n hn
    refine (hc.layouts n).mpr ⟨hm.layouts n ?_, merged_of_ne ?_⟩
    · rcases List.mem_cons.mp hn with rfl | hn
      · exact List.mem_cons_self
      · exact List.mem_cons_of_mem _ (List.mem_cons_of_mem _ hn)
    · rintro rfl
      rcases List.mem_cons.mp hn with rfl | hn
      · exact hinto List.mem_cons_self
      · exact hsrc hn
  refine ⟨List.nodup_cons.mpr ⟨fun h => hinto (List.mem_cons_of_mem _ h), hsrcs⟩, hleft, ?_⟩
  intro n hn
  rw [hc.size n (hleft n (List.mem_cons_of_mem _ hn)), hc.size into (hleft into List.mem_cons_self)]
  exact hm.size n (List.mem_cons_of_mem _ hn)

variable {s : LayoutTypeSystem E}

omit [IntEqClasses E] [LawfulIntEqClasses E] in
theorem Mergeable.sublist {srcs' : List Nat} (hm : Mergeable s into srcs)
    (hsub : srcs'.Sublist srcs) : Mergeable s into srcs' :=
  ⟨hm.nodup.sublist (hsub.cons_cons into), fun n hn => hm.layouts n ((hsub.cons_cons into).subset hn),
    fun n hn => hm.size n (hsub.subset hn)⟩

variable {rest : List Nat}

omit [LawfulIntEqClasses E] in
/-- The nodes that were not merged are left. -/
theorem Mergeable.mem_layouts {h h' : History E} {g' : TypeGraph}
    (hm : Mergeable h.system into (srcs ++ rest))
    (hc : Contracts (mergedInto srcs into) h g h' g') : ∀ n ∈ rest, n ∈ h'.system.layouts := by
  intro n hn
  refine (hc.layouts n).mpr ⟨hm.layouts n (by simp [hn]), if_neg fun hsrc => ?_⟩
  exact (List.disjoint_of_nodup_append (List.nodup_cons.mp hm.nodup).2) hsrc hn

theorem mergeNodes_contracts (srcs : List Nat) :
    ∀ {h : History E} {g : TypeGraph} {s' : LayoutTypeSystem E}, Stores h g →
      Mergeable h.system into srcs → h.system.mergeNodes (into :: srcs) = some s' →
        ∃ h' g', h'.system = s' ∧ Contracts (mergedInto srcs into) h g h' g' := by
  induction srcs with
  | nil =>
    intro h g s' hs _ hmerge
    cases hmerge
    have hid : mergedInto [] into = id := by
      funext n
      simp [mergedInto]
    exact ⟨h, g, rfl, hid ▸ Contracts.refl hs⟩
  | cons src srcs ih =>
    intro h g s' hs hm hmerge
    obtain ⟨s₁, hone, hrest⟩ := Option.bind_eq_some_iff.mp hmerge
    obtain ⟨h₁, g₁, rfl, hc₁⟩ := mergeNode_contracts hs hone (hm.size src List.mem_cons_self)
    obtain ⟨h', g', rfl, hc'⟩ := ih hc₁.stores (hm.tail hc₁) hrest
    exact ⟨h', g', rfl, mergedInto_cons src srcs into ▸ hc₁.trans hc'⟩

/-! ## Merging by size -/

variable {currentSize : Nat}

omit [LawfulIntEqClasses E] in
/-- Nodes of other sizes than the current one are all leaders. -/
theorem mergeSizes_of_ne (rest : List Nat) :
    ∀ leader, (∀ n ∈ rest, (s.nodes n).size ≠ currentSize) →
      mergeSizes currentSize leader [] rest s = some (leader :: rest, s) := by
  induction rest with
  | nil => exact fun _ _ => rfl
  | cons n rest ih =>
    intro leader hne
    have hrest := ih n fun k hk => hne k (List.mem_cons_of_mem _ hk)
    rw [mergeSizes, if_neg (hne n List.mem_cons_self)]
    simp only [mergeNodes, List.foldlM_nil, Option.pure_def, hrest, Option.bind_eq_bind,
      Option.bind_some]

/-- After the nodes of the current size only smaller ones are left, which are kept. -/
theorem mergeSizes_of_smaller {leader n : Nat} {same : List Nat} {h : History E} (hs : Stores h g)
    (hm : Mergeable h.system leader (same ++ n :: rest))
    (hne : ∀ k ∈ n :: rest, (h.system.nodes k).size ≠ currentSize) :
    mergeSizes currentSize leader same (n :: rest) h.system =
      (h.system.mergeNodes (leader :: same)).map (leader :: n :: rest, ·) := by
  rw [mergeSizes, if_neg (hne n List.mem_cons_self)]
  cases hmerge : h.system.mergeNodes (leader :: same) with
  | none => rfl
  | some s₁ =>
    obtain ⟨h₁, g₁, rfl, hc⟩ := mergeNodes_contracts same hs (hm.sublist (by simp)) hmerge
    have hrest := mergeSizes_of_ne (s := h₁.system) rest n fun k hk => by
      rw [hc.size k (hm.mem_layouts hc k (List.mem_cons_of_mem _ hk))]
      exact hne k (List.mem_cons_of_mem _ hk)
    simp [hrest]

omit [IntEqClasses E] [LawfulIntEqClasses E] in
theorem size_ne_of_sorted {n : Nat} (hsorted : ∀ k ∈ rest, (s.nodes k).size ≤ (s.nodes n).size)
    (hle : (s.nodes n).size ≤ currentSize) (hne : (s.nodes n).size ≠ currentSize) :
    ∀ k ∈ n :: rest, (s.nodes k).size ≠ currentSize := by
  intro k hk
  rcases List.mem_cons.mp hk with rfl | hk
  · exact hne
  · have hkn := hsorted k hk
    omega

/-- The nodes of the current size, which come first, are merged into the leader. -/
theorem mergeSizes_contracts {leader : Nat} (rest : List Nat) :
    ∀ {same : List Nat} {h : History E} {g : TypeGraph} {leaders : List Nat}
      {s' : LayoutTypeSystem E}, Stores h g → Mergeable h.system leader (same ++ rest) →
      rest.Pairwise (fun a b => (h.system.nodes b).size ≤ (h.system.nodes a).size) →
      (∀ n ∈ rest, (h.system.nodes n).size ≤ currentSize) →
      mergeSizes currentSize leader same rest h.system = some (leaders, s') →
        ∃ h' g', h'.system = s' ∧
          Contracts (mergedInto (same ++ rest.filter fun n => (h.system.nodes n).size = currentSize)
            leader) h g h' g' ∧
          leaders = leader :: rest.filter fun n => (h.system.nodes n).size ≠ currentSize := by
  induction rest with
  | nil =>
    intro same h g leaders s' hs hm _ _ hmerge
    obtain ⟨s₁, hone, heq⟩ := Option.map_eq_some_iff.mp hmerge
    cases heq
    obtain ⟨h', g', rfl, hc⟩ := mergeNodes_contracts same hs (by simpa using hm) hone
    exact ⟨h', g', rfl, by simpa using hc, rfl⟩
  | cons n rest ih =>
    intro same h g leaders s' hs hm hsorted hle hmerge
    obtain ⟨hn, hsorted⟩ := List.pairwise_cons.mp hsorted
    by_cases heq : (h.system.nodes n).size = currentSize
    · rw [mergeSizes, if_pos heq] at hmerge
      obtain ⟨h', g', rfl, hc, rfl⟩ := ih hs (by simpa using hm) hsorted
        (fun k hk => hle k (List.mem_cons_of_mem _ hk)) hmerge
      refine ⟨h', g', rfl, ?_, ?_⟩
      · simpa [List.filter_cons, heq] using hc
      · simp [heq]
    · have hsmall := size_ne_of_sorted hn (hle n List.mem_cons_self) heq
      rw [mergeSizes_of_smaller hs hm hsmall] at hmerge
      obtain ⟨s₁, hone, heq⟩ := Option.map_eq_some_iff.mp hmerge
      cases heq
      obtain ⟨h₁, g₁, rfl, hc⟩ := mergeNodes_contracts same hs (hm.sublist (by simp)) hone
      refine ⟨h₁, g₁, rfl, ?_, ?_⟩
      · have hnone : (n :: rest).filter (fun k => (h.system.nodes k).size = currentSize) = [] := by
          simpa using hsmall
        simpa [hnone] using hc
      · have hall : (n :: rest).filter (fun k => (h.system.nodes k).size ≠ currentSize) =
            n :: rest := by
          simpa using hsmall
        rw [hall]

/-- The last leader is merged into the first one if it has no size. -/
theorem mergeEmpty_contracts {first : Nat} {others leaders : List Nat} {h : History E}
    {s' : LayoutTypeSystem E} (hs : Stores h g) (hm : Mergeable h.system first others)
    (hmerge : mergeEmpty (first :: others) h.system = some (leaders, s')) :
    ∃ h' g' kept empty, h'.system = s' ∧ Contracts (mergedInto empty first) h g h' g' ∧
      leaders = first :: kept ∧ others = kept ++ empty ∧
      (∀ n ∈ empty, (h.system.nodes n).size = 0) ∧
      ∀ last, others.getLast? = some last → (h.system.nodes last).size = 0 → last ∈ empty := by
  have hid : mergedInto [] first = id := by
    funext n
    simp [mergedInto]
  rcases List.eq_nil_or_concat' others with rfl | ⟨kept, last, rfl⟩
  · cases hmerge
    exact ⟨h, g, [], [], rfl, hid ▸ Contracts.refl hs, rfl, rfl, by simp, by simp⟩
  · have hlast : (first :: (kept ++ [last])).getLast? = some last := by
      simp [List.getLast?_cons]
    simp only [mergeEmpty, List.head?_cons, hlast] at hmerge
    split at hmerge
    next hcond =>
      obtain ⟨s₁, hone, heq⟩ := Option.map_eq_some_iff.mp hmerge
      cases heq
      obtain ⟨h', g', rfl, hc⟩ := mergeNodes_contracts [last] hs (hm.sublist (by simp)) hone
      refine ⟨h', g', kept, [last], rfl, hc, ?_, rfl, ?_, ?_⟩
      · rw [← List.cons_append, List.dropLast_concat]
      · simpa using hcond.2
      · simp
    next hcond =>
      cases hmerge
      refine ⟨h, g, kept ++ [last], [], rfl, hid ▸ Contracts.refl hs, rfl, by simp, by simp, ?_⟩
      intro k hk hzero
      obtain rfl : last = k := by simpa using hk
      exact absurd ⟨by simp, hzero⟩ hcond

/-- No size but the largest one occurs twice in the component. -/
def OnlyLargestRepeats (s : LayoutTypeSystem E) (c : Set Nat) : Prop :=
  ∀ a ∈ c, ∀ b ∈ c, a ≠ b → (s.nodes a).size = (s.nodes b).size →
    ∀ n ∈ c, (s.nodes n).size ≤ (s.nodes a).size

/-- The leaders of a component, where `m` maps the nodes to those that are left of them. -/
structure Leads (s : LayoutTypeSystem E) (c : List Nat) (m : Nat → Nat) (leaders : List Nat) :
    Prop where
  nodup : leaders.Nodup
  mem : ∀ l ∈ leaders, l ∈ c
  into : ∀ n ∈ c, m n ∈ leaders
  fixed : ∀ l ∈ leaders, m l = l
  descending : leaders.Pairwise fun a b => (s.nodes b).size ≤ (s.nodes a).size
  sameSize : ∀ n ∈ c, (s.nodes n).size ≠ 0 → (s.nodes (m n)).size = (s.nodes n).size
  largest : ∀ n ∈ c, (∀ k ∈ c, (s.nodes k).size ≤ (s.nodes n).size) → leaders.head? = some (m n)
  zero : OnlyLargestRepeats s {n | n ∈ c} → ∀ n ∈ c, (s.nodes n).size = 0 → leaders.head? = some (m n)
  strict : OnlyLargestRepeats s {n | n ∈ c} →
    leaders.Pairwise fun a b => (s.nodes b).size < (s.nodes a).size

/-- A sorted component without its first node: the nodes of other sizes than the first one are kept
or, if they have no size, merged into it at the end. -/
structure SizeSplit (s : LayoutTypeSystem E) (first : Nat) (rest kept empty : List Nat) : Prop where
  nodup : (first :: rest).Nodup
  sorted : (first :: rest).Pairwise fun a b => (s.nodes b).size ≤ (s.nodes a).size
  others : (rest.filter fun n => (s.nodes n).size ≠ (s.nodes first).size) = kept ++ empty
  zero : ∀ n ∈ empty, (s.nodes n).size = 0
  last : ∀ last, (kept ++ empty).getLast? = some last → (s.nodes last).size = 0 → last ∈ empty

namespace SizeSplit

variable {s : LayoutTypeSystem E} {first n : Nat} {rest kept empty : List Nat}
  (h : SizeSplit s first rest kept empty)

include h

omit [IntEqClasses E] [LawfulIntEqClasses E]

theorem mem_others : n ∈ kept ++ empty ↔ n ∈ rest ∧ (s.nodes n).size ≠ (s.nodes first).size := by
  rw [← h.others, List.mem_filter, decide_eq_true_iff]

theorem sublist : (kept ++ empty).Sublist rest := h.others ▸ List.filter_sublist

theorem kept_sublist : kept.Sublist rest := (List.sublist_append_left kept empty).trans h.sublist

theorem disjoint : List.Disjoint kept empty :=
  List.disjoint_of_nodup_append ((List.nodup_cons.mp h.nodup).2.sublist h.sublist)

theorem size_ne_of_kept (hn : n ∈ kept) : (s.nodes n).size ≠ (s.nodes first).size :=
  (h.mem_others.mp (List.mem_append_left _ hn)).2

theorem size_le (hn : n ∈ first :: rest) : (s.nodes n).size ≤ (s.nodes first).size := by
  rcases List.mem_cons.mp hn with rfl | hn
  · exact le_rfl
  · exact (List.pairwise_cons.mp h.sorted).1 n hn

theorem mem_of_kept (hn : n ∈ kept) : n ∈ first :: rest :=
  List.mem_cons_of_mem _ (h.kept_sublist.subset hn)

omit h in
/-- What is left of a node: the first one, if it is as large as that or empty. -/
theorem left_eq (n : Nat) : (mergedInto empty first ∘
    mergedInto (rest.filter fun n => (s.nodes n).size = (s.nodes first).size) first) n =
      if (n ∈ rest ∧ (s.nodes n).size = (s.nodes first).size) ∨ n ∈ empty then first else n := by
  simp only [mergedInto, Function.comp_apply, List.mem_filter, decide_eq_true_eq]
  by_cases hn : n ∈ rest ∧ (s.nodes n).size = (s.nodes first).size
  · simp [hn]
  · simp [hn]

theorem left_of_large (hn : n ∈ first :: rest) (heq : (s.nodes n).size = (s.nodes first).size) :
    (mergedInto empty first ∘
      mergedInto (rest.filter fun n => (s.nodes n).size = (s.nodes first).size) first) n =
        first := by
  rw [left_eq]
  rcases List.mem_cons.mp hn with rfl | hn
  · exact ite_self _
  · exact if_pos (Or.inl ⟨hn, heq⟩)

theorem left_of_kept (hn : n ∈ kept) : (mergedInto empty first ∘
    mergedInto (rest.filter fun n => (s.nodes n).size = (s.nodes first).size) first) n = n := by
  rw [left_eq]
  refine if_neg ?_
  rintro (⟨-, heq⟩ | hmem)
  · exact h.size_ne_of_kept hn heq
  · exact h.disjoint hn hmem

theorem left_of_notMem (hn : n ∉ first :: rest) : (mergedInto empty first ∘
    mergedInto (rest.filter fun n => (s.nodes n).size = (s.nodes first).size) first) n = n := by
  rw [left_eq, if_neg]
  rintro (⟨hmem, -⟩ | hmem)
  · exact hn (List.mem_cons_of_mem _ hmem)
  · exact hn (List.mem_cons_of_mem _ (h.sublist.subset (List.mem_append_right _ hmem)))

/-- A kept node has a size of its own, if only the largest size repeats. -/
theorem size_ne_of_onlyLargestRepeats (honly : OnlyLargestRepeats s {n | n ∈ first :: rest})
    {a b : Nat} (ha : a ∈ kept) (hb : b ∈ first :: rest) (hne : a ≠ b) :
    (s.nodes a).size ≠ (s.nodes b).size := by
  intro heq
  have hge := honly a (h.mem_of_kept ha) b hb hne heq first List.mem_cons_self
  exact h.size_ne_of_kept ha (le_antisymm (h.size_le (h.mem_of_kept ha)) hge)

theorem size_ne_zero_of_kept (honly : OnlyLargestRepeats s {n | n ∈ first :: rest})
    (hn : n ∈ kept) : (s.nodes n).size ≠ 0 := by
  intro hsize
  obtain hnil | ⟨init, last, hconcat⟩ := List.eq_nil_or_concat' (kept ++ empty)
  · exact absurd hn (by simp [(List.append_eq_nil_iff.mp hnil).1])
  · have hsorted := (List.pairwise_cons.mp h.sorted).2.sublist h.sublist
    have hnmem : n ∈ init ++ [last] := hconcat ▸ List.mem_append_left _ hn
    have hlastsize : (s.nodes last).size = 0 := by
      rcases List.mem_append.mp hnmem with hn | hn
      · have hrel := (List.pairwise_append.mp (hconcat ▸ hsorted)).2.2 n hn last (by simp)
        omega
      · rw [← List.mem_singleton.mp hn]
        exact hsize
    have hempty := h.last last (by rw [hconcat]; simp) hlastsize
    have hlast : last ∈ first :: rest :=
      List.mem_cons_of_mem _ (h.sublist.subset (List.mem_append_right _ hempty))
    have hne : n ≠ last := fun heq => h.disjoint hn (heq ▸ hempty)
    exact h.size_ne_of_onlyLargestRepeats honly hn hlast hne (hsize.trans hlastsize.symm)

/-- The nodes of a sorted component that are as large as the first one and the empty one are merged
into the first one. -/
theorem leads : Leads s (first :: rest)
    (mergedInto empty first ∘
      mergedInto (rest.filter fun n => (s.nodes n).size = (s.nodes first).size) first)
    (first :: kept) where
  nodup := h.nodup.sublist (h.kept_sublist.cons_cons first)
  mem := fun l hl => (h.kept_sublist.cons_cons first).subset hl
  into := fun n hn => by
    by_cases heq : (s.nodes n).size = (s.nodes first).size
    · rw [h.left_of_large hn heq]
      exact List.mem_cons_self
    · have hrest : n ∈ rest := (List.mem_cons.mp hn).resolve_left fun h => heq (h ▸ rfl)
      rcases List.mem_append.mp (h.mem_others.mpr ⟨hrest, heq⟩) with hk | he
      · rw [h.left_of_kept hk]
        exact List.mem_cons_of_mem _ hk
      · rw [left_eq, if_pos (Or.inr he)]
        exact List.mem_cons_self
  fixed := fun l hl => by
    rcases List.mem_cons.mp hl with rfl | hl
    · exact h.left_of_large List.mem_cons_self rfl
    · exact h.left_of_kept hl
  descending := h.sorted.sublist (h.kept_sublist.cons_cons first)
  sameSize := fun n hn hsize => by
    rw [left_eq]
    split
    next hcond =>
      rcases hcond with ⟨-, heq⟩ | hmem
      · exact heq.symm
      · exact absurd (h.zero n hmem) hsize
    next => rfl
  largest := fun n hn hlargest => by
    rw [h.left_of_large hn (le_antisymm (h.size_le hn) (hlargest first List.mem_cons_self))]
    rfl
  zero := fun honly n hn hsize => by
    by_cases heq : (s.nodes n).size = (s.nodes first).size
    · rw [h.left_of_large hn heq]
      rfl
    · have hrest : n ∈ rest := (List.mem_cons.mp hn).resolve_left fun h => heq (h ▸ rfl)
      rcases List.mem_append.mp (h.mem_others.mpr ⟨hrest, heq⟩) with hk | he
      · exact absurd hsize (h.size_ne_zero_of_kept honly hk)
      · rw [left_eq, if_pos (Or.inr he)]
        rfl
  strict := fun honly => by
    have hsorted := h.sorted.sublist (h.kept_sublist.cons_cons first)
    have hnodup := h.nodup.sublist (h.kept_sublist.cons_cons first)
    refine (hsorted.and hnodup).imp_of_mem ?_
    rintro a b ha hb ⟨hle, hne⟩
    refine lt_of_le_of_ne hle fun heq => ?_
    rcases List.mem_cons.mp hb with rfl | hb
    · rcases List.mem_cons.mp ha with rfl | ha
      · exact hne rfl
      · exact h.size_ne_of_kept ha heq.symm
    · exact h.size_ne_of_onlyLargestRepeats honly hb ((h.kept_sublist.cons_cons first).subset ha)
        hne.symm heq

end SizeSplit

end DataLayout
