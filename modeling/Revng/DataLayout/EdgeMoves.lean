import Revng.DataLayout.VerifyDAG

/-!
# Moving edges to a new node

Some passes group edges of a node.  They create a node, move the edges there with other tags, and
link the node to the new one (`Regrouped`).
-/

namespace DataLayout

open LayoutTypeSystem

variable {E : Type} {t t' t'' : LayoutTypeSystem E} {n new : Nat} {l : Link}

/-- Two nodes that store the same, but for their links. -/
structure SameFields (x y : LayoutTypeSystemNode) : Prop where
  size : x.size = y.size
  interferingInfo : x.interferingInfo = y.interferingInfo
  nonScalar : x.nonScalar = y.nonScalar

theorem SameFields.refl (x : LayoutTypeSystemNode) : SameFields x x := ⟨rfl, rfl, rfl⟩

theorem SameFields.trans {x y z : LayoutTypeSystemNode} (h : SameFields x y) (h' : SameFields y z) :
    SameFields x z :=
  ⟨h.size.trans h'.size, h.interferingInfo.trans h'.interferingInfo, h.nonScalar.trans h'.nonScalar⟩

theorem sameFields_eraseLink (nodes : Nodes) (src tgt : Nat) (tag : TypeLinkTag) (m : Nat) :
    SameFields (eraseLink nodes src tgt tag m) (nodes m) := by
  simp only [eraseLink, modify_apply]
  split <;> split <;> exact ⟨rfl, rfl, rfl⟩

theorem sameFields_insertLink (nodes : Nodes) (src tgt : Nat) (tag : TypeLinkTag) (m : Nat) :
    SameFields (insertLink nodes src tgt tag m) (nodes m) := by
  simp only [insertLink, modify_apply]
  split <;> split <;> exact ⟨rfl, rfl, rfl⟩

theorem mem_successors_insert {nodes : Nodes} {src tgt n : Nat} {tag : TypeLinkTag} {l : Link} :
    l ∈ (insertLink nodes src tgt tag n).successors ↔
      (n = src ∧ l = ⟨tgt, tag⟩) ∨ l ∈ (nodes n).successors := by
  obtain ⟨m, u⟩ := l
  rw [mem_successors_insertLink]
  refine or_congr_left ?_
  simp only [Prod.mk.injEq, Link.mk.injEq]
  tauto

/-! ## Moving some edges -/

/-- The edges `moved` of `n` come from `new` instead, with other tags. -/
structure EdgesMoved (t : LayoutTypeSystem E) (n new : Nat) (newTag : TypeLinkTag → TypeLinkTag)
    (moved : List Link) (t' : LayoutTypeSystem E) : Prop where
  layouts : t'.layouts = t.layouts
  nid : t'.nid = t.nid
  consistent : t'.Consistent
  fields : ∀ m, SameFields (t'.nodes m) (t.nodes m)
  source : ∀ l, l ∈ (t'.nodes n).successors ↔ l ∈ (t.nodes n).successors ∧ l ∉ moved
  target : ∀ l, l ∈ (t'.nodes new).successors ↔
    l ∈ (t.nodes new).successors ∨ ∃ l' ∈ moved, l = ⟨l'.node, newTag l'.tag⟩
  others : ∀ m, m ≠ n → m ≠ new → (t'.nodes m).successors = (t.nodes m).successors

theorem EdgesMoved.refl (ht : t.Consistent) (n new : Nat) (newTag : TypeLinkTag → TypeLinkTag) :
    EdgesMoved t n new newTag [] t :=
  ⟨rfl, rfl, ht, fun _ => .refl _, by simp, by simp, fun _ _ _ => rfl⟩

variable {newTag : TypeLinkTag → TypeLinkTag}

theorem EdgesMoved.cons {moved : List Link} (h : EdgesMoved t n new newTag [l] t')
    (h' : EdgesMoved t' n new newTag moved t'') :
    EdgesMoved t n new newTag (l :: moved) t'' where
  layouts := h'.layouts.trans h.layouts
  nid := h'.nid.trans h.nid
  consistent := h'.consistent
  fields m := (h'.fields m).trans (h.fields m)
  source l' := by
    rw [h'.source, h.source]
    simp only [List.mem_cons, List.not_mem_nil, or_false]
    tauto
  target l' := by
    rw [h'.target, h.target]
    simp [or_assoc]
  others m hn hnew := (h'.others m hn hnew).trans (h.others m hn hnew)

/-- The edges are moved one after the other. -/
theorem exists_foldlM_edgesMoved (P : Link → Prop)
    {move : LayoutTypeSystem E → Link → Option (LayoutTypeSystem E)}
    (hmove : ∀ (t : LayoutTypeSystem E) (l : Link), t.Consistent → n ∈ t.layouts →
      new ∈ t.layouts → l ∈ (t.nodes n).successors → P l →
      ∃ t', move t l = some t' ∧ EdgesMoved t n new newTag [l] t') (moved : List Link) :
    ∀ {t : LayoutTypeSystem E}, t.Consistent → n ∈ t.layouts → new ∈ t.layouts → moved.Nodup →
      (∀ l ∈ moved, l ∈ (t.nodes n).successors ∧ P l) →
      ∃ t', moved.foldlM move t = some t' ∧ EdgesMoved t n new newTag moved t' := by
  induction moved with
  | nil => exact fun ht _ _ _ _ => ⟨_, rfl, .refl ht _ _ _⟩
  | cons l moved ih =>
    intro t ht hn hnew hnodup hmoved
    obtain ⟨hnot, hnodup⟩ := List.nodup_cons.mp hnodup
    obtain ⟨hl, hP⟩ := hmoved l List.mem_cons_self
    obtain ⟨t₁, hone, h₁⟩ := hmove t l ht hn hnew hl hP
    obtain ⟨t', hrest, h'⟩ := ih h₁.consistent (h₁.layouts ▸ hn) (h₁.layouts ▸ hnew) hnodup
      fun l' hl' => by
        obtain ⟨hmem, hP'⟩ := hmoved l' (List.mem_cons_of_mem _ hl')
        refine ⟨(h₁.source l').mpr ⟨hmem, fun heq => ?_⟩, hP'⟩
        exact hnot (List.mem_singleton.mp heq ▸ hl')
    exact ⟨t', by rw [List.foldlM_cons, hone]; exact hrest, h₁.cons h'⟩

/-- One edge, that is erased and inserted again in any order. -/
theorem edgesMoved_of_links (ht : t.Consistent) (hnew : new ∈ t.layouts) (hne : n ≠ new)
    (htgt : l.node ∈ t.layouts) (hneTgt : l.node ≠ new) {nodes : Nodes}
    (hnodes : nodes = insertLink (eraseLink t.nodes n l.node l.tag) new l.node
        (newTag l.tag) ∨
      nodes = eraseLink (insertLink t.nodes new l.node (newTag l.tag)) n l.node l.tag) :
    EdgesMoved t n new newTag [l] { t with nodes } := by
  obtain ⟨g, hg⟩ := ht.represents
  have hsucc : ∀ m l', l' ∈ (nodes m).successors ↔ (m = new ∧ l' = ⟨l.node, newTag l.tag⟩) ∨
      l' ∈ (t.nodes m).successors ∧ ¬ (m = n ∧ l' = l) := by
    intro m l'
    rcases hnodes with rfl | rfl
    · rw [mem_successors_insert, mem_successors_erase]
    · rw [mem_successors_erase, mem_successors_insert]
      constructor
      · rintro ⟨hleft | hright, hnot⟩
        · exact Or.inl hleft
        · exact Or.inr ⟨hright, hnot⟩
      · rintro (⟨rfl, rfl⟩ | ⟨hmem, hnot⟩)
        · exact ⟨Or.inl ⟨rfl, rfl⟩, fun heq => hne heq.1.symm⟩
        · exact ⟨Or.inr hmem, hnot⟩
  refine ⟨rfl, rfl, ?_, fun m => ?_, fun l' => ?_, fun l' => ?_, fun m hmn hmnew => ?_⟩
  · rcases hnodes with rfl | rfl
    · exact Represents.consistent (s := { t with nodes := _ })
        ((hg.eraseLink n l.node l.tag).insertLink hnew htgt hneTgt.symm (newTag l.tag))
    · exact Represents.consistent (s := { t with nodes := _ })
        ((hg.insertLink hnew htgt hneTgt.symm (newTag l.tag)).eraseLink n l.node l.tag)
  · rcases hnodes with rfl | rfl
    · exact (sameFields_insertLink _ _ _ _ m).trans (sameFields_eraseLink _ _ _ _ m)
    · exact (sameFields_eraseLink _ _ _ _ m).trans (sameFields_insertLink _ _ _ _ m)
  · rw [hsucc]
    simp [hne]
  · rw [hsucc]
    simp [hne.symm, or_comm]
  · ext l'
    rw [hsucc]
    simp [hmn, hmnew]

/-! ## Grouping edges -/

/-- The edges `moved` of `n` come from a new node, to which `n` has a link. -/
structure Regrouped (t : LayoutTypeSystem E) (n : Nat) (newTag : TypeLinkTag → TypeLinkTag)
    (moved : List Link) (tag : TypeLinkTag) (t' : LayoutTypeSystem E) : Prop where
  layouts : t'.layouts = insert t.nid t.layouts
  nid : t'.nid = t.nid + 1
  consistent : t'.Consistent
  fields : ∀ m ∈ t.layouts, SameFields (t'.nodes m) (t.nodes m)
  source : ∀ l, l ∈ (t'.nodes n).successors ↔
    l = ⟨t.nid, tag⟩ ∨ l ∈ (t.nodes n).successors ∧ l ∉ moved
  target : ∀ l, l ∈ (t'.nodes t.nid).successors ↔ ∃ l' ∈ moved, l = ⟨l'.node, newTag l'.tag⟩
  others : ∀ m ∈ t.layouts, m ≠ n → (t'.nodes m).successors = (t.nodes m).successors

/-- A new node with some values in its fields. -/
def LayoutTypeSystem.createWith (t : LayoutTypeSystem E) [IntEqClasses E]
    (f : LayoutTypeSystemNode → LayoutTypeSystemNode) : LayoutTypeSystem E :=
  let new := t.createArtificialLayoutType
  { new with nodes := new.nodes.modify t.nid f }

section Create

variable [IntEqClasses E] {f : LayoutTypeSystemNode → LayoutTypeSystemNode}

theorem nodes_createWith_of_ne {m : Nat} (hm : m ≠ t.nid) :
    (t.createWith f).nodes m = t.nodes m := by
  simp [LayoutTypeSystem.createWith, createArtificialLayoutType, modify_apply, hm]

theorem nodes_createWith_self : (t.createWith f).nodes t.nid = f .new := by
  simp [LayoutTypeSystem.createWith, createArtificialLayoutType, modify_apply]

theorem consistent_createWith (ht : t.Consistent) (hnid : t.nid ∉ t.layouts)
    (hsucc : (f .new).successors = ∅) (hpred : (f .new).predecessors = ∅) :
    (t.createWith f).Consistent := by
  obtain ⟨g, hg⟩ := ht.represents
  have hcreated := hg.create hnid
  have hmodified := hcreated.modify (k := t.nid) (f := f)
    (by rw [Function.update_self, hsucc]; rfl) (by rw [Function.update_self, hpred]; rfl)
  exact Represents.consistent (s := t.createWith f) hmodified

/-- A group of edges is moved, and the link to the new node added. -/
theorem EdgesMoved.regrouped (hnid : ∀ m ∈ t.layouts, m < t.nid)
    (hn : n ∈ t.layouts) (hsucc : (f .new).successors = ∅)
    {newTag : TypeLinkTag → TypeLinkTag} {moved : List Link}
    (h : EdgesMoved (t.createWith f) n t.nid newTag moved t') (tag : TypeLinkTag)
    (ht'' : t'' = { t' with nodes := insertLink t'.nodes n t.nid tag }) :
    Regrouped t n newTag moved tag t'' ∧ SameFields (t''.nodes t.nid) (f .new) := by
  have hne : ∀ {m}, m ∈ t.layouts → m ≠ t.nid := fun hm => (hnid _ hm).ne
  have hnew : t.nid ∈ t'.layouts := by
    rw [h.layouts]
    exact Finset.mem_insert_self _ _
  have hn' : n ∈ t'.layouts := by
    rw [h.layouts]
    exact Finset.mem_insert_of_mem hn
  obtain ⟨g, hg⟩ := h.consistent.represents
  subst ht''
  refine ⟨⟨h.layouts, h.nid, ?_, fun m hm => ?_, fun l => ?_, fun l => ?_, fun m hm hmn => ?_⟩, ?_⟩
  · exact Represents.consistent (s := { t' with nodes := _ })
      (hg.insertLink hn' hnew (hne hn) tag)
  · have hfields := (sameFields_insertLink t'.nodes n t.nid tag m).trans (h.fields m)
    rwa [nodes_createWith_of_ne (hne hm)] at hfields
  · rw [mem_successors_insert, h.source, nodes_createWith_of_ne (hne hn)]
    simp
  · rw [mem_successors_insert, h.target, nodes_createWith_self, hsucc]
    simp [(hne hn).symm]
  · ext l
    rw [mem_successors_insert, h.others m hmn (hne hm), nodes_createWith_of_ne (hne hm)]
    simp [hmn]
  · have hfields := (sameFields_insertLink t'.nodes n t.nid tag t.nid).trans (h.fields t.nid)
    rwa [nodes_createWith_self] at hfields

theorem exists_regrouped (ht : t.Consistent) (hnid : ∀ m ∈ t.layouts, m < t.nid)
    (hn : n ∈ t.layouts) (hsucc : (f .new).successors = ∅) (hpred : (f .new).predecessors = ∅)
    {newTag : TypeLinkTag → TypeLinkTag} (P : Link → Prop)
    {move : LayoutTypeSystem E → Link → Option (LayoutTypeSystem E)}
    (hmove : ∀ (t' : LayoutTypeSystem E) (l : Link), t'.Consistent → n ∈ t'.layouts →
      t.nid ∈ t'.layouts → l ∈ (t'.nodes n).successors → P l →
      ∃ t'', move t' l = some t'' ∧ EdgesMoved t' n t.nid newTag [l] t'')
    {moved : List Link} (hnodup : moved.Nodup)
    (hmoved : ∀ l ∈ moved, l ∈ (t.nodes n).successors ∧ P l) (oe : OffsetExpression)
    (hlimit : oe.offset ≤ 0xFFFF) :
    ∃ t₁ t', moved.foldlM move (t.createWith f) = some t₁ ∧
      EdgesMoved (t.createWith f) n t.nid newTag moved t₁ ∧
      t₁.addInstanceLink (some n) (some t.nid) oe = some t' ∧
      Regrouped t n newTag moved (.instanceTag oe) t' ∧ SameFields (t'.nodes t.nid) (f .new) := by
  have hne : n ≠ t.nid := (hnid n hn).ne
  have hmem : n ∈ (t.createWith f).layouts := Finset.mem_insert_of_mem hn
  have hnew : t.nid ∈ (t.createWith f).layouts := Finset.mem_insert_self _ _
  obtain ⟨t₁, hrun, h₁⟩ := exists_foldlM_edgesMoved P hmove moved
    (consistent_createWith ht (fun h => (hnid _ h).false) hsucc hpred) hmem hnew hnodup fun l hl => by
      rw [nodes_createWith_of_ne hne]
      exact hmoved l hl
  obtain ⟨hregrouped, hfields⟩ := h₁.regrouped hnid hn hsucc (.instanceTag oe) rfl
  refine ⟨t₁, _, hrun, h₁, ?_, hregrouped, hfields⟩
  simp only [addInstanceLink, if_neg (Nat.not_lt.mpr hlimit), addLink, if_neg hne,
    if_pos (And.intro (h₁.layouts ▸ hmem) (h₁.layouts ▸ hnew)), Option.map_some]

end Create

end DataLayout
