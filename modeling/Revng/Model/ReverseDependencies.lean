import Revng.Lib.PartialLoops
import Revng.Model.Processing

/-!
# What the worklist reaches

A definition cannot exist without the given ones if it is one of them, if it contains such a
definition by value and has no fields, or if it is a union all of whose fields contain one
(`Doomed`).  The worklist takes exactly the nodes of these definitions, and the nodes that such a
definition has an edge to (`mem_order_iff`).
-/

namespace Model

open OnceQueue

/-- The definition is one of the given ones or cannot exist without them. -/
inductive Doomed (typeDefinitions : KeyedVector TypeDefinition) (types : List ℕ) : ℕ → Prop
  | given {key : ℕ} : key ∈ types → Doomed typeDefinitions types key
  | depends {key place target : ℕ} {d : TypeDefinition} {t : UpcastableType} :
      (key, d) ∈ typeDefinitions.entries → d.hasFields = false → (place, t) ∈ d.references →
      t.byValue = some target → Doomed typeDefinitions types target →
      Doomed typeDefinitions types key
  | union {key : ℕ} {fields : KeyedVector UpcastableType} :
      (key, .unionDefinition fields) ∈ typeDefinitions.entries → fields.entries ≠ [] →
      (∀ x ∈ fields.entries, ∃ target, x.2.byValue = some target) →
      (∀ x ∈ fields.entries, ∀ target, x.2.byValue = some target →
        Doomed typeDefinitions types target) →
      Doomed typeDefinitions types key

variable {ds : KeyedVector TypeDefinition} {types : List ℕ} {edges : List (ℕ × GraphNode)}

/-! ## Edges -/

/-- A definition that is not given refers to the target, which has an edge to the node. -/
def IsEdge (ds : KeyedVector TypeDefinition) (types : List ℕ) (target : ℕ) (n : GraphNode) : Prop :=
  ∃ key d place t, (key, d) ∈ ds.entries ∧ key ∉ types ∧ (place, t) ∈ d.references ∧
    t.referencedDefinition = some target ∧
    n = if t.crossesPointer then .pointer key place else directNode key place d

theorem mem_registrations {r : Registration} :
    r ∈ registrations ds types ↔ ∃ key d place t, (key, d) ∈ ds.entries ∧ key ∉ types ∧
      (place, t) ∈ d.references ∧ r = ⟨t, directNode key place d, .pointer key place⟩ := by
  simp only [registrations, registrationsOf, List.mem_flatMap, List.mem_filter, List.mem_map,
    Prod.exists, List.contains_iff_mem, Bool.not_eq_true',
    ← Bool.not_eq_true, and_assoc, eq_comm (b := r)]
  constructor
  · rintro ⟨key, d, hd, hkey, place, t, ht, rfl⟩
    exact ⟨key, d, place, t, hd, hkey, ht, rfl⟩
  · rintro ⟨key, d, place, t, hd, hkey, ht, rfl⟩
    exact ⟨key, d, hd, hkey, place, t, ht, rfl⟩

theorem registerEdge_eq_some {r : Registration} {es : List (ℕ × GraphNode)}
    (h : registerEdge ds r = some es) (target : ℕ) (n : GraphNode) :
    (target, n) ∈ es ↔ r.typeReference.referencedDefinition = some target ∧
      n = if r.typeReference.crossesPointer then r.pointer else r.direct := by
  rw [registerEdge] at h
  split at h
  case h_1 hnone => simp [← Option.some.inj h, hnone]
  case h_2 d hsome =>
      split_ifs at h with hfind hcross
      all_goals
        simp only [← Option.some.inj h, hsome, List.mem_singleton, Prod.mk.injEq, Option.some.injEq,
          hcross, if_true, Bool.false_eq_true, if_false]
        exact and_congr_left' eq_comm

variable {target : ℕ}

variable {n : GraphNode}

theorem mem_graph_iff (h : reverseDependencyGraph ds types = some edges) :
    (target, n) ∈ edges ↔ IsEdge ds types target n := by
  obtain ⟨parts, hparts, rfl⟩ := Option.map_eq_some_iff.1 h
  have hedge (r : Registration) (hr : r ∈ registrations ds types) :
      (r.typeReference.referencedDefinition = some target ∧
        n = if r.typeReference.crossesPointer then r.pointer else r.direct) →
      IsEdge ds types target n := by
    rintro ⟨href, hn⟩
    obtain ⟨key, d, place, t, hd, hkey, ht, rfl⟩ := mem_registrations.1 hr
    exact ⟨key, d, place, t, hd, hkey, ht, href, hn⟩
  rw [List.mem_flatten]
  constructor
  · rintro ⟨es, hes, hmem⟩
    obtain ⟨r, hr, hre⟩ := PartialLoops.exists_of_mapM hparts es hes
    exact hedge r hr ((registerEdge_eq_some hre target n).1 hmem)
  · rintro ⟨key, d, place, t, hd, hkey, ht, href, hn⟩
    obtain ⟨es, hes, hre⟩ := PartialLoops.forall_of_mapM hparts _
      (mem_registrations.2 ⟨key, d, place, t, hd, hkey, ht, rfl⟩)
    exact ⟨es, hes, (registerEdge_eq_some hre target n).2 ⟨href, hn⟩⟩

/-- An edge is there for a containment by value, or it leads to a pointer. -/
theorem isEdge_iff :
    IsEdge ds types target n ↔ ∃ key d place t, (key, d) ∈ ds.entries ∧ key ∉ types ∧
      (place, t) ∈ d.references ∧
      (t.byValue = some target ∧ n = directNode key place d ∨
        t.referencedDefinition = some target ∧ t.crossesPointer = true ∧
          n = .pointer key place) := by
  refine exists_congr fun key => exists_congr fun d => exists_congr fun place =>
    exists_congr fun t => and_congr_right' <| and_congr_right' <| and_congr_right' ?_
  rw [UpcastableType.byValue_eq_some]
  cases t.crossesPointer <;> simp

theorem isEdge_definition {key : ℕ} (h : IsEdge ds types target (.definition key)) :
    ∃ d place t, (key, d) ∈ ds.entries ∧ d.hasFields = false ∧ (place, t) ∈ d.references ∧
      t.byValue = some target := by
  obtain ⟨key', d, place, t, hd, -, ht, ⟨hvalue, hn⟩ | ⟨-, -, hn⟩⟩ := isEdge_iff.1 h
  · have hplain : key' = key ∧ d.hasFields = false := by
      cases d <;> simp_all [directNode, TypeDefinition.hasFields]
    exact ⟨d, place, t, hplain.1 ▸ hd, hplain.2, ht, hvalue⟩
  · cases hn

variable {parent : ℕ}

theorem isEdge_unionField {index : ℕ} :
    IsEdge ds types target (.unionField parent index) ↔
      parent ∉ types ∧ ∃ fields t, (parent, .unionDefinition fields) ∈ ds.entries ∧
        (index, t) ∈ fields.entries ∧ t.byValue = some target := by
  constructor
  · intro h
    obtain ⟨key, d, place, t, hd, hkey, ht, ⟨hvalue, hn⟩ | ⟨-, -, hn⟩⟩ := isEdge_iff.1 h
    · cases d with
      | unionDefinition fields =>
        obtain ⟨rfl, rfl⟩ := GraphNode.unionField.inj hn
        exact ⟨hkey, fields, t, hd, ht, hvalue⟩
      | _ => cases hn
    · cases hn
  · rintro ⟨hkey, fields, t, hd, ht, hvalue⟩
    exact isEdge_iff.2 ⟨parent, _, index, t, hd, hkey, ht, .inl ⟨hvalue, rfl⟩⟩

theorem isEdge_pointer {owner place : ℕ} :
    IsEdge ds types target (.pointer owner place) ↔
      owner ∉ types ∧ ∃ d t, (owner, d) ∈ ds.entries ∧ (place, t) ∈ d.references ∧
        t.referencedDefinition = some target ∧ t.crossesPointer = true := by
  constructor
  · intro h
    obtain ⟨key, d, place', t, hd, hkey, ht, ⟨-, hn⟩ | ⟨href, hcross, hn⟩⟩ := isEdge_iff.1 h
    · cases d <;> cases hn
    · obtain ⟨rfl, rfl⟩ := GraphNode.pointer.inj hn
      exact ⟨hkey, d, t, hd, ht, href, hcross⟩
  · rintro ⟨hkey, d, t, hd, ht, href, hcross⟩
    exact isEdge_iff.2 ⟨owner, d, place, t, hd, hkey, ht, .inr ⟨href, hcross, rfl⟩⟩

/-! ## The state after some visits -/

variable {us : List GraphNode}

theorem mem_toDelete_after {d : ℕ} :
    d ∈ (after (visit edges) (Traversal.start ds) us).toDelete ↔ .definition d ∈ us := by
  induction us using List.reverseRecOn with
  | nil => simp [after, Traversal.start]
  | append_singleton us x ih =>
    rw [after_append]
    cases x <;> simp [visit, ih, or_comm]

theorem mem_structFieldsToRemove_after {x : ℕ × ℕ} :
    x ∈ (after (visit edges) (Traversal.start ds) us).structFieldsToRemove ↔
      .structField x.1 x.2 ∈ us := by
  induction us using List.reverseRecOn with
  | nil => simp [after, Traversal.start]
  | append_singleton us n ih =>
    rw [after_append]
    cases n <;> simp [visit, ih, or_comm, Prod.ext_iff]

theorem mem_unionFieldsToRemove_after {x : ℕ × ℕ} :
    x ∈ (after (visit edges) (Traversal.start ds) us).unionFieldsToRemove ↔
      .unionField x.1 x.2 ∈ us := by
  induction us using List.reverseRecOn with
  | nil => simp [after, Traversal.start]
  | append_singleton us n ih =>
    rw [after_append]
    cases n <;> simp [visit, ih, or_comm, Prod.ext_iff]

/-- The definitions in which the pointers among the given nodes point to `void`. -/
def voided (us : List GraphNode) (ds : KeyedVector TypeDefinition) : KeyedVector TypeDefinition :=
  ds.modify fun key d => d.modify fun place t =>
    if .pointer key place ∈ us then t.voidPointee else t

theorem voidPointeeAt_voided {owner place : ℕ} (h : .pointer owner place ∉ us) :
    voidPointeeAt owner place (voided us ds) = voided (us ++ [.pointer owner place]) ds := by
  rw [voidPointeeAt, voided, voided, KeyedVector.modify_modify]
  congr
  funext key d
  by_cases hkey : key = owner
  · subst hkey
    simp only [if_true, TypeDefinition.modify_modify]
    congr
    funext i t
    by_cases hi : i = place
    · subst hi
      simp [h]
    · simp [hi]
  · simp [hkey]

theorem typeDefinitions_after (h : us.Nodup) :
    (after (visit edges) (Traversal.start ds) us).typeDefinitions = voided us ds := by
  induction us using List.reverseRecOn with
  | nil => simp [after, Traversal.start, voided, TypeDefinition.modify_id, KeyedVector.modify]
  | append_singleton us n ih =>
    obtain ⟨hus, -, hn⟩ := List.nodup_append.1 h
    rw [after_append]
    cases n with
    | pointer owner place =>
      rw [visit, ih hus]
      exact voidPointeeAt_voided fun hmem => hn _ hmem _ (by simp) rfl
    | _ => simp [visit, ih hus, voided]

variable {fields : KeyedVector UpcastableType}

theorem fieldCount_voided {key : ℕ} (h : (key, .unionDefinition fields) ∈ ds.entries) :
    fieldCount (voided us ds) key = fields.entries.length := by
  rw [fieldCount, voided, KeyedVector.find_modify, KeyedVector.find_eq_some.2 h]
  simp [TypeDefinition.modify, KeyedVector.modify]

/-! ## The nodes in the order -/

/-- A node of a doomed definition, or one that a doomed definition has an edge to. -/
def Reached (ds : KeyedVector TypeDefinition) (types : List ℕ) : GraphNode → Prop
  | .definition d => Doomed ds types d
  | n => ∃ target, Doomed ds types target ∧ IsEdge ds types target n

theorem reached_of_isEdge (hdoomed : Doomed ds types target) (h : IsEdge ds types target n) :
    Reached ds types n := by
  cases n with
  | definition key =>
    obtain ⟨d, place, t, hd, hfields, ht, hvalue⟩ := isEdge_definition h
    exact .depends hd hfields ht hvalue hdoomed
  | _ => exact ⟨target, hdoomed, h⟩

theorem reached_unionField {index : ℕ} (hd : (parent, .unionDefinition fields) ∈ ds.entries)
    (h : Reached ds types (.unionField parent index)) :
    ∃ t target, (index, t) ∈ fields.entries ∧ t.byValue = some target ∧
      Doomed ds types target := by
  obtain ⟨target, hdoomed, hedge⟩ := h
  obtain ⟨-, fields', t, hd', ht, hvalue⟩ := isEdge_unionField.1 hedge
  obtain rfl := TypeDefinition.unionDefinition.inj (KeyedVector.eq_of_mem hd hd')
  exact ⟨t, target, ht, hvalue, hdoomed⟩

/-- The fields of a union are counted: all of them are there if there are as many. -/
theorem card_filter_eq_iff {removed : Finset (ℕ × ℕ)}
    (h : ∀ index, (parent, index) ∈ removed → ∃ t, (index, t) ∈ fields.entries) :
    (removed.filter fun x => x.1 = parent).card = fields.entries.length ↔
      ∀ x ∈ fields.entries, (parent, x.1) ∈ removed := by
  have hsub : (removed.filter fun x => x.1 = parent) ⊆
      fields.keys.toFinset.image fun index => (parent, index) := by
    rintro ⟨p, index⟩ hx
    obtain ⟨hmem, hp⟩ := Finset.mem_filter.1 hx
    obtain rfl : p = parent := hp
    exact Finset.mem_image.2
      ⟨index, List.mem_toFinset.2 (KeyedVector.mem_keys.2 (h index hmem)), rfl⟩
  have hcard : (fields.keys.toFinset.image fun index => (parent, index)).card =
      fields.entries.length := by
    rw [Finset.card_image_of_injective _ fun _ _ h => (Prod.ext_iff.1 h).2,
      List.toFinset_card_of_nodup (show fields.keys.Nodup from fields.nodup), KeyedVector.keys,
      List.length_map]
  rw [← hcard]
  constructor
  · intro heq x hx
    have hmem : (parent, x.1) ∈ removed.filter fun x => x.1 = parent := by
      rw [Finset.eq_of_subset_of_card_le hsub heq.ge]
      exact Finset.mem_image_of_mem _ (List.mem_toFinset.2 (KeyedVector.mem_keys.2 ⟨x.2, hx⟩))
    exact (Finset.mem_filter.1 hmem).1
  · intro hall
    congr 1
    refine hsub.antisymm fun y hy => ?_
    obtain ⟨index, hindex, rfl⟩ := Finset.mem_image.1 hy
    obtain ⟨t, ht⟩ := KeyedVector.mem_keys.1 (List.mem_toFinset.1 hindex)
    exact Finset.mem_filter.2 ⟨hall _ ht, rfl⟩

variable {order : List GraphNode}

/-- The nodes are visited in this order, with those of the given definitions first. -/
def IsOrder (ds : KeyedVector TypeDefinition) (types : List ℕ) (edges : List (ℕ × GraphNode))
    (order : List GraphNode) : Prop :=
  Drained (visit edges) (types.map .definition) (Traversal.start ds) order

/-- The visit of a field, after others, yields its union exactly if it is the last of them. -/
theorem mem_yielded_unionField {index : ℕ} (hd : (parent, .unionDefinition fields) ∈ ds.entries)
    (hnodup : us.Nodup) (hus : ∀ u ∈ us, Reached ds types u)
    (hx : Reached ds types (.unionField parent index)) :
    n ∈ yielded (visit edges) (Traversal.start ds) us (.unionField parent index) ↔
      n = .definition parent ∧
        ∀ x ∈ fields.entries, .unionField parent x.1 ∈ us ++ [.unionField parent index] := by
  have hremoved : ∀ i, (parent, i) ∈ insert (parent, index)
      (after (visit edges) (Traversal.start ds) us).unionFieldsToRemove ↔
        .unionField parent i ∈ us ++ [.unionField parent index] := by
    intro i
    simp [mem_unionFieldsToRemove_after, or_comm]
  have hfield : ∀ i, (parent, i) ∈ insert (parent, index)
      (after (visit edges) (Traversal.start ds) us).unionFieldsToRemove →
        ∃ t, (i, t) ∈ fields.entries := by
    intro i hi
    have hi : Reached ds types (.unionField parent i) := by
      rcases List.mem_append.1 ((hremoved i).1 hi) with hi | hi
      · exact hus _ hi
      · rwa [List.mem_singleton.1 hi]
    obtain ⟨t, -, ht, -⟩ := reached_unionField hd hi
    exact ⟨t, ht⟩
  rw [yielded, visit, typeDefinitions_after hnodup, fieldCount_voided hd]
  simp only [card_filter_eq_iff hfield, hremoved]
  split_ifs with hall
  · rw [List.mem_singleton, and_iff_left hall]
  · exact ⟨fun h => absurd h List.not_mem_nil, fun h => absurd h.2 hall⟩

/-- What is taken belongs to a doomed definition or depends on one. -/
theorem IsOrder.reached (hgraph : reverseDependencyGraph ds types = some edges)
    (h : IsOrder ds types edges order) : ∀ n ∈ order, Reached ds types n := by
  refine Drained.induction h (fun n hn => ?_) fun us x hinit hus hx n hn => ?_
  · obtain ⟨d, hd, rfl⟩ := List.mem_map.1 hn
    exact .given hd
  · have hnodup : us.Nodup := (h.nodup.sublist hinit.sublist).of_append_left
    cases x with
    | definition d =>
      obtain ⟨⟨target, n'⟩, hfilter, rfl⟩ := List.mem_map.1 hn
      obtain ⟨hedge, htarget⟩ := List.mem_filter.1 hfilter
      obtain rfl : target = d := by simpa using htarget
      exact reached_of_isEdge hx ((mem_graph_iff hgraph).1 hedge)
    | unionField parent index =>
      obtain ⟨target, hdoomed, hedge⟩ := id hx
      obtain ⟨-, fields, t, hd, ht, -⟩ := isEdge_unionField.1 hedge
      obtain ⟨rfl, hall⟩ := (mem_yielded_unionField hd hnodup hus hx).1 hn
      have hfield (x : ℕ × UpcastableType) (hmem : x ∈ fields.entries) :
          ∃ target, x.2.byValue = some target ∧ Doomed ds types target := by
        have hreach : Reached ds types (.unionField parent x.1) := by
          rcases List.mem_append.1 (hall x hmem) with hx' | hx'
          · exact hus _ hx'
          · rwa [List.mem_singleton.1 hx']
        obtain ⟨t, target, ht, hvalue, hdoomed⟩ := reached_unionField hd hreach
        exact ⟨target, KeyedVector.eq_of_mem ht hmem ▸ hvalue, hdoomed⟩
      refine .union hd (List.ne_nil_of_mem ht) (fun x hx => ?_) fun x hx target hvalue => ?_
      · obtain ⟨target, hvalue, -⟩ := hfield x hx
        exact ⟨target, hvalue⟩
      · obtain ⟨target', hvalue', hdoomed⟩ := hfield x hx
        exact Option.some.inj (hvalue'.symm.trans hvalue) ▸ hdoomed
    | _ => cases hn

theorem IsOrder.mem_of_isEdge (hgraph : reverseDependencyGraph ds types = some edges)
    (h : IsOrder ds types edges order) (htarget : .definition target ∈ order)
    (hedge : IsEdge ds types target n) : n ∈ order := by
  obtain ⟨us, rest, hsplit⟩ := List.append_of_mem htarget
  refine h.yields us (.definition target) ⟨rest, by simp [hsplit]⟩ n ?_
  exact List.mem_map.2 ⟨(target, n),
    List.mem_filter.2 ⟨(mem_graph_iff hgraph).2 hedge, by simp⟩, rfl⟩

/-- When all fields of a union have been taken, the last of them yields the union. -/
theorem IsOrder.mem_union (hgraph : reverseDependencyGraph ds types = some edges)
    (h : IsOrder ds types edges order) {key : ℕ} (hd : (key, .unionDefinition fields) ∈ ds.entries)
    (hne : fields.entries ≠ []) (hall : ∀ x ∈ fields.entries, .unionField key x.1 ∈ order) :
    .definition key ∈ order := by
  suffices hinitial : ∀ us, us <+: order → (∀ x ∈ fields.entries, .unionField key x.1 ∈ us) →
      .definition key ∈ order from hinitial order List.prefix_rfl hall
  intro us
  induction us using List.reverseRecOn with
  | nil =>
    intro _ hus
    obtain ⟨x, hx⟩ := List.exists_mem_of_ne_nil _ hne
    exact absurd (hus x hx) List.not_mem_nil
  | append_singleton us n ih =>
    intro hinit hus
    by_cases hbefore : ∀ x ∈ fields.entries, .unionField key x.1 ∈ us
    · exact ih ((List.prefix_append us [n]).trans hinit) hbefore
    · push Not at hbefore
      obtain ⟨x, hx, hnot⟩ := hbefore
      obtain rfl : .unionField key x.1 = n := by
        simpa [hnot] using hus x hx
      have hnodup : us.Nodup := (h.nodup.sublist hinit.sublist).of_append_left
      have hreached : ∀ u ∈ us ++ [.unionField key x.1], Reached ds types u :=
        fun u hu => h.reached hgraph u (hinit.subset hu)
      refine h.yields us _ hinit _ ((mem_yielded_unionField hd hnodup
        (fun u hu => hreached u (List.mem_append_left _ hu)) (hreached _ (by simp))).2 ⟨rfl, hus⟩)

theorem IsOrder.mem_of_doomed (hgraph : reverseDependencyGraph ds types = some edges)
    (h : IsOrder ds types edges order) {key : ℕ} (hdoomed : Doomed ds types key) :
    .definition key ∈ order := by
  have hgiven {key : ℕ} (hkey : key ∈ types) : .definition key ∈ order :=
    h.seed _ (List.mem_map_of_mem hkey)
  induction hdoomed with
  | given hkey => exact hgiven hkey
  | @depends key place target d t hd hfields ht hvalue _ ih =>
    by_cases hkey : key ∈ types
    · exact hgiven hkey
    · refine h.mem_of_isEdge hgraph ih (isEdge_iff.2 ⟨key, d, place, t, hd, hkey, ht, .inl
        ⟨hvalue, ?_⟩⟩)
      cases d <;> first | rfl | cases hfields
  | @union key fields hd hne hsome _ ih =>
    by_cases hkey : key ∈ types
    · exact hgiven hkey
    · refine h.mem_union hgraph hd hne fun x hx => ?_
      obtain ⟨target, hvalue⟩ := hsome x hx
      exact h.mem_of_isEdge hgraph (ih x hx target hvalue)
        (isEdge_unionField.2 ⟨hkey, fields, x.2, hd, hx, hvalue⟩)

/-- The worklist takes exactly the nodes that are reached. -/
theorem IsOrder.mem_iff (hgraph : reverseDependencyGraph ds types = some edges)
    (h : IsOrder ds types edges order) : n ∈ order ↔ Reached ds types n := by
  refine ⟨h.reached hgraph n, fun hn => ?_⟩
  cases n with
  | definition d => exact h.mem_of_doomed hgraph hn
  | _ =>
    obtain ⟨target, hdoomed, hedge⟩ := hn
    exact h.mem_of_isEdge hgraph (h.mem_of_doomed hgraph hdoomed) hedge

end Model
